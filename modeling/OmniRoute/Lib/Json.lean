import OmniRoute.Lib.Delimited

/-!
# JSON values and their text

A JSON value is a tree; its text is what `JSON.stringify` makes of it, without white space and
with the fields of an object in their order. The numbers are a parameter: all that is asked of
their text is what the number grammar gives, a nonempty run of digits, signs, points and exponent
marks, different for different numbers.

**Main result (`stringify_inj`).** Different values have different texts. The text of a value
followed by anything that cannot continue a number can be read back (`print_append_inj`); strings
can because every escape can (`readChar_escapeChar`).
-/

/-- The characters of a JSON number. -/
def isNumberChar (c : Char) : Bool :=
  c.isDigit || c = '-' || c = '+' || c = '.' || c = 'e'

/-- A type of numbers with their JSON text. -/
class JsonNumber (N : Type) where
  text : N → List Char
  text_ne_nil : ∀ n, text n ≠ []
  text_chars : ∀ n, ∀ c ∈ text n, isNumberChar c = true
  text_inj : ∀ n m, text n = text m → n = m

instance : JsonNumber ℤ where
  text z := (toString z).toList
  text_ne_nil z := by
    rw [Delimited.toString_int_eq]
    split
    · rw [Delimited.toList_toString_nat]
      exact Nat.toDigits_ne_nil
    · exact List.cons_ne_nil _ _
  text_chars z c h := by
    unfold isNumberChar
    rcases Delimited.mem_int h with h | rfl
    · simp [h]
    · rfl
  text_inj _ _ h := Delimited.toString_int_inj (String.toList_inj.1 h)

/-- A JSON value with numbers in `N`. -/
inductive Json (N : Type)
  | null
  | bool (b : Bool)
  | num (n : N)
  | str (s : String)
  | arr (items : List (Json N))
  | obj (fields : List (String × Json N))

namespace Json

open List

variable {N : Type}

/-- Whether a value counts as true in a condition. -/
def truthy [Zero N] [DecidableEq N] : Json N → Bool
  | null => false
  | bool b => b
  | num n => decide (n ≠ 0)
  | str s => decide (s ≠ "")
  | arr _ => true
  | obj _ => true

/-- `value[name]`, if the value is an object that has the field. -/
def prop : Json N → String → Option (Json N)
  | obj fields, name => fields.lookup name
  | _, _ => none

/-- `value.type === name` -/
def hasType (value : Json N) (name : String) : Bool :=
  match value.prop "type" with
  | some (str s) => decide (s = name)
  | _ => false

/-! ## Strings -/

def hexDigit (n : ℕ) : Char := if n < 10 then Char.ofNat (48 + n) else Char.ofNat (87 + n)

def hexValue (c : Char) : ℕ := if c.toNat < 58 then c.toNat - 48 else c.toNat - 87

/-- A character inside a string literal. -/
def escapeChar (c : Char) : List Char :=
  if c = '"' then ['\\', '"']
  else if c = '\\' then ['\\', '\\']
  else if c.toNat < 32 then
    if c = '\n' then ['\\', 'n']
    else if c = '\r' then ['\\', 'r']
    else if c = '\t' then ['\\', 't']
    else if c.toNat = 8 then ['\\', 'b']
    else if c.toNat = 12 then ['\\', 'f']
    else ['\\', 'u', '0', '0', hexDigit (c.toNat / 16), hexDigit (c.toNat % 16)]
  else [c]

/-- One character read back from a string literal; none at its end. -/
def readChar : List Char → Option (Char × List Char)
  | '\\' :: 'u' :: '0' :: '0' :: a :: b :: r => some (Char.ofNat (hexValue a * 16 + hexValue b), r)
  | '\\' :: 'n' :: r => some ('\n', r)
  | '\\' :: 'r' :: r => some ('\r', r)
  | '\\' :: 't' :: r => some ('\t', r)
  | '\\' :: 'b' :: r => some (Char.ofNat 8, r)
  | '\\' :: 'f' :: r => some (Char.ofNat 12, r)
  | '\\' :: c :: r => some (c, r)
  | '"' :: _ => none
  | c :: r => some (c, r)
  | [] => none

theorem readChar_escapeChar (c : Char) (r : List Char) :
    readChar (escapeChar c ++ r) = some (c, r) := by
  unfold escapeChar
  by_cases hq : c = '"'
  · subst hq
    rfl
  by_cases hb : c = '\\'
  · subst hb
    rfl
  rw [if_neg hq, if_neg hb]
  by_cases hlow : c.toNat < 32
  · -- The control characters, one by one.
    obtain ⟨n, hn, rfl⟩ : ∃ n < 32, c = Char.ofNat n := ⟨c.toNat, hlow, (Char.ofNat_toNat c).symm⟩
    interval_cases n <;> rfl
  · rw [if_neg hlow, singleton_append]
    unfold readChar
    split <;> simp_all

/-- A string literal without its opening quote. -/
def printChars : List Char → List Char
  | [] => ['"']
  | c :: cs => escapeChar c ++ printChars cs

theorem printChars_append_inj {s s' r r' : List Char}
    (h : printChars s ++ r = printChars s' ++ r') : s = s' ∧ r = r' := by
  have hend : ∀ t, readChar (printChars [] ++ t) = none := fun _ => rfl
  have hread : ∀ c cs t, readChar (printChars (c :: cs) ++ t) = some (c, printChars cs ++ t) :=
    fun c cs t => by rw [printChars, append_assoc, readChar_escapeChar]
  induction s generalizing s' with
  | nil =>
    cases s' with
    | nil => exact ⟨rfl, (cons.inj h).2⟩
    | cons c' s' =>
      have := congrArg readChar h
      rw [hend, hread] at this
      cases this
  | cons c s ih =>
    cases s' with
    | nil =>
      have := congrArg readChar h
      rw [hend, hread] at this
      cases this
    | cons c' s' =>
      have := congrArg readChar h
      rw [hread, hread] at this
      obtain ⟨rfl, hrest⟩ := Prod.mk.inj (Option.some.inj this)
      obtain ⟨rfl, hr⟩ := ih hrest
      exact ⟨rfl, hr⟩

/-! ## Values -/

section Print

variable [JsonNumber N]

mutual

/-- The text of a value. -/
def print : Json N → List Char
  | null => ['n', 'u', 'l', 'l']
  | bool true => ['t', 'r', 'u', 'e']
  | bool false => ['f', 'a', 'l', 's', 'e']
  | num n => JsonNumber.text n
  | str s => '"' :: printChars s.toList
  | arr [] => ['[', ']']
  | arr (item :: items) => '[' :: (print item ++ printItems items)
  | obj [] => ['{', '}']
  | obj ((key, value) :: fields) =>
      '{' :: '"' :: (printChars key.toList ++ ':' :: (print value ++ printFields fields))

/-- The items of an array after the first, and the closing bracket. -/
def printItems : List (Json N) → List Char
  | [] => [']']
  | item :: items => ',' :: (print item ++ printItems items)

/-- The fields of an object after the first, and the closing brace. -/
def printFields : List (String × Json N) → List Char
  | [] => ['}']
  | (key, value) :: fields =>
      ',' :: '"' :: (printChars key.toList ++ ':' :: (print value ++ printFields fields))

end

/-- `JSON.stringify`. -/
def stringify (v : Json N) : String := String.ofList (print v)

mutual

/-- A value as an item of `Array.prototype.join`. -/
def joinText : Json N → String
  | null => ""
  | bool b => toString b
  | num n => String.ofList (JsonNumber.text n)
  | str s => s
  | arr items => joinItems items
  | obj _ => "[object Object]"

/-- The items of an array, joined by commas. -/
def joinItems : List (Json N) → String
  | [] => ""
  | [item] => joinText item
  | item :: items => joinText item ++ "," ++ joinItems items

end

/-- A value in a template literal. -/
def templateText : Option (Json N) → String
  | none => "undefined"
  | some null => "null"
  | some value => value.joinText

/-! ## Reading values back -/

/-- What may follow a value: nothing, or a character that does not go on with a number. -/
def Ends (r : List Char) : Prop := ∀ c ∈ r.head?, isNumberChar c = false

theorem ends_cons {c : Char} (h : isNumberChar c = false) (r : List Char) : Ends (c :: r) := by
  intro c' hc'
  cases hc'
  exact h

theorem ends_printItems (items : List (Json N)) (r : List Char) : Ends (printItems items ++ r) := by
  cases items with
  | _ => exact ends_cons rfl _

theorem ends_printFields (fields : List (String × Json N)) (r : List Char) :
    Ends (printFields fields ++ r) := by
  cases fields with
  | _ => exact ends_cons rfl _

/-- A number is read as far as its characters go. -/
theorem text_append_inj {n m : N} {r r' : List Char} (hr : Ends r) (hr' : Ends r')
    (h : JsonNumber.text n ++ r = JsonNumber.text m ++ r') : n = m ∧ r = r' := by
  have hmunch : ∀ (k : N) {t : List Char}, Ends t →
      (JsonNumber.text k ++ t).takeWhile isNumberChar = JsonNumber.text k := by
    intro k t ht
    rw [takeWhile_append_of_pos (JsonNumber.text_chars k)]
    cases t with
    | nil => rw [takeWhile_nil, append_nil]
    | cons c t =>
      rw [takeWhile_cons_of_neg (by rw [ht c rfl]; decide), append_nil]
  have htext : JsonNumber.text n = JsonNumber.text m := by
    rw [← hmunch n hr, h, hmunch m hr']
  rw [htext] at h
  exact ⟨JsonNumber.text_inj n m htext, append_cancel_left h⟩

/-- The constructors of a value, with the two truth values apart. -/
inductive Kind
  | null | true | false | num | str | arr | obj
  deriving DecidableEq

def kind : Json N → Kind
  | null => .null
  | bool true => .true
  | bool false => .false
  | num _ => .num
  | str _ => .str
  | arr _ => .arr
  | obj _ => .obj

/-- The kind of value a text begins. -/
def kindOf (c : Char) : Kind :=
  if isNumberChar c then .num
  else if c = 'n' then .null
  else if c = 't' then .true
  else if c = 'f' then .false
  else if c = '"' then .str
  else if c = '[' then .arr
  else .obj

theorem head_print (v : Json N) : ∃ c t, print v = c :: t ∧ kindOf c = kind v ∧ c ≠ ']' := by
  cases v with
  | null => exact ⟨_, _, rfl, rfl, by decide⟩
  | bool b => cases b <;> exact ⟨_, _, rfl, rfl, by decide⟩
  | num n =>
    cases ht : JsonNumber.text n with
    | nil => exact absurd ht (JsonNumber.text_ne_nil n)
    | cons c t =>
      have hc : isNumberChar c = true := JsonNumber.text_chars n c (ht ▸ mem_cons_self)
      refine ⟨c, t, ht, by simp [kindOf, hc, kind], ?_⟩
      rintro rfl
      cases hc
  | str s => exact ⟨_, _, rfl, rfl, by decide⟩
  | arr items => cases items <;> exact ⟨_, _, rfl, rfl, by decide⟩
  | obj fields =>
    cases fields with
    | _ => exact ⟨_, _, rfl, rfl, by decide⟩

theorem kind_eq {v w : Json N} {r r' : List Char} (h : print v ++ r = print w ++ r') :
    kind v = kind w := by
  obtain ⟨c, t, hv, hkv, -⟩ := head_print v
  obtain ⟨c', t', hw, hkw, -⟩ := head_print w
  rw [hv, hw] at h
  rw [← hkv, ← hkw, (cons.inj h).1]

omit [JsonNumber N] in
/-- A value of the kind of a constructor is built by it. -/
theorem of_kind (w : Json N) :
    match kind w with
    | .null => w = null
    | .true => w = bool true
    | .false => w = bool false
    | .num => ∃ n, w = num n
    | .str => ∃ s, w = str s
    | .arr => ∃ items, w = arr items
    | .obj => ∃ fields, w = obj fields := by
  cases w with
  | null => rfl
  | bool b => cases b <;> rfl
  | _ => exact ⟨_, rfl⟩

/-- No value begins with the closing bracket. -/
theorem arr_cons_ne_nil (x : Json N) (xs : List (Json N)) (r r' : List Char) :
    print (arr (x :: xs)) ++ r ≠ print (arr ([] : List (Json N))) ++ r' := by
  obtain ⟨c, t, hc, -, hne⟩ := head_print x
  intro h
  have htail : print x ++ printItems xs ++ r = ']' :: r' := (cons.inj h).2
  rw [hc] at htail
  exact hne (cons.inj htail).1

mutual

/-- A value followed by something that cannot go on with a number is read back. -/
theorem print_append_inj : ∀ (v w : Json N) {r r' : List Char}, Ends r → Ends r' →
    print v ++ r = print w ++ r' → v = w ∧ r = r'
  | null, w, r, r', _, _, h => by
    have hw := of_kind w
    rw [← kind_eq h] at hw
    obtain rfl : w = null := hw
    exact ⟨rfl, append_cancel_left h⟩
  | bool b, w, r, r', _, _, h => by
    have hw := of_kind w
    rw [← kind_eq h] at hw
    obtain rfl : w = bool b := by cases b <;> exact hw
    exact ⟨rfl, append_cancel_left h⟩
  | num n, w, r, r', hr, hr', h => by
    have hw := of_kind w
    rw [← kind_eq h] at hw
    obtain ⟨m, rfl⟩ := hw
    obtain ⟨rfl, hrest⟩ := text_append_inj hr hr' h
    exact ⟨rfl, hrest⟩
  | str s, w, r, r', _, _, h => by
    have hw := of_kind w
    rw [← kind_eq h] at hw
    obtain ⟨s', rfl⟩ := hw
    obtain ⟨hs, hrest⟩ := printChars_append_inj (cons.inj h).2
    exact ⟨congrArg str (String.toList_inj.1 hs), hrest⟩
  | arr [], w, r, r', _, _, h => by
    have hw := of_kind w
    rw [← kind_eq h] at hw
    obtain ⟨ys, rfl⟩ := hw
    cases ys with
    | nil => exact ⟨rfl, append_cancel_left h⟩
    | cons y ys => exact absurd h.symm (arr_cons_ne_nil y ys _ _)
  | arr (x :: xs), w, r, r', _, _, h => by
    have hw := of_kind w
    rw [← kind_eq h] at hw
    obtain ⟨ys, rfl⟩ := hw
    cases ys with
    | nil => exact absurd h (arr_cons_ne_nil x xs _ _)
    | cons y ys =>
      obtain ⟨hitems, hr⟩ := printItems_append_inj (x :: xs) (y :: ys)
        (congrArg (',' :: ·) (cons.inj h).2)
      exact ⟨congrArg arr hitems, hr⟩
  | obj [], w, r, r', _, _, h => by
    have hw := of_kind w
    rw [← kind_eq h] at hw
    obtain ⟨gs, rfl⟩ := hw
    cases gs with
    | nil => exact ⟨rfl, append_cancel_left h⟩
    | cons g gs => exact absurd (cons.inj (cons.inj h).2).1 (by decide)
  | obj ((key, value) :: fs), w, r, r', _, _, h => by
    have hw := of_kind w
    rw [← kind_eq h] at hw
    obtain ⟨gs, rfl⟩ := hw
    cases gs with
    | nil => exact absurd (cons.inj (cons.inj h).2).1 (by decide)
    | cons g gs =>
      obtain ⟨hfields, hr⟩ := printFields_append_inj ((key, value) :: fs) (g :: gs)
        (congrArg (',' :: ·) (cons.inj h).2)
      exact ⟨congrArg obj hfields, hr⟩

theorem printItems_append_inj : ∀ (xs ys : List (Json N)) {r r' : List Char},
    printItems xs ++ r = printItems ys ++ r' → xs = ys ∧ r = r'
  | [], [], r, r', h => ⟨rfl, (List.cons.inj h).2⟩
  | [], y :: ys, r, r', h => absurd (List.cons.inj h).1 (by decide)
  | x :: xs, [], r, r', h => absurd (List.cons.inj h).1 (by decide)
  | x :: xs, y :: ys, r, r', h => by
    have htail : print x ++ printItems xs ++ r = print y ++ printItems ys ++ r' :=
      (cons.inj h).2
    rw [append_assoc, append_assoc] at htail
    obtain ⟨rfl, hrest⟩ := print_append_inj x y (ends_printItems xs r) (ends_printItems ys r') htail
    obtain ⟨rfl, hr⟩ := printItems_append_inj xs ys hrest
    exact ⟨rfl, hr⟩

theorem printFields_append_inj : ∀ (fs gs : List (String × Json N)) {r r' : List Char},
    printFields fs ++ r = printFields gs ++ r' → fs = gs ∧ r = r'
  | [], [], r, r', h => ⟨rfl, (List.cons.inj h).2⟩
  | [], (_, _) :: gs, r, r', h => absurd (List.cons.inj h).1 (by decide)
  | (_, _) :: fs, [], r, r', h => absurd (List.cons.inj h).1 (by decide)
  | (key, value) :: fs, (key', value') :: gs, r, r', h => by
    have htail : printChars key.toList ++ ':' :: (print value ++ printFields fs) ++ r =
        printChars key'.toList ++ ':' :: (print value' ++ printFields gs) ++ r' :=
      (cons.inj (cons.inj h).2).2
    simp only [append_assoc, cons_append] at htail
    obtain ⟨hkey, htail⟩ := printChars_append_inj htail
    obtain ⟨rfl, hrest⟩ := print_append_inj value value' (ends_printFields fs r)
      (ends_printFields gs r') (cons.inj htail).2
    obtain ⟨rfl, hr⟩ := printFields_append_inj fs gs hrest
    obtain rfl := String.toList_inj.1 hkey
    exact ⟨rfl, hr⟩

end

/-- **Different values have different texts.** -/
theorem stringify_inj {v w : Json N} (h : stringify v = stringify w) : v = w := by
  have hprint : print v = print w := String.ofList_injective h
  have hends : Ends [] := fun c hc => by cases hc
  refine (print_append_inj v w hends hends ?_).1
  rw [hprint]

end Print

end Json
