import OmniRoute.Lib.JsValue

/-!
# Data of a scripting language

What `JSON.parse` makes: null, booleans, numbers, strings of code units, arrays and records, and the
access to the fields of a record. Writing a field that is there keeps its place (`setField`), and a
field that is written is the one that is read (`get_set_self`).

A program reads fields of whatever it is given: only records have any (`field`).

A text with commas between its parts is as long as `joined` says of the lengths of the parts.
-/

inductive JsData (N : Type)
  | null
  | bool (b : Bool)
  | num (n : N)
  | str (s : CodeUnits)
  | arr (items : List (JsData N))
  | obj (fields : List (CodeUnits × JsData N))

abbrev JsRecord (N : Type) := List (CodeUnits × JsData N)

/-- What else is asked of the numbers. -/
structure JsNumbers (N : Type) extends JsNumerals N where
  /-- `!!n` -/
  isTruthy : N → Bool
  ofNat : ℕ → N

namespace JsData

open List CodeUnits

variable {N : Type}

mutual

/-- The value that `JSON.stringify` is given. -/
def toJs : JsData N → JsValue N
  | .null => .null
  | .bool b => .bool b
  | .num n => .number n
  | .str s => .string s
  | .arr items => .array (toItems items)
  | .obj fields => .object (toEntries fields)

def toItems : List (JsData N) → JsItems N
  | [] => .nil
  | item :: items => .cons (toJs item) (toItems items)

def toEntries : List (CodeUnits × JsData N) → JsEntries N
  | [] => .nil
  | (key, item) :: fields => .cons key (toJs item) (toEntries fields)

end

theorem isOmitted_toJs (v : JsData N) : JsValue.isOmitted (toJs v) = false := by
  cases v <;> rfl

/-! ## Records -/

/-- A field of a record by its name. -/
def get (r : JsRecord N) (name : String) : Option (JsData N) :=
  List.lookup (ofString name) r

def setField (key : CodeUnits) (v : JsData N) : JsRecord N → JsRecord N
  | [] => [(key, v)]
  | (k, w) :: r => if k = key then (key, v) :: r else (k, w) :: setField key v r

/-- `{...r, [name]: v}` -/
def set (r : JsRecord N) (name : String) (v : JsData N) : JsRecord N :=
  setField (ofString name) v r

theorem lookup_cons_ite (k k' : CodeUnits) (w : JsData N) (r : JsRecord N) :
    List.lookup k ((k', w) :: r) = if k = k' then some w else List.lookup k r := by
  rw [List.lookup_cons]
  by_cases h : k = k'
  · simp [h]
  · rw [beq_false_of_ne h, if_neg h]

theorem lookup_setField (key : CodeUnits) (v : JsData N) (r : JsRecord N) (k : CodeUnits) :
    List.lookup k (setField key v r) = if k = key then some v else List.lookup k r := by
  induction r with
  | nil => exact lookup_cons_ite k key v []
  | cons p r ih =>
    obtain ⟨k', w⟩ := p
    rw [setField]
    split
    · next heq =>
      subst heq
      rw [lookup_cons_ite, lookup_cons_ite]
      split <;> rfl
    · next hne =>
      rw [lookup_cons_ite, lookup_cons_ite, ih]
      by_cases h : k = k'
      · rw [if_pos h, if_neg (h ▸ hne), if_pos h]
      · rw [if_neg h, if_neg h]

theorem get_set_self (r : JsRecord N) (name : String) (v : JsData N) :
    get (set r name v) name = some v := by
  rw [get, set, lookup_setField, if_pos rfl]

variable {v : JsData N}

variable {name : String}

theorem get_set_ne (r : JsRecord N) {name' : String} (v : JsData N)
    (h : ofString name' ≠ ofString name) :
    get (set r name v) name' = get r name' := by
  rw [get, set, lookup_setField, if_neg h, get]

variable {f : CodeUnits × JsData N → ℕ}

/-- A sum over the fields of a record, when one of them is written. -/
theorem sum_set {r : JsRecord N} {w : JsData N} (h : get r name = some w) :
    ((set r name v).map f).sum + f (ofString name, w) =
      (r.map f).sum + f (ofString name, v) := by
  unfold get at h
  unfold set
  induction r with
  | nil => exact absurd h nofun
  | cons p r ih =>
    obtain ⟨k, u⟩ := p
    rw [lookup_cons_ite] at h
    rw [setField]
    split at h
    · next heq =>
      cases h
      rw [if_pos heq.symm, ← heq]
      simp only [map_cons, sum_cons]
      omega
    · next hne =>
      have hrest := ih h
      rw [if_neg (Ne.symm hne)]
      simp only [map_cons, sum_cons]
      omega

/-- A field that is new is written at the end. -/
theorem sum_set_new {r : JsRecord N} (h : get r name = none) :
    ((set r name v).map f).sum = (r.map f).sum + f (ofString name, v) := by
  unfold get at h
  unfold set
  induction r with
  | nil => simp [setField]
  | cons p r ih =>
    obtain ⟨k, u⟩ := p
    rw [lookup_cons_ite] at h
    split at h
    · cases h
    · next hne =>
      rw [setField, if_neg (Ne.symm hne), map_cons, sum_cons, ih h, map_cons,
        sum_cons, Nat.add_assoc]

theorem le_sum_of_get {r : JsRecord N} {w : JsData N} (h : get r name = some w) :
    f (ofString name, w) ≤ (r.map f).sum := by
  unfold get at h
  induction r with
  | nil => exact absurd h nofun
  | cons p r ih =>
    obtain ⟨k, u⟩ := p
    rw [lookup_cons_ite] at h
    rw [map_cons, sum_cons]
    split at h
    · next heq =>
      cases h
      rw [← heq]
      exact Nat.le_add_right _ _
    · exact (ih h).trans (Nat.le_add_left _ _)

/-! ## Values -/

/-- `v?.name`: a value that is no record has no fields of the names that are asked for. -/
def field (v : JsData N) (name : String) : Option (JsData N) :=
  match v with
  | .obj r => get r name
  | _ => none

/-- `{...v, [name]: w}` of a record. -/
def withField (v : JsData N) (name : String) (w : JsData N) : JsData N :=
  match v with
  | .obj r => .obj (set r name w)
  | _ => v

/-- The elements of an array. -/
def elements : Option (JsData N) → Option (List (JsData N))
  | some (.arr items) => some items
  | _ => none

def isNull : JsData N → Bool
  | .null => true
  | _ => false

/-- The text of a value that is a string. -/
def text? : Option (JsData N) → Option CodeUnits
  | some (.str s) => some s
  | _ => none

/-- `v === "text"` -/
def isText (v : Option (JsData N)) (text : String) : Bool :=
  match v with
  | some (.str s) => decide (s = ofString text)
  | _ => false

def isTruthy (num : JsNumbers N) : JsData N → Bool
  | .null => false
  | .bool b => b
  | .num n => num.isTruthy n
  | .str s => decide (s ≠ [])
  | .arr _ => true
  | .obj _ => true

/-- Two values that a `Set` takes for one. Arrays and records are compared by reference, and no two
of those that are read from one text are the same. -/
def sameValue [DecidableEq N] : JsData N → JsData N → Bool
  | .null, .null => true
  | .bool b, .bool c => b = c
  | .num m, .num n => m = n
  | .str s, .str t => s = t
  | _, _ => false

mutual

/-- `String(v)` -/
def toText (num : JsNumbers N) : JsData N → CodeUnits
  | .null => ofString "null"
  | .bool b => ofString (if b then "true" else "false")
  | .num n => num.text n
  | .str s => s
  | .arr items => joinText num true items
  | .obj _ => ofString "[object Object]"

/-- `items.join(",")`, where null is written as nothing. -/
def joinText (num : JsNumbers N) (first : Bool) : List (JsData N) → CodeUnits
  | [] => []
  | .null :: items => (if first then [] else [44]) ++ joinText num false items
  | item :: items => (if first then [] else [44]) ++ (toText num item ++ joinText num false items)

end

theorem field_withField_self {w x : JsData N} (h : field v name = some x) :
    field (withField v name w) name = some w := by
  cases v with
  | obj r => exact get_set_self r name w
  | _ => exact absurd h nofun

theorem field_withField_ne (v : JsData N) {name' : String} (w : JsData N)
    (h : ofString name' ≠ ofString name) :
    field (withField v name w) name' = field v name' := by
  cases v with
  | obj r => exact get_set_ne r w h
  | _ => rfl

theorem isText_iff {v : Option (JsData N)} {text : String} :
    isText v text = true ↔ v = some (.str (ofString text)) := by
  unfold isText
  split
  · simp
  · next h => simpa using fun heq => h _ heq

theorem text?_eq_some {v : Option (JsData N)} {text : CodeUnits} :
    text? v = some text ↔ v = some (.str text) := by
  constructor
  · intro h
    unfold text? at h
    split at h
    · rw [Option.some.inj h]
    · cases h
  · rintro rfl
    rfl

theorem elements_eq_some {v : Option (JsData N)} {items : List (JsData N)} :
    elements v = some items ↔ v = some (.arr items) := by
  unfold elements
  split
  · simp
  · next h => simpa using fun heq => h _ heq

theorem sameValue_comm [DecidableEq N] (v w : JsData N) : sameValue v w = sameValue w v := by
  cases v <;> cases w <;> simp [sameValue, eq_comm]

/-! ## Parts with commas -/

/-- The length of parts with commas between them. -/
def joined (lengths : List ℕ) : ℕ := (lengths.map fun n => n + 1).sum - 1

theorem sum_sublist_le {β : Type*} (f : β → ℕ) {l₁ l₂ : List β} (h : l₁.Sublist l₂) :
    (l₁.map f).sum ≤ (l₂.map f).sum := by
  induction h with
  | slnil => exact Nat.le_refl _
  | cons a h ih => exact ih.trans (by simp)
  | cons_cons a h ih => simpa using ih

end JsData
