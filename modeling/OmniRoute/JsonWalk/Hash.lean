import OmniRoute.JsonWalk.Length

/-!
# The chunks of a JSON text

`open-sse/utils/jsonHash.ts`: `jsonSha256` walks a value and feeds the hash what `JSON.stringify`
would write, chunk by chunk. In an array or under a key it writes `undefined` for an object whose
`toJSON` returns no value, with the key, so its text is then longer than the real one
(`writeValue_spec`).

**Main result (`json_walkers_exact_iff`).** The length and the text are exact exactly when no such
object is met.
-/

namespace OmniRoute.JsonWalk

open JsValue List Option CodeUnits

variable {N : Type}

def undefinedText : CodeUnits := ofString "undefined"

/-- What `appendEscapedChar` writes for a code unit that is not paired. -/
def appendEscapedUnit (code : UInt16) : CodeUnits :=
  match singleEscapes.lookup code with
  | some escape => escape
  | none =>
    if code < 0x20 then unicodeEscape code
    else if isHighSurrogate code || isLowSurrogate code then unicodeEscape code
    else [code]

/-- The loop of `writeEncodedString`, from what is in the buffer: it is flushed when it holds more
than 8192 code units of the value. -/
def writeChars (out : CodeUnits) (buffered : ℕ) : CodeUnits → List CodeUnits
  | [] => [out ++ [34]]
  | [code] =>
    if 8192 < buffered + 1 then (out ++ appendEscapedUnit code) :: writeChars [] 0 []
    else writeChars (out ++ appendEscapedUnit code) (buffered + 1) []
  | code :: next :: rest =>
    if isHighSurrogate code && isLowSurrogate next then
      if 8192 < buffered + 2 then (out ++ [code, next]) :: writeChars [] 0 rest
      else writeChars (out ++ [code, next]) (buffered + 2) rest
    else if 8192 < buffered + 1 then
      (out ++ appendEscapedUnit code) :: writeChars [] 0 (next :: rest)
    else writeChars (out ++ appendEscapedUnit code) (buffered + 1) (next :: rest)

def writeEncodedString (value : CodeUnits) : List CodeUnits := writeChars [34] 0 value

/-- The chunk of a comma in front of all but the first. -/
def writeComma (first : Bool) : List CodeUnits := if first then [] else [[44]]

variable (num : JsNumerals N)

mutual

/-- The chunks that the hash is fed for a value. -/
def writeValue : JsValue N → List CodeUnits
  | .null => [nullText]
  | .string s => writeEncodedString s
  | .bool b => [boolText b]
  | .number n => [numberText num n]
  | .omitted => []
  | .toJSON own result => [(stringify num (.toJSON own result)).getD undefinedText]
  | .array items => [0x5B] :: (writeArray true items ++ [[0x5D]])
  | .object entries => [0x7B] :: (writePlainObject true entries ++ [[0x7D]])

def writeArray (first : Bool) : JsItems N → List CodeUnits
  | .nil => []
  | .cons item rest =>
    writeComma first ++
      ((if isOmitted item then [nullText] else writeValue item) ++ writeArray false rest)

def writePlainObject (first : Bool) : JsEntries N → List CodeUnits
  | .nil => []
  | .cons key item rest =>
    if isOmitted item then writePlainObject first rest
    else writeComma first ++
      (writeEncodedString key ++ ([58] :: (writeValue item ++ writePlainObject false rest)))

end

/-- The string that `jsonSha256` feeds the hash. -/
def hashedText (value : JsValue N) : CodeUnits := (writeValue num value).flatten

/-! ## Strings -/

theorem appendEscapedUnit_eq (u : UInt16) : appendEscapedUnit u = quoteCodePoint (.unit u) := by
  unfold appendEscapedUnit quoteCodePoint
  dsimp only
  cases singleEscapes.lookup u with
  | some escape => rfl
  | none =>
    by_cases hlow : u < 0x20
    · simp [hlow]
    · simp [hlow]

theorem flatten_writeChars (s out : CodeUnits) (buffered : ℕ) :
    (writeChars out buffered s).flatten =
      out ++ ((codePoints s).flatMap quoteCodePoint ++ [34]) := by
  induction s using codePoints.induct generalizing out buffered with
  | case1 =>
    rw [writeChars, flatten_singleton]
    rfl
  | case2 u =>
    have hend : ∀ b c, (writeChars b c []).flatten = b ++ [34] := fun _ _ => flatten_singleton
    rw [writeChars, codePoints, flatMap_singleton, ← appendEscapedUnit_eq]
    split
    · rw [flatten_cons, hend, append_assoc]
      rfl
    · rw [hend, append_assoc]
  | case3 u v rest hpair ih =>
    rw [writeChars, codePoints, if_pos hpair, if_pos hpair, flatMap_cons]
    split
    · rw [flatten_cons, ih, quoteCodePoint]
      simp only [append_assoc, List.nil_append]
    · rw [ih, quoteCodePoint]
      simp only [append_assoc]
  | case4 u v rest hpair ih =>
    rw [writeChars, codePoints, if_neg hpair, if_neg hpair, flatMap_cons, ← appendEscapedUnit_eq]
    split
    · rw [flatten_cons, ih]
      simp only [append_assoc, List.nil_append]
    · rw [ih]
      simp only [append_assoc]

theorem flatten_writeEncodedString (s : CodeUnits) : (writeEncodedString s).flatten = quote s := by
  rw [writeEncodedString, flatten_writeChars, quote, append_assoc]

theorem flatten_writeComma (first : Bool) : (writeComma first).flatten = comma first := by
  cases first <;> rfl

/-! ## Values -/

/-- How much longer a text is at least when it is not steady. -/
def slack (steady : Bool) : ℕ := if steady then 0 else 1

theorem slack_le (steady : Bool) : slack steady ≤ 1 := by
  cases steady <;> decide

theorem slack_and_le (a b : Bool) : slack (a && b) ≤ slack a + slack b := by
  cases a <;> cases b <;> decide

mutual

/-- The text is the real one when the value is steady, and otherwise longer. -/
theorem writeValue_spec (v : JsValue N) (s : CodeUnits) (hs : serialize num true v = some s) :
    (steady v = true → (writeValue num v).flatten = s) ∧
      s.length + slack (steady v) ≤ (writeValue num v).flatten.length := by
  cases v with
  | null =>
    cases hs
    rw [writeValue, flatten_singleton]
    exact ⟨fun _ => rfl, le_rfl⟩
  | bool b =>
    cases hs
    rw [writeValue, flatten_singleton]
    exact ⟨fun _ => rfl, le_rfl⟩
  | number n =>
    cases hs
    rw [writeValue, flatten_singleton]
    exact ⟨fun _ => rfl, le_rfl⟩
  | string t =>
    cases hs
    rw [writeValue, flatten_writeEncodedString]
    exact ⟨fun _ => rfl, le_rfl⟩
  | omitted => exact absurd hs nofun
  | toJSON own result =>
    rw [writeValue, stringify, hs, flatten_singleton]
    exact ⟨fun _ => rfl, le_rfl⟩
  | array items =>
    cases hs
    obtain ⟨heq, hle⟩ := writeArray_spec items true
    rw [writeValue, flatten_cons, flatten_append, flatten_singleton, steady]
    constructor
    · intro h
      rw [heq h, append_assoc]
    · simp only [length_append, length_singleton]
      omega
  | object entries =>
    cases hs
    obtain ⟨heq, hle⟩ := writePlainObject_spec entries true true nofun
    rw [writeValue, flatten_cons, flatten_append, flatten_singleton, steady]
    constructor
    · intro h
      rw [heq h rfl, append_assoc]
    · simp only [length_append, length_singleton]
      omega

theorem writeArray_spec (items : JsItems N) (first : Bool) :
    (steadyItems items = true →
      (writeArray num first items).flatten = serializeItems num first items) ∧
      (serializeItems num first items).length + slack (steadyItems items) ≤
        (writeArray num first items).flatten.length := by
  cases items with
  | nil => exact ⟨fun _ => rfl, le_rfl⟩
  | cons item rest =>
    obtain ⟨heq, hle⟩ := writeArray_spec rest false
    rw [writeArray, serializeItems, steadyItems, flatten_append, flatten_append, flatten_writeComma]
    cases homitted : isOmitted item with
    | true =>
      rw [isOmitted_iff.1 homitted, if_pos rfl, flatten_singleton]
      refine ⟨fun h => ?_, ?_⟩
      · rw [heq h]
        rfl
      · have hnull : (serialize num true (.omitted : JsValue N)).getD nullText = nullText := rfl
        have hsteady : (!dropsItself (.omitted : JsValue N) && (steady (.omitted : JsValue N) &&
          steadyItems rest)) = steadyItems rest := rfl
        rw [hnull, hsteady]
        simp only [length_append]
        omega
    | false =>
      rw [if_neg nofun]
      cases hdrops : dropsItself item with
      | true =>
        obtain ⟨own, rfl⟩ := dropsItself_iff.1 hdrops
        refine ⟨fun h => absurd h nofun, ?_⟩
        have hwritten : (writeValue num (.toJSON own .omitted)).flatten = undefinedText := by
          rw [writeValue]
          exact flatten_singleton
        have hnull : (serialize num true (.toJSON own .omitted)).getD nullText = nullText := rfl
        have hlonger : nullText.length + 1 ≤ undefinedText.length := by decide
        have hslack := slack_le (!true && (steady (.toJSON own .omitted : JsValue N) &&
          steadyItems rest))
        rw [hwritten, hnull]
        simp only [length_append]
        omega
      | false =>
        obtain ⟨s, hs⟩ := exists_serialize num homitted hdrops
        obtain ⟨hitem, hlen⟩ := writeValue_spec item s hs
        rw [hs, Option.getD_some, Bool.not_false, Bool.true_and]
        refine ⟨fun h => ?_, ?_⟩
        · obtain ⟨h₁, h₂⟩ := Bool.and_eq_true_iff.1 h
          rw [hitem h₁, heq h₂]
        · have hslack := slack_and_le (steady item) (steadyItems rest)
          simp only [length_append]
          omega

theorem writePlainObject_spec (entries : JsEntries N) (first real : Bool)
    (hfirst : real = false → first = false) :
    (steadyEntries entries = true → first = real →
      (writePlainObject num first entries).flatten = serializeEntries num real entries) ∧
      (serializeEntries num real entries).length + slack (steadyEntries entries) ≤
        (writePlainObject num first entries).flatten.length := by
  cases entries with
  | nil => exact ⟨fun _ _ => rfl, le_rfl⟩
  | cons key item rest =>
    have hcomma : (comma real).length ≤ (comma first).length := by
      cases real with
      | true => exact Nat.zero_le _
      | false =>
        rw [hfirst rfl]
    rw [writePlainObject, serializeEntries, steadyEntries]
    cases homitted : isOmitted item with
    | true =>
      obtain ⟨heq, hle⟩ := writePlainObject_spec rest first real hfirst
      rw [isOmitted_iff.1 homitted, if_pos rfl]
      exact ⟨heq, hle⟩
    | false =>
      rw [if_neg nofun, flatten_append, flatten_append, flatten_cons,
        flatten_append, flatten_writeComma, flatten_writeEncodedString]
      cases hdrops : dropsItself item with
      | true =>
        -- the walker writes an entry that is not there
        obtain ⟨own, rfl⟩ := dropsItself_iff.1 hdrops
        obtain ⟨-, hle⟩ := writePlainObject_spec rest false real fun _ => rfl
        refine ⟨fun h => absurd h nofun, ?_⟩
        have hnone : serialize num true (.toJSON own .omitted) = none := rfl
        have hslack := slack_le (!true && (steady (.toJSON own .omitted : JsValue N) &&
          steadyEntries rest))
        rw [hnone]
        simp only [length_append, length_singleton]
        omega
      | false =>
        obtain ⟨s, hs⟩ := exists_serialize num homitted hdrops
        obtain ⟨hitem, hlen⟩ := writeValue_spec item s hs
        obtain ⟨heq, hle⟩ := writePlainObject_spec rest false false fun _ => rfl
        rw [hs, Bool.not_false, Bool.true_and]
        refine ⟨fun h hsame => ?_, ?_⟩
        · obtain ⟨h₁, h₂⟩ := Bool.and_eq_true_iff.1 h
          rw [hitem h₁, heq h₂ rfl, hsame]
        · have hslack := slack_and_le (steady item) (steadyEntries rest)
          simp only [length_append, length_singleton]
          omega

end

/-- With a text, the length and what is hashed are exact if and only if the value is steady; without
one the length is zero. -/
theorem json_walkers_exact_iff (v : JsValue N) :
    (∀ s, stringify num v = some s →
      (jsonLength num v = s.length ∧ hashedText num v = s ↔ steady v = true)) ∧
    (stringify num v = none → jsonLength num v = 0) := by
  refine ⟨fun s hs => ?_, jsonLength_of_none num⟩
  obtain ⟨heq, hle⟩ := writeValue_spec num v s hs
  constructor
  · rintro ⟨-, htext⟩
    unfold hashedText at htext
    by_contra h
    rw [htext, slack, if_neg h] at hle
    omega
  · intro h
    exact ⟨jsonLength_eq num h hs, heq h⟩

/-- Whole numbers. -/
def integers : JsNumerals ℤ where
  isFinite _ := true
  text n := ofString (toString n)

/-- `{"a": [1, undefined], "b": undefined}` -/
def plainBody : JsValue ℤ :=
  .object (.cons (ofString "a")
    (.array (.cons (.number 1) (.cons .omitted .nil)))
    (.cons (ofString "b") .omitted .nil))

theorem json_walkers_exact_iff_plainBody :
    stringify integers plainBody = some (ofString "\x7b\"a\":[1,null]\x7d") ∧
    jsonLength integers plainBody = 14 ∧
      hashedText integers plainBody = ofString "\x7b\"a\":[1,null]\x7d" :=
  have hs : stringify integers plainBody =
      some (ofString "\x7b\"a\":[1,null]\x7d") := by decide +kernel
  ⟨hs, ((json_walkers_exact_iff integers plainBody).1 _ hs).2 (by decide +kernel)⟩

/-- Under the key `a`, an object whose `toJSON` returns `undefined`. -/
def absentBody : JsValue ℤ :=
  .object (.cons (ofString "a") (.toJSON .nil .omitted) .nil)

/-- The entry is counted and hashed, and `JSON.stringify` leaves it out. -/
theorem absentEntry_written :
    stringify integers absentBody = some (ofString "\x7b\x7d") ∧
    jsonLength integers absentBody = 6 ∧
    hashedText integers absentBody = ofString "\x7b\"a\":undefined\x7d" := by
  decide +kernel

end OmniRoute.JsonWalk
