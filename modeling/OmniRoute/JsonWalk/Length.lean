import OmniRoute.Lib.JsValue

/-!
# The length of a JSON text

`open-sse/utils/jsonSize.ts`: `jsonLength` walks a value and counts what `JSON.stringify` would
write, without writing it. An object with `toJSON` is given to `JSON.stringify` itself, which says
nothing of one that returns no value; in an array or under a key it is then counted as nothing where
`JSON.stringify` writes null or leaves the entry out.

The values are trees, so the set of the objects on the way to a value never holds it again.

**Main result (`jsonLength_eq`).** Of a value in which no such object is met the length is exact.
-/

namespace OmniRoute.JsonWalk

open JsValue List Option

variable {N : Type}

/-- What the loop of `encodedStringLength` counts for a code unit that is not paired. -/
def encodedUnitLength (code : UInt16) : ℕ :=
  if code = 0x22 || code = 0x5C then 2
  else if code = 0x08 || code = 0x09 || code = 0x0A || code = 0x0C || code = 0x0D then 2
  else if code < 0x20 then 6
  else if isHighSurrogate code || isLowSurrogate code then 6
  else 1

def encodedLength : CodeUnits → ℕ
  | [] => 0
  | [code] => encodedUnitLength code
  | code :: next :: rest =>
    if isHighSurrogate code && isLowSurrogate next then 2 + encodedLength rest
    else encodedUnitLength code + encodedLength (next :: rest)

def encodedStringLength (value : CodeUnits) : ℕ := 2 + encodedLength value

/-- What a comma in front of all but the first adds. -/
def commaLength (first : Bool) : ℕ := if first then 0 else 1

variable (num : JsNumerals N)

mutual

def lengthOf : JsValue N → ℕ
  | .null => 4
  | .string s => encodedStringLength s
  | .bool b => if b then 4 else 5
  | .number n => if num.isFinite n then (num.text n).length else 4
  | .omitted => 0
  | .toJSON own result => ((stringify num (.toJSON own result)).map List.length).getD 0
  | .array items => 2 + lengthOfItems true items
  | .object entries => 2 + lengthOfEntries true entries

def lengthOfItems (first : Bool) : JsItems N → ℕ
  | .nil => 0
  | .cons item rest =>
    commaLength first + ((if isOmitted item then 4 else lengthOf item) + lengthOfItems false rest)

def lengthOfEntries (first : Bool) : JsEntries N → ℕ
  | .nil => 0
  | .cons key item rest =>
    if isOmitted item then lengthOfEntries first rest
    else commaLength first +
      (encodedStringLength key + 1 + lengthOf item + lengthOfEntries false rest)

end

def jsonLength (value : JsValue N) : ℕ := lengthOf num value

/-- An object whose `toJSON` returns a value that is left out. -/
def dropsItself : JsValue N → Bool
  | .toJSON _ .omitted => true
  | _ => false

mutual

/-- No object whose `toJSON` returns a value that is left out is met in an array or under a key. -/
def steady : JsValue N → Bool
  | .array items => steadyItems items
  | .object entries => steadyEntries entries
  | _ => true

def steadyItems : JsItems N → Bool
  | .nil => true
  | .cons item rest => !dropsItself item && (steady item && steadyItems rest)

def steadyEntries : JsEntries N → Bool
  | .nil => true
  | .cons _ item rest => !dropsItself item && (steady item && steadyEntries rest)

end

/-! ## Strings -/

theorem encodedUnitLength_eq (u : UInt16) :
    encodedUnitLength u = (quoteCodePoint (.unit u)).length := by
  by_cases hsingle : u ∈ singleEscapes.map Prod.fst
  · -- the seven escapes of one character
    simp only [singleEscapes, map_cons, map_nil, mem_cons, not_mem_nil, or_false] at hsingle
    rcases hsingle with rfl | rfl | rfl | rfl | rfl | rfl | rfl <;> rfl
  · have hlookup : singleEscapes.lookup u = none := by
      rw [lookup_eq_none_iff]
      intro p hp
      rw [bne_iff_ne]
      rintro rfl
      exact hsingle (mem_map_of_mem hp)
    simp only [singleEscapes, map_cons, map_nil, mem_cons, not_mem_nil, or_false, not_or] at hsingle
    obtain ⟨h22, h5c, h08, h09, h0a, h0c, h0d⟩ := hsingle
    unfold encodedUnitLength quoteCodePoint
    dsimp only
    rw [hlookup]
    simp only [h22, h5c, h08, h09, h0a, h0c, h0d, decide_false, Bool.or_false, Bool.false_eq_true,
      if_false]
    by_cases hlow : u < 0x20
    · simp [hlow, unicodeEscape]
    · by_cases hsur : (isHighSurrogate u || isLowSurrogate u) = true
      · simp only [hlow, hsur, if_false, if_true, decide_false, Bool.false_or]
        rfl
      · simp only [hlow, hsur, if_false, decide_false, Bool.false_or]
        rfl

theorem encodedLength_eq (s : CodeUnits) :
    encodedLength s = ((codePoints s).flatMap quoteCodePoint).length := by
  induction s using codePoints.induct with
  | case1 => rfl
  | case2 u =>
    rw [encodedLength, encodedUnitLength_eq, codePoints, flatMap_singleton]
  | case3 u v rest hpair ih =>
    rw [encodedLength, codePoints, if_pos hpair, if_pos hpair, flatMap_cons, length_append, ih]
    rfl
  | case4 u v rest hpair ih =>
    rw [encodedLength, codePoints, if_neg hpair, if_neg hpair, flatMap_cons,
      length_append, ih, encodedUnitLength_eq]

theorem encodedStringLength_eq (s : CodeUnits) : encodedStringLength s = (quote s).length := by
  rw [encodedStringLength, encodedLength_eq, quote]
  simp only [length_append, length_singleton]
  omega

theorem length_comma (first : Bool) : (comma first).length = commaLength first := by
  cases first <;> rfl

/-! ## Values -/

theorem dropsItself_iff {v : JsValue N} : dropsItself v = true ↔ ∃ own, v = .toJSON own .omitted := by
  cases v with
  | toJSON own result => cases result <;> simp [dropsItself]
  | _ => simp [dropsItself]

/-- What is neither left out nor an object that drops itself has a text. -/
theorem exists_serialize {v : JsValue N} (homitted : isOmitted v = false)
    (hdrops : dropsItself v = false) : ∃ s, serialize num true v = some s := by
  rw [← Option.ne_none_iff_exists']
  intro hnone
  rcases (serialize_true_eq_none num).1 hnone with h | h
  · rw [isOmitted_iff.2 h] at homitted
    exact absurd homitted nofun
  · rw [dropsItself_iff.2 h] at hdrops
    exact absurd hdrops nofun

mutual

theorem lengthOf_eq (v : JsValue N) (h : steady v = true) (s : CodeUnits)
    (hs : serialize num true v = some s) : lengthOf num v = s.length := by
  cases v with
  | null =>
    cases hs
    rfl
  | bool b =>
    cases hs
    cases b <;> rfl
  | number n =>
    cases hs
    unfold lengthOf numberText
    split <;> rfl
  | string t =>
    cases hs
    exact encodedStringLength_eq t
  | omitted => exact absurd hs nofun
  | array items =>
    cases hs
    rw [lengthOf, lengthOfItems_eq items true h]
    simp only [length_append, length_singleton]
    omega
  | object entries =>
    cases hs
    rw [lengthOf, lengthOfEntries_eq entries true h]
    simp only [length_append, length_singleton]
    omega
  | toJSON own result =>
    rw [lengthOf, stringify, hs]
    rfl

theorem lengthOfItems_eq (items : JsItems N) (first : Bool) (h : steadyItems items = true) :
    lengthOfItems num first items = (serializeItems num first items).length := by
  cases items with
  | nil => rfl
  | cons item rest =>
    rw [steadyItems, Bool.and_eq_true, Bool.and_eq_true, Bool.not_eq_true'] at h
    obtain ⟨hdrops, hitem, hrest⟩ := h
    rw [lengthOfItems, serializeItems, lengthOfItems_eq rest false hrest]
    simp only [length_append, length_comma]
    congr 2
    cases homitted : isOmitted item with
    | true =>
      rw [isOmitted_iff.1 homitted]
      rfl
    | false =>
      obtain ⟨s, hs⟩ := exists_serialize num homitted hdrops
      rw [if_neg nofun, hs, lengthOf_eq item hitem s hs, Option.getD_some]

theorem lengthOfEntries_eq (entries : JsEntries N) (first : Bool)
    (h : steadyEntries entries = true) :
    lengthOfEntries num first entries = (serializeEntries num first entries).length := by
  cases entries with
  | nil => rfl
  | cons key item rest =>
    rw [steadyEntries, Bool.and_eq_true, Bool.and_eq_true, Bool.not_eq_true'] at h
    obtain ⟨hdrops, hitem, hrest⟩ := h
    rw [lengthOfEntries, serializeEntries]
    cases homitted : isOmitted item with
    | true =>
      rw [if_pos rfl, lengthOfEntries_eq rest first hrest, isOmitted_iff.1 homitted]
      rfl
    | false =>
      obtain ⟨s, hs⟩ := exists_serialize num homitted hdrops
      rw [if_neg nofun, hs, lengthOf_eq item hitem s hs, lengthOfEntries_eq rest false hrest,
        encodedStringLength_eq]
      simp only [length_append, length_comma, length_singleton]
      omega

end

theorem jsonLength_eq {v : JsValue N} (h : steady v = true) {s : CodeUnits}
    (hs : stringify num v = some s) : jsonLength num v = s.length :=
  lengthOf_eq num v h s hs

/-- A value without a text counts as nothing. -/
theorem jsonLength_of_none {v : JsValue N} (h : stringify num v = none) : jsonLength num v = 0 := by
  rcases (serialize_true_eq_none num).1 h with rfl | ⟨own, rfl⟩
  · rfl
  · rfl

end OmniRoute.JsonWalk
