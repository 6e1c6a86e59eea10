import Mathlib

/-!
# Strings of a scripting language

White space and trimming. A string is trimmed when it begins and ends with something else than
white space; trimming a string makes it so (`trimmed_jsTrim`) and leaves a trimmed string alone
(`jsTrim_of_trimmed`).
-/

/-- White space to `String.prototype.trim`. -/
def isJsSpace (c : Char) : Bool :=
  (9 ≤ c.toNat && c.toNat ≤ 13) || c.toNat = 0x20 || c.toNat = 0xA0 || c.toNat = 0x1680 ||
    (0x2000 ≤ c.toNat && c.toNat ≤ 0x200A) || c.toNat = 0x2028 || c.toNat = 0x2029 ||
    c.toNat = 0x202F || c.toNat = 0x205F || c.toNat = 0x3000 || c.toNat = 0xFEFF

/-- `s.trim() === ""` -/
def isBlank (s : String) : Bool := s.toList.all isJsSpace

/-- `s.trim()` -/
def jsTrim (s : String) : String :=
  String.ofList ((s.toList.dropWhile isJsSpace).rdropWhile isJsSpace)

/-- No white space at either end. -/
structure JsTrimmed (s : String) : Prop where
  head : ∀ c ∈ s.toList.head?, isJsSpace c = false
  last : ∀ c ∈ s.toList.getLast?, isJsSpace c = false

theorem jsTrim_of_trimmed {s : String} (h : JsTrimmed s) : jsTrim s = s := by
  have hleft : s.toList.dropWhile isJsSpace = s.toList := by
    cases hs : s.toList with
    | nil => rfl
    | cons c l =>
      have hc := h.head c (by rw [hs]; rfl)
      rw [List.dropWhile_cons_of_neg (by simp [hc])]
  have hright : s.toList.rdropWhile isJsSpace = s.toList := by
    refine List.rdropWhile_eq_self_iff.2 fun hne => ?_
    have hlast := h.last _ (List.getLast?_eq_some_getLast hne)
    simpa using hlast
  rw [jsTrim, hleft, hright, String.ofList_toList]

theorem trimmed_jsTrim (s : String) : JsTrimmed (jsTrim s) := by
  have hlist : (jsTrim s).toList = (s.toList.dropWhile isJsSpace).rdropWhile isJsSpace :=
    String.toList_ofList
  refine ⟨fun c hc => ?_, fun c hc => ?_⟩
  · rw [hlist] at hc
    -- The right end is cut off the rest of the list that begins with the same character.
    have hprefix := List.rdropWhile_prefix isJsSpace (l := s.toList.dropWhile isJsSpace)
    cases hcut : (s.toList.dropWhile isJsSpace).rdropWhile isJsSpace with
    | nil =>
      rw [hcut] at hc
      cases hc
    | cons c' l =>
      rw [hcut] at hc hprefix
      obtain rfl := Option.some.inj hc
      obtain ⟨t, ht⟩ := hprefix
      have hhead : (s.toList.dropWhile isJsSpace).head? = some c' := by rw [← ht]; rfl
      have hnot := List.head?_dropWhile_not isJsSpace s.toList
      rw [hhead] at hnot
      exact hnot
  · rw [hlist] at hc
    have hne : (s.toList.dropWhile isJsSpace).rdropWhile isJsSpace ≠ [] := by
      rintro hnil
      rw [hnil] at hc
      cases hc
    have hlast := List.rdropWhile_last_not isJsSpace (s.toList.dropWhile isJsSpace) hne
    rw [List.getLast?_eq_some_getLast hne] at hc
    cases hc
    simpa using hlast

theorem jsTrim_jsTrim (s : String) : jsTrim (jsTrim s) = jsTrim s :=
  jsTrim_of_trimmed (trimmed_jsTrim s)
