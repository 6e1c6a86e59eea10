import Mathlib

/-!
# Names of quota models

`src/lib/quota/quotaModelNaming.ts`: the virtual models of a quota group are named
`qtSd/<groupSlug>/<provider>/<model>`. The slug keeps the letters and digits of the group's
name, in lower case, and drops everything else; provider and model stand as they are, and the
model may hold further slashes.

A slug never holds a slash, so a minted name parses back to the slug it was minted with
(`groupSlug_of_parse`); slugs of different names may well be equal.
-/

namespace OmniRoute

open List

def QUOTA_MODEL_PREFIX : String := "qtSd/"

/-- What `toLowerCase` and the removal of everything outside `[a-z0-9]` leave of a character.
Beyond ASCII, the Kelvin sign lowers to `k`, and the dotted capital I to `i` and a mark. -/
def slugChar (c : Char) : Option Char :=
  if c.isLower || c.isDigit then some c
  else if c.isUpper then some c.toLower
  else if c = Char.ofNat 0x212A then some 'k'
  else if c = Char.ofNat 0x130 then some 'i'
  else none

def quotaGroupSlug (name : String) : String :=
  let slug := String.ofList (name.toList.filterMap slugChar)
  if slug.length > 0 then slug else "pool"

def quotaModelName (groupName provider model : String) : String :=
  QUOTA_MODEL_PREFIX ++ quotaGroupSlug groupName ++ "/" ++ provider ++ "/" ++ model

def isQuotaModelName (name : String) : Bool :=
  QUOTA_MODEL_PREFIX.toList.isPrefixOf name.toList

/-- The parts of a quota model name. -/
structure QuotaModelParts where
  groupSlug : String
  provider : String
  model : String
  deriving DecidableEq

def parseQuotaModelName (name : String) : Option QuotaModelParts :=
  if isQuotaModelName name = false then none
  else
    match (name.toList.drop QUOTA_MODEL_PREFIX.length).splitOn '/' with
    | groupSlug :: provider :: part :: parts =>
        let model := ['/'].intercalate (part :: parts)
        if groupSlug.length = 0 ∨ provider.length = 0 ∨ model.length = 0 then none
        else some ⟨String.ofList groupSlug, String.ofList provider, String.ofList model⟩
    | _ => none

/-! ## Slugs -/

theorem toLower_ne_slash {c : Char} (hup : c.isUpper = true) : c.toLower ≠ '/' := by
  intro h
  have hv : c.toLower.val.toNat = 47 := by
    rw [h]
    rfl
  simp only [Char.isUpper, decide_eq_true_eq] at hup
  rw [Char.toLower, dif_pos hup] at hv
  have hle : 65 ≤ c.val.toNat ∧ c.val.toNat ≤ 90 := hup
  have hadd : (c.val.toNat + 32) % 4294967296 = 47 := by
    rw [← hv]
    exact (UInt32.toNat_add c.val 32).symm
  omega

theorem slugChar_ne_slash {c c' : Char} (h : slugChar c = some c') : c' ≠ '/' := by
  rintro rfl
  unfold slugChar at h
  split at h
  · next hlow =>
    cases h
    exact absurd hlow (by decide)
  · split at h
    · next hup =>
      exact absurd (Option.some.inj h) (toLower_ne_slash hup)
    · split at h
      · exact absurd (Option.some.inj h) (by decide)
      · split at h
        · exact absurd (Option.some.inj h) (by decide)
        · cases h

theorem quotaGroupSlug_no_slash (name : String) : '/' ∉ (quotaGroupSlug name).toList := by
  unfold quotaGroupSlug
  dsimp only
  split
  · rw [String.toList_ofList]
    intro h
    obtain ⟨c, -, hc⟩ := mem_filterMap.1 h
    exact slugChar_ne_slash hc rfl
  · decide

theorem quotaGroupSlug_ne_empty (name : String) : (quotaGroupSlug name).toList ≠ [] := by
  unfold quotaGroupSlug
  dsimp only
  split
  · next h =>
    intro hnil
    rw [String.length_ofList] at h
    rw [String.toList_ofList] at hnil
    simp [hnil] at h
  · decide

/-! ## Minted names -/

theorem toList_quotaModelName (groupName provider model : String) :
    (quotaModelName groupName provider model).toList =
      QUOTA_MODEL_PREFIX.toList ++
        ((quotaGroupSlug groupName).toList ++ '/' :: (provider.toList ++ '/' :: model.toList)) := by
  simp [quotaModelName, String.toList_append]

theorem isQuotaModelName_quotaModelName (groupName provider model : String) :
    isQuotaModelName (quotaModelName groupName provider model) = true := by
  rw [isQuotaModelName, toList_quotaModelName]
  exact isPrefixOf_iff_prefix.2 (List.prefix_append _ _)

theorem isQuotaModelName_of_parse {name : String} {parts : QuotaModelParts}
    (h : parseQuotaModelName name = some parts) : isQuotaModelName name = true := by
  unfold parseQuotaModelName at h
  split at h
  · cases h
  · next hname => simpa using hname

/-- A minted name parses, if it does, to the slug of the group it was minted for. -/
theorem groupSlug_of_parse {groupName provider model : String} {parts : QuotaModelParts}
    (h : parseQuotaModelName (quotaModelName groupName provider model) = some parts) :
    parts.groupSlug = quotaGroupSlug groupName := by
  have hlen : QUOTA_MODEL_PREFIX.length = QUOTA_MODEL_PREFIX.toList.length := rfl
  rw [parseQuotaModelName, isQuotaModelName_quotaModelName, if_neg (by decide),
    toList_quotaModelName, hlen, drop_left,
    splitOn_append_cons_self_of_not_mem (quotaGroupSlug_no_slash groupName)] at h
  split at h
  · next heq =>
    obtain ⟨hslug, -⟩ := List.cons.inj heq
    dsimp only at h
    split at h
    · cases h
    · rw [← Option.some.inj h, ← hslug, String.ofList_toList]
  · cases h

/-- A name minted from a provider without a slash parses back to its three parts. -/
theorem parse_quotaModelName {groupName provider model : String}
    (hslash : '/' ∉ provider.toList) (hprovider : provider.toList ≠ [])
    (hmodel : model.toList ≠ []) :
    parseQuotaModelName (quotaModelName groupName provider model) =
      some ⟨quotaGroupSlug groupName, provider, model⟩ := by
  have hlen : QUOTA_MODEL_PREFIX.length = QUOTA_MODEL_PREFIX.toList.length := rfl
  rw [parseQuotaModelName, isQuotaModelName_quotaModelName, if_neg (by decide),
    toList_quotaModelName, hlen, drop_left,
    splitOn_append_cons_self_of_not_mem (quotaGroupSlug_no_slash groupName),
    splitOn_append_cons_self_of_not_mem hslash]
  have hjoin : ['/'].intercalate (model.toList.splitOn '/') = model.toList :=
    intercalate_splitOn '/'
  cases hsplit : model.toList.splitOn '/' with
  | nil => exact absurd hsplit (splitOn_ne_nil _ _)
  | cons part parts =>
    rw [hsplit] at hjoin
    have hslug := quotaGroupSlug_ne_empty groupName
    simp only [hjoin, length_eq_zero_iff, hslug, hprovider, hmodel, or_self, if_false,
      String.ofList_toList]

theorem parse_quotaModelName_slash : parseQuotaModelName (quotaModelName "Team A" "openai" "o/1") =
    some ⟨quotaGroupSlug "Team A", "openai", "o/1"⟩ :=
  parse_quotaModelName (by decide) (by decide) (by decide)

end OmniRoute
