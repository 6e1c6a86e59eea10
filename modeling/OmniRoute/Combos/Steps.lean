import OmniRoute.Lib.JsString

/-!
# Combo steps

An entry of a combo is a string or a record; `src/lib/combos/steps.ts` reads it in two ways.
`normalizeComboStep` makes a typed step of it, for which the names of all combos decide whether a
bare name is a reference; `getComboStepTarget` makes a string of it.

For an entry that is no provider wildcard both name the same target (`target_of_runtimeStep`), but
the string does not tell a model from a reference.
-/

namespace OmniRoute.Combo

open Option

def toTrimmedString (value : Option String) : Option String :=
  match value with
  | some s => if jsTrim s = "" then none else some (jsTrim s)
  | none => none

/-- The part before the first slash, trimmed, if there is one. -/
def parseProviderId (model : String) : Option String :=
  let chars := (jsTrim model).toList
  let before := chars.takeWhile fun c => c ≠ '/'
  if before = chars ∨ before = [] then none else toTrimmedString (some (String.ofList before))

/-- The parts around the first slash, if the second one has a star. -/
def parseProviderWildcardPattern (target : String) : Option (String × String) :=
  let chars := (jsTrim target).toList
  let before := chars.takeWhile fun c => c ≠ '/'
  let modelPattern := jsTrim (String.ofList ((chars.dropWhile fun c => c ≠ '/').drop 1))
  if before = chars ∨ before = [] then none
  else
    match toTrimmedString (some (String.ofList before)) with
    | none => none
    | some providerId =>
      if modelPattern.toList.contains '*' then some (providerId, modelPattern) else none

def toFullModelString (model : String) (providerId : Option String) : String :=
  let trimmedModel := jsTrim model
  if trimmedModel.toList.contains '/' then trimmedModel
  else
    match toTrimmedString providerId with
    | some normalizedProviderId => normalizedProviderId ++ "/" ++ trimmedModel
    | none => trimmedModel

inductive EntryKind
  | legacy | model | comboRef | providerWildcard
  deriving DecidableEq

/-- The fields of an entry that is a record; `legacy` is a record without a kind. -/
structure EntryRecord where
  kind : EntryKind
  model : Option String := none
  providerId : Option String := none
  provider : Option String := none
  comboName : Option String := none
  modelPattern : Option String := none
  connectionId : Option String := none
  label : Option String := none
  prompt : Option String := none
  fallbackOnlyOnQuotaExhaustion : Bool := false

inductive Entry
  | text (s : String)
  | record (r : EntryRecord)

/-- A typed step. -/
inductive ComboStep
  | model (model : String) (providerId connectionId label prompt : Option String)
    (fallbackOnlyOnQuotaExhaustion : Bool)
  | comboRef (comboName : String) (label : Option String) (fallbackOnlyOnQuotaExhaustion : Bool)
  | providerWildcard (providerId modelPattern : String) (connectionId label : Option String)

/-- `a || b` on texts that are not empty. -/
def orElse (a b : Option String) : Option String := a.or b

/-- `toTrimmedString(value.providerId) || toTrimmedString(value.provider) || parseProviderId(…)` -/
def EntryRecord.provider' (r : EntryRecord) (rawModel : String) : Option String :=
  orElse (toTrimmedString r.providerId)
    (orElse (toTrimmedString r.provider) (parseProviderId rawModel))

/-- `comboNames` are the names of all combos, `comboName` that of the combo with the entry. -/
def shouldTreatAsComboRef (target : String) (providerId : Option String) (comboNames : List String)
    (comboName : Option String) : Bool :=
  if providerId.isSome then false
  else comboNames.contains target || decide (some target = toTrimmedString comboName)

def getComboModelString (r : EntryRecord) : Option String :=
  if r.kind = .comboRef then none
  else
    match toTrimmedString r.model with
    | none => none
    | some rawModel => some (toFullModelString rawModel (r.provider' rawModel))

def getComboStepTarget (value : Entry) (comboNames : List String) (comboName : Option String) :
    Option String :=
  match value with
  | .text s => toTrimmedString (some s)
  | .record r =>
    match r.kind with
    | .comboRef => toTrimmedString r.comboName
    | .providerWildcard =>
      match toTrimmedString r.providerId with
      | some providerId =>
        some (providerId ++ "/" ++ (toTrimmedString r.modelPattern).getD "*")
      | none => none
    | kind =>
      match toTrimmedString r.model with
      | none => none
      | some rawModel =>
        if kind ≠ .model &&
            shouldTreatAsComboRef rawModel (r.provider' rawModel) comboNames comboName then
          some rawModel
        else some (toFullModelString rawModel (r.provider' rawModel))

def normalizeComboStep (value : Entry) (comboNames : List String) (comboName : Option String) :
    Option ComboStep :=
  match value with
  | .text s =>
    match toTrimmedString (some s) with
    | none => none
    | some target =>
      if shouldTreatAsComboRef target none comboNames comboName then
        some (.comboRef target none false)
      else
        match parseProviderWildcardPattern target with
        | some (providerId, modelPattern) =>
          some (.providerWildcard providerId modelPattern none none)
        | none => some (.model target (parseProviderId target) none none none false)
  | .record r =>
    let connectionId := toTrimmedString r.connectionId
    let label := toTrimmedString r.label
    match r.kind with
    | .comboRef =>
      match toTrimmedString r.comboName with
      | none => none
      | some comboRefName => some (.comboRef comboRefName label r.fallbackOnlyOnQuotaExhaustion)
    | .providerWildcard =>
      match r.provider' ((toTrimmedString r.model).getD "") with
      | none => none
      | some providerId =>
        some (.providerWildcard providerId ((toTrimmedString r.modelPattern).getD "*")
          connectionId label)
    | kind =>
      match toTrimmedString r.model with
      | none => none
      | some rawModel =>
        match parseProviderWildcardPattern rawModel with
        | some (providerId, modelPattern) =>
          some (.providerWildcard providerId modelPattern connectionId label)
        | none =>
          if kind ≠ .model &&
              shouldTreatAsComboRef rawModel (r.provider' rawModel) comboNames comboName then
            some (.comboRef rawModel label false)
          else
            some (.model (toFullModelString rawModel (r.provider' rawModel)) (r.provider' rawModel)
              connectionId label (toTrimmedString r.prompt) r.fallbackOnlyOnQuotaExhaustion)

/-- A typed step as an entry. -/
def ComboStep.toRecord : ComboStep → EntryRecord
  | .model name providerId connectionId label prompt fallback =>
    { kind := .model, model := some name, providerId, connectionId, label, prompt
      fallbackOnlyOnQuotaExhaustion := fallback }
  | .comboRef name label fallback =>
    { kind := .comboRef, comboName := some name, label
      fallbackOnlyOnQuotaExhaustion := fallback }
  | .providerWildcard providerId modelPattern connectionId label =>
    { kind := .providerWildcard, providerId := some providerId
      modelPattern := some modelPattern, connectionId, label }

/-- An entry that stands for all models of a provider that match a pattern. -/
def Entry.isWildcard : Entry → Bool
  | .text s => (parseProviderWildcardPattern s).isSome
  | .record r =>
    match r.kind with
    | .comboRef => false
    | .providerWildcard => true
    | _ =>
      match toTrimmedString r.model with
      | none => false
      | some rawModel => (parseProviderWildcardPattern rawModel).isSome

/-! ## Trimmed strings -/

theorem toTrimmedString_eq_some {value : Option String} {s : String} :
    toTrimmedString value = some s ↔ ∃ v, value = some v ∧ jsTrim v = s ∧ s ≠ "" := by
  cases value with
  | none => simp [toTrimmedString]
  | some v =>
    simp only [toTrimmedString, Option.some.injEq, exists_eq_left']
    by_cases hv : jsTrim v = ""
    · rw [if_pos hv]
      refine ⟨fun h => (by cases h), fun h => absurd (h.1.symm.trans hv) h.2⟩
    · rw [if_neg hv, Option.some.injEq]
      exact ⟨fun h => ⟨h, h ▸ hv⟩, fun h => h.1⟩

/-- What is trimmed stays so. -/
theorem toTrimmedString_idem {value : Option String} {s : String}
    (h : toTrimmedString value = some s) : toTrimmedString (some s) = some s ∧ jsTrim s = s := by
  obtain ⟨v, rfl, rfl, hne⟩ := toTrimmedString_eq_some.1 h
  have htrim := jsTrim_jsTrim v
  refine ⟨?_, htrim⟩
  rw [toTrimmedString, htrim, if_neg hne]

theorem parseProviderId_trimmed {model p : String} (h : parseProviderId model = some p) :
    toTrimmedString (some p) = some p := by
  unfold parseProviderId at h
  simp only at h
  split at h
  · cases h
  · exact (toTrimmedString_idem h).1

theorem provider'_trimmed {r : EntryRecord} {rawModel p : String}
    (h : r.provider' rawModel = some p) : toTrimmedString (some p) = some p := by
  unfold EntryRecord.provider' orElse at h
  cases h₁ : toTrimmedString r.providerId with
  | some q =>
    rw [h₁] at h
    cases h
    exact (toTrimmedString_idem h₁).1
  | none =>
    rw [h₁, Option.none_or] at h
    cases h₂ : toTrimmedString r.provider with
    | some q =>
      rw [h₂] at h
      cases h
      exact (toTrimmedString_idem h₂).1
    | none =>
      rw [h₂, Option.none_or] at h
      exact parseProviderId_trimmed h

theorem parseProviderId_of_no_slash {model : String}
    (h : (jsTrim model).toList.contains '/' = false) :
    parseProviderId model = none := by
  have hall : (jsTrim model).toList.takeWhile (fun c => c ≠ '/') = (jsTrim model).toList := by
    refine List.takeWhile_eq_self_iff.2 fun c hc => decide_eq_true ?_
    rintro rfl
    exact Bool.false_ne_true (h.symm.trans (List.contains_iff_mem.2 hc))
  unfold parseProviderId
  simp only [hall, true_or, if_true]

/-- A provider and a model are a trimmed string with a slash. -/
theorem trimmed_provider_model {p m : String} (hp : toTrimmedString (some p) = some p)
    (hm : toTrimmedString (some m) = some m) :
    jsTrim (p ++ "/" ++ m) = p ++ "/" ++ m ∧ (p ++ "/" ++ m).toList.contains '/' = true := by
  obtain ⟨v, hv, hptrim, hpne⟩ := toTrimmedString_eq_some.1 hp
  cases hv
  obtain ⟨w, hw, hmtrim, hmne⟩ := toTrimmedString_eq_some.1 hm
  cases hw
  have hpt : JsTrimmed p := hptrim ▸ trimmed_jsTrim p
  have hmt : JsTrimmed m := hmtrim ▸ trimmed_jsTrim m
  have hplist : p.toList ≠ [] := fun h => hpne (String.toList_inj.1 h)
  have hmlist : m.toList ≠ [] := fun h => hmne (String.toList_inj.1 h)
  have hlist : (p ++ "/" ++ m).toList = p.toList ++ ('/' :: m.toList) := by
    rw [String.toList_append, String.toList_append, List.append_assoc]
    rfl
  refine ⟨jsTrim_of_trimmed ⟨fun c hc => ?_, fun c hc => ?_⟩, ?_⟩
  · rw [hlist, List.head?_append_of_ne_nil _ hplist] at hc
    exact hpt.head c hc
  · rw [hlist, List.getLast?_append_of_ne_nil _ (List.cons_ne_nil _ _),
      List.getLast?_cons_of_ne_nil hmlist] at hc
    exact hmt.last c hc
  · rw [hlist]
    exact List.contains_iff_mem.2 (by simp)

/-- A full model string is read as itself. -/
theorem toFullModelString_idem {m : String} {pid : Option String}
    (hm : toTrimmedString (some m) = some m)
    (hpid : ∀ p, pid = some p → toTrimmedString (some p) = some p) :
    toTrimmedString (some (toFullModelString m pid)) = some (toFullModelString m pid) ∧
      ((toFullModelString m pid).toList.contains '/' = false →
        pid = none ∧ toFullModelString m pid = m) := by
  obtain ⟨v, hv, hmtrim, hmne⟩ := toTrimmedString_eq_some.1 hm
  cases hv
  unfold toFullModelString
  simp only [hmtrim]
  by_cases hslash : m.toList.contains '/' = true
  · rw [if_pos hslash]
    exact ⟨hm, fun h => absurd (h.symm.trans hslash) Bool.false_ne_true⟩
  · rw [if_neg hslash]
    cases pid with
    | none => exact ⟨hm, fun _ => ⟨rfl, rfl⟩⟩
    | some p =>
      have hp := hpid p rfl
      obtain ⟨htrim, hcontains⟩ := trimmed_provider_model hp hm
      have hne : p ++ "/" ++ m ≠ "" := by
        intro h
        rw [h] at hcontains
        cases hcontains
      simp only [hp]
      refine ⟨?_, fun h => absurd (h.symm.trans hcontains) Bool.false_ne_true⟩
      rw [toTrimmedString, htrim, if_neg hne]

end OmniRoute.Combo
