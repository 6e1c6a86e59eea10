import OmniRoute.NamespaceTools.Entries

/-!
# Wire names that can be read back

Whether the Chat names of a request are distinct and every member is found again under its own
name, and under `namespace.name`.

**Main result (`invertible_iff`).** They are exactly when no name is spelled like another one
(`NamesApart`): a leaf that is qualified already keeps its spelling, so does a plain tool, and a
container may lend the leaf the last symbol of its separator.
-/

namespace OmniRoute.NamespaceTools

open Qualified List Option OrdMap CodeUnits

variable {N : Type} {hash : NameHash} {tools : List (ResponsesTool N)}

/-! ## The property -/

/-- Distinct wire names; the wire name of a member leads back to it, and so does `namespace.name`
when that is not the wire name of another tool. -/
structure Invertible (hash : NameHash) (tools : List (ResponsesTool N)) : Prop where
  distinct : (wireNames hash tools).Nodup
  wire : ∀ identity, .sub identity ∈ entries tools →
    resolveRequestToolIdentity (namespaceToolIdentityMap hash tools)
      (Entry.wireName hash (.sub identity)) = some identity
  dotted : ∀ identity, .sub identity ∈ entries tools →
    (identity.dotted ∈ wireNames hash tools →
      identity.dotted = Entry.wireName hash (.sub identity)) →
    resolveRequestToolIdentity (namespaceToolIdentityMap hash tools) identity.dotted = some identity

/-- Namespace, separator and leaf. -/
def Identity.joined (identity : Identity) : CodeUnits :=
  containerPrefix 95 identity.nsName ++ identity.name

/-- The spelling of a tool whose name is not joined: a plain tool, or a leaf that is qualified. -/
def Entry.verbatim : Entry → Option CodeUnits
  | .sub identity => if isQualified identity.name then some identity.name else none
  | .plain name => some name

/-- A member whose name is joined. -/
def IsJoined (tools : List (ResponsesTool N)) (identity : Identity) : Prop :=
  .sub identity ∈ entries tools ∧ isQualified identity.name = false

/-- No two tools are spelled alike. -/
structure NamesApart (hash : NameHash) (tools : List (ResponsesTool N)) : Prop where
  /-- Every member is in a namespace that has a name. -/
  named : ∀ identity, .sub identity ∈ entries tools → identity.nsName ≠ []
  /-- A leaf that is qualified is in one namespace. -/
  leaves : ∀ x y, .sub x ∈ entries tools → .sub y ∈ entries tools → isQualified x.name = true →
    x.name = y.name → x = y
  /-- No plain tool or qualified leaf is spelled like a joined name. -/
  reserved : ∀ e ∈ entries tools, ∀ name, e.verbatim = some name → ∀ identity,
    IsJoined tools identity → name ≠ shorten hash identity.joined
  /-- A namespace is not another one with the separator added. -/
  containers : ∀ x y, IsJoined tools x → IsJoined tools y → x.name = y.name →
    containerPrefix 95 x.nsName = containerPrefix 95 y.nsName → x = y
  /-- The separator's symbol does not move from the namespace to the leaf. -/
  shifted : ∀ x y, IsJoined tools x → IsJoined tools y → y.name = 95 :: x.name →
    containerPrefix 95 x.nsName ≠ containerPrefix 95 y.nsName ++ [95]
  /-- No joined name is spelled like a longer one that was cut. -/
  cut : ∀ x y, IsJoined tools x → IsJoined tools y → x.joined.length ≤ maxToolNameLen →
    maxToolNameLen < y.joined.length → x.joined ≠ shorten hash y.joined
  /-- No two members are spelled alike with a dot, unless that is a wire name. -/
  dotted : ∀ x y, .sub x ∈ entries tools → .sub y ∈ entries tools → x.dotted = y.dotted →
    x = y ∨ x.dotted ∈ wireNames hash tools

/-- On the joined names of the list, the hash tells apart those with the same beginning. -/
def HashApart (hash : NameHash) (tools : List (ResponsesTool N)) : Prop :=
  ∀ x y, IsJoined tools x → IsJoined tools y →
    maxToolNameLen < x.joined.length → maxToolNameLen < y.joined.length →
    x.joined.take (maxToolNameLen - 8) = y.joined.take (maxToolNameLen - 8) →
    hash x.joined = hash y.joined → x.joined = y.joined

/-! ## Wire names -/

theorem free_of_not_qualified {leaf : CodeUnits} (h : isQualified leaf = false) :
    ¬[95, 95] <:+: leaf := by
  intro hinfix
  obtain ⟨t, hprefix, hsuffix⟩ := infix_iff_prefix_suffix.1 hinfix
  have hany : isQualified leaf = true :=
    List.any_eq_true.2 ⟨t, (mem_tails _ _).2 hsuffix, isPrefixOf_iff_prefix.2 hprefix⟩
  rw [h] at hany
  cases hany

theorem wireName_of_verbatim {e : Entry} {name : CodeUnits} (h : e.verbatim = some name) :
    e.wireName hash = name := by
  cases e with
  | sub identity =>
    simp only [Entry.verbatim] at h
    split at h
    · next hq =>
      injection h with h
      simp only [Entry.wireName, flattenNamespaceToolName, if_pos hq, ite_self]
      exact h
    · cases h
  | plain plainName => exact some.inj h

variable {identity : Identity}

theorem wireName_of_joined (hns : identity.nsName ≠ []) (h : isQualified identity.name = false) :
    Entry.wireName hash (.sub identity) = shorten hash identity.joined := by
  show flattenNamespaceToolName hash identity.nsName identity.name = _
  rw [flattenNamespaceToolName, if_neg hns, if_neg (by simp [h])]
  rfl

/-- Every tool is of one of the two kinds. -/
theorem verbatim_or_joined {e : Entry} (he : e ∈ entries tools) :
    (∃ name, e.verbatim = some name) ∨ ∃ identity, e = .sub identity ∧ IsJoined tools identity := by
  cases e with
  | sub identity =>
    cases h : isQualified identity.name with
    | true => exact .inl ⟨identity.name, if_pos h⟩
    | false => exact .inr ⟨identity, rfl, he, h⟩
  | plain name => exact .inl ⟨name, rfl⟩

variable {x : Identity}

/-- Two joined names are equal for one of two reasons. -/
theorem joined_eq_iff {y : Identity} (hx : isQualified x.name = false)
    (hy : isQualified y.name = false) :
    x.joined = y.joined ↔
      containerPrefix 95 x.nsName = containerPrefix 95 y.nsName ∧ x.name = y.name ∨
      containerPrefix 95 x.nsName = containerPrefix 95 y.nsName ++ [95] ∧ y.name = 95 :: x.name ∨
      containerPrefix 95 y.nsName = containerPrefix 95 x.nsName ++ [95] ∧ x.name = 95 :: y.name :=
  append_eq_append_iff_of_free (suffix_containerPrefix _) (suffix_containerPrefix _)
    (free_of_not_qualified hx) (free_of_not_qualified hy)

theorem shorten_of_le {q : CodeUnits} (h : q.length ≤ maxToolNameLen) : shorten hash q = q :=
  if_pos h

theorem shorten_of_lt {q : CodeUnits} (h : maxToolNameLen < q.length) :
    shorten hash q = q.take (maxToolNameLen - 8) ++ [95] ++ hash q := if_neg (Nat.not_le.2 h)

/-- Two cut names are equal only if beginning and hash are. -/
theorem shorten_inj_of_lt {q r : CodeUnits} (hq : maxToolNameLen < q.length)
    (hr : maxToolNameLen < r.length) (h : shorten hash q = shorten hash r) :
    q.take (maxToolNameLen - 8) = r.take (maxToolNameLen - 8) ∧ hash q = hash r := by
  rw [shorten_of_lt hq, shorten_of_lt hr, append_assoc, append_assoc] at h
  have hlen : (q.take (maxToolNameLen - 8)).length = (r.take (maxToolNameLen - 8)).length := by
    rw [length_take, length_take]
    omega
  obtain ⟨htake, hrest⟩ := append_inj h hlen
  exact ⟨htake, append_cancel_left hrest⟩

theorem NamesApart.joined_inj (hapart : NamesApart hash tools) {y : Identity}
    (hx : IsJoined tools x) (hy : IsJoined tools y) (h : x.joined = y.joined) : x = y := by
  rcases (joined_eq_iff hx.2 hy.2).1 h with ⟨hc, hn⟩ | ⟨hc, hn⟩ | ⟨hc, hn⟩
  · exact hapart.containers x y hx hy hn hc
  · exact absurd hc (hapart.shifted x y hx hy hn)
  · exact absurd hc (hapart.shifted y x hy hx hn)

theorem NamesApart.shorten_inj (hapart : NamesApart hash tools) (hhash : HashApart hash tools)
    {y : Identity} (hx : IsJoined tools x) (hy : IsJoined tools y)
    (h : shorten hash x.joined = shorten hash y.joined) : x = y := by
  rcases Nat.lt_or_ge maxToolNameLen x.joined.length with hlx | hlx
  · rcases Nat.lt_or_ge maxToolNameLen y.joined.length with hly | hly
    · obtain ⟨htake, heq⟩ := shorten_inj_of_lt hlx hly h
      exact hapart.joined_inj hx hy (hhash x y hx hy hlx hly htake heq)
    · rw [shorten_of_le hly] at h
      exact absurd h.symm (hapart.cut y x hy hx hly hlx)
  · rcases Nat.lt_or_ge maxToolNameLen y.joined.length with hly | hly
    · rw [shorten_of_le hlx] at h
      exact absurd h (hapart.cut x y hx hy hlx hly)
    · rw [shorten_of_le hlx, shorten_of_le hly] at h
      exact hapart.joined_inj hx hy h

/-- No member is spelled like a plain tool. -/
def LeavesApart (tools : List (ResponsesTool N)) : Prop :=
  ∀ x name, .sub x ∈ entries tools → .plain name ∈ entries tools → x.name ≠ name

theorem NamesApart.verbatim_inj (hapart : NamesApart hash tools) (hleaves : LeavesApart tools)
    {e e' : Entry} (he : e ∈ entries tools) (he' : e' ∈ entries tools) {name : CodeUnits}
    (h : e.verbatim = some name) (h' : e'.verbatim = some name) : e = e' := by
  cases e with
  | sub x =>
    obtain ⟨hx, hname⟩ := ite_none_right_eq_some.1 h
    cases hname
    cases e' with
    | sub y =>
      obtain ⟨-, hy⟩ := ite_none_right_eq_some.1 h'
      rw [hapart.leaves x y he he' hx (some.inj hy).symm]
    | plain plainName => exact absurd (some.inj h').symm (hleaves x plainName he he')
  | plain plainName =>
    obtain rfl := some.inj h
    cases e' with
    | sub y =>
      obtain ⟨-, hy⟩ := ite_none_right_eq_some.1 h'
      exact absurd (some.inj hy) (hleaves y plainName he' he)
    | plain otherName => exact congrArg Entry.plain (some.inj h').symm

theorem NamesApart.wireName_inj (hapart : NamesApart hash tools) (hhash : HashApart hash tools)
    (hleaves : LeavesApart tools) {e e' : Entry} (he : e ∈ entries tools) (he' : e' ∈ entries tools)
    (h : e.wireName hash = e'.wireName hash) : e = e' := by
  rcases verbatim_or_joined he with ⟨name, hv⟩ | ⟨x, rfl, hx⟩
  · rw [wireName_of_verbatim hv] at h
    rcases verbatim_or_joined he' with ⟨name', hv'⟩ | ⟨y, rfl, hy⟩
    · rw [wireName_of_verbatim hv'] at h
      exact hapart.verbatim_inj hleaves he he' hv (h ▸ hv')
    · rw [wireName_of_joined (hapart.named y hy.1) hy.2] at h
      exact absurd h (hapart.reserved e he name hv y hy)
  · rw [wireName_of_joined (hapart.named x hx.1) hx.2] at h
    rcases verbatim_or_joined he' with ⟨name', hv'⟩ | ⟨y, rfl, hy⟩
    · rw [wireName_of_verbatim hv'] at h
      exact absurd h.symm (hapart.reserved e' he' name' hv' x hx)
    · rw [wireName_of_joined (hapart.named y hy.1) hy.2] at h
      rw [hapart.shorten_inj hhash hx hy h]

/-! ## The map of identities -/

def Entry.identity? : Entry → Option Identity
  | .sub identity => some identity
  | .plain _ => none

/-- The members, in order. -/
def subs (tools : List (ResponsesTool N)) : List Identity :=
  (entries tools).filterMap Entry.identity?

theorem mem_subs : identity ∈ subs tools ↔ .sub identity ∈ entries tools := by
  refine ⟨fun h => ?_, fun h => mem_filterMap.2 ⟨_, h, rfl⟩⟩
  obtain ⟨e, he, hid⟩ := mem_filterMap.1 h
  cases e with
  | sub x => exact some.inj hid ▸ he
  | plain name => cases hid

/-- What a member adds to the map. -/
def noted (hash : NameHash) (identityMap : OrdMap CodeUnits Identity) (identity : Identity) :
    OrdMap CodeUnits Identity :=
  if identity.nsName ≠ [] ∧ identity.name ≠ [] then
    identityMap.set (Entry.wireName hash (.sub identity)) identity
  else identityMap

theorem noteTool_eq (hash : NameHash) (identityMap : OrdMap CodeUnits Identity)
    (tool : ResponsesTool N) : noteTool hash identityMap tool =
      (tool.entries.filterMap Entry.identity?).foldl (noted hash) identityMap := by
  cases tool with
  | namespaceTool nsName members =>
    have hids : (ResponsesTool.namespaceTool nsName members).entries.filterMap Entry.identity? =
        (namedMembers members).map fun sub => ⟨nsName, sub.name⟩ := by
      simp only [ResponsesTool.entries, filterMap_map]
      exact congrFun filterMap_eq_map _
    rw [hids, foldl_map]
    rfl
  | function tool =>
    simp only [ResponsesTool.entries]
    split
    · rfl
    · rfl
  | chat name functionName value => rfl

theorem namespaceToolIdentityMap_eq (hash : NameHash) (tools : List (ResponsesTool N)) :
    namespaceToolIdentityMap hash tools = (subs tools).foldl (noted hash) empty := by
  have hfold (identityMap : OrdMap CodeUnits Identity) :
      tools.foldl (noteTool hash) identityMap = (subs tools).foldl (noted hash) identityMap := by
    induction tools generalizing identityMap with
    | nil => rfl
    | cons tool rest ih =>
      show rest.foldl (noteTool hash) (noteTool hash identityMap tool) = _
      have hsubs : subs (tool :: rest) =
          tool.entries.filterMap Entry.identity? ++ subs rest := by
        rw [subs, entries, flatMap_cons, filterMap_append]
        rfl
      rw [ih, noteTool_eq, hsubs, foldl_append]
  exact hfold empty

theorem name_ne_nil (h : identity ∈ subs tools) : identity.name ≠ [] := by
  obtain ⟨t, -, hsub⟩ := mem_flatMap.1 (mem_subs.1 h)
  obtain ⟨_, _, _, _, _, hname⟩ := mem_entries_sub hsub
  exact hname

/-- With named namespaces and distinct wire names the map lists all members, in order. -/
theorem entries_identityMap (hnamed : ∀ identity ∈ subs tools, identity.nsName ≠ [])
    (hdistinct : (wireNames hash tools).Nodup) :
    (namespaceToolIdentityMap hash tools).entries =
      (subs tools).map fun identity => (Entry.wireName hash (.sub identity), identity) := by
  have hkeys : ((subs tools).map fun identity => Entry.wireName hash (.sub identity)).Nodup := by
    rw [wireNames_eq] at hdistinct
    refine pairwise_map.2 ((pairwise_map.1 hdistinct).filterMap _ ?_)
    intro e e' hne x hx y hy
    cases e with
    | sub x' =>
      cases e' with
      | sub y' => exact some.inj hx ▸ some.inj hy ▸ hne
      | plain name => cases hy
    | plain name => cases hx
  have hfold : (subs tools).foldl (noted hash) empty = (subs tools).foldl
      (fun m identity => m.set (Entry.wireName hash (.sub identity)) identity) empty :=
    foldl_ext _ _ _ fun m identity hmem =>
      if_pos ⟨hnamed identity hmem, name_ne_nil hmem⟩
  rw [namespaceToolIdentityMap_eq, hfold]
  exact entries_foldl_set (fun identity => Entry.wireName hash (.sub identity)) id hkeys

/-! ## Resolving -/

theorem asRequestToolIdentity_eq_some {y : Identity} :
    asRequestToolIdentity x = some y ↔ x = y ∧ x.nsName ≠ [] ∧ x.name ≠ [] := by
  unfold asRequestToolIdentity
  split
  · next h => exact ⟨fun heq => ⟨some.inj heq, h⟩, fun heq => congrArg some heq.1⟩
  · next h => exact ⟨fun heq => (nomatch heq), fun heq => absurd heq.2 h⟩

/-- What is found has a namespace. -/
theorem nsName_of_resolve {identityMap : OrdMap CodeUnits Identity} {toolName : CodeUnits}
    (h : resolveRequestToolIdentity identityMap toolName = some identity) :
    identity.nsName ≠ [] := by
  unfold resolveRequestToolIdentity at h
  split at h
  · cases h
  · split at h
    · next found hfound =>
      obtain ⟨x, -, hx⟩ := bind_eq_some_iff.1 hfound
      obtain ⟨heq, hns, -⟩ := asRequestToolIdentity_eq_some.1 hx
      rw [← some.inj h, ← heq]
      exact hns
    · obtain ⟨x, -, hx⟩ := mem_filterMap.1 (mem_of_find?_eq_some h)
      obtain ⟨heq, hns, -⟩ := asRequestToolIdentity_eq_some.1 hx
      exact heq ▸ hns

theorem wireName_ne_nil (h : identity.name ≠ []) : Entry.wireName hash (.sub identity) ≠ [] := by
  show flattenNamespaceToolName hash identity.nsName identity.name ≠ []
  unfold flattenNamespaceToolName
  split
  · exact h
  · split
    · exact h
    · unfold shorten
      split
      · exact append_ne_nil_of_right_ne_nil _ h
      · simp

section Resolve

variable (hnamed : ∀ identity ∈ subs tools, identity.nsName ≠ [])
  (hdistinct : (wireNames hash tools).Nodup)

include hnamed in
theorem asRequestToolIdentity_self {identity : Identity} (hmem : identity ∈ subs tools) :
    asRequestToolIdentity identity = some identity :=
  asRequestToolIdentity_eq_some.2 ⟨rfl, hnamed identity hmem, name_ne_nil hmem⟩

include hnamed hdistinct

theorem get_identityMap {identity : Identity} {toolName : CodeUnits} :
    (namespaceToolIdentityMap hash tools).get toolName = some identity ↔
      identity ∈ subs tools ∧ Entry.wireName hash (.sub identity) = toolName := by
  rw [get_eq_some, entries_identityMap hnamed hdistinct, List.mem_map]
  constructor
  · rintro ⟨x, hx, heq⟩
    obtain ⟨rfl, rfl⟩ := Prod.mk.inj heq
    exact ⟨hx, rfl⟩
  · rintro ⟨hmem, rfl⟩
    exact ⟨identity, hmem, rfl⟩

theorem resolve_wireName {identity : Identity} (hmem : identity ∈ subs tools) :
    resolveRequestToolIdentity (namespaceToolIdentityMap hash tools)
      (Entry.wireName hash (.sub identity)) = some identity := by
  have hget := (get_identityMap hnamed hdistinct).2 ⟨hmem, rfl⟩
  have hself := asRequestToolIdentity_self hnamed hmem
  rw [resolveRequestToolIdentity, if_neg (wireName_ne_nil (name_ne_nil hmem)), hget,
    bind_some, hself]

/-- Under a name that is not in the map the members are searched for their dotted name. -/
theorem resolve_of_new {toolName : CodeUnits} (hname : toolName ≠ [])
    (hnew : toolName ∉ wireNames hash tools) :
    resolveRequestToolIdentity (namespaceToolIdentityMap hash tools) toolName =
      (subs tools).find? fun identity => decide (identity.dotted = toolName) := by
  have hget : (namespaceToolIdentityMap hash tools).get toolName = none := by
    rw [eq_none_iff_forall_ne_some]
    intro identity hget
    obtain ⟨hmem, hwire⟩ := (get_identityMap hnamed hdistinct).1 hget
    rw [wireNames_eq] at hnew
    exact hnew (List.mem_map.2 ⟨_, mem_subs.1 hmem, hwire⟩)
  have hvalues : (namespaceToolIdentityMap hash tools).values = subs tools := by
    rw [values, entries_identityMap hnamed hdistinct, List.map_map]
    exact List.map_id _
  have hall : (subs tools).filterMap asRequestToolIdentity = subs tools := by
    have hcongr := filterMap_congr (l := subs tools) fun identity hmem =>
      asRequestToolIdentity_self hnamed hmem
    rw [hcongr]
    exact filterMap_some
  rw [resolveRequestToolIdentity, if_neg hname, hget, hvalues, hall]
  rfl

end Resolve

/-! ## Exactly when -/

/-- **Names that are spelled apart can be read back.** -/
theorem NamesApart.invertible (hapart : NamesApart hash tools) (hhash : HashApart hash tools)
    (hleaves : LeavesApart tools) (hentries : (entries tools).Nodup) : Invertible hash tools := by
  have hnamed : ∀ identity ∈ subs tools, identity.nsName ≠ [] := fun identity hmem =>
    hapart.named identity (mem_subs.1 hmem)
  have hdistinct : (wireNames hash tools).Nodup := by
    rw [wireNames_eq, nodup_map_iff_inj_on hentries]
    exact fun e he e' he' h => hapart.wireName_inj hhash hleaves he he' h
  have hwire : ∀ identity, .sub identity ∈ entries tools →
      resolveRequestToolIdentity (namespaceToolIdentityMap hash tools)
        (Entry.wireName hash (.sub identity)) = some identity := fun identity hmem =>
    resolve_wireName hnamed hdistinct (mem_subs.2 hmem)
  refine ⟨hdistinct, hwire, fun identity hmem hown => ?_⟩
  by_cases hdotted : identity.dotted ∈ wireNames hash tools
  · rw [hown hdotted]
    exact hwire identity hmem
  · have hne : identity.dotted ≠ [] := by simp [Identity.dotted]
    rw [resolve_of_new hnamed hdistinct hne hdotted]
    obtain ⟨found, hfound⟩ : ∃ found, (subs tools).find? (fun x =>
        decide (x.dotted = identity.dotted)) = some found :=
      isSome_iff_exists.1 (find?_isSome.2 ⟨identity, mem_subs.2 hmem, by simp⟩)
    have heq : found.dotted = identity.dotted := by
      simpa using find?_some hfound
    have hfmem := mem_subs.1 (mem_of_find?_eq_some hfound)
    rcases hapart.dotted found identity hfmem hmem heq with rfl | hwired
    · exact hfound
    · exact absurd (heq ▸ hwired) hdotted

/-- **Names that can be read back are spelled apart.** -/
theorem Invertible.namesApart (h : Invertible hash tools) (hentries : (entries tools).Nodup) :
    NamesApart hash tools := by
  have hnamed : ∀ identity, .sub identity ∈ entries tools → identity.nsName ≠ [] :=
    fun identity hmem => nsName_of_resolve (h.wire identity hmem)
  have hinj : ∀ e ∈ entries tools, ∀ e' ∈ entries tools,
      e.wireName hash = e'.wireName hash → e = e' := by
    have hdistinct := h.distinct
    rw [wireNames_eq, nodup_map_iff_inj_on hentries] at hdistinct
    exact hdistinct
  have hjoined {x : Identity} (hx : IsJoined tools x) :
      Entry.wireName hash (.sub x) = shorten hash x.joined :=
    wireName_of_joined (hnamed x hx.1) hx.2
  have hjoinedInj {x y : Identity} (hx : IsJoined tools x) (hy : IsJoined tools y)
      (heq : shorten hash x.joined = shorten hash y.joined) : x = y := by
    have hsub := hinj _ hx.1 _ hy.1 ((hjoined hx).trans (heq.trans (hjoined hy).symm))
    injection hsub
  constructor
  · exact hnamed
  · intro x y hx hy hq hname
    have hvx : Entry.verbatim (.sub x) = some x.name := if_pos hq
    have hvy : Entry.verbatim (.sub y) = some x.name := by
      rw [Entry.verbatim, ← hname, if_pos hq]
    have hsub := hinj _ hx _ hy ((wireName_of_verbatim hvx).trans (wireName_of_verbatim hvy).symm)
    injection hsub
  · intro e he name hv identity hid heq
    have hsub := hinj e he _ hid.1 (by rw [wireName_of_verbatim hv, hjoined hid, heq])
    rw [hsub, Entry.verbatim, hid.2] at hv
    cases hv
  · intro x y hx hy hname hcontainer
    have heq := (joined_eq_iff hx.2 hy.2).2 (.inl ⟨hcontainer, hname⟩)
    exact hjoinedInj hx hy (congrArg (shorten hash) heq)
  · intro x y hx hy hname hcontainer
    have heq := (joined_eq_iff hx.2 hy.2).2 (.inr (.inl ⟨hcontainer, hname⟩))
    have hxy := hjoinedInj hx hy (congrArg (shorten hash) heq)
    rw [hxy] at hname
    exact cons_ne_self _ _ hname.symm
  · intro x y hx hy hlx hly heq
    have hxy := hjoinedInj hx hy ((shorten_of_le hlx).trans heq)
    rw [hxy] at hlx
    exact absurd hly (Nat.not_lt.2 hlx)
  · intro x y hx hy heq
    by_cases hwired : x.dotted ∈ wireNames hash tools
    · exact .inr hwired
    · left
      have hx' := h.dotted x hx fun hmem => absurd hmem hwired
      have hy' := h.dotted y hy fun hmem => absurd (heq ▸ hmem) hwired
      rw [heq, hy'] at hx'
      exact (some.inj hx').symm

/-- **Exactly when the wire names of a request can be read back.** -/
theorem invertible_iff (hash : NameHash) (rootTools : List (ResponsesTool N))
    (additional : List (List (ResponsesTool N)))
    (htools : DistinctTools (collectResponsesTools rootTools additional))
    (hhash : HashApart hash (collectResponsesTools rootTools additional)) :
    Invertible hash (collectResponsesTools rootTools additional) ↔
      NamesApart hash (collectResponsesTools rootTools additional) := by
  have hmerged := merged_collectResponsesTools rootTools additional
  have hentries := nodup_entries hmerged htools
  have hleaves : LeavesApart (collectResponsesTools rootTools additional) :=
    fun x name hsub hplain => leaf_ne_plain hmerged htools hsub hplain
  exact ⟨fun h => h.namesApart hentries, fun h => h.invertible hhash hleaves hentries⟩

def rovo : Identity := ⟨ofString "rovo", ofString "_search"⟩

def linear : Identity := ⟨ofString "linear", ofString "_search"⟩

/-- A plain tool, and two namespaces with the same leaf. -/
def searchTools : List (ResponsesTool ℕ) :=
  [.function { name := ofString "run" },
    .namespaceTool rovo.nsName (some [{ name := rovo.name }]),
    .namespaceTool linear.nsName (some [{ name := linear.name }])]

/-- What does not fit. -/
def restHash : NameHash := fun name => name.drop (maxToolNameLen - 8)

theorem distinctTools_searchTools : DistinctTools searchTools := by
  constructor
  · refine .cons ?_ (.cons ?_ (.cons ?_ .nil))
    · simp
    · intro u hu a as b bs ha hb
      rw [mem_singleton] at hu
      rw [hu] at hb
      injection ha with ha
      injection hb with hb
      rw [← ha, ← hb]
      decide +kernel
    · simp
  · intro nsName members hmem
    rcases mem_cons.1 hmem with h | hmem
    · cases h
    · rcases mem_cons.1 hmem with h | hmem
      · injection h with _ h
        rw [h]
        decide +kernel
      · injection mem_singleton.1 hmem with _ h
        rw [h]
        decide +kernel
  · intro name functionName value hmem
    simp [searchTools] at hmem

theorem entries_searchTools :
    entries searchTools = [.plain (ofString "run"), .sub rovo, .sub linear] := by
  decide +kernel

theorem sub_mem_searchTools (h : .sub x ∈ entries searchTools) : x = rovo ∨ x = linear := by
  simpa [entries_searchTools] using h

theorem namesApart_searchTools : NamesApart restHash searchTools := by
  have hjoined {x : Identity} (h : IsJoined searchTools x) : x = rovo ∨ x = linear :=
    sub_mem_searchTools h.1
  constructor
  · intro x hx
    rcases sub_mem_searchTools hx with rfl | rfl <;> decide +kernel
  · intro x y hx hy hq
    rcases sub_mem_searchTools hx with rfl | rfl <;> exact absurd hq (by decide +kernel)
  · intro e he name hv x hx
    have hplain : e = .plain (ofString "run") := by
      cases e with
      | sub y =>
        obtain ⟨hq, -⟩ := ite_none_right_eq_some.1 hv
        rcases sub_mem_searchTools he with rfl | rfl <;> exact absurd hq (by decide +kernel)
      | plain plainName => simpa [entries_searchTools] using he
    rw [hplain] at hv
    rw [← some.inj hv]
    rcases hjoined hx with rfl | rfl <;> decide +kernel
  · intro x y hx hy _ hcontainer
    rcases hjoined hx with rfl | rfl <;> rcases hjoined hy with rfl | rfl
    · rfl
    · exact absurd hcontainer (by decide +kernel)
    · exact absurd hcontainer (by decide +kernel)
    · rfl
  · intro x y hx hy hname
    rcases hjoined hx with rfl | rfl <;> rcases hjoined hy with rfl | rfl <;>
      exact absurd hname (by decide +kernel)
  · intro x y _ hy _ hly
    rcases hjoined hy with rfl | rfl <;> exact absurd hly (by decide +kernel)
  · intro x y hx hy hdotted
    rcases sub_mem_searchTools hx with rfl | rfl <;> rcases sub_mem_searchTools hy with rfl | rfl
    · exact .inl rfl
    · exact absurd hdotted (by decide +kernel)
    · exact absurd hdotted (by decide +kernel)
    · exact .inl rfl

/-- The tools of two servers with the same leaf are told apart. -/
theorem invertible_iff_search : Invertible restHash (collectResponsesTools searchTools []) := by
  refine (invertible_iff restHash searchTools [] distinctTools_searchTools ?_).2
    namesApart_searchTools
  intro x y hx _ hlx
  rcases sub_mem_searchTools hx.1 with rfl | rfl <;> exact absurd hlx (by decide +kernel)

/-- A plain tool that is spelled like a member of a namespace. -/
def collidingTools : List (ResponsesTool ℕ) :=
  [.function { name := ofString "fs__read" },
    .namespaceTool (ofString "fs") (some [{ name := ofString "read" }])]

/-- The member of a namespace has the wire name of a plain tool. -/
theorem plain_name_collides : ¬∀ rootTools : List (ResponsesTool ℕ),
    DistinctTools (collectResponsesTools rootTools []) →
    HashApart restHash (collectResponsesTools rootTools []) →
    Invertible restHash (collectResponsesTools rootTools []) := by
  intro hall
  have hcollect : collectResponsesTools collidingTools [] = collidingTools := rfl
  have hnames : wireNames restHash collidingTools =
      [ofString "fs__read", ofString "fs__read"] := by decide +kernel
  have hentries : entries collidingTools = [.plain (ofString "fs__read"),
      .sub ⟨ofString "fs", ofString "read"⟩] := by decide +kernel
  have hdistinct : DistinctTools collidingTools := by
    constructor
    · simp [collidingTools]
    · intro nsName members hmem
      rcases mem_cons.1 hmem with h | hmem
      · cases h
      · injection mem_singleton.1 hmem with _ h
        rw [h]
        decide +kernel
    · intro name functionName value hmem
      simp [collidingTools] at hmem
  have hhash : HashApart restHash collidingTools := by
    intro x y hx _ hlx
    have hsub := hx.1
    rw [hentries] at hsub
    obtain rfl : x = ⟨ofString "fs", ofString "read"⟩ := by simpa using hsub
    exact absurd hlx (by decide +kernel)
  have hinv := hall collidingTools
  rw [hcollect] at hinv
  have hnodup := (hinv hdistinct hhash).distinct
  rw [hnames] at hnodup
  exact absurd hnodup (by decide +kernel)

end OmniRoute.NamespaceTools
