import OmniRoute.NamespaceTools.Collect

/-!
# What a list of tools declares

The conversion makes one Chat tool of every member that has a name and of every plain tool that has
one. `entries` lists what they stand for, in the order of the Chat tools (`wireNames_eq`).

**Main result (`nodup_entries`).** Where the namespaces are distinct and the members of each are,
the collected tools declare nothing twice, and no member under the name of a plain tool
(`leaf_ne_plain`).
-/

namespace OmniRoute.NamespaceTools

open List CodeUnits

variable {N : Type}

/-- A member of a namespace, or a plain tool. -/
inductive Entry
  | sub (identity : Identity)
  | plain (name : CodeUnits)
  deriving DecidableEq

def Entry.wireName (hash : NameHash) : Entry → CodeUnits
  | .sub identity => flattenNamespaceToolName hash identity.nsName identity.name
  | .plain name => name

def ResponsesTool.entries : ResponsesTool N → List Entry
  | .namespaceTool nsName tools => (namedMembers tools).map fun sub => .sub ⟨nsName, sub.name⟩
  | .function tool => if trim tool.name = [] then [] else [.plain tool.name]
  | .chat _ functionName _ => [.plain functionName]

def entries (tools : List (ResponsesTool N)) : List Entry := tools.flatMap ResponsesTool.entries

/-- The Chat names, in order. -/
def wireNames (hash : NameHash) (tools : List (ResponsesTool N)) : List CodeUnits :=
  (convertTools hash tools).map ChatTool.wireName

theorem wireNames_convertTool (hash : NameHash) (tool : ResponsesTool N) :
    (convertTool hash tool).map ChatTool.wireName = tool.entries.map (Entry.wireName hash) := by
  cases tool with
  | namespaceTool nsName tools =>
    simp only [convertTool, ResponsesTool.entries, map_map]
    rfl
  | function tool =>
    simp only [convertTool, ResponsesTool.entries]
    split
    · rfl
    · rfl
  | chat name functionName value => rfl

theorem wireNames_eq (hash : NameHash) (tools : List (ResponsesTool N)) :
    wireNames hash tools = (entries tools).map (Entry.wireName hash) := by
  unfold wireNames convertTools entries
  rw [map_flatMap, map_flatMap]
  congr 1
  funext tool
  exact wireNames_convertTool hash tool

/-! ## Well-named lists -/

/-- Namespaces are distinct, and the members of each; a tool in the Chat format has one name. -/
structure DistinctTools (tools : List (ResponsesTool N)) : Prop where
  namespaces : tools.Pairwise fun t u =>
    ∀ a as b bs, t = .namespaceTool a as → u = .namespaceTool b bs → a ≠ b
  leaves : ∀ nsName members, .namespaceTool nsName members ∈ tools →
    ((namedMembers members).map Member.name).Nodup
  chat : ∀ name functionName value, .chat name functionName value ∈ tools →
    trimmedName name functionName = trim functionName ∧ trim functionName ≠ []

/-! ## What merging keeps -/

/-- What the merged list is at any time of the loop. -/
structure Merged (explicit : List CodeUnits) (merged : List (ResponsesTool N)) : Prop where
  /-- No two plain tools have one name. -/
  plain : merged.Pairwise fun t u => t.isNamespace = false → u.isNamespace = false →
    t.toolName ≠ [] → t.toolName ≠ u.toolName
  /-- The plain names are known. -/
  known : ∀ t ∈ merged, t.isNamespace = false → t.toolName ≠ [] → t.toolName ∈ explicit
  /-- No member has the name of a plain tool. -/
  members : ∀ nsName members, .namespaceTool nsName (some members) ∈ merged →
    ∀ m ∈ members, m.toolName ∉ explicit

theorem Merged.nil (explicit : List CodeUnits) : Merged explicit ([] : List (ResponsesTool N)) :=
  ⟨List.Pairwise.nil, by simp, by simp⟩

theorem keepFirst_subset {seenNames : List CodeUnits} {tools : List (Member N)} {m : Member N}
    (h : m ∈ keepFirst seenNames tools) : m ∈ tools := by
  induction tools generalizing seenNames with
  | nil => cases h
  | cons tool tools ih =>
    simp only [keepFirst] at h
    split at h
    · exact mem_cons_of_mem _ (ih h)
    · rcases mem_cons.1 h with rfl | h
      · exact mem_cons_self
      · exact mem_cons_of_mem _ (ih h)

/-- What a tool is called outside. -/
def ResponsesTool.label (tool : ResponsesTool N) : Bool × CodeUnits :=
  (tool.isNamespace, tool.toolName)

theorem label_extendNamespace (namespaceName : CodeUnits) (members : Option (List (Member N)))
    (merged : List (ResponsesTool N)) :
    (extendNamespace namespaceName members merged).map ResponsesTool.label =
      merged.map ResponsesTool.label := by
  induction merged with
  | nil => rfl
  | cons tool rest ih =>
    cases tool with
    | namespaceTool name tools =>
      simp only [extendNamespace]
      split
      · rfl
      · simp only [map_cons, ih]
    | _ => simp only [extendNamespace, map_cons, ih]

variable {merged : List (ResponsesTool N)}

/-- The members of an extended namespace come from the old list or from the new members. -/
theorem mem_extendNamespace {namespaceName nsName : CodeUnits} {members : Option (List (Member N))}
    {all : List (Member N)} {m : Member N}
    (h : .namespaceTool nsName (some all) ∈ extendNamespace namespaceName members merged)
    (hm : m ∈ all) :
    m ∈ members.getD [] ∨ ∃ old, .namespaceTool nsName (some old) ∈ merged ∧ m ∈ old := by
  induction merged with
  | nil => cases h
  | cons tool rest ih =>
    have hrest (h : .namespaceTool nsName (some all) ∈
        extendNamespace namespaceName members rest) : m ∈ members.getD [] ∨
          ∃ old, .namespaceTool nsName (some old) ∈ tool :: rest ∧ m ∈ old := by
      rcases ih h with h | ⟨old, hold, hm⟩
      · exact .inl h
      · exact .inr ⟨old, mem_cons_of_mem _ hold, hm⟩
    have hhere (h : ResponsesTool.namespaceTool nsName (some all) = tool) : m ∈ members.getD [] ∨
        ∃ old, .namespaceTool nsName (some old) ∈ tool :: rest ∧ m ∈ old :=
      .inr ⟨all, h ▸ mem_cons_self, hm⟩
    cases tool with
    | namespaceTool name tools =>
      simp only [extendNamespace] at h
      split at h
      · rcases mem_cons.1 h with h | h
        · injection h with hname htools
          injection htools with htools
          rw [htools, mergeNamespaceTools] at hm
          rcases mem_append.1 (keepFirst_subset hm) with hm | hm
          · cases tools with
            | none => cases hm
            | some old => exact .inr ⟨old, hname ▸ mem_cons_self, hm⟩
          · exact .inl hm
        · exact .inr ⟨all, mem_cons_of_mem _ h, hm⟩
      · rcases mem_cons.1 h with h | h
        · exact hhere h
        · exact hrest h
    | _ =>
      rcases mem_cons.1 h with h | h
      · exact hhere h
      · exact hrest h

variable {explicit : List CodeUnits}

theorem Merged.extend (h : Merged explicit merged) (namespaceName : CodeUnits)
    {members : Option (List (Member N))} (hmembers : ∀ m ∈ members.getD [], m.toolName ∉ explicit) :
    Merged explicit (extendNamespace namespaceName members merged) := by
  have hlabel := label_extendNamespace namespaceName members merged
  constructor
  · have hplain : (merged.map ResponsesTool.label).Pairwise fun t u =>
        t.1 = false → u.1 = false → t.2 ≠ [] → t.2 ≠ u.2 := pairwise_map.2 h.plain
    rw [← hlabel] at hplain
    exact pairwise_map.1 hplain
  · intro t ht hns hname
    have hmem : t.label ∈ merged.map ResponsesTool.label := hlabel ▸ mem_map_of_mem ht
    obtain ⟨u, hu, hlabel⟩ := mem_map.1 hmem
    injection hlabel with h1 h2
    rw [← h2] at hname ⊢
    exact h.known u hu (h1.trans hns) hname
  · intro nsName all hall m hm
    rcases mem_extendNamespace hall hm with hm | ⟨old, hold, hm⟩
    · exact hmembers m hm
    · exact h.members nsName old hold m hm

theorem Merged.push (h : Merged explicit merged) {tool : ResponsesTool N}
    (hplain : tool.isNamespace = false → tool.toolName ≠ [] →
      tool.toolName ∈ explicit ∧
        tool.toolName ∉ (merged.filter fun t => !t.isNamespace).map ResponsesTool.toolName)
    (hmembers : ∀ nsName members, tool = .namespaceTool nsName (some members) →
      ∀ m ∈ members, m.toolName ∉ explicit) : Merged explicit (merged ++ [tool]) := by
  constructor
  · refine pairwise_append.2 ⟨h.plain, pairwise_singleton _ _, fun t ht u hu => ?_⟩
    rw [mem_singleton.1 hu]
    intro hnt hnu hname heq
    rw [heq] at hname
    apply (hplain hnu hname).2
    rw [← heq]
    exact mem_map_of_mem (mem_filter.2 ⟨ht, by simp [hnt]⟩)
  · intro t ht hns hname
    rcases mem_append.1 ht with ht | ht
    · exact h.known t ht hns hname
    · rw [mem_singleton] at ht
      subst ht
      exact (hplain hns hname).1
  · intro nsName members hmem
    rcases mem_append.1 hmem with hmem | hmem
    · exact h.members nsName members hmem
    · exact hmembers nsName members (mem_singleton.1 hmem).symm

theorem Merged.mergeTools {sources : List (ResponsesTool N)}
    (hsources : ∀ t ∈ sources, t.isNamespace = false → t.toolName ≠ [] → t.toolName ∈ explicit)
    (h : Merged explicit merged) : Merged explicit (mergeTools explicit sources merged) := by
  induction sources generalizing merged with
  | nil => exact h
  | cons tool rest ih =>
    have hrest : ∀ t ∈ rest, t.isNamespace = false → t.toolName ≠ [] → t.toolName ∈ explicit :=
      fun t ht => hsources t (mem_cons_of_mem _ ht)
    have hplain (hns : tool.isNamespace = false) (hnot : ¬(tool.toolName ≠ [] ∧
        tool.toolName ∈ (merged.filter fun t => !t.isNamespace).map ResponsesTool.toolName)) :
        Merged explicit (merged ++ [tool]) := by
      refine h.push (fun _ hname => ⟨hsources tool mem_cons_self hns hname, fun hmem =>
        hnot ⟨hname, hmem⟩⟩) ?_
      rintro nsName members rfl
      cases hns
    cases tool with
    | namespaceTool name tools =>
      have hfiltered : ∀ members, (tools.map fun members =>
          members.filter fun member => decide (member.toolName ∉ explicit)) = some members →
            ∀ m ∈ members, m.toolName ∉ explicit := by
        intro members hmembers m hm
        obtain ⟨all, -, rfl⟩ := Option.map_eq_some_iff.1 hmembers
        exact of_decide_eq_true (mem_filter.1 hm).2
      simp only [NamespaceTools.mergeTools]
      split
      · apply ih hrest
        apply h.extend
        intro m hm
        cases htools : tools.map fun members =>
            members.filter fun member => decide (member.toolName ∉ explicit) with
        | none =>
          rw [htools] at hm
          cases hm
        | some members =>
          rw [htools] at hm
          exact hfiltered members htools m hm
      · refine ih hrest (h.push (fun hns => nomatch hns) ?_)
        intro nsName members htool
        injection htool with _ htool
        exact hfiltered members htool
    | _ =>
      simp only [NamespaceTools.mergeTools]
      split
      · exact ih hrest h
      · next hnot => exact ih hrest (hplain rfl hnot)

variable {tools : List (ResponsesTool N)} {t : ResponsesTool N}

theorem mem_explicitNames (ht : t ∈ tools) (hns : t.isNamespace = false) (hname : t.toolName ≠ []) :
    t.toolName ∈ explicitNames tools := by
  refine mem_filter.2 ⟨mem_map.2 ⟨t, ht, ?_⟩, by simpa using hname⟩
  rw [hns]
  rfl

theorem merged_collectResponsesTools (rootTools : List (ResponsesTool N))
    (additional : List (List (ResponsesTool N))) :
    Merged (explicitNames (rootTools ++ additional.flatten))
      (collectResponsesTools rootTools additional) :=
  Merged.mergeTools (fun _ ht hns hname => mem_explicitNames ht hns hname) (Merged.nil _)

/-! ## The entries of collected tools -/

theorem trimmedName_of_name {name functionName : CodeUnits} (h : trim name ≠ []) :
    trimmedName name functionName = trim name := if_pos h

/-- A plain tool is listed under its trimmed name. -/
theorem toolName_of_plain (htools : DistinctTools tools) (ht : t ∈ tools) {name : CodeUnits}
    (hmem : .plain name ∈ t.entries) :
    t.isNamespace = false ∧ t.toolName = trim name ∧ trim name ≠ [] := by
  cases t with
  | namespaceTool nsName members => simp [ResponsesTool.entries] at hmem
  | function tool =>
    simp only [ResponsesTool.entries] at hmem
    split at hmem
    · cases hmem
    · next hname =>
      injection mem_singleton.1 hmem with heq
      subst heq
      exact ⟨rfl, trimmedName_of_name hname, hname⟩
  | chat cname functionName value =>
    injection mem_singleton.1 hmem with heq
    subst heq
    exact ⟨rfl, htools.chat cname name value ht⟩

theorem mem_entries_sub {identity : Identity} (hmem : .sub identity ∈ t.entries) :
    ∃ members m, t = .namespaceTool identity.nsName (some members) ∧ m ∈ members ∧
      m.name = identity.name ∧ identity.name ≠ [] := by
  cases t with
  | namespaceTool nsName tools =>
    obtain ⟨m, hm, heq⟩ := mem_map.1 hmem
    injection heq with heq
    subst heq
    obtain ⟨hm, hname⟩ := mem_filter.1 hm
    cases tools with
    | none => cases hm
    | some members => exact ⟨members, m, rfl, hm, rfl, of_decide_eq_true hname⟩
  | function tool =>
    simp only [ResponsesTool.entries] at hmem
    split at hmem <;> simp at hmem
  | chat name functionName value => simp [ResponsesTool.entries] at hmem

theorem nodup_entries_tool (htools : DistinctTools tools) (ht : t ∈ tools) : t.entries.Nodup := by
  cases t with
  | namespaceTool nsName members =>
    have hleaves := htools.leaves nsName members ht
    have hmap : (ResponsesTool.namespaceTool nsName members).entries =
        ((namedMembers members).map Member.name).map fun name => .sub ⟨nsName, name⟩ := by
      rw [map_map]
      rfl
    rw [hmap]
    exact hleaves.map fun a b h => by injection h with h; injection h
  | function tool =>
    simp only [ResponsesTool.entries]
    split
    · exact nodup_nil
    · exact nodup_singleton _
  | chat name functionName value => exact nodup_singleton _

/-- **Nothing is declared twice.** -/
theorem nodup_entries (hmerged : Merged explicit tools) (htools : DistinctTools tools) :
    (entries tools).Nodup := by
  refine nodup_flatMap.2 ⟨fun t ht => nodup_entries_tool htools ht, ?_⟩
  have hboth := hmerged.plain.and htools.namespaces
  refine hboth.imp_of_mem fun {t u} ht hu h => ?_
  intro e he he'
  cases e with
  | sub identity =>
    obtain ⟨_, _, rfl, _⟩ := mem_entries_sub he
    obtain ⟨_, _, rfl, _⟩ := mem_entries_sub he'
    exact h.2 _ _ _ _ rfl rfl rfl
  | plain name =>
    obtain ⟨hnt, htname, hname⟩ := toolName_of_plain htools ht he
    obtain ⟨hnu, huname, -⟩ := toolName_of_plain htools hu he'
    exact h.1 hnt hnu (htname ▸ hname) (htname.trans huname.symm)

/-- **No member has the name of a plain tool.** -/
theorem leaf_ne_plain (hmerged : Merged explicit tools) (htools : DistinctTools tools)
    {identity : Identity} {name : CodeUnits} (hsub : .sub identity ∈ entries tools)
    (hplain : .plain name ∈ entries tools) : identity.name ≠ name := by
  rintro rfl
  obtain ⟨t, ht, hsub⟩ := mem_flatMap.1 hsub
  obtain ⟨u, hu, hplain⟩ := mem_flatMap.1 hplain
  obtain ⟨members, m, rfl, hm, hmname, -⟩ := mem_entries_sub hsub
  obtain ⟨hns, huname, hname⟩ := toolName_of_plain htools hu hplain
  have hknown := hmerged.known u hu hns (huname ▸ hname)
  apply hmerged.members _ members ht m hm
  rw [Member.toolName, hmname, trimmedName_of_name hname, ← huname]
  exact hknown

end OmniRoute.NamespaceTools
