import OmniRoute.Lib.JsData

/-!
# Local references of a schema

`resolveLocalReference` and `inlineLocalSchemaRefs` of `open-sse/translator/helpers/geminiHelper.ts`:
a reference to a definition of the schema is replaced by the definition, with the keywords beside
the reference written over it, and a reference to a definition that is being inlined is dropped.

The recursion takes fuel. The definition is inlined with its reference active, so a reference
is followed once along a path; the merged record is walked again, but what comes from the
definition has no references left.

**Main result (`inlining_completes`).** With enough fuel the result is there, always the same,
and it has no local reference.
-/

namespace OmniRoute.SchemaRefs

open List JsData

variable {N : Type}

/-! ## The code -/

def toRecord : JsData N → JsRecord N
  | .obj fields => fields
  | _ => []

/-- Replace every `a` followed by `b`, from the left. -/
def replacePair (a b c : UInt16) : CodeUnits → CodeUnits
  | x :: y :: s =>
    if x = a ∧ y = b then c :: replacePair a b c s else x :: replacePair a b c (y :: s)
  | s => s

/-- `~1` is a slash, and then `~0` a tilde. -/
def decodeJsonPointerSegment (segment : CodeUnits) : CodeUnits :=
  replacePair 126 48 126 (replacePair 126 49 47 segment)

/-- `none` when there is no such place. A name that a record inherits leads to a function or to
a prototype without fields, and the caller does with these as with nothing. -/
def resolveLocalReference (root : JsData N) (ref : CodeUnits) : Option (JsData N) :=
  if CodeUnits.ofString "#/" <+: ref then
    let segments := (((ref.drop 2).splitOn 47).filter (· ≠ [])).map decodeJsonPointerSegment
    segments.foldlM (fun current segment => (toRecord current).lookup segment) root
  else
    none

/-- The reference of a record, empty when it is not a string. -/
def refOf (record : JsRecord N) : CodeUnits := (text? (get record "$ref")).getD []

def isLocal (ref : CodeUnits) : Bool :=
  (CodeUnits.ofString "#/$defs/").isPrefixOf ref || (CodeUnits.ofString "#/definitions/").isPrefixOf ref

def isObject : JsData N → Bool
  | .arr _ | .obj _ => true
  | _ => false

/-- `{...a, ...b}` -/
def spread (a b : JsRecord N) : JsRecord N := b.foldl (fun r p => setField p.1 p.2 r) a

/-- The record without its reference. -/
def withoutRef (record : JsRecord N) : JsRecord N :=
  record.filter (·.1 ≠ CodeUnits.ofString "$ref")

/-- `none` when the fuel runs out. A nested call gives the set of active references back as it
got it, so it is passed by value. -/
def inlineLocalSchemaRefs (root : JsData N) : ℕ → JsData N → List CodeUnits → Option (JsData N)
  | 0, _, _ => none
  | fuel + 1, .arr items, activeRefs =>
    (items.mapM fun item => inlineLocalSchemaRefs root fuel item activeRefs).map .arr
  | fuel + 1, .obj record, activeRefs =>
    let ref := refOf record
    if isLocal ref then
      let rest := withoutRef record
      match if ref ∈ activeRefs then none else (resolveLocalReference root ref).filter isObject with
      | none => inlineLocalSchemaRefs root fuel (.obj rest) activeRefs
      | some resolved =>
        (inlineLocalSchemaRefs root fuel resolved (ref :: activeRefs)).bind fun target =>
          inlineLocalSchemaRefs root fuel (.obj (spread (toRecord target) rest)) activeRefs
    else
      (record.mapM fun p =>
        (inlineLocalSchemaRefs root fuel p.2 activeRefs).map fun value => (p.1, value)).map .obj
  | _ + 1, node, _ => some node

/-! ## The references of a schema -/

mutual

/-- The string-valued `$ref`s of the records in a value. -/
def refs : JsData N → List CodeUnits
  | .arr items => itemRefs items
  | .obj fields => (text? (get fields "$ref")).toList ++ fieldRefs fields
  | _ => []

def itemRefs : List (JsData N) → List CodeUnits
  | [] => []
  | item :: items => refs item ++ itemRefs items

def fieldRefs : List (CodeUnits × JsData N) → List CodeUnits
  | [] => []
  | (_, value) :: fields => refs value ++ fieldRefs fields

end

/-- No reference of the value is local. -/
def RefFree (v : JsData N) : Prop := ∀ ref ∈ refs v, isLocal ref = false

theorem mem_itemRefs {ref : CodeUnits} {items : List (JsData N)} :
    ref ∈ itemRefs items ↔ ∃ item ∈ items, ref ∈ refs item := by
  induction items with
  | nil => simp [itemRefs]
  | cons item items ih => simp [itemRefs, ih]

theorem mem_fieldRefs {ref : CodeUnits} {fields : JsRecord N} :
    ref ∈ fieldRefs fields ↔ ∃ p ∈ fields, ref ∈ refs p.2 := by
  induction fields with
  | nil => simp [fieldRefs]
  | cons p fields ih => simp only [fieldRefs, mem_append, ih, mem_cons, exists_eq_or_imp]

theorem mem_refs_obj {ref : CodeUnits} {fields : JsRecord N} :
    ref ∈ refs (.obj fields) ↔ get fields "$ref" = some (.str ref) ∨ ∃ p ∈ fields, ref ∈ refs p.2 := by
  rw [refs, mem_append, mem_fieldRefs, Option.mem_toList, text?_eq_some]

theorem mem_of_lookup {key : CodeUnits} {v : JsData N} {fields : JsRecord N}
    (h : fields.lookup key = some v) : (key, v) ∈ fields := by
  obtain ⟨l₁, l₂, rfl, -⟩ := lookup_eq_some_iff.1 h
  exact mem_append_right l₁ mem_cons_self

theorem refs_value {p : CodeUnits × JsData N} {fields : JsRecord N} (hp : p ∈ fields) :
    refs p.2 ⊆ refs (.obj fields) :=
  fun _ href => mem_refs_obj.2 (Or.inr ⟨p, hp, href⟩)

/-- What a reference leads to has no other references than the schema. -/
theorem refs_resolve {root v : JsData N} {ref : CodeUnits}
    (h : resolveLocalReference root ref = some v) : refs v ⊆ refs root := by
  rw [resolveLocalReference] at h
  split at h
  · dsimp only at h
    generalize (((ref.drop 2).splitOn 47).filter _).map _ = segments at h
    induction segments generalizing root with
    | nil =>
      cases h
      exact Subset.refl _
    | cons segment segments ih =>
      rw [foldlM_cons] at h
      obtain ⟨w, hw, hv⟩ := Option.bind_eq_some_iff.1 h
      cases root with
      | obj fields => exact fun r hr => refs_value (mem_of_lookup hw) (ih hv hr)
      | _ => cases hw
  · cases h

/-! ## Enough fuel -/

/-- With enough fuel the node is inlined to `result`. -/
def Inlines (root node : JsData N) (activeRefs : List CodeUnits) (result : JsData N) : Prop :=
  ∃ fuel, ∀ more, fuel ≤ more → inlineLocalSchemaRefs root more node activeRefs = some result

variable {root node result : JsData N} {activeRefs : List CodeUnits}

/-- What is there one by one with enough fuel is there together. -/
theorem exists_mapM {α β : Type} {f : ℕ → α → Option β} {g : α → β} {l : List α}
    (h : ∀ a ∈ l, ∃ fuel, ∀ more, fuel ≤ more → f more a = some (g a)) :
    ∃ fuel, ∀ more, fuel ≤ more → l.mapM (f more) = some (l.map g) := by
  induction l with
  | nil => exact ⟨0, fun _ _ => rfl⟩
  | cons a l ih =>
    obtain ⟨fuel, hf⟩ := h a mem_cons_self
    obtain ⟨fuel', hf'⟩ := ih fun a' ha' => h a' (mem_cons_of_mem _ ha')
    refine ⟨max fuel fuel', fun more hmore => ?_⟩
    rw [mapM_cons, hf more ((le_max_left _ _).trans hmore),
      hf' more ((le_max_right _ _).trans hmore)]
    rfl

/-- A step that needs a unit of fuel more. -/
theorem Inlines.of_step (fuel : ℕ) (h : ∀ more, fuel ≤ more →
    inlineLocalSchemaRefs root (more + 1) node activeRefs = some result) :
    Inlines root node activeRefs result := by
  refine ⟨fuel + 1, fun more hmore => ?_⟩
  obtain ⟨more, rfl⟩ := Nat.exists_eq_add_of_le' (Nat.le_of_add_left_le hmore)
  exact h more (Nat.le_of_succ_le_succ hmore)

/-- The node is inlined to something without local references. -/
def Settles (root node : JsData N) (activeRefs : List CodeUnits) : Prop :=
  ∃ result, RefFree result ∧ Inlines root node activeRefs result

theorem settles_arr {items : List (JsData N)} (h : ∀ v ∈ items, Settles root v activeRefs) :
    Settles root (.arr items) activeRefs := by
  have : Nonempty (JsData N) := ⟨.null⟩
  choose! g hfree hg using h
  obtain ⟨fuel, hf⟩ := exists_mapM hg
  refine ⟨.arr (items.map g), fun ref href => ?_, .of_step fuel fun more hmore => ?_⟩
  · obtain ⟨v, hv, href⟩ := mem_itemRefs.1 href
    obtain ⟨item, hitem, rfl⟩ := mem_map.1 hv
    exact hfree item hitem ref href
  · rw [inlineLocalSchemaRefs, hf more hmore]
    rfl

theorem lookup_map (key : CodeUnits) (g : CodeUnits × JsData N → JsData N) (fields : JsRecord N) :
    (fields.map fun p => (p.1, g p)).lookup key =
      (fields.lookup key).map fun v => g (key, v) := by
  induction fields with
  | nil => rfl
  | cons p fields ih =>
    obtain ⟨key', v⟩ := p
    rw [map_cons, lookup_cons_ite, lookup_cons_ite, ih]
    split
    · next heq => exact heq ▸ rfl
    · rfl

/-- A record stays a record. -/
theorem inline_obj {fuel : ℕ} {record : JsRecord N}
    (h : inlineLocalSchemaRefs root fuel (.obj record) activeRefs = some result) :
    ∃ record', result = .obj record' := by
  induction fuel generalizing record with
  | zero => cases h
  | succ fuel ih =>
    rw [inlineLocalSchemaRefs] at h
    dsimp only at h
    split at h
    · split at h
      · exact ih h
      · obtain ⟨target, -, h⟩ := Option.bind_eq_some_iff.1 h
        exact ih h
    · obtain ⟨record', -, rfl⟩ := Option.map_eq_some_iff.1 h
      exact ⟨record', rfl⟩

theorem Inlines.of_str {ref : CodeUnits} (h : Inlines root node activeRefs (.str ref)) :
    node = .str ref := by
  obtain ⟨fuel, hf⟩ := h
  have h := hf (fuel + 1) (Nat.le_succ _)
  cases node with
  | obj record =>
    obtain ⟨record', hrecord⟩ := inline_obj h
    cases hrecord
  | arr items =>
    rw [inlineLocalSchemaRefs] at h
    obtain ⟨items', -, hitems⟩ := Option.map_eq_some_iff.1 h
    cases hitems
  | _ => exact Option.some.inj h

theorem refOf_eq {record : JsRecord N} {ref : CodeUnits} (h : get record "$ref" = some (.str ref)) :
    refOf record = ref := by
  rw [refOf, h]
  rfl

theorem settles_obj {record : JsRecord N} (hlocal : isLocal (refOf record) = false)
    (h : ∀ p ∈ record, Settles root p.2 activeRefs) : Settles root (.obj record) activeRefs := by
  have : Nonempty (JsData N) := ⟨.null⟩
  choose! g hfree hg using h
  have hg' : ∀ p ∈ record, ∃ fuel, ∀ more, fuel ≤ more →
      ((inlineLocalSchemaRefs root more p.2 activeRefs).map fun value => (p.1, value)) =
        some (p.1, g p) := by
    intro p hp
    obtain ⟨fuel, hf⟩ := hg p hp
    exact ⟨fuel, fun more hmore => by rw [hf more hmore]; rfl⟩
  obtain ⟨fuel, hf⟩ := exists_mapM hg'
  refine ⟨.obj (record.map fun p => (p.1, g p)), fun ref href => ?_, .of_step fuel fun more hmore => ?_⟩
  · rcases mem_refs_obj.1 href with href | ⟨p, hp, href⟩
    · -- the value of the reference is a string, so it is the one the record had
      rw [JsData.get, lookup_map] at href
      obtain ⟨v, hv, hstr⟩ := Option.map_eq_some_iff.1 href
      have hinl := hg _ (mem_of_lookup hv)
      rw [hstr] at hinl
      have hv' : get record "$ref" = some (.str ref) := hinl.of_str ▸ hv
      exact refOf_eq hv' ▸ hlocal
    · obtain ⟨p', hp', rfl⟩ := mem_map.1 hp
      exact hfree p' hp' ref href
  · rw [inlineLocalSchemaRefs, hlocal]
    dsimp only
    rw [if_neg Bool.false_ne_true, hf more hmore]
    rfl

theorem mem_refs_of_isLocal {record : JsRecord N} (h : isLocal (refOf record) = true) :
    refOf record ∈ refs (.obj record) := by
  cases hget : text? (get record "$ref") with
  | none =>
    rw [refOf, hget] at h
    cases h
  | some ref =>
    have hget := text?_eq_some.1 hget
    exact (refOf_eq hget).symm ▸ mem_refs_obj.2 (Or.inl hget)

theorem isLocal_refOf_of_refFree {record : JsRecord N} (h : RefFree (.obj record)) :
    isLocal (refOf record) = false := by
  by_contra htrue
  exact htrue (h _ (mem_refs_of_isLocal (Bool.eq_true_of_not_eq_false htrue)))

/-! ## The walk -/

theorem sizeOf_item {v : JsData N} {items : List (JsData N)} (hv : v ∈ items) :
    sizeOf v < sizeOf (JsData.arr items) := by
  have := sizeOf_lt_of_mem hv
  simp
  omega

theorem sizeOf_value {p : CodeUnits × JsData N} {record : JsRecord N} (hp : p ∈ record) :
    sizeOf p.2 < sizeOf (JsData.obj record) := by
  have := sizeOf_lt_of_mem hp
  obtain ⟨key, v⟩ := p
  simp at this ⊢
  omega

/-- A node with references of a kind is settled if a record with a local one is. -/
theorem settles_of_records {S : CodeUnits → Prop}
    (hlocal : ∀ record, isLocal (refOf record) = true → (∀ ref ∈ refs (.obj record), S ref) →
      (∀ p ∈ record, Settles root p.2 activeRefs) → Settles root (.obj record) activeRefs)
    (hnode : ∀ ref ∈ refs node, S ref) : Settles root node activeRefs := by
  induction hn : sizeOf node using Nat.strong_induction_on generalizing node with
  | _ n ih =>
    cases node with
    | arr items =>
      refine settles_arr fun v hv => ih _ (hn ▸ sizeOf_item hv) (fun ref href => hnode ref ?_) rfl
      exact mem_itemRefs.2 ⟨v, hv, href⟩
    | obj record =>
      have hvalues : ∀ p ∈ record, Settles root p.2 activeRefs := fun p hp =>
        ih _ (hn ▸ sizeOf_value hp) (fun ref href => hnode ref (refs_value hp href)) rfl
      cases h : isLocal (refOf record) with
      | false => exact settles_obj h hvalues
      | true => exact hlocal record h hnode hvalues
    | _ => exact ⟨_, fun ref href => absurd href not_mem_nil, .of_step 0 fun _ _ => rfl⟩

/-- A value without local references is settled. -/
theorem settles_of_refFree (h : RefFree node) : Settles root node activeRefs :=
  settles_of_records (fun _ htrue hfree _ =>
    absurd htrue (Bool.eq_false_iff.1 (isLocal_refOf_of_refFree hfree))) h

theorem mem_setField {key : CodeUnits} {v : JsData N} {r : JsRecord N} {p : CodeUnits × JsData N}
    (h : p ∈ setField key v r) : p ∈ r ∨ p = (key, v) := by
  induction r with
  | nil => exact Or.inr (mem_singleton.1 h)
  | cons q r ih =>
    rw [setField] at h
    split at h
    · exact (mem_cons.1 h).symm.imp (mem_cons_of_mem _) id
    · rcases mem_cons.1 h with rfl | h
      · exact Or.inl mem_cons_self
      · exact (ih h).imp (mem_cons_of_mem _) id

theorem mem_spread {a b : JsRecord N} {p : CodeUnits × JsData N} (h : p ∈ spread a b) :
    p ∈ a ∨ p ∈ b := by
  induction b generalizing a with
  | nil => exact Or.inl h
  | cons q b ih =>
    rcases ih h with h | h
    · rcases mem_setField h with h | rfl
      · exact Or.inl h
      · exact Or.inr mem_cons_self
    · exact Or.inr (mem_cons_of_mem _ h)

theorem lookup_spread {a b : JsRecord N} {key : CodeUnits} (h : ∀ p ∈ b, p.1 ≠ key) :
    (spread a b).lookup key = a.lookup key := by
  induction b generalizing a with
  | nil => rfl
  | cons q b ih =>
    rw [spread, foldl_cons]
    refine (ih fun p hp => h p (mem_cons_of_mem _ hp)).trans ?_
    rw [lookup_setField, if_neg (h q mem_cons_self).symm]

theorem refOf_withoutRef (record : JsRecord N) : refOf (withoutRef record) = [] := by
  have hnone : get (withoutRef record) "$ref" = none := by
    cases hget : get (withoutRef record) "$ref" with
    | none => rfl
    | some v => simpa using (mem_filter.1 (mem_of_lookup hget)).2
  rw [refOf, hnone]
  rfl

/-- What a definition without local references and the keywords beside a reference make is
settled. -/
theorem settles_merged {target : JsData N} {rest : JsRecord N} (htarget : RefFree target)
    (hrest : ∀ p ∈ rest, p.1 ≠ CodeUnits.ofString "$ref" ∧ Settles root p.2 activeRefs) :
    Settles root (.obj (spread (toRecord target) rest)) activeRefs := by
  have hfree : RefFree (.obj (toRecord target)) := by
    cases target with
    | obj fields => exact htarget
    | _ =>
      intro ref href
      rcases mem_refs_obj.1 href with h | ⟨p, hp, -⟩
      · cases h
      · cases hp
  refine settles_obj ?_ fun p hp => ?_
  · have hget : refOf (spread (toRecord target) rest) = refOf (toRecord target) := by
      rw [refOf, JsData.get, lookup_spread fun p hp => (hrest p hp).1]
      rfl
    exact hget ▸ isLocal_refOf_of_refFree hfree
  · rcases mem_spread hp with hp | hp
    · exact settles_of_refFree fun ref href => hfree ref (refs_value hp href)
    · exact (hrest p hp).2

/-- A reference that becomes active leaves fewer. -/
theorem card_active {known : Finset CodeUnits} {ref : CodeUnits} (hknown : ref ∈ known)
    (hactive : ref ∉ activeRefs) :
    (known.filter (· ∉ ref :: activeRefs)).card < (known.filter (· ∉ activeRefs)).card := by
  refine Finset.card_lt_card (Finset.ssubset_iff_subset_ne.2 ⟨fun x hx => ?_, fun heq => ?_⟩)
  · simp only [Finset.mem_filter, mem_cons, not_or] at hx ⊢
    exact ⟨hx.1, hx.2.2⟩
  · have hmem := (Finset.mem_filter (p := (· ∉ activeRefs))).2 ⟨hknown, hactive⟩
    rw [← heq] at hmem
    exact (Finset.mem_filter.1 hmem).2 mem_cons_self

/-- The induction is on the number of references that are not active. -/
theorem settles {known : Finset CodeUnits} (hroot : ∀ ref ∈ refs root, ref ∈ known)
    (hnode : ∀ ref ∈ refs node, ref ∈ known) : Settles root node activeRefs := by
  induction hn : (known.filter (· ∉ activeRefs)).card using Nat.strong_induction_on
    generalizing node activeRefs with
  | _ n ih =>
    refine settles_of_records (fun record hlocal hrecord hvalues => ?_) hnode
    have hrest : ∀ p ∈ withoutRef record,
        p.1 ≠ CodeUnits.ofString "$ref" ∧ Settles root p.2 activeRefs := by
      intro p hp
      obtain ⟨hp, hkey⟩ := mem_filter.1 hp
      exact ⟨by simpa using hkey, hvalues p hp⟩
    cases hres : if refOf record ∈ activeRefs then none else
        (resolveLocalReference root (refOf record)).filter isObject with
    | none =>
      obtain ⟨result, hfree, fuel, hf⟩ : Settles root (.obj (withoutRef record)) activeRefs :=
        settles_obj (by rw [refOf_withoutRef]; decide) fun p hp => (hrest p hp).2
      refine ⟨result, hfree, .of_step fuel fun more hmore => ?_⟩
      rw [inlineLocalSchemaRefs]
      dsimp only
      rw [if_pos hlocal, hres]
      exact hf more hmore
    | some resolved =>
      split at hres
      · cases hres
      · next hactive =>
        obtain ⟨hresolved, -⟩ := Option.filter_eq_some_iff.1 hres
        have hless : (known.filter (· ∉ refOf record :: activeRefs)).card < n :=
          hn ▸ card_active (hrecord _ (mem_refs_of_isLocal hlocal)) hactive
        obtain ⟨target, htarget, fuel, hf⟩ :=
          ih _ hless (fun ref href => hroot ref (refs_resolve hresolved href)) rfl
        obtain ⟨result, hfree, fuel', hf'⟩ := settles_merged htarget hrest
        refine ⟨result, hfree, .of_step (max fuel fuel') fun more hmore => ?_⟩
        rw [inlineLocalSchemaRefs]
        dsimp only
        rw [if_pos hlocal, if_neg hactive, hres]
        dsimp only
        rw [hf more ((le_max_left _ _).trans hmore)]
        exact hf' more ((le_max_right _ _).trans hmore)

theorem settles_node (root node : JsData N) (activeRefs : List CodeUnits) :
    Settles root node activeRefs :=
  settles (fun ref href => show ref ∈ (refs root ++ refs node).toFinset by simp [href])
    fun ref href => by simp [href]

/-- Inlining the local references of a node of a schema ends, and leaves none. -/
theorem inlining_completes (root node : JsData N) (activeRefs : List CodeUnits) :
    ∃ fuel result, (∀ more, fuel ≤ more →
      inlineLocalSchemaRefs root more node activeRefs = some result) ∧ RefFree result := by
  obtain ⟨result, hfree, fuel, hf⟩ := settles_node root node activeRefs
  exact ⟨fuel, result, hf, hfree⟩

/-! ## Inlining again -/

/-- A value without local references is inlined to itself. -/
theorem inlines_self (h : RefFree node) : Inlines root node activeRefs node := by
  induction hn : sizeOf node using Nat.strong_induction_on generalizing node with
  | _ n ih =>
    cases node with
    | arr items =>
      have hitems : ∀ v ∈ items, Inlines root v activeRefs v := fun v hv =>
        ih _ (hn ▸ sizeOf_item hv) (fun ref href => h ref (mem_itemRefs.2 ⟨v, hv, href⟩)) rfl
      obtain ⟨fuel, hf⟩ := exists_mapM (g := id) hitems
      refine .of_step fuel fun more hmore => ?_
      rw [inlineLocalSchemaRefs, hf more hmore, map_id]
      rfl
    | obj record =>
      have hvalues : ∀ p ∈ record, ∃ fuel, ∀ more, fuel ≤ more →
          ((inlineLocalSchemaRefs root more p.2 activeRefs).map fun value => (p.1, value)) =
            some p := by
        intro p hp
        obtain ⟨fuel, hf⟩ :=
          ih _ (hn ▸ sizeOf_value hp) (fun ref href => h ref (refs_value hp href)) rfl
        exact ⟨fuel, fun more hmore => by rw [hf more hmore]; rfl⟩
      obtain ⟨fuel, hf⟩ := exists_mapM (g := id) hvalues
      refine .of_step fuel fun more hmore => ?_
      rw [inlineLocalSchemaRefs, isLocal_refOf_of_refFree h]
      dsimp only
      rw [if_neg Bool.false_ne_true, hf more hmore, map_id]
      rfl
    | _ => exact .of_step 0 fun _ _ => rfl

/-- What inlining makes of a node, another inlining leaves as it is, whatever schema it is taken
from and whatever references are active. -/
theorem inlining_idempotent (root node root' : JsData N) (activeRefs activeRefs' : List CodeUnits) :
    ∃ fuel result, ∀ more, fuel ≤ more →
      inlineLocalSchemaRefs root more node activeRefs = some result ∧
        inlineLocalSchemaRefs root' more result activeRefs' = some result := by
  obtain ⟨result, hfree, fuel, hf⟩ := settles_node root node activeRefs
  obtain ⟨fuel', hf'⟩ : Inlines root' result activeRefs' result := inlines_self hfree
  exact ⟨max fuel fuel', result, fun more hmore =>
    ⟨hf more ((le_max_left _ _).trans hmore), hf' more ((le_max_right _ _).trans hmore)⟩⟩

end OmniRoute.SchemaRefs
