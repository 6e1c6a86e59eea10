import OmniRoute.ToolPairing.Repair

/-!
# Ids that keep calls and results together

`ensureToolCallIds` gives new ids to calls, and hands them to the tool messages of the turn by
position. Clients pair by id. Here the two are compared, turn by turn: a turn is an assistant
message with the tool messages up to the next one, and on its ids the pass does what `relink` says
(`turns_ensureToolCallIds`).

**Main result (`pairingKept_iff`).** With generated ids that are fresh, a conversation keeps its
pairing exactly when the positions happen to agree with the ids (`Relinkable`): when all ids are
new, every result that has an id stands where its call does; otherwise no two calls and no two
results of a turn have one id, and no result without id stands where an answered call does.
-/

namespace OmniRoute.ToolPairing

open List Option

variable {N : Type}

/-- An id that is given and not blank. -/
def explicitId (id : Option String) : Option String := id.filter fun s => !isBlank s

theorem explicitId_eq_some {id : Option String} {s : String} :
    explicitId id = some s ↔ id = some s ∧ isBlank s = false := by
  simp [explicitId, filter_eq_some_iff]

theorem explicitId_of_missing {id : Option String} (h : missingId id = true) :
    explicitId id = none := by
  cases id with
  | none => rfl
  | some s => simpa [explicitId, missingId] using h

theorem explicitId_of_given {id : Option String} (h : missingId id = false) :
    explicitId id = some (id.getD "") := by
  obtain ⟨s, rfl, hs, -⟩ := missingId_eq_false h
  exact explicitId_eq_some.2 ⟨rfl, hs⟩

/-! ## Turns -/

/-- The ids of an assistant message's calls and of the tool messages up to the next one. -/
structure Turn where
  calls : List (Option String)
  results : List (Option String)
  deriving DecidableEq

/-- The ids of the tool messages up to the next assistant message. -/
def turnResults : List (Message N) → List (Option String)
  | [] => []
  | m :: rest =>
    if m.role = .assistant then []
    else if m.role = .tool then m.toolCallId :: turnResults rest
    else turnResults rest

def turns : List (Message N) → List Turn
  | [] => []
  | m :: rest =>
    if m.role = .assistant then ⟨m.calls.map fun tc => tc.id, turnResults rest⟩ :: turns rest
    else turns rest

/-- The id at a position, if it is given and not blank. -/
def carried (ids : List (Option String)) (i : ℕ) : Option String := ids[i]?.bind explicitId

/-- Every result is where it was: the results that had an id belong to the same call, the others
belong to a call that no other result answers, or to none. -/
structure TurnKept (before after : Turn) : Prop where
  calls : after.calls.length = before.calls.length
  results : after.results.length = before.results.length
  attached : ∀ j k x, carried before.results j = some x → carried before.calls k = some x →
    ∃ y, carried after.results j = some y ∧ carried after.calls k = some y
  filled : ∀ j y, carried before.results j = none → carried after.results j = some y →
    (∃ k, carried after.calls k = some y) ∧ ∀ j', carried after.results j' = some y → j' = j
  distinct : ∀ j j' y, carried after.results j = some y → carried after.results j' = some y →
    j = j'

/-- The ids of all calls. -/
def callIds (ts : List Turn) : List String := (ts.flatMap Turn.calls).filterMap explicitId

/-- The pairing of calls and results survives, and no two calls share an id. -/
structure PairingKept (before after : List (Message N)) : Prop where
  kept : List.Forall₂ TurnKept (turns before) (turns after)
  distinct : (callIds (turns after)).Nodup

/-- A tool message has the id of a call of its turn, or none. -/
def WellLinked (msgs : List (Message N)) : Prop :=
  ∀ t ∈ turns msgs, ∀ j x, carried t.results j = some x → ∃ k, carried t.calls k = some x

/-! ## The ids after the pass -/

/-- The id that a call keeps. -/
def keptId (use9CharId : Bool) (id : Option String) : Option String :=
  if use9CharId then none else explicitId id

def IdSource.generated (source : IdSource) (use9CharId : Bool) (n : ℕ) (used9 : List String) :
    String :=
  if use9CharId then source.nine n used9 else source.long n

/-- The ids of the calls of a message; `n` counts the calls before it. -/
def newIdsInOrder (use9CharId : Bool) (source : IdSource) :
    ℕ → List String → List (Option String) → List String
  | _, _, [] => []
  | n, used9, id :: ids =>
    let newId := (keptId use9CharId id).getD (source.generated use9CharId n used9)
    newId :: newIdsInOrder use9CharId source (n + 1) (newId :: used9) ids

/-- The ids of the results of a turn, given those of its calls. -/
def linkIds (use9CharId : Bool) : List String → List (Option String) → List (Option String)
  | [], results => results
  | _, [] => []
  | newId :: newIds, id :: results =>
    (if use9CharId || missingId id then some newId else id) :: linkIds use9CharId newIds results

/-- What the pass makes of the turns. -/
def relink (use9CharId : Bool) (source : IdSource) : ℕ → List Turn → List Turn
  | _, [] => []
  | n, t :: ts =>
    let newIds := newIdsInOrder use9CharId source n [] t.calls
    ⟨newIds.map some, linkIds use9CharId newIds t.results⟩ ::
      relink use9CharId source (n + t.calls.length) ts

section Pass

variable [JsonNumber N] [Zero N] [DecidableEq N] (use9CharId : Bool) (source : IdSource)

omit [JsonNumber N] [Zero N] [DecidableEq N] in
theorem newId_eq (n : ℕ) (used9 : List String) (tc : ToolCall N) :
    newId use9CharId source n used9 tc =
      (keptId use9CharId tc.id).getD (source.generated use9CharId n used9) := by
  cases use9CharId with
  | true => rfl
  | false =>
    show (if missingId tc.id = true then source.long n else tc.id.getD "") =
      (explicitId tc.id).getD (source.long n)
    cases hid : missingId tc.id with
    | true => rw [if_pos rfl, explicitId_of_missing hid, getD_none]
    | false => rw [if_neg Bool.false_ne_true, explicitId_of_given hid, getD_some]

theorem ensureCalls_ids (n : ℕ) (used9 : List String) (tcs : List (ToolCall N)) :
    (ensureCalls use9CharId source n used9 tcs).map Prod.snd =
        newIdsInOrder use9CharId source n used9 (tcs.map fun tc => tc.id) ∧
      ((ensureCalls use9CharId source n used9 tcs).map Prod.fst).map (fun tc => tc.id) =
        (newIdsInOrder use9CharId source n used9 (tcs.map fun tc => tc.id)).map some := by
  induction tcs generalizing n used9 with
  | nil => exact ⟨rfl, rfl⟩
  | cons tc tcs ih =>
    obtain ⟨hsnd, hfst⟩ := ih (n + 1) (newId use9CharId source n used9 tc :: used9)
    rw [newId_eq] at hsnd hfst
    rw [ensureCalls, newId_eq]
    exact ⟨congrArg (_ :: ·) hsnd, congrArg (_ :: ·) hfst⟩

omit [JsonNumber N] [Zero N] [DecidableEq N] in
/-- Handing out ids changes the results of this turn, and no other turn. -/
theorem turns_fillResponses (ids : List String) (msgs : List (Message N)) :
    turnResults (fillResponses use9CharId ids msgs) = linkIds use9CharId ids (turnResults msgs) ∧
      turns (fillResponses use9CharId ids msgs) = turns msgs := by
  induction msgs generalizing ids with
  | nil => cases ids <;> exact ⟨rfl, rfl⟩
  | cons m msgs ih =>
    by_cases hassistant : m.role = .assistant
    · have hfill : fillResponses use9CharId ids (m :: msgs) = m :: msgs := by
        rw [fillResponses.eq_def]
        exact if_pos hassistant
      rw [hfill, turnResults, if_pos hassistant]
      cases ids <;> exact ⟨rfl, rfl⟩
    · by_cases htool : m.role = .tool
      · cases ids with
        | nil =>
          have hfill : fillResponses use9CharId [] (m :: msgs) =
              m :: fillResponses use9CharId [] msgs := by
            rw [fillResponses.eq_def]
            exact (if_neg hassistant).trans (if_neg (not_not_intro htool))
          obtain ⟨hresults, hturns⟩ := ih []
          rw [hfill, turnResults, if_neg hassistant, if_pos htool, hresults, turns,
            if_neg hassistant, hturns, turnResults, if_neg hassistant, if_pos htool, turns,
            if_neg hassistant]
          exact ⟨rfl, rfl⟩
        | cons id ids =>
          have hfill : fillResponses use9CharId (id :: ids) (m :: msgs) =
              (if use9CharId || missingId m.toolCallId then { m with toolCallId := some id }
                else m) :: fillResponses use9CharId ids msgs := by
            rw [fillResponses.eq_def]
            exact (if_neg hassistant).trans (if_neg (not_not_intro htool))
          obtain ⟨hresults, hturns⟩ := ih ids
          rw [hfill, turnResults, turns, turnResults, if_neg hassistant, if_pos htool, turns,
            if_neg hassistant, hresults, hturns, linkIds]
          by_cases hfilled : (use9CharId || missingId m.toolCallId) = true
          · rw [if_pos hfilled, if_pos hfilled, if_neg hassistant, if_pos htool, if_neg hassistant]
            exact ⟨rfl, rfl⟩
          · rw [if_neg hfilled, if_neg hfilled, if_neg hassistant, if_pos htool, if_neg hassistant]
            exact ⟨rfl, rfl⟩
      · have hfill : fillResponses use9CharId ids (m :: msgs) =
            m :: fillResponses use9CharId ids msgs := by
          rw [fillResponses.eq_def]
          exact (if_neg hassistant).trans (if_pos htool)
        obtain ⟨hresults, hturns⟩ := ih ids
        rw [hfill, turnResults, turnResults, if_neg hassistant, if_neg htool, if_neg hassistant,
          if_neg htool, hresults, turns, turns, if_neg hassistant, if_neg hassistant, hturns]
        exact ⟨rfl, rfl⟩

theorem turns_ensureFrom (n : ℕ) (msgs : List (Message N)) :
    turnResults (ensureFrom use9CharId source n msgs) = turnResults msgs ∧
      turns (ensureFrom use9CharId source n msgs) =
        relink use9CharId source n (turns msgs) := by
  induction msgs generalizing n with
  | nil => exact ⟨rfl, rfl⟩
  | cons m msgs ih =>
    by_cases hassistant : m.role = .assistant
    · obtain ⟨role, content, toolCalls, toolCallId, fields⟩ := m
      obtain rfl : role = .assistant := hassistant
      cases toolCalls with
      | none =>
        obtain ⟨hresults, hturns⟩ := ih n
        refine ⟨rfl, ?_⟩
        show ⟨[], turnResults (ensureFrom use9CharId source n msgs)⟩ ::
          turns (ensureFrom use9CharId source n msgs) = ⟨[], turnResults msgs⟩ ::
            relink use9CharId source n (turns msgs)
        rw [hresults, hturns]
      | some tcs =>
        obtain ⟨hresults, hturns⟩ := ih (n + tcs.length)
        obtain ⟨hsnd, hfst⟩ := ensureCalls_ids use9CharId source n [] tcs
        obtain ⟨hfilled, hlater⟩ := turns_fillResponses use9CharId
          ((ensureCalls use9CharId source n [] tcs).map Prod.snd)
          (ensureFrom use9CharId source (n + tcs.length) msgs)
        refine ⟨rfl, ?_⟩
        show (⟨((ensureCalls use9CharId source n [] tcs).map Prod.fst).map fun tc => tc.id,
            turnResults (fillResponses use9CharId
              ((ensureCalls use9CharId source n [] tcs).map Prod.snd)
              (ensureFrom use9CharId source (n + tcs.length) msgs))⟩ :: turns _ : List Turn) =
          relink use9CharId source n (⟨tcs.map fun tc => tc.id, turnResults msgs⟩ :: turns msgs)
        rw [hfilled, hlater, hresults, hturns, hsnd, hfst, relink, length_map]
    · have hskip : ensureFrom use9CharId source n (m :: msgs) =
          m :: ensureFrom use9CharId source n msgs := by
        rw [ensureFrom]
        split
        · next hrole _ => exact absurd hrole hassistant
        · rfl
      obtain ⟨hresults, hturns⟩ := ih n
      rw [hskip, turnResults, turnResults, hresults, turns, turns, if_neg hassistant,
        if_neg hassistant, hturns, if_neg hassistant]
      exact ⟨rfl, rfl⟩

/-- **On the ids of the turns the pass is `relink`.** -/
theorem turns_ensureToolCallIds (msgs : List (Message N)) :
    turns (ensureToolCallIds use9CharId source msgs) = relink use9CharId source 0 (turns msgs) :=
  (turns_ensureFrom use9CharId source 0 msgs).2

end Pass

/-! ## The ids that are drawn -/

/-- The `n`th generated id, for some set of used ones. -/
def IsGenerated (use9CharId : Bool) (source : IdSource) (n : ℕ) (s : String) : Prop :=
  ∃ used9, s = source.generated use9CharId n used9

/-- The ids of calls from the `n`th on: those that are kept, and drawn ones for the others. -/
inductive Filled (drawn : ℕ → String → Prop) : ℕ → List (Option String) → List String → Prop
  | nil {n} : Filled drawn n [] []
  | cons {n s kept ids newIds} (hdrawn : drawn n s) (hrest : Filled drawn (n + 1) ids newIds) :
    Filled drawn n (kept :: ids) (kept.getD s :: newIds)

namespace Filled

variable {drawn : ℕ → String → Prop} {n : ℕ} {ids ids' : List (Option String)}
  {newIds newIds' : List String}

section

variable (h : Filled drawn n ids newIds)
include h

theorem length_eq : newIds.length = ids.length := by
  induction h with
  | nil => rfl
  | cons _ _ ih => rw [length_cons, length_cons, ih]

theorem append (h' : Filled drawn (n + ids.length) ids' newIds') :
    Filled drawn n (ids ++ ids') (newIds ++ newIds') := by
  induction h with
  | nil => simpa using h'
  | @cons n s kept ids newIds hdrawn _ ih =>
    rw [length_cons, Nat.add_comm ids.length, ← Nat.add_assoc] at h'
    exact .cons hdrawn (ih h')

theorem getElem {k : ℕ} {kept : Option String}
    (hk : ids[k]? = some kept) : ∃ s, drawn (n + k) s ∧ newIds[k]? = some (kept.getD s) := by
  induction h generalizing k with
  | nil => cases hk
  | @cons n s kept' ids newIds hdrawn _ ih =>
    cases k with
    | zero =>
      cases hk
      exact ⟨s, hdrawn, rfl⟩
    | succ k =>
      obtain ⟨s', hdrawn', hget⟩ := ih hk
      exact ⟨s', by rwa [Nat.add_comm k 1, ← Nat.add_assoc], hget⟩

theorem mem {x : String} (hx : x ∈ newIds) :
    some x ∈ ids ∨ ∃ m, n ≤ m ∧ m < n + ids.length ∧ drawn m x := by
  induction h with
  | nil => cases hx
  | @cons n s kept ids newIds hdrawn _ ih =>
    rcases mem_cons.1 hx with rfl | hx
    · cases kept with
      | none => exact .inr ⟨n, le_rfl, by simp, hdrawn⟩
      | some y => exact .inl mem_cons_self
    · rcases ih hx with h | ⟨m, hle, hlt, hm⟩
      · exact .inl (.tail _ h)
      · exact .inr ⟨m, by omega, by simp only [length_cons]; omega, hm⟩

theorem mem_of_kept {x : String} (hx : some x ∈ ids) : x ∈ newIds := by
  induction h with
  | nil => cases hx
  | cons _ _ ih =>
    rcases mem_cons.1 hx with rfl | hx
    · exact mem_cons_self
    · exact .tail _ (ih hx)

/-- **The ids are pairwise distinct when the ones that are kept are.** -/
theorem nodup_iff
    (hinj : ∀ m m' s, m < n + ids.length → m' < n + ids.length → drawn m s → drawn m' s → m = m')
    (hfresh : ∀ m s, m < n + ids.length → drawn m s → some s ∉ ids) :
    newIds.Nodup ↔ (ids.filterMap id).Nodup := by
  induction h with
  | nil => exact Iff.rfl
  | @cons n s kept ids newIds hdrawn hrest ih =>
    have hlen : n + (kept :: ids).length = n + 1 + ids.length := by
      rw [length_cons]
      omega
    rw [hlen] at hinj hfresh
    have ih := ih hinj fun m s' hm hs' hmem => hfresh m s' hm hs' (.tail _ hmem)
    cases kept with
    | none =>
      have hnew : s ∉ newIds := fun hmem => by
        rcases hrest.mem hmem with hkept | ⟨m, hle, hlt, hm⟩
        · exact hfresh n s (by omega) hdrawn (.tail _ hkept)
        · exact absurd (hinj n m s (by omega) hlt hdrawn hm) (by omega)
      rw [getD_none, nodup_cons, ih, filterMap_cons]
      exact ⟨fun h => h.2, fun h => ⟨hnew, h⟩⟩
    | some x =>
      have hmem : x ∈ newIds ↔ some x ∈ ids := by
        refine ⟨fun hx => (hrest.mem hx).resolve_right ?_, hrest.mem_of_kept⟩
        rintro ⟨m, -, hlt, hm⟩
        exact hfresh m x hlt hm mem_cons_self
      rw [getD_some, nodup_cons, ih, filterMap_cons, hmem]
      show _ ↔ (x :: ids.filterMap id).Nodup
      rw [nodup_cons, mem_filterMap]
      refine and_congr_left' (not_congr ⟨fun h => ⟨_, h, rfl⟩, ?_⟩)
      rintro ⟨y, hy, rfl⟩
      exact hy

end

end Filled

theorem filled_newIdsInOrder (use9CharId : Bool) (source : IdSource) (n : ℕ) (used9 : List String)
    (ids : List (Option String)) :
    Filled (IsGenerated use9CharId source) n (ids.map (keptId use9CharId))
      (newIdsInOrder use9CharId source n used9 ids) := by
  induction ids generalizing n used9 with
  | nil => exact .nil
  | cons id ids ih => exact .cons ⟨used9, rfl⟩ (ih (n + 1) _)

theorem filled_relink (use9CharId : Bool) (source : IdSource) (n : ℕ) (ts : List Turn) :
    ∃ newIds, (relink use9CharId source n ts).flatMap Turn.calls = newIds.map some ∧
      Filled (IsGenerated use9CharId source) n ((ts.flatMap Turn.calls).map (keptId use9CharId))
        newIds := by
  induction ts generalizing n with
  | nil => exact ⟨[], rfl, .nil⟩
  | cons t ts ih =>
    obtain ⟨newIds, heq, hfilled⟩ := ih (n + t.calls.length)
    refine ⟨newIdsInOrder use9CharId source n [] t.calls ++ newIds, ?_, ?_⟩
    · rw [relink, flatMap_cons, heq, map_append]
    · rw [flatMap_cons, map_append]
      refine (filled_newIdsInOrder use9CharId source n [] t.calls).append ?_
      rwa [length_map]

/-! ## One turn -/

theorem carried_of_le {ids : List (Option String)} {i : ℕ} (h : ids.length ≤ i) :
    carried ids i = none := by
  rw [carried, getElem?_eq_none h]
  rfl

theorem lt_of_carried {ids : List (Option String)} {i : ℕ} {x : String}
    (h : carried ids i = some x) : i < ids.length := by
  by_contra hle
  rw [carried_of_le (Nat.le_of_not_lt hle)] at h
  cases h

theorem carried_eq_some {ids : List (Option String)} {i : ℕ} {x : String} :
    carried ids i = some x ↔ ids[i]? = some (some x) ∧ isBlank x = false := by
  rw [carried, bind_eq_some_iff]
  constructor
  · rintro ⟨id, hget, hid⟩
    obtain ⟨rfl, hblank⟩ := explicitId_eq_some.1 hid
    exact ⟨hget, hblank⟩
  · rintro ⟨hget, hblank⟩
    exact ⟨some x, hget, explicitId_eq_some.2 ⟨rfl, hblank⟩⟩

theorem explicitId_eq_none {id : Option String} : explicitId id = none ↔ missingId id = true := by
  refine ⟨fun h => ?_, explicitId_of_missing⟩
  cases hid : missingId id with
  | true => rfl
  | false =>
    rw [explicitId_of_given hid] at h
    cases h

theorem length_linkIds (use9CharId : Bool) (newIds : List String) (results : List (Option String)) :
    (linkIds use9CharId newIds results).length = results.length := by
  induction newIds generalizing results with
  | nil => rfl
  | cons id newIds ih =>
    cases results with
    | nil => rfl
    | cons r results => rw [linkIds, length_cons, length_cons, ih]

/-- A result takes the id at its position, if there is one and it may. -/
theorem linkIds_taken {use9CharId : Bool} {newIds : List String} {results : List (Option String)}
    {j : ℕ} {s : String} (hj : j < results.length)
    (hfree : use9CharId = true ∨ carried results j = none) (hs : newIds[j]? = some s)
    (hblank : isBlank s = false) : carried (linkIds use9CharId newIds results) j = some s := by
  induction newIds generalizing results j with
  | nil => cases hs
  | cons id newIds ih =>
    cases results with
    | nil => cases hj
    | cons r results =>
      cases j with
      | zero =>
        obtain rfl : id = s := some.inj hs
        have htake : (use9CharId || missingId r) = true :=
          Bool.or_eq_true_iff.2 (hfree.imp_right explicitId_eq_none.1)
        rw [linkIds, if_pos htake]
        exact carried_eq_some.2 ⟨rfl, hblank⟩
      | succ j => exact ih (Nat.lt_of_succ_lt_succ hj) hfree hs

/-- Otherwise it keeps its own. -/
theorem linkIds_left {use9CharId : Bool} {newIds : List String} {results : List (Option String)}
    {j : ℕ} (h : use9CharId = false ∧ carried results j ≠ none ∨ newIds[j]? = none) :
    carried (linkIds use9CharId newIds results) j = carried results j := by
  induction newIds generalizing results j with
  | nil => rfl
  | cons id newIds ih =>
    cases results with
    | nil => rfl
    | cons r results =>
      cases j with
      | zero =>
        obtain ⟨hmode, hid⟩ := h.resolve_right (by simp)
        have hkeep : ¬(use9CharId || missingId r) = true := by
          rw [Bool.or_eq_true_iff]
          rintro (h9 | hmissing)
          · exact Bool.false_ne_true (hmode.symm.trans h9)
          · exact hid (explicitId_of_missing hmissing)
        rw [linkIds, if_neg hkeep]
        rfl
      | succ j => exact ih h

theorem linkIds_cases {use9CharId : Bool} {newIds : List String} {results : List (Option String)}
    (hblank : ∀ s ∈ newIds, isBlank s = false) {j : ℕ} {y : String}
    (h : carried (linkIds use9CharId newIds results) j = some y) :
    (use9CharId = true ∨ carried results j = none) ∧ newIds[j]? = some y ∨
      carried results j = some y ∧ (use9CharId = false ∨ newIds[j]? = none) := by
  have hj := lt_of_carried h
  rw [length_linkIds] at hj
  by_cases hleft : use9CharId = false ∧ carried results j ≠ none ∨ newIds[j]? = none
  · rw [linkIds_left hleft] at h
    exact .inr ⟨h, hleft.imp_left And.left⟩
  · rw [not_or, not_and_or, Bool.not_eq_false, not_not] at hleft
    obtain ⟨s, hs⟩ := ne_none_iff_exists'.1 hleft.2
    rw [linkIds_taken hj hleft.1 hs (hblank s (mem_of_getElem? hs))] at h
    exact .inl ⟨hleft.1, hs.trans h⟩

theorem carried_map_some {newIds : List String} (hblank : ∀ s ∈ newIds, isBlank s = false)
    (k : ℕ) : carried (newIds.map some) k = newIds[k]? := by
  rw [carried, getElem?_map]
  cases hs : newIds[k]? with
  | none => rfl
  | some s => exact explicitId_eq_some.2 ⟨rfl, hblank s (mem_of_getElem? hs)⟩

/-- Every result with an id stands where its call does, and no other call has the id. -/
def InPlace (t : Turn) : Prop :=
  ∀ j k x, carried t.results j = some x → (carried t.calls k = some x ↔ k = j)

/-- No two results have one id, and no result without id stands where an answered call does. -/
structure Unclaimed (t : Turn) : Prop where
  distinct : ∀ j j' x, carried t.results j = some x → carried t.results j' = some x → j = j'
  unclaimed : ∀ j j' x, j < t.results.length → carried t.results j = none →
    carried t.calls j = some x → carried t.results j' ≠ some x

/-- Ids for the calls of a turn: blank for none, own ones where they are kept, else ones that no
call has. -/
structure Renamed (use9CharId : Bool) (t : Turn) (newIds : List String) : Prop where
  length : newIds.length = t.calls.length
  nodup : newIds.Nodup
  notBlank : ∀ s ∈ newIds, isBlank s = false
  own : ∀ k x, use9CharId = false → carried t.calls k = some x → newIds[k]? = some x
  fresh : ∀ k k' x, newIds[k]? = some x → use9CharId = true ∨ carried t.calls k = none →
    carried t.calls k' ≠ some x

namespace Renamed

variable {use9CharId : Bool} {t : Turn} {newIds : List String}

/-- The turn after the pass. -/
def after (use9CharId : Bool) (t : Turn) (newIds : List String) : Turn :=
  ⟨newIds.map some, linkIds use9CharId newIds t.results⟩

theorem eq_of_get (h : Renamed use9CharId t newIds) {j k : ℕ} {y : String}
    (hj : newIds[j]? = some y) (hk : newIds[k]? = some y) : j = k :=
  (getElem?_inj (List.getElem?_eq_some_iff.1 hj).1 h.nodup).1 (hj.trans hk.symm)

theorem get_of_carried (h : Renamed use9CharId t newIds) {k : ℕ} {x : String}
    (hk : carried t.calls k = some x) : ∃ y, newIds[k]? = some y := by
  have hlt := lt_of_carried hk
  rw [← h.length] at hlt
  exact ⟨_, getElem?_eq_getElem hlt⟩

/-- With new ids for all: the pairing survives when every result stands in its place. -/
theorem kept_iff_inPlace (h : Renamed true t newIds)
    (hlinked : ∀ j x, carried t.results j = some x → ∃ k, carried t.calls k = some x) :
    TurnKept t (after true t newIds) ↔ InPlace t := by
  constructor
  · intro hkept j k x hj
    have hplace : ∀ k, carried t.calls k = some x → k = j := by
      intro k hk
      obtain ⟨y, hy, hcall⟩ := hkept.attached j k x hj hk
      have hcall : newIds[k]? = some y := (carried_map_some h.notBlank k).symm.trans hcall
      rcases linkIds_cases h.notBlank hy with ⟨-, hget⟩ | ⟨hget, -⟩
      · exact h.eq_of_get hcall hget
      · obtain rfl : x = y := some.inj (hj.symm.trans hget)
        exact absurd hk (h.fresh k k x hcall (.inl rfl))
    refine ⟨hplace k, ?_⟩
    rintro rfl
    obtain ⟨k', hk'⟩ := hlinked k x hj
    exact hplace k' hk' ▸ hk'
  · intro hplace
    have hget : ∀ {j y}, carried (linkIds true newIds t.results) j = some y →
        newIds[j]? = some y := by
      intro j y hy
      rcases linkIds_cases h.notBlank hy with ⟨-, hget⟩ | ⟨hown, hmode | hnone⟩
      · exact hget
      · cases hmode
      · obtain ⟨y', hy'⟩ := h.get_of_carried ((hplace j j y hown).2 rfl)
        rw [hnone] at hy'
        cases hy'
    refine ⟨?_, length_linkIds _ _ _, fun j k x hj hk => ?_, fun j y hj hy => ?_,
      fun j j' y hj hj' => h.eq_of_get (hget hj) (hget hj')⟩
    · exact (length_map _).trans h.length
    · obtain rfl := (hplace j k x hj).1 hk
      obtain ⟨y, hy⟩ := h.get_of_carried hk
      exact ⟨y, linkIds_taken (lt_of_carried hj) (.inl rfl) hy
        (h.notBlank y (mem_of_getElem? hy)), (carried_map_some h.notBlank k).trans hy⟩
    · exact ⟨⟨j, (carried_map_some h.notBlank j).trans (hget hy)⟩,
        fun j' hj' => h.eq_of_get (hget hj') (hget hy)⟩

/-- With ids kept: it survives when the results without id are handed calls nobody answers. -/
theorem kept_iff_unclaimed (h : Renamed false t newIds)
    (hlinked : ∀ j x, carried t.results j = some x → ∃ k, carried t.calls k = some x) :
    TurnKept t (after false t newIds) ↔ Unclaimed t := by
  have hown : ∀ {j x}, carried t.results j = some x →
      carried (linkIds false newIds t.results) j = some x := by
    intro j x hj
    rw [linkIds_left (.inl ⟨rfl, by rw [hj]; exact some_ne_none x⟩), hj]
  constructor
  · refine fun hkept => ⟨fun j j' x hj hj' => hkept.distinct j j' x (hown hj) (hown hj'), ?_⟩
    intro j j' x hlt hnone hcall hj'
    have htaken : carried (linkIds false newIds t.results) j = some x :=
      linkIds_taken hlt (.inr hnone) (h.own j x rfl hcall) (carried_eq_some.1 hcall).2
    obtain rfl := hkept.distinct j j' x htaken (hown hj')
    rw [hnone] at hj'
    cases hj'
  · intro hfree
    -- Two results that end with one id had it before, or stand at the same position.
    have hsame : ∀ {j j' y}, carried (linkIds false newIds t.results) j = some y →
        carried (linkIds false newIds t.results) j' = some y → j = j' := by
      have hmixed : ∀ {j j' y}, j < t.results.length → carried t.results j = none →
          newIds[j]? = some y → carried t.results j' ≠ some y := by
        intro j j' y hlt hnone hget hj'
        obtain ⟨k, hk⟩ := hlinked j' y hj'
        cases hcall : carried t.calls j with
        | none => exact h.fresh j k y hget (.inr hcall) hk
        | some x =>
          obtain rfl : x = y := some.inj ((h.own j x rfl hcall).symm.trans hget)
          exact hfree.unclaimed j j' x hlt hnone hcall hj'
      intro j j' y hj hj'
      have hlt := lt_of_carried hj
      have hlt' := lt_of_carried hj'
      rw [length_linkIds] at hlt hlt'
      rcases linkIds_cases h.notBlank hj with ⟨hnone, hget⟩ | ⟨hj, -⟩ <;>
        rcases linkIds_cases h.notBlank hj' with ⟨hnone', hget'⟩ | ⟨hj', -⟩
      · exact h.eq_of_get hget hget'
      · exact absurd hj' (hmixed hlt (hnone.resolve_left Bool.false_ne_true) hget)
      · exact absurd hj (hmixed hlt' (hnone'.resolve_left Bool.false_ne_true) hget')
      · exact hfree.distinct j j' y hj hj'
    refine ⟨?_, length_linkIds _ _ _, fun j k x hj hk => ?_, fun j y hnone hy => ?_,
      fun j j' y => hsame⟩
    · exact (length_map _).trans h.length
    · exact ⟨x, hown hj, (carried_map_some h.notBlank k).trans (h.own k x rfl hk)⟩
    · rcases linkIds_cases h.notBlank hy with ⟨-, hget⟩ | ⟨hj, -⟩
      · exact ⟨⟨j, (carried_map_some h.notBlank j).trans hget⟩, fun j' hj' => hsame hj' hy⟩
      · rw [hnone] at hj
        cases hj

end Renamed

/-! ## The conversation -/

/-- What it takes of a conversation: all ids are new and every result stands in its place, or no
two calls have one id and no result is handed the call of another. -/
def Relinkable (use9CharId : Bool) (ts : List Turn) : Prop :=
  if use9CharId then ∀ t ∈ ts, InPlace t else (callIds ts).Nodup ∧ ∀ t ∈ ts, Unclaimed t

/-- The ids generated for a conversation are pairwise distinct, not blank, and none is the id of
one of its calls. -/
structure Fresh (use9CharId : Bool) (source : IdSource) (ts : List Turn) : Prop where
  distinct : ∀ m m' s, m < (ts.flatMap Turn.calls).length → m' < (ts.flatMap Turn.calls).length →
    IsGenerated use9CharId source m s → IsGenerated use9CharId source m' s → m = m'
  notBlank : ∀ m s, m < (ts.flatMap Turn.calls).length → IsGenerated use9CharId source m s →
    isBlank s = false
  unused : ∀ m s, m < (ts.flatMap Turn.calls).length → IsGenerated use9CharId source m s →
    s ∉ callIds ts

theorem mem_callIds {ts : List Turn} {x : String} :
    x ∈ callIds ts ↔ ∃ t ∈ ts, ∃ k, carried t.calls k = some x := by
  simp only [callIds, mem_filterMap, mem_flatMap]
  constructor
  · rintro ⟨id, ⟨t, ht, hid⟩, hx⟩
    obtain ⟨k, hk⟩ := getElem?_of_mem hid
    exact ⟨t, ht, k, by rw [carried, hk]; exact hx⟩
  · rintro ⟨t, ht, k, hk⟩
    obtain ⟨hget, hblank⟩ := carried_eq_some.1 hk
    exact ⟨some x, ⟨t, ht, mem_of_getElem? hget⟩, explicitId_eq_some.2 ⟨rfl, hblank⟩⟩

theorem some_mem_keptId {use9CharId : Bool} {ids : List (Option String)} {x : String}
    (h : some x ∈ ids.map (keptId use9CharId)) : x ∈ ids.filterMap explicitId := by
  obtain ⟨id, hid, hx⟩ := List.mem_map.1 h
  cases use9CharId with
  | true => cases hx
  | false => exact mem_filterMap.2 ⟨id, hid, hx⟩

theorem filterMap_keptId (use9CharId : Bool) (ids : List (Option String)) :
    (ids.map (keptId use9CharId)).filterMap id =
      if use9CharId then [] else ids.filterMap explicitId := by
  rw [filterMap_map]
  cases use9CharId with
  | true => exact filterMap_eq_nil_iff.2 fun _ _ => rfl
  | false => rfl

/-- The ids of a turn's calls are as they should be, if those of the whole conversation are
pairwise distinct. -/
theorem renamed_of_filled {use9CharId : Bool} {source : IdSource} {t : Turn} {n : ℕ}
    {newIds : List String}
    (hfilled : Filled (IsGenerated use9CharId source) n (t.calls.map (keptId use9CharId)) newIds)
    (hnodup : newIds.Nodup)
    (hnotBlank : ∀ m s, m < n + t.calls.length → IsGenerated use9CharId source m s →
      isBlank s = false)
    (hunused : ∀ m s, m < n + t.calls.length → IsGenerated use9CharId source m s →
      ∀ k, carried t.calls k ≠ some s) : Renamed use9CharId t newIds := by
  have hlen := hfilled.length_eq
  rw [length_map] at hlen
  refine ⟨hlen, hnodup, fun s hs => ?_, fun k x hmode hk => ?_, fun k k' x hget hfree => ?_⟩
  · rcases hfilled.mem hs with hkept | ⟨m, -, hlt, hm⟩
    · obtain ⟨id, -, hid⟩ := mem_filterMap.1 (some_mem_keptId hkept)
      exact (explicitId_eq_some.1 hid).2
    · rw [length_map] at hlt
      exact hnotBlank m s hlt hm
  · subst hmode
    obtain ⟨hget, hblank⟩ := carried_eq_some.1 hk
    have hkept : (t.calls.map (keptId false))[k]? = some (some x) := by
      rw [getElem?_map, hget]
      exact congrArg some (explicitId_eq_some.2 ⟨rfl, hblank⟩)
    obtain ⟨s, -, hs⟩ := hfilled.getElem hkept
    exact hs
  · have hlt : k < t.calls.length := hlen ▸ (List.getElem?_eq_some_iff.1 hget).1
    have hkept : (t.calls.map (keptId use9CharId))[k]? = some none := by
      rw [getElem?_map, getElem?_eq_getElem hlt]
      refine congrArg some ?_
      rcases hfree with rfl | hnone
      · rfl
      · cases use9CharId with
        | true => rfl
        | false =>
          rw [carried, getElem?_eq_getElem hlt] at hnone
          exact hnone
    obtain ⟨s, hs, hget'⟩ := hfilled.getElem hkept
    obtain rfl : x = s := some.inj (hget.symm.trans hget')
    exact hunused (n + k) x (Nat.add_lt_add_left hlt n) hs k'

/-- Turn by turn: the pairing survives in all of them when each is as it should be. -/
theorem forall₂_relink_iff {use9CharId : Bool} {source : IdSource} {P : Turn → Prop} (n : ℕ)
    (ts : List Turn)
    (hturn : ∀ t ∈ ts, ∀ m, n ≤ m → m + t.calls.length ≤ n + (ts.flatMap Turn.calls).length →
      (TurnKept t (Renamed.after use9CharId t (newIdsInOrder use9CharId source m [] t.calls)) ↔
        P t)) :
    List.Forall₂ TurnKept ts (relink use9CharId source n ts) ↔ ∀ t ∈ ts, P t := by
  induction ts generalizing n with
  | nil => simp [relink]
  | cons t ts ih =>
    have hlen : (((t :: ts).flatMap Turn.calls).length : ℕ) =
        t.calls.length + (ts.flatMap Turn.calls).length := by
      rw [flatMap_cons, length_append]
    rw [hlen] at hturn
    have ih := ih (n + t.calls.length) fun t' ht' m hle hlt =>
      hturn t' (.tail _ ht') m (by omega) (by omega)
    rw [relink, List.forall₂_cons, forall_mem_cons, ih]
    exact and_congr_left' (hturn t mem_cons_self n le_rfl (by omega))

theorem callIds_sublist {ts : List Turn} {t : Turn} (ht : t ∈ ts) :
    (t.calls.filterMap explicitId).Sublist (callIds ts) := by
  rw [callIds, flatMap_def]
  exact (sublist_flatten_of_mem (List.mem_map_of_mem ht)).filterMap _

/-- In a conversation whose kept ids are pairwise distinct every turn gets ids as it should. -/
theorem renamed_of_fresh {use9CharId : Bool} {source : IdSource} {ts : List Turn}
    (hfresh : Fresh use9CharId source ts) {t : Turn} (ht : t ∈ ts) {m : ℕ}
    (hm : m + t.calls.length ≤ (ts.flatMap Turn.calls).length)
    (hnodup : use9CharId = false → (callIds ts).Nodup) :
    Renamed use9CharId t (newIdsInOrder use9CharId source m [] t.calls) := by
  have hfilled := filled_newIdsInOrder use9CharId source m [] t.calls
  have hunused : ∀ m' s, m' < m + t.calls.length → IsGenerated use9CharId source m' s →
      ∀ k, carried t.calls k ≠ some s := fun m' s hlt hs k hk =>
    hfresh.unused m' s (hlt.trans_le hm) hs (mem_callIds.2 ⟨t, ht, k, hk⟩)
  refine renamed_of_filled hfilled ?_ (fun m' s hlt => hfresh.notBlank m' s (hlt.trans_le hm))
    hunused
  refine (hfilled.nodup_iff ?_ ?_).2 ?_
  · rw [length_map]
    exact fun m₁ m₂ s h₁ h₂ => hfresh.distinct m₁ m₂ s (h₁.trans_le hm) (h₂.trans_le hm)
  · rw [length_map]
    intro m' s hlt hs hmem
    refine hfresh.unused m' s (hlt.trans_le hm) hs ?_
    exact (callIds_sublist ht).subset (some_mem_keptId hmem)
  · rw [filterMap_keptId]
    cases use9CharId with
    | true => exact nodup_nil
    | false => exact (hnodup rfl).sublist (callIds_sublist ht)

/-- The calls of the conversation end with pairwise distinct ids when the kept ones are. -/
theorem nodup_callIds_relink {use9CharId : Bool} {source : IdSource} {ts : List Turn}
    (hfresh : Fresh use9CharId source ts) :
    (callIds (relink use9CharId source 0 ts)).Nodup ↔ use9CharId = false → (callIds ts).Nodup := by
  obtain ⟨newIds, heq, hfilled⟩ := filled_relink use9CharId source 0 ts
  have hnotBlank : ∀ s ∈ newIds, isBlank s = false := by
    intro s hs
    rcases hfilled.mem hs with hkept | ⟨m, -, hlt, hm⟩
    · obtain ⟨id, -, hid⟩ := mem_filterMap.1 (some_mem_keptId hkept)
      exact (explicitId_eq_some.1 hid).2
    · rw [length_map, Nat.zero_add] at hlt
      exact hfresh.notBlank m s hlt hm
  have hids : callIds (relink use9CharId source 0 ts) = newIds := by
    have hsome : newIds.filterMap (explicitId ∘ some) = newIds.filterMap some :=
      filterMap_congr fun s hs => explicitId_eq_some.2 ⟨rfl, hnotBlank s hs⟩
    rw [callIds, heq, filterMap_map, hsome, filterMap_some]
  rw [hids, hfilled.nodup_iff, filterMap_keptId]
  · cases use9CharId with
    | true => exact ⟨fun _ h => absurd h (by decide), fun _ => nodup_nil⟩
    | false => exact ⟨fun h _ => h, fun h => h rfl⟩
  · rw [length_map, Nat.zero_add]
    exact hfresh.distinct
  · rw [length_map, Nat.zero_add]
    exact fun m s hlt hs hmem => hfresh.unused m s hlt hs (some_mem_keptId hmem)

section Conversation

variable [JsonNumber N] [Zero N] [DecidableEq N]

/-- **Calls and results stay together exactly when the positions agree with the ids.** -/
theorem pairingKept_iff (use9CharId : Bool) (source : IdSource) (msgs : List (Message N))
    (hlinked : WellLinked msgs) (hfresh : Fresh use9CharId source (turns msgs)) :
    PairingKept msgs (ensureToolCallIds use9CharId source msgs) ↔
      Relinkable use9CharId (turns msgs) := by
  have hsplit : PairingKept msgs (ensureToolCallIds use9CharId source msgs) ↔
      List.Forall₂ TurnKept (turns msgs) (relink use9CharId source 0 (turns msgs)) ∧
        (use9CharId = false → (callIds (turns msgs)).Nodup) := by
    rw [← nodup_callIds_relink hfresh, ← turns_ensureToolCallIds]
    exact ⟨fun h => ⟨h.kept, h.distinct⟩, fun h => ⟨h.1, h.2⟩⟩
  have hrenamed := fun hnodup t ht m (hm : m + t.calls.length ≤ _) =>
    renamed_of_fresh hfresh (t := t) ht hm hnodup
  rw [hsplit]
  cases use9CharId with
  | true =>
    have hturns := forall₂_relink_iff 0 (turns msgs) fun t ht m _ hlt =>
      (hrenamed (fun h => by cases h) t ht m (by omega)).kept_iff_inPlace (hlinked t ht)
    rw [hturns]
    exact ⟨And.left, fun h => ⟨h, fun hmode => by cases hmode⟩⟩
  | false =>
    have hturns := fun hnodup => forall₂_relink_iff 0 (turns msgs) fun t ht m _ hlt =>
      (hrenamed (fun _ => hnodup) t ht m (by omega)).kept_iff_unclaimed (hlinked t ht)
    exact ⟨fun h => ⟨h.2 rfl, (hturns (h.2 rfl)).1 h.1⟩,
      fun h => ⟨(hturns h.1).2 h.2, fun _ => h.1⟩⟩

end Conversation

/-! ## Two calls in parallel -/

/-- Ids told apart by the number of letters `a` at their beginning. -/
def IdSource.counting : IdSource where
  long n := String.ofList (List.replicate n 'a' ++ ['b'])
  nine n used := String.ofList (List.replicate n 'a' ++ 'b' :: (used.foldr (· ++ ·) "").toList)
  nine_fresh n used h := by
    have hle := length_le_foldr_append h
    rw [← String.length_toList, ← String.length_toList, String.toList_ofList,
      length_append, length_cons] at hle
    omega

theorem toList_of_isGenerated {use9CharId : Bool} {n : ℕ} {s : String}
    (h : IsGenerated use9CharId .counting n s) :
    ∃ l, s.toList = List.replicate n 'a' ++ 'b' :: l := by
  obtain ⟨used9, rfl⟩ := h
  cases use9CharId with
  | true => exact ⟨_, String.toList_ofList⟩
  | false => exact ⟨[], String.toList_ofList⟩

theorem fresh_counting (use9CharId : Bool) (ts : List Turn) (h : ∀ x ∈ callIds ts, 'b' ∉ x.toList) :
    Fresh use9CharId .counting ts where
  distinct := by
    intro m m' s _ _ hm hm'
    obtain ⟨l, hl⟩ := toList_of_isGenerated hm
    obtain ⟨l', hl'⟩ := toList_of_isGenerated hm'
    have hcount : ∀ (n : ℕ) (l : List Char),
        ((List.replicate n 'a' ++ 'b' :: l).takeWhile fun c => c = 'a').length = n := by
      intro n l
      rw [takeWhile_append_of_pos fun c hc => by simp [eq_of_mem_replicate hc]]
      simp
    rw [← hcount m l, ← hcount m' l', ← hl, ← hl']
  notBlank := by
    intro m s _ hm
    obtain ⟨l, hl⟩ := toList_of_isGenerated hm
    rw [isBlank, hl, List.all_eq_false]
    exact ⟨'b', by simp, by decide⟩
  unused := by
    intro m s _ hm hmem
    obtain ⟨l, hl⟩ := toList_of_isGenerated hm
    exact h s hmem (by simp [hl])

def parallelCalls : Message ℤ :=
  { role := .assistant
    content := .absent
    toolCalls := some
      [⟨some "x", some "function", some ⟨some "weather", some (.str "{}")⟩⟩,
        ⟨some "y", some "function", some ⟨some "time", some (.str "{}")⟩⟩] }

/-- The second call is answered first. -/
def reordered : List (Message ℤ) :=
  [parallelCalls,
    { role := .tool, content := .text "noon", toolCallId := some "y" },
    { role := .tool, content := .text "sunny", toolCallId := some "x" }]

/-- The result without id comes first. -/
def halfNamed : List (Message ℤ) :=
  [parallelCalls,
    { role := .tool, content := .text "noon" },
    { role := .tool, content := .text "sunny", toolCallId := some "x" }]

theorem wellLinked_of_turn {msgs : List (Message ℤ)} {t : Turn} (hturns : turns msgs = [t])
    (h : ∀ id ∈ t.results, ∀ x ∈ explicitId id, id ∈ t.calls) : WellLinked msgs := by
  intro t' ht' j x hj
  rw [hturns, mem_singleton] at ht'
  subst ht'
  obtain ⟨hget, hblank⟩ := carried_eq_some.1 hj
  obtain ⟨k, hk⟩ := getElem?_of_mem
    (h _ (mem_of_getElem? hget) x (explicitId_eq_some.2 ⟨rfl, hblank⟩))
  exact ⟨k, carried_eq_some.2 ⟨hk, hblank⟩⟩

theorem wellLinked_reordered : WellLinked reordered :=
  wellLinked_of_turn rfl (by decide)

theorem wellLinked_halfNamed : WellLinked halfNamed :=
  wellLinked_of_turn rfl (by decide)

theorem pairingKept_iff_reordered :
    PairingKept reordered (ensureToolCallIds true .counting reordered) ↔
      Relinkable true (turns reordered) :=
  pairingKept_iff true .counting reordered wellLinked_reordered (fresh_counting _ _ (by decide))

/-- New ids exchange the two results; kept ids let the first result answer the call that the
second one answers. -/
theorem pairing_lost :
    (WellLinked reordered ∧ Fresh true .counting (turns reordered) ∧
        ¬PairingKept reordered (ensureToolCallIds true .counting reordered)) ∧
      WellLinked halfNamed ∧ Fresh false .counting (turns halfNamed) ∧
        ¬PairingKept halfNamed (ensureToolCallIds false .counting halfNamed) := by
  refine ⟨⟨wellLinked_reordered, fresh_counting _ _ (by decide), fun h => ?_⟩,
    wellLinked_halfNamed, fresh_counting _ _ (by decide), fun h => ?_⟩
  · have hkept := h.kept
    rw [turns_ensureToolCallIds] at hkept
    obtain ⟨y, hresult, hcall⟩ := (List.forall₂_cons.1 hkept).1.attached 0 1 "y" rfl rfl
    exact absurd (hresult.trans hcall.symm) (by decide +kernel)
  · have hkept := h.kept
    rw [turns_ensureToolCallIds] at hkept
    exact absurd ((List.forall₂_cons.1 hkept).1.distinct 0 1 "x" rfl rfl) (by decide)

end OmniRoute.ToolPairing
