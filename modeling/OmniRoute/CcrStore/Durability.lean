import OmniRoute.CcrStore.Backing

/-!
# Durability of the CCR block store

`Ledger` keeps next to the store what was promised: a block that is stored is to be found until
its time to live is over, and a block that is deleted is not to be found until it is stored
again. A promise is settled once no deferred write of its block is left.

Storing a block that the map holds moves the expiry of the entry and leaves the row as it was, a
deletion leaves the row until the queue gets to it, and a retrieve that misses the map reads the
row as it stands. So promises are broken both ways.

**Main result (`retrieves_right_of_smooth`).** A run keeps all promises if no store moves a
block's expiry before what is promised, no entry is evicted whose row expires at another time,
and no retrieve reads a row that a deferred write is still to change.
-/

namespace OmniRoute.CcrStore

open List History

/-- When an event happens; a deletion does not read the clock. -/
def Event.time : Event → Option ℤ
  | .store _ _ _ now | .retrieve _ _ now _ | .inspect _ _ now | .list _ now | .drain _ now =>
    some now
  | .delete .. => none

/-- A block was stored, to be found until the deadline. -/
structure Promise where
  owner : String
  text : String
  deadline : ℤ
  /-- The block's deferred writes have run since. -/
  settled : Bool
  deriving DecidableEq

structure Ledger where
  history : History
  clock : ℤ
  promises : List Promise
  /-- The principals and hashes of blocks deleted and not stored again. -/
  deleted : List (String × String)

namespace Ledger

def init : Ledger := ⟨.init, 0, [], []⟩

def timeOf (l : Ledger) (e : Event) : ℤ := e.time.getD l.clock

variable (env : Env)

def Promise.key (p : Promise) : String × String := (p.owner, env.hashContent p.text)

/-- The promises whose blocks have no deferred write left are settled. -/
def settle (s : State) (promises : List Promise) : List Promise :=
  promises.map fun p => if PendingFor s (Promise.key env p) then p else { p with settled := true }

/-- What a store newly promises. -/
def newPromises (s : State) : Event → List Promise
  | .store text principalId ttlSeconds now =>
    (newlyStored env s (.store text principalId ttlSeconds now)).map fun p =>
      ⟨p.1, p.2, now + normalizeTtlSeconds ttlSeconds * 1000, false⟩
  | _ => []

def deletedKey : Event → Option (String × String)
  | .delete hash principalId => some (ownerOf principalId, hash)
  | _ => none

/-- The clock does not go back. -/
def step (l : Ledger) (e : Event) : Option Ledger :=
  if l.timeOf e < l.clock then none
  else (History.step env l.history e).map fun history =>
    let new := newPromises env l.history.state e
    { history
      clock := l.timeOf e
      promises := settle env history.state
        (l.promises.filter (fun p => some (Promise.key env p) ≠ deletedKey e) ++ new)
      deleted := (deletedKey e).toList ++ l.deleted.filter fun k =>
        k ∉ new.map (Promise.key env) }

/-- A retrieve returns a block that is promised and settled, and none that is deleted. -/
def RetrievesRight (l : Ledger) : Event → Prop
  | .retrieve hash principalId now diskReads =>
    let found := (retrieveBlock env hash principalId now diskReads l.history.state).1
    (∀ p ∈ l.promises, Promise.key env p = (ownerOf principalId, hash) → p.settled = true →
      now < p.deadline → found = some p.text) ∧
    ((ownerOf principalId, hash) ∈ l.deleted → found = none)
  | _ => True

/-! ## What is assumed -/

/-- The durable tier is on and reads, no deferred write is dropped or fails, and the blocks
stored are small enough for it. -/
def Assumed (l : Ledger) : Event → Prop
  | .store text _ _ now => env.durableTierEnabled = true ∧
    text.utf8ByteSize ≤ maxDurableBlockBytes ∧
    (purgeExpired env now l.history.state).pendingWrites.length < maxPendingDurableWrites
  | .retrieve _ _ _ diskReads => env.durableTierEnabled = true ∧ diskReads = true
  | .drain succeeds _ => env.durableTierEnabled = true ∧ succeeds = true
  | _ => env.durableTierEnabled = true

/-- An unexpired entry that the step takes out of the map has a row that is to expire when it
does. -/
def EvictsInStep (l : Ledger) (e : Event) : Prop :=
  ∀ p ∈ l.history.state.ccrStore.entries, l.timeOf e < p.2.expiresAt →
    some p.2.rowKey ≠ deletedKey e →
    (CcrStore.step env l.history.state e).ccrStore.get p.1 = none →
    settledExpiry l.history.state p.2.rowKey = some p.2.expiresAt

/-- The retrieve finds no unexpired entry in the map, but an unexpired row in the table. -/
def ReadsRow (s : State) (k : String × String) (now : ℤ) : Prop :=
  (∀ entry ∈ s.ccrStore.get (buildStoreKey k.2 k.1), entry.expiresAt ≤ now) ∧
    ∃ row ∈ s.ccrBlocks.get k, now < row.expiresAt

/-- A store neither meets another block of its principal under the hash nor ends a promise of its
block early; a retrieve meets no other principal's entry and reads no row that a deferred write
is to change; and evicted entries are in step with their rows. -/
def Smooth (l : Ledger) (e : Event) : Prop :=
  l.EvictsInStep env e ∧
    match e with
    | .store text principalId ttlSeconds now =>
      (∀ p ∈ l.history.stored, p.1 = ownerOf principalId →
        env.hashContent p.2 = env.hashContent text → p.2 = text) ∧
      ∀ p ∈ l.promises, Promise.key env p = (ownerOf principalId, env.hashContent text) →
        now < p.deadline → p.deadline ≤ now + normalizeTtlSeconds ttlSeconds * 1000
    | .retrieve hash principalId now diskReads =>
      l.history.MeetsOnlyOwn (.retrieve hash principalId now diskReads) ∧
      (ReadsRow l.history.state (ownerOf principalId, hash) now →
        ¬PendingFor l.history.state (ownerOf principalId, hash))
    | _ => True

instance (h : History) : DecidablePred h.MeetsOnlyOwn
  | .retrieve hash principalId now _ => inferInstanceAs <| Decidable
      (∀ entry ∈ h.state.ccrStore.get (buildStoreKey hash (ownerOf principalId)),
        now < entry.expiresAt → entry.principalId = ownerOf principalId)
  | .store .. | .inspect .. | .list .. | .delete .. | .drain .. => .isTrue trivial

instance (l : Ledger) : DecidablePred (l.RetrievesRight env)
  | .retrieve hash principalId now diskReads => inferInstanceAs <| Decidable
      ((∀ p ∈ l.promises, Promise.key env p = (ownerOf principalId, hash) → p.settled = true →
          now < p.deadline →
          (retrieveBlock env hash principalId now diskReads l.history.state).1 = some p.text) ∧
        ((ownerOf principalId, hash) ∈ l.deleted →
          (retrieveBlock env hash principalId now diskReads l.history.state).1 = none))
  | .store .. | .inspect .. | .list .. | .delete .. | .drain .. => .isTrue trivial

instance (l : Ledger) : DecidablePred (l.Assumed env)
  | .store text _ _ now => inferInstanceAs <| Decidable (env.durableTierEnabled = true ∧
      text.utf8ByteSize ≤ maxDurableBlockBytes ∧
      (purgeExpired env now l.history.state).pendingWrites.length < maxPendingDurableWrites)
  | .retrieve _ _ _ diskReads => inferInstanceAs <| Decidable
      (env.durableTierEnabled = true ∧ diskReads = true)
  | .drain succeeds _ => inferInstanceAs <| Decidable
      (env.durableTierEnabled = true ∧ succeeds = true)
  | .inspect .. | .list .. | .delete .. => inferInstanceAs <| Decidable
      (env.durableTierEnabled = true)

instance (s : State) (k : String × String) (now : ℤ) : Decidable (ReadsRow s k now) :=
  inferInstanceAs (Decidable (_ ∧ _))

instance (l : Ledger) (e : Event) : Decidable (l.EvictsInStep env e) :=
  inferInstanceAs <| Decidable (∀ p ∈ l.history.state.ccrStore.entries, l.timeOf e < p.2.expiresAt →
    some p.2.rowKey ≠ deletedKey e →
    (CcrStore.step env l.history.state e).ccrStore.get p.1 = none →
    settledExpiry l.history.state p.2.rowKey = some p.2.expiresAt)

instance (l : Ledger) : DecidablePred (l.Smooth env)
  | .store text principalId ttlSeconds now => inferInstanceAs <| Decidable
      (l.EvictsInStep env (.store text principalId ttlSeconds now) ∧
        (∀ p ∈ l.history.stored, p.1 = ownerOf principalId →
          env.hashContent p.2 = env.hashContent text → p.2 = text) ∧
        ∀ p ∈ l.promises, Promise.key env p = (ownerOf principalId, env.hashContent text) →
          now < p.deadline → p.deadline ≤ now + normalizeTtlSeconds ttlSeconds * 1000)
  | .retrieve hash principalId now diskReads => inferInstanceAs <| Decidable
      (l.EvictsInStep env (.retrieve hash principalId now diskReads) ∧
        l.history.MeetsOnlyOwn (.retrieve hash principalId now diskReads) ∧
        (ReadsRow l.history.state (ownerOf principalId, hash) now →
          ¬PendingFor l.history.state (ownerOf principalId, hash)))
  | .inspect hash principalId now => inferInstanceAs <| Decidable
      (l.EvictsInStep env (.inspect hash principalId now) ∧ True)
  | .list principalId now => inferInstanceAs <| Decidable
      (l.EvictsInStep env (.list principalId now) ∧ True)
  | .delete hash principalId => inferInstanceAs <| Decidable
      (l.EvictsInStep env (.delete hash principalId) ∧ True)
  | .drain succeeds now => inferInstanceAs <| Decidable
      (l.EvictsInStep env (.drain succeeds now) ∧ True)

variable {env} {l l' : Ledger} {e : Event}

/-! ## The invariant -/

/-- The promises still open are backed, and the deleted blocks are gone. -/
structure Kept (env : Env) (l : Ledger) : Prop where
  sound : History.Sound env l.history
  unique : ∀ p ∈ l.history.stored, ∀ q ∈ l.history.stored, p.1 = q.1 →
    env.hashContent p.2 = env.hashContent q.2 → p.2 = q.2
  promised : ∀ p ∈ l.promises, (p.owner, p.text) ∈ l.history.stored
  backed : ∀ p ∈ l.promises, l.clock < p.deadline →
    Backs l.history.state (Promise.key env p) p.deadline p.settled
  gone : ∀ k ∈ l.deleted, Gone l.history.state k

theorem kept_init : Kept env init where
  sound := sound_init
  unique _ h := by cases h
  promised _ h := by cases h
  backed _ h := by cases h
  gone _ h := by cases h

theorem step_eq (h : step env l e = some l') : l.clock ≤ l.timeOf e ∧
    l' = { history := ⟨CcrStore.step env l.history.state e,
             l.history.stored ++ newlyStored env l.history.state e⟩
           clock := l.timeOf e
           promises := settle env (CcrStore.step env l.history.state e)
             (l.promises.filter (fun p => some (Promise.key env p) ≠ deletedKey e) ++
               newPromises env l.history.state e)
           deleted := (deletedKey e).toList ++ l.deleted.filter fun k =>
             k ∉ (newPromises env l.history.state e).map (Promise.key env) } := by
  rw [step] at h
  split at h
  · cases h
  · next hclock =>
    cases h
    exact ⟨not_lt.1 hclock, rfl⟩

variable {p : Promise}

/-- A settled promise is the same promise. -/
theorem mem_settle {s : State} {promises : List Promise} (h : p ∈ settle env s promises) :
    ∃ q ∈ promises, p.owner = q.owner ∧ p.text = q.text ∧
      p.deadline = q.deadline ∧ (p.settled = q.settled ∨ ¬PendingFor s (Promise.key env q)) := by
  obtain ⟨q, hq, rfl⟩ := mem_map.1 h
  refine ⟨q, hq, ?_⟩
  split
  · exact ⟨rfl, rfl, rfl, Or.inl rfl⟩
  · next hfor => exact ⟨rfl, rfl, rfl, Or.inr hfor⟩

theorem backs_settle {s : State} {promises : List Promise} {now : ℤ}
    (h : ∀ q ∈ promises, now < q.deadline → Backs s (Promise.key env q) q.deadline q.settled)
    (hp : p ∈ settle env s promises) (hnow : now < p.deadline) :
    Backs s (Promise.key env p) p.deadline p.settled := by
  obtain ⟨q, hq, howner, htext, hdeadline, hsettled⟩ := mem_settle hp
  have hq' := h q hq (hdeadline ▸ hnow)
  rw [Promise.key, howner, htext, hdeadline]
  obtain heq | hfor := hsettled
  · exact heq ▸ hq'
  · exact hq'.settle hfor p.settled

theorem mem_newlyStored {s : State} {p : String × String}
    (h : p ∈ newlyStored env s e) : ∃ text principalId ttlSeconds now,
      e = .store text principalId ttlSeconds now ∧ p = (ownerOf principalId, text) := by
  cases e with
  | store text principalId ttlSeconds now =>
    refine ⟨text, principalId, ttlSeconds, now, rfl, ?_⟩
    simp only [newlyStored] at h
    split at h
    · exact mem_singleton.1 h
    · cases h
  | _ => cases h

theorem mem_newPromises {s : State} (h : p ∈ newPromises env s e) :
    ∃ text principalId ttlSeconds now, e = .store text principalId ttlSeconds now ∧
      p = ⟨ownerOf principalId, text, now + normalizeTtlSeconds ttlSeconds * 1000, false⟩ ∧
      (ownerOf principalId, text) ∈ newlyStored env s e := by
  cases e with
  | store text principalId ttlSeconds now =>
    obtain ⟨q, hq, rfl⟩ := mem_map.1 h
    obtain ⟨text', principalId', ttlSeconds', now', heq, rfl⟩ := mem_newlyStored hq
    cases heq
    exact ⟨text, principalId, ttlSeconds, now, rfl, rfl, hq⟩
  | _ => cases h

/-- What is left to show for a step: what becomes of the promises and the deleted blocks. -/
theorem Kept.of_step (h : Kept env l) (hs : l.Smooth env e) (hstep : step env l e = some l')
    (hold : ∀ p ∈ l.promises, some (Promise.key env p) ≠ deletedKey e → l.timeOf e < p.deadline →
      Backs (CcrStore.step env l.history.state e) (Promise.key env p) p.deadline p.settled)
    (hnew : ∀ p ∈ newPromises env l.history.state e, l.timeOf e < p.deadline →
      Backs (CcrStore.step env l.history.state e) (Promise.key env p) p.deadline p.settled)
    (hgone : ∀ k ∈ l.deleted, k ∉ (newPromises env l.history.state e).map (Promise.key env) →
      Gone (CcrStore.step env l.history.state e) k)
    (hdeleted : ∀ k ∈ deletedKey e, Gone (CcrStore.step env l.history.state e) k) :
    Kept env l' := by
  obtain ⟨-, rfl⟩ := step_eq hstep
  constructor
  case sound => exact sound_step e h.sound rfl
  case unique =>
    have hcross : ∀ p ∈ l.history.stored, ∀ q ∈ newlyStored env l.history.state e,
        p.1 = q.1 → env.hashContent p.2 = env.hashContent q.2 → p.2 = q.2 := by
      intro p hp q hq howner hhash
      obtain ⟨text, principalId, ttlSeconds, now, rfl, rfl⟩ := mem_newlyStored hq
      exact hs.2.1 p hp howner hhash
    intro p hp q hq howner hhash
    obtain hp | hp := mem_append.1 hp
    · obtain hq | hq := mem_append.1 hq
      · exact h.unique p hp q hq howner hhash
      · exact hcross p hp q hq howner hhash
    · obtain hq | hq := mem_append.1 hq
      · exact (hcross q hq p hp howner.symm hhash.symm).symm
      · obtain ⟨text, principalId, ttlSeconds, now, rfl, rfl⟩ := mem_newlyStored hp
        obtain ⟨text', principalId', ttlSeconds', now', heq, rfl⟩ := mem_newlyStored hq
        cases heq
        rfl
  case promised =>
    intro p hp
    obtain ⟨q, hq, howner, htext, -⟩ := mem_settle hp
    rw [howner, htext]
    obtain hq | hq := mem_append.1 hq
    · exact mem_append_left _ (h.promised q (mem_of_mem_filter hq))
    · obtain ⟨text, principalId, ttlSeconds, now, rfl, rfl, hmem⟩ := mem_newPromises hq
      exact mem_append_right _ hmem
  case backed =>
    refine fun p hp hnow => backs_settle (fun q hq hlt => ?_) hp hnow
    obtain hq | hq := mem_append.1 hq
    · obtain ⟨hmem, hne⟩ := mem_filter.1 hq
      exact hold q hmem (of_decide_eq_true hne) hlt
    · exact hnew q hq hlt
  case gone =>
    intro k hk
    obtain hk | hk := mem_append.1 hk
    · exact hdeleted k (Option.mem_toList.1 hk)
    · obtain ⟨hmem, hnew⟩ := mem_filter.1 hk
      exact hgone k hmem (of_decide_eq_true hnew)

/-- The promises outlive an operation that brings nothing too short. -/
theorem Kept.backs_effect {brought : Option CcrEntry} (h : Kept env l)
    (hclock : l.clock ≤ l.timeOf e) (hevict : l.EvictsInStep env e)
    (heffect : Effect (l.timeOf e) l.history.state (CcrStore.step env l.history.state e) brought)
    (hle : ∀ entry ∈ brought, ∀ p ∈ l.promises, entry.rowKey = Promise.key env p →
      l.timeOf e < p.deadline → p.deadline ≤ entry.expiresAt) (hp : p ∈ l.promises)
    (hne : some (Promise.key env p) ≠ deletedKey e) (hnow : l.timeOf e < p.deadline) :
    Backs (CcrStore.step env l.history.state e) (Promise.key env p) p.deadline p.settled := by
  refine (h.backed p hp (hclock.trans_lt hnow)).effect heffect h.sound.genuine.placed hnow ?_
    fun entry hentry hk => hle entry hentry p hp hk hnow
  intro key e' he' hk hlive hnone
  rw [← hk] at hne ⊢
  exact hevict (key, e') (OrdMap.get_eq_some.1 he') hlive hne hnone

/-! ## What each event keeps -/

variable {principalId : Option String}

section

variable (h : Kept env l)
include h

theorem kept_store {text : String} {ttlSeconds : Option ℚ} {now : ℤ}
    (ha : l.Assumed env (.store text principalId ttlSeconds now))
    (hs : l.Smooth env (.store text principalId ttlSeconds now))
    (hstep : step env l (.store text principalId ttlSeconds now) = some l') : Kept env l' := by
  obtain ⟨hevict, -, hlater⟩ := id hs
  obtain ⟨henabled, hbytes, hroom⟩ := ha
  obtain ⟨entry, heffect, hkey, hexp⟩ := store_effect principalId ttlSeconds h.sound.accounted
    h.sound.genuine henabled hbytes hroom
  have hstored : newlyStored env l.history.state
      (.store text principalId ttlSeconds now) = [(ownerOf principalId, text)] :=
    newlyStored_store ttlSeconds now h.sound.accounted (hbytes.trans (by decide))
  have hnew : newPromises env l.history.state (.store text principalId ttlSeconds now) =
      [⟨ownerOf principalId, text, entry.expiresAt, false⟩] := by
    rw [newPromises, hstored, map_singleton, hexp]
  refine h.of_step hs hstep (fun p hp hne hnow => ?_) ?_ ?_ fun _ hk => by cases hk
  · refine h.backs_effect (step_eq hstep).1 hevict heffect (fun entry' hentry p hp hk hlt => ?_) hp
      hne hnow
    cases hentry
    rw [hexp]
    exact hlater p hp (hk.symm.trans hkey) hlt
  · rw [hnew]
    intro p hp hnow
    cases mem_singleton.1 hp
    have hbacks := heffect.backs h.sound.genuine.placed hnow
    rwa [hkey] at hbacks
  · rw [hnew]
    intro k hk hother
    refine (h.gone k hk).effect heffect fun entry' hentry heq => ?_
    cases hentry
    exact hother (mem_singleton.2 (heq.symm.trans hkey))

theorem kept_retrieve {hash : String} {now : ℤ} {diskReads : Bool}
    (hs : l.Smooth env (.retrieve hash principalId now diskReads))
    (hstep : step env l (.retrieve hash principalId now diskReads) = some l') : Kept env l' := by
  obtain ⟨hevict, -, hfor⟩ := id hs
  obtain ⟨brought, heffect, hfrom⟩ := retrieve_effect env hash principalId now diskReads
    l.history.state
  -- The row that is read is to stay as it is.
  have hrow : ∀ entry ∈ brought, settledExpiry l.history.state entry.rowKey =
      some entry.expiresAt := by
    intro entry hentry
    obtain ⟨hkey, hexpired, row, hrow, hlive, hexp⟩ := hfrom entry hentry
    rw [hkey, settledExpiry_of_not_pending (hfor ⟨hexpired, row, hrow, hlive⟩), hexp,
      Option.mem_def.1 hrow]
    rfl
  refine h.of_step hs hstep (fun p hp hne hnow => ?_) (fun _ hp => by cases hp) ?_
    fun _ hk => by cases hk
  · refine h.backs_effect (step_eq hstep).1 hevict heffect (fun entry hentry p hp hk hlt => ?_) hp
      hne hnow
    have hbacked := h.backed p hp ((step_eq hstep).1.trans_lt hlt)
    obtain ⟨hkey, hexpired, -⟩ := hfrom entry hentry
    obtain ⟨key, e, he, hke, -⟩ | ⟨x, hx, hle⟩ := hbacked.held_or_row
    · have hplace := h.sound.genuine.placed key e he
      have hsame : e.rowKey = (ownerOf principalId, hash) := hke.trans (hk.symm.trans hkey)
      simp only [CcrEntry.rowKey, Prod.mk.injEq] at hsame
      rw [hsame.1, hsame.2] at hplace
      have hle := hexpired e (hplace ▸ he)
      have hcovered := hbacked.covered key e he hke
      have hlt' : now < p.deadline := hlt
      omega
    · rw [← hk, hrow entry hentry] at hx
      cases hx
      exact hle
  · intro k hk _
    refine (h.gone k hk).effect heffect fun entry hentry heq => ?_
    have hnone := (h.gone k hk).no_row
    rw [← heq, hrow entry hentry] at hnone
    cases hnone

/-- An event that only fades the store keeps the promises. -/
theorem kept_fades (hs : l.Smooth env e) (hstep : step env l e = some l')
    (hfades : Fades (l.timeOf e) l.history.state (CcrStore.step env l.history.state e))
    (hnew : newPromises env l.history.state e = []) (hdeleted : deletedKey e = none) :
    Kept env l' := by
  refine h.of_step hs hstep (fun p hp hne hnow => ?_) (by simp [hnew]) (fun k hk _ => ?_)
    (by simp [hdeleted])
  · exact h.backs_effect (step_eq hstep).1 hs.1 (.fades hfades) (by simp) hp hne hnow
  · exact (h.gone k hk).fades hfades

theorem kept_delete {hash : String} (ha : l.Assumed env (.delete hash principalId))
    (hs : l.Smooth env (.delete hash principalId))
    (hstep : step env l (.delete hash principalId) = some l') : Kept env l' := by
  have henabled : ¬env.durableTierEnabled = false := by simpa [Assumed] using ha
  set removed := removeEntry env (buildStoreKey hash (ownerOf principalId)) false l.history.state
  have hfades : Fades l.clock l.history.state removed :=
    fades_removeEntry false fun _ _ hfalse => by cases hfalse
  have hstate : CcrStore.step env l.history.state (.delete hash principalId) =
      { removed with
        pendingWrites := removed.pendingWrites ++ [.delete (ownerOf principalId) hash] } := by
    rw [CcrStore.step, deleteCcrBlock, forgetEntry, if_neg henabled, deferDurable, if_neg (by simp)]
  have hevict := hs.1
  rw [EvictsInStep, hstate] at hevict
  refine h.of_step hs hstep (fun p hp hne hnow => ?_) (fun _ hp => by cases hp) (fun k hk _ => ?_)
    fun k hk => ?_
  · rw [hstate]
    have hother : (ownerOf principalId, hash) ≠ Promise.key env p := fun heq => hne (by
      rw [← heq]
      rfl)
    refine Backs.push_delete ((h.backed p hp hnow).fades hfades hnow ?_) hother
    intro key e he hk hlive hnone
    rw [← hk] at hne ⊢
    exact hevict (key, e) (OrdMap.get_eq_some.1 he) hlive hne hnone
  · rw [hstate]
    exact Gone.push_delete ((h.gone k hk).fades hfades)
  · cases hk
    rw [hstate]
    refine ⟨fun key e he hk => ?_, ?_⟩
    · have hplace := h.sound.genuine.placed.fades hfades key e he
      simp only [CcrEntry.rowKey, Prod.mk.injEq] at hk
      rw [hk.1, hk.2] at hplace
      rw [hplace] at he
      have hnone : removed.ccrStore.get (buildStoreKey hash (ownerOf principalId)) = none :=
        get_removeEntry_self false
      rw [hnone] at he
      cases he
    · rw [settledExpiry_push]
      exact if_pos rfl

theorem kept_step (ha : l.Assumed env e) (hs : l.Smooth env e)
    (hstep : step env l e = some l') : Kept env l' := by
  cases e with
  | store text principalId ttlSeconds now => exact kept_store h ha hs hstep
  | retrieve hash principalId now diskReads => exact kept_retrieve h hs hstep
  | inspect hash principalId now =>
    exact kept_fades h hs hstep (fades_getActiveEntry env _ now _) rfl rfl
  | list principalId now => exact kept_fades h hs hstep (fades_purgeExpired env now _) rfl rfl
  | delete hash principalId => exact kept_delete h ha hs hstep
  | drain succeeds now =>
    obtain ⟨-, rfl⟩ := ha
    exact kept_fades h hs hstep (fades_drainWrite now _) rfl rfl

/-! ## Retrieving -/

/-- A promised block is in the map, or its row is in the table. -/
theorem Kept.row_of_promise {now : ℤ} (hp : p ∈ l.promises)
    (hsettled : p.settled = true) (hclock : l.clock ≤ now) (hnow : now < p.deadline)
    (hexpired : ∀ e, l.history.state.ccrStore.get
      (buildStoreKey (env.hashContent p.text) p.owner) = some e → e.expiresAt ≤ now) :
    ∃ row, l.history.state.ccrBlocks.get (Promise.key env p) = some row ∧
      p.deadline ≤ row.expiresAt := by
  have hbacked := h.backed p hp (hclock.trans_lt hnow)
  have hrow : ∃ x ∈ (l.history.state.ccrBlocks.get (Promise.key env p)).map (·.expiresAt),
      p.deadline ≤ x := by
    by_cases hfor : PendingFor l.history.state (Promise.key env p)
    · exact (hbacked.secured hsettled).row hfor
    rw [← settledExpiry_of_not_pending hfor]
    obtain ⟨key, e, he, hk, -⟩ | hrow := hbacked.held_or_row
    · have hplace := h.sound.genuine.placed key e he
      have hcovered := hbacked.covered key e he hk
      simp only [CcrEntry.rowKey, Promise.key, Prod.mk.injEq] at hk
      rw [hk.1, hk.2] at hplace
      exact absurd (hexpired e (hplace ▸ he)) (not_le.2 (hnow.trans_le hcovered))
    · exact hrow
  obtain ⟨x, hx, hle⟩ := hrow
  obtain ⟨row, hget, rfl⟩ := Option.map_eq_some_iff.1 hx
  exact ⟨row, hget, hle⟩

/-- A block of the principal with the hash of a promised text has that text. -/
theorem Kept.content_eq {e : CcrEntry} (hp : p ∈ l.promises)
    (hgenuine : History.Genuine env l.history.stored e.block)
    (hkey : e.rowKey = Promise.key env p) : e.content = p.text := by
  simp only [CcrEntry.rowKey, Promise.key, Prod.mk.injEq] at hkey
  exact h.unique _ hgenuine.1 _ (h.promised p hp) hkey.1 (hgenuine.2.symm.trans hkey.2)

theorem retrievesRight (ha : l.Assumed env e) (hs : l.Smooth env e)
    (hstep : step env l e = some l') : l.RetrievesRight env e := by
  cases e with
  | retrieve hash principalId now diskReads =>
    obtain ⟨-, hown, hfor⟩ := hs
    have hclock : l.clock ≤ now := (step_eq hstep).1
    have hreads : ¬(env.durableTierEnabled = false ∨ diskReads = false) := by
      simp [ha.1, ha.2]
    by_cases hactive : ∃ entry, l.history.state.ccrStore.get
        (buildStoreKey hash (ownerOf principalId)) = some entry ∧ now < entry.expiresAt
    · obtain ⟨entry, hget, hlive⟩ := hactive
      have hprincipal := hown entry hget hlive
      obtain ⟨hplace, hgenuine⟩ := h.sound.genuine.entries _ entry hget
      rw [hprincipal] at hplace
      have hkey : entry.rowKey = (ownerOf principalId, hash) := by
        rw [CcrEntry.rowKey, hprincipal, buildStoreKey_right_inj hplace]
      simp only [RetrievesRight, retrieveBlock_of_active diskReads hget hlive]
      refine ⟨fun p hp hk _ _ => ?_, fun hdeleted => ?_⟩
      · rw [h.content_eq hp hgenuine (hkey.trans hk.symm)]
      · exact absurd hkey ((h.gone _ hdeleted).not_held _ entry hget)
    · have hexpired : ∀ entry, l.history.state.ccrStore.get
          (buildStoreKey hash (ownerOf principalId)) = some entry → entry.expiresAt ≤ now :=
        fun entry hget => not_lt.1 fun hlive => hactive ⟨entry, hget, hlive⟩
      simp only [RetrievesRight, retrieveBlock_of_inactive hexpired, if_neg hreads]
      refine ⟨fun p hp hk hsettled hnow => ?_, fun hdeleted => ?_⟩
      · have hk' := hk
        simp only [Promise.key, Prod.mk.injEq] at hk'
        obtain ⟨row, hrow, hle⟩ := h.row_of_promise hp hsettled hclock hnow (by
          rwa [hk'.1, hk'.2])
        rw [hk] at hrow
        obtain ⟨hprincipal, hhash, hgenuine⟩ := h.sound.genuine.rows _ _ row hrow
        have hkey : row.rowKey = Promise.key env p := by
          rw [CcrEntry.rowKey, hprincipal, hhash, hk]
        have hlive : now < row.expiresAt := hnow.trans_le hle
        simp [rowContent, hrow, hlive, h.content_eq hp hgenuine hkey]
      · -- A row that would be read is as it is to stay, and this one is to go.
        rw [rowContent, Option.map_eq_none_iff, Option.filter_eq_none_iff]
        intro row hrow
        by_contra hlive
        have hnot := hfor ⟨hexpired, row, hrow, by simpa using hlive⟩
        have hnone := (h.gone _ hdeleted).no_row
        rw [settledExpiry_of_not_pending hnot, hrow] at hnone
        cases hnone
  | _ => trivial

end

/-! ## Whole runs -/

/-- In every run in which the durable tier is on and works and takes every block, if no store ends
a promise of its block early or meets another text with the hash of its own, every unexpired
entry that leaves the map has a row that is to expire with it, and no retrieve meets another
principal's entry or reads a row that a deferred write is to change, then every retrieve returns
what is promised and settled, and nothing that is deleted. -/
theorem retrieves_right_of_smooth (env : Env) (events : List Event)
    (hassumed : Trace.Meets (step env) (Assumed env) init events)
    (hsmooth : Trace.Meets (step env) (Smooth env) init events) :
    Trace.Meets (step env) (RetrievesRight env) init events :=
  Trace.meets_of_meets (fun _ _ _ h hcond hstep => kept_step h hcond.1 hcond.2 hstep)
    (fun _ _ _ h hcond hstep => retrievesRight h hcond.1 hcond.2 hstep) kept_init
    (hassumed.and hsmooth)

open History (oneHash)

/-- A block is stored, written, retrieved, deleted, and asked for when the queue has run. -/
def storedThenDeleted : List Event :=
  [.store "text" none (some 60) 1000, .drain true 1500,
    .retrieve "5f70bf18a086007016e948b0" none 2000 true, .delete "5f70bf18a086007016e948b0" none,
    .drain true 3000, .retrieve "5f70bf18a086007016e948b0" none 4000 true]

theorem retrieves_right_of_smooth_storedThenDeleted :
    Trace.Meets (step oneHash) (RetrievesRight oneHash) init storedThenDeleted :=
  retrieves_right_of_smooth oneHash storedThenDeleted (by decide +kernel) (by decide +kernel)

/-- A deleted block is asked for before the queue has run. -/
def deletedThenRead : List Event :=
  [.store "text" none none 1000, .drain true 1500, .delete "5f70bf18a086007016e948b0" none,
    .retrieve "5f70bf18a086007016e948b0" none 2000 true]

/-- A block is stored again for a shorter time, and its entry expires. -/
def shortened : List Event :=
  [.store "text" none (some 3600) 1000, .drain true 1500, .store "text" none (some 60) 2000,
    .list none 100000, .drain true 100500, .retrieve "5f70bf18a086007016e948b0" none 120000 true]

/-- Both runs are as assumed, and the deleted block is returned, the promised one not. -/
theorem deletedThenRead_returns :
    Trace.Meets (step oneHash) (Assumed oneHash) init deletedThenRead ∧
      ¬Trace.Meets (step oneHash) (RetrievesRight oneHash) init deletedThenRead ∧
      Trace.Meets (step oneHash) (Assumed oneHash) init shortened ∧
      ¬Trace.Meets (step oneHash) (RetrievesRight oneHash) init shortened := by
  decide +kernel

end Ledger

end OmniRoute.CcrStore
