import OmniRoute.CcrStore.Blocks
import OmniRoute.Lib.Delimited
import OmniRoute.Lib.Trace

/-!
# Isolation and accounting of the CCR block store

The key of the map is the principal, a space and the hash. A principal may have a space in it, and
the hash a caller asks for may be any string, so the key of one principal's block can be asked
for by another: principal `a` with the hash `b h` asks for what principal `a b` has under `h`.

`History` keeps next to the store what each principal has stored.

**Main result (`isolated_and_accounted_iff`).** In every run the counters are right, the bounds
hold and a rejected store changes nothing; and every retrieve returns only what its principal
stored under the hash exactly when no retrieve meets another principal's entry under its key.
-/

namespace OmniRoute.CcrStore

/-- The store, and who stored which content in it. -/
structure History where
  state : State
  stored : List (String × String)

namespace History

def init : History := ⟨.init, []⟩

variable (env : Env)

/-- What an event stores, and for whom. -/
def newlyStored (s : State) : Event → List (String × String)
  | .store text principalId ttlSeconds now =>
    match (tryStoreBlock env text principalId ttlSeconds now s).1 with
    | .stored _ _ => [(ownerOf principalId, text)]
    | .rejected _ _ => []
  | _ => []

def step (h : History) (e : Event) : Option History :=
  some ⟨CcrStore.step env h.state e, h.stored ++ newlyStored env h.state e⟩

/-- A retrieve returns only content that its principal stored under the hash. -/
def Isolated (h : History) : Event → Prop
  | .retrieve hash principalId now diskReads =>
    ∀ content ∈ (retrieveBlock env hash principalId now diskReads h.state).1,
      (ownerOf principalId, content) ∈ h.stored ∧ env.hashContent content = hash
  | _ => True

instance (h : History) : DecidablePred (h.Isolated env)
  | .retrieve hash principalId now diskReads => inferInstanceAs <| Decidable
      (∀ content ∈ (retrieveBlock env hash principalId now diskReads h.state).1,
        (ownerOf principalId, content) ∈ h.stored ∧ env.hashContent content = hash)
  | .store .. | .inspect .. | .list .. | .delete .. | .drain .. => .isTrue trivial

/-- A rejected store leaves the entries that are not expired as they are. -/
def RejectionHarmless (h : History) : Event → Prop
  | .store text principalId ttlSeconds now => ∀ hash reason,
    (tryStoreBlock env text principalId ttlSeconds now h.state).1 = .rejected hash reason →
      (tryStoreBlock env text principalId ttlSeconds now h.state).2.ccrStore.entries =
        h.state.ccrStore.entries.filter fun p => decide (now < p.2.expiresAt)
  | _ => True

/-- A retrieve meets no unexpired entry of another principal under its key. -/
def MeetsOnlyOwn (h : History) : Event → Prop
  | .retrieve hash principalId now _ => ∀ entry,
    h.state.ccrStore.get (buildStoreKey hash (ownerOf principalId)) = some entry →
      now < entry.expiresAt → entry.principalId = ownerOf principalId
  | _ => True

/-- The block was stored by its principal, under the hash of its content. -/
def Genuine (stored : List (String × String)) (b : String × String × String × ℕ) : Prop :=
  (b.1, b.2.2.1) ∈ stored ∧ b.2.1 = env.hashContent b.2.2.1

/-- The invariant of all runs. -/
structure Sound (h : History) : Prop where
  accounted : Accounted h.state
  genuine : Holds (Genuine env h.stored) h.state

variable {env} {h h' : History}

theorem sound_init : Sound env init := ⟨accounted_init, holds_init⟩

variable {principalId : Option String}

/-- A block that is not too large is stored, whether it is held already or not. -/
theorem newlyStored_store {s : State} {text : String} (ttlSeconds : Option ℚ) (now : ℤ)
    (hacc : Accounted s) (hbytes : text.utf8ByteSize ≤ maxCcrBlockBytes) :
    newlyStored env s (.store text principalId ttlSeconds now) = [(ownerOf principalId, text)] := by
  have hstored : ∃ hash entry,
      (tryStoreBlock env text principalId ttlSeconds now s).1 = .stored hash entry := by
    simp only [tryStoreBlock]
    split
    · exact ⟨_, _, rfl⟩
    · rw [storeFresh_stored ttlSeconds now (accounted_purgeExpired env now hacc) hbytes]
      exact ⟨_, _, rfl⟩
  obtain ⟨hash, entry, heq⟩ := hstored
  simp only [newlyStored, heq]

theorem sound_step (e : Event) (hs : Sound env h) (hstep : h.step env e = some h') :
    Sound env h' := by
  simp only [step, Option.some.injEq] at hstep
  subst hstep
  refine ⟨accounted_step e hs.accounted, ?_⟩
  have hmono : Holds (Genuine env (h.stored ++ newlyStored env h.state e)) h.state :=
    hs.genuine.mono fun b hb => ⟨List.mem_append_left _ hb.1, hb.2⟩
  refine holds_step e hs.accounted hmono fun text principalId ttlSeconds now heq hbytes => ?_
  subst heq
  refine ⟨?_, rfl⟩
  rw [newlyStored_store ttlSeconds now hs.accounted hbytes]
  exact List.mem_append_right _ (List.mem_singleton.2 rfl)

/-! ## Retrieving -/

variable {hash : String}

/-- A retrieve that meets an unexpired entry returns its content. -/
theorem retrieveBlock_of_active {s : State} {now : ℤ} {entry : CcrEntry} (diskReads : Bool)
    (hget : s.ccrStore.get (buildStoreKey hash (ownerOf principalId)) = some entry)
    (hlive : now < entry.expiresAt) :
    (retrieveBlock env hash principalId now diskReads s).1 = some entry.content := by
  simp [retrieveBlock, getActiveEntry, hget, not_le.2 hlive]

theorem removeEntry_ccrBlocks {s : State} {key : String} (expired : Bool) :
    (removeEntry env key expired s).ccrBlocks = s.ccrBlocks := by
  rw [removeEntry]
  split
  · rfl
  · split
    · rw [forgetEntry, deferDurable]
      split
      · rfl
      · split <;> rfl
    · rfl

/-- The content of the unexpired row of a block. -/
def rowContent (s : State) (owner hash : String) (now : ℤ) : Option String :=
  ((s.ccrBlocks.get (owner, hash)).filter fun row => decide (now < row.expiresAt)).map (·.content)

theorem rehydrateEntry_content {s : State} {owner : String} {now : ℤ} {diskReads : Bool} :
    (rehydrateEntry env hash owner now diskReads s).1.map (·.content) =
      if env.durableTierEnabled = false ∨ diskReads = false then none
      else rowContent s owner hash now := by
  rw [rehydrateEntry]
  split
  · rfl
  · obtain ⟨row, hrow, hlive, hload⟩ | ⟨t, hload, hexpired, -⟩ :=
      loadCcrBlock_cases owner hash now s
    · rw [hload]
      simp [rowContent, hrow, hlive]
    · have hcontent : rowContent s owner hash now = none := by
        rw [rowContent, Option.map_eq_none_iff, Option.filter_eq_none_iff]
        exact fun row hrow => by simpa using hexpired row hrow
      rw [hcontent, hload]
      rfl

/-- Any other retrieve returns the content of the block's own row, if that is not expired. -/
theorem retrieveBlock_of_inactive {s : State} {now : ℤ} {diskReads : Bool}
    (hinactive : ∀ entry, s.ccrStore.get (buildStoreKey hash (ownerOf principalId)) = some entry →
      entry.expiresAt ≤ now) :
    (retrieveBlock env hash principalId now diskReads s).1 =
      if env.durableTierEnabled = false ∨ diskReads = false then none
      else rowContent s (ownerOf principalId) hash now := by
  cases hget : s.ccrStore.get (buildStoreKey hash (ownerOf principalId)) with
  | none => simp [retrieveBlock, getActiveEntry, hget, rehydrateEntry_content]
  | some entry =>
    have hexpired := hinactive entry hget
    simp [retrieveBlock, getActiveEntry, hget, hexpired, rehydrateEntry_content, rowContent,
      removeEntry_ccrBlocks]

theorem buildStoreKey_left_inj {owner owner' : String}
    (h : buildStoreKey hash owner = buildStoreKey hash owner') : owner = owner' := by
  have hlist := congrArg String.toList h
  simp only [buildStoreKey, String.toList_append, List.append_assoc] at hlist
  exact String.toList_inj.1 (List.append_cancel_right hlist)

theorem buildStoreKey_right_inj {hash' owner : String}
    (h : buildStoreKey hash owner = buildStoreKey hash' owner) : hash = hash' := by
  have hlist := congrArg String.toList h
  simp only [buildStoreKey, String.toList_append] at hlist
  exact String.toList_inj.1 (List.append_cancel_left hlist)

/-- A hash without a space tells principal and hash of a key apart. -/
theorem entry_of_key {s : State} {stored : List (String × String)} {owner : String}
    {entry : CcrEntry} (h : Holds (Genuine env stored) s) (hspace : ' ' ∉ hash.toList)
    (hget : s.ccrStore.get (buildStoreKey hash owner) = some entry) :
    entry.principalId = owner ∧ entry.hash = hash := by
  obtain ⟨hkey, -, hhash⟩ := h.entries _ entry hget
  have hentry : ' ' ∉ entry.hash.toList := by
    rw [show entry.hash = env.hashContent entry.content from hhash]
    exact env.hash_no_space entry.content
  have hlist := congrArg String.toList hkey
  simp only [buildStoreKey, String.toList_append, List.append_assoc] at hlist
  obtain ⟨howner, hsame⟩ := Delimited.append_sep_right hspace hentry hlist
  exact ⟨(String.toList_inj.1 howner).symm, (String.toList_inj.1 hsame).symm⟩

/-- The retrieve returns only its principal's blocks exactly when it meets none of another's. -/
theorem isolated_iff_meetsOnlyOwn (e : Event) (hs : Sound env h) :
    h.Isolated env e ↔ h.MeetsOnlyOwn e := by
  cases e with
  | retrieve hash principalId now diskReads =>
    constructor
    · intro hisolated entry hget hlive
      obtain ⟨-, hhash⟩ := hisolated _ (retrieveBlock_of_active diskReads hget hlive)
      obtain ⟨hkey, -, hown⟩ := hs.genuine.entries _ entry hget
      -- The content's hash is the hash asked for, so the rest of the key is the principal.
      have hsame : entry.hash = hash := hown.trans hhash
      rw [hsame] at hkey
      exact (buildStoreKey_left_inj hkey).symm
    · intro hown content hcontent
      by_cases hactive : ∃ entry,
          h.state.ccrStore.get (buildStoreKey hash (ownerOf principalId)) = some entry ∧
            now < entry.expiresAt
      · obtain ⟨entry, hget, hlive⟩ := hactive
        have hprincipal := hown entry hget hlive
        obtain ⟨hkey, hstored, hhash⟩ := hs.genuine.entries _ entry hget
        rw [retrieveBlock_of_active diskReads hget hlive] at hcontent
        cases hcontent
        rw [← hprincipal] at hkey ⊢
        exact ⟨hstored, hhash.symm.trans (buildStoreKey_right_inj hkey).symm⟩
      · have hinactive : ∀ entry,
            h.state.ccrStore.get (buildStoreKey hash (ownerOf principalId)) = some entry →
              entry.expiresAt ≤ now :=
          fun entry hget => not_lt.1 fun hlive => hactive ⟨entry, hget, hlive⟩
        rw [retrieveBlock_of_inactive hinactive] at hcontent
        split at hcontent
        · cases hcontent
        · obtain ⟨row, hrow, rfl⟩ := Option.map_eq_some_iff.1 hcontent
          obtain ⟨hget, -⟩ := Option.filter_eq_some_iff.1 hrow
          obtain ⟨hprincipal, hkey, hstored, hhash⟩ := hs.genuine.rows _ _ row hget
          exact ⟨hprincipal ▸ hstored, hhash.symm.trans hkey⟩
  | _ => exact Iff.rfl

theorem rejectionHarmless (e : Event) (hacc : Accounted h.state) : h.RejectionHarmless env e := by
  cases e with
  | store text principalId ttlSeconds now =>
    intro hash reason hrejected
    have hpurge := accounted_purgeExpired env now hacc
    rw [← @purgeExpired_entries env]
    simp only [tryStoreBlock] at hrejected ⊢
    cases hget : (purgeExpired env now h.state).ccrStore.get
        (buildStoreKey (env.hashContent text) (ownerOf principalId)) with
    | some existing =>
      simp only [hget] at hrejected
      cases hrejected
    | none =>
      simp only [hget] at hrejected ⊢
      rw [storeFresh_rejected hpurge hrejected]
  | _ => trivial

/-! ## Whole runs -/

/-- In every run the counters are the sums over the entries held, the bounds hold and a rejected
store leaves the unexpired entries alone; and every retrieve returns only what its own principal
stored under the hash, if and only if no retrieve meets an unexpired entry of another principal
under the key made of its principal and hash. -/
theorem isolated_and_accounted_iff (env : Env) (events : List Event) :
    (Trace.Meets (step env) (Isolated env) init events ∧
      Trace.Throughout (step env) (fun h => Accounted h.state) init events ∧
      Trace.Meets (step env) (RejectionHarmless env) init events) ↔
    Trace.Meets (step env) MeetsOnlyOwn init events := by
  have hiff : Trace.Meets (step env) (Isolated env) init events ↔
      Trace.Meets (step env) MeetsOnlyOwn init events :=
    Trace.meets_congr (fun _ e _ hs hstep => sound_step e hs hstep)
      (fun _ e _ hs _ => isolated_iff_meetsOnlyOwn e hs) events sound_init
  have hacc : Trace.Throughout (step env) (fun h => Accounted h.state) init events :=
    (Trace.throughout_of_invariant (fun _ e _ hs hstep => sound_step e hs hstep) events
      sound_init).mono fun _ hs => hs.accounted
  have hrejected : Trace.Meets (step env) (RejectionHarmless env) init events :=
    Trace.meets_of_invariant (fun _ e _ hs hstep => sound_step e hs hstep)
      (fun _ e hs => rejectionHarmless e hs.accounted) events sound_init
  exact ⟨fun ⟨hisolated, _, _⟩ => hiff.1 hisolated,
    fun hown => ⟨hiff.2 hown, hacc, hrejected⟩⟩

/-- The hash asked for has no space. -/
def PlainHash : Event → Prop
  | .retrieve hash _ _ _ => ' ' ∉ hash.toList
  | _ => True

/-- In every run a retrieve for a hash without a space returns only what its own principal stored
under the hash, whatever the other retrieves ask for and whatever the principals are called. -/
theorem isolated_of_plainHash (env : Env) (events : List Event) :
    Trace.Meets (step env) (fun h e => PlainHash e → Isolated env h e) init events := by
  have hplain : ∀ h e, Sound env h → PlainHash e → Isolated env h e := by
    intro h e hs hspace
    refine (isolated_iff_meetsOnlyOwn e hs).2 ?_
    cases e with
    | retrieve hash principalId now diskReads =>
      exact fun entry hget _ => (entry_of_key hs.genuine hspace hget).1
    | _ => trivial
  exact Trace.meets_of_invariant (fun _ e _ hs hstep => sound_step e hs hstep) hplain events
    sound_init

theorem space_not_in_hash : ' ' ∉ "5f70bf18a086007016e948b0".toList := by decide

/-- An environment in which all blocks have the same hash. -/
def oneHash : Env where
  hashContent _ := "5f70bf18a086007016e948b0"
  hash_no_space _ := space_not_in_hash
  durableTierEnabled := true

/-- Principal `a b` stores a block, and principal `a` asks for it. -/
def foreignRetrieve : List Event :=
  [.store "secret" (some "a b") none 1000,
    .retrieve "b 5f70bf18a086007016e948b0" (some "a") 2000 true]

theorem foreignRetrieve_leaks :
    ¬Trace.Meets (step oneHash) (Isolated oneHash) init foreignRetrieve := by
  decide +kernel

end History

end OmniRoute.CcrStore
