import OmniRoute.TokenRefresh.Rotation

/-!
# The guarded persist

`open-sse/services/tokenRefresh/casGuard.ts`: before a refreshed token is stored, the row is read
again, and nothing is stored if it no longer holds the token the caller presented.

A token is the number under which it was issued. Other writers issue a token and store it, at any
time: before the call reads the row, before its refresh, before it rereads the row and before it
stores. The upstream honours the token issued last only.

**Main result (`keepsNewest_iff`).** The row ends with the newest token, unless the refresh used
the token of the row instead of the presented one, so that the guard takes the row for rotated, or
another writer comes in between the guard and the store.
-/

namespace OmniRoute.TokenRefresh

/-- Tokens that are not empty and differ. -/
def wasRefreshTokenRotated {τ : Type} [DecidableEq τ] (attempted latest : Option τ) : Bool :=
  match attempted, latest with
  | some attempted, some latest => decide (latest ≠ attempted)
  | _, _ => false

/-- The guard of a caller that presented `expected`, with the row it rereads. -/
def casGuardShouldSkipPersist {τ : Type} [DecidableEq τ] (expected current : Option τ) : Bool :=
  wasRefreshTokenRotated expected current

/-- The row, and the number of the token issued last. -/
structure Db where
  row : Row ℕ
  issued : ℕ

/-- A rotation that another writer stores. -/
structure Rotation where
  access : ℕ
  expiresAt : Option ℤ

namespace Db

def write (db : Db) (rotation : Rotation) : Db where
  row := ⟨⟨rotation.access, db.issued + 1⟩, rotation.expiresAt⟩
  issued := db.issued + 1

/-- The upstream issues a token, which is not stored yet. -/
def issue (db : Db) : Db := { db with issued := db.issued + 1 }

def writes (db : Db) (rotations : List Rotation) : Db := rotations.foldl write db

end Db

/-- What the rest of the world does during one call. -/
structure World where
  /-- When the rotation map is looked up, and when the row is compared. -/
  lookupAt : ℤ
  comparedAt : ℤ
  beforeRead : List Rotation
  beforeRefresh : List Rotation
  beforeReread : List Rotation
  beforePersist : List Rotation
  /-- The refresh is answered, if the token is honoured. -/
  answers : Bool
  /-- The access token it is answered with, and the expiry that is stored. -/
  fresh : Rotation

/-- How a call ends: the row, and what was stored over which token. -/
structure Outcome where
  db : Db
  stored : Option (ℕ × ℕ)

/-- `_getAccessTokenWithStalenessCheck`: the tokens to return, and the row by then. -/
def fetch (rotations : OrdMap ℕ (RotationEntry ℕ)) (db : Db) (presented : ℕ) (world : World) :
    Option (Tokens ℕ) × Db :=
  let read := db.writes world.beforeRead
  let later := read.writes world.beforeRefresh
  match lookupRotation rotations world.lookupAt presented with
  | some entry => (some entry.result, later)
  | none =>
    match stalenessCheck read.row world.comparedAt presented with
    | .valid tokens => (some tokens, later)
    | .refresh token =>
      if world.answers ∧ token = later.issued then
        (some ⟨world.fresh.access, later.issued + 1⟩, later.issue)
      else (none, later)

/-- The closure of the connection's mutex, under a guard for the presented token. -/
def guardedCall (rotations : OrdMap ℕ (RotationEntry ℕ)) (db : Db) (presented : ℕ)
    (world : World) : Outcome :=
  let (result, fetched) := fetch rotations db presented world
  let reread := fetched.writes world.beforeReread
  let last := reread.writes world.beforePersist
  match result with
  | none => ⟨last, none⟩
  | some tokens =>
    if casGuardShouldSkipPersist (some presented) (some reread.row.tokens.refresh) then
      ⟨last, none⟩
    else
      ⟨{ last with row := ⟨tokens, world.fresh.expiresAt⟩ },
        some (last.row.tokens.refresh, tokens.refresh)⟩

/-! ## Foreign writes -/

/-- The row holds the token issued last. -/
def Db.Current (db : Db) : Prop := db.row.tokens.refresh = db.issued

instance (db : Db) : Decidable db.Current :=
  inferInstanceAs (Decidable (db.row.tokens.refresh = db.issued))

variable {db : Db}

theorem current_writes (h : db.Current) (rotations : List Rotation) :
    (db.writes rotations).Current := by
  induction rotations generalizing db with
  | nil => exact h
  | cons rotation rotations ih =>
    have hwritten : (db.write rotation).Current := rfl
    exact ih hwritten

theorem issued_writes (db : Db) (rotations : List Rotation) :
    (db.writes rotations).issued = db.issued + rotations.length := by
  induction rotations generalizing db with
  | nil => rfl
  | cons rotation rotations ih =>
    calc
      (db.writes (rotation :: rotations)).issued = db.issued + 1 + rotations.length := ih _
      _ = db.issued + (rotation :: rotations).length := by
        rw [List.length_cons]
        omega

/-- Any write makes the row current. -/
theorem current_of_ne_nil {rotations : List Rotation} (h : rotations ≠ []) (db : Db) :
    (db.writes rotations).Current := by
  cases rotations with
  | nil => exact absurd rfl h
  | cons rotation rotations =>
    have hwritten : (db.write rotation).Current := rfl
    exact current_writes hwritten rotations

/-- Writes never bring back an older token. -/
theorem refresh_le_writes (h : db.row.tokens.refresh ≤ db.issued) (rotations : List Rotation) :
    db.row.tokens.refresh ≤ (db.writes rotations).row.tokens.refresh := by
  by_cases hnil : rotations = []
  · rw [hnil]
    exact le_rfl
  · rw [current_of_ne_nil hnil db, issued_writes]
    omega

/-! ## The newest token -/

/-- A call starts with a row that holds the newest token, a token that was issued, and rotations of
tokens that have been exchanged. -/
structure Start (rotations : OrdMap ℕ (RotationEntry ℕ)) (db : Db) (presented : ℕ) : Prop where
  current : db.Current
  issued : presented ≤ db.issued
  exchanged : ∀ token ∈ rotations.keys, token < db.issued

/-- Nothing is stored over a newer token, and the row ends with the newest one. -/
structure KeepsNewest (outcome : Outcome) : Prop where
  monotone : ∀ p, outcome.stored = some p → p.1 ≤ p.2
  newest : outcome.db.Current

/-- The refresh uses the token of the row, which is not the presented one, and no other writer
comes after that. -/
structure LosesRotation (rotations : OrdMap ℕ (RotationEntry ℕ)) (db : Db) (presented : ℕ)
    (world : World) : Prop where
  unmapped : lookupRotation rotations world.lookupAt presented = none
  stale : (db.writes world.beforeRead).row.tokens.refresh ≠ presented
  expired : (db.writes world.beforeRead).row.expiresAt.getD 0 ≤ world.comparedAt + 60000
  answers : world.answers = true
  alone : world.beforeRefresh = [] ∧ world.beforeReread = [] ∧ world.beforePersist = []

/-- The presented token is refreshed, and another writer comes after the guard only. -/
structure Overtaken (rotations : OrdMap ℕ (RotationEntry ℕ)) (db : Db) (presented : ℕ)
    (world : World) : Prop where
  unmapped : lookupRotation rotations world.lookupAt presented = none
  fresh : (db.writes world.beforeRead).row.tokens.refresh = presented
  answers : world.answers = true
  alone : world.beforeRefresh = [] ∧ world.beforeReread = []
  late : world.beforePersist ≠ []

variable {rotations : OrdMap ℕ (RotationEntry ℕ)}

theorem guardedCall_none {presented : ℕ} {world : World} {fetched : Db}
    (h : fetch rotations db presented world = (none, fetched)) :
    guardedCall rotations db presented world =
      ⟨(fetched.writes world.beforeReread).writes world.beforePersist, none⟩ := by
  rw [guardedCall, h]

theorem guardedCall_some {presented : ℕ} {world : World} {tokens : Tokens ℕ} {fetched : Db}
    (h : fetch rotations db presented world = (some tokens, fetched)) :
    guardedCall rotations db presented world =
      if (fetched.writes world.beforeReread).row.tokens.refresh = presented then
        ⟨{ (fetched.writes world.beforeReread).writes world.beforePersist with
            row := ⟨tokens, world.fresh.expiresAt⟩ },
          some (((fetched.writes world.beforeReread).writes world.beforePersist).row.tokens.refresh,
            tokens.refresh)⟩
      else ⟨(fetched.writes world.beforeReread).writes world.beforePersist, none⟩ := by
  rw [guardedCall, h]
  by_cases hsame : (fetched.writes world.beforeReread).row.tokens.refresh = presented
  · simp [casGuardShouldSkipPersist, wasRefreshTokenRotated, hsame]
  · simp [casGuardShouldSkipPersist, wasRefreshTokenRotated, hsame]

theorem keepsNewest_skip (h : db.Current) : KeepsNewest ⟨db, none⟩ where
  monotone := by
    rintro p ⟨⟩
  newest := h

/-- A call that ends with the guard skipping, or without a result, leaves the row to the writers. -/
theorem guardedCall_skips {presented : ℕ} {world : World} {result : Option (Tokens ℕ)}
    {fetched : Db} (h : fetch rotations db presented world = (result, fetched))
    (hskip : result = none ∨ (fetched.writes world.beforeReread).row.tokens.refresh ≠ presented) :
    guardedCall rotations db presented world =
      ⟨(fetched.writes world.beforeReread).writes world.beforePersist, none⟩ := by
  cases result with
  | none => exact guardedCall_none h
  | some tokens =>
    rw [guardedCall_some h]
    exact if_neg (hskip.resolve_left (by simp))

/-- The row, after the refresh of its own token. -/
theorem writes_taken (h : db.Current) (rotations : List Rotation) :
    (db.issue.writes rotations).Current ↔ rotations ≠ [] := by
  constructor
  · rintro hcurrent rfl
    have hrow : db.row.tokens.refresh = db.issued + 1 := hcurrent
    rw [h] at hrow
    omega
  · exact fun hne => current_of_ne_nil hne _

theorem writes_append (db : Db) (first second : List Rotation) :
    (db.writes first).writes second = db.writes (first ++ second) :=
  (List.foldl_append ..).symm

section Cases

variable {rotations : OrdMap ℕ (RotationEntry ℕ)} {db : Db} {presented : ℕ} {world : World}

section

variable (hstart : Start rotations db presented)
include hstart

/-- A rotation map hit is never stored: the row has moved past the presented token. -/
theorem keepsNewest_of_hit {entry : RotationEntry ℕ}
    (hhit : lookupRotation rotations world.lookupAt presented = some entry) :
    KeepsNewest (guardedCall rotations db presented world) := by
  have hkey : presented ∈ rotations.keys := OrdMap.mem_keys.2 ⟨entry, (Connection.get_cleanup hhit).1⟩
  have hold : presented < db.issued := hstart.exchanged presented hkey
  have hfetch : fetch rotations db presented world =
      (some entry.result, (db.writes world.beforeRead).writes world.beforeRefresh) := by
    rw [fetch, hhit]
  have hlater : ((db.writes world.beforeRead).writes world.beforeRefresh).Current :=
    current_writes (current_writes hstart.current _) _
  have hreread := current_writes hlater world.beforeReread
  rw [guardedCall_skips hfetch (Or.inr ?_)]
  · exact keepsNewest_skip (current_writes hreread _)
  · rw [hreread, issued_writes, issued_writes, issued_writes]
    omega

/-- A presented token that the row has moved past. -/
theorem keepsNewest_of_stale (hmiss : lookupRotation rotations world.lookupAt presented = none)
    (hstale : (db.writes world.beforeRead).row.tokens.refresh ≠ presented) :
    KeepsNewest (guardedCall rotations db presented world) ↔
      ¬ LosesRotation rotations db presented world := by
  have hread : (db.writes world.beforeRead).Current := current_writes hstart.current _
  have hpast : presented < (db.writes world.beforeRead).row.tokens.refresh := by
    have hissued := hstart.issued
    have hgrown := issued_writes db world.beforeRead
    rw [hread] at hstale ⊢
    omega
  generalize hdb : db.writes world.beforeRead = read at hread hpast hstale
  set later := read.writes world.beforeRefresh with hdef
  have hlater : later.Current := current_writes hread _
  have hlaterPast : presented < later.row.tokens.refresh :=
    hpast.trans_le (refresh_le_writes hread.le _)
  by_cases hvalid : world.comparedAt + 60000 < read.row.expiresAt.getD 0
  · have hfetch : fetch rotations db presented world =
        (some read.row.tokens, later) := by
      simp only [fetch, hmiss, hdb, ← hdef, stalenessCheck, if_pos hstale, if_pos hvalid]
    have hmoved := refresh_le_writes hlater.le world.beforeReread
    rw [guardedCall_skips hfetch (Or.inr (by omega))]
    refine iff_of_true (keepsNewest_skip (current_writes (current_writes hlater _) _)) ?_
    intro h
    have hexpired := h.expired
    rw [hdb] at hexpired
    omega
  by_cases hhonoured : world.answers = true ∧
      read.row.tokens.refresh = later.issued
  · have hfetch : fetch rotations db presented world =
        (some ⟨world.fresh.access, later.issued + 1⟩,
          later.issue) := by
      simp only [fetch, hmiss, hdb, ← hdef, stalenessCheck, if_pos hstale, if_neg hvalid,
        if_pos hhonoured]
    have hnil : world.beforeRefresh = [] := by
      have hsame := hhonoured.2
      rw [hread, issued_writes] at hsame
      exact List.length_eq_zero_iff.1 (by omega)
    have hissued : later.issue.row.tokens.refresh ≤
        later.issue.issued := hlater.le.trans (Nat.le_succ _)
    have hmoved := refresh_le_writes hissued world.beforeReread
    rw [guardedCall_skips hfetch (Or.inr (ne_of_gt (hlaterPast.trans_le hmoved))), writes_append]
    have hcurrent := writes_taken hlater (world.beforeReread ++ world.beforePersist)
    constructor
    · intro h hloses
      obtain ⟨-, hreread, hpersist⟩ := hloses.alone
      exact hcurrent.1 h.newest (by rw [hreread, hpersist]; rfl)
    · intro h
      refine keepsNewest_skip (hcurrent.2 fun hnone => h ?_)
      obtain ⟨hreread, hpersist⟩ := List.append_eq_nil_iff.1 hnone
      exact ⟨hmiss, by rw [hdb]; exact hstale, by rw [hdb]; exact Int.not_lt.1 hvalid, hhonoured.1,
        hnil, hreread, hpersist⟩
  · have hfetch : fetch rotations db presented world =
        (none, later) := by
      simp only [fetch, hmiss, hdb, ← hdef, stalenessCheck, if_pos hstale, if_neg hvalid,
        if_neg hhonoured]
    rw [guardedCall_skips hfetch (Or.inl rfl)]
    refine iff_of_true (keepsNewest_skip (current_writes (current_writes hlater _) _)) ?_
    intro h
    refine hhonoured ⟨h.answers, ?_⟩
    rw [hdef, h.alone.1]
    exact hread

/-- A presented token that is the token of the row. -/
theorem keepsNewest_of_fresh (hmiss : lookupRotation rotations world.lookupAt presented = none)
    (hfresh : (db.writes world.beforeRead).row.tokens.refresh = presented) :
    KeepsNewest (guardedCall rotations db presented world) ↔
      ¬ Overtaken rotations db presented world := by
  have hread : (db.writes world.beforeRead).Current := current_writes hstart.current _
  generalize hdb : db.writes world.beforeRead = read at hread hfresh
  have hlater : (read.writes world.beforeRefresh).Current := current_writes hread _
  by_cases hhonoured : world.answers = true ∧
      presented = (read.writes world.beforeRefresh).issued
  · have hnil : world.beforeRefresh = [] := by
      have hsame := hhonoured.2
      rw [← hfresh, hread, issued_writes] at hsame
      exact List.length_eq_zero_iff.1 (by omega)
    have hfetch : fetch rotations db presented world =
        (some ⟨world.fresh.access, read.issued + 1⟩, read.issue) := by
      simp only [fetch, hmiss, hdb, stalenessCheck, hfresh, ne_eq, not_true, if_false,
        if_pos hhonoured]
      rw [hnil]
      rfl
    by_cases hreread : world.beforeReread = []
    · have hstored : (read.issue.writes world.beforeReread).row.tokens.refresh = presented := by
        rw [hreread]
        exact hfresh
      rw [guardedCall_some hfetch, if_pos hstored, hreread]
      dsimp only [Db.writes, List.foldl_nil]
      by_cases hpersist : world.beforePersist = []
      · rw [hpersist]
        refine iff_of_true ⟨?_, rfl⟩ fun h => h.late hpersist
        rintro p ⟨⟩
        exact hread.le.trans (Nat.le_succ _)
      · refine iff_of_false ?_ (not_not.2 ⟨hmiss, by rw [hdb]; exact hfresh, hhonoured.1,
          ⟨hnil, hreread⟩, hpersist⟩)
        intro h
        have hmonotone := h.monotone _ rfl
        have hlast := current_of_ne_nil hpersist read.issue
        have hgrown : (read.issue.writes world.beforePersist).issued =
            read.issued + 1 + world.beforePersist.length := issued_writes _ _
        have hsome := List.length_pos_iff.2 hpersist
        rw [Db.Current, hgrown] at hlast
        simp only [Db.writes] at hlast
        rw [hlast] at hmonotone
        omega
    · have hcurrent := current_of_ne_nil hreread read.issue
      have hgrown : (read.issue.writes world.beforeReread).issued =
          read.issued + 1 + world.beforeReread.length := issued_writes _ _
      rw [guardedCall_skips hfetch (Or.inr ?_)]
      · exact iff_of_true (keepsNewest_skip (current_writes hcurrent _)) fun h => hreread h.alone.2
      · rw [hcurrent, hgrown, ← hfresh, hread]
        omega
  · have hfetch : fetch rotations db presented world =
        (none, read.writes world.beforeRefresh) := by
      simp only [fetch, hmiss, hdb, stalenessCheck, hfresh, ne_eq, not_true, if_false,
        if_neg hhonoured]
    rw [guardedCall_skips hfetch (Or.inl rfl)]
    refine iff_of_true (keepsNewest_skip (current_writes (current_writes hlater _) _)) ?_
    intro h
    refine hhonoured ⟨h.answers, ?_⟩
    rw [h.alone.1, ← hfresh]
    exact hread

end

end Cases

/-- A guarded call keeps the newest token, unless its own rotation is lost or another writer is
overwritten. -/
theorem keepsNewest_iff {rotations : OrdMap ℕ (RotationEntry ℕ)} {db : Db} {presented : ℕ}
    (hstart : Start rotations db presented) (world : World) :
    KeepsNewest (guardedCall rotations db presented world) ↔
      ¬ LosesRotation rotations db presented world ∧ ¬ Overtaken rotations db presented world := by
  cases hlookup : lookupRotation rotations world.lookupAt presented with
  | some entry =>
    refine iff_of_true (keepsNewest_of_hit hstart hlookup) ⟨fun h => ?_, fun h => ?_⟩
    · exact absurd h.unmapped (by simp [hlookup])
    · exact absurd h.unmapped (by simp [hlookup])
  | none =>
    by_cases hfresh : (db.writes world.beforeRead).row.tokens.refresh = presented
    · rw [keepsNewest_of_fresh hstart hlookup hfresh]
      exact ⟨fun h => ⟨fun hloses => hloses.stale hfresh, h⟩, fun h => h.2⟩
    · rw [keepsNewest_of_stale hstart hlookup hfresh]
      exact ⟨fun h => ⟨h, fun hover => hfresh hover.fresh⟩, fun h => h.1⟩

/-- The row holds token 1, which is about to expire; the presented token is 0. -/
def rotatedOnce : Db := ⟨⟨⟨1, 1⟩, some 0⟩, 1⟩

/-- Nobody else writes, and the refresh is answered. -/
def quietWorld : World := ⟨0, 0, [], [], [], [], true, ⟨2, none⟩⟩

theorem rotatedOnce_start (presented : ℕ) (h : presented ≤ 1) :
    Start .empty rotatedOnce presented :=
  ⟨rfl, h, fun _ hkey => absurd hkey List.not_mem_nil⟩

/-- The refresh consumes token 1, the token of the row, and its result is not stored. -/
theorem rotation_lost : ¬ ∀ (rotations : OrdMap ℕ (RotationEntry ℕ)) (db : Db) (presented : ℕ)
    (world : World), Start rotations db presented →
    KeepsNewest (guardedCall rotations db presented world) := by
  intro h
  have hnewest := (h .empty rotatedOnce 0 quietWorld (rotatedOnce_start 0 (by decide))).newest
  exact absurd hnewest (by decide)

/-- With the token of the row presented, the rotation is stored. -/
theorem keepsNewest_iff_rotatedOnce : KeepsNewest (guardedCall .empty rotatedOnce 1 quietWorld) :=
  (keepsNewest_iff (rotatedOnce_start 1 le_rfl) quietWorld).2
    ⟨fun h => h.stale rfl, fun h => h.late rfl⟩

end OmniRoute.TokenRefresh
