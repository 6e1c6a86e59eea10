import OmniRoute.Lib.OrdMap
import OmniRoute.Lib.Trace

/-!
# Rotating refresh tokens

`open-sse/services/tokenRefresh.ts` and `tokenRefresh/rotationMap.ts`: a refresh consumes the
refresh token it presents and issues another one. The calls for one connection share one flight,
which looks the presented token up among the recent rotations, compares it with the row, refreshes,
and stores what it returns.

The key of a rotation, a hash of the old token, is the old token. Next to what the code keeps, a
connection knows the tokens that were issued, the newest of them, and the exchanges.

**Main result (`newest_kept`).** A consumed token is presented by no refresh, and every call
returns and stores the newest tokens, in runs where a token that starts a flight within a minute of
its exchange is the one exchanged last, and where a row that cannot be read meets a token that is
not consumed. The rotation map answers with the direct successor of a token, and that is stored.
-/

namespace OmniRoute.TokenRefresh

open Option

structure Tokens (τ : Type) where
  access : τ
  refresh : τ
  deriving DecidableEq

/-- The columns of `provider_connections` that a refresh reads and writes. -/
structure Row (τ : Type) where
  tokens : Tokens τ
  expiresAt : Option ℤ

structure RotationEntry (τ : Type) where
  result : Tokens τ
  expiresAt : ℤ

/-- `ROTATION_MAP_TTL_MS` -/
def rotationMapTtlMs : ℤ := 60000

section Map

variable {τ : Type} [DecidableEq τ]

def cleanupRotationMap (map : OrdMap τ (RotationEntry τ)) (now : ℤ) : OrdMap τ (RotationEntry τ) :=
  map.filter fun p => decide (now < p.2.expiresAt)

/-- The entry for a token that has not expired, in the map that was cleaned up. -/
def lookupRotation (map : OrdMap τ (RotationEntry τ)) (now : ℤ) (refreshToken : τ) :
    Option (RotationEntry τ) :=
  (cleanupRotationMap map now).get refreshToken

def recordRotation (map : OrdMap τ (RotationEntry τ)) (now : ℤ) (oldRefreshToken : τ)
    (result : Tokens τ) : OrdMap τ (RotationEntry τ) :=
  if oldRefreshToken = result.refresh then map
  else map.set oldRefreshToken ⟨result, now + rotationMapTtlMs⟩

/-- What the comparison with the row decides: to return its tokens, or to refresh with a token. -/
inductive Staleness (τ : Type)
  | valid (tokens : Tokens τ)
  | refresh (refreshToken : τ)

/-- The check of `_getAccessTokenWithStalenessCheck` against the row it read. -/
def stalenessCheck (row : Row τ) (now : ℤ) (refreshToken : τ) : Staleness τ :=
  if row.tokens.refresh ≠ refreshToken then
    if now + 60000 < row.expiresAt.getD 0 then .valid row.tokens
    else .refresh row.tokens.refresh
  else .refresh refreshToken

end Map

/-! ## The calls of one connection -/

/-- How far the shared call of a connection has come. -/
inductive Flight (τ : Type)
  /-- It is about to read the row. -/
  | reading (refreshToken : τ)
  /-- It has sent the token upstream. -/
  | refreshing (refreshToken : τ)
  /-- It is about to store its result. -/
  | persisting (result : Tokens τ)
  deriving DecidableEq

structure Connection (τ : Type) where
  now : ℤ
  row : Row τ
  rotations : OrdMap τ (RotationEntry τ)
  flight : Option (Flight τ)
  newest : Tokens τ
  issued : List τ
  /-- The tokens that were consumed and when, the last one first. -/
  exchanges : List (τ × ℤ)

inductive RefreshEvent (τ : Type)
  /-- The clock shows another time. -/
  | clock (now : ℤ)
  /-- A caller presents a refresh token. -/
  | call (refreshToken : τ)
  /-- The row is read, or reading it throws. -/
  | read (ok : Bool)
  /-- The upstream answers with new tokens, or with an error. -/
  | reply (result : Option (Tokens τ))
  /-- The result is stored, and the call returns. -/
  | persist (expiresAt : Option ℤ)

namespace Connection

variable {τ : Type} [DecidableEq τ]

/-- A connection whose first tokens were just stored. -/
def new (tokens : Tokens τ) (expiresAt : Option ℤ) (now : ℤ) : Connection τ where
  now
  row := ⟨tokens, expiresAt⟩
  rotations := .empty
  flight := none
  newest := tokens
  issued := [tokens.refresh]
  exchanges := []

omit [DecidableEq τ] in
/-- The refresh tokens that a successful refresh has used. -/
def consumed (s : Connection τ) : List τ := s.exchanges.map Prod.fst

/-- `none` when the event cannot happen: a caller knows only tokens that were issued, and the
upstream issues new ones. A call during a flight waits for its result. -/
def step (s : Connection τ) : RefreshEvent τ → Option (Connection τ)
  | .clock now => some { s with now }
  | .call refreshToken =>
    if refreshToken ∉ s.issued then none
    else
      match s.flight with
      | some _ => some s
      | none =>
        let flight := match lookupRotation s.rotations s.now refreshToken with
          | some entry => .persisting entry.result
          | none => .reading refreshToken
        some { s with
          rotations := cleanupRotationMap s.rotations s.now
          flight := some flight }
  | .read ok =>
    match s.flight with
    | some (.reading refreshToken) =>
      let flight := if ok then
          match stalenessCheck s.row s.now refreshToken with
          | .valid tokens => .persisting tokens
          | .refresh token => .refreshing token
        else .refreshing refreshToken
      some { s with flight := some flight }
    | _ => none
  | .reply result =>
    match s.flight with
    | some (.refreshing refreshToken) =>
      match result with
      | none => some { s with flight := none }
      | some result =>
        if result.refresh ∈ s.issued then none
        else
          some { s with
            rotations := recordRotation s.rotations s.now refreshToken result
            flight := some (.persisting result)
            newest := result
            issued := result.refresh :: s.issued
            exchanges := (refreshToken, s.now) :: s.exchanges }
    | _ => none
  | .persist expiresAt =>
    match s.flight with
    | some (.persisting result) => some { s with row := ⟨result, expiresAt⟩, flight := none }
    | _ => none

/-- A refresh presents a token that is not consumed; a call returns the newest tokens and leaves
them in the row. -/
def Right (s : Connection τ) : RefreshEvent τ → Prop
  | .reply _ => ∀ refreshToken, s.flight = some (.refreshing refreshToken) →
      refreshToken ∉ s.consumed
  | .persist expiresAt => ∀ t, s.step (.persist expiresAt) = some t →
      s.flight = some (.persisting s.newest) ∧ t.row.tokens = t.newest
  | _ => True

/-- A token that starts a flight within a minute of its exchange is the one exchanged last; a token
that cannot be compared with the row is not consumed. -/
def Timely (s : Connection τ) : RefreshEvent τ → Prop
  | .call refreshToken => s.flight = none →
      ∀ x ∈ s.exchanges.tail, x.1 = refreshToken → x.2 + rotationMapTtlMs ≤ s.now
  | .read false =>
    match s.flight with
    | some (.reading refreshToken) => refreshToken ∉ s.consumed
    | _ => True
  | _ => True

instance (s : Connection τ) (e : RefreshEvent τ) : Decidable (s.Timely e) :=
  match e with
  | .clock _ | .read true | .reply _ | .persist _ => .isTrue trivial
  | .call token => inferInstanceAs (Decidable (s.flight = none →
      ∀ x ∈ s.exchanges.tail, x.1 = token → x.2 + rotationMapTtlMs ≤ s.now))
  | .read false =>
    match h : s.flight with
    | some (.reading token) => decidable_of_iff (token ∉ s.consumed) (by simp [Timely, h])
    | some (.refreshing _) | some (.persisting _) | none => .isTrue (by simp [Timely, h])

/-! ## The newest tokens -/

/-- What a timely run keeps. -/
structure Sound (s : Connection τ) : Prop where
  stored : (∀ result, s.flight ≠ some (.persisting result)) → s.row.tokens = s.newest
  reading : ∀ refreshToken, s.flight = some (.reading refreshToken) → refreshToken ∈ s.issued
  refreshing : ∀ refreshToken, s.flight = some (.refreshing refreshToken) →
    refreshToken = s.newest.refresh
  persisting : ∀ result, s.flight = some (.persisting result) → result = s.newest
  issued_iff : ∀ token, token ∈ s.issued ↔ token = s.newest.refresh ∨ token ∈ s.consumed
  fresh : s.newest.refresh ∉ s.consumed
  rotations : ∀ token entry, s.rotations.get token = some entry →
    ∃ x ∈ s.exchanges, x.1 = token ∧ entry.expiresAt = x.2 + rotationMapTtlMs ∧
      (entry.result = s.newest ∨ x ∈ s.exchanges.tail)

theorem Sound.new (tokens : Tokens τ) (expiresAt : Option ℤ) (now : ℤ) :
    Sound (new tokens expiresAt now) where
  stored := fun _ => rfl
  reading := by
    rintro _ ⟨⟩
  refreshing := by
    rintro _ ⟨⟩
  persisting := by
    rintro _ ⟨⟩
  issued_iff := fun token => by simp [Connection.new, consumed]
  fresh := List.not_mem_nil
  rotations := by
    rintro _ _ ⟨⟩

theorem get_cleanup {map : OrdMap τ (RotationEntry τ)} {now : ℤ} {token : τ}
    {entry : RotationEntry τ} (h : (cleanupRotationMap map now).get token = some entry) :
    map.get token = some entry ∧ now < entry.expiresAt := by
  rw [cleanupRotationMap, OrdMap.get_filter, Option.filter_eq_some_iff] at h
  exact ⟨h.1, of_decide_eq_true h.2⟩

variable {s : Connection τ}

/-- A rotation that has not expired leads to the newest tokens, for a timely call. -/
theorem Sound.lookup (h : s.Sound) {token : τ} {entry : RotationEntry τ}
    (htimely : ∀ x ∈ s.exchanges.tail, x.1 = token → x.2 + rotationMapTtlMs ≤ s.now)
    (hentry : lookupRotation s.rotations s.now token = some entry) : entry.result = s.newest := by
  obtain ⟨hget, hlive⟩ := get_cleanup hentry
  obtain ⟨x, -, hx, hexpires, hnewest | htail⟩ := h.rotations token entry hget
  · exact hnewest
  · have hexpired := htimely x htail hx
    omega

variable {t : Connection τ}

section

variable (h : s.Sound)
include h

theorem Sound.call {token : τ} (htimely : s.Timely (.call token))
    (hstep : s.step (.call token) = some t) : t.Sound := by
  rw [step] at hstep
  by_cases hissued : token ∉ s.issued
  · rw [if_pos hissued] at hstep
    cases hstep
  rw [if_neg hissued] at hstep
  cases hflight : s.flight with
  | some flight =>
    rw [hflight] at hstep
    exact some.inj hstep ▸ h
  | none =>
    rw [hflight] at hstep
    have hstored : s.row.tokens = s.newest := h.stored (by simp [hflight])
    have hmap : ∀ t' entry, (cleanupRotationMap s.rotations s.now).get t' = some entry →
        s.rotations.get t' = some entry := fun _ _ hget => (get_cleanup hget).1
    dsimp only at hstep
    cases hlookup : lookupRotation s.rotations s.now token with
    | some entry =>
      rw [hlookup] at hstep
      cases hstep
      have hnewest := h.lookup (htimely hflight) hlookup
      exact {
        stored := fun _ => hstored
        reading := by
          rintro _ ⟨⟩
        refreshing := by
          rintro _ ⟨⟩
        persisting := by
          rintro _ ⟨⟩
          exact hnewest
        issued_iff := h.issued_iff
        fresh := h.fresh
        rotations := fun t' entry hget => h.rotations t' entry (hmap t' entry hget) }
    | none =>
      rw [hlookup] at hstep
      cases hstep
      exact {
        stored := fun _ => hstored
        reading := by
          rintro _ ⟨⟩
          exact not_not.1 hissued
        refreshing := by
          rintro _ ⟨⟩
        persisting := by
          rintro _ ⟨⟩
        issued_iff := h.issued_iff
        fresh := h.fresh
        rotations := fun t' entry hget => h.rotations t' entry (hmap t' entry hget) }

/-- A flight that goes on with another step, or ends: what was issued stays the same. -/
theorem Sound.fly {row : Row τ} {flight : Option (Flight τ)} (hstored : row.tokens = s.newest)
    (hflight : ∀ f ∈ flight, f = .refreshing s.newest.refresh ∨ f = .persisting s.newest) :
    Sound { s with row, flight } where
  stored := fun _ => hstored
  reading := by
    rintro token rfl
    rcases hflight _ rfl with heq | heq <;> cases heq
  refreshing := by
    rintro token rfl
    rcases hflight _ rfl with heq | heq
    · exact Flight.refreshing.inj heq
    · cases heq
  persisting := by
    rintro result rfl
    rcases hflight _ rfl with heq | heq
    · cases heq
    · exact Flight.persisting.inj heq
  issued_iff := h.issued_iff
  fresh := h.fresh
  rotations := h.rotations

/-- What the row decides leads to the newest tokens. -/
theorem Sound.read {ok : Bool} (htimely : s.Timely (.read ok))
    (hstep : s.step (.read ok) = some t) : t.Sound := by
  rw [step] at hstep
  cases hflight : s.flight with
  | none =>
    rw [hflight] at hstep
    cases hstep
  | some flight =>
    rw [hflight] at hstep
    cases flight with
    | refreshing token => cases hstep
    | persisting result => cases hstep
    | reading token =>
      cases hstep
      have hstored : s.row.tokens = s.newest := h.stored (by simp [hflight])
      refine h.fly hstored fun _ hf => ?_
      cases hf
      cases ok with
      | false =>
        have hknown := (h.issued_iff token).1 (h.reading token hflight)
        rcases hknown with rfl | hconsumed
        · exact Or.inl rfl
        · rw [Timely, hflight] at htimely
          exact absurd hconsumed htimely
      | true =>
        rw [if_pos rfl, stalenessCheck, hstored]
        by_cases hsame : s.newest.refresh ≠ token
        · rw [if_pos hsame]
          split_ifs
          · exact Or.inr rfl
          · exact Or.inl rfl
        · rw [if_neg hsame, not_not.1 hsame]
          exact Or.inl rfl

/-- The upstream exchanges the newest token for newer ones. -/
theorem Sound.reply {result : Option (Tokens τ)}
    (hstep : s.step (.reply result) = some t) : t.Sound := by
  rw [step] at hstep
  cases hflight : s.flight with
  | none =>
    rw [hflight] at hstep
    cases hstep
  | some flight =>
    rw [hflight] at hstep
    cases flight with
    | reading token => cases hstep
    | persisting result => cases hstep
    | refreshing token =>
      have htoken := h.refreshing token hflight
      have hstored : s.row.tokens = s.newest := h.stored (by simp [hflight])
      cases result with
      | none =>
        cases hstep
        exact h.fly hstored (by simp)
      | some result =>
        dsimp only at hstep
        split at hstep
        · cases hstep
        · next hnew =>
          cases hstep
          rw [h.issued_iff, not_or] at hnew
          have hne : token ≠ result.refresh := fun heq => hnew.1 (heq.symm.trans htoken)
          refine ⟨fun hno => absurd rfl (hno result), ?_, ?_, ?_, ?_, ?_, ?_⟩
          · rintro _ ⟨⟩
          · rintro _ ⟨⟩
          · rintro _ ⟨⟩
            rfl
          · intro other
            simp only [List.mem_cons, h.issued_iff, consumed, List.map_cons, htoken]
          · simp only [consumed, List.map_cons, List.mem_cons, not_or]
            exact ⟨hne.symm, hnew.2⟩
          · intro other entry hget
            rw [recordRotation, if_neg hne, OrdMap.get_set] at hget
            split at hget
            · next heq =>
              cases hget
              exact ⟨_, List.mem_cons_self, heq.symm, rfl, Or.inl rfl⟩
            · -- An earlier rotation is no longer the last one.
              obtain ⟨x, hx, hkey, hexpires, -⟩ := h.rotations other entry hget
              exact ⟨x, List.mem_cons_of_mem _ hx, hkey, hexpires, Or.inr hx⟩

theorem Sound.persist {expiresAt : Option ℤ} (hstep : s.step (.persist expiresAt) = some t) :
    t.Sound ∧ s.flight = some (.persisting s.newest) ∧ t.row.tokens = t.newest := by
  rw [step] at hstep
  cases hflight : s.flight with
  | none =>
    rw [hflight] at hstep
    cases hstep
  | some flight =>
    rw [hflight] at hstep
    cases flight with
    | reading token => cases hstep
    | refreshing token => cases hstep
    | persisting result =>
      cases hstep
      obtain rfl := h.persisting result hflight
      exact ⟨h.fly rfl (by simp), rfl, rfl⟩

theorem Sound.step {e : RefreshEvent τ} (htimely : s.Timely e)
    (hstep : s.step e = some t) : t.Sound := by
  cases e with
  | clock now =>
    cases hstep
    exact ⟨h.stored, h.reading, h.refreshing, h.persisting, h.issued_iff, h.fresh, h.rotations⟩
  | call token => exact h.call htimely hstep
  | read ok => exact h.read htimely hstep
  | reply result => exact h.reply hstep
  | persist expiresAt => exact (h.persist hstep).1

theorem Sound.right (e : RefreshEvent τ) : s.Right e := by
  cases e with
  | clock now => trivial
  | call token => trivial
  | read ok => trivial
  | reply result =>
    intro token hflight
    rw [h.refreshing token hflight]
    exact h.fresh
  | persist expiresAt => exact fun t hstep => (h.persist hstep).2

end

/-- In a run of timely calls no consumed token is presented, and every call returns and stores the
newest tokens. -/
theorem newest_kept (tokens : Tokens τ) (expiresAt : Option ℤ) (now : ℤ)
    (es : List (RefreshEvent τ)) (h : Trace.Meets step Timely (new tokens expiresAt now) es) :
    Trace.Meets step Right (new tokens expiresAt now) es :=
  Trace.meets_of_meets (fun _ _ _ (hs : Sound _) htimely hstep => hs.step htimely hstep)
    (fun _ e _ hs _ _ => hs.right e) (Sound.new tokens expiresAt now) h

/-- A refresh that succeeds and is stored. -/
def refreshTo (presented fresh : ℕ) : List (RefreshEvent ℕ) :=
  [.call presented, .read true, .reply (some ⟨fresh, fresh⟩), .persist none]

/-- After two refreshes a caller that still holds the first token gets the tokens of the first
refresh, and they are stored. -/
theorem staleCaller_reverts : ¬ ∀ (tokens : Tokens ℕ) (expiresAt : Option ℤ) (now : ℤ)
    (es : List (RefreshEvent ℕ)), Trace.Meets step Right (new tokens expiresAt now) es := by
  intro h
  have hrun := h ⟨0, 0⟩ none 0 ((refreshTo 0 1 ++ refreshTo 1 2 ++ [.call 0]) ++ [.persist none])
  have hlast := (hrun.append rfl).2
  exact absurd ((hlast _ rfl).1 _ rfl).1 (by decide)

/-- A caller that holds the token exchanged last gets the newest tokens. -/
theorem newest_kept_successor : Trace.Meets step Right (new ⟨0, 0⟩ none 0)
    (refreshTo 0 1 ++ [.call 0, .persist none]) :=
  newest_kept ⟨0, 0⟩ none 0 _ (by decide)

end Connection

end OmniRoute.TokenRefresh
