import OmniRoute.Lib.Trace
import OmniRoute.LiveZone.Accounting

/-!
# Reuse in the live-zone cache

`History` keeps next to the cache which requests there were and which items each got back. An
entry belongs to the request that stored it: its digests are those of the request's items, and its
prefix is what that request got back (`Made`). This holds whatever happens between the arrival of
a request and the return of its compression, since both go into the entry together.

The key of an entry joins the principal, the session, the field and the variant by colons, and a
principal or a session may have a colon in it.

**Main result (`reuse_sound_iff`).** In every run the counter and the bounds are right, and reuse
is sound exactly when no request matches an entry that another principal or session stored.
With principals that have no colon it always is (`reuse_sound_of_no_colon`).
-/

namespace OmniRoute.LiveZone

open List Option OrdMap

variable {N : Type}

/-- The cache, the requests so far and the items they got back. -/
structure History (N : Type) where
  state : State N
  requests : OrdMap ℕ (Body N × LiveZoneOptions N)
  returned : List (ℕ × List (Json N))

namespace History

def init : History N := ⟨.init, .empty, []⟩

variable (env : Env N)

/-- The items of the result that a request with a context returns. -/
def returnedItems [JsonNumber N] (id : ℕ) (pending : Pending N) (result : CompressionResult N) (now : ℤ)
    (s : State N) : Option (List (Json N)) :=
  match pending with
  | .passthrough => none
  | .full context | .reuse _ context _ =>
    itemsOf (resume env id pending result now s).1.body context.field

/-- Every request has an id of its own. -/
def step [JsonNumber N] (h : History N) (e : Event N) : Option (History N) :=
  (LiveZone.step env h.state e).bind fun state =>
    match e with
    | .request id body options _ =>
      if (h.requests.get id).isSome then none
      else some ⟨state, h.requests.set id (body, options), h.returned⟩
    | .compressed id result now =>
      some ⟨state, h.requests, h.returned ++ (((h.state.waiting.get id).bind fun pending =>
        returnedItems env id pending result now h.state).map fun items => (id, items)).toList⟩
    | .failed _ => some ⟨state, h.requests, h.returned⟩

/-- The entry was stored for a request of the same principal, session and variant, with the same
stable fields, whose items begin those of this request; and it keeps what that one got back. -/
def Continues (h : History N) (body : Body N) (options : LiveZoneOptions N)
    (context : LiveZoneContext N) (previous : LiveZoneEntry N) : Prop :=
  ∃ body' options' items items',
    h.requests.get previous.storedBy = some (body', options') ∧
    principalOf options' = principalOf options ∧ sessionOf options' = sessionOf options ∧
    options'.variant = options.variant ∧ pickStableFields body' = pickStableFields body ∧
    itemsOf body context.field = some items ∧ itemsOf body' context.field = some items' ∧
    items' <+: items ∧ previous.rawItemDigests.length = items'.length ∧
    (previous.storedBy, previous.transformedPrefix) ∈ h.returned

/-- An arriving request only reuses an entry it continues, and a request that reuses an entry gets
back the entry's prefix and one item for each new item, the same one if it is no tool output. -/
def ReuseSound [JsonNumber N] (h : History N) : Event N → Prop
  | .request _ body options now => ∀ body' context previous,
    (applyLiveZoneCompression env body options now h.state).1 = .reuse body' context previous →
      h.Continues body options context previous
  | .compressed id result now => ∀ body context previous,
    h.state.waiting.get id = some (.reuse body context previous) →
      ∃ live, returnedItems env id (.reuse body context previous) result now h.state =
          some (previous.transformedPrefix ++ live) ∧
        List.Forall₂ (fun raw item => isToolOutputItem raw = false → item = raw)
          (context.rawItems.drop previous.rawItemDigests.length) live
  | .failed _ => True

/-- The entry under the key of a request is not expired, has the same stable fields, and its items
begin those of the request. -/
def Matches (s : State N) (body : Body N) (options : LiveZoneOptions N) (now : ℤ)
    (entry : LiveZoneEntry N) : Prop :=
  hasGlobalHardBudget options.variant = false ∧
    ∃ context, resolveLiveZoneContext env body options now = some context ∧
      s.entries.get context.key = some entry ∧ (now : ℚ) < entry.expiresAt ∧
      entry.rawStableFieldsDigest = context.rawStableFieldsDigest ∧
      hasExactRawPrefix context.rawItemDigests entry = true

/-- An entry that a request matches was stored by a request of its own principal and session. -/
def OwnMatch (h : History N) : Event N → Prop
  | .request _ body options now => ∀ entry body' options',
    Matches env h.state body options now entry →
      h.requests.get entry.storedBy = some (body', options') →
      principalOf options' = principalOf options ∧ sessionOf options' = sessionOf options
  | _ => True

/-! ## The invariant -/

/-- What the context of a request says of it. -/
structure Reads (body : Body N) (options : LiveZoneOptions N) (context : LiveZoneContext N) :
    Prop where
  field : sequenceField body = some context.field
  key : makeKey env options context.field = some context.key
  items : itemsOf body context.field = some context.rawItems
  digests : context.rawItemDigests = context.rawItems.map env.digest
  stable : context.rawStableFieldsDigest = stableDigest env body

/-- The entry was stored for one of the requests, under its key. -/
def Made (h : History N) (key : String) (entry : LiveZoneEntry N) : Prop :=
  ∃ body options context, h.requests.get entry.storedBy = some (body, options) ∧
    Reads env body options context ∧ context.key = key ∧
    entry.rawItemDigests = context.rawItemDigests ∧
    entry.rawStableFieldsDigest = context.rawStableFieldsDigest ∧
    (entry.storedBy, entry.transformedPrefix) ∈ h.returned

/-- What waits for its compression is one of the requests. -/
def Waits (h : History N) (id : ℕ) : Pending N → Prop
  | .passthrough => True
  | .full context => ∃ body options, h.requests.get id = some (body, options) ∧
    Reads env body options context
  | .reuse body context _ => ∃ options, h.requests.get id = some (body, options) ∧
    Reads env body options context

structure Sound (h : History N) : Prop where
  accounted : Accounted h.state
  entries : ∀ key entry, h.state.entries.get key = some entry → Made env h key entry
  waiting : ∀ id pending, h.state.waiting.get id = some pending → Waits env h id pending

variable {env} {h h' : History N} {body : Body N} {options : LiveZoneOptions N} {now : ℤ}
  {context : LiveZoneContext N} {entry previous : LiveZoneEntry N}

theorem sound_init : Sound env (init : History N) where
  accounted := accounted_init
  entries _ _ hget := by cases hget
  waiting _ _ hget := by cases hget

theorem reads_of_resolve (hresolve : resolveLiveZoneContext env body options now = some context) :
    Reads env body options context := by
  simp only [resolveLiveZoneContext, bind_eq_bind, bind_eq_some_iff] at hresolve
  obtain ⟨field, hfield, key, hkey, items, hitems, hcontext⟩ := hresolve
  split at hcontext
  · cases hcontext
  · cases hcontext
    exact ⟨hfield, hkey, hitems, rfl, rfl⟩

theorem now_of_resolve (hresolve : resolveLiveZoneContext env body options now = some context) :
    context.now = now := by
  simp only [resolveLiveZoneContext, bind_eq_bind, bind_eq_some_iff] at hresolve
  obtain ⟨field, hfield, key, hkey, items, hitems, hcontext⟩ := hresolve
  split at hcontext
  · cases hcontext
  · cases hcontext
    rfl

/-- More requests and results do not matter to an entry. -/
theorem Made.mono {key : String} (h₁ : Made env h key entry)
    (hrequests : ∀ id request, h.requests.get id = some request →
      h'.requests.get id = some request)
    (hreturned : ∀ p ∈ h.returned, p ∈ h'.returned) : Made env h' key entry := by
  obtain ⟨body, options, context, hget, hreads, hkey, hdigests, hstable, hmem⟩ := h₁
  exact ⟨body, options, context, hrequests _ _ hget, hreads, hkey, hdigests, hstable,
    hreturned _ hmem⟩

theorem Waits.mono {id : ℕ} {pending : Pending N} (h₁ : Waits env h id pending)
    (hrequests : ∀ id request, h.requests.get id = some request →
      h'.requests.get id = some request) : Waits env h' id pending := by
  cases pending with
  | passthrough => trivial
  | full context =>
    obtain ⟨body, options, hget, hreads⟩ := h₁
    exact ⟨body, options, hrequests _ _ hget, hreads⟩
  | reuse body context previous =>
    obtain ⟨options, hget, hreads⟩ := h₁
    exact ⟨options, hrequests _ _ hget, hreads⟩

theorem get_touch {m : OrdMap String (LiveZoneEntry N)} {key key' : String}
    (hget : m.get key = some previous) :
    ((m.delete key).set key previous).get key' = m.get key' := by
  rw [get_set, get_delete]
  split
  · next heq => rw [heq, hget]
  · rfl

/-- What a request leaves of the entries was there, and it waits for itself. -/
theorem apply_spec (env : Env N) (body : Body N) (options : LiveZoneOptions N) (now : ℤ)
    (s : State N) :
    (∀ key entry,
      (applyLiveZoneCompression env body options now s).2.entries.get key = some entry →
        s.entries.get key = some entry) ∧
    (applyLiveZoneCompression env body options now s).2.waiting = s.waiting ∧
    ∀ h : History N, ∀ id, h.requests.get id = some (body, options) →
      Waits env h id (applyLiveZoneCompression env body options now s).1 := by
  obtain heq | ⟨context, hresolve, heq⟩ | ⟨context, previous, hresolve, hget, -, -, heq⟩ :=
    apply_cases env body options now s
  · rw [heq]
    exact ⟨fun _ _ h => h, rfl, fun _ _ _ => trivial⟩
  · rw [heq]
    exact ⟨fun _ _ h => get_prune _ h, waiting_prune _,
      fun _ _ hid => ⟨body, options, hid, reads_of_resolve hresolve⟩⟩
  · rw [heq]
    refine ⟨fun key entry h => get_prune context.now ?_, waiting_prune context.now,
      fun _ _ hid => ⟨options, hid, reads_of_resolve hresolve⟩⟩
    rwa [get_touch hget] at h

theorem itemsOf_combined (env : Env N) (body : Body N) (context : LiveZoneContext N)
    (previous : LiveZoneEntry N) (result : CompressionResult N) :
    itemsOf (combinedResult env body context previous result).body context.field =
      some (previous.transformedPrefix ++ (compressLiveToolOutputs body context.field
        (liveItems context previous) previous.stats result).2) := by
  simp [itemsOf, combinedResult]

section Steps

variable [JsonNumber N]

theorem sound_request {id : ℕ} (hs : Sound env h)
    (hstep : step env h (.request id body options now) = some h') : Sound env h' := by
  obtain ⟨s, hs', hrest⟩ := bind_eq_some_iff.1 hstep
  have hacc := accounted_step env _ hs.accounted hs'
  cases hs'
  simp only at hrest
  split at hrest
  · cases hrest
  · next hfresh =>
    cases hrest
    have hrequests : ∀ id' request, h.requests.get id' = some request →
        (h.requests.set id (body, options)).get id' = some request := by
      intro id' request hget
      rw [get_set_ne]
      · exact hget
      · rintro rfl
        exact hfresh (by simp [hget])
    obtain ⟨hentries, hwaiting, hwaits⟩ := apply_spec env body options now h.state
    refine ⟨hacc, fun key entry hget => ?_, fun id' pending hget => ?_⟩
    · exact (hs.entries key entry (hentries key entry hget)).mono hrequests fun _ hp => hp
    · simp only [get_set, hwaiting] at hget
      split at hget
      · next heq =>
        cases hget
        rw [heq]
        exact hwaits _ id (get_set_self _ _ _)
      · exact (hs.waiting id' pending hget).mono hrequests

variable {result : CompressionResult N}

/-- What comes back is stored with the context of its request, if it is stored. -/
theorem sound_store {id : ℕ}
    {field : Field} {ttlMs : ℚ} {now' : ℤ} {items : Option (List (Json N))} (hs : Sound env h)
    (hget : h.requests.get id = some (body, options)) (hreads : Reads env body options context)
    (hfield : field = context.field) (hitems : items = itemsOf result.body context.field) :
    ∀ key entry, (store id context.key context.rawItemDigests context.rawStableFieldsDigest
      result field now' ttlMs { h.state with waiting := h.state.waiting.delete id }).entries.get
        key = some entry →
      Made env ⟨h.state, h.requests, h.returned ++ (items.map fun items => (id, items)).toList⟩
        key entry := by
  intro key entry hentry
  obtain hold | ⟨rfl, hid, hdigests, hstable, hprefix⟩ := get_store hentry
  · exact (hs.entries key entry hold).mono (fun _ _ h => h) fun _ hp => mem_append_left _ hp
  · refine ⟨body, options, context, hid ▸ hget, hreads, rfl, hdigests, hstable, ?_⟩
    refine mem_append_right _ ?_
    rw [hitems, ← hfield, hprefix, hid]
    exact mem_singleton.2 rfl

theorem resume_reuse (id : ℕ) (body : Body N) (context : LiveZoneContext N)
    (previous : LiveZoneEntry N) (result : CompressionResult N) (now : ℤ) (s : State N) :
    (resume env id (.reuse body context previous) result now s).1 =
      combinedResult env body context previous result := by
  simp only [resume]
  split <;> rfl

theorem waiting_resume {id : ℕ} {pending : Pending N}
    {s : State N} : (resume env id pending result now s).2.waiting = s.waiting := by
  cases pending with
  | passthrough => rfl
  | full context => exact waiting_store
  | reuse body context previous =>
    simp only [resume]
    split
    · exact waiting_store
    · rfl

theorem sound_compressed {id : ℕ} (hs : Sound env h)
    (hstep : step env h (.compressed id result now) = some h') : Sound env h' := by
  obtain ⟨s, hs', hrest⟩ := bind_eq_some_iff.1 hstep
  have hacc := accounted_step env _ hs.accounted hs'
  obtain ⟨pending, hpending, rfl⟩ := map_eq_some_iff.1 hs'
  simp only [hpending, bind_some, Option.some.injEq] at hrest
  subst hrest
  have hold : ∀ items key entry, h.state.entries.get key = some entry →
      Made env (⟨h.state, h.requests, h.returned ++ items⟩ : History N) key entry :=
    fun items key entry hget =>
      (hs.entries key entry hget).mono (fun _ _ h => h) fun _ hp => mem_append_left _ hp
  have hwaits := hs.waiting id pending hpending
  refine ⟨hacc, ?_, fun id' pending' hget => ?_⟩
  · cases pending with
    | passthrough => exact hold _
    | full context =>
      obtain ⟨body, options, hget, hreads⟩ := hwaits
      exact sound_store hs hget hreads rfl rfl
    | reuse body context previous =>
      obtain ⟨options, hget, hreads⟩ := hwaits
      simp only [returnedItems, resume_reuse]
      simp only [resume]
      split
      · exact sound_store hs hget hreads rfl rfl
      · exact hold _
  · simp only [waiting_resume, get_delete] at hget
    split at hget
    · cases hget
    · exact (hs.waiting id' pending' hget).mono fun _ _ h => h

theorem sound_failed {id : ℕ} (hs : Sound env h) (hstep : step env h (.failed id) = some h') :
    Sound env h' := by
  obtain ⟨s, hs', hrest⟩ := bind_eq_some_iff.1 hstep
  have hacc := accounted_step env _ hs.accounted hs'
  obtain ⟨pending, -, rfl⟩ := map_eq_some_iff.1 hs'
  cases hrest
  refine ⟨hacc, hs.entries, fun id' pending' hget => ?_⟩
  simp only [get_delete] at hget
  split at hget
  · cases hget
  · exact hs.waiting id' pending' hget

theorem sound_step (e : Event N) (hs : Sound env h) (hstep : step env h e = some h') :
    Sound env h' := by
  cases e with
  | request id body options now => exact sound_request hs hstep
  | compressed id result now => exact sound_compressed hs hstep
  | failed id => exact sound_failed hs hstep

end Steps

/-! ## One step -/

/-- A request reuses the entry it matches. -/
theorem reuses_iff {s : State N} (hacc : Accounted s) :
    (∃ body' context, (applyLiveZoneCompression env body options now s).1 =
      .reuse body' context previous) ↔ Matches env s body options now previous := by
  rw [applyLiveZoneCompression, Matches]
  by_cases hbudget : hasGlobalHardBudget options.variant = true
  · simp [hbudget]
  · rw [if_neg hbudget, eq_false_of_ne_true hbudget]
    cases hresolve : resolveLiveZoneContext env body options now with
    | none => simp
    | some context =>
      have hnow : context.now = now := now_of_resolve hresolve
      have hget := get_prune_iff context.key previous now hacc
      simp only [true_and, Option.some.injEq, exists_eq_left', hnow]
      constructor
      · rintro ⟨body', context', heq⟩
        split at heq
        · cases heq
        · next previous' hget' =>
          split at heq
          · cases heq
          · next hmatch =>
            cases heq
            rw [not_or, not_not, Bool.not_eq_false] at hmatch
            obtain ⟨hold, hlive⟩ := hget.1 hget'
            exact ⟨hold, hlive, hmatch.1, hmatch.2⟩
      · rintro ⟨hold, hlive, hstable, hprefix⟩
        refine ⟨body, context, ?_⟩
        simp [hget.2 ⟨hold, hlive⟩, hstable, hprefix]

/-- Items with the digests of a prefix are a prefix. -/
theorem prefix_of_digests {items items' : List (Json N)}
    (h : items'.map env.digest <+: items.map env.digest) : items' <+: items := by
  have htake := prefix_iff_eq_take.1 h
  rw [← map_take, length_map] at htake
  have hinj : Function.Injective (List.map env.digest) :=
    map_injective_iff.2 fun v w => env.digest_inj v w
  rw [hinj htake]
  exact take_prefix _ _

theorem placeTransformed_spec (items transformed : List (Json N)) :
    List.Forall₂ (fun raw item => isToolOutputItem raw = false → item = raw) items
      (placeTransformed items transformed) := by
  induction items generalizing transformed with
  | nil => exact List.Forall₂.nil
  | cons item items ih =>
    by_cases htool : isToolOutputItem item = true
    · have hchanges : ∀ new : Json N, isToolOutputItem item = false → new = item :=
        fun _ hnot => absurd htool (by simp [hnot])
      cases transformed with
      | nil => simpa [placeTransformed, htool] using List.Forall₂.cons (hchanges item) (ih [])
      | cons new transformed =>
        simpa [placeTransformed, htool] using List.Forall₂.cons (hchanges new) (ih transformed)
    · have hrest := List.Forall₂.cons (fun _ => rfl) (ih transformed)
        (R := fun raw item => isToolOutputItem raw = false → item = raw) (a := item)
      simpa [placeTransformed, htool] using hrest

/-- The new items come back one for one. -/
theorem compressLiveToolOutputs_spec (body : Body N) (field : Field) (items : List (Json N))
    (stats : Json N) (result : CompressionResult N) :
    List.Forall₂ (fun raw item => isToolOutputItem raw = false → item = raw) items
      (compressLiveToolOutputs body field items stats result).2 := by
  have hsame : List.Forall₂ (fun raw item => isToolOutputItem raw = false → item = raw) items
      items := List.forall₂_same.2 fun _ _ _ => rfl
  rw [compressLiveToolOutputs]
  split
  · exact hsame
  · split
    · exact hsame
    · split
      · exact hsame
      · exact placeTransformed_spec items _

theorem makeKey_eq {field : Field} {key : String} (h : makeKey env options field = some key) :
    key = principalOf options ++ ":" ++ sessionOf options ++ ":" ++ field.name ++ ":" ++
      env.digest options.variant := by
  rw [makeKey] at h
  split at h
  · cases h
  · exact (Option.some.inj h).symm

theorem colon_field (field : Field) : ':' ∉ field.name.toList := by
  cases field <;> decide

theorem name_inj {field field' : Field} (h : field.name = field'.name) : field = field' := by
  cases field <;> cases field' <;> first | rfl | simp [Field.name] at h

/-- With the same principal and session, the key tells field and variant. -/
theorem makeKey_inj {options' : LiveZoneOptions N} {field field' : Field} {key : String}
    (h : makeKey env options field = some key) (h' : makeKey env options' field' = some key)
    (hprincipal : principalOf options' = principalOf options)
    (hsession : sessionOf options' = sessionOf options) :
    field' = field ∧ options'.variant = options.variant := by
  have hkey := congrArg String.toList ((makeKey_eq h').symm.trans (makeKey_eq h))
  simp only [String.toList_append, hprincipal, hsession, append_assoc] at hkey
  have hrest := append_cancel_left (append_cancel_left (append_cancel_left
    (append_cancel_left hkey)))
  obtain ⟨hname, hdigest⟩ := Delimited.append_sep_left (colon_field field') (colon_field field)
    hrest
  exact ⟨name_inj (String.toList_inj.1 hname), env.digest_inj _ _ (String.toList_inj.1 hdigest)⟩

/-- Reuse is sound exactly when the entry is the request's own. -/
theorem reuseSound_iff [JsonNumber N] (e : Event N) (hs : Sound env h) :
    h.ReuseSound env e ↔ h.OwnMatch env e := by
  cases e with
  | request id body options now =>
    constructor
    · intro hsound entry body' options' hmatches hget
      obtain ⟨body'', context, hreuse⟩ := (reuses_iff hs.accounted).2 hmatches
      obtain ⟨_, _, _, _, hget', hprincipal, hsession, -⟩ := hsound body'' context entry hreuse
      cases hget.symm.trans hget'
      exact ⟨hprincipal, hsession⟩
    · intro hown body' context previous hreuse
      have hmatches := (reuses_iff hs.accounted).1 ⟨body', context, hreuse⟩
      obtain heq | ⟨context', -, heq⟩ | ⟨context', previous', hresolve, hget, hstable, hprefix,
        heq⟩ := apply_cases env body options now h.state
      · rw [heq] at hreuse
        cases hreuse
      · rw [heq] at hreuse
        cases hreuse
      · rw [heq] at hreuse
        cases hreuse
        have hreads := reads_of_resolve hresolve
        obtain ⟨body₀, options₀, context₀, hget₀, hreads₀, hkey, hdigests, hfields, hmem⟩ :=
          hs.entries _ _ (get_prune _ hget)
        obtain ⟨hprincipal, hsession⟩ := hown previous body₀ options₀ hmatches hget₀
        obtain ⟨hfield, hvariant⟩ := makeKey_inj hreads.key (hkey ▸ hreads₀.key) hprincipal
          hsession
        rw [hdigests, hreads₀.digests, hreads.digests] at hprefix
        have hsame := hreads₀.stable.symm.trans (hfields.symm.trans (hstable.trans hreads.stable))
        have hobj := env.digest_inj _ _ hsame
        refine ⟨body₀, options₀, context.rawItems, context₀.rawItems, hget₀, hprincipal, hsession,
          hvariant, ?_, hreads.items, ?_, prefix_of_digests hprefix, ?_, hmem⟩
        · exact Json.obj.inj hobj
        · rw [← hfield]
          exact hreads₀.items
        · rw [hdigests, hreads₀.digests, length_map]
  | compressed id result now =>
    refine iff_of_true (fun body context previous _ => ?_) trivial
    refine ⟨_, ?_, compressLiveToolOutputs_spec body context.field _ previous.stats result⟩
    rw [returnedItems, resume_reuse, itemsOf_combined]
    rfl
  | failed id => exact Iff.rfl

/-! ## Whole runs -/

/-- In every run of requests, whose compressions come back in any order, the byte counter is the
sum over the entries and the bounds hold; and every reused entry was stored for a request of the
same principal, session, variant and stable fields whose items begin those of the new one, and
every reuse returns the entry's prefix and one item for each new item, unchanged if it is no tool
output, if and only if no request matches an entry of another principal or session. -/
theorem reuse_sound_iff [JsonNumber N] (env : Env N) (events : List (Event N)) :
    (Trace.Meets (step env) (ReuseSound env) init events ∧
      Trace.Throughout (step env) (fun h => Accounted h.state) init events) ↔
    Trace.Meets (step env) (OwnMatch env) init events := by
  have hiff : Trace.Meets (step env) (ReuseSound env) init events ↔
      Trace.Meets (step env) (OwnMatch env) init events :=
    Trace.meets_congr (fun _ e _ hs hstep => sound_step e hs hstep)
      (fun _ e _ hs _ => reuseSound_iff e hs) events sound_init
  have hacc : Trace.Throughout (step env) (fun h => Accounted h.state) init events :=
    (Trace.throughout_of_invariant (fun _ e _ hs hstep => sound_step e hs hstep) events
      sound_init).mono fun _ hs => hs.accounted
  exact ⟨fun h => hiff.1 h.1, fun h => ⟨hiff.2 h, hacc⟩⟩

/-- A request whose principal has no colon. -/
def PlainPrincipal : Event N → Prop
  | .request _ _ options _ => ':' ∉ (principalOf options).toList
  | _ => True

/-- The text of a value as its digest. -/
def textDigest : Env ℤ where
  digest := Json.stringify
  digest_inj _ _ := Json.stringify_inj
  liveZoneStats _ result _ _ := (result.compressed, result.stats)

def helloBody : Body ℤ :=
  empty.set "messages" (.arr [.obj [("role", .str "user"), ("content", .str "hello")]])

/-- Principal `a:b` with session `c` is answered, and principal `a` with session `b:c` asks. -/
def foreignPrefix : List (Event ℤ) :=
  [.request 0 helloBody ⟨some "a:b", some "c", .null, none⟩ 1000,
    .compressed 0 ⟨helloBody, false, .null⟩ 1500,
    .request 1 helloBody ⟨some "a", some "b:c", .null, none⟩ 2000]

/-- A request that reuses an entry has the principal of the request that stored it. -/
def keepsPrincipal (env : Env N) (h : History N) : Event N → Bool
  | .request _ body options now =>
    match (applyLiveZoneCompression env body options now h.state).1 with
    | .reuse _ _ previous => decide ((h.requests.get previous.storedBy).map (principalOf ·.2) =
        some (principalOf options))
    | _ => true
  | _ => true

theorem keepsPrincipal_of_reuseSound [JsonNumber N] {e : Event N} (hsound : h.ReuseSound env e) :
    keepsPrincipal env h e = true := by
  cases e with
  | request id body options now =>
    simp only [keepsPrincipal]
    split
    · next body' context previous hreuse =>
      obtain ⟨_, options', _, _, hget, hprincipal, -⟩ := hsound body' context previous hreuse
      simp [hget, hprincipal]
    · rfl
  | _ => rfl

theorem foreignPrefix_reused :
    ¬Trace.Meets (step textDigest) (ReuseSound textDigest) init foreignPrefix := by
  intro h
  have hkeeps : Trace.Meets (step textDigest)
      (fun h e => keepsPrincipal textDigest h e = true) init foreignPrefix :=
    Trace.meets_of_meets (I := fun _ => True) (fun _ _ _ _ _ _ => trivial)
      (fun _ _ _ _ hsound _ => keepsPrincipal_of_reuseSound hsound) trivial h
  exact absurd hkeeps (by decide +kernel)

end History

end OmniRoute.LiveZone
