import OmniRoute.Lib.Emitter

/-!
# Streams of blocks

A message is streamed as an opening event, blocks that are started, filled by deltas and stopped,
possibly interleaved, a closing event and an end event. `Grammatical` says what a stream must be in
terms of what stands before and after each of its events; `read` is a reader that decides this event
by event.

**Main result (`grammatical_of_readAll`).** What the reader accepts is grammatical.
-/

inductive BlockEvent (ι κ : Type*)
  | begin
  | start (i : ι) (k : κ)
  | delta (i : ι) (k : κ)
  | stop (i : ι)
  | last
  | done
  deriving DecidableEq

namespace BlockEvent

open List Option

variable {ι κ : Type*}

/-- The block is started with that kind and not stopped. -/
def Within (i : ι) (k : κ) (w : List (BlockEvent ι κ)) : Prop :=
  ∃ a b, w = a ++ .start i k :: b ∧ .stop i ∉ b

/-- The stream of one message. -/
structure Grammatical (w : List (BlockEvent ι κ)) : Prop where
  begins : ∃ rest, w = .begin :: rest ∧ .begin ∉ rest
  fresh : ∀ pre i k post, w = pre ++ .start i k :: post → ∀ k', .start i k' ∉ pre
  deltas : ∀ pre i k post, w = pre ++ .delta i k :: post → Within i k pre
  stops : ∀ pre i post, w = pre ++ .stop i :: post → ∃ k, Within i k pre
  closed : ∀ pre post, w = pre ++ .last :: post →
    (∀ i k, .start i k ∈ w → .stop i ∈ pre) ∧ .last ∉ pre
  ends : ∀ pre post, w = pre ++ .done :: post → post = []

/-! ## The reader -/

/-- What a reader remembers: the indices used, the open blocks, and how far the message is. -/
structure Reader (ι κ : Type*) where
  begun : Bool := false
  used : List ι := []
  opened : List (ι × κ) := []
  closing : Bool := false
  ended : Bool := false

/-- An event of a longer stream is the new one or one of the old ones. -/
theorem snoc_eq {pre post : List (BlockEvent ι κ)} {x : BlockEvent ι κ}
    (h : w ++ [e] = pre ++ x :: post) :
    (post = [] ∧ x = e ∧ pre = w) ∨ ∃ post', post = post' ++ [e] ∧ w = pre ++ x :: post' := by
  rcases eq_nil_or_concat post with rfl | ⟨post', y, rfl⟩
  · obtain ⟨hw, he⟩ := append_inj' h rfl
    exact .inl ⟨rfl, (List.cons.inj he).1.symm, hw.symm⟩
  · rw [concat_eq_append, ← cons_append, ← append_assoc] at h
    obtain ⟨hw, he⟩ := append_inj' h rfl
    obtain rfl := (List.cons.inj he).1
    exact .inr ⟨post', concat_eq_append, hw⟩

theorem within_snoc {i : ι} {k : κ} :
    Within i k (w ++ [e]) ↔ e = .start i k ∨ (Within i k w ∧ e ≠ .stop i) := by
  constructor
  · rintro ⟨a, b, h, hstop⟩
    rcases snoc_eq h with ⟨-, hx, -⟩ | ⟨b', rfl, hw⟩
    · exact .inl hx.symm
    · rw [mem_append, not_or] at hstop
      exact .inr ⟨⟨a, b', hw, hstop.1⟩, fun he => hstop.2 (he ▸ mem_singleton_self _)⟩
  · rintro (rfl | ⟨⟨a, b, rfl, hstop⟩, he⟩)
    · exact ⟨w, [], rfl, not_mem_nil⟩
    · refine ⟨a, b ++ [e], by rw [append_assoc, cons_append], ?_⟩
      rw [mem_append, not_or]
      exact ⟨hstop, fun h => he (mem_singleton.1 h).symm⟩

theorem mem_snoc_iff {x : BlockEvent ι κ} : x ∈ w ++ [e] ↔ x ∈ w ∨ x = e := by
  rw [mem_append, mem_singleton]

variable [DecidableEq ι] [DecidableEq κ]

def read (g : Reader ι κ) (e : BlockEvent ι κ) : Option (Reader ι κ) :=
  if g.ended then none
  else
    match e with
    | .begin => if g.begun then none else some { g with begun := true }
    | .start i k =>
      if g.begun ∧ ¬g.closing ∧ i ∉ g.used then
        some { g with used := i :: g.used, opened := (i, k) :: g.opened }
      else none
    | .delta i k => if g.begun ∧ (i, k) ∈ g.opened then some g else none
    | .stop i =>
      if g.begun ∧ i ∈ g.opened.map Prod.fst then
        some { g with opened := g.opened.filter fun b => b.1 ≠ i }
      else none
    | .last => if g.begun ∧ ¬g.closing ∧ g.opened = [] then some { g with closing := true } else none
    | .done => if g.begun then some { g with ended := true } else none

section Accepts

variable {g : Reader ι κ} {i : ι} {k : κ}

section

variable (hend : g.ended = false)
include hend

theorem read_begin (hb : g.begun = false) : read g .begin = some { g with begun := true } := by
  rw [read, if_neg (by rw [hend]; decide)]
  simp only [if_neg (Bool.eq_false_iff.1 hb)]

section

variable (hb : g.begun = true)
include hb

theorem read_start (hc : g.closing = false)
    (hi : i ∉ g.used) : read g (.start i k) =
      some { g with used := i :: g.used, opened := (i, k) :: g.opened } := by
  rw [read, if_neg (by rw [hend]; decide)]
  simp only [if_pos (And.intro hb (And.intro (Bool.eq_false_iff.1 hc) hi))]

theorem read_delta (ho : (i, k) ∈ g.opened) : read g (.delta i k) = some g := by
  rw [read, if_neg (by rw [hend]; decide)]
  simp only [if_pos (And.intro hb ho)]

theorem read_stop (ho : (i, k) ∈ g.opened) :
    read g (.stop i : BlockEvent ι κ) =
      some { g with opened := g.opened.filter fun b => b.1 ≠ i } := by
  rw [read, if_neg (by rw [hend]; decide)]
  simp only [if_pos (And.intro hb (mem_map.2 ⟨_, ho, rfl⟩))]

theorem read_last (hc : g.closing = false)
    (ho : g.opened = []) : read g .last = some { g with closing := true } := by
  rw [read, if_neg (by rw [hend]; decide)]
  simp only [if_pos (And.intro hb (And.intro (Bool.eq_false_iff.1 hc) ho))]

theorem read_done : read g .done = some { g with ended := true } := by
  rw [read, if_neg (by rw [hend]; decide)]
  simp only [if_pos hb]

end

end

end Accepts

/-- The reader remembers the events it has read. -/
structure Remembers (w : List (BlockEvent ι κ)) (g : Reader ι κ) : Prop where
  begun : g.begun = true ↔ .begin ∈ w
  head : ∀ e ∈ w.head?, e = .begin
  used : ∀ i, i ∈ g.used ↔ ∃ k, .start i k ∈ w
  opened : ∀ i k, (i, k) ∈ g.opened ↔ Within i k w
  closing : g.closing = true ↔ .last ∈ w
  ended : g.ended = true ↔ .done ∈ w

/-! ## One event more -/

section Snoc

variable {w : List (BlockEvent ι κ)} {e : BlockEvent ι κ}

end Snoc

/-! ## Soundness -/

/-- The grammar of the events read so far. -/
structure Fits (w : List (BlockEvent ι κ)) (g : Reader ι κ) : Prop extends Remembers w g where
  once : ∀ pre post, w = pre ++ .begin :: post → .begin ∉ pre
  fresh : ∀ pre i k post, w = pre ++ .start i k :: post → ∀ k', .start i k' ∉ pre
  deltas : ∀ pre i k post, w = pre ++ .delta i k :: post → Within i k pre
  stops : ∀ pre i post, w = pre ++ .stop i :: post → ∃ k, Within i k pre
  closed : ∀ pre post, w = pre ++ .last :: post →
    (∀ i k, .start i k ∈ w → .stop i ∈ pre) ∧ .last ∉ pre
  ends : ∀ pre post, w = pre ++ .done :: post → post = []

omit [DecidableEq ι] [DecidableEq κ] in
theorem fits_nil : Fits ([] : List (BlockEvent ι κ)) {} where
  begun := ⟨fun h => (by cases h), fun h => (by cases h)⟩
  head := fun e he => (by cases he)
  used := fun i => ⟨fun h => (by cases h), fun ⟨k, h⟩ => (by cases h)⟩
  opened := fun i k => ⟨fun h => (by cases h), fun ⟨a, b, h, _⟩ => (by cases a <;> cases h)⟩
  closing := ⟨fun h => (by cases h), fun h => (by cases h)⟩
  ended := ⟨fun h => (by cases h), fun h => (by cases h)⟩
  once := fun pre post h => (by cases pre <;> cases h)
  fresh := fun pre i k post h => (by cases pre <;> cases h)
  deltas := fun pre i k post h => (by cases pre <;> cases h)
  stops := fun pre i post h => (by cases pre <;> cases h)
  closed := fun pre post h => (by cases pre <;> cases h)
  ends := fun pre post h => (by cases pre <;> cases h)

variable {w : List (BlockEvent ι κ)} {g g' : Reader ι κ} {e : BlockEvent ι κ}

/-- What a reader checks before it goes on. -/
theorem read_eq_some (h : read g e = some g') :
    g.ended = false ∧
      match e with
      | .begin => g.begun = false ∧ g' = { g with begun := true }
      | .start i k => g.begun = true ∧ g.closing = false ∧ i ∉ g.used ∧
        g' = { g with used := i :: g.used, opened := (i, k) :: g.opened }
      | .delta i k => g.begun = true ∧ (i, k) ∈ g.opened ∧ g' = g
      | .stop i => g.begun = true ∧ i ∈ g.opened.map Prod.fst ∧
        g' = { g with opened := g.opened.filter fun b => b.1 ≠ i }
      | .last => g.begun = true ∧ g.closing = false ∧ g.opened = [] ∧
        g' = { g with closing := true }
      | .done => g.begun = true ∧ g' = { g with ended := true } := by
  unfold read at h
  by_cases hended : g.ended = true
  · rw [if_pos hended] at h
    cases h
  rw [if_neg hended] at h
  refine ⟨Bool.eq_false_iff.2 hended, ?_⟩
  cases e with
  | begin =>
    simp only at h ⊢
    by_cases hb : g.begun = true
    · rw [if_pos hb] at h
      cases h
    · rw [if_neg hb] at h
      exact ⟨Bool.eq_false_iff.2 hb, (some.inj h).symm⟩
  | start i k =>
    simp only at h ⊢
    by_cases hc : g.begun = true ∧ ¬g.closing = true ∧ i ∉ g.used
    · rw [if_pos hc] at h
      exact ⟨hc.1, Bool.eq_false_iff.2 hc.2.1, hc.2.2, (some.inj h).symm⟩
    · rw [if_neg hc] at h
      cases h
  | delta i k =>
    simp only at h ⊢
    by_cases hc : g.begun = true ∧ (i, k) ∈ g.opened
    · rw [if_pos hc] at h
      exact ⟨hc.1, hc.2, (some.inj h).symm⟩
    · rw [if_neg hc] at h
      cases h
  | stop i =>
    simp only at h ⊢
    by_cases hc : g.begun = true ∧ i ∈ g.opened.map Prod.fst
    · rw [if_pos hc] at h
      exact ⟨hc.1, hc.2, (some.inj h).symm⟩
    · rw [if_neg hc] at h
      cases h
  | last =>
    simp only at h ⊢
    by_cases hc : g.begun = true ∧ ¬g.closing = true ∧ g.opened = []
    · rw [if_pos hc] at h
      exact ⟨hc.1, Bool.eq_false_iff.2 hc.2.1, hc.2.2, (some.inj h).symm⟩
    · rw [if_neg hc] at h
      cases h
  | done =>
    simp only at h ⊢
    by_cases hb : g.begun = true
    · rw [if_pos hb] at h
      exact ⟨hb, (some.inj h).symm⟩
    · rw [if_neg hb] at h
      cases h

theorem Remembers.snoc (h : Remembers w g) (hread : read g e = some g') :
    Remembers (w ++ [e]) g' := by
  obtain ⟨hended, hcase⟩ := read_eq_some hread
  have hhead : (w = [] → e = .begin) → ∀ x ∈ (w ++ [e]).head?, x = .begin := by
    intro hbegin x hx
    cases hw : w with
    | nil =>
      rw [hw] at hx
      cases hx
      exact hbegin hw
    | cons y w' =>
      rw [hw] at hx
      exact h.head x (by rw [hw]; exact hx)
  have hne : g.begun = true → w ≠ [] := fun hb hw => by
    have hmem := h.begun.1 hb
    rw [hw] at hmem
    cases hmem
  cases e with
  | begin =>
    obtain ⟨hb, rfl⟩ := hcase
    refine ⟨by simp, hhead fun _ => rfl, fun i => ?_, fun i k => ?_, ?_, ?_⟩
    · simp [h.used i]
    · rw [within_snoc, h.opened i k]
      simp
    · simp [h.closing]
    · simp [h.ended]
  | start i k =>
    obtain ⟨hb, hclosing, hfresh, rfl⟩ := hcase
    refine ⟨by simp [h.begun], hhead fun hw => absurd hw (hne hb), fun j => ?_, fun j k' => ?_,
      ?_, ?_⟩
    · rw [mem_cons, h.used j]
      constructor
      · rintro (rfl | ⟨k', hk'⟩)
        · exact ⟨k, mem_snoc_iff.2 (.inr rfl)⟩
        · exact ⟨k', mem_snoc_iff.2 (.inl hk')⟩
      · rintro ⟨k', hk'⟩
        rcases mem_snoc_iff.1 hk' with hk' | hk'
        · exact .inr ⟨k', hk'⟩
        · cases hk'
          exact .inl rfl
    · rw [within_snoc, mem_cons, h.opened j k']
      constructor
      · rintro (heq | hin)
        · cases heq
          exact .inl rfl
        · exact .inr ⟨hin, fun hc => by cases hc⟩
      · rintro (heq | ⟨hin, -⟩)
        · cases heq
          exact .inl rfl
        · exact .inr hin
    · simp [h.closing]
    · simp [h.ended]
  | delta i k =>
    obtain ⟨hb, -, rfl⟩ := hcase
    refine ⟨by simp [h.begun], hhead fun hw => absurd hw (hne hb), fun j => ?_, fun j k' => ?_,
      ?_, ?_⟩
    · simp [h.used j]
    · rw [within_snoc, h.opened j k']
      simp
    · simp [h.closing]
    · simp [h.ended]
  | stop i =>
    obtain ⟨hb, -, rfl⟩ := hcase
    refine ⟨by simp [h.begun], hhead fun hw => absurd hw (hne hb), fun j => ?_, fun j k' => ?_,
      ?_, ?_⟩
    · simp [h.used j]
    · rw [within_snoc, mem_filter, h.opened j k']
      constructor
      · rintro ⟨hin, hij⟩
        refine .inr ⟨hin, fun heq => ?_⟩
        cases heq
        simp at hij
      · rintro (heq | ⟨hin, hij⟩)
        · cases heq
        · exact ⟨hin, decide_eq_true fun heq => hij (heq ▸ rfl)⟩
    · simp [h.closing]
    · simp [h.ended]
  | last =>
    obtain ⟨hb, -, -, rfl⟩ := hcase
    refine ⟨by simp [h.begun], hhead fun hw => absurd hw (hne hb), fun j => ?_, fun j k' => ?_,
      ?_, ?_⟩
    · simp [h.used j]
    · rw [within_snoc, h.opened j k']
      simp
    · simp
    · simp [h.ended]
  | done =>
    obtain ⟨hb, rfl⟩ := hcase
    refine ⟨by simp [h.begun], hhead fun hw => absurd hw (hne hb), fun j => ?_, fun j k' => ?_,
      ?_, ?_⟩
    · simp [h.used j]
    · rw [within_snoc, h.opened j k']
      simp
    · simp [h.closing]
    · simp

/-- An event that is accepted may stand where it stands. -/
theorem Fits.snoc (h : Fits w g) (hread : read g e = some g') : Fits (w ++ [e]) g' := by
  have hremember := h.toRemembers.snoc hread
  obtain ⟨hended, hcase⟩ := read_eq_some hread
  have hdone : .done ∉ w := fun hmem => by
    rw [h.ended.2 hmem] at hended
    cases hended
  refine { hremember with
    once := ?_, fresh := ?_, deltas := ?_, stops := ?_, closed := ?_, ends := ?_ }
  · intro pre post hw
    rcases snoc_eq hw with ⟨-, hx, rfl⟩ | ⟨post', -, hw⟩
    · subst hx
      intro hmem
      rw [h.begun.2 hmem] at hcase
      cases hcase.1
    · exact h.once pre post' hw
  · intro pre i k post hw k'
    rcases snoc_eq hw with ⟨-, hx, rfl⟩ | ⟨post', -, hw⟩
    · subst hx
      exact fun hmem => hcase.2.2.1 ((h.used i).2 ⟨k', hmem⟩)
    · exact h.fresh pre i k post' hw k'
  · intro pre i k post hw
    rcases snoc_eq hw with ⟨-, hx, rfl⟩ | ⟨post', -, hw⟩
    · subst hx
      exact (h.opened i k).1 hcase.2.1
    · exact h.deltas pre i k post' hw
  · intro pre i post hw
    rcases snoc_eq hw with ⟨-, hx, rfl⟩ | ⟨post', -, hw⟩
    · subst hx
      obtain ⟨⟨j, k⟩, hmem, hj⟩ := mem_map.1 hcase.2.1
      obtain rfl : j = i := hj
      exact ⟨k, (h.opened j k).1 hmem⟩
    · exact h.stops pre i post' hw
  · intro pre post hw
    rcases snoc_eq hw with ⟨-, hx, rfl⟩ | ⟨post', -, hw'⟩
    · subst hx
      obtain ⟨-, hclosing, hopened, -⟩ := hcase
      refine ⟨fun i k hstart => ?_, fun hmem => ?_⟩
      · have hstart : .start i k ∈ pre := by
          rcases mem_snoc_iff.1 hstart with hs | hs
          · exact hs
          · cases hs
        -- A block that is started and not stopped is open, and no block is open.
        obtain ⟨a, b, rfl⟩ := append_of_mem hstart
        by_contra hstop
        have hwithin : Within i k (a ++ .start i k :: b) :=
          ⟨a, b, rfl, fun hb => hstop (mem_append_right _ (.tail _ hb))⟩
        have := (h.opened i k).2 hwithin
        rw [hopened] at this
        cases this
      · rw [h.closing.2 hmem] at hclosing
        cases hclosing
    · obtain ⟨hstops, honce⟩ := h.closed pre post' hw'
      refine ⟨fun i k hstart => ?_, honce⟩
      rcases mem_snoc_iff.1 hstart with hs | hs
      · exact hstops i k hs
      · subst hs
        have hclosing := h.closing.2 (hw' ▸ mem_append_right _ mem_cons_self)
        rw [hclosing] at hcase
        cases hcase.2.1
  · intro pre post hw
    rcases snoc_eq hw with ⟨hpost, -, -⟩ | ⟨post', -, hw'⟩
    · exact hpost
    · exact absurd (hw' ▸ mem_append_right _ mem_cons_self) hdone

theorem fits_of_readAll {l : List (BlockEvent ι κ)} (h : Fits w g)
    (hread : Emitter.readAll read g l = some g') : Fits (w ++ l) g' := by
  induction l generalizing w g with
  | nil =>
    rw [append_nil]
    exact some.inj hread ▸ h
  | cons e l ih =>
    rw [Emitter.readAll_cons] at hread
    obtain ⟨g₁, h₁, hread⟩ := Option.bind_eq_some_iff.1 hread
    have := ih (h.snoc h₁) hread
    rwa [append_assoc, singleton_append] at this

omit [DecidableEq ι] [DecidableEq κ] in
theorem Fits.grammatical (h : Fits w g) (hbegun : g.begun = true) : Grammatical w where
  begins := by
    cases hw : w with
    | nil =>
      have hmem := h.begun.1 hbegun
      rw [hw] at hmem
      cases hmem
    | cons e rest =>
      obtain rfl := h.head e (by rw [hw]; rfl)
      refine ⟨rest, rfl, fun hmem => ?_⟩
      obtain ⟨a, b, rfl⟩ := append_of_mem hmem
      exact h.once (.begin :: a) b hw mem_cons_self
  fresh := h.fresh
  deltas := h.deltas
  stops := h.stops
  closed := h.closed
  ends := h.ends

/-- What the reader accepts is grammatical. -/
theorem grammatical_of_readAll (h : Emitter.readAll read {} w = some g)
    (hbegun : g.begun = true) : Grammatical w := by
  have hfits := fits_of_readAll fits_nil h
  rw [List.nil_append] at hfits
  exact hfits.grammatical hbegun

/-- Nothing follows the end of a message. -/
theorem eq_nil_of_ended {l : List (BlockEvent ι κ)} (h : Emitter.readAll read {} w = some g)
    (hended : g.ended = true) (hgram : Grammatical (w ++ l)) : l = [] := by
  have hfits := fits_of_readAll fits_nil h
  rw [List.nil_append] at hfits
  obtain ⟨a, b, rfl⟩ := append_of_mem (hfits.ended.1 hended)
  have hpost := hgram.ends a (b ++ l) (by rw [append_assoc, cons_append])
  exact (append_eq_nil_iff.1 hpost).2

/-! ## Open blocks -/

/-- Open blocks have different indices, and these are used. -/
structure Reader.Ok (g : Reader ι κ) : Prop where
  nodup : (g.opened.map Prod.fst).Nodup
  used : ∀ b ∈ g.opened, b.1 ∈ g.used

omit [DecidableEq ι] [DecidableEq κ] in
theorem Reader.Ok.unique (h : g.Ok) {i : ι} {k k' : κ} (hk : (i, k) ∈ g.opened)
    (hk' : (i, k') ∈ g.opened) : k = k' :=
  (Prod.mk.inj (inj_on_of_nodup_map h.nodup hk hk' rfl)).2

theorem Reader.Ok.read (h : g.Ok) (hread : read g e = some g') : g'.Ok := by
  obtain ⟨-, hcase⟩ := read_eq_some hread
  cases e with
  | begin =>
    obtain ⟨-, rfl⟩ := hcase
    exact ⟨h.nodup, h.used⟩
  | start i k =>
    obtain ⟨-, -, hfresh, rfl⟩ := hcase
    refine ⟨nodup_cons.2 ⟨fun hmem => ?_, h.nodup⟩, fun b hb => ?_⟩
    · obtain ⟨b, hb, rfl⟩ := mem_map.1 hmem
      exact hfresh (h.used b hb)
    · rcases mem_cons.1 hb with rfl | hb
      · exact mem_cons_self
      · exact .tail _ (h.used b hb)
  | delta i k =>
    obtain ⟨-, -, rfl⟩ := hcase
    exact h
  | stop i =>
    obtain ⟨-, -, rfl⟩ := hcase
    exact ⟨h.nodup.sublist (filter_sublist.map _), fun b hb => h.used b (mem_of_mem_filter hb)⟩
  | last =>
    obtain ⟨-, -, -, rfl⟩ := hcase
    exact ⟨h.nodup, h.used⟩
  | done =>
    obtain ⟨-, rfl⟩ := hcase
    exact ⟨h.nodup, h.used⟩

end BlockEvent
