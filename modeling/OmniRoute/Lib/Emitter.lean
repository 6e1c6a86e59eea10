import Mathlib

/-!
# Emitters

A step of a stream translator: it reads a state, emits events and leaves a state. A reader of the
events keeps a state of its own and may refuse an event; `Triple read P m Q` says that `m` takes a
state and a reader related by `P` to ones related by `Q` without emitting what the reader refuses.

**Rules.** One for each way to build an emitter (`triple_andThen`, `triple_forEach`,
`triple_of_eq`), and for a run over a list of inputs `triple_forEach_of` with an invariant that
speaks of the inputs read so far.
-/

/-- A stateful step that emits events. -/
def Emitter (σ ε : Type*) := σ → List ε × σ

namespace Emitter

open List

variable {σ ε ι γ : Type*}

def skip : Emitter σ ε := fun s => ([], s)

def update (f : σ → σ) : Emitter σ ε := fun s => ([], f s)

def andThen (m n : Emitter σ ε) : Emitter σ ε := fun s =>
  ((m s).1 ++ (n (m s).2).1, (n (m s).2).2)

def forEach (f : ι → Emitter σ ε) : List ι → Emitter σ ε
  | [] => skip
  | i :: l => andThen (f i) (forEach f l)

/-- The emitter that depends on the state it is run in. -/
def onState (f : σ → Emitter σ ε) : Emitter σ ε := fun s => f s s

@[simp] theorem skip_apply (s : σ) : (skip : Emitter σ ε) s = ([], s) := rfl

@[simp] theorem update_apply (f : σ → σ) (s : σ) : (update f : Emitter σ ε) s = ([], f s) := rfl

theorem andThen_apply (m n : Emitter σ ε) (s : σ) :
    m.andThen n s = ((m s).1 ++ (n (m s).2).1, (n (m s).2).2) := rfl

theorem andThen_of_eq {m n : Emitter σ ε} {s t : σ} {l : List ε} (h : m s = (l, t)) :
    m.andThen n s = (l ++ (n t).1, (n t).2) := by rw [andThen_apply, h]

theorem andThen_assoc (l m n : Emitter σ ε) :
    l.andThen (m.andThen n) = (l.andThen m).andThen n := by
  funext s
  simp only [andThen_apply, append_assoc]

theorem onState_apply (f : σ → Emitter σ ε) (s : σ) : onState f s = f s s := rfl

@[simp] theorem forEach_nil (f : ι → Emitter σ ε) : forEach f [] = skip := rfl

theorem forEach_cons (f : ι → Emitter σ ε) (i : ι) (l : List ι) :
    forEach f (i :: l) = (f i).andThen (forEach f l) := rfl

theorem forEach_append (f : ι → Emitter σ ε) (l₁ l₂ : List ι) :
    forEach f (l₁ ++ l₂) = (forEach f l₁).andThen (forEach f l₂) := by
  funext s
  induction l₁ generalizing s with
  | nil => rfl
  | cons i l₁ ih =>
    rw [cons_append, forEach_cons, forEach_cons, andThen_apply, andThen_apply, andThen_apply,
      ih, andThen_apply, append_assoc]

/-- Both parts of a sequence are silent when the sequence is. -/
theorem andThen_silent {m n : Emitter σ ε} {s : σ} :
    (m.andThen n s).1 = [] ↔ (m s).1 = [] ∧ (n (m s).2).1 = [] := by
  rw [andThen_apply, append_eq_nil_iff]

/-! ## Readers -/

/-- A reader over all events of a list. -/
def readAll (read : γ → ε → Option γ) : γ → List ε → Option γ
  | g, [] => some g
  | g, e :: l => (read g e).bind fun g' => readAll read g' l

section Read

variable {read : γ → ε → Option γ}

@[simp] theorem readAll_nil (g : γ) : readAll read g [] = some g := rfl

theorem readAll_cons (g : γ) (e : ε) (l : List ε) :
    readAll read g (e :: l) = (read g e).bind fun g' => readAll read g' l := rfl

theorem readAll_append (g : γ) (l₁ l₂ : List ε) :
    readAll read g (l₁ ++ l₂) = (readAll read g l₁).bind fun g' => readAll read g' l₂ := by
  induction l₁ generalizing g with
  | nil => rfl
  | cons e l₁ ih =>
    rw [cons_append, readAll_cons, readAll_cons]
    cases read g e with
    | none => rfl
    | some g' => exact ih g'

@[simp] theorem readAll_singleton (g : γ) (e : ε) : readAll read g [e] = read g e := by
  rw [readAll_cons]
  cases read g e <;> rfl

theorem readAll_pair {g g₁ g₂ : γ} {e₁ e₂ : ε} (h₁ : read g e₁ = some g₁)
    (h₂ : read g₁ e₂ = some g₂) : readAll read g [e₁, e₂] = some g₂ := by
  rw [readAll_cons, h₁, Option.bind_some, readAll_singleton, h₂]

/-- `m` keeps state and reader together. -/
def Triple (read : γ → ε → Option γ) (P : σ → γ → Prop) (m : Emitter σ ε) (Q : σ → γ → Prop) :
    Prop :=
  ∀ s g, P s g → ∃ g', readAll read g (m s).1 = some g' ∧ Q (m s).2 g'

variable {P Q R : σ → γ → Prop} {m n : Emitter σ ε}

theorem triple_skip (h : ∀ s g, P s g → Q s g) : Triple read P skip Q :=
  fun s g hp => ⟨g, rfl, h s g hp⟩

theorem triple_update {f : σ → σ} (h : ∀ s g, P s g → Q (f s) g) : Triple read P (update f) Q :=
  fun s g hp => ⟨g, rfl, h s g hp⟩

theorem triple_andThen (hm : Triple read P m Q) (hn : Triple read Q n R) :
    Triple read P (m.andThen n) R := by
  intro s g hp
  obtain ⟨g₁, hread₁, hq⟩ := hm s g hp
  obtain ⟨g₂, hread₂, hr⟩ := hn _ g₁ hq
  refine ⟨g₂, ?_, hr⟩
  rw [andThen_apply, readAll_append, hread₁]
  exact hread₂

/-- An emitter is taken apart in the state it is run in. -/
theorem triple_onState {f : σ → Emitter σ ε}
    (h : ∀ t, Triple read (fun s g => s = t ∧ P s g) (f t) Q) : Triple read P (onState f) Q :=
  fun s g hp => h s s g ⟨rfl, hp⟩

theorem triple_pre {P' : σ → γ → Prop} (h : ∀ s g, P' s g → P s g) (hm : Triple read P m Q) :
    Triple read P' m Q :=
  fun s g hp => hm s g (h s g hp)

theorem triple_post {Q' : σ → γ → Prop} (h : ∀ s g, Q s g → Q' s g) (hm : Triple read P m Q) :
    Triple read P m Q' := by
  intro s g hp
  obtain ⟨g', hread, hq⟩ := hm s g hp
  exact ⟨g', hread, h _ _ hq⟩

/-- A condition on the state that `m` leaves as it is. -/
theorem triple_frame {C : σ → Prop} (hm : Triple read P m Q) (hC : ∀ s, C s → C (m s).2) :
    Triple read (fun s g => P s g ∧ C s) m (fun s g => Q s g ∧ C s) := by
  rintro s g ⟨hp, hc⟩
  obtain ⟨g', hread, hq⟩ := hm s g hp
  exact ⟨g', hread, hq, hC s hc⟩

/-- A loop keeps an invariant that depends on the part of the list that is done. -/
theorem triple_forEach_of {f : ι → Emitter σ ε} {I : List ι → σ → γ → Prop} {l : List ι}
    (h : ∀ done i rest, l = done ++ i :: rest →
      Triple read (I done) (f i) (I (done ++ [i]))) :
    Triple read (I []) (forEach f l) (I l) := by
  suffices hrest : ∀ rest done, l = done ++ rest →
      Triple read (I done) (forEach f rest) (I l) from hrest l [] rfl
  intro rest
  induction rest with
  | nil =>
    intro done hl
    rw [append_nil] at hl
    exact triple_skip fun s g hi => hl ▸ hi
  | cons i rest ih =>
    intro done hl
    refine triple_andThen (h done i rest hl) (ih (done ++ [i]) ?_)
    rw [hl, append_assoc, singleton_append]

theorem triple_forEach {f : ι → Emitter σ ε} {I : σ → γ → Prop} {l : List ι}
    (h : ∀ i ∈ l, Triple read I (f i) I) : Triple read I (forEach f l) I := by
  refine triple_forEach_of (I := fun _ => I) fun done i rest hl => h i ?_
  rw [hl]
  exact mem_append_right _ mem_cons_self

/-- A reader that also keeps the events it has read. -/
def logged (read : γ → ε → Option γ) (p : γ × List ε) (e : ε) : Option (γ × List ε) :=
  (read p.1 e).map fun g => (g, p.2 ++ [e])

theorem readAll_logged (g : γ) (w l : List ε) :
    readAll (logged read) (g, w) l = (readAll read g l).map fun g' => (g', w ++ l) := by
  induction l generalizing g w with
  | nil => rw [readAll_nil, readAll_nil, Option.map_some, append_nil]
  | cons e l ih =>
    rw [readAll_cons, readAll_cons, logged]
    cases read g e with
    | none => rfl
    | some g' =>
      rw [Option.map_some, Option.bind_some, Option.bind_some, ih, append_assoc, singleton_append]

end Read

/-! ## Silence -/

/-- Every element of a list meets a condition in the state it is emitted in. -/
def Along (f : ι → Emitter σ ε) (ok : σ → ι → Prop) : σ → List ι → Prop
  | _, [] => True
  | s, i :: l => ok s i ∧ Along f ok (f i s).2 l

/-- In the states of `I` the emitter is silent exactly under `C`, and then it stays in `I`. -/
def QuietIff (I C : σ → Prop) (m : Emitter σ ε) : Prop :=
  ∀ s, I s → ((m s).1 = [] ↔ C s) ∧ ((m s).1 = [] → I (m s).2)

section Quiet

variable {I C D : σ → Prop} {m n : Emitter σ ε}

theorem quiet_skip : QuietIff I (fun _ => True) (skip : Emitter σ ε) :=
  fun _ hs => ⟨⟨fun _ => trivial, fun _ => rfl⟩, fun _ => hs⟩

theorem quiet_andThen (hm : QuietIff I C m) (hn : QuietIff I D n) :
    QuietIff I (fun s => C s ∧ D (m s).2) (m.andThen n) := by
  intro s hs
  obtain ⟨hmC, hmI⟩ := hm s hs
  have hsplit := andThen_silent (m := m) (n := n) (s := s)
  constructor
  · rw [hsplit]
    constructor
    · rintro ⟨h₁, h₂⟩
      exact ⟨hmC.1 h₁, ((hn _ (hmI h₁)).1).1 h₂⟩
    · rintro ⟨hC, hD⟩
      exact ⟨hmC.2 hC, ((hn _ (hmI (hmC.2 hC))).1).2 hD⟩
  · intro h
    obtain ⟨h₁, h₂⟩ := hsplit.1 h
    exact (hn _ (hmI h₁)).2 h₂

theorem quiet_congr (hm : QuietIff I C m) (h : ∀ s, I s → (C s ↔ D s)) : QuietIff I D m :=
  fun s hs => ⟨((hm s hs).1).trans (h s hs), (hm s hs).2⟩

theorem quiet_forEach {f : ι → Emitter σ ε} {ok : σ → ι → Prop} {l : List ι}
    (h : ∀ i ∈ l, QuietIff I (fun s => ok s i) (f i)) :
    QuietIff I (fun s => Along f ok s l) (forEach f l) := by
  induction l with
  | nil => exact quiet_skip
  | cons i l ih =>
    exact quiet_andThen (h i mem_cons_self) (ih fun j hj => h j (.tail _ hj))

end Quiet

end Emitter
