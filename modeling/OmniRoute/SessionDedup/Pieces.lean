import OmniRoute.Lib.Delimited
import OmniRoute.SessionDedup.Dedup

/-!
# Reading marked texts

A marked text whose markers are whole is made of pieces, plain units and references to blocks, in
one way only (`cells_inj`): a hash has no bracket and determines its block. Expanding the
references gives the text that the marked one stands for.

`Restores` says that a slot can be read back: nothing of its markers is missing, every marker
refers to a block that is found, and the expansion is the original text.
-/

namespace OmniRoute.SessionDedup

open List

/-- A unit of the text, or a marker for a block. -/
inductive Piece
  | unit (u : UInt16)
  | ref (block : Text)

/-- What a piece stands for. -/
def Piece.expand : Piece → Text
  | .unit u => [u]
  | .ref block => block

def expand (pieces : List Piece) : Text := pieces.flatMap Piece.expand

def literal (text : Text) : List Piece := text.map .unit

variable (env : Env)

/-- What a piece looks like. -/
def Piece.cells : Piece → Marked
  | .unit u => [(u, false)]
  | .ref block => inserted env block

def cells (pieces : List Piece) : Marked := pieces.flatMap (Piece.cells env)

/-- Every block referred to is found, given the text expanded before it. -/
def FoundFrom (found : Text → Text → Prop) : Text → List Piece → Prop
  | _, [] => True
  | before, .unit u :: pieces => FoundFrom found (before ++ [u]) pieces
  | before, .ref block :: pieces =>
    found before block ∧ FoundFrom found (before ++ block) pieces

/-- The pieces make up the marked text, and every block referred to is found. -/
structure Decodes (found : Text → Text → Prop) (out : Output) (pieces : List Piece) : Prop where
  cells : out.marked = cells env pieces
  found : FoundFrom found [] pieces

/-- All units of inserted markers are there, and reading the text back gives the original. -/
structure Restores (found : Text → Text → Prop) (out : Output) (original : Text) : Prop where
  whole : out.marked.countP (·.2) = out.insertedUnits
  readable : ∃ pieces, Decodes env found out pieces
  exact : ∀ pieces, Decodes env found out pieces → expand pieces = original

variable {env} {found : Text → Text → Prop} {text block : Text} {pieces pieces' : List Piece}
  {out : Output}

@[simp] theorem cells_nil : cells env [] = [] := rfl

@[simp] theorem cells_cons (p : Piece) (pieces : List Piece) :
    cells env (p :: pieces) = p.cells env ++ cells env pieces := rfl

@[simp] theorem cells_append (pieces pieces' : List Piece) :
    cells env (pieces ++ pieces') = cells env pieces ++ cells env pieces' :=
  flatMap_append

@[simp] theorem expand_nil : expand [] = [] := rfl

@[simp] theorem expand_cons (p : Piece) (pieces : List Piece) :
    expand (p :: pieces) = p.expand ++ expand pieces := rfl

@[simp] theorem expand_append (pieces pieces' : List Piece) :
    expand (pieces ++ pieces') = expand pieces ++ expand pieces' := flatMap_append

@[simp] theorem expand_literal (text : Text) : expand (literal text) = text := by
  induction text with
  | nil => rfl
  | cons u text ih => exact congrArg (u :: ·) ih

@[simp] theorem cells_literal (text : Text) : cells env (literal text) = plain text := by
  induction text with
  | nil => rfl
  | cons u text ih => exact congrArg ((u, false) :: ·) ih

@[simp] theorem countP_plain (text : Text) : (plain text).countP (·.2) = 0 := by
  simp [plain, countP_eq_zero]

@[simp] theorem countP_inserted (block : Text) :
    (inserted env block).countP (·.2) = (marker env block).length := by
  simp [inserted, countP_map, Function.comp_def]

theorem foundFrom_append {before : Text} : FoundFrom found before (pieces ++ pieces') ↔
    FoundFrom found before pieces ∧ FoundFrom found (before ++ expand pieces) pieces' := by
  induction pieces generalizing before with
  | nil => simp [FoundFrom]
  | cons p pieces ih =>
    cases p with
    | unit u => simp [FoundFrom, ih, Piece.expand]
    | ref block => simp [FoundFrom, ih, Piece.expand, and_assoc]

theorem foundFrom_literal (before text : Text) : FoundFrom found before (literal text) := by
  induction text generalizing before with
  | nil => trivial
  | cons u text ih => exact ih _

theorem inserted_eq_cons (env : Env) (block : Text) :
    ∃ rest, inserted env block = ((91 : UInt16), true) :: rest :=
  ⟨_, rfl⟩

/-! ## The pieces are determined -/

theorem inserted_append_inj {block block' : Text} {m m' : Marked}
    (h : inserted env block ++ m = inserted env block' ++ m') : block = block' ∧ m = m' := by
  have hsplit : ∀ (b : Text) (m : Marked), inserted env b ++ m =
      (units "[dedup:ref sha=" ++ env.hashBlock b).map (fun unit => (unit, true)) ++
        (bracket, true) :: m := by
    intro b m
    simp [inserted, marker]
  have hfree : ∀ b : Text, (bracket, true) ∉
      (units "[dedup:ref sha=" ++ env.hashBlock b).map (fun unit => (unit, true)) := by
    intro b hmem
    obtain ⟨u, hu, heq⟩ := mem_map.1 hmem
    cases heq
    obtain hu | hu := mem_append.1 hu
    · exact absurd hu (by decide)
    · exact env.hash_no_bracket b hu
  rw [hsplit, hsplit] at h
  obtain ⟨hhash, hrest⟩ := Delimited.append_sep_left (hfree block) (hfree block') h
  have hinj : Function.Injective fun unit : UInt16 => (unit, true) := fun u v heq => by
    cases heq
    rfl
  have htext := append_cancel_left (hinj.list_map hhash)
  exact ⟨env.hash_inj _ _ htext, hrest⟩

/-- There is one way only to read a marked text. -/
theorem cells_inj (h : cells env pieces = cells env pieces') : pieces = pieces' := by
  induction pieces generalizing pieces' with
  | nil =>
    cases pieces' with
    | nil => rfl
    | cons p pieces' =>
      cases p with
      | unit u => simp [Piece.cells] at h
      | ref block =>
        obtain ⟨rest, hrest⟩ := inserted_eq_cons env block
        simp [Piece.cells, hrest] at h
  | cons p pieces ih =>
    cases pieces' with
    | nil =>
      cases p with
      | unit u => simp [Piece.cells] at h
      | ref block =>
        obtain ⟨rest, hrest⟩ := inserted_eq_cons env block
        simp [Piece.cells, hrest] at h
    | cons p' pieces' =>
      rw [cells_cons, cells_cons] at h
      cases p with
      | unit u =>
        cases p' with
        | unit u' =>
          simp only [Piece.cells, singleton_append, List.cons.injEq, Prod.mk.injEq, and_true] at h
          rw [h.1, ih h.2]
        | ref block =>
          obtain ⟨rest, hrest⟩ := inserted_eq_cons env block
          simp [Piece.cells, hrest] at h
      | ref block =>
        cases p' with
        | unit u' =>
          obtain ⟨rest, hrest⟩ := inserted_eq_cons env block
          simp [Piece.cells, hrest] at h
        | ref block' =>
          obtain ⟨hblock, hrest⟩ := inserted_append_inj h
          rw [hblock, ih hrest]

/-- One reading that gives the original is enough. -/
theorem Restores.of_decodes {original : Text} (hwhole : out.marked.countP (·.2) = out.insertedUnits)
    (hdecodes : Decodes env found out pieces) (hexpand : expand pieces = original) :
    Restores env found out original := by
  refine ⟨hwhole, ⟨pieces, hdecodes⟩, fun pieces' hdecodes' => ?_⟩
  rw [← cells_inj (hdecodes.cells.symm.trans hdecodes'.cells), hexpand]

theorem restores_untouched (text : Text) : Restores env found (untouched text) text :=
  .of_decodes (countP_plain text) ⟨(cells_literal text).symm, foundFrom_literal _ _⟩
    (expand_literal text)

/-- The pieces of a text with one block replaced. -/
theorem decodes_replaced {before after : Text} (hfound : found before block) :
    Decodes env found ⟨plain before ++ inserted env block ++ plain after,
      (marker env block).length⟩ (literal before ++ .ref block :: literal after) := by
  refine ⟨by simp [Piece.cells], foundFrom_append.2 ⟨foundFrom_literal _ _, ?_⟩⟩
  rw [expand_literal]
  exact ⟨hfound, foundFrom_literal _ _⟩

/-- It is read back exactly if it was that text. -/
theorem restores_replaced_iff {before after original : Text} :
    Restores env found ⟨plain before ++ inserted env block ++ plain after,
      (marker env block).length⟩ original ↔
      found before block ∧ original = before ++ block ++ after := by
  have hexpand : expand (literal before ++ .ref block :: literal after) =
      before ++ block ++ after := by
    simp [Piece.expand]
  constructor
  · rintro ⟨-, ⟨pieces, hdecodes⟩, hexact⟩
    have hcells : cells env (literal before ++ .ref block :: literal after) =
        plain before ++ inserted env block ++ plain after := by
      simp [Piece.cells]
    have hpieces := cells_inj (hdecodes.cells.symm.trans hcells.symm)
    have hfound := hdecodes.found
    rw [hpieces, foundFrom_append, List.nil_append, expand_literal] at hfound
    refine ⟨hfound.2.1, ?_⟩
    rw [← hexact pieces hdecodes, hpieces, hexpand]
  · rintro ⟨hfound, rfl⟩
    exact .of_decodes (by simp) (decodes_replaced hfound) hexpand

end OmniRoute.SessionDedup
