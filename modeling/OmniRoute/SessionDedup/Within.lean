import OmniRoute.SessionDedup.Across

/-!
# Deduplication within a slot

A single slot is deduplicated round by round, the longest block first. Each round looks for its
block in the string that the rounds before have left, markers and all, keeps the first occurrence
and replaces the others. An occurrence may begin or end inside a marker; if such a one is
replaced, the marker is gone.

As long as the later occurrences are plain units, the pieces are kept (`Rewrites.pieces`): the
kept occurrence, or the block of a marker that it runs into, is there to be referred to.

**Main result (`restores_within_iff`).** The slot can be read back exactly when no round
overwrites a unit of a marker.
-/

namespace OmniRoute.SessionDedup

open List Or

variable {env : Env} {minBlockChars : ℚ} {text block : Text} {pieces : List Piece}
  {m front rest : Marked} {out : Output}

/-! ## Overwriting markers -/

/-- `replaceAll` overwrites a unit of a marker. -/
def cutsAll (block : Text) : ℕ → Marked → Bool
  | 0, _ => false
  | fuel + 1, cells =>
    if block.isPrefixOf cells.text then
      (cells.take block.length).any (·.2) || cutsAll block fuel (cells.drop block.length)
    else
      match cells with
      | [] => false
      | _ :: cells => cutsAll block fuel cells

/-- `replaceLater` overwrites a unit of a marker. -/
def cutsLater (block : Text) : ℕ → Marked → Bool
  | 0, _ => false
  | fuel + 1, cells =>
    if block.isPrefixOf cells.text then cutsAll block fuel (cells.drop block.length)
    else
      match cells with
      | [] => false
      | _ :: cells => cutsLater block fuel cells

/-- A round overwrites a unit of a marker. -/
def cutsMarker (out : Output) (block : Text) : Bool :=
  decide (2 ≤ occurrences block out.marked.length out.text) &&
    cutsLater block out.marked.length out.marked

/-- No round overwrites a unit of a marker. -/
def cleanRounds (env : Env) : Output → List Text → Bool
  | _, [] => true
  | out, block :: blocks =>
    !cutsMarker out block && cleanRounds env (dedupRound env out block) blocks

/-! ## Counting the units of markers -/

theorem marker_length_pos (env : Env) (block : Text) : 0 < (marker env block).length := by
  simp [marker, units]

theorem countP_replaceAll (env : Env) (block : Text) (fuel : ℕ) (m : Marked) :
    ((replaceAll env block fuel m).marked.countP (·.2) ≤
      m.countP (·.2) + (replaceAll env block fuel m).insertedUnits) ∧
    (cutsAll block fuel m = false → (replaceAll env block fuel m).marked.countP (·.2) =
      m.countP (·.2) + (replaceAll env block fuel m).insertedUnits) ∧
    (cutsAll block fuel m = true → (replaceAll env block fuel m).marked.countP (·.2) <
      m.countP (·.2) + (replaceAll env block fuel m).insertedUnits) := by
  induction fuel generalizing m with
  | zero => simp [replaceAll, cutsAll]
  | succ fuel ih =>
    rw [replaceAll.eq_def, cutsAll.eq_def]
    simp only
    split
    · obtain ⟨hle, heq, hlt⟩ := ih (m.drop block.length)
      have hsplit : m.countP (·.2) = (m.take block.length).countP (·.2) +
          (m.drop block.length).countP (·.2) := by
        rw [← countP_append, take_append_drop]
      have hany : (m.take block.length).any (·.2) = true ↔
          0 < (m.take block.length).countP (·.2) := by
        simp [any_eq_true, countP_pos_iff]
      simp only [countP_append, countP_inserted, Bool.or_eq_false_iff, Bool.or_eq_true, hany,
        hsplit]
      refine ⟨by omega, fun ⟨hnone, hrest⟩ => ?_, fun hcut => ?_⟩
      · have hzero : (m.take block.length).countP (·.2) = 0 := by
          rw [← Bool.not_eq_true, hany] at hnone
          omega
        have heq' := heq hrest
        omega
      · obtain hcut | hcut := hcut
        · omega
        · have hlt' := hlt hcut
          omega
    · cases m with
      | nil => simp
      | cons cell m =>
        obtain ⟨hle, heq, hlt⟩ := ih m
        simp only [countP_cons]
        refine ⟨by omega, fun h => ?_, fun h => ?_⟩
        · have heq' := heq h
          omega
        · have hlt' := hlt h
          omega

theorem text_take (m : Marked) (n : ℕ) : Marked.text (m.take n) = m.text.take n := map_take

/-- Nothing is replaced, or the block is kept once and replaced in the rest. -/
theorem replaceLater_cases (env : Env) (block : Text) (fuel : ℕ) (m : Marked) :
    (replaceLater env block fuel m = ⟨m, 0⟩ ∧ cutsLater block fuel m = false) ∨
    ∃ front keep rest fuel', m = front ++ keep ++ rest ∧ keep.text = block ∧
      replaceLater env block fuel m = ⟨front ++ keep ++ (replaceAll env block fuel' rest).marked,
        (replaceAll env block fuel' rest).insertedUnits⟩ ∧
      cutsLater block fuel m = cutsAll block fuel' rest := by
  induction fuel generalizing m with
  | zero => exact inl ⟨rfl, rfl⟩
  | succ fuel ih =>
    rw [replaceLater.eq_def, cutsLater.eq_def]
    simp only
    split
    · next hprefix =>
      refine inr ⟨[], m.take block.length, m.drop block.length, fuel, by simp, ?_, rfl, rfl⟩
      have htake := prefix_iff_eq_take.1 ( isPrefixOf_iff_prefix.1 hprefix)
      rw [text_take, ← htake]
    · cases m with
      | nil => exact inl ⟨rfl, rfl⟩
      | cons cell m =>
        obtain ⟨heq, hcut⟩ | ⟨front, keep, rest, fuel', rfl, hkeep, heq, hcut⟩ := ih m
        · exact inl ⟨by simp [heq], hcut⟩
        · refine inr ⟨cell :: front, keep, rest, fuel', rfl, hkeep, ?_, hcut⟩
          simp only
          rw [heq]
          rfl

theorem countP_replaceLater (env : Env) (block : Text) (fuel : ℕ) (m : Marked) :
    ((replaceLater env block fuel m).marked.countP (·.2) ≤
      m.countP (·.2) + (replaceLater env block fuel m).insertedUnits) ∧
    (cutsLater block fuel m = false → (replaceLater env block fuel m).marked.countP (·.2) =
      m.countP (·.2) + (replaceLater env block fuel m).insertedUnits) ∧
    (cutsLater block fuel m = true → (replaceLater env block fuel m).marked.countP (·.2) <
      m.countP (·.2) + (replaceLater env block fuel m).insertedUnits) := by
  obtain ⟨heq, hcut⟩ | ⟨front, keep, rest, fuel', rfl, -, heq, hcut⟩ :=
    replaceLater_cases env block fuel m
  · simp [heq, hcut]
  · obtain ⟨hle, heq', hlt⟩ := countP_replaceAll env block fuel' rest
    rw [heq, hcut]
    simp only [countP_append]
    refine ⟨by omega, fun h => ?_, fun h => ?_⟩
    · have hsame := heq' h
      omega
    · have hless := hlt h
      omega

/-- The units of markers that are gone stay gone. -/
theorem countP_dedupRound (env : Env) (out : Output) (block : Text)
    (hle : out.marked.countP (·.2) ≤ out.insertedUnits) :
    (dedupRound env out block).marked.countP (·.2) ≤ (dedupRound env out block).insertedUnits ∧
    (out.marked.countP (·.2) < out.insertedUnits ∨ cutsMarker out block = true →
      (dedupRound env out block).marked.countP (·.2) <
        (dedupRound env out block).insertedUnits) := by
  obtain ⟨hle', -, hlt⟩ := countP_replaceLater env block out.marked.length
    out.marked
  rw [dedupRound, cutsMarker]
  split
  · next hfew => simp [not_le.2 hfew, hle]
  · simp only [Bool.and_eq_true, decide_eq_true_eq]
    refine ⟨by omega, fun h => ?_⟩
    obtain h | ⟨-, hcut⟩ := h
    · omega
    · have hless := hlt hcut
      omega

theorem whole_of_foldl (blocks : List Text) (out : Output)
    (hle : out.marked.countP (·.2) ≤ out.insertedUnits)
    (hwhole : (blocks.foldl (dedupRound env) out).marked.countP (·.2) =
      (blocks.foldl (dedupRound env) out).insertedUnits) :
    out.marked.countP (·.2) = out.insertedUnits ∧ cleanRounds env out blocks = true := by
  induction blocks generalizing out with
  | nil => exact ⟨hwhole, rfl⟩
  | cons block blocks ih =>
    obtain ⟨hle', hlt⟩ := countP_dedupRound env out block hle
    obtain ⟨heq, hclean⟩ := ih _ hle' hwhole
    have hnot : ¬(out.marked.countP (·.2) < out.insertedUnits ∨ cutsMarker out block = true) :=
      fun h => absurd (hlt h) (by omega)
    rw [not_or] at hnot
    refine ⟨by omega, ?_⟩
    rw [cleanRounds, hclean, Bool.and_true, Bool.not_eq_true']
    exact eq_false_of_ne_true hnot.2

/-! ## Replacing plain units -/

/-- Occurrences of a block among plain units are replaced by its marker. -/
inductive Rewrites (env : Env) (block : Text) : Marked → Marked → Prop
  | stop (m : Marked) : Rewrites env block m m
  | skip (cell : UInt16 × Bool) {m m' : Marked} (h : Rewrites env block m m') :
      Rewrites env block (cell :: m) (cell :: m')
  | swap {m m' : Marked} (h : Rewrites env block m m') :
      Rewrites env block (plain block ++ m) (inserted env block ++ m')

theorem plain_of_unmarked {m : Marked} (h : m.any (·.2) = false) : m = plain m.text := by
  induction m with
  | nil => rfl
  | cons cell m ih =>
    simp only [any_cons, Bool.or_eq_false_iff] at h
    obtain ⟨u, b⟩ := cell
    obtain rfl : b = false := h.1
    exact congrArg ((u, false) :: ·) (ih h.2)

theorem rewrites_replaceAll {fuel : ℕ} {m : Marked} (h : cutsAll block fuel m = false) :
    Rewrites env block m (replaceAll env block fuel m).marked := by
  induction fuel generalizing m with
  | zero => exact .stop m
  | succ fuel ih =>
    rw [cutsAll.eq_def] at h
    rw [replaceAll.eq_def]
    simp only at h ⊢
    split at h
    · next hprefix =>
      rw [if_pos hprefix]
      obtain ⟨hplain, hrest⟩ := Bool.or_eq_false_iff.1 h
      have htake := prefix_iff_eq_take.1 ( isPrefixOf_iff_prefix.1 hprefix)
      have hblock : m.take block.length = plain block := by
        rw [plain_of_unmarked hplain, text_take, ← htake]
      have hswap : Rewrites env block (plain block ++ _) (inserted env block ++ _) :=
        .swap (ih hrest)
      rwa [← hblock, take_append_drop] at hswap
    · next hno =>
      rw [if_neg hno]
      cases m with
      | nil => exact .stop []
      | cons cell m => exact .skip cell (ih h)

theorem cells_eq_nil (h : cells env pieces = []) : pieces = [] := cells_inj (h.trans cells_nil.symm)

/-- A plain unit is a piece. -/
theorem split_unit {u : UInt16} (h : front ++ (u, false) :: rest = cells env pieces) :
    ∃ p₁ p₂, pieces = p₁ ++ .unit u :: p₂ ∧ front = cells env p₁ ∧ rest = cells env p₂ := by
  induction pieces generalizing front with
  | nil => simp at h
  | cons p pieces ih =>
    rw [cells_cons] at h
    cases p with
    | unit v =>
      cases front with
      | nil =>
        simp only [nil_append, Piece.cells, singleton_append, cons.injEq,
          Prod.mk.injEq, and_true] at h
        exact ⟨[], pieces, by rw [h.1]; rfl, rfl, h.2⟩
      | cons cell front =>
        simp only [cons_append, Piece.cells, nil_append, cons.injEq] at h
        obtain ⟨p₁, p₂, rfl, rfl, rfl⟩ := ih h.2
        exact ⟨.unit v :: p₁, p₂, rfl, by rw [h.1]; rfl, rfl⟩
    | ref block =>
      have hmarked : (u, false) ∉ inserted env block := fun hmem => by
        simp [inserted] at hmem
      obtain ⟨x, hmarker, hrest⟩ | ⟨x, rfl, hcells⟩ := append_eq_append_iff.1 h
      · cases x with
        | nil =>
          obtain ⟨p₁, p₂, rfl, hnil, rfl⟩ := @ih [] hrest
          rw [append_nil] at hmarker
          refine ⟨.ref block :: p₁, p₂, rfl, ?_, rfl⟩
          rw [cells_cons, ← hnil, append_nil]
          exact hmarker.symm
        | cons cell x =>
          obtain rfl : (u, false) = cell := (cons.inj hrest).1
          have hmem : (u, false) ∈ inserted env block := by
            rw [show inserted env block = _ from hmarker]
            simp
          exact absurd hmem hmarked
      · obtain ⟨p₁, p₂, rfl, rfl, rfl⟩ := ih hcells.symm
        exact ⟨.ref block :: p₁, p₂, rfl, rfl, rfl⟩

/-- A run of plain units is a run of pieces. -/
theorem split_plain {text : Text} (h : front ++ plain text ++ rest = cells env pieces)
    (htext : text ≠ []) :
    ∃ p₁ p₂, pieces = p₁ ++ literal text ++ p₂ ∧ front = cells env p₁ ∧ rest = cells env p₂ := by
  induction text generalizing front pieces with
  | nil => exact absurd rfl htext
  | cons u text ih =>
    have hunit : front ++ (u, false) :: (plain text ++ rest) = cells env pieces := by
      rw [← h]
      simp [plain]
    obtain ⟨p₁, p₂, rfl, rfl, hrest⟩ := split_unit hunit
    cases text with
    | nil => exact ⟨p₁, p₂, by simp [literal], rfl, hrest⟩
    | cons u' text =>
      obtain ⟨q₁, q₂, rfl, hnil, rfl⟩ := @ih p₂ [] hrest (cons_ne_nil _ _)
      rw [cells_eq_nil hnil.symm]
      exact ⟨p₁, q₂, by simp [literal], rfl, rfl⟩

/-- Replacing plain occurrences keeps what the pieces stand for, if the block is found wherever
the replacements can be. -/
theorem Rewrites.keeps {found : Text → Text → Prop} {m m' : Marked} (h : Rewrites env block m m')
    (hmono : ∀ before after, found before block → found (before ++ after) block)
    (hblock : block ≠ []) {front : Marked} {pieces : List Piece}
    (hcells : front ++ m = cells env pieces) (hfound : FoundFrom found [] pieces)
    (hthere : ∀ p₁ p₂, pieces = p₁ ++ p₂ → front.length ≤ (cells env p₁).length →
      found (expand p₁) block) :
    ∃ pieces', front ++ m' = cells env pieces' ∧ expand pieces' = expand pieces ∧
      FoundFrom found [] pieces' ∧
      ∀ b, .ref b ∈ pieces' → .ref b ∈ pieces ∨ b = block := by
  induction h generalizing front pieces with
  | stop m => exact ⟨pieces, hcells, rfl, hfound, fun _ hb => inl hb⟩
  | skip cell h ih =>
    rw [append_cons] at hcells ⊢
    refine ih hcells hfound fun p₁ p₂ hp hlen => hthere p₁ p₂ hp ?_
    simp only [length_append, length_singleton] at hlen
    omega
  | @swap m m' h ih =>
    obtain ⟨p₁, p₂, rfl, rfl, rfl⟩ := split_plain (by rwa [append_assoc]) hblock
    rw [append_assoc] at hfound
    obtain ⟨hfirst, hsecond⟩ := foundFrom_append.1 hfound
    obtain ⟨-, hafter⟩ := foundFrom_append.1 hsecond
    rw [expand_literal] at hafter
    have hhere := hthere p₁ (literal block ++ p₂) (append_assoc _ _ _) (le_refl _)
    have hlater : ∀ q₁ q₂, p₁ ++ .ref block :: p₂ = q₁ ++ q₂ →
        (cells env p₁ ++ inserted env block).length ≤ (cells env q₁).length →
        found (expand q₁) block := by
      intro q₁ q₂ hq hlen
      obtain ⟨x, rfl, -⟩ | ⟨x, rfl, -⟩ := append_eq_append_iff.1 hq
      · rw [expand_append]
        exact hmono _ _ hhere
      · have hpos : 0 < (inserted env block).length := by
          rw [inserted, length_map]
          exact marker_length_pos env block
        simp only [cells_append, length_append] at hlen
        omega
    obtain ⟨pieces', hcells', hexpand, hfound', hrefs⟩ := @ih
      (cells env p₁ ++ inserted env block) (p₁ ++ .ref block :: p₂) (by simp [Piece.cells])
      (foundFrom_append.2 ⟨hfirst, hhere, hafter⟩) hlater
    refine ⟨pieces', ?_, ?_, hfound', fun b hb => ?_⟩
    · rw [← hcells', append_assoc]
    · rw [hexpand]
      simp [Piece.expand]
    · obtain hmem | rfl := hrefs b hb
      · simp only [mem_append, mem_cons] at hmem ⊢
        obtain hmem | heq | hmem := hmem
        · exact inl (inl (inl hmem))
        · cases heq
          exact inr rfl
        · exact inl (inr hmem)
      · exact inr rfl

/-! ## Rounds -/

/-- What the rounds keep, as long as they are clean. -/
structure Readable (env : Env) (text : Text) (out : Output) (pieces : List Piece) : Prop where
  decodes : Decodes env (FoundWithin []) out pieces
  whole : out.marked.countP (·.2) = out.insertedUnits
  expand : expand pieces = text

theorem exists_ref_of_marked (env : Env) {cell : UInt16 × Bool} (hmem : cell ∈ cells env pieces)
    (hcell : cell.2 = true) : ∃ b, Piece.ref b ∈ pieces := by
  obtain ⟨p, hp, hmem⟩ := mem_flatMap.1 hmem
  cases p with
  | unit u =>
    obtain rfl := mem_singleton.1 hmem
    cases hcell
  | ref b => exact ⟨b, hp⟩

/-- A block whose occurrence the pieces contain is in their expansion, if all their references
are to blocks that end in it. -/
theorem infix_of_kept {keep : Marked} {x : Marked} (hcells : cells env pieces = front ++ keep ++ x)
    (hkeep : keep.text = block) (hblock : block ≠ [])
    (hrefs : ∀ b, .ref b ∈ pieces → block <:+ b) : block <:+: expand pieces := by
  by_cases hplain : keep.any (·.2) = true
  · obtain ⟨cell, hcell, hmarked⟩ := any_eq_true.1 hplain
    obtain ⟨b, hb⟩ := exists_ref_of_marked env
      (hcells ▸ by simp [hcell] : cell ∈ cells env pieces) hmarked
    obtain ⟨before, after, rfl⟩ := append_of_mem hb
    refine (hrefs b hb).isInfix.trans ?_
    rw [expand_append, expand_cons]
    exact ⟨expand before, expand after, by simp [Piece.expand]⟩
  · rw [plain_of_unmarked (eq_false_of_ne_true hplain), hkeep] at hcells
    obtain ⟨p₁, p₂, rfl, -, -⟩ := split_plain hcells.symm hblock
    exact ⟨expand p₁, expand p₂, by simp⟩

/-- A clean round keeps the pieces; all it adds are references to its block. -/
theorem readable_dedupRound (h : Readable env text out pieces) (hblock : block ≠ [])
    (hrefs : ∀ b, .ref b ∈ pieces → block <:+ b) (hclean : cutsMarker out block = false) :
    ∃ pieces', Readable env text (dedupRound env out block) pieces' ∧
      ∀ b, .ref b ∈ pieces' → .ref b ∈ pieces ∨ b = block := by
  rw [dedupRound]
  split
  · exact ⟨pieces, h, fun _ hb => inl hb⟩
  · next hmany =>
    have hcut : cutsLater block out.marked.length out.marked = false := by
      rw [cutsMarker, decide_eq_true (not_lt.1 hmany), Bool.true_and] at hclean
      exact hclean
    obtain ⟨-, hcount, -⟩ := countP_replaceLater env block
      out.marked.length out.marked
    have hwhole := hcount hcut
    obtain ⟨heq, -⟩ | ⟨front, keep, rest, fuel, hmarked, hkeep, heq, hcuts⟩ :=
      replaceLater_cases env block out.marked.length out.marked
    · rw [heq]
      exact ⟨pieces, ⟨h.decodes, by simpa using h.whole, h.expand⟩, fun _ hb => inl hb⟩
    · rw [heq] at hwhole ⊢
      have hall : front ++ keep ++ rest = cells env pieces := hmarked.symm.trans h.decodes.cells
      have hthere : ∀ p₁ p₂, pieces = p₁ ++ p₂ → (front ++ keep).length ≤ (cells env p₁).length →
          FoundWithin [] (expand p₁) block := by
        rintro p₁ p₂ rfl hlen
        have hprefix : front ++ keep <+: cells env p₁ :=
          prefix_of_prefix_length_le (prefix_append _ rest)
            (hall.trans (cells_append _ _) ▸ prefix_append _ _) hlen
        obtain ⟨x, hx⟩ := hprefix
        exact infix_of_kept hx.symm hkeep hblock fun b hb => hrefs b (mem_append_left _ hb)
      obtain ⟨pieces', hcells', hexpand, hfound, hrefs'⟩ :=
        (rewrites_replaceAll (hcuts.symm.trans hcut)).keeps
          (fun _ _ hin => hin.trans (prefix_append _ _).isInfix) hblock hall h.decodes.found
          hthere
      refine ⟨pieces', ⟨⟨hcells', hfound⟩, ?_, hexpand.trans h.expand⟩, hrefs'⟩
      rw [hwhole, h.whole]

theorem readable_foldl {blocks : List Text} (h : Readable env text out pieces)
    (hblocks : ∀ b ∈ blocks, b ≠ []) (hpairs : blocks.Pairwise fun a b => b <:+ a)
    (hrefs : ∀ b ∈ blocks, ∀ c, .ref c ∈ pieces → b <:+ c)
    (hclean : cleanRounds env out blocks = true) :
    ∃ pieces', Readable env text (blocks.foldl (dedupRound env) out) pieces' := by
  induction blocks generalizing out pieces with
  | nil => exact ⟨pieces, h⟩
  | cons block blocks ih =>
    simp only [cleanRounds, Bool.and_eq_true, Bool.not_eq_true'] at hclean
    obtain ⟨hhead, htail⟩ := pairwise_cons.1 hpairs
    obtain ⟨pieces', hround, hrefs'⟩ := readable_dedupRound h (hblocks block mem_cons_self)
      (hrefs block mem_cons_self) hclean.1
    refine ih hround (fun b hb => hblocks b (mem_cons_of_mem _ hb)) htail
      (fun b hb c hc => ?_) hclean.2
    obtain hc | rfl := hrefs' c hc
    · exact hrefs b (mem_cons_of_mem _ hb) c hc
    · exact hhead b hb

/-! ## The order of the rounds -/

theorem nodup_suffixBlocksFrom (starts : ℕ) (lines seen : List Text) (total : ℕ) :
    (suffixBlocksFrom minBlockChars starts lines seen total).Nodup ∧
      ∀ b ∈ suffixBlocksFrom minBlockChars starts lines seen total, b ∉ seen := by
  induction starts generalizing lines seen total with
  | zero => simp [suffixBlocksFrom]
  | succ starts ih =>
    cases lines with
    | nil => simp [suffixBlocksFrom]
    | cons line lines =>
      rw [suffixBlocksFrom]
      split
      · next hblock =>
        split
        · exact ⟨nodup_singleton _, fun b hb => mem_singleton.1 hb ▸ hblock.2.2⟩
        · obtain ⟨hnodup, hfresh⟩ := ih lines (joinLines (line :: lines) :: seen)
            (total + (joinLines (line :: lines)).length)
          refine ⟨nodup_cons.2 ⟨fun hmem => hfresh _ hmem mem_cons_self, hnodup⟩, fun b hb => ?_⟩
          obtain rfl | hb := mem_cons.1 hb
          · exact hblock.2.2
          · exact fun hseen => hfresh b hb (mem_cons_of_mem _ hseen)
      · exact ih lines seen total

/-- A block ends in the blocks after it. -/
theorem pairwise_suffixBlocksFrom (starts : ℕ) (lines seen : List Text) (total : ℕ) :
    (suffixBlocksFrom minBlockChars starts lines seen total).Pairwise fun a b => b <:+ a := by
  induction starts generalizing lines seen total with
  | zero => simp [suffixBlocksFrom]
  | succ starts ih =>
    cases lines with
    | nil => simp [suffixBlocksFrom]
    | cons line lines =>
      rw [suffixBlocksFrom]
      split
      · split
        · exact pairwise_singleton _ _
        · refine pairwise_cons.2 ⟨fun b hb => ?_, ih _ _ _⟩
          obtain ⟨n, -, rfl⟩ := suffixBlocksFrom_spec hb
          exact joinLines_drop_suffix (line :: lines) (n + 1)
      · exact ih lines seen total

theorem pairwise_findSuffixBlocks (minBlockChars : ℚ) (text : Text) :
    (findSuffixBlocks minBlockChars text).Pairwise fun a b => b <:+ a :=
  pairwise_suffixBlocksFrom _ _ _ _

/-- The blocks of a text are sorted as they come: each occurs once, and they get shorter. -/
theorem sortedBlocks_findSuffixBlocks (minBlockChars : ℚ) (text : Text) :
    sortedBlocks (findSuffixBlocks minBlockChars text) = findSuffixBlocks minBlockChars text := by
  have hnodup : (findSuffixBlocks minBlockChars text).Nodup :=
    (nodup_suffixBlocksFrom _ _ _ _).1
  refine mergeSort_of_pairwise ?_
  refine (Pairwise.and_mem.1 (pairwise_findSuffixBlocks minBlockChars text)).imp ?_
  rintro a b ⟨ha, hb, hsuffix⟩
  rw [count_eq_one_of_mem hnodup ha, count_eq_one_of_mem hnodup hb]
  simp [hsuffix.length_le]

/-! ## The slot -/

/-- No round of the deduplication overwrites a unit of a marker. -/
def CleanWithin (env : Env) (minBlockChars : ℚ) (text : Text) : Prop :=
  2 ≤ (findSuffixBlocks minBlockChars text).length →
    cleanRounds env (untouched text) (sortedBlocks (findSuffixBlocks minBlockChars text)) = true

/-- A single slot can be read back exactly when no round overwrites a marker. -/
theorem restores_within_iff (env : Env) (minBlockChars : ℚ) (text : Text) :
    Restores env (FoundWithin []) (dedupeWithinMessage env minBlockChars text) text ↔
      CleanWithin env minBlockChars text := by
  rw [dedupeWithinMessage, CleanWithin]
  split
  · next hfew => exact iff_of_true (restores_untouched text) fun hmany => absurd hmany (by omega)
  · next hmany =>
    rw [not_lt] at hmany
    constructor
    · rintro ⟨hwhole, -, -⟩ -
      exact (whole_of_foldl _ _ (by simp [untouched]) hwhole).2
    · intro hclean
      rw [sortedBlocks_findSuffixBlocks] at hclean ⊢
      have hstart : Readable env text (untouched text) (literal text) :=
        ⟨⟨(cells_literal text).symm, foundFrom_literal _ _⟩, countP_plain text,
          expand_literal text⟩
      obtain ⟨pieces, hreadable⟩ := readable_foldl hstart
        (fun b hb => ne_nil_of_mem_blocks hb) (pairwise_findSuffixBlocks minBlockChars text)
        (fun _ _ c hc => absurd hc (by simp [literal])) (hclean hmany)
      exact .of_decodes hreadable.whole hreadable.decodes hreadable.expand

end OmniRoute.SessionDedup
