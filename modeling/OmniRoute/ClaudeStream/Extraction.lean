import OmniRoute.ClaudeStream.ToolMarkup

/-!
# Extraction in parts

What `extractXmlInvokeBlocks` makes of a text as a relation (`Extracts`): what is left of the text,
the calls that are found, and the markup that is not complete.

**Main result (`Extracts.append`).** Extracting a text in two parts, the second behind the markup
that the first left, gives what extracting it at once gives, if no marker is cut.
-/

namespace OmniRoute.ClaudeStream

open List Option

variable {N : Type}

/-! ## Blocks -/

/-- The length of the block of a marker, if it is complete. -/
def blockEnd (rest : List Char) : Marker → Option ℕ
  | .invoke _ _ => (indexOfLiteral invokeEnd rest).map fun i => i + invokeEnd.length
  | .toolCallTag _ => (indexOfLiteral toolCallEnd rest).map fun i => i + toolCallEnd.length
  | .toolCallText _ after => (jsonEndIndex {} after).map fun i => rest.length - after.length + i

/-- What stays of a complete block, and the call that is made of it. -/
def readBlock [Zero N] [DecidableEq N] (parse : String → Option (Json N)) (rest : List Char)
    (n : ℕ) : Marker → List Char × Option (String × Json N)
  | .invoke name after =>
    let innerXml := (rest.take (n - invokeEnd.length)).drop (rest.length - after.length)
    ([], some (String.ofList name, .obj (parameters (innerXml.length + 1) innerXml [])))
  | .toolCallTag _ =>
    match readToolCall parse
      ((rest.take (n - toolCallEnd.length)).drop toolCallStart.length) with
    | none => (rest.take n, none)
    | some call => ([], call)
  | .toolCallText name after =>
    match parse (String.ofList (after.take (n - (rest.length - after.length)))) with
    | none => (rest.take n, none)
    | some args => ([], some (String.ofList name, args))

/-- What is left of a text, the calls in it and the incomplete markup at its end. -/
inductive Extracts [Zero N] [DecidableEq N] (parse : String → Option (Json N)) :
    List Char → List Char → List (String × Json N) → List Char → Prop
  | plain {text : List Char} (hnone : firstMarker text = none) : Extracts parse text text [] []
  | pending {text before rest : List Char} {m : Marker}
      (hfirst : firstMarker text = some (before, rest, m)) (hend : blockEnd rest m = none) :
      Extracts parse text before [] rest
  | block {text before rest : List Char} {m : Marker} {n : ℕ} {cleaned buffer : List Char}
      {calls : List (String × Json N)} (hfirst : firstMarker text = some (before, rest, m))
      (hend : blockEnd rest m = some n) (hrest : Extracts parse (rest.drop n) cleaned calls buffer) :
      Extracts parse text (before ++ ((readBlock parse rest n m).1 ++ cleaned))
        ((readBlock parse rest n m).2.toList ++ calls) buffer

/-! ## Places of literals -/

variable {text : List Char}

theorem indexOfLiteral_append {literal : List Char} {i : ℕ}
    (h : indexOfLiteral literal text = some i) (z : List Char) :
    indexOfLiteral literal (text ++ z) = some i ∧ i + literal.length ≤ text.length := by
  induction text generalizing i with
  | nil =>
    unfold indexOfLiteral at h
    split at h
    · next hprefix =>
      have hnil : literal = [] := prefix_nil.1 ( isPrefixOf_iff_prefix.1 hprefix)
      cases h
      subst hnil
      refine ⟨?_, Nat.le_refl _⟩
      cases z <;> rfl
    · cases h
  | cons c text ih =>
    unfold indexOfLiteral at h
    split at h
    · next hprefix =>
      cases h
      have hpre := isPrefixOf_iff_prefix.1 hprefix
      refine ⟨?_, by rw [Nat.zero_add]; exact hpre.length_le⟩
      have hlong : literal.isPrefixOf (c :: (text ++ z)) = true :=
        isPrefixOf_iff_prefix.2 (hpre.trans (prefix_append (c :: text) z))
      rw [cons_append, indexOfLiteral, if_pos hlong]
    · next hnot =>
      obtain ⟨j, hj, rfl⟩ := map_eq_some_iff.1 h
      obtain ⟨hindex, hle⟩ := ih hj
      refine ⟨?_, by rw [length_cons]; omega⟩
      have hshort : ¬literal.isPrefixOf (c :: (text ++ z)) = true := by
        intro hlong
        have hpre := isPrefixOf_iff_prefix.1 hlong
        refine hnot ( isPrefixOf_iff_prefix.2 ?_)
        rw [← cons_append] at hpre
        exact prefix_of_prefix_length_le hpre (prefix_append _ _) (by rw [length_cons]; omega)
      rw [cons_append, indexOfLiteral, if_neg hshort, hindex]
      rfl

theorem jsonEndIndex_append {st : BraceScan} {i : ℕ} (h : jsonEndIndex st text = some i)
    (z : List Char) : jsonEndIndex st (text ++ z) = some i ∧ 1 ≤ i ∧ i ≤ text.length := by
  induction text generalizing st i with
  | nil => cases h
  | cons c text ih =>
    have hstep : ∀ st', (jsonEndIndex st' text).map (fun i => i + 1) = some i →
        (jsonEndIndex st' (text ++ z)).map (fun i => i + 1) = some i ∧ 1 ≤ i ∧
          i ≤ (c :: text).length := by
      intro st' hst'
      obtain ⟨j, hj, rfl⟩ := map_eq_some_iff.1 hst'
      obtain ⟨hindex, -, hle⟩ := ih hj
      rw [hindex]
      exact ⟨rfl, by omega, by rw [length_cons]; omega⟩
    rw [jsonEndIndex] at h
    rw [cons_append, jsonEndIndex]
    split_ifs at h ⊢
    · exact hstep _ h
    · exact hstep _ h
    · exact hstep _ h
    · exact hstep _ h
    · exact hstep _ h
    · cases h
      exact ⟨rfl, Nat.le_refl _, by rw [length_cons]; omega⟩
    · exact hstep _ h
    · exact hstep _ h

/-! ## Markers and what follows them -/

variable {rest : List Char}

variable {m : Marker}

/-- A complete block stays the same whatever follows. -/
theorem block_append [Zero N] [DecidableEq N] (parse : String → Option (Json N))
    {n : ℕ} (hm : markerAt rest = some m) (hend : blockEnd rest m = some n) (z : List Char) :
    1 ≤ n ∧ n ≤ rest.length ∧ ∃ m', markerAt (rest ++ z) = some m' ∧
      blockEnd (rest ++ z) m' = some n ∧
      readBlock parse (rest ++ z) n m' = readBlock parse rest n m := by
  have htake : ∀ k, k ≤ rest.length → (rest ++ z).take k = rest.take k :=
    fun k hk => take_append_of_le_length hk
  unfold markerAt at hm
  rcases or_eq_some_iff.1 hm with hinvoke | ⟨hnone, hm⟩
  · obtain ⟨name, after, rfl, hsuffix, happend⟩ := invokeAt_append hinvoke z
    obtain ⟨i, hi, rfl⟩ := map_eq_some_iff.1 hend
    obtain ⟨hindex, hle⟩ := indexOfLiteral_append hi z
    have hafter := hsuffix.length_le
    refine ⟨by simp [invokeEnd], hle, .invoke name (after ++ z), ?_, ?_, ?_⟩
    · rw [markerAt, happend]
      rfl
    · rw [blockEnd, hindex]
      rfl
    · have hopen : (rest ++ z).length - (after ++ z).length = rest.length - after.length := by
        rw [length_append, length_append]
        omega
      dsimp only [readBlock]
      rw [hopen, htake _ (by omega)]
  · rcases or_eq_some_iff.1 hm with htag | ⟨hnone', htext⟩
    · obtain ⟨after, rfl, hinvoke, happend⟩ := toolCallTagAt_append htag z
      obtain ⟨i, hi, rfl⟩ := map_eq_some_iff.1 hend
      obtain ⟨hindex, hle⟩ := indexOfLiteral_append hi z
      refine ⟨by simp [toolCallEnd], hle, .toolCallTag (after ++ z), ?_, ?_, ?_⟩
      · rw [markerAt, hinvoke, happend]
        rfl
      · rw [blockEnd, hindex]
        rfl
      · dsimp only [readBlock]
        rw [htake _ (by omega), htake _ hle]
    · obtain ⟨name, after, after', rfl, hsuffix, hinvoke, htag, happend, hgoes⟩ :=
        toolCallTextAt_append htext z
      obtain ⟨i, hi, rfl⟩ := map_eq_some_iff.1 hend
      obtain ⟨hindex, hpos, hle⟩ := jsonEndIndex_append hi z
      have hne : after ≠ [] := by
        rintro rfl
        cases hi
      rw [hgoes hne] at happend
      have hafter := hsuffix.length_le
      have hopen : (rest ++ z).length - (after ++ z).length = rest.length - after.length := by
        rw [length_append, length_append]
        omega
      refine ⟨by omega, by omega, .toolCallText name (after ++ z), ?_, ?_, ?_⟩
      · rw [markerAt, hinvoke, htag, happend]
        rfl
      · rw [blockEnd, hindex, hopen]
        rfl
      · have hjson : (after ++ z).take (rest.length - after.length + i -
            (rest.length - after.length)) = after.take (rest.length - after.length + i -
              (rest.length - after.length)) := take_append_of_le_length (by omega)
        dsimp only [readBlock]
        rw [hopen, hjson, htake _ (by omega)]

/-! ## The first marker -/

/-- The first marker is at the first place where one is. -/
theorem firstMarker_eq_some {before : List Char} :
    firstMarker text = some (before, rest, m) ↔ text = before ++ rest ∧ rest ≠ [] ∧
      markerAt rest = some m ∧ ∀ t, t <:+ text → rest.length < t.length → markerAt t = none := by
  induction text generalizing before with
  | nil =>
    refine ⟨fun h => (by cases h), fun ⟨htext, hne, _, _⟩ => ?_⟩
    exact absurd (append_eq_nil_iff.1 htext.symm).2 hne
  | cons c text ih =>
    rw [firstMarker]
    cases hc : markerAt (c :: text) with
    | some m' =>
      dsimp only
      constructor
      · intro h
        obtain ⟨rfl, hr⟩ := Prod.mk.inj (some.inj h)
        obtain ⟨rfl, rfl⟩ := Prod.mk.inj hr
        refine ⟨rfl, cons_ne_nil _ _, hc, fun t ht hlt => ?_⟩
        exact absurd ht.length_le (by omega)
      · rintro ⟨htext, -, hm, hbefore⟩
        cases before with
        | nil =>
          rw [nil_append] at htext
          rw [← htext, hc] at hm
          rw [← htext, some.inj hm]
        | cons d before =>
          have hlong : rest.length < (c :: text).length := by
            rw [htext, cons_append, length_cons, length_append]
            omega
          rw [hbefore _ (suffix_refl _) hlong] at hc
          cases hc
    | none =>
      dsimp only
      constructor
      · intro h
        obtain ⟨⟨before', rest', m'⟩, hfirst, heq⟩ := map_eq_some_iff.1 h
        obtain ⟨rfl, hr⟩ := Prod.mk.inj heq
        obtain ⟨rfl, rfl⟩ := Prod.mk.inj hr
        obtain ⟨rfl, hne, hm, hbefore⟩ := ih.1 hfirst
        refine ⟨rfl, hne, hm, fun t ht hlt => ?_⟩
        rcases suffix_cons_iff.1 ht with rfl | ht
        · exact hc
        · exact hbefore t ht hlt
      · rintro ⟨htext, hne, hm, hbefore⟩
        cases before with
        | nil =>
          rw [nil_append] at htext
          rw [← htext, hc] at hm
          cases hm
        | cons d before =>
          obtain ⟨rfl, rfl⟩ := cons.inj htext
          have hfirst := ih.2 ⟨(rfl : before ++ _ = _), hne, hm, fun t ht hlt =>
            hbefore t (ht.trans (suffix_cons _ _)) hlt⟩
          rw [hfirst]
          rfl

/-- A text in which no marker begins may be put before another one. -/
theorem firstMarker_prepend {before : List Char}
    (h : ∀ t, t <:+ before ++ text → text.length < t.length → markerAt t = none) :
    firstMarker (before ++ text) =
      (firstMarker text).map fun (before', rest, m) => (before ++ before', rest, m) := by
  induction before with
  | nil =>
    rw [nil_append]
    cases firstMarker text with
    | _ => rfl
  | cons c before ih =>
    have hc : markerAt (c :: (before ++ text)) = none :=
      h _ (suffix_refl _) (by rw [length_cons, length_append]; omega)
    have hrest := ih fun t ht hlt => h t (ht.trans (suffix_cons _ _)) hlt
    rw [cons_append, firstMarker, hc, hrest]
    cases firstMarker text with
    | _ => rfl

section Extract

variable [Zero N] [DecidableEq N] {parse : String → Option (Json N)}

variable {calls : List (String × Json N)} {buffer cleaned text : List Char}

theorem Extracts.prepend {before : List Char}
    (h : ∀ t, t <:+ before ++ text → text.length < t.length → markerAt t = none)
    (hx : Extracts parse text cleaned calls buffer) :
    Extracts parse (before ++ text) (before ++ cleaned) calls buffer := by
  have hfirst := firstMarker_prepend h
  cases hx with
  | plain hnone =>
    rw [hnone] at hfirst
    exact .plain hfirst
  | pending hsome hend =>
    rw [hsome] at hfirst
    exact .pending hfirst hend
  | block hsome hend hrest =>
    rw [hsome] at hfirst
    rw [← append_assoc]
    exact .block hfirst hend hrest

/-- The markup that is left is the end of the text. -/
theorem Extracts.buffer_suffix (h : Extracts parse text cleaned calls buffer) :
    buffer <:+ text := by
  induction h with
  | plain _ => exact nil_suffix
  | pending hfirst _ =>
    obtain ⟨rfl, -⟩ := firstMarker_eq_some.1 hfirst
    exact suffix_append _ _
  | block hfirst _ _ ih =>
    obtain ⟨rfl, -⟩ := firstMarker_eq_some.1 hfirst
    exact ih.trans ((drop_suffix _ _).trans (suffix_append _ _))

/-- No marker begins in the first part and ends in the second. -/
def Uncut (skip : ℕ) (x y : List Char) : Prop :=
  ∀ t, t <:+ x → skip < t.length → (markerAt (t ++ y)).isSome → (markerAt t).isSome

theorem eq_append_of_suffix_append {t x y : List Char} (h : t <:+ x ++ y)
    (hlt : y.length < t.length) : ∃ u, u <:+ x ∧ t = u ++ y := by
  obtain ⟨w, hw⟩ := h
  rcases append_eq_append_iff.1 hw with ⟨u, rfl, rfl⟩ | ⟨u, rfl, rfl⟩
  · exact ⟨u, suffix_append _ _, rfl⟩
  · rw [length_append] at hlt
    omega

variable {calls' : List (String × Json N)}

/-- **Extracting a text in two parts gives what extracting it at once gives.** -/
theorem Extracts.append {x : List Char} (h : Extracts parse x cleaned calls buffer)
    {y cleaned' buffer' : List Char} (huncut : Uncut buffer.length x y)
    (hy : Extracts parse (buffer ++ y) cleaned' calls' buffer') :
    Extracts parse (x ++ y) (cleaned ++ cleaned') (calls ++ calls') buffer' := by
  induction h with
  | plain hnone =>
    refine Extracts.prepend (fun t ht hlt => ?_) hy
    obtain ⟨u, hu, rfl⟩ := eq_append_of_suffix_append ht hlt
    have hne : u ≠ [] := by
      rintro rfl
      exact absurd hlt (Nat.lt_irrefl _)
    by_contra hsome
    have hmarker := huncut u hu (length_pos_iff.2 hne) (isSome_iff_ne_none.2 hsome)
    rw [firstMarker_eq_none.1 hnone u hu hne] at hmarker
    cases hmarker
  | @pending x before rest m hfirst hend =>
    obtain ⟨rfl, -, -, hbefore⟩ := firstMarker_eq_some.1 hfirst
    rw [append_assoc]
    refine Extracts.prepend (fun t ht hlt => ?_) hy
    rw [← append_assoc] at ht
    obtain ⟨u, hu, rfl⟩ := eq_append_of_suffix_append ht
      (by rw [length_append] at hlt; omega)
    have hlong : rest.length < u.length := by
      rw [length_append, length_append] at hlt
      omega
    by_contra hsome
    have hmarker := huncut u hu hlong (isSome_iff_ne_none.2 hsome)
    rw [hbefore u hu hlong] at hmarker
    cases hmarker
  | @block x before rest m n cleaned buffer calls hfirst hend hrest ih =>
    obtain ⟨rfl, hne, hm, hbefore⟩ := firstMarker_eq_some.1 hfirst
    obtain ⟨-, hle, m', hm', hend', hread⟩ := block_append parse hm hend y
    have hbuffer := hrest.buffer_suffix.trans (drop_suffix n rest)
    have hfirst' : firstMarker (before ++ rest ++ y) = some (before, rest ++ y, m') := by
      refine firstMarker_eq_some.2 ⟨append_assoc _ _ _, by simp [hne], hm', fun t ht hlt => ?_⟩
      obtain ⟨u, hu, rfl⟩ := eq_append_of_suffix_append ht
        (by rw [length_append] at hlt; omega)
      have hlong : rest.length < u.length := by
        rw [length_append, length_append] at hlt
        omega
      by_contra hsome
      have hmarker := huncut u hu (Nat.lt_of_le_of_lt hbuffer.length_le hlong)
        (isSome_iff_ne_none.2 hsome)
      rw [hbefore u hu hlong] at hmarker
      cases hmarker
    have hdrop : (rest ++ y).drop n = rest.drop n ++ y := drop_append_of_le_length hle
    have hinner := ih (fun t ht => huncut t
      (ht.trans ((drop_suffix _ _).trans (suffix_append _ _)))) hy
    rw [← hdrop] at hinner
    have hall := Extracts.block hfirst' hend' hinner
    rw [hread] at hall
    simpa only [append_assoc] using hall

/-- What is extracted is determined by the text. -/
theorem Extracts.unique {cleaned' buffer' : List Char}
    (h : Extracts parse text cleaned calls buffer)
    (h' : Extracts parse text cleaned' calls' buffer') :
    cleaned = cleaned' ∧ calls = calls' ∧ buffer = buffer' := by
  induction h generalizing cleaned' calls' with
  | plain hnone =>
    cases h' with
    | plain _ => exact ⟨rfl, rfl, rfl⟩
    | pending hfirst' _ =>
      rw [hnone] at hfirst'
      cases hfirst'
    | block hfirst' _ _ =>
      rw [hnone] at hfirst'
      cases hfirst'
  | pending hfirst hend =>
    cases h' with
    | plain hnone =>
      rw [hnone] at hfirst
      cases hfirst
    | pending hfirst' _ =>
      rw [hfirst] at hfirst'
      cases hfirst'
      exact ⟨rfl, rfl, rfl⟩
    | block hfirst' hend' _ =>
      rw [hfirst] at hfirst'
      cases hfirst'
      rw [hend] at hend'
      cases hend'
  | block hfirst hend _ ih =>
    cases h' with
    | plain hnone =>
      rw [hnone] at hfirst
      cases hfirst
    | pending hfirst' hend' =>
      rw [hfirst] at hfirst'
      cases hfirst'
      rw [hend] at hend'
      cases hend'
    | block hfirst' hend' hrest' =>
      rw [hfirst] at hfirst'
      cases hfirst'
      rw [hend] at hend'
      cases hend'
      obtain ⟨rfl, rfl, rfl⟩ := ih hrest'
      exact ⟨rfl, rfl, rfl⟩

/-! ## The loop -/

omit [Zero N] [DecidableEq N] in
/-- The calls without their ids. -/
def namedCalls (toolCalls : List (XmlToolCall N)) : List (String × Json N) :=
  toolCalls.map fun call => (call.name, call.args)

theorem extractLoop_pending (now rounds : ℕ) {remaining before rest : List Char}
    (hfirst : firstMarker remaining = some (before, rest, m)) (hend : blockEnd rest m = none)
    (acc : Extracted N) : extractLoop parse now (rounds + 1) remaining acc =
      { acc with cleaned := acc.cleaned ++ before, buffer := rest } := by
  rw [extractLoop, hfirst]
  cases m with
  | invoke name after =>
    dsimp only
    rw [map_eq_none_iff.1 hend]
  | _ =>
    dsimp only
    rw [map_eq_none_iff.1 hend]

/-- What a round adds to what has been extracted. -/
structure Adds (acc acc' : Extracted N) (cleaned : List Char) (calls : List (String × Json N)) :
    Prop where
  cleaned : acc'.cleaned = acc.cleaned ++ cleaned
  calls : namedCalls acc'.toolCalls = namedCalls acc.toolCalls ++ calls
  buffer : acc'.buffer = acc.buffer

omit [Zero N] [DecidableEq N] in
theorem namedCalls_append (l l' : List (XmlToolCall N)) :
    namedCalls (l ++ l') = namedCalls l ++ namedCalls l' := map_append

variable (parse) in
theorem extractLoop_block (now rounds : ℕ) {remaining before rest : List Char} {n : ℕ}
    (hfirst : firstMarker remaining = some (before, rest, m)) (hend : blockEnd rest m = some n)
    (acc : Extracted N) : ∃ acc', Adds acc acc' (before ++ (readBlock parse rest n m).1)
        (readBlock parse rest n m).2.toList ∧
      extractLoop parse now (rounds + 1) remaining acc =
        extractLoop parse now rounds (rest.drop n) acc' := by
  rw [extractLoop, hfirst]
  cases m with
  | invoke name after =>
    obtain ⟨i, hi, rfl⟩ := map_eq_some_iff.1 hend
    dsimp only
    rw [hi]
    dsimp only
    refine ⟨_, ⟨?_, ?_, ?_⟩, rfl⟩
    · exact congrArg (acc.cleaned ++ ·) (append_nil before).symm
    · dsimp only [readBlock]
      rw [namedCalls_append, Nat.add_sub_cancel]
      rfl
    · rfl
  | toolCallTag after =>
    obtain ⟨i, hi, rfl⟩ := map_eq_some_iff.1 hend
    dsimp only
    rw [hi]
    dsimp only
    refine ⟨_, ⟨?_, ?_, ?_⟩, rfl⟩
    · dsimp only [readBlock]
      rw [Nat.add_sub_cancel]
      cases readToolCall parse ((rest.take i).drop toolCallStart.length) with
      | none => exact append_assoc _ _ _
      | some call =>
        have hnil := append_nil before
        cases call with
        | _ => exact congrArg (acc.cleaned ++ ·) hnil.symm
    · dsimp only [readBlock]
      rw [Nat.add_sub_cancel]
      cases readToolCall parse ((rest.take i).drop toolCallStart.length) with
      | none => exact (append_nil _).symm
      | some call =>
        cases call with
        | none => exact (append_nil _).symm
        | some call => exact namedCalls_append _ _
    · cases readToolCall parse ((rest.take i).drop toolCallStart.length) with
      | none => rfl
      | some call => cases call <;> rfl
  | toolCallText name after =>
    obtain ⟨i, hi, rfl⟩ := map_eq_some_iff.1 hend
    dsimp only
    rw [hi]
    dsimp only
    refine ⟨_, ⟨?_, ?_, ?_⟩, rfl⟩
    · dsimp only [readBlock]
      rw [Nat.add_sub_cancel_left]
      cases parse (String.ofList (after.take i)) with
      | none => exact append_assoc _ _ _
      | some args => exact congrArg (acc.cleaned ++ ·) (append_nil before).symm
    · dsimp only [readBlock]
      rw [Nat.add_sub_cancel_left]
      cases parse (String.ofList (after.take i)) with
      | none => exact (append_nil _).symm
      | some args => exact namedCalls_append _ _
    · cases parse (String.ofList (after.take i)) <;> rfl

variable (parse) in
theorem extracts_extractLoop (now : ℕ) {rounds : ℕ} {remaining : List Char}
    (h : remaining.length < rounds) {acc : Extracted N} (hbuffer : acc.buffer = []) :
    ∃ cleaned calls buffer, Extracts parse remaining cleaned calls buffer ∧
      (extractLoop parse now rounds remaining acc).cleaned = acc.cleaned ++ cleaned ∧
      namedCalls (extractLoop parse now rounds remaining acc).toolCalls =
        namedCalls acc.toolCalls ++ calls ∧
      (extractLoop parse now rounds remaining acc).buffer = buffer := by
  induction rounds generalizing remaining acc with
  | zero => omega
  | succ rounds ih =>
    cases hfirst : firstMarker remaining with
    | none =>
      refine ⟨remaining, [], [], .plain hfirst, ?_, ?_, ?_⟩
      · rw [extractLoop, hfirst]
      · rw [extractLoop, hfirst]
        exact (append_nil _).symm
      · rw [extractLoop, hfirst]
        exact hbuffer
    | some first =>
      obtain ⟨before, rest, m⟩ := first
      cases hend : blockEnd rest m with
      | none =>
        rw [extractLoop_pending now rounds hfirst hend]
        exact ⟨before, [], rest, .pending hfirst hend, rfl, (append_nil _).symm, rfl⟩
      | some n =>
        obtain ⟨acc', hadds, heq⟩ := extractLoop_block parse now rounds hfirst hend acc
        obtain ⟨rfl, -, hm, -⟩ := firstMarker_eq_some.1 hfirst
        obtain ⟨hpos, hle, -⟩ := block_append parse hm hend []
        have hshorter : (rest.drop n).length < rounds := by
          rw [length_drop]
          rw [length_append] at h
          omega
        obtain ⟨cleaned, calls, buffer, hx, hcleaned, hcalls, hbuf⟩ :=
          ih hshorter (hadds.buffer.trans hbuffer)
        refine ⟨_, _, buffer, .block hfirst hend hx, ?_, ?_, ?_⟩
        · rw [heq, hcleaned, hadds.cleaned]
          simp only [append_assoc]
        · rw [heq, hcalls, hadds.calls, append_assoc]
        · rw [heq]
          exact hbuf

/-- `extractXmlInvokeBlocks` extracts the new text behind the markup that waits. -/
theorem extracts_extractXmlInvokeBlocks (parse : String → Option (Json N)) (now : ℕ)
    (text buffer : List Char) :
    Extracts parse (buffer ++ text) (extractXmlInvokeBlocks parse now text buffer).cleaned
      (namedCalls (extractXmlInvokeBlocks parse now text buffer).toolCalls)
      (extractXmlInvokeBlocks parse now text buffer).buffer := by
  obtain ⟨cleaned, calls, buffer', hx, hcleaned, hcalls, hbuffer⟩ :=
    extracts_extractLoop parse now (Nat.lt_succ_self (buffer ++ text).length)
      (rfl : ({ cleaned := [], toolCalls := [], buffer := [] } : Extracted N).buffer = [])
  unfold extractXmlInvokeBlocks
  rw [hcleaned, hcalls, hbuffer]
  exact hx

theorem exists_extracts (parse : String → Option (Json N)) (text : List Char) :
    ∃ cleaned calls buffer, Extracts parse text cleaned calls buffer :=
  ⟨_, _, _, extracts_extractXmlInvokeBlocks parse 0 text []⟩

/-- The next part of a text is extracted behind the markup that waits and the text that is held
back, if the two do not meet. -/
theorem Extracts.next {read sent held content buffer' : List Char}
    (h : Extracts parse read (sent ++ held) calls buffer)
    (huncut : Uncut buffer.length read content)
    (hheld : ∀ t, t <:+ held → t ≠ [] → markerAt (t ++ content) = none)
    (hordered : buffer = [] ∨ held = [])
    (hx : Extracts parse (buffer ++ (held ++ content)) cleaned calls' buffer') :
    Extracts parse (read ++ content) (sent ++ cleaned) (calls ++ calls') buffer' := by
  rcases hordered with rfl | rfl
  · obtain ⟨c, cs, b, hc⟩ := exists_extracts parse content
    have hprepend : Extracts parse (held ++ content) (held ++ c) cs b := by
      refine hc.prepend fun t ht hlt => ?_
      obtain ⟨u, hu, rfl⟩ := eq_append_of_suffix_append ht hlt
      refine hheld u hu ?_
      rintro rfl
      exact Nat.lt_irrefl _ hlt
    obtain ⟨rfl, rfl, rfl⟩ := hprepend.unique hx
    have hall := h.append huncut hc
    rwa [append_assoc] at hall
  · rw [append_nil] at h
    exact h.append huncut hx

/-! ## What stays -/

/-- A complete block of this length begins the text. -/
def BlockAt (text : List Char) (n : ℕ) : Prop :=
  ∃ m, markerAt text = some m ∧ blockEnd text m = some n

/-- A text without some of its complete blocks: every other character stays, in order. -/
inductive KeepsOutside : List Char → List Char → Prop
  | nil : KeepsOutside [] []
  | char {text kept : List Char} (c : Char) (h : KeepsOutside text kept) :
      KeepsOutside (c :: text) (c :: kept)
  | block {text kept : List Char} {n : ℕ} (hblock : BlockAt text n)
      (h : KeepsOutside (text.drop n) kept) : KeepsOutside text kept

theorem KeepsOutside.prepend {kept : List Char} (h : KeepsOutside text kept) (before : List Char) :
    KeepsOutside (before ++ text) (before ++ kept) := by
  induction before with
  | nil => exact h
  | cons c before ih => exact .char c ih

theorem keepsOutside_self (text : List Char) : KeepsOutside text text := by
  have h := KeepsOutside.nil.prepend text
  rwa [append_nil] at h

variable (parse) in
/-- What stays of a block is all of it or nothing. -/
theorem readBlock_fst (rest : List Char) (n : ℕ) (m : Marker) :
    (readBlock parse rest n m).1 = [] ∨ (readBlock parse rest n m).1 = rest.take n := by
  cases m with
  | invoke name after => exact .inl rfl
  | _ =>
    dsimp only [readBlock]
    split
    · exact .inr rfl
    · exact .inl rfl

/-- Where no markup is left, everything outside complete blocks stays. -/
theorem Extracts.keepsOutside (h : Extracts parse text cleaned calls buffer)
    (hbuffer : buffer = []) : KeepsOutside text cleaned := by
  induction h with
  | plain _ => exact keepsOutside_self _
  | pending hfirst _ => exact absurd hbuffer (firstMarker_eq_some.1 hfirst).2.1
  | @block text before rest m n cleaned buffer calls hfirst hend hrest ih =>
    obtain ⟨rfl, -, hm, -⟩ := firstMarker_eq_some.1 hfirst
    refine KeepsOutside.prepend ?_ before
    rcases readBlock_fst parse rest n m with hnil | htake
    · rw [hnil, nil_append]
      exact .block ⟨m, hm, hend⟩ (ih hbuffer)
    · have hall := (ih hbuffer).prepend (rest.take n)
      rw [take_append_drop] at hall
      rw [htake]
      exact hall

end Extract

end OmniRoute.ClaudeStream
