import OmniRoute.OllamaStream.Transform

/-!
# When the Ollama stream is well formed and complete

`Complete` says what the JSON lines written for a body should be: the deltas of its chunks in
order, its tool calls once each, and one line that is done, at the end. `flush` writes such a
line at the end of every stream. The done marker and the finish reasons write one more, and
these are the only lines that carry tool calls.

**Main result (`complete_iff`).** However the body is cut into pieces, its lines are complete
exactly when the body has no done marker, no chunk that finishes with `stop`, and no tool call.
-/

namespace OmniRoute.OllamaStream

open List Emitter

variable {J : Type} (json : JsonParser J)

/-! ## What a body says -/

/-- The data of the complete lines of a body. -/
def bodyData (body : List Char) : List String := (Lines.lines '\n' body).filterMap lineData

def dataChunks (data : List String) : List OpenAIChunk :=
  (data.filter (· ≠ doneMarker)).filterMap json.chunk

inductive Text
  | thinking (text : String)
  | content (text : String)
  deriving DecidableEq

/-- The deltas of a chunk that are not empty. -/
def OpenAIChunk.texts (c : OpenAIChunk) : List Text :=
  (if c.thinking ≠ "" then [.thinking c.thinking] else []) ++
    if c.content.getD "" ≠ "" then [.content (c.content.getD "")] else []

/-- The delta's tool call: its index, and its id or the last one at that index. -/
def keyed : (ℕ → Option String) → List ToolCallDelta → List ((ℕ × Option String) × ToolCallDelta)
  | _, [] => []
  | ids, tc :: tcs =>
    let id := match tc.id with
      | some id => if id = "" then ids tc.index else some id
      | none => ids tc.index
    ((tc.index, id), tc) :: keyed (fun i => if i = tc.index then id else ids i) tcs

/-- A tool call: the name and the arguments that its deltas spell. -/
def spelledCall (deltas : List ((ℕ × Option String) × ToolCallDelta)) (key : ℕ × Option String) :
    String × Option J :=
  let own := (deltas.filter (·.1 = key)).map (·.2)
  (String.join (own.map fun tc => tc.name.getD ""),
    json.arguments (argumentsText (String.join (own.map fun tc => tc.arguments.getD ""))))

/-- The tool calls of a stream of deltas, grouped by index and id. -/
def groupedCalls (tcs : List ToolCallDelta) : List (String × Option J) :=
  let deltas := keyed (fun _ => none) tcs
  (deltas.map (·.1)).dedup.map (spelledCall json deltas)

/-! ## What the lines say -/

def OllamaLine.texts (l : OllamaLine J) : List Text :=
  (match l.thinking with
    | some thinking => [.thinking thinking]
    | none => []) ++ if l.content ≠ "" then [.content l.content] else []

def OllamaLine.calls (l : OllamaLine J) : List (String × Option J) :=
  l.toolCalls.map fun call => (call.1, some call.2)

/-- The lines carry every delta once and in order, every tool call once, and end in the only one
that is done. -/
structure Complete (body : List Char) (out : List (OllamaLine J)) : Prop where
  texts : out.flatMap OllamaLine.texts =
    (dataChunks json (bodyData body)).flatMap OpenAIChunk.texts
  calls : (out.flatMap OllamaLine.calls).Perm
    (groupedCalls json ((dataChunks json (bodyData body)).flatMap (·.toolCalls)))
  terminal : ∃ before last, out = before ++ [last] ∧ last.done = true ∧
    ∀ l ∈ before, l.done = false

/-- Data that writes no line that is done. -/
def Unfinished (data : String) : Prop :=
  data ≠ doneMarker ∧ ∀ c, json.chunk data = some c → c.finishReason ≠ some "stop"

/-- Data with no tool call. -/
def Toolless (data : String) : Prop :=
  data ≠ doneMarker → ∀ c, json.chunk data = some c → c.toolCalls = []

/-! ## One chunk -/

variable {json} {s : State} {line : List Char} {data : String} {c : OpenAIChunk}

theorem texts_thinkingLine {thinking : String} :
    (thinkingLine thinking : OllamaLine J).texts = [.thinking thinking] := by
  simp [thinkingLine, OllamaLine.texts]

theorem texts_contentLine {content : String} (h : content ≠ "") :
    (contentLine content : OllamaLine J).texts = [.content content] := by
  simp [contentLine, OllamaLine.texts, h]

/-- The lines of a chunk's deltas. -/
def textLines (c : OpenAIChunk) : List (OllamaLine J) :=
  (if c.thinking ≠ "" then [thinkingLine c.thinking] else []) ++
    if c.content.getD "" ≠ "" then [contentLine (c.content.getD "")] else []

theorem flatMap_texts_textLines (c : OpenAIChunk) :
    (textLines c : List (OllamaLine J)).flatMap OllamaLine.texts = c.texts := by
  rw [textLines, OpenAIChunk.texts, flatMap_append]
  by_cases ht : c.thinking = "" <;> by_cases hc : c.content.getD "" = "" <;>
    simp [ht, hc, texts_thinkingLine, texts_contentLine]

theorem plain_textLines {l : OllamaLine J} (h : l ∈ textLines c) :
    l.done = false ∧ l.toolCalls = [] := by
  rw [textLines] at h
  by_cases ht : c.thinking = "" <;> by_cases hc : c.content.getD "" = "" <;>
    simp only [ht, hc, ne_eq, not_true_eq_false, not_false_eq_true, ite_true, ite_false,
      append_nil, List.nil_append, mem_append, mem_singleton, not_mem_nil] at h
  · rw [h]
    exact ⟨rfl, rfl⟩
  · rw [h]
    exact ⟨rfl, rfl⟩
  · rcases h with rfl | rfl <;> exact ⟨rfl, rfl⟩

/-- A chunk writes its deltas, and then what its finish reason asks for. -/
theorem processChunk_eq (c : OpenAIChunk) (s : State) : processChunk json c s =
    let t := c.toolCalls.foldl (fun s tc => processToolCall tc s) s
    (textLines c ++ (emitFinish json c.finishReason t).1, (emitFinish json c.finishReason t).2) := by
  by_cases ht : c.thinking = "" <;> by_cases hc : c.content.getD "" = "" <;>
    simp [processChunk, andThen_apply, emitText, textLines, enqueue, ht, hc]

/-- Only a line that is done carries tool calls. -/
def CallsDone (out : List (OllamaLine J)) : Prop := ∀ l ∈ out, l.toolCalls ≠ [] → l.done = true

theorem callsDone_emitFinish (finishReason : Option String) (s : State) :
    CallsDone (emitFinish json finishReason s).1 := by
  rw [emitFinish]
  split
  · rw [onState_apply]
    split
    · cases formatCalls json s.toolCallsArr with
      | none => exact fun l hl => absurd hl not_mem_nil
      | some calls =>
        intro l hl _
        obtain rfl : l = toolCallsLine calls := by
          simpa [andThen_apply, enqueue] using hl
        rfl
    · split
      · intro l hl _
        obtain rfl : l = ollamaEnd := by simpa [enqueue] using hl
        rfl
      · exact fun l hl => absurd hl not_mem_nil
  · exact fun l hl => absurd hl not_mem_nil

theorem callsDone_processChunk (c : OpenAIChunk) (s : State) :
    CallsDone (processChunk json c s).1 := by
  rw [processChunk_eq]
  intro l hl hcalls
  obtain hl | hl := mem_append.1 hl
  · exact absurd (plain_textLines hl).2 hcalls
  · exact callsDone_emitFinish _ _ l hl hcalls

/-- Without tool calls, a finish reason writes a line exactly when it is `stop`. -/
theorem emitFinish_of_noCalls (finishReason : Option String) (hs : s.toolCallsArr = []) :
    emitFinish json finishReason s =
      (if finishReason = some "stop" then [ollamaEnd] else [], s) := by
  rw [emitFinish]
  by_cases hstop : finishReason = some "stop"
  · rw [if_pos (Or.inr hstop), onState_apply, if_neg (not_not.2 hs), if_pos hstop, if_pos hstop]
    rfl
  · rw [if_neg hstop]
    split
    · rw [onState_apply, if_neg (not_not.2 hs)]
      rfl
    · rfl

/-- A chunk without tool calls. -/
theorem processChunk_of_noCalls (json : JsonParser J) (hs : s.toolCallsArr = [])
    (hc : c.toolCalls = []) : processChunk json c s =
      (textLines c ++ if c.finishReason = some "stop" then [ollamaEnd] else [], s) := by
  rw [processChunk_eq]
  simp only [hc, foldl_nil, emitFinish_of_noCalls _ hs]

/-! ## All lines -/

theorem dataChunks_append (xs ys : List String) :
    dataChunks json (xs ++ ys) = dataChunks json xs ++ dataChunks json ys := by
  simp [dataChunks]

theorem callsDone_append {xs ys : List (OllamaLine J)} (hx : CallsDone xs) (hy : CallsDone ys) :
    CallsDone (xs ++ ys) :=
  fun l hl => (mem_append.1 hl).elim (hx l) (hy l)

theorem callsDone_processLines (lines : List (List Char)) (s : State) :
    CallsDone (processLines json lines s).1 := by
  induction lines generalizing s with
  | nil => exact fun l hl => absurd hl not_mem_nil
  | cons line lines ih =>
    rw [processLines]
    cases lineData line with
    | none => exact ih s
    | some data =>
      by_cases hdone : data = doneMarker
      · simp only [hdone, ite_true]
        intro l hl _
        obtain rfl : l = ollamaEnd := by simpa [enqueue] using hl
        rfl
      · simp only [hdone, ite_false]
        cases json.chunk data with
        | none => exact ih s
        | some c =>
          simp only [andThen_apply]
          exact callsDone_append (callsDone_processChunk c s) (ih _)

/-- Lines that finish nothing and call no tool write the texts of their chunks. -/
theorem processLines_of_unfinished {lines : List (List Char)} (hs : s.toolCallsArr = [])
    (h : ∀ data ∈ lines.filterMap lineData, Unfinished json data ∧ Toolless json data) :
    processLines json lines s =
      ((dataChunks json (lines.filterMap lineData)).flatMap textLines, s) := by
  induction lines with
  | nil => rfl
  | cons line lines ih =>
    rw [processLines]
    cases hl : lineData line with
    | none =>
      rw [filterMap_cons_none hl] at h ⊢
      exact ih h
    | some data =>
      rw [filterMap_cons_some hl] at h ⊢
      obtain ⟨⟨hdone, hstop⟩, htool⟩ := h data mem_cons_self
      have hrest := ih fun d hd => h d (mem_cons_of_mem _ hd)
      simp only [hdone, ite_false]
      cases hc : json.chunk data with
      | none => simp [hrest, dataChunks, hdone, hc]
      | some c =>
        have hchunk := processChunk_of_noCalls json hs (htool hdone c hc)
        rw [if_neg (hstop c hc), append_nil] at hchunk
        have hboth := andThen_of_eq (n := processLines json lines) hchunk
        rw [hrest] at hboth
        simpa [dataChunks, hdone, hc] using hboth

/-- Without tool calls, lines that write nothing that is done finish nothing. -/
theorem unfinished_of_open {lines : List (List Char)} (hs : s.toolCallsArr = [])
    (htool : ∀ data ∈ lines.filterMap lineData, Toolless json data)
    (hopen : ∀ l ∈ (processLines json lines s).1, l.done = false) :
    ∀ data ∈ lines.filterMap lineData, Unfinished json data := by
  induction lines with
  | nil => exact fun data hd => absurd hd not_mem_nil
  | cons line lines ih =>
    rw [processLines] at hopen
    cases hl : lineData line with
    | none =>
      rw [filterMap_cons_none hl] at htool ⊢
      simp only [hl] at hopen
      exact ih htool hopen
    | some data =>
      rw [filterMap_cons_some hl] at htool ⊢
      have htools : ∀ d ∈ lines.filterMap lineData, Toolless json d :=
        fun d hd => htool d (mem_cons_of_mem _ hd)
      simp only [hl] at hopen
      by_cases hdone : data = doneMarker
      · simp only [hdone, ite_true] at hopen
        have := hopen ollamaEnd mem_cons_self
        cases this
      simp only [hdone, ite_false] at hopen
      cases hc : json.chunk data with
      | none =>
        simp only [hc] at hopen
        intro d hd
        obtain rfl | hd := mem_cons.1 hd
        · exact ⟨hdone, fun c h => by simp [hc] at h⟩
        · exact ih htools hopen d hd
      | some c =>
        have hchunk := processChunk_of_noCalls json hs
          (htool data mem_cons_self hdone c hc)
        simp only [hc] at hopen
        rw [andThen_of_eq hchunk] at hopen
        have hstop : c.finishReason ≠ some "stop" := by
          intro hstop
          have hend := hopen ollamaEnd (by simp [hstop])
          cases hend
        intro d hd
        obtain rfl | hd := mem_cons.1 hd
        · refine ⟨hdone, fun c' h => ?_⟩
          rw [hc, Option.some.injEq] at h
          exact h ▸ hstop
        · exact ih htools (fun l hl => hopen l (mem_append_right _ hl)) d hd

/-! ## All pieces -/

theorem callsDone_forEach (pieces : List (List Char)) (s : State) :
    CallsDone (forEach (transform json) pieces s).1 := by
  induction pieces generalizing s with
  | nil => exact fun l hl => absurd hl not_mem_nil
  | cons piece pieces ih =>
    rw [forEach_cons, andThen_apply]
    exact callsDone_append (callsDone_processLines _ _) (ih _)

/-- The data that is still to come when the buffer is `buffer`. -/
def pendingData (buffer : List Char) (pieces : List (List Char)) : List String :=
  bodyData (buffer ++ pieces.flatten)

theorem pendingData_cons (buffer piece : List Char) (pieces : List (List Char)) :
    pendingData buffer (piece :: pieces) =
      (Lines.lines '\n' (buffer ++ piece)).filterMap lineData ++
        pendingData (Lines.rest '\n' (buffer ++ piece)) pieces := by
  rw [pendingData, bodyData, flatten_cons, ← append_assoc, Lines.lines_append, filterMap_append]
  rfl

/-- The emitter neither reads nor writes the buffer. -/
def Unbuffered (e : Emit J) : Prop :=
  ∀ s buffer, e { s with buffer } = ((e s).1, { (e s).2 with buffer })

theorem Unbuffered.andThen {m n : Emit J} (hm : Unbuffered m) (hn : Unbuffered n) :
    Unbuffered (m.andThen n) := by
  intro s buffer
  rw [andThen_apply, andThen_apply, hm, hn]

theorem Unbuffered.onState {f : State → Emit J} (hf : ∀ s buffer, f { s with buffer } = f s)
    (h : ∀ s, Unbuffered (f s)) : Unbuffered (onState f) := by
  intro s buffer
  rw [onState_apply, onState_apply, hf, h]

theorem unbuffered_processToolCall (tc : ToolCallDelta) (s : State) (buffer : List Char) :
    processToolCall tc { s with buffer } = { processToolCall tc s with buffer } := by
  unfold processToolCall completeReplaced
  cases s.pendingToolCalls.lookup tc.index with
  | none => rfl
  | some call =>
    cases tc.id with
    | none => rfl
    | some id =>
      dsimp only
      split <;> rfl

theorem unbuffered_processChunk (c : OpenAIChunk) : Unbuffered (processChunk json c) := by
  have htext : ∀ (line : String → OllamaLine J) text, Unbuffered (emitText line text) := by
    intro line text s buffer
    unfold emitText
    split <;> rfl
  refine .andThen (fun s buffer => ?_) (.andThen (htext _ _) (.andThen (htext _ _) ?_))
  · simp only [update_apply, Prod.mk.injEq, true_and]
    induction c.toolCalls generalizing s with
    | nil => rfl
    | cons tc tcs ih => rw [foldl_cons, foldl_cons, unbuffered_processToolCall, ih]
  · unfold emitFinish
    split
    · refine .onState (fun _ _ => rfl) fun s => ?_
      split
      · cases formatCalls json s.toolCallsArr with
        | none => exact fun _ _ => rfl
        | some calls => exact fun _ _ => rfl
      · split
        · exact fun _ _ => rfl
        · exact fun _ _ => rfl
    · exact fun _ _ => rfl

theorem unbuffered_processLines (lines : List (List Char)) :
    Unbuffered (processLines json lines) := by
  induction lines with
  | nil => exact fun _ _ => rfl
  | cons line lines ih =>
    unfold processLines
    cases lineData line with
    | none => exact ih
    | some data =>
      dsimp only
      split
      · exact fun _ _ => rfl
      · cases json.chunk data with
        | none => exact ih
        | some c => exact (unbuffered_processChunk c).andThen ih

theorem processLines_of_noData {lines : List (List Char)} (h : lines.filterMap lineData = []) :
    processLines json lines = skip := by
  induction lines with
  | nil => rfl
  | cons line lines ih =>
    rw [processLines]
    cases hl : lineData line with
    | none => exact ih (by rwa [filterMap_cons_none hl] at h)
    | some data =>
      rw [filterMap_cons_some hl] at h
      cases h

theorem processLines_append {lines more : List (List Char)}
    (h : doneMarker ∉ ((lines ++ more).filterMap lineData).dropLast) :
    processLines json (lines ++ more) =
      (processLines json lines).andThen (processLines json more) := by
  induction lines with
  | nil => rfl
  | cons line lines ih =>
    rw [cons_append, processLines, processLines]
    rw [cons_append] at h
    cases hl : lineData line with
    | none =>
      rw [filterMap_cons_none hl] at h
      exact ih h
    | some data =>
      rw [filterMap_cons_some hl] at h
      dsimp only
      by_cases hrest : (lines ++ more).filterMap lineData = []
      · have hnone := append_eq_nil_iff.1 (filterMap_append ▸ hrest)
        have hskip : ∀ m : Emit J, m.andThen skip = m := fun m =>
          funext fun s => by rw [andThen_apply, skip_apply, append_nil]
        rw [processLines_of_noData hrest, processLines_of_noData hnone.1,
          processLines_of_noData hnone.2, hskip]
      rw [dropLast_cons_of_ne_nil hrest, mem_cons, not_or] at h
      rw [if_neg (Ne.symm h.1), if_neg (Ne.symm h.1)]
      cases json.chunk data with
      | none => exact ih h.2
      | some c =>
        dsimp only
        rw [ih h.2, andThen_assoc]

theorem forEach_transform {pieces : List (List Char)} (hbuffer : Lines.lines '\n' s.buffer = [])
    (h : doneMarker ∉ (pendingData s.buffer pieces).dropLast) :
    (forEach (transform json) pieces s).1 =
      (processLines json (Lines.lines '\n' (s.buffer ++ pieces.flatten)) s).1 := by
  induction pieces generalizing s with
  | nil => rw [flatten_nil, append_nil, hbuffer]; rfl
  | cons piece pieces ih =>
    have hpiece : transform json piece s = _ := unbuffered_processLines _ s _
    have hrest : doneMarker ∉
        (pendingData (Lines.rest '\n' (s.buffer ++ piece)) pieces).dropLast := by
      intro hm
      have hne := ne_nil_of_mem (mem_of_mem_dropLast hm)
      rw [pendingData_cons, dropLast_append_of_ne_nil hne] at h
      exact h (mem_append_right _ hm)
    rw [pendingData, bodyData, flatten_cons, ← append_assoc,
      Lines.lines_append (s.buffer ++ piece)] at h
    rw [forEach_cons, andThen_of_eq hpiece, flatten_cons, ← append_assoc,
      Lines.lines_append (s.buffer ++ piece), processLines_append h]
    have hframe := @unbuffered_processLines J json
      (Lines.lines '\n' (Lines.rest '\n' (s.buffer ++ piece) ++ pieces.flatten))
      (processLines json (Lines.lines '\n' (s.buffer ++ piece)) s).2
      (Lines.rest '\n' (s.buffer ++ piece))
    exact congrArg (_ ++ ·) ((ih (Lines.lines_rest _) hrest).trans (Prod.ext_iff.1 hframe).1)

theorem forEach_of_unfinished {pieces : List (List Char)} (hs : s.toolCallsArr = [])
    (hbuffer : Lines.lines '\n' s.buffer = [])
    (h : ∀ data ∈ pendingData s.buffer pieces, Unfinished json data ∧ Toolless json data) :
    (forEach (transform json) pieces s).1 =
      (dataChunks json (pendingData s.buffer pieces)).flatMap textLines := by
  rw [forEach_transform hbuffer fun hm => (h _ (mem_of_mem_dropLast hm)).1.1 rfl]
  exact congrArg Prod.fst (processLines_of_unfinished hs h)

theorem unfinished_of_forEach {pieces : List (List Char)} (hs : s.toolCallsArr = [])
    (hbuffer : Lines.lines '\n' s.buffer = [])
    (htool : ∀ data ∈ pendingData s.buffer pieces, Toolless json data)
    (hopen : ∀ l ∈ (forEach (transform json) pieces s).1, l.done = false) :
    ∀ data ∈ pendingData s.buffer pieces, Unfinished json data := by
  induction pieces generalizing s with
  | nil => simp [pendingData, bodyData, hbuffer]
  | cons piece pieces ih =>
    rw [pendingData_cons] at htool ⊢
    rw [forEach_cons, andThen_apply] at hopen
    have hnow : ∀ d ∈ (Lines.lines '\n' (s.buffer ++ piece)).filterMap lineData,
        Unfinished json d :=
      unfinished_of_open (s := s.received piece) hs
        (fun d hd => htool d (mem_append_left _ hd))
        fun l hl => hopen l (mem_append_left _ hl)
    have hpiece : (transform json piece s).2 = s.received piece := by
      rw [transform, processLines_of_unfinished (s := s.received piece) hs
        fun d hd => ⟨hnow d hd, htool d (mem_append_left _ hd)⟩]
    rw [hpiece] at hopen
    intro d hd
    obtain hd | hd := mem_append.1 hd
    · exact hnow d hd
    · exact ih (s := s.received piece) hs (Lines.lines_rest _)
        (fun d hd => htool d (mem_append_right _ hd))
        (fun l hl => hopen l (mem_append_right _ hl)) d hd

/-! ## The whole stream -/

theorem groupedCalls_eq_nil {tcs : List ToolCallDelta} (h : groupedCalls json tcs = []) :
    tcs = [] := by
  cases tcs with
  | nil => rfl
  | cons tc tcs =>
    rw [groupedCalls, map_eq_nil_iff, dedup_eq_nil] at h
    cases h

theorem transformToOllama_eq (pieces : List (List Char)) : transformToOllama json pieces =
    (forEach (transform json) pieces .init).1 ++ [ollamaEnd] := rfl

/-- However a body is cut into pieces, the lines written for it carry its deltas and its tool
calls once each, with one line that is done at the end, if and only if the body has no done
marker, no chunk that finishes with `stop`, and no tool call. -/
theorem complete_iff (json : JsonParser J) (pieces : List (List Char)) :
    Complete json pieces.flatten (transformToOllama json pieces) ↔
      ∀ data ∈ bodyData pieces.flatten, Unfinished json data ∧ Toolless json data := by
  rw [transformToOllama_eq]
  constructor
  · rintro ⟨-, hcalls, before, last, hout, -, hopen⟩
    obtain ⟨rfl, -⟩ := append_inj' hout rfl
    -- The only line that is done carries no call, so there is no call to carry.
    have hnone : ((forEach (transform json) pieces .init).1 ++ [ollamaEnd]).flatMap
        OllamaLine.calls = [] := by
      rw [flatMap_eq_nil_iff]
      intro l hl
      obtain hl | hl := mem_append.1 hl
      · have htools : l.toolCalls = [] := by
          by_contra hne
          have hdone := callsDone_forEach pieces _ l hl hne
          simp [hopen l hl] at hdone
        simp [OllamaLine.calls, htools]
      · rw [mem_singleton.1 hl]
        rfl
    rw [hnone] at hcalls
    have htcs := groupedCalls_eq_nil (nil_perm.1 hcalls)
    have htool : ∀ data ∈ bodyData pieces.flatten, Toolless json data := by
      intro data hd hdone c hc
      refine flatMap_eq_nil_iff.1 htcs c ?_
      exact mem_filterMap.2 ⟨data, mem_filter.2 ⟨hd, by simpa using hdone⟩, hc⟩
    exact fun data hd =>
      ⟨unfinished_of_forEach (s := .init) rfl rfl htool hopen data hd, htool data hd⟩
  · intro h
    rw [forEach_of_unfinished (s := .init) rfl rfl h]
    have hchunks : dataChunks json (pendingData State.init.buffer pieces) =
        dataChunks json (bodyData pieces.flatten) := rfl
    rw [hchunks]
    constructor
    case texts =>
      rw [flatMap_append, flatMap_assoc]
      simp [flatMap_texts_textLines, ollamaEnd, OllamaLine.texts]
    case calls =>
      have htcs : (dataChunks json (bodyData pieces.flatten)).flatMap (·.toolCalls) = [] := by
        refine flatMap_eq_nil_iff.2 fun c hc => ?_
        obtain ⟨data, hd, hparse⟩ := mem_filterMap.1 hc
        obtain ⟨hmem, hdone⟩ := mem_filter.1 hd
        exact (h data hmem).2 (by simpa using hdone) c hparse
      have hlines : (((dataChunks json (bodyData pieces.flatten)).flatMap textLines) ++
          [ollamaEnd]).flatMap OllamaLine.calls = ([] : List (String × Option J)) := by
        refine flatMap_eq_nil_iff.2 fun l hl => ?_
        obtain hl | hl := mem_append.1 hl
        · obtain ⟨c, -, hl⟩ := mem_flatMap.1 hl
          simp [OllamaLine.calls, (plain_textLines hl).2]
        · rw [mem_singleton.1 hl]
          rfl
      rw [htcs, hlines]
      exact List.Perm.refl _
    case terminal =>
      refine ⟨_, ollamaEnd, rfl, rfl, fun l hl => ?_⟩
      obtain ⟨c, -, hl⟩ := mem_flatMap.1 hl
      exact (plain_textLines hl).1

def stopData : String := "\x7b\"choices\":[\x7b\"delta\":\x7b\x7d,\"finish_reason\":\"stop\"\x7d]\x7d"

/-- Reads a chunk that only finishes. -/
def stopParser : JsonParser Unit where
  chunk data := if data = stopData then some ⟨none, none, none, [], some "stop"⟩ else none
  arguments _ := some ()

/-- The end of an ordinary stream: a finish reason, then the done marker. -/
def ordinaryEnd : List Char := ("data: " ++ stopData ++ "\n\ndata: [DONE]\n\n").toList

theorem ordinaryEnd_done_thrice :
    (transformToOllama stopParser [ordinaryEnd]).map (·.done) = [true, true, true] ∧
      ¬Complete stopParser ordinaryEnd (transformToOllama stopParser [ordinaryEnd]) := by
  have hdone : (transformToOllama stopParser [ordinaryEnd]).map (·.done) =
      [true, true, true] := by
    decide +kernel
  refine ⟨hdone, fun ⟨_, _, before, last, hout, _, hopen⟩ => ?_⟩
  rw [hout, map_append] at hdone
  cases before with
  | nil => simp at hdone
  | cons l ls =>
    have hhead : l.done = true := (List.cons.inj hdone).1
    simp [hopen l mem_cons_self] at hhead

/-- Where nothing follows the done marker, the lines that are written do not depend on how the
body is cut into pieces, with tool calls and finish reasons as without. -/
theorem chunking_unobservable (json : JsonParser J) {pieces pieces' : List (List Char)}
    (hsame : pieces.flatten = pieces'.flatten)
    (h : doneMarker ∉ (bodyData pieces.flatten).dropLast) :
    transformToOllama json pieces = transformToOllama json pieces' := by
  rw [transformToOllama_eq, transformToOllama_eq, forEach_transform (s := .init) rfl h,
    forEach_transform (s := .init) rfl (show doneMarker ∉ (bodyData _).dropLast from hsame ▸ h),
    hsame]

theorem chunking_unobservable_ordinaryEnd :
    transformToOllama stopParser [ordinaryEnd.take 9, ordinaryEnd.drop 9] =
      transformToOllama stopParser [ordinaryEnd] :=
  chunking_unobservable stopParser (by decide +kernel) (by decide +kernel)

end OmniRoute.OllamaStream
