import OmniRoute.Lib.CodeUnits
import OmniRoute.Lib.TagScan

/-!
# Think tags in a stream

`open-sse/utils/thinkTagParser.ts`: the text of a stream is split at `<think>` and `</think>` into
content and reasoning while it arrives, and the parser holds back the end of what it has seen, which
may be the beginning of a tag. It is not asked at all before the first delta that holds an opening
tag or ends with the beginning of one.

The tag that is looked for is the one of the side the parser is on (`thinkTag`), and what it has put
out with what is still to come splits to the same two texts after every turn of the loop
(`parseLoop_output`).

**Main result (`feedDeltas_lossless`).** However a text is cut into deltas, the two texts that
come out are those between the tags of the whole text.
-/

namespace OmniRoute.ThinkTags

open TagScan List

def thinkOpen : CodeUnits := CodeUnits.ofString "<think>"

def thinkClose : CodeUnits := CodeUnits.ofString "</think>"

/-- The tag that is looked for: the closing one inside, the opening one outside. -/
def thinkTag : Bool → CodeUnits
  | true => thinkClose
  | false => thinkOpen

def thinkOpenPartials : List CodeUnits :=
  (List.range (thinkOpen.length - 1)).map fun i => thinkOpen.take (i + 1)

def containsOrMayEndWithThinkOpenTag (value : CodeUnits) : Bool :=
  (indexOf thinkOpen value).isSome || thinkOpenPartials.any fun suffix => suffix <:+ value

structure ThinkState where
  enabled : Bool
  insideThink : Bool
  buffer : CodeUnits
  active : Bool

/-- `enabled` is whether the stream is passed through and its model writes such tags. -/
def initThinkState (enabled : Bool) : ThinkState := ⟨enabled, false, [], false⟩

/-- The parts of a delta, or of the end of the stream, where `null` stands for an empty one. -/
structure ThinkDelta where
  reasoningDelta : Option CodeUnits
  contentDelta : Option CodeUnits

def orNull (s : CodeUnits) : Option CodeUnits := if s = [] then none else some s

/-- What the loop of `processStreamingThinkDelta` works on. -/
structure Parse where
  insideThink : Bool
  buffer : CodeUnits
  reasoningDelta : CodeUnits
  contentDelta : CodeUnits

def Parse.emit (p : Parse) (text : CodeUnits) : Parse :=
  if p.insideThink then { p with reasoningDelta := p.reasoningDelta ++ text }
  else { p with contentDelta := p.contentDelta ++ text }

/-- The loop, which shortens the buffer in each turn. -/
def parseLoop : ℕ → Parse → Parse
  | 0, p => p
  | turns + 1, p =>
    let tag := thinkTag p.insideThink
    match indexOf tag p.buffer with
    | none =>
      if tag.length < p.buffer.length then
        let safe := p.buffer.length - (tag.length - 1)
        { p.emit (p.buffer.take safe) with buffer := p.buffer.drop safe }
      else p
    | some i =>
      parseLoop turns { p.emit (p.buffer.take i) with
        buffer := p.buffer.drop (i + tag.length), insideThink := !p.insideThink }

def processStreamingThinkDelta (delta : CodeUnits) (ctx : ThinkState) : ThinkState × ThinkDelta :=
  let buffer := ctx.buffer ++ delta
  let p := parseLoop buffer.length ⟨ctx.insideThink, buffer, [], []⟩
  ({ ctx with insideThink := p.insideThink, buffer := p.buffer },
    ⟨orNull p.reasoningDelta, orNull p.contentDelta⟩)

/-- A delta of the stream; its `content` is `none` when it is no string. -/
structure Delta where
  content : Option CodeUnits
  reasoningContent : Option CodeUnits

/-- Also whether the delta was parsed. -/
def applyThinkTag (ctx : ThinkState) (delta : Delta) : ThinkState × Delta × Bool :=
  match delta.content with
  | none => (ctx, delta, false)
  | some content =>
    if ctx.enabled = false then (ctx, delta, false)
    else if ctx.active = false ∧ containsOrMayEndWithThinkOpenTag content = false then
      (ctx, delta, false)
    else
      let (ctx', parts) := processStreamingThinkDelta content { ctx with active := true }
      (ctx', ⟨some (parts.contentDelta.getD []), parts.reasoningDelta.or delta.reasoningContent⟩,
        true)

def flushThinkBuffer (ctx : ThinkState) : ThinkState × ThinkDelta :=
  if ctx.buffer = [] then (ctx, ⟨none, none⟩)
  else ({ ctx with buffer := [] },
    if ctx.insideThink then ⟨orNull ctx.buffer, none⟩ else ⟨none, orNull ctx.buffer⟩)

/-- A text of content and one of reasoning. -/
structure Channels where
  content : CodeUnits
  reasoning : CodeUnits

def Channels.append (a b : Channels) : Channels :=
  ⟨a.content ++ b.content, a.reasoning ++ b.reasoning⟩

def ThinkDelta.channels (d : ThinkDelta) : Channels :=
  ⟨d.contentDelta.getD [], d.reasoningDelta.getD []⟩

def Delta.channels (d : Delta) : Channels := ⟨d.content.getD [], d.reasoningContent.getD []⟩

/-- What comes out of the deltas, one after the other, and of the end of the stream. -/
def feedDeltas : ThinkState → List CodeUnits → Channels
  | ctx, [] => (flushThinkBuffer ctx).2.channels
  | ctx, delta :: deltas =>
    let (ctx', out, _) := applyThinkTag ctx ⟨some delta, none⟩
    out.channels.append (feedDeltas ctx' deltas)

/-- The same of the parser alone, which is asked about every delta. -/
def streamDeltas : ThinkState → List CodeUnits → Channels
  | ctx, [] => (flushThinkBuffer ctx).2.channels
  | ctx, delta :: deltas =>
    let (ctx', out) := processStreamingThinkDelta delta ctx
    out.channels.append (streamDeltas ctx' deltas)

/-- The texts between the tags, from a side on. -/
def splitFrom (insideThink : Bool) (text : CodeUnits) : Channels :=
  let ps := pieces thinkTag insideThink 0 text
  ⟨(everyOther (!insideThink) ps).flatten, (everyOther insideThink ps).flatten⟩

/-- The text outside of the tags and the text inside of them, by a scan from left to right. -/
def splitThink (text : CodeUnits) : Channels := splitFrom false text

/-! ## The split of a text -/

/-- A text of one side. -/
def Channels.of (insideThink : Bool) (text : CodeUnits) : Channels :=
  if insideThink then ⟨[], text⟩ else ⟨text, []⟩

@[simp] theorem Channels.nil_append (a : Channels) : Channels.append ⟨[], []⟩ a = a := rfl

theorem thinkTag_ne_nil (side : Bool) : thinkTag side ≠ [] := by
  cases side <;> decide

variable {side : Bool} {x y : CodeUnits}

theorem splitFrom_append (h : Clear (thinkTag side) x y) :
    splitFrom side (x ++ y) = (Channels.of side x).append (splitFrom side y) := by
  unfold splitFrom
  rw [pieces_append h]
  cases hp : pieces thinkTag side 0 y with
  | nil => exact absurd hp (pieces_ne_nil thinkTag_ne_nil y)
  | cons p ps =>
    cases side with
    | _ => simp [Channels.of, Channels.append, everyOther]

theorem splitFrom_tag (side : Bool) (y : CodeUnits) :
    splitFrom side (thinkTag side ++ y) = splitFrom (!side) y := by
  unfold splitFrom
  rw [pieces_tag (thinkTag_ne_nil side)]
  cases side with
  | _ => simp [everyOther]

theorem splitFrom_of_none (h : indexOf (thinkTag side) x = none) :
    splitFrom side x = Channels.of side x := by
  have hclear : Clear (thinkTag side) x [] := clear_nil (indexOf_eq_none_iff.1 h)
  unfold splitFrom
  rw [pieces_of_clear hclear]
  cases side with
  | _ => simp [Channels.of, everyOther]

/-! ## The loop -/

/-- What the parse has put out, and what its buffer and the rest of the text split to. -/
def Parse.output (p : Parse) (rest : CodeUnits) : Channels :=
  Channels.append ⟨p.contentDelta, p.reasoningDelta⟩ (splitFrom p.insideThink (p.buffer ++ rest))

theorem output_emit (p : Parse) (text buffer : CodeUnits) (inside : Bool) (rest : CodeUnits) :
    Parse.output { p.emit text with buffer := buffer, insideThink := inside } rest =
      Channels.append ⟨p.contentDelta, p.reasoningDelta⟩
        ((Channels.of p.insideThink text).append (splitFrom inside (buffer ++ rest))) := by
  unfold Parse.output Parse.emit Channels.of Channels.append
  cases p.insideThink with
  | _ => simp

/-- The loop moves text from the buffer to the side it belongs to. -/
theorem parseLoop_output (turns : ℕ) (p : Parse) (rest : CodeUnits) :
    (parseLoop turns p).output rest = p.output rest := by
  induction turns generalizing p with
  | zero => rfl
  | succ turns ih =>
    unfold parseLoop
    dsimp only
    cases hi : indexOf (thinkTag p.insideThink) p.buffer with
    | none =>
      dsimp only
      split
      · next hlong =>
        set safe := p.buffer.length - ((thinkTag p.insideThink).length - 1)
        have hcut := take_append_drop safe p.buffer
        have hclear : Clear (thinkTag p.insideThink) (p.buffer.take safe)
            (p.buffer.drop safe ++ rest) := by
          refine clear_of_indexOf_none (hcut.symm ▸ hi) ?_ rest
          rw [length_drop]
          omega
        have hemit := output_emit p (p.buffer.take safe) (p.buffer.drop safe) p.insideThink rest
        have hside : (p.emit (p.buffer.take safe)).insideThink = p.insideThink := by
          unfold Parse.emit
          split <;> rfl
        rw [hside]
        rw [hemit, ← splitFrom_append hclear, ← append_assoc, hcut]
        rfl
      · rfl
    | some i =>
      obtain ⟨a, b, hbuffer, ha, hclear⟩ := indexOf_eq_some hi
      have hdrop : p.buffer.drop (i + (thinkTag p.insideThink).length) = b := by
        rw [hbuffer, ← ha, ← append_assoc, ← length_append, drop_left]
      have htake : p.buffer.take i = a := by rw [hbuffer, ← ha, take_left]
      have htext : p.buffer ++ rest = a ++ (thinkTag p.insideThink ++ (b ++ rest)) := by
        rw [hbuffer]
        simp only [append_assoc]
      have hclear' := hclear rest
      rw [append_assoc] at hclear'
      rw [ih, hdrop, htake, output_emit, ← splitFrom_tag, ← splitFrom_append hclear', ← htext]
      rfl

/-- At the end of the loop the buffer holds no tag. -/
theorem parseLoop_buffer (turns : ℕ) (p : Parse) (hturns : p.buffer.length ≤ turns) :
    indexOf (thinkTag (parseLoop turns p).insideThink) (parseLoop turns p).buffer = none := by
  induction turns generalizing p with
  | zero =>
    have hnil : p.buffer = [] := length_eq_zero_iff.1 (Nat.le_zero.1 hturns)
    rw [parseLoop, hnil, indexOf, if_neg (thinkTag_ne_nil _)]
  | succ turns ih =>
    unfold parseLoop
    dsimp only
    cases hi : indexOf (thinkTag p.insideThink) p.buffer with
    | none =>
      dsimp only
      split
      · have hside : ∀ text, (p.emit text).insideThink = p.insideThink := by
          intro text
          unfold Parse.emit
          split <;> rfl
        rw [hside, indexOf_eq_none_iff]
        exact fun h => indexOf_eq_none_iff.1 hi (h.trans (drop_suffix _ _).isInfix)
      · exact hi
    | some i =>
      refine ih _ ?_
      have hpos := length_pos_iff.2 (thinkTag_ne_nil p.insideThink)
      rw [length_drop]
      omega

/-! ## Deltas -/

theorem getD_orNull (s : CodeUnits) : (orNull s).getD [] = s := by
  unfold orNull
  split
  · next h =>
    rw [h]
    rfl
  · rfl

/-- The buffer holds no tag of the side. -/
def Settled (ctx : ThinkState) : Prop := indexOf (thinkTag ctx.insideThink) ctx.buffer = none

/-- A delta through the parser: what comes out and what is kept split as buffer and delta do. -/
theorem process_output (delta : CodeUnits) (ctx : ThinkState) (rest : CodeUnits) :
    (processStreamingThinkDelta delta ctx).2.channels.append
        (splitFrom (processStreamingThinkDelta delta ctx).1.insideThink
          ((processStreamingThinkDelta delta ctx).1.buffer ++ rest)) =
      splitFrom ctx.insideThink (ctx.buffer ++ (delta ++ rest)) := by
  have hloop := parseLoop_output (ctx.buffer ++ delta).length
    ⟨ctx.insideThink, ctx.buffer ++ delta, [], []⟩ rest
  have hstart : Parse.output ⟨ctx.insideThink, ctx.buffer ++ delta, [], []⟩ rest =
      splitFrom ctx.insideThink (ctx.buffer ++ (delta ++ rest)) := by
    unfold Parse.output
    rw [Channels.nil_append, append_assoc]
  rw [← hstart, ← hloop]
  unfold processStreamingThinkDelta ThinkDelta.channels Parse.output
  rw [getD_orNull, getD_orNull]

theorem process_settled (delta : CodeUnits) (ctx : ThinkState) :
    Settled (processStreamingThinkDelta delta ctx).1 :=
  parseLoop_buffer _ _ le_rfl

/-- A delta that the parser is not asked about is clear of the opening tag. -/
theorem clear_of_gate {value : CodeUnits}
    (h : containsOrMayEndWithThinkOpenTag value = false) (rest : CodeUnits) :
    Clear thinkOpen value rest := by
  obtain ⟨hnone, hends⟩ := Bool.or_eq_false_iff.1 h
  have hindex := Option.isNone_iff_eq_none.1 (Option.isSome_eq_false_iff.1 hnone)
  refine clear_of_ends (indexOf_eq_none_iff.1 hindex) ?_ rest
  intro p hp hne hnil hsuf
  rw [any_eq_false] at hends
  refine hends p ?_ (decide_eq_true hsuf)
  have hlen := hp.length_le
  have hpos := length_pos_iff.2 hnil
  have hlt : p.length < thinkOpen.length :=
    lt_of_le_of_ne hlen fun heq => hne (hp.eq_of_length heq)
  refine mem_map.2 ⟨p.length - 1, mem_range.2 (by omega), ?_⟩
  rw [Nat.sub_add_cancel hpos]
  exact (prefix_iff_eq_take.1 hp).symm

theorem flush_output {ctx : ThinkState} (h : Settled ctx) :
    (flushThinkBuffer ctx).2.channels = splitFrom ctx.insideThink ctx.buffer := by
  rw [splitFrom_of_none h]
  unfold flushThinkBuffer ThinkDelta.channels Channels.of
  split
  · next hnil =>
    rw [hnil]
    cases ctx.insideThink <;> rfl
  · cases ctx.insideThink with
    | _ => simp [getD_orNull]

theorem streamDeltas_eq {ctx : ThinkState} (h : Settled ctx) (deltas : List CodeUnits) :
    streamDeltas ctx deltas = splitFrom ctx.insideThink (ctx.buffer ++ deltas.flatten) := by
  induction deltas generalizing ctx with
  | nil => rw [streamDeltas, flush_output h, flatten_nil, append_nil]
  | cons delta deltas ih =>
    rw [streamDeltas]
    dsimp only
    rw [ih (process_settled delta ctx), flatten_cons, ← process_output]

theorem streamDeltas_eq_splitThink (enabled : Bool) (deltas : List CodeUnits) :
    streamDeltas (initThinkState enabled) deltas = splitThink deltas.flatten := by
  have hsettled : Settled (initThinkState enabled) := by
    show indexOf thinkOpen [] = none
    decide
  exact streamDeltas_eq hsettled deltas

/-- Once it is active the parser is asked about every delta. -/
theorem feedDeltas_of_active {ctx : ThinkState} (henabled : ctx.enabled = true)
    (hactive : ctx.active = true) (deltas : List CodeUnits) :
    feedDeltas ctx deltas = streamDeltas ctx deltas := by
  induction deltas generalizing ctx with
  | nil => rfl
  | cons delta deltas ih =>
    have happly : applyThinkTag ctx ⟨some delta, none⟩ =
        ((processStreamingThinkDelta delta ctx).1,
          ⟨some ((processStreamingThinkDelta delta ctx).2.contentDelta.getD []),
            (processStreamingThinkDelta delta ctx).2.reasoningDelta⟩, true) := by
      have hself : { ctx with active := true } = ctx := by rw [← hactive]
      unfold applyThinkTag
      dsimp only
      rw [if_neg (by simp [henabled]), if_neg (by simp [hactive]), hself, Option.or_none]
    have hrest := @ih (processStreamingThinkDelta delta ctx).1 henabled hactive
    rw [feedDeltas, happly, streamDeltas]
    dsimp only
    rw [hrest]
    rfl

/-- The texts that come out are those between the tags of the whole text, and with the tags between
them the pieces are the whole text. -/
theorem feedDeltas_lossless (deltas : List CodeUnits) :
    feedDeltas (initThinkState true) deltas = splitThink deltas.flatten ∧
      weave thinkTag false (pieces thinkTag false 0 deltas.flatten) = deltas.flatten := by
  refine ⟨?_, weave_pieces thinkTag_ne_nil false _⟩
  induction deltas with
  | nil => rfl
  | cons delta deltas ih =>
    cases hgate : containsOrMayEndWithThinkOpenTag delta with
    | false =>
      -- the parser is not asked, and the delta goes on as content
      have happly : applyThinkTag (initThinkState true) ⟨some delta, none⟩ =
          (initThinkState true, ⟨some delta, none⟩, false) := by
        unfold applyThinkTag
        dsimp only
        rw [if_neg (by decide), if_pos ⟨rfl, hgate⟩]
      rw [feedDeltas, happly]
      dsimp only
      rw [ih]
      unfold splitThink
      rw [flatten_cons, @splitFrom_append false _ _ (clear_of_gate hgate _)]
      rfl
    | true =>
      have hstart : feedDeltas (initThinkState true) (delta :: deltas) =
          feedDeltas { initThinkState true with active := true } (delta :: deltas) := by
        unfold feedDeltas applyThinkTag
        dsimp only
        rw [if_neg (by decide), if_neg (by simp [hgate]), if_neg (by decide),
          if_neg (by simp)]
      have hsettled : Settled { initThinkState true with active := true } := by
        show indexOf thinkOpen [] = none
        decide
      rw [hstart, feedDeltas_of_active rfl rfl]
      exact streamDeltas_eq hsettled _

end OmniRoute.ThinkTags
