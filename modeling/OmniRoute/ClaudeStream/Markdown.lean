import Mathlib

/-!
# Holding back incomplete Markdown

`open-sse/translator/helpers/markdownBoundary.ts`: the end of a text delta that may be the first
part of a fence, a code span or an emphasis marker is held back, to be sent with the next delta.
`splitMarkdownBoundary` decides what to send; the scan over the text before only tells it whether a
code span or a fence is open.

**Main result (`emit_append_hold`).** Nothing is lost: what is sent and what is held back are the
text.
-/

namespace OmniRoute.ClaudeStream

open List

def maxHoldChars : ℕ := 32

/-- The length of a text in 16-bit code units. -/
def jsLength (text : List Char) : ℕ := (text.map fun c => if c.toNat < 0x10000 then 1 else 2).sum

def isWordChar (c : Char) : Bool := c.isAlphanum || c = '_'

/-- The characters of the info string of a short run of backticks. -/
def isInfoChar (c : Char) : Bool := isWordChar c || c = '#' || c = '+' || c = '-'

def isLineEnding (c : Char) : Bool := c = '\n' || c = '\r'

/-! ## The scan -/

/-- What is open at the end of a text; `lineIndent` is -1 right after the opening run of a fence. -/
structure BacktickState where
  backtickRun : ℕ := 0
  trailingBackslash : Bool := false
  fenceRun : ℕ := 0
  fenceOpening : Bool := false
  fenceClosingRun : ℕ := 0
  lineIndent : ℤ := 0
  deriving DecidableEq

/-- The variables of the loop; `openRun` is the run of an open code span. -/
structure Scan where
  openRun : ℕ
  fenceRun : ℕ
  fenceOpening : Bool
  fenceClosingRun : ℕ
  lineIndent : ℤ
  backslashes : ℕ

/-- One round of the loop on `char` and what follows it; the result is what is left to scan. -/
def scanRound (st : Scan) (char : Char) (rest : List Char) : Scan × List Char :=
  let runLength := 1 + (rest.takeWhile fun c => c = '`').length
  let afterRun := rest.dropWhile fun c => c = '`'
  if st.fenceOpening then
    if isLineEnding char then ({ st with fenceOpening := false, lineIndent := 0 }, rest)
    else if char = '`' ∧ st.lineIndent = -1 then
      ({ st with fenceRun := st.fenceRun + runLength }, afterRun)
    else if char = '`' then
      ({ st with openRun := st.fenceRun, fenceRun := 0, fenceOpening := false }, char :: rest)
    else ({ st with lineIndent := 4 }, rest)
  else if st.fenceClosingRun ≠ 0 then
    if isLineEnding char then ({ st with fenceRun := 0, fenceClosingRun := 0, lineIndent := 0 }, rest)
    else if char = '`' ∧ st.lineIndent = -1 then
      ({ st with fenceClosingRun := st.fenceClosingRun + runLength }, afterRun)
    else if char = ' ' ∨ char = '\t' then ({ st with lineIndent := 4 }, rest)
    else ({ st with fenceClosingRun := 0, lineIndent := 4 }, rest)
  else if st.fenceRun ≠ 0 then
    if isLineEnding char then ({ st with lineIndent := 0 }, rest)
    else if char = ' ' ∧ st.lineIndent < 4 then
      ({ st with lineIndent := st.lineIndent + 1 }, rest)
    else if char = '`' ∧ st.lineIndent ≤ 3 then
      if runLength ≥ st.fenceRun then
        ({ st with fenceClosingRun := runLength, lineIndent := -1 }, afterRun)
      else ({ st with lineIndent := 4 }, afterRun)
    else ({ st with lineIndent := 4 }, rest)
  else if char ≠ '`' then
    ({ st with
      lineIndent :=
        if isLineEnding char then 0
        else if char = ' ' ∧ st.lineIndent < 4 then st.lineIndent + 1
        else 4
      backslashes :=
        if st.openRun = 0 then if char = '\\' then st.backslashes + 1 else 0 else st.backslashes },
      rest)
  else if st.openRun = 0 ∧ st.backslashes % 2 = 1 then
    ({ st with backslashes := 0, lineIndent := 4 }, rest)
  else if st.openRun = 0 ∧ runLength ≥ 3 ∧ st.lineIndent ≤ 3 then
    ({ st with fenceRun := runLength, fenceOpening := true, lineIndent := -1, backslashes := 0 },
      afterRun)
  else
    ({ st with
      openRun :=
        if st.openRun = 0 then runLength else if st.openRun = runLength then 0 else st.openRun
      lineIndent := 4
      backslashes := 0 }, afterRun)

/-- The loop. Only a round that ends an opening leaves the text as it is, so twice as many rounds
as there are characters are enough. -/
def scanLoop : ℕ → Scan → List Char → Scan
  | 0, st, _ => st
  | _ + 1, st, [] => st
  | rounds + 1, st, char :: rest =>
    scanLoop rounds (scanRound st char rest).1 (scanRound st char rest).2

def scanBacktickState (text : List Char) (prior : BacktickState) : BacktickState :=
  let st := scanLoop (2 * text.length + 1)
    { openRun := prior.backtickRun
      fenceRun := prior.fenceRun
      fenceOpening := prior.fenceOpening
      fenceClosingRun := prior.fenceClosingRun
      lineIndent := prior.lineIndent
      backslashes :=
        if prior.backtickRun = 0 ∧ prior.fenceRun = 0 ∧ prior.trailingBackslash then 1 else 0 }
    text
  { backtickRun := st.openRun
    trailingBackslash := st.openRun = 0 ∧ st.fenceRun = 0 ∧ st.backslashes % 2 = 1
    fenceRun := st.fenceRun
    fenceOpening := st.fenceOpening
    fenceClosingRun := st.fenceClosingRun
    lineIndent := st.lineIndent }

/-! ## The split -/

/-- Whether a marker that follows `before` can be an opener. -/
def isOpenerContext (before : List Char) : Bool :=
  match before.getLast? with
  | none => true
  | some prev => !isWordChar prev

/-- A text cut before its last run of `c`: what is before it, the run and what follows. -/
def lastRun (c : Char) (text : List Char) : List Char × List Char × List Char :=
  let reversed := text.reverse
  let fromRun := reversed.dropWhile fun d => d ≠ c
  ((fromRun.dropWhile fun d => d = c).reverse, (fromRun.takeWhile fun d => d = c).reverse,
    (reversed.takeWhile fun d => d ≠ c).reverse)

/-- `/(?<!`)(`\{1,2\}[A-Za-z0-9_+#-]*|`\{3,\}[^`\r\n]+)$/`: only the last run can match. -/
def fenceMatch (text : List Char) : Option (List Char × List Char × List Char) :=
  let (before, run, info) := lastRun '`' text
  if (run.length = 1 ∨ run.length = 2) ∧ info.all isInfoChar then some (before, run, info)
  else if run.length ≥ 3 ∧ info ≠ [] ∧ info.all fun c => !isLineEnding c then
    some (before, run, info)
  else none

/-- `/(?<!\*)\*\{1,3\}$/` -/
def emphMatch (text : List Char) : Option (List Char × List Char) :=
  let (before, run, after) := lastRun '*' text
  if after = [] ∧ 1 ≤ run.length ∧ run.length ≤ 3 then some (before, run) else none

structure MarkdownSplit where
  emit : List Char
  hold : List Char
  state : BacktickState

/-- Whether the end of the text is held back as the first part of a code span or a fence. -/
def holdsFence (before run info : List Char) (prior : BacktickState) : Bool :=
  let st := scanBacktickState before prior
  jsLength (run ++ info) ≤ maxHoldChars && st.fenceRun = 0 && st.backtickRun ≠ run.length &&
    (st.backtickRun > run.length || isOpenerContext before)

def splitMarkdownBoundary (text : List Char) (prior : BacktickState) : MarkdownSplit :=
  if text = [] then { emit := [], hold := [], state := {} }
  else
    match fenceMatch text with
    | some (before, run, info) =>
      if holdsFence before run info prior then
        { emit := before, hold := run ++ info, state := scanBacktickState before prior }
      else splitEmphasis text prior
    | none => splitEmphasis text prior
where
  splitEmphasis (text : List Char) (prior : BacktickState) : MarkdownSplit :=
    match emphMatch text with
    | some (before, run) =>
      if isOpenerContext before then
        { emit := before, hold := run, state := scanBacktickState before prior }
      else { emit := text, hold := [], state := scanBacktickState text prior }
    | none => { emit := text, hold := [], state := scanBacktickState text prior }

/-! ## The rounds of the scan -/

/-- What is left to do: two rounds for a character, one to end an opening. -/
def workLeft (st : Scan) (text : List Char) : ℕ :=
  2 * text.length + if st.fenceOpening then 1 else 0

theorem workLeft_scanRound (st : Scan) (char : Char) (rest : List Char) :
    workLeft (scanRound st char rest).1 (scanRound st char rest).2 < workLeft st (char :: rest) := by
  have hrun : (rest.dropWhile fun c => c = '`').length ≤ rest.length :=
    (dropWhile_sublist _).length_le
  have hopen : ∀ b : Bool, (if b then 1 else 0 : ℕ) ≤ 1 := fun b => by cases b <;> decide
  have := hopen st.fenceOpening
  unfold scanRound
  by_cases h₁ : st.fenceOpening = true
  · simp only [if_pos h₁]
    split_ifs <;> simp [workLeft, h₁]
    all_goals omega
  · simp only [if_neg h₁]
    split_ifs <;> simp [workLeft, h₁] <;> omega

/-- Rounds beyond the work there is change nothing. -/
theorem scanLoop_enough {rounds : ℕ} {st : Scan} {text : List Char}
    (h : workLeft st text ≤ rounds) : scanLoop (rounds + 1) st text = scanLoop rounds st text := by
  induction rounds generalizing st text with
  | zero =>
    cases text with
    | nil => rfl
    | cons char rest =>
      rw [workLeft, length_cons] at h
      omega
  | succ rounds ih =>
    cases text with
    | nil => rfl
    | cons char rest =>
      have hless := workLeft_scanRound st char rest
      rw [scanLoop, scanLoop]
      exact ih (by omega)

/-! ## Nothing is lost -/

theorem lastRun_append (c : Char) (text : List Char) :
    (lastRun c text).1 ++ ((lastRun c text).2.1 ++ (lastRun c text).2.2) = text := by
  simp only [lastRun, ← reverse_append]
  rw [append_assoc, takeWhile_append_dropWhile, takeWhile_append_dropWhile, reverse_reverse]

theorem fenceMatch_append {text before run info : List Char}
    (h : fenceMatch text = some (before, run, info)) : before ++ (run ++ info) = text := by
  have hcut := lastRun_append '`' text
  unfold fenceMatch at h
  simp only at h
  split_ifs at h <;> cases h <;> exact hcut

theorem emphMatch_append {text before run : List Char} (h : emphMatch text = some (before, run)) :
    before ++ run = text := by
  have hcut := lastRun_append '*' text
  unfold emphMatch at h
  simp only at h
  split_ifs at h with hc
  cases h
  rw [hc.1, append_nil] at hcut
  exact hcut

theorem splitEmphasis_append (text : List Char) (prior : BacktickState) :
    (splitMarkdownBoundary.splitEmphasis text prior).emit ++
      (splitMarkdownBoundary.splitEmphasis text prior).hold = text := by
  unfold splitMarkdownBoundary.splitEmphasis
  cases h : emphMatch text with
  | none => exact append_nil text
  | some m =>
    simp only
    split_ifs
    · exact emphMatch_append h
    · exact append_nil text

/-- What is sent and what is held back are the text. -/
theorem emit_append_hold (text : List Char) (prior : BacktickState) :
    (splitMarkdownBoundary text prior).emit ++ (splitMarkdownBoundary text prior).hold = text := by
  unfold splitMarkdownBoundary
  by_cases hempty : text = []
  · rw [if_pos hempty, hempty]
    rfl
  rw [if_neg hempty]
  cases h : fenceMatch text with
  | none => exact splitEmphasis_append text prior
  | some m =>
    simp only
    split_ifs
    · exact fenceMatch_append h
    · exact splitEmphasis_append text prior

end OmniRoute.ClaudeStream
