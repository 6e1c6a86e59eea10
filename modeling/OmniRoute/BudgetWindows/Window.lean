import OmniRoute.Lib.CodeUnits

/-!
# Budget windows

`src/domain/costRules.ts`: a budget counts the costs of a window from one reset to the next. The
resets are at one time of the day, on every day, every Monday or every first day of a month, in UTC.
Times are integers, without the end of the range of `Date`; that `Date.UTC` takes the years 0 to 99
for 1900 to 1999 does not matter from 1970 on.

**Main result (`budgetWindow_tiles`).** The windows tile time: an instant is in its window, all
instants of a window have that window, and the next one starts where it ends.
-/

namespace OmniRoute.BudgetWindows

open List Nat

/-! ## The calendar -/

def msPerDay : ℤ := 86400000

/-- The first day of a year, counted from the first of January 1970. -/
def dayFromYear (year : ℤ) : ℤ :=
  365 * (year - 1970) + (year - 1969) / 4 - (year - 1901) / 100 + (year - 1601) / 400

def leapDay (year : ℤ) : ℤ := if year % 4 = 0 ∧ (year % 100 ≠ 0 ∨ year % 400 = 0) then 1 else 0

/-- The days of a year before a month. -/
def daysBefore (year : ℤ) (month : ℕ) : ℤ :=
  [0, 31, 59, 90, 120, 151, 181, 212, 243, 273, 304, 334].getD month 0 +
    if 2 ≤ month then leapDay year else 0

def makeDay (year month date : ℤ) : ℤ :=
  dayFromYear (year + month / 12) + daysBefore (year + month / 12) (month % 12).toNat + (date - 1)

def getUtcDateMs (year month day hours minutes : ℤ) : ℤ :=
  makeDay year month day * msPerDay + (hours * 3600000 + minutes * 60000)

/-- The first year that ends after the day; four hundred years have 146097 days. -/
def getUTCFullYear (day : ℤ) : ℤ :=
  let first := 1970 + 400 * (day / 146097)
  first + (List.range 400).findIdx fun k : ℕ => day < dayFromYear (first + (k + 1 : ℕ))

/-- The first month that ends after the day. -/
def getUTCMonth (day : ℤ) : ℕ :=
  (List.range 12).findIdx fun k : ℕ => day < makeDay (getUTCFullYear day) (k + 1 : ℕ) 1

def getUTCDate (day : ℤ) : ℤ := day - makeDay (getUTCFullYear day) (getUTCMonth day) 1 + 1

def getUTCDay (day : ℤ) : ℤ := (day + 4) % 7

/-! ## The window -/

inductive BudgetResetInterval
  | daily
  | weekly
  | monthly
  deriving DecidableEq

structure BudgetWindow where
  periodStartAt : ℤ
  nextResetAt : ℤ
  deriving DecidableEq

def isDigit (u : UInt16) : Bool := decide (48 ≤ u ∧ u ≤ 57)

def twoDigits (tens ones : UInt16) : ℕ := 10 * (tens.toNat - 48) + (ones.toNat - 48)

/-- The groups of a match of `/^(\d{2}):(\d{2})$/`. -/
def matchResetTime : CodeUnits → Option (ℕ × ℕ)
  | [h₁, h₂, colon, m₁, m₂] =>
    if isDigit h₁ ∧ isDigit h₂ ∧ colon = 58 ∧ isDigit m₁ ∧ isDigit m₂ then
      some (twoDigits h₁ h₂, twoDigits m₁ m₂)
    else none
  | _ => none

/-- A number below 100 with two digits. -/
def padStart (n : ℕ) : CodeUnits := [(48 + n / 10).toUInt16, (48 + n % 10).toUInt16]

def normalizeResetTime (value : CodeUnits) : CodeUnits :=
  match matchResetTime value.trim with
  | some (hours, minutes) => padStart (min hours 23) ++ 58 :: padStart (min minutes 59)
  | none => padStart 0 ++ 58 :: padStart 0

def getResetTimeParts (resetTime : CodeUnits) : ℕ × ℕ := (matchResetTime resetTime).getD (0, 0)

def getBudgetWindow (resetInterval : BudgetResetInterval) (resetTime : CodeUnits) (now : ℤ) :
    BudgetWindow :=
  let (hours, minutes) := getResetTimeParts (normalizeResetTime resetTime)
  let current := now / msPerDay
  let year := getUTCFullYear current
  let month := getUTCMonth current
  let day := getUTCDate current
  match resetInterval with
  | .weekly =>
    let daysSinceMonday := (getUTCDay current + 6) % 7
    let thisWeekReset := getUtcDateMs year month (day - daysSinceMonday) hours minutes
    if now ≥ thisWeekReset then
      ⟨thisWeekReset, getUtcDateMs year month (day - daysSinceMonday + 7) hours minutes⟩
    else ⟨getUtcDateMs year month (day - daysSinceMonday - 7) hours minutes, thisWeekReset⟩
  | .monthly =>
    let thisMonthReset := getUtcDateMs year month 1 hours minutes
    if now ≥ thisMonthReset then ⟨thisMonthReset, getUtcDateMs year (month + 1) 1 hours minutes⟩
    else ⟨getUtcDateMs year (month - 1) 1 hours minutes, thisMonthReset⟩
  | .daily =>
    let todayReset := getUtcDateMs year month day hours minutes
    if now ≥ todayReset then ⟨todayReset, getUtcDateMs year month (day + 1) hours minutes⟩
    else ⟨getUtcDateMs year month (day - 1) hours minutes, todayReset⟩

/-! ## Tilings -/

/-- Every instant is in one window, and the windows follow each other. -/
structure Tiles (window : ℤ → BudgetWindow) : Prop where
  contains : ∀ now, (window now).periodStartAt ≤ now ∧ now < (window now).nextResetAt
  same : ∀ now t, (window now).periodStartAt ≤ t → t < (window now).nextResetAt →
    window t = window now
  follows : ∀ now, (window (window now).nextResetAt).periodStartAt = (window now).nextResetAt

/-- Windows between two neighbours of an increasing sequence tile time. -/
theorem tiles_of_boundaries {b : ℤ → ℤ} (hb : StrictMono b) {window : ℤ → BudgetWindow}
    (h : ∀ now, ∃ i, window now = ⟨b i, b (i + 1)⟩ ∧ b i ≤ now ∧ now < b (i + 1)) :
    Tiles window := by
  have hle : ∀ {i j t : ℤ}, b i ≤ t → t < b (j + 1) → i ≤ j := by
    intro i j t hi hj
    exact Int.lt_add_one_iff.1 (hb.lt_iff_lt.1 (hi.trans_lt hj))
  have hsame : ∀ now t, (window now).periodStartAt ≤ t → t < (window now).nextResetAt →
      window t = window now := by
    intro now t hstart hend
    obtain ⟨i, hi, -⟩ := h now
    obtain ⟨j, hj, hstart', hend'⟩ := h t
    rw [hi] at hstart hend
    rw [hi, hj, le_antisymm (hle hstart' hend) (hle hstart hend')]
  refine ⟨fun now => ?_, hsame, fun now => ?_⟩
  · obtain ⟨i, hi, hnow⟩ := h now
    rw [hi]
    exact hnow
  · obtain ⟨i, hi, -⟩ := h now
    rw [hi]
    obtain ⟨j, hj, hstart, hend⟩ := h (b (i + 1))
    rw [hj, le_antisymm (hb.le_iff_le.1 hstart) (hle le_rfl hend)]

/-- Days that increase, each at one time of the day: the instant is after the last of the days or
after the one before it. -/
theorem exists_window {first : ℤ → ℤ} (hfirst : ∀ i, first i < first (i + 1)) {time : ℤ}
    (htime : 0 ≤ time ∧ time < msPerDay) {now i : ℤ} (hi : first i ≤ now / msPerDay)
    (hnext : now / msPerDay < first (i + 1)) :
    ∃ j, (if now ≥ first i * msPerDay + time then
        BudgetWindow.mk (first i * msPerDay + time) (first (i + 1) * msPerDay + time)
      else ⟨first (i - 1) * msPerDay + time, first i * msPerDay + time⟩) =
        ⟨first j * msPerDay + time, first (j + 1) * msPerDay + time⟩ ∧
      first j * msPerDay + time ≤ now ∧ now < first (j + 1) * msPerDay + time := by
  have hprev := hfirst (i - 1)
  rw [sub_add_cancel] at hprev
  unfold msPerDay at *
  split
  · next hafter => exact ⟨i, rfl, hafter, by omega⟩
  · next hbefore => exact ⟨i - 1, by rw [sub_add_cancel], by omega, by rw [sub_add_cancel]; omega⟩

/-! ## Months and days -/

theorem dayFromYear_succ (year : ℤ) :
    dayFromYear (year + 1) = dayFromYear year + 365 + leapDay year := by
  unfold dayFromYear leapDay
  split <;> omega

/-- A day is in the first of the spans that ends after it. -/
theorem findIdx_spec {b : ℕ → ℤ} {n : ℕ} {d : ℤ} (hstart : b 0 ≤ d) (hend : d < b n) :
    b ((List.range n).findIdx fun k => d < b (k + 1)) ≤ d ∧
      d < b ((List.range n).findIdx (fun k => d < b (k + 1)) + 1) := by
  obtain ⟨m, rfl⟩ : ∃ m, n = m + 1 := by
    refine exists_eq_succ_of_ne_zero fun hzero => ?_
    rw [hzero] at hend
    omega
  have hlt : ((range (m + 1)).findIdx fun k => decide (d < b (k + 1))) <
      (range (m + 1)).length :=
    findIdx_lt_length.2 ⟨m, mem_range.2 (lt_succ_self m), decide_eq_true hend⟩
  constructor
  · cases hi : (range (m + 1)).findIdx fun k => decide (d < b (k + 1)) with
    | zero => exact hstart
    | succ k =>
      have hnot := not_of_lt_findIdx (lt_of_lt_of_eq (lt_succ_self k) hi.symm)
      rw [getElem_range, decide_eq_false_iff_not] at hnot
      exact not_lt.1 hnot
  · have hmem := findIdx_getElem (w := hlt)
    rw [getElem_range, decide_eq_true_eq] at hmem
    exact hmem

theorem year_spec (day : ℤ) :
    dayFromYear (getUTCFullYear day) ≤ day ∧ day < dayFromYear (getUTCFullYear day + 1) := by
  have hstart : dayFromYear (1970 + 400 * (day / 146097) + (0 : ℕ)) ≤ day := by
    unfold dayFromYear
    omega
  have hend : day < dayFromYear (1970 + 400 * (day / 146097) + (400 : ℕ)) := by
    unfold dayFromYear
    omega
  have hspec := findIdx_spec (b := fun k => dayFromYear (1970 + 400 * (day / 146097) + (k : ℕ)))
    hstart hend
  refine ⟨hspec.1, ?_⟩
  have hnext := hspec.2
  rwa [cast_succ, ← add_assoc] at hnext

/-- The first day of a month, all months counted. -/
def monthDay (i : ℤ) : ℤ := dayFromYear (i / 12) + daysBefore (i / 12) (i % 12).toNat

theorem makeDay_eq (year month date : ℤ) :
    makeDay year month date = monthDay (12 * year + month) + (date - 1) := by
  have hdiv : (12 * year + month) / 12 = year + month / 12 := by omega
  have hmod : (12 * year + month) % 12 = month % 12 := by omega
  rw [makeDay, monthDay, hdiv, hmod]

theorem monthDay_lt (i : ℤ) : monthDay i < monthDay (i + 1) := by
  have hleap : 0 ≤ leapDay (i / 12) := by
    unfold leapDay
    split <;> decide
  have hstep : ∀ m < 11, daysBefore (i / 12) m < daysBefore (i / 12) (m + 1) := by
    intro m hm
    unfold daysBefore
    interval_cases m
    all_goals simp
    all_goals omega
  have hrange : (i % 12).toNat < 12 := by omega
  unfold monthDay
  by_cases hlast : (i % 12).toNat = 11
  · have hyear : (i + 1) / 12 = i / 12 + 1 := by omega
    have hmonth : ((i + 1) % 12).toNat = 0 := by omega
    rw [hyear, hmonth, hlast, dayFromYear_succ]
    simp [daysBefore]
    omega
  · have hyear : (i + 1) / 12 = i / 12 := by omega
    have hmonth : ((i + 1) % 12).toNat = (i % 12).toNat + 1 := by omega
    rw [hyear, hmonth]
    have := hstep _ (by omega : (i % 12).toNat < 11)
    omega

theorem month_spec (day : ℤ) :
    monthDay (12 * getUTCFullYear day + getUTCMonth day) ≤ day ∧
      day < monthDay (12 * getUTCFullYear day + getUTCMonth day + 1) := by
  obtain ⟨hyear, hnext⟩ := year_spec day
  have hfirst : ∀ year : ℤ, monthDay (12 * year) = dayFromYear year := by
    intro year
    have hdiv : 12 * year / 12 = year := by omega
    have hmod : 12 * year % 12 = 0 := by omega
    rw [monthDay, hdiv, hmod]
    exact add_zero _
  have hmonth : ∀ k : ℕ, makeDay (getUTCFullYear day) k 1 =
      monthDay (12 * getUTCFullYear day + k) := by
    intro k
    rw [makeDay_eq, sub_self, add_zero]
  have hspec := findIdx_spec (b := fun k => makeDay (getUTCFullYear day) (k : ℕ) 1) (n := 12)
    (d := day) (by rw [hmonth, cast_zero, add_zero, hfirst]; exact hyear) (by
      rw [hmonth, show 12 * getUTCFullYear day + ((12 : ℕ) : ℤ) = 12 * (getUTCFullYear day + 1) by
        omega, hfirst]
      exact hnext)
  rw [add_assoc, ← cast_succ, ← hmonth, ← hmonth]
  exact hspec

/-- `day` is the date of the current day, so days are counted from there. -/
theorem getUtcDateMs_day (current k hours minutes : ℤ) :
    getUtcDateMs (getUTCFullYear current) (getUTCMonth current) (getUTCDate current + k) hours minutes
      = (current + k) * msPerDay + (hours * 3600000 + minutes * 60000) := by
  rw [getUtcDateMs, makeDay_eq, getUTCDate, makeDay_eq]
  congr 2
  omega

theorem getUtcDateMs_month (year month hours minutes : ℤ) :
    getUtcDateMs year month 1 hours minutes =
      monthDay (12 * year + month) * msPerDay + (hours * 3600000 + minutes * 60000) := by
  rw [getUtcDateMs, makeDay_eq, sub_self, add_zero]

/-! ## The reset time -/

theorem getResetTimeParts_le (resetTime : CodeUnits) :
    (getResetTimeParts (normalizeResetTime resetTime)).1 ≤ 23 ∧
      (getResetTimeParts (normalizeResetTime resetTime)).2 ≤ 59 := by
  have hdigits : ∀ n < 60, isDigit (48 + n / 10).toUInt16 = true ∧
      isDigit (48 + n % 10).toUInt16 = true ∧
      twoDigits (48 + n / 10).toUInt16 (48 + n % 10).toUInt16 = n := by decide +kernel
  have hparts : ∀ {h m : ℕ}, h ≤ 23 → m ≤ 59 →
      getResetTimeParts (padStart h ++ 58 :: padStart m) = (h, m) := by
    intro h m hh hm
    obtain ⟨hh₁, hh₂, hh⟩ := hdigits h (by omega)
    obtain ⟨hm₁, hm₂, hm⟩ := hdigits m (by omega)
    show (matchResetTime [_, _, 58, _, _]).getD (0, 0) = _
    rw [matchResetTime, if_pos ⟨hh₁, hh₂, rfl, hm₁, hm₂⟩, hh, hm]
    rfl
  unfold normalizeResetTime
  split
  · next hours minutes _ =>
    rw [hparts (min_le_right _ _) (min_le_right _ _)]
    exact ⟨min_le_right _ _, min_le_right _ _⟩
  · rw [hparts (zero_le _) (zero_le _)]
    exact ⟨zero_le _, zero_le _⟩

/-! ## The windows -/

/-- **Budget windows tile time**, for every interval and every reset time. -/
theorem budgetWindow_tiles (resetInterval : BudgetResetInterval) (resetTime : CodeUnits) :
    Tiles (getBudgetWindow resetInterval resetTime) := by
  obtain ⟨hhours, hminutes⟩ := getResetTimeParts_le resetTime
  generalize hparts : getResetTimeParts (normalizeResetTime resetTime) = parts at hhours hminutes
  obtain ⟨hours, minutes⟩ := parts
  have htime : 0 ≤ (hours : ℤ) * 3600000 + minutes * 60000 ∧
      (hours : ℤ) * 3600000 + minutes * 60000 < msPerDay := by
    unfold msPerDay
    dsimp only at hhours hminutes
    omega
  have htiles : ∀ first : ℤ → ℤ, (∀ i, first i < first (i + 1)) → (∀ now, ∃ i,
      first i ≤ now / msPerDay ∧ now / msPerDay < first (i + 1) ∧
        getBudgetWindow resetInterval resetTime now =
          if now ≥ first i * msPerDay + (hours * 3600000 + minutes * 60000) then
            ⟨first i * msPerDay + (hours * 3600000 + minutes * 60000),
              first (i + 1) * msPerDay + (hours * 3600000 + minutes * 60000)⟩
          else ⟨first (i - 1) * msPerDay + (hours * 3600000 + minutes * 60000),
            first i * msPerDay + (hours * 3600000 + minutes * 60000)⟩) →
      Tiles (getBudgetWindow resetInterval resetTime) := by
    intro first hfirst hwindow
    apply tiles_of_boundaries
      (b := fun i => first i * msPerDay + (hours * 3600000 + minutes * 60000))
    · refine strictMono_int_of_lt_succ fun i => ?_
      have := hfirst i
      unfold msPerDay
      omega
    · intro now
      obtain ⟨i, hi, hnext, heq⟩ := hwindow now
      rw [heq]
      exact exists_window hfirst htime hi hnext
  cases resetInterval with
  | daily =>
    refine htiles id Int.lt_succ fun now => ⟨now / msPerDay, le_rfl, Int.lt_succ _, ?_⟩
    have hday := getUtcDateMs_day (now / msPerDay) 0 hours minutes
    rw [add_zero, add_zero] at hday
    rw [getBudgetWindow, hparts]
    dsimp only [id]
    rw [hday, getUtcDateMs_day, sub_eq_add_neg, getUtcDateMs_day, ← sub_eq_add_neg]
  | weekly =>
    refine htiles (fun i => 7 * i - 3) (fun i => by omega) fun now =>
      ⟨(now / msPerDay + 3) / 7, by omega, by omega, ?_⟩
    have hmonday : now / msPerDay - (getUTCDay (now / msPerDay) + 6) % 7 =
        7 * ((now / msPerDay + 3) / 7) - 3 := by
      unfold getUTCDay
      omega
    have hday : ∀ k : ℤ, getUtcDateMs (getUTCFullYear (now / msPerDay))
        (getUTCMonth (now / msPerDay)) (getUTCDate (now / msPerDay) -
          (getUTCDay (now / msPerDay) + 6) % 7 + k) hours minutes =
        (7 * ((now / msPerDay + 3) / 7) - 3 + k) * msPerDay +
          (hours * 3600000 + minutes * 60000) := by
      intro k
      rw [sub_add_eq_add_sub, add_sub_assoc, getUtcDateMs_day, ← hmonday]
      congr 2
      omega
    have hthis := hday 0
    rw [add_zero, add_zero] at hthis
    rw [getBudgetWindow, hparts]
    dsimp only
    rw [hthis, hday, sub_eq_add_neg _ 7, hday]
    congr 4 <;> omega
  | monthly =>
    refine htiles monthDay monthDay_lt fun now => ⟨_, (month_spec _).1, (month_spec _).2, ?_⟩
    rw [getBudgetWindow, hparts]
    dsimp only
    rw [getUtcDateMs_month, getUtcDateMs_month, getUtcDateMs_month, add_assoc, add_sub_assoc]

end OmniRoute.BudgetWindows
