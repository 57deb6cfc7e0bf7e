import Celld.Lib.Search
import Celld.Schedule.CronDays

/-!
# The next occurrence of a cron expression

`nextAfter` walks the days from a minute on, one Gregorian cycle of 146097 days, and within a
day the hours and minutes.  The calendar repeats after a cycle, so the walk sees every day
there is; but the first day is entered in the middle, and its earlier minutes come back only
with the first day behind the cycle.  That no expression is given up for it rests on the
calendar: within a cycle every day has a twin, of the same month, day and weekday in a month
of the same length (`exists_twin`).
-/

namespace Celld.Schedule

open Nat Search

/-- The expression matches the minute that contains the instant. -/
def Cron.matches (cron : Cron) (atMs : ℤ) : Bool :=
  let minutes := atMs / 60000
  let time := (minutes % 1440).toNat
  dayMatches cron (minutes / 1440) && hasBit cron.hour (time / 60) && hasBit cron.minute (time % 60)

def maxLookaheadDays : ℕ := 146097

def nextMinute (cron : Cron) (minute : ℕ) : Option ℕ :=
  if minute < 60 then
    if hasBit cron.minute minute then some minute else nextMinute cron (minute + 1)
  else none
termination_by 60 - minute

/-- The first minute of the day from an hour and a minute on. -/
def nextHour (cron : Cron) (hour minute : ℕ) : Option ℕ :=
  if hour < 24 then
    ((if hasBit cron.hour hour then nextMinute cron minute else none).map (hour * 60 + ·)).or
      (nextHour cron (hour + 1) 0)
  else none
termination_by 24 - hour

def nextTimeOfDay (cron : Cron) (start : ℕ) : Option ℕ := nextHour cron (start / 60) (start % 60)

/-- Some days from a day on; the first one is entered at a minute. -/
def walkDays (cron : Cron) : ℕ → ℤ → ℕ → Option ℤ
  | 0, _, _ => none
  | days + 1, day, time =>
      ((if dayMatches cron day then nextTimeOfDay cron time else none).map
        fun found : ℕ => (day * 1440 + found) * 60000).or (walkDays cron days (day + 1) 0)

/-- The first occurrence strictly after an instant. -/
def nextAfter (cron : Cron) (afterMs : ℤ) : Option ℤ :=
  let start := afterMs / 60000 + 1
  walkDays cron maxLookaheadDays (start / 1440) (start % 1440).toNat

/-! ## The walk -/

section Walk

variable (cron : Cron)

/-- The minute of the day matches. -/
def onTime (time : ℕ) : Prop :=
  hasBit cron.hour (time / 60) = true ∧ hasBit cron.minute (time % 60) = true

def minuteMatches (minute : ℤ) : Prop :=
  dayMatches cron (minute / 1440) = true ∧ onTime cron (minute % 1440).toNat

theorem matches_iff (atMs : ℤ) : cron.matches atMs = true ↔ minuteMatches cron (atMs / 60000) := by
  simp only [Cron.matches, minuteMatches, onTime, Bool.and_eq_true, and_assoc]

theorem finds_nextMinute (minute : ℕ) :
    Finds {n | minute ≤ n ∧ n < 60 ∧ hasBit cron.minute n = true} (nextMinute cron minute) := by
  induction left : 60 - minute generalizing minute with
  | zero =>
    rw [nextMinute, if_neg (by omega)]
    exact finds_none fun n here => by simp only [Set.mem_ofPred_eq] at here; omega
  | succ left ih =>
    rw [nextMinute, if_pos (by omega)]
    split
    · rename_i hit
      exact finds_some ⟨⟨le_rfl, by omega, hit⟩, fun n here => here.1⟩
    · rename_i miss
      have same : {n | minute ≤ n ∧ n < 60 ∧ hasBit cron.minute n = true}
          = {n | minute + 1 ≤ n ∧ n < 60 ∧ hasBit cron.minute n = true} := by
        ext n
        refine and_congr_left fun here => ⟨fun le => ?_, le_of_succ_le⟩
        rcases le.eq_or_lt with rfl | less
        · exact absurd here.2 miss
        · exact less
      rw [same]
      exact ih (minute + 1) (by omega)

theorem finds_nextHour (hour minute : ℕ) (inHour : minute < 60) :
    Finds {t | hour * 60 + minute ≤ t ∧ t < 1440 ∧ onTime cron t} (nextHour cron hour minute) := by
  induction left : 24 - hour generalizing hour minute with
  | zero =>
    rw [nextHour, if_neg (by omega)]
    exact finds_none fun t here => by simp only [Set.mem_ofPred_eq] at here; omega
  | succ left ih =>
    rw [nextHour, if_pos (by omega)]
    have mine : Finds {t | hour * 60 + minute ≤ t ∧ t < hour * 60 + 60 ∧ onTime cron t}
        ((if hasBit cron.hour hour then nextMinute cron minute else none).map
          (hour * 60 + ·)) := by
      refine (finds_nextMinute cron minute).guard (fun a b less => Nat.add_lt_add_left less _)
        fun t => ?_
      constructor
      · rintro ⟨above, below, hit, time⟩
        have place : t / 60 = hour ∧ t % 60 = t - hour * 60 := by omega
        rw [place.1] at hit
        rw [place.2] at time
        exact ⟨hit, t - hour * 60, ⟨by omega, by omega, time⟩, by dsimp only; omega⟩
      · rintro ⟨hit, n, ⟨above, below, time⟩, rfl⟩
        have place : (hour * 60 + n) / 60 = hour ∧ (hour * 60 + n) % 60 = n := by omega
        exact ⟨Nat.add_le_add_left above _, Nat.add_lt_add_left below _, by rwa [place.1],
          by rwa [place.2]⟩
    refine mine.or (ih (hour + 1) 0 (by decide) (by omega)) (fun a here b later => ?_) fun t => ?_
    · have below := here.2.1
      have above := later.1
      omega
    · simp only [Set.mem_ofPred_eq]
      rw [← and_assoc, ← and_assoc, ← and_assoc, ← or_and_right]
      exact and_congr_left fun _ => by omega

/-- The minutes that the walk goes through. -/
def walked (days : ℕ) (day : ℤ) (time : ℕ) : Set ℤ :=
  {ms | ∃ minute, ms = minute * 60000 ∧ day * 1440 + time ≤ minute ∧ minute < (day + days) * 1440 ∧
    minuteMatches cron minute}

theorem finds_walkDays (days : ℕ) (day : ℤ) {time : ℕ} (inDay : time < 1440) :
    Finds (walked cron days day time) (walkDays cron days day time) := by
  induction days generalizing day time with
  | zero =>
    refine finds_none fun ms ⟨minute, _, above, below, _⟩ => ?_
    simp only [cast_zero, add_zero] at below
    omega
  | succ days ih =>
    have mine : Finds {ms | ∃ minute, ms = minute * 60000 ∧ day * 1440 + time ≤ minute ∧
          minute < (day + 1) * 1440 ∧ minuteMatches cron minute}
        ((if dayMatches cron day then nextTimeOfDay cron time else none).map
          fun found : ℕ => (day * 1440 + found) * 60000) := by
      have found := finds_nextHour cron (time / 60) (time % 60) (mod_lt _ (by decide))
      rw [div_add_mod'] at found
      refine found.guard (fun a b less => by omega) fun ms => ?_
      constructor
      · rintro ⟨minute, rfl, above, below, hit, timely⟩
        have place :
            minute / 1440 = day ∧ (minute % 1440).toNat = (minute - day * 1440).toNat := by
          omega
        rw [place.1] at hit
        rw [place.2] at timely
        exact ⟨hit, _, ⟨by omega, by omega, timely⟩, by dsimp only; omega⟩
      · rintro ⟨hit, t, ⟨above, below, timely⟩, rfl⟩
        have place : (day * 1440 + t) / 1440 = day ∧ ((day * 1440 + t) % 1440).toNat = t := by
          omega
        exact ⟨_, rfl, by omega, by omega, by rwa [place.1], by rwa [place.2]⟩
    refine mine.or (ih (day + 1) (by decide)) ?_ fun ms => ?_
    · rintro _ ⟨_, rfl, _, below, _⟩ _ ⟨_, rfl, above, _⟩
      simp only [cast_zero, add_zero] at above
      omega
    · simp only [walked, Set.mem_ofPred_eq, ← exists_or, ← and_or_left, cast_zero, add_zero,
        cast_succ]
      refine exists_congr fun minute => and_congr_right fun _ => ?_
      rw [← and_assoc, ← and_assoc, ← and_assoc, ← or_and_right]
      exact and_congr_left fun _ => by omega

end Walk

/-! ## The calendar repeats -/

/-- The days look alike to every expression. -/
structure Alike (day other : ℤ) : Prop where
  date : (civilFromDays other).2 = (civilFromDays day).2
  last : daysInMonth (civilFromDays other).1 (civilFromDays other).2.1
    = daysInMonth (civilFromDays day).1 (civilFromDays day).2.1
  weekday : weekdayOf other = weekdayOf day

theorem Alike.dayMatches_eq {day other : ℤ} (alike : Alike day other) (cron : Cron) :
    dayMatches cron other = dayMatches cron day := by
  have last := alike.last
  rw [alike.date] at last
  simp only [dayMatches, alike.date, last, alike.weekday]

theorem daysInMonth_add (year : ℤ) (month : ℕ) (eras : ℤ) :
    daysInMonth (year + eras * 400) month = daysInMonth year month := by
  have divides : ∀ {n k : ℤ}, (n.tmod k = 0 ↔ n % k = 0) := fun {n k} =>
    Int.dvd_iff_tmod_eq_zero.symm.trans Int.dvd_iff_emod_eq_zero
  have four : (year + eras * 400) % 4 = year % 4 := by omega
  have hundred : (year + eras * 400) % 100 = year % 100 := by omega
  have whole : (year + eras * 400) % 400 = year % 400 := by omega
  simp only [daysInMonth, ne_eq, divides, four, hundred, whole]

/-- Another year of the era that begins on the same weekday and is as long, and so is its
February: the one 28 years later or earlier, or, if February is that of a common century
year, the one 6 years later. -/
theorem exists_twin_year {y : ℕ} (inEra : y < 400) :
    ∃ y' < 400, y' ≠ y ∧ yearStart y' % 7 = yearStart y % 7 ∧
      yearStart (y' + 1) - yearStart y' = yearStart (y + 1) - yearStart y ∧
      daysInMonth (y' + 1 : ℕ) 2 = daysInMonth (y + 1 : ℕ) 2 := by
  have near : ∀ y < 400, ∃ shift ∈ [28, 372, 6], (y + shift) % 400 ≠ y ∧
      yearStart ((y + shift) % 400) % 7 = yearStart y % 7 ∧
      yearStart ((y + shift) % 400 + 1) - yearStart ((y + shift) % 400)
        = yearStart (y + 1) - yearStart y ∧
      daysInMonth ((y + shift) % 400 + 1 : ℕ) 2 = daysInMonth (y + 1 : ℕ) 2 := by
    decide +kernel
  obtain ⟨shift, _, twin⟩ := near y inEra
  exact ⟨_, mod_lt _ (by decide), twin⟩

/-- Days of one place in years that begin alike. -/
theorem alike_of_year (era era' : ℤ) {y y' doy : ℕ} (inEra : y < 400) (inEra' : y' < 400)
    (inYear : yearStart y + doy < yearStart (y + 1))
    (inYear' : yearStart y' + doy < yearStart (y' + 1))
    (weekday : yearStart y' % 7 = yearStart y % 7)
    (february : daysInMonth (y' + 1 : ℕ) 2 = daysInMonth (y + 1 : ℕ) 2) :
    Alike (era * 146097 + (yearStart y + doy : ℕ) - 719468)
      (era' * 146097 + (yearStart y' + doy : ℕ) - 719468) := by
  refine ⟨?_, ?_, ?_⟩
  · rw [civilFromDays_eq era inEra inYear, civilFromDays_eq era' inEra' inYear']
  · rw [civilFromDays_eq era inEra inYear, civilFromDays_eq era' inEra' inYear']
    dsimp only
    by_cases winter : monthOf doy = 2
    · simp only [winter, le_refl, if_true]
      have regroup : ∀ (n : ℕ) (e : ℤ), (n : ℤ) + e * 400 + 1 = ((n + 1 : ℕ) : ℤ) + e * 400 := by
        intro n e
        push_cast
        ring
      rw [regroup, regroup, daysInMonth_add, daysInMonth_add, february]
    · -- The other months are as long in every year.
      have fixed : ∀ (year other : ℤ), daysInMonth year (monthOf doy) = daysInMonth other (monthOf
        doy) := by
        intro year other
        have range : 1 ≤ monthOf doy ∧ monthOf doy ≤ 12 := by
          have days : doy < 366 := by
            have length : yearStart (y + 1) ≤ yearStart y + 366 := by
              simp only [yearStart]
              omega
            omega
          unfold monthOf
          split <;> omega
        generalize monthOf doy = month at *
        unfold daysInMonth
        have cases_ : month ∈ [1, 3, 5, 7, 8, 10, 12] ∨ month ∈ [4, 6, 9, 11] := by
          simp only [List.mem_cons, List.not_mem_nil, or_false]
          omega
        rcases cases_ with long | short
        · rw [if_pos long, if_pos long]
        · rw [if_pos short, if_pos short]
      exact fixed _ _
  · simp only [weekdayOf]
    omega

theorem alike_cycle (day : ℤ) (cycles : ℤ) : Alike day (day + cycles * 146097) := by
  obtain ⟨era, y, doy, inEra, inYear, rfl⟩ := exists_parts day
  have moved : era * 146097 + (yearStart y + doy : ℕ) - 719468 + cycles * 146097
      = (era + cycles) * 146097 + (yearStart y + doy : ℕ) - 719468 := by ring
  rw [moved]
  exact alike_of_year era (era + cycles) inEra inEra inYear inYear rfl rfl

/-- **Every day has a twin within the cycle.** -/
theorem exists_twin (day : ℤ) : ∃ other, day < other ∧ other < day + 146097 ∧ Alike day other := by
  obtain ⟨era, y, doy, inEra, inYear, rfl⟩ := exists_parts day
  obtain ⟨y', inEra', differs, weekday, _, february⟩ := exists_twin_year inEra
  have grows : ∀ {a b : ℕ}, a < b → b ≤ 400 → yearStart a < yearStart b := by
    intro a b less _
    simp only [yearStart]
    omega
  have inYear' : yearStart y' + doy < yearStart (y' + 1) := by
    have up := grows (lt_succ_self y') inEra'
    omega
  have whole : yearStart 400 = 146097 := rfl
  rcases Nat.lt_or_gt_of_ne differs with earlier | later
  · have less := grows earlier inEra.le
    have bound := grows (lt_succ_self y) inEra
    have top : yearStart (y + 1) ≤ yearStart 400 := by
      rcases (succ_le_of_lt inEra).eq_or_lt with same | below
      · exact (congrArg yearStart same).le
      · exact (grows below le_rfl).le
    exact ⟨_, by omega, by omega, alike_of_year era (era + 1) inEra inEra' inYear inYear' weekday
      february⟩
  · have less := grows later inEra'.le
    have top := grows inEra' le_rfl
    exact ⟨_, by omega, by omega, alike_of_year era era inEra inEra' inYear inYear' weekday
      february⟩

/-- Whatever matches at all matches within the cycle from a minute on. -/
theorem exists_walked {cron : Cron} {minute : ℤ} (hit : minuteMatches cron minute) (start : ℤ) :
    (walked cron maxLookaheadDays (start / 1440) (start % 1440).toNat).Nonempty := by
  have at_ : ∀ {day : ℤ}, Alike (minute / 1440) day →
      minuteMatches cron (day * 1440 + minute % 1440) := by
    intro day alike
    have place : (day * 1440 + minute % 1440) / 1440 = day ∧
        (day * 1440 + minute % 1440) % 1440 = minute % 1440 := by omega
    rw [minuteMatches, place.1, place.2, alike.dayMatches_eq]
    exact hit
  let cycles := (start / 1440 - minute / 1440 + 146096) / 146097
  let day := minute / 1440 + cycles * 146097
  have alike : Alike (minute / 1440) day := alike_cycle _ cycles
  have first : start / 1440 ≤ day ∧ day < start / 1440 + 146097 := by
    simp only [day, cycles]
    omega
  by_cases same : day = start / 1440
  · -- The twin of the first day comes later in the cycle.
    obtain ⟨other, _, _, twin⟩ := exists_twin day
    have both : Alike (minute / 1440) other :=
      ⟨twin.date.trans alike.date, twin.last.trans alike.last, twin.weekday.trans alike.weekday⟩
    exact ⟨_, _, rfl, by omega, by simp only [maxLookaheadDays]; omega, at_ both⟩
  · exact ⟨_, _, rfl, by omega, by simp only [maxLookaheadDays]; omega, at_ alike⟩

/-- **The next occurrence is the least one after the instant, and there is one whenever the
expression matches at all.** -/
theorem nextAfter_exact (cron : Cron) (afterMs : ℤ) :
    (∀ t, nextAfter cron afterMs = some t ↔
      IsLeast {t | afterMs < t ∧ 60000 ∣ t ∧ cron.matches t = true} t) ∧
    (nextAfter cron afterMs = none ↔ ∀ t, afterMs < t → cron.matches t = false) := by
  let start := afterMs / 60000 + 1
  let window := walked cron maxLookaheadDays (start / 1440) (start % 1440).toNat
  have finds : Finds window (nextAfter cron afterMs) :=
    finds_walkDays cron maxLookaheadDays (start / 1440) (by omega)
  have mem_window : ∀ {t}, t ∈ window ↔ afterMs < t ∧ t < (start / 1440 + 146097) * 1440 * 60000 ∧
      60000 ∣ t ∧ cron.matches t = true := by
    intro t
    constructor
    · rintro ⟨minute, rfl, _, below, hit⟩
      simp only [maxLookaheadDays] at below
      have exact_ : minute * 60000 / 60000 = minute := by omega
      exact ⟨by omega, by omega, ⟨minute, by ring⟩, (matches_iff cron _).mpr (by rwa [exact_])⟩
    · rintro ⟨after, below, ⟨minute, rfl⟩, hit⟩
      have exact_ : 60000 * minute / 60000 = minute := by omega
      rw [matches_iff, exact_] at hit
      exact ⟨minute, by ring, by omega, by simp only [maxLookaheadDays]; omega, hit⟩
  have nonempty : ∀ {t}, cron.matches t = true → window.Nonempty := fun hit =>
    exists_walked ((matches_iff cron _).mp hit) start
  refine ⟨fun t => finds.eq_some_iff.trans ⟨fun least => ?_, fun least => ?_⟩, ⟨fun none_ t _ => ?_,
    fun never => ?_⟩⟩
  · obtain ⟨after, below, divides, hit⟩ := mem_window.mp least.1
    refine ⟨⟨after, divides, hit⟩, fun other ⟨later, divides', hit'⟩ => ?_⟩
    by_cases inside : other < (start / 1440 + 146097) * 1440 * 60000
    · exact least.2 (mem_window.mpr ⟨later, inside, divides', hit'⟩)
    · exact below.le.trans (not_lt.mp inside)
  · obtain ⟨other, mem⟩ := nonempty least.1.2.2
    obtain ⟨after, below, divides, hit⟩ := mem_window.mp mem
    have first := least.2 ⟨after, divides, hit⟩
    refine ⟨mem_window.mpr ⟨least.1.1, first.trans_lt below, least.1.2⟩, fun another here => ?_⟩
    obtain ⟨after', _, divides', hit'⟩ := mem_window.mp here
    exact least.2 ⟨after', divides', hit'⟩
  · refine Bool.eq_false_iff.mpr fun hit => ?_
    obtain ⟨other, mem⟩ := nonempty hit
    rw [finds.of_none none_] at mem
    exact mem
  · cases found : nextAfter cron afterMs with
    | none => rfl
    | some t =>
        obtain ⟨after, _, _, hit⟩ := mem_window.mp (finds.of_some t found).1
        rw [never t after] at hit
        cases hit

end Celld.Schedule
