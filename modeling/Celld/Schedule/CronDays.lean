import Celld.Schedule.Calendar

/-!
# The days of a cron expression

Which days an expression names (`crates/logic/cron.rs`).  Bit sets are natural numbers,
and a weekday is a number from 0 on, Sunday first.

The `W` forms name the weekday closest to a day of the month.  `<d>W` and `L-<n>W` do so with
one condition for each way to move, and the conditions do not ask whether the day they move
from is in the month, or whether it can be moved the other way.  `weekdayForm_iff` says in
which months that shows.
-/

namespace Celld.Schedule

/-- The day-of-month field. -/
inductive DayOfMonth where
  | all
  | days (bits : ℕ)
  | last
  | lastOffset (offset : ℕ)
  | lastWeekday
  /-- The weekday closest to some days before the last one. -/
  | lastOffsetWeekday (offset : ℕ)
  /-- The weekday closest to a day, inside the same month. -/
  | closestWeekday (target : ℕ)
  deriving DecidableEq

/-- The day-of-week field. -/
inductive DayOfWeek where
  | all
  | days (bits : ℕ)
  | last (wanted : ℕ)
  | nth (wanted nth : ℕ)
  deriving DecidableEq

structure Cron where
  minute : ℕ
  hour : ℕ
  month : ℕ
  dayOfMonth : DayOfMonth
  dayOfWeek : DayOfWeek
  deriving DecidableEq

def hasBit (bits k : ℕ) : Bool := bits &&& 1 <<< k ≠ 0

def daysInMonth (year : ℤ) (month : ℕ) : ℕ :=
  if month ∈ [1, 3, 5, 7, 8, 10, 12] then 31
  else if month ∈ [4, 6, 9, 11] then 30
  else if year.tmod 4 = 0 ∧ (year.tmod 100 ≠ 0 ∨ year.tmod 400 = 0) then 29
  else 28

def isWeekend (dayOfWeek : ℕ) : Bool := dayOfWeek = 0 ∨ dayOfWeek = 6

def dayOfMonthMatches (field : DayOfMonth) (day weekday last : ℕ) : Bool :=
  match field with
  | .all => true
  | .days bits => hasBit bits day
  | .last => day = last
  | .lastOffset offset => day + offset = last
  | .lastWeekday => (!isWeekend weekday && day = last) || (weekday = 5 && last - day < 3)
  | .lastOffsetWeekday offset =>
      let target := day + offset
      (!isWeekend weekday && target = last) ||
        (weekday = 1 && target > last && target - last < 3) ||
        (weekday = 5 && target + 1 = last)
  | .closestWeekday target =>
      (!isWeekend weekday && day = target) ||
        (weekday = 1 && day > 1 && day - 1 = target) ||
        -- The first is a Saturday.
        (weekday = 1 && day = 3 && target = 1) ||
        (weekday = 5 && day + 1 = target) ||
        -- The last day is a Sunday.
        (weekday = 5 && day + 2 = target && target = last)

def dayOfWeekMatches (field : DayOfWeek) (day weekday last : ℕ) : Bool :=
  match field with
  | .all => true
  | .days bits => hasBit bits weekday
  | .last wanted => weekday = wanted && day + 7 > last
  | .nth wanted nth => weekday = wanted && (day - 1) / 7 + 1 = nth

/-- 1970-01-01 was a Thursday. -/
def weekdayOf (day : ℤ) : ℕ := ((day + 4) % 7).toNat

/-- With both day fields restricted a day matches when either does. -/
def dayMatches (cron : Cron) (day : ℤ) : Bool :=
  let (year, month, dayOfMonth) := civilFromDays day
  if !hasBit cron.month month then false
  else
    let last := daysInMonth year month
    let byDom := dayOfMonthMatches cron.dayOfMonth dayOfMonth (weekdayOf day) last
    let byDow := dayOfWeekMatches cron.dayOfWeek dayOfMonth (weekdayOf day) last
    match decide (cron.dayOfMonth = .all), decide (cron.dayOfWeek = .all) with
    | true, true => true
    | false, true => byDom
    | true, false => byDow
    | false, false => byDom || byDow

/-! ## The closest weekday -/

/-- A month: its last day, and the weekday of its first. -/
structure Month where
  last : ℕ
  first : ℕ
  long : 28 ≤ last

namespace Month

/-- The month that begins on a day of the calendar. -/
def startingAt (start : ℤ) : Month where
  last := daysInMonth (civilFromDays start).1 (civilFromDays start).2.1
  first := weekdayOf start
  long := by
    unfold daysInMonth
    split
    · decide
    split
    · decide
    split <;> decide

variable (m : Month)

def weekday (day : ℕ) : ℕ := (m.first + day - 1) % 7

def Has (day : ℤ) : Prop := 1 ≤ day ∧ day ≤ m.last

def Weekday (day : ℕ) : Prop := m.Has day ∧ 1 ≤ m.weekday day ∧ m.weekday day ≤ 5

/-- The field names the weekday closest to a day, if the month has that day. -/
structure Names (field : DayOfMonth) (nominal : ℤ) : Prop where
  one : m.Has nominal → ∃ day, m.Weekday day ∧
    (∀ other : ℕ, m.Has other →
      (dayOfMonthMatches field other (m.weekday other) m.last = true ↔ other = day)) ∧
    ∀ other : ℕ, m.Weekday other → (day - nominal).natAbs ≤ (other - nominal).natAbs
  none : ¬ m.Has nominal → ∀ day : ℕ, m.Has day →
    dayOfMonthMatches field day (m.weekday day) m.last = false

/-- Where a `W` form names a day that it should not name. -/
def Slips : DayOfMonth → Prop
  -- The day is the first of the next month, a Saturday.
  | .closestWeekday target => target = m.last + 1 ∧ m.weekday m.last = 5
  -- The day is a Saturday that can be moved either way, or it is in the month before.
  | .lastOffsetWeekday offset =>
      (2 ≤ offset ∧ offset + 2 ≤ m.last ∧ m.weekday (m.last - offset) = 6) ∨
      (offset = m.last ∧ (m.weekday 1 = 1 ∨ m.weekday 2 = 1)) ∨
      (offset = m.last + 1 ∧ m.weekday 1 = 1)
  | _ => False

/-- The weekday closest to a day of the month. -/
def closest (day : ℕ) : ℕ :=
  if m.weekday day = 6 then if day = 1 then 3 else day - 1
  else if m.weekday day = 0 then if day = m.last then day - 2 else day + 1
  else day

variable {m}

variable (m) in
theorem closest_cases (day : ℕ) :
    m.weekday day = 6 ∧ (day = 1 ∧ m.closest day = 3 ∨ day ≠ 1 ∧ m.closest day = day - 1) ∨
    m.weekday day = 0 ∧ (day = m.last ∧ m.closest day = day - 2 ∨
      day ≠ m.last ∧ m.closest day = day + 1) ∨
    m.weekday day ≠ 6 ∧ m.weekday day ≠ 0 ∧ m.closest day = day := by
  unfold closest
  split
  · split <;> simp_all
  · split
    · split <;> simp_all
    · simp_all

theorem closest_weekday {day : ℕ} (has : m.Has day) : m.Weekday (m.closest day) ∧
    ∀ other : ℕ, m.Weekday other →
      ((m.closest day : ℤ) - day).natAbs ≤ ((other : ℤ) - day).natAbs := by
  have long := m.long
  have named := m.closest_cases day
  simp only [Weekday, Has, weekday] at has named ⊢
  exact ⟨by omega, fun other at_ => by omega⟩

/-- A form names the closest weekday if its conditions say so. -/
theorem names_of_closest {field : DayOfMonth} {day : ℕ} (has : m.Has day)
    (named : ∀ other : ℕ, m.Has other →
      (dayOfMonthMatches field other (m.weekday other) m.last = true ↔ other = m.closest day)) :
    m.Names field day :=
  ⟨fun _ => ⟨m.closest day, (closest_weekday has).1, named, (closest_weekday has).2⟩,
    fun outside => absurd has outside⟩

theorem lastWeekday_names : m.Names .lastWeekday m.last := by
  have long := m.long
  refine names_of_closest ⟨by omega, le_rfl⟩ fun other has => ?_
  have named := m.closest_cases m.last
  simp only [dayOfMonthMatches, isWeekend, Bool.or_eq_true, Bool.and_eq_true, Bool.not_eq_true',
    decide_eq_true_eq, decide_eq_false_iff_not]
  simp only [Has, weekday] at has named ⊢
  omega

theorem closestWeekday_names_iff (target : ℕ) :
    m.Names (.closestWeekday target) target ↔ ¬ m.Slips (.closestWeekday target) := by
  have long := m.long
  constructor
  · rintro names ⟨rfl, friday⟩
    have quiet := names.none (by simp only [Has]; omega) m.last ⟨by omega, le_rfl⟩
    simp [dayOfMonthMatches, friday] at quiet
  · intro fine
    by_cases has : m.Has target
    · refine names_of_closest has fun other inside => ?_
      have named := m.closest_cases target
      simp only [dayOfMonthMatches, isWeekend, Bool.or_eq_true, Bool.and_eq_true, Bool.not_eq_true',
        decide_eq_true_eq, decide_eq_false_iff_not]
      simp only [Has, weekday] at has inside named ⊢
      constructor
      · rintro ((((moved | moved) | moved) | moved) | moved) <;> omega
      · rintro rfl
        rcases named with ⟨_, ⟨one, eq⟩ | ⟨_, eq⟩⟩ | ⟨_, ⟨end_, eq⟩ | ⟨_, eq⟩⟩ | ⟨_, _, eq⟩
        · subst one
          exact .inl (.inl (.inr ⟨⟨by omega, eq⟩, rfl⟩))
        · exact .inl (.inr ⟨by omega, by omega⟩)
        · exact .inr ⟨⟨by omega, by omega⟩, end_⟩
        · exact .inl (.inl (.inl (.inr ⟨⟨by omega, by omega⟩, by omega⟩)))
        · exact .inl (.inl (.inl (.inl ⟨by omega, eq⟩)))
    · refine ⟨fun inside => absurd inside has, fun _ day inside => ?_⟩
      simp only [dayOfMonthMatches, isWeekend, Bool.or_eq_false_iff, Bool.and_eq_false_iff,
        Bool.not_eq_false', decide_eq_true_eq, decide_eq_false_iff_not]
      simp only [Slips, Has, weekday] at fine has inside ⊢
      have edge : target = m.last + 1 → day + 1 = target → day = m.last := by omega
      omega

theorem lastOffsetWeekday_names_iff {offset : ℕ} (some_ : 1 ≤ offset) :
    m.Names (.lastOffsetWeekday offset) (m.last - offset) ↔
      ¬ m.Slips (.lastOffsetWeekday offset) := by
  have long := m.long
  have quiet : ∀ {day : ℕ},
    dayOfMonthMatches (.lastOffsetWeekday offset) day (m.weekday day) m.last = true ↔
      ¬ (m.weekday day = 0 ∨ m.weekday day = 6) ∧ day + offset = m.last ∨
      m.weekday day = 1 ∧ m.last < day + offset ∧ day + offset - m.last < 3 ∨
      m.weekday day = 5 ∧ day + offset + 1 = m.last := by
    intro day
    simp [dayOfMonthMatches, isWeekend]
    tauto
  constructor
  · rintro names (⟨two, inside, saturday⟩ | ⟨rfl, monday⟩ | ⟨rfl, monday⟩)
    · have has : m.Has (m.last - offset) := by simp only [Has]; omega
      obtain ⟨day, _, only, _⟩ := names.one has
      have friday := (only (m.last - offset - 1) (by simp only [Has]; omega)).mp
        (quiet.mpr (by simp only [weekday] at saturday ⊢; omega))
      have monday := (only (m.last - offset + 2) (by simp only [Has]; omega)).mp
        (quiet.mpr (by simp only [weekday] at saturday ⊢; omega))
      omega
    · have none_ := names.none (by simp only [Has]; omega)
      rcases monday with one | two
      · have absent := none_ 1 (by simp only [Has]; omega)
        rw [quiet.mpr (by omega)] at absent
        cases absent
      · have absent := none_ 2 (by simp only [Has]; omega)
        rw [quiet.mpr (by omega)] at absent
        cases absent
    · have absent := names.none (by simp only [Has]; omega) 1 (by simp only [Has]; omega)
      rw [quiet.mpr (by omega)] at absent
      cases absent
  · intro fine
    by_cases inside : offset < m.last
    · have cast_ : (m.last : ℤ) - offset = ((m.last - offset : ℕ) : ℤ) := by omega
      rw [cast_]
      refine names_of_closest (by simp only [Has]; omega) fun other has => quiet.trans ?_
      have named := m.closest_cases (m.last - offset)
      simp only [Slips, Has, weekday] at fine has named ⊢
      constructor
      · rintro (moved | moved | moved) <;> omega
      · rintro rfl
        rcases named with ⟨_, ⟨_, eq⟩ | ⟨_, eq⟩⟩ | ⟨_, ⟨_, eq⟩ | ⟨_, eq⟩⟩ | ⟨_, _, eq⟩
        · exact .inr (.inl ⟨by omega, by omega, by omega⟩)
        · exact .inr (.inr ⟨by omega, by omega⟩)
        · omega
        · exact .inr (.inl ⟨by omega, by omega, by omega⟩)
        · exact .inl ⟨by omega, by omega⟩
    · refine ⟨fun has => absurd has (by simp only [Has]; omega), fun _ day has => ?_⟩
      refine Bool.eq_false_iff.mpr fun matches_ => fine ?_
      have cases_ := quiet.mp matches_
      simp only [Slips, Has, weekday] at has cases_ ⊢
      have near : day = 1 ∨ day = 2 := by omega
      rcases near with rfl | rfl <;> omega

end Month

/-- **The `W` forms name the closest weekday, and one only, except where they slip.**  The
parser takes the offsets 1 to 30. -/
theorem weekdayForm_iff (start : ℤ) :
    (∀ day : ℕ, 1 ≤ day → (Month.startingAt start).weekday day = weekdayOf (start + day - 1)) ∧
    (Month.startingAt start).Names .lastWeekday (Month.startingAt start).last ∧
    (∀ target, (Month.startingAt start).Names (.closestWeekday target) target ↔
      ¬ (Month.startingAt start).Slips (.closestWeekday target)) ∧
    ∀ offset, 1 ≤ offset →
      ((Month.startingAt start).Names (.lastOffsetWeekday offset)
          ((Month.startingAt start).last - offset) ↔
        ¬ (Month.startingAt start).Slips (.lastOffsetWeekday offset)) := by
  refine ⟨fun day some_ => ?_, Month.lastWeekday_names, Month.closestWeekday_names_iff,
    fun _ => Month.lastOffsetWeekday_names_iff⟩
  simp only [Month.startingAt, Month.weekday, weekdayOf]
  omega

/-- `L-4W` in August 2026: Thursday the 27th. -/
theorem weekdayForm_august :
    (Month.startingAt 20666).Names (.lastOffsetWeekday 4)
      ((Month.startingAt 20666).last - (4 : ℕ)) :=
  ((weekdayForm_iff 20666).2.2.2 4 (by decide)).mpr (by unfold Month.Slips; decide +kernel)

/-- `L-2W` names Friday the 28th and Monday the 31st in August 2026, for Saturday the 29th;
and `31W` names Friday the 30th in April 2027. -/
theorem weekdayForms_slip :
    (civilFromDays 20693 = (2026, 8, 28) ∧ civilFromDays 20696 = (2026, 8, 31) ∧
      dayMatches ⟨1, 1, 2 ^ 13 - 2, .lastOffsetWeekday 2, .all⟩ 20693 = true ∧
      dayMatches ⟨1, 1, 2 ^ 13 - 2, .lastOffsetWeekday 2, .all⟩ 20696 = true) ∧
    civilFromDays 20938 = (2027, 4, 30) ∧ daysInMonth 2027 4 = 30 ∧
      dayMatches ⟨1, 1, 2 ^ 13 - 2, .closestWeekday 31, .all⟩ 20938 = true := by
  decide +kernel

end Celld.Schedule
