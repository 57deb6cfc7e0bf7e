import Celld.Lib.Numerals
import Celld.Schedule.Calendar

/-!
# Keys of alarms

A committed alarm is published as the key `wake/entries/<minute>/<cell>/<id>`
(`crates/logic/wake.rs`); the waker lists the keys in order and reads back the minute, the cell
and the installation.  The readers write down what they have read and compare, so that a key they
accept is the one that would be published (`parseEntryKey_canonical`).  A minute is read
by its columns: it has to be sixteen characters long, and it is up to the end of the year
9999 (`yearEnd`).
-/

namespace Celld.Keys

open List Numerals Schedule
open Option hiding guard

/-! ## Identities -/

structure PublicationId where
  epoch : ℕ
  sequence : ℕ
deriving DecidableEq

namespace PublicationId

def display (id : PublicationId) : List Char :=
  padded 16 16 id.epoch ++ '-' :: padded 16 16 id.sequence

/-- The texts before and after the first occurrence of a character. -/
def splitOnce (c : Char) (s : List Char) : Option (List Char × List Char) :=
  match s.dropWhile (· ≠ c) with
  | [] => none
  | _ :: after => some (s.takeWhile (· ≠ c), after)

def parse (value : List Char) : Option PublicationId := do
  let (epoch, sequence) ← splitOnce '-' value
  guard (epoch.length = 16 ∧ sequence.length = 16)
  let id : PublicationId :=
    ⟨← parseUnsigned 16 (2 ^ 64) epoch, ← parseUnsigned 16 (2 ^ 64) sequence⟩
  guard (0 < id.epoch ∧ id.display = value)
  return id

end PublicationId

/-! ## Minutes -/

/-- A year in four columns, the sign among them. -/
def formatYear (y : ℤ) : List Char :=
  if y < 0 then '-' :: padded 10 3 y.natAbs else padded 10 4 y.toNat

def minuteBucket (dueMs : ℤ) : List Char :=
  let mins := dueMs / 60000
  let (y, mo, d) := civilFromDays (mins / 1440)
  let m := (mins % 1440).toNat
  formatYear y ++ '-' :: padded 10 2 mo ++ '-' :: padded 10 2 d ++
    'T' :: padded 10 2 (m / 60) ++ ':' :: padded 10 2 (m % 60)

/-- The columns of a text. -/
def columns (s : List Char) (first last : ℕ) : List Char := (s.drop first).take (last - first)

def parseMinute (minute : List Char) : Option ℤ := do
  guard (minute.length = 16)
  let y ← parseSigned 10 (2 ^ 63) (columns minute 0 4)
  let mo ← parseUnsigned 10 (2 ^ 32) (columns minute 5 7)
  let d ← parseUnsigned 10 (2 ^ 32) (columns minute 8 10)
  let h ← parseSigned 10 (2 ^ 63) (columns minute 11 13)
  let mi ← parseSigned 10 (2 ^ 63) (columns minute 14 16)
  guard (columns minute 4 5 = ['-'] ∧ columns minute 7 8 = ['-'] ∧ columns minute 10 11 = ['T'] ∧
    columns minute 13 14 = [':'] ∧ (1 ≤ mo ∧ mo ≤ 12) ∧ (1 ≤ d ∧ d ≤ 31) ∧ (0 ≤ h ∧ h < 24) ∧
    (0 ≤ mi ∧ mi < 60))
  let ms := (daysFromCivil y mo d * 1440 + h * 60 + mi) * 60000
  guard (minuteBucket ms = minute)
  return ms

/-! ## Keys -/

def entryPrefix : List Char := "wake/entries/".toList

def entryKey (dueMs : ℤ) (cell : List Char) (id : PublicationId) : List Char :=
  entryPrefix ++ minuteBucket dueMs ++ '/' :: cell ++ '/' :: id.display

structure ListedEntry where
  minuteMs : ℤ
  cell : List Char
  id : PublicationId
deriving DecidableEq

/-- A scope is a path component of letters, digits and five other characters
(`crates/logic/cell.rs`). -/
def validCellScope (scope : List Char) : Bool :=
  !scope.isEmpty && scope.length ≤ 255 && scope ≠ ['.'] && scope ≠ ['.', '.'] &&
    scope.all fun c => c.isAlphanum || c ∈ ['_', '-', '.', ':', '$']

/-- The installation a key names.  A migration seed is older than every real one. -/
def parseIdentity (minute identity : List Char) : Option PublicationId :=
  if identity = "migration".toList ∧ minute = "1970-01-01T00:00".toList then some ⟨0, 0⟩
  else PublicationId.parse identity

def parseEntryKey (key : List Char) : Option ListedEntry := do
  guard (entryPrefix.isPrefixOf key)
  match (key.drop entryPrefix.length).splitOn '/' with
  | [minute, cell, identity] =>
      let id ← parseIdentity minute identity
      guard (validCellScope cell)
      return ⟨← parseMinute minute, cell, id⟩
  | _ => none

/-! ## What is accepted -/

variable {s value key cell : List Char} {id : PublicationId} {dueMs : ℤ} {entry : ListedEntry}

theorem PublicationId.parse_canonical (read : PublicationId.parse value = some id) :
    0 < id.epoch ∧ id.display = value := by
  simp only [PublicationId.parse, bind, bind_eq_some_iff, guard_eq_some'] at read
  obtain ⟨_, _, _, _, epoch, _, _, _, _, checked, same⟩ := read
  cases same
  exact checked

theorem parseMinute_canonical {ms : ℤ} (read : parseMinute s = some ms) : minuteBucket ms = s := by
  simp only [parseMinute, bind, bind_eq_some_iff, guard_eq_some'] at read
  obtain ⟨_, _, _, _, _, _, _, _, _, _, _, _, _, _, _, checked, same⟩ := read
  cases same
  exact checked

theorem parseEntryKey_canonical (read : parseEntryKey key = some entry)
    (installed : entry.id ≠ ⟨0, 0⟩) :
    entryKey entry.minuteMs entry.cell entry.id = key := by
  simp only [parseEntryKey, bind, bind_eq_some_iff, guard_eq_some'] at read
  obtain ⟨_, listed, read⟩ := read
  obtain ⟨rest, rfl⟩ := isPrefixOf_iff_prefix.mp listed
  rw [drop_left] at read
  have joined : ['/'].intercalate (rest.splitOn '/') = rest := intercalate_splitOn '/'
  split at read
  · rename_i split
    simp only [bind_eq_some_iff, guard_eq_some'] at read
    obtain ⟨id, identified, _, _, _, bucket, same⟩ := read
    cases same
    unfold parseIdentity at identified
    split at identified
    · cases identified
      exact absurd rfl installed
    · rw [split] at joined
      rw [← joined, entryKey, parseMinute_canonical bucket,
        (PublicationId.parse_canonical identified).2]
      simp [List.intercalate]
  · cases read

/-! ## Identities -/

theorem splitOnce_append {c : Char} {s t : List Char} (absent : c ∉ s) :
    PublicationId.splitOnce c (s ++ c :: t) = some (s, t) := by
  have other : ∀ d ∈ s, decide (d ≠ c) = true := fun d mem =>
    decide_eq_true fun same => absent (same ▸ mem)
  rw [PublicationId.splitOnce, dropWhile_append_of_pos other, takeWhile_append_of_pos other]
  simp

/-- A number of machine size in sixteen hexadecimal digits. -/
theorem padded_hex {n : ℕ} (fits : n < 2 ^ 64) : (padded 16 16 n).length = 16 ∧
    '-' ∉ padded 16 16 n ∧ '/' ∉ padded 16 16 n ∧
      parseUnsigned 16 (2 ^ 64) (padded 16 16 n) = some n := by
  have length := length_padded (by decide : 1 < 16) (by decide : 0 < 16) fits
  have read := value_padded (by decide : 1 < 16) le_rfl 16 n
  refine ⟨length, notMem_of_value (by decide) read, notMem_of_value (by decide) read,
    parseUnsigned_of_value ?_ read fits⟩
  exact ne_nil_of_length_pos (by omega)

theorem PublicationId.parse_display (pos : 0 < id.epoch) (epoch : id.epoch < 2 ^ 64)
    (sequence : id.sequence < 2 ^ 64) : PublicationId.parse id.display = some id := by
  obtain ⟨epochLength, dash, _, epochRead⟩ := padded_hex epoch
  obtain ⟨sequenceLength, _, _, sequenceRead⟩ := padded_hex sequence
  have split : splitOnce '-' id.display = some (padded 16 16 id.epoch, padded 16 16 id.sequence) :=
    splitOnce_append dash
  simp only [PublicationId.parse, bind, bind_eq_some_iff, guard_eq_some']
  exact ⟨_, split, (), ⟨epochLength, sequenceLength⟩, _, epochRead, _, sequenceRead,
    (), ⟨pos, rfl⟩, rfl⟩

/-! ## Minutes up to the year 9999 -/

/-- The fields of a minute that fit their columns. -/
structure Minute where
  y : ℕ
  mo : ℕ
  d : ℕ
  h : ℕ
  mi : ℕ
  year : y < 10000
  month : 1 ≤ mo ∧ mo ≤ 12
  day : 1 ≤ d ∧ d ≤ 31
  hour : h < 24
  minute : mi < 60

namespace Minute

def text (m : Minute) : List Char :=
  padded 10 4 m.y ++ '-' :: padded 10 2 m.mo ++ '-' :: padded 10 2 m.d ++
    'T' :: padded 10 2 m.h ++ ':' :: padded 10 2 m.mi

def ms (m : Minute) : ℤ := (daysFromCivil m.y m.mo m.d * 1440 + m.h * 60 + m.mi) * 60000

/-- The fields as one number. -/
def rank (m : Minute) : ℕ := (m.y * 10000 + m.mo * 100 + m.d) * 1440 + m.h * 60 + m.mi

theorem length_two {n : ℕ} (fits : n < 100) : (padded 10 2 n).length = 2 :=
  length_padded (by decide) (by decide) fits

theorem length_four {n : ℕ} (fits : n < 10000) : (padded 10 4 n).length = 4 :=
  length_padded (by decide) (by decide) fits

/-- **Texts are ordered as their minutes.** -/
theorem text_lt (a b : Minute) : a.text < b.text ↔ a.rank < b.rank := by
  obtain ⟨_, _, _, _, _, year, _⟩ := a
  obtain ⟨_, _, _, _, _, year', _⟩ := b
  have field : ∀ {m n : ℕ}, m < 100 → n < 100 → (padded 10 2 m < padded 10 2 n ↔ m < n) :=
    fun left right => padded_lt (by decide) (by decide) (by decide) left right
  have same : ∀ {w m n : ℕ}, padded 10 w m = padded 10 w n ↔ m = n :=
    padded_inj (by decide) (by decide)
  simp only [text, rank, append_assoc, cons_append]
  rw [append_lt_append ((length_four year).trans (length_four year').symm), cons_lt_cons_iff,
    append_lt_append ((length_two (by omega)).trans (length_two (by omega)).symm),
    cons_lt_cons_iff,
    append_lt_append ((length_two (by omega)).trans (length_two (by omega)).symm),
    cons_lt_cons_iff,
    append_lt_append ((length_two (by omega)).trans (length_two (by omega)).symm),
    cons_lt_cons_iff, padded_lt (by decide) (by decide) (by decide) year year',
    field (by omega) (by omega), field (by omega) (by omega), field (by omega) (by omega),
    field (by omega) (by omega)]
  simp only [same, lt_irrefl, false_or, true_and]
  omega

theorem parseUnsigned_field {w n bound : ℕ} (fits : n < bound) :
    parseUnsigned 10 bound (padded 10 w n) = some n :=
  parseUnsigned_of_value (padded_ne_nil 10 w n) (value_padded (by decide) (by decide) w n) fits

theorem parseSigned_field {w n bound : ℕ} (fits : n < bound) :
    parseSigned 10 bound (padded 10 w n) = some (n : ℤ) :=
  parseSigned_of_value (padded_ne_nil 10 w n) (value_padded (by decide) (by decide) w n) fits

theorem parseMinute_text (m : Minute) (canonical : minuteBucket m.ms = m.text) :
    parseMinute m.text = some m.ms := by
  obtain ⟨y, mo, d, h, mi, year, month, day, _⟩ := m
  obtain ⟨_, _, _, _, year_⟩ := length_eq_four.mp (length_four year)
  obtain ⟨_, _, month_⟩ := length_eq_two.mp (length_two (by omega : mo < 100))
  obtain ⟨_, _, day_⟩ := length_eq_two.mp (length_two (by omega : d < 100))
  obtain ⟨_, _, hour_⟩ := length_eq_two.mp (length_two (by omega : h < 100))
  obtain ⟨_, _, minute_⟩ := length_eq_two.mp (length_two (by omega : mi < 100))
  simp only [text, year_, month_, day_, hour_, minute_] at canonical ⊢
  simp only [parseMinute, bind, bind_eq_some_iff, guard_eq_some']
  refine ⟨(), rfl, y, ?_, mo, ?_, d, ?_, h, ?_, mi, ?_, (),
    ⟨rfl, rfl, rfl, rfl, month, day, by omega, by omega⟩, (), canonical, rfl⟩
  · exact (congrArg _ year_.symm).trans (parseSigned_field (by omega))
  · exact (congrArg _ month_.symm).trans (parseUnsigned_field (by omega))
  · exact (congrArg _ day_.symm).trans (parseUnsigned_field (by omega))
  · exact (congrArg _ hour_.symm).trans (parseSigned_field (by omega))
  · exact (congrArg _ minute_.symm).trans (parseSigned_field (by omega))

end Minute

/-- The first instant whose year has five digits. -/
def yearEnd : ℤ := 253402300800000

theorem year_lt_iff (dueMs : ℤ) : (civilFromDays (dueMs / 60000 / 1440)).1 < 10000 ↔
    dueMs < yearEnd := by
  have first : stamp 2932897 = 100000101 := by decide +kernel
  have order := stamp_strictMono.lt_iff_lt (a := dueMs / 60000 / 1440) (b := 2932897)
  obtain ⟨_, _⟩ := civilFromDays_ranges (dueMs / 60000 / 1440)
  have days : dueMs / 60000 / 1440 < 2932897 ↔ dueMs < yearEnd := by
    unfold yearEnd
    omega
  rw [← days, ← order, first, stamp]
  omega

theorem exists_minute (nonneg : 0 ≤ dueMs) (early : dueMs < yearEnd) : ∃ m : Minute,
    minuteBucket dueMs = m.text ∧ m.ms = dueMs - dueMs % 60000 ∧
      m.rank = stamp (dueMs / 60000 / 1440) * 1440 + dueMs / 60000 % 1440 := by
  have epoch : stamp 0 = 19700101 := by decide +kernel
  have start := stamp_strictMono.monotone (a := 0) (b := dueMs / 60000 / 1440) (by omega)
  have back := daysFromCivil_civilFromDays (dueMs / 60000 / 1440)
  obtain ⟨month, day⟩ := civilFromDays_ranges (dueMs / 60000 / 1440)
  have year := (year_lt_iff dueMs).mpr early
  rw [epoch] at start
  unfold minuteBucket
  simp only [stamp] at start ⊢
  generalize civilFromDays (dueMs / 60000 / 1440) = date at *
  obtain ⟨y, mo, d⟩ := date
  obtain ⟨k, rfl⟩ := Int.eq_ofNat_of_zero_le (a := y) (by simp only at start month day; omega)
  obtain ⟨m, hm⟩ := Int.eq_ofNat_of_zero_le (a := dueMs / 60000 % 1440) (by omega)
  refine ⟨⟨k, mo, d, m / 60, m % 60, by simpa using year, month, day, by omega, by omega⟩,
    ?_, ?_, ?_⟩
  · simp [Minute.text, formatYear, hm]
  · simp only at back
    simp only [Minute.ms, back]
    omega
  · simp only [Minute.rank]
    push_cast
    omega

/-- **Buckets are listed in the order of their minutes.** -/
theorem minuteBucket_lt {a b : ℤ} (left : 0 ≤ a ∧ a < yearEnd) (right : 0 ≤ b ∧ b < yearEnd) :
    minuteBucket a < minuteBucket b ↔ a / 60000 < b / 60000 := by
  obtain ⟨_, text, _, rank⟩ := exists_minute left.1 left.2
  obtain ⟨_, text', _, rank'⟩ := exists_minute right.1 right.2
  rw [text, text', Minute.text_lt, ← Int.ofNat_lt, rank, rank']
  rcases lt_trichotomy (a / 60000 / 1440) (b / 60000 / 1440) with less | same | more
  · have order := stamp_strictMono less
    omega
  · rw [same]
    omega
  · have order := stamp_strictMono more
    omega

/-! ## Keys -/

theorem slash_notMem_bucket (dueMs : ℤ) : '/' ∉ minuteBucket dueMs := by
  have digits : ∀ w n, '/' ∉ padded 10 w n := fun w n =>
    notMem_of_value (by decide) (value_padded (by decide) (by decide) w n)
  have year : ∀ y, '/' ∉ formatYear y := by
    intro y
    unfold formatYear
    split <;> simp [digits]
  simp [minuteBucket, digits, year]

theorem slash_notMem_scope (scope : validCellScope cell) : '/' ∉ cell := by
  intro mem
  simp only [validCellScope, Bool.and_eq_true, List.all_eq_true] at scope
  exact absurd (scope.2 _ mem) (by decide)

/-- The minute alone decides whether a key is read. -/
theorem parseEntryKey_entryKey (scope : validCellScope cell) (pos : 0 < id.epoch)
    (epoch : id.epoch < 2 ^ 64) (sequence : id.sequence < 2 ^ 64) :
    parseEntryKey (entryKey dueMs cell id)
      = (parseMinute (minuteBucket dueMs)).map (⟨·, cell, id⟩) := by
  obtain ⟨epochLength, _, epochSlash, _⟩ := padded_hex epoch
  obtain ⟨sequenceLength, _, sequenceSlash, _⟩ := padded_hex sequence
  have display : '/' ∉ id.display := by simp [PublicationId.display, epochSlash, sequenceSlash]
  have split : (minuteBucket dueMs ++ '/' :: cell ++ '/' :: id.display).splitOn '/'
      = [minuteBucket dueMs, cell, id.display] := by
    have parts : (['/'].intercalate [minuteBucket dueMs, cell, id.display]).splitOn '/'
        = [minuteBucket dueMs, cell, id.display] :=
      splitOn_intercalate '/'
        (by simp [slash_notMem_bucket, slash_notMem_scope scope, display]) (by simp)
    simpa [List.intercalate] using parts
  have identity : parseIdentity (minuteBucket dueMs) id.display = some id := by
    have long : id.display ≠ "migration".toList := by
      intro same
      have length := congrArg List.length same
      simp [PublicationId.display, epochLength, sequenceLength] at length
    rw [parseIdentity, if_neg fun seed => long seed.1,
      PublicationId.parse_display pos epoch sequence]
  have listed : entryPrefix.isPrefixOf (entryKey dueMs cell id) :=
    isPrefixOf_iff_prefix.mpr (by simp [entryKey])
  have rest : (entryKey dueMs cell id).drop entryPrefix.length
      = minuteBucket dueMs ++ '/' :: cell ++ '/' :: id.display := by
    rw [entryKey, append_assoc, append_assoc, drop_left, ← append_assoc]
  simp only [parseEntryKey, rest, split, identity]
  cases parseMinute (minuteBucket dueMs) <;> simp [guard, listed, scope]

/-- A year of five digits does not fit its columns. -/
theorem early_of_length (length : (minuteBucket dueMs).length = 16) : dueMs < yearEnd := by
  rw [← year_lt_iff]
  simp only [minuteBucket, formatYear] at length
  generalize civilFromDays (dueMs / 60000 / 1440) = date at *
  obtain ⟨y, _⟩ := date
  by_contra late
  simp only at late
  have short := Nat.length_toDigits_le_iff (b := 10) (n := y.toNat) (k := 4) (by decide) (by decide)
  simp only [if_neg (show ¬ y < 0 by omega), padded, List.leftpad, length_append,
    length_cons, length_replicate] at length
  omega

/-- **A key leads back to its alarm exactly if the year has four digits.** -/
theorem entryKey_roundTrip (nonneg : 0 ≤ dueMs) (scope : validCellScope cell) (pos : 0 < id.epoch)
    (epoch : id.epoch < 2 ^ 64) (sequence : id.sequence < 2 ^ 64) :
    parseEntryKey (entryKey dueMs cell id) = some ⟨dueMs - dueMs % 60000, cell, id⟩ ↔
      dueMs < yearEnd := by
  rw [parseEntryKey_entryKey scope pos epoch sequence]
  refine ⟨fun read => ?_, fun early => ?_⟩
  · obtain ⟨ms, parsed, _⟩ := map_eq_some_iff.mp read
    simp only [parseMinute, bind, bind_eq_some_iff, guard_eq_some'] at parsed
    obtain ⟨_, length, _⟩ := parsed
    exact early_of_length length
  · obtain ⟨m, text, ms, _⟩ := exists_minute nonneg early
    have canonical : minuteBucket m.ms = m.text := by
      rw [← text, minuteBucket, minuteBucket, ms,
        show (dueMs - dueMs % 60000) / 60000 = dueMs / 60000 by omega]
    rw [text, m.parseMinute_text canonical, ms]
    rfl

/-- **Keys of alarms are read back, in order, and have one spelling.**  The first holds up to
the end of the year 9999 and no longer, and the second is stated that far. -/
theorem entryKeys_iff (dueMs other : ℤ) (cell key : List Char) (id : PublicationId)
    (entry : ListedEntry) :
    (0 ≤ dueMs → validCellScope cell → 0 < id.epoch → id.epoch < 2 ^ 64 → id.sequence < 2 ^ 64 →
      (parseEntryKey (entryKey dueMs cell id) = some ⟨dueMs - dueMs % 60000, cell, id⟩ ↔
        dueMs < yearEnd)) ∧
    (0 ≤ dueMs ∧ dueMs < yearEnd → 0 ≤ other ∧ other < yearEnd →
      (minuteBucket dueMs < minuteBucket other ↔ dueMs / 60000 < other / 60000)) ∧
    (parseEntryKey key = some entry → entry.id ≠ ⟨0, 0⟩ →
      entryKey entry.minuteMs entry.cell entry.id = key) :=
  ⟨fun nonneg scope pos epoch sequence => entryKey_roundTrip nonneg scope pos epoch sequence,
    minuteBucket_lt, parseEntryKey_canonical⟩

/-- The alarm of a cell at 2026-09-04T12:00:01. -/
theorem entryKeys_noon : validCellScope ['c'] ∧
    parseEntryKey (entryKey 1788523201000 ['c'] ⟨1, 7⟩) = some ⟨1788523200000, ['c'], ⟨1, 7⟩⟩ ∧
      minuteBucket 1788523201000 < minuteBucket 1788523260000 :=
  ⟨by decide +kernel,
    ((entryKeys_iff 1788523201000 0 ['c'] [] ⟨1, 7⟩ ⟨0, [], ⟨0, 0⟩⟩).1 (by decide)
      (by decide +kernel)
      (by decide) (by decide) (by decide)).mpr (by decide),
    ((entryKeys_iff 1788523201000 1788523260000 [] [] ⟨0, 0⟩ ⟨0, [], ⟨0, 0⟩⟩).2.1 (by decide)
      (by decide)).mpr (by decide)⟩

/-- The first alarm of the year 10000 is published and never read, and its bucket is listed
before those of the year 9999. -/
theorem year_10000_lost : parseEntryKey (entryKey 253402300800000 ['c'] ⟨1, 7⟩) = none ∧
    minuteBucket 253402300800000 < minuteBucket 253402300740000 := by
  decide +kernel

end Celld.Keys
