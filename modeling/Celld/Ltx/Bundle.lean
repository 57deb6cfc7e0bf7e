import Celld.Ltx.Format

/-!
# The bundle envelope

A bundle is the bytes of its entries one after the other, a footer of one row per entry, the
length of the footer, and a magic.  The footer is found from the end of the object, so what the
entries hold cannot be taken for one.

Offsets and lengths are of 64 bits, and the round trip is that of objects one buffer can hold.
-/

namespace Celld.Ltx

open Wire List

structure BundleRow where
  cell : String
  cellEpoch : ℕ
  txid : ℕ
  offset : ℕ
  len : ℕ
  deriving DecidableEq

/-- One captured L0 segment headed for a bundle. -/
structure BundleEntry where
  cell : String
  cellEpoch : UInt64
  txid : UInt64
  bytes : Bytes

namespace Bundle

variable {entries : List BundleEntry}

def magic : Bytes := utf8 "CLB1"

def malformed (what : String) : Error := .other ("bundle: " ++ what)

def splitDataAndFooter (bundle : Bytes) : Except Error (Bytes × Bytes) :=
  if bundle.length < 8 then .error (malformed "shorter than its trailer")
  else
    let (rest, found) := bundle.splitAt (bundle.length - 4)
    if found ≠ magic then .error (malformed "bad magic")
    else
      let (rest, lenBytes) := rest.splitAt (rest.length - 4)
      let len := leValue lenBytes
      if rest.length < len then .error (malformed "footer overruns the object")
      else .ok (rest.splitAt (rest.length - len))

/-- The loop of `encode`: the data and the footer so far. -/
def encodeLoop : List BundleEntry → Bytes → Bytes → Except Error (Bytes × Bytes)
  | [], out, footer => .ok (out, footer)
  | entry :: rest, out, footer =>
      let cell := utf8 entry.cell
      if 2 ^ 16 ≤ cell.length then .error (malformed "cell name too long")
      else
        let values := [entry.cellEpoch.toNat, entry.txid.toNat, out.length, entry.bytes.length]
        encodeLoop rest (out ++ entry.bytes)
          (footer ++ (leBytes 2 cell.length ++ cell ++ values.flatMap (leBytes 8)))

def encode (entries : List BundleEntry) : Except Error Bytes := do
  let (out, footer) ← encodeLoop entries [] []
  if 2 ^ 32 ≤ footer.length then .error (malformed "footer too large")
  else .ok (out ++ footer ++ leBytes 4 footer.length ++ magic)

/-- The loop of `decode_rows`. -/
def readRows (footer : Bytes) : Except Error (List BundleRow) :=
  if footer = [] then .ok []
  else if footer.length < 2 then .error (malformed "truncated row")
  else
    let cellLen := leValue (footer.take 2)
    let rest := footer.drop 2
    if rest.length < cellLen + 32 then .error (malformed "truncated row")
    else
      match ofUtf8 (rest.take cellLen) with
      | none => .error (malformed "cell name not utf-8")
      | some cell =>
          let values := rest.drop cellLen
          let value (i : ℕ) : ℕ := leValue ((values.drop (8 * i)).take 8)
          (readRows (values.drop 32)).map (⟨cell, value 0, value 1, value 2, value 3⟩ :: ·)
termination_by footer.length
decreasing_by
  simp only [length_drop]
  omega

/-- The rows, from a complete bundle object. -/
def decodeRows (bundle : Bytes) : Except Error (List BundleRow) := do
  let (_, footer) ← splitDataAndFooter bundle
  readRows footer

/-- One row's bytes out of a complete bundle object. -/
def slice (bundle : Bytes) (row : BundleRow) : Except Error Bytes := do
  let (data, _) ← splitDataAndFooter bundle
  if 2 ^ 64 ≤ row.offset + row.len then .error (malformed "row overflows")
  else if data.length < row.offset + row.len then
    .error (malformed "row overruns the data section")
  else .ok ((data.drop row.offset).take row.len)

/-! ## What a bundle holds -/

/-- A row as the footer has it. -/
def rowBytes (row : BundleRow) : Bytes :=
  leBytes 2 (utf8 row.cell).length ++ utf8 row.cell ++
    [row.cellEpoch, row.txid, row.offset, row.len].flatMap (leBytes 8)

/-- The rows of entries whose bytes start at `offset`. -/
def rowsFrom (offset : ℕ) : List BundleEntry → List BundleRow
  | [] => []
  | entry :: rest =>
      ⟨entry.cell, entry.cellEpoch.toNat, entry.txid.toNat, offset, entry.bytes.length⟩ ::
        rowsFrom (offset + entry.bytes.length) rest

theorem splitDataAndFooter_append (data : Bytes) {footer : Bytes} (short : footer.length < 2 ^ 32) :
    splitDataAndFooter (data ++ footer ++ leBytes 4 footer.length ++ magic) =
      .ok (data, footer) := by
  have four : magic.length = 4 := by decide +kernel
  have whole : (data ++ footer ++ leBytes 4 footer.length ++ magic).length =
      data.length + footer.length + 8 := by
    simp only [length_append, length_leBytes, four]
  have front : (data ++ footer ++ leBytes 4 footer.length).length =
      data.length + footer.length + 4 := by
    simp only [length_append, length_leBytes]
  have len : leValue (leBytes 4 footer.length) = footer.length := leValue_leBytes short
  rw [splitDataAndFooter, whole, if_neg (by omega)]
  simp only [splitAt_eq]
  rw [drop_left' (by rw [front]; omega), take_left' (by rw [front]; omega), front,
    if_neg (not_not.mpr rfl), drop_left' (by simp), take_left' (by simp), len,
    if_neg (by simp), length_append, take_left' (by simp), drop_left' (by simp)]

/-- **The loop writes the entries' bytes and their rows.** -/
theorem encodeLoop_eq {out footer out' footer' : Bytes}
    (encoded : encodeLoop entries out footer = .ok (out', footer')) :
    out' = out ++ entries.flatMap (·.bytes) ∧
      footer' = footer ++ (rowsFrom out.length entries).flatMap rowBytes ∧
      ∀ entry ∈ entries, (utf8 entry.cell).length < 2 ^ 16 := by
  induction entries generalizing out footer with
  | nil =>
    cases encoded
    simp [rowsFrom]
  | cons entry rest ih =>
    rw [encodeLoop] at encoded
    split_ifs at encoded with long
    obtain ⟨rfl, rfl, names⟩ := ih encoded
    refine ⟨by simp, by simp [rowsFrom, rowBytes], ?_⟩
    exact forall_mem_cons.mpr ⟨not_le.mp long, names⟩

/-- A row that the widths of its fields hold. -/
structure Fits (row : BundleRow) : Prop where
  cell : (utf8 row.cell).length < 256 ^ 2
  cellEpoch : row.cellEpoch < 256 ^ 8
  txid : row.txid < 256 ^ 8
  offset : row.offset < 256 ^ 8
  len : row.len < 256 ^ 8

theorem readRows_append {row : BundleRow} (fits : Fits row) (rest : Bytes) :
    readRows (rowBytes row ++ rest) = (readRows rest).map (row :: ·) := by
  have skip {n v : ℕ} (past : 8 ≤ n) (l : Bytes) : (leBytes 8 v ++ l).drop n = l.drop (n - 8) := by
    rw [drop_append, drop_of_length_le (by simpa using past), length_leBytes,
      nil_append]
  rw [readRows, rowBytes]
  simp only [append_assoc, take_left' (length_leBytes 2 _),
    drop_left' (length_leBytes 2 _), leValue_leBytes fits.cell, take_left, drop_left]
  rw [if_neg (ne_nil_of_length_pos (by simp)), if_neg (by simp; omega),
    if_neg (by simp; omega), ofUtf8_utf8]
  simp [skip, leValue_leBytes fits.cellEpoch, leValue_leBytes fits.txid,
    leValue_leBytes fits.offset,
    leValue_leBytes fits.len]

/-- **The rows of a footer are read back.** -/
theorem readRows_flatMap {rows : List BundleRow} (fits : ∀ row ∈ rows, Fits row) :
    readRows (rows.flatMap rowBytes) = .ok rows := by
  induction rows with
  | nil => simp [readRows]
  | cons row rows ih =>
    rw [flatMap_cons, readRows_append (fits row mem_cons_self),
      ih fun other mem => fits other (mem_cons_of_mem _ mem)]
    rfl

theorem rowsFrom_fits {offset : ℕ} (names : ∀ entry ∈ entries, (utf8 entry.cell).length < 2 ^ 16)
    (room : offset + (entries.flatMap (·.bytes)).length < 2 ^ 64) :
    ∀ row ∈ rowsFrom offset entries, Fits row := by
  induction entries generalizing offset with
  | nil => exact forall_mem_nil _
  | cons entry rest ih =>
    rw [flatMap_cons, length_append] at room
    refine forall_mem_cons.mpr ⟨?_, ?_⟩
    · exact ⟨names entry mem_cons_self, entry.cellEpoch.toNat_lt, entry.txid.toNat_lt,
        by dsimp only; omega, by dsimp only; omega⟩
    · exact ih (fun other mem => names other (mem_cons_of_mem _ mem)) (by omega)

/-- What is read off the rows, whatever their offsets, is read off the entries. -/
theorem map_rowsFrom {α : Type} {f : BundleRow → α} {g : BundleEntry → α}
    (same : ∀ entry offset, f ⟨entry.cell, entry.cellEpoch.toNat, entry.txid.toNat, offset,
      entry.bytes.length⟩ = g entry) (offset : ℕ) (entries : List BundleEntry) :
    (rowsFrom offset entries).map f = entries.map g := by
  induction entries generalizing offset with
  | nil => rfl
  | cons entry rest ih => rw [rowsFrom, map_cons, map_cons, ih, same]

/-- A row's offset is where the rows before it end. -/
theorem offset_rowsFrom {offset i : ℕ} {row : BundleRow}
    (found : (rowsFrom offset entries)[i]? = some row) :
    row.offset = offset + (((rowsFrom offset entries).take i).map (·.len)).sum := by
  induction entries generalizing offset i with
  | nil => cases found
  | cons entry rest ih =>
    cases i with
    | zero =>
      cases found
      rfl
    | succ i =>
      rw [ih found]
      simp [rowsFrom, Nat.add_assoc]

/-- What a reader of a bundle gets: the rows of the entries in their order, the bytes of each entry
for its row, and ranges that follow one another from the start of the data section to its end. -/
structure Carries (bundle : Bytes) (entries : List BundleEntry) (rows : List BundleRow) : Prop where
  decoded : decodeRows bundle = .ok rows
  named : rows.map (fun row => (row.cell, row.cellEpoch, row.txid)) =
    entries.map fun entry => (entry.cell, entry.cellEpoch.toNat, entry.txid.toNat)
  sliced : ∀ (i : ℕ) (row : BundleRow) (entry : BundleEntry), rows[i]? = some row →
    entries[i]? = some entry → slice bundle row = .ok entry.bytes
  starts : ∀ (i : ℕ) (row : BundleRow), rows[i]? = some row →
    row.offset = ((rows.take i).map (·.len)).sum
  tiles : ∃ data footer, splitDataAndFooter bundle = .ok (data, footer) ∧
    (rows.map (·.len)).sum = data.length

theorem encode_eq_ok {bundle : Bytes} (encoded : encode entries = .ok bundle) :
    (∀ entry ∈ entries, (utf8 entry.cell).length < 2 ^ 16) ∧
      splitDataAndFooter bundle =
        .ok (entries.flatMap (·.bytes), (rowsFrom 0 entries).flatMap rowBytes) ∧
      (entries.flatMap (·.bytes)).length ≤ bundle.length := by
  unfold encode at encoded
  cases loop : encodeLoop entries [] [] with
  | error failure => rw [loop] at encoded; cases encoded
  | ok parts =>
    rw [loop] at encoded
    simp only [bind, Except.bind] at encoded
    split_ifs at encoded with long
    cases encoded
    obtain ⟨data, footer, names⟩ := encodeLoop_eq loop
    rw [nil_append] at data footer
    rw [← data, show (rowsFrom 0 entries).flatMap rowBytes = parts.2 from footer.symm]
    refine ⟨names, splitDataAndFooter_append _ (not_le.mp long), ?_⟩
    simp only [append_assoc, length_append]
    omega

/-- **Bundle round trip.**  An object is shorter than `2 ^ 63` bytes, as every buffer is. -/
theorem encode_carries {entries : List BundleEntry} {bundle : Bytes}
    (encoded : encode entries = .ok bundle) (held : bundle.length < 2 ^ 63) :
    ∃ rows, Carries bundle entries rows := by
  obtain ⟨names, parts, room⟩ := encode_eq_ok encoded
  have lens : (rowsFrom 0 entries).map (·.len) = entries.map (·.bytes.length) :=
    map_rowsFrom (fun _ _ => rfl) 0 entries
  have starts : ∀ (i : ℕ) (row : BundleRow), (rowsFrom 0 entries)[i]? = some row →
      row.offset = (((rowsFrom 0 entries).take i).map (·.len)).sum := by
    intro i row found
    rw [offset_rowsFrom found, Nat.zero_add]
  refine ⟨rowsFrom 0 entries, ?_, map_rowsFrom (fun _ _ => rfl) 0 entries, ?_,
    starts, _, _, parts, ?_⟩
  · rw [decodeRows, parts]
    exact readRows_flatMap (rowsFrom_fits names (by omega))
  · intro i row entry found there
    have len : row.len = entry.bytes.length := by
      have same := congrArg (·[i]?) lens
      simpa [found, there] using same
    have offset : row.offset = ((entries.take i).flatMap (·.bytes)).length := by
      rw [starts i row found, map_take, lens, ← map_take, length_flatMap]
    have data : entries.flatMap (·.bytes) = (entries.take i).flatMap (·.bytes) ++
        (entry.bytes ++ (entries.drop (i + 1)).flatMap (·.bytes)) := by
      obtain ⟨within, rfl⟩ := List.getElem?_eq_some_iff.mp there
      rw [← flatMap_cons, ← flatMap_append, ← drop_eq_getElem_cons within,
        take_append_drop]
    have inside : row.offset + row.len ≤ (entries.flatMap (·.bytes)).length := by
      rw [data, offset, len, length_append, length_append]
      omega
    rw [slice, parts]
    simp only [bind, Except.bind]
    rw [if_neg (by omega), if_neg (by omega), offset, len, data, drop_left, take_left]
  · rw [lens, length_flatMap]

/-- The second entry is itself a bundle. -/
def nested : List BundleEntry :=
  [⟨"a", 1, 7, [1, 2, 3]⟩, ⟨"b", 2, 9, leBytes 4 0 ++ magic⟩]

theorem nested_carries : ∃ bundle rows, encode nested = .ok bundle ∧
    Carries bundle nested rows := by
  have encoded : encode nested = .ok ((encode nested).toOption.getD []) := by decide +kernel
  obtain ⟨rows, carries⟩ := encode_carries encoded (by decide +kernel)
  exact ⟨_, rows, encoded, carries⟩

end Bundle

end Celld.Ltx
