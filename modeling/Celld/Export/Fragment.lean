import Celld.Export.Record

/-!
# Fragments

A `rows` or `snapshot` record whose encoding is too large is cut by rows into fragments `i` of
`k`; a row that does not fit alone turns the record into a `bulk` marker for its table.  The
reassembler holds fragments until their record is complete.

How long an encoding is, is a parameter (`Sizes`): the lengths decide where a record is cut, and
nothing here depends on where that is.
-/

namespace Celld.Export

open List

/-- The lengths of JSON encodings. -/
structure Sizes (V : Type) where
  record : Record V → ℕ
  row : RowChange V → ℕ

/-- The result of `split`. -/
inductive Split (V : Type) where
  | fragments (pieces : List (Record V))
  | bulk (record : Record V)

section

variable {V : Type}

/-- The loop of `pieces`: fill chunks of at most `maxBytes`, `base` bytes of which are spent on
the record without rows.  `none` if a row does not fit alone. -/
def chunkRows (sizes : Sizes V) (base maxBytes : ℕ) :
    List (RowChange V) → List (RowChange V) → ℕ → Option (List (List (RowChange V)))
  | [], current, _ => some (if current.isEmpty then [] else [current])
  | row :: rest, current, size =>
      let add := sizes.row row + if current.isEmpty then 0 else 1
      if maxBytes < base + sizes.row row then none
      else if maxBytes < size + add then
        (chunkRows sizes base maxBytes rest [row] (base + sizes.row row)).map (current :: ·)
      else chunkRows sizes base maxBytes rest (current ++ [row]) (size + add)

/-- Fragment `i` of `k` of a record, with its rows. -/
def Record.fragment (r : Record V) (i k : ℕ) (rows : List (RowChange V)) : Record V :=
  { r.piece i k with body := r.body.withRows rows }

/-- The rows a record or fragment carries. -/
def Record.rows (r : Record V) : List (RowChange V) := (r.body.tableRows.map (·.rows)).getD []

/-- Split a record so that every piece encodes to at most `maxBytes`. -/
def split (sizes : Sizes V) (maxBytes : ℕ) (record : Record V) : Split V :=
  let record := record.piece 1 1
  match record.body.tableRows with
  | none => .fragments [record]
  | some data =>
      if data.rows.isEmpty || sizes.record record ≤ maxBytes then .fragments [record]
      else
        let empty : Record V := { record with body := record.body.withRows [] }
        let base := sizes.record (empty.piece (2 ^ 32 - 1) (2 ^ 32 - 1))
        match chunkRows sizes base maxBytes data.rows [] base with
        | none => .bulk { record with body := .bulk [data.tableGen] }
        | some chunks =>
            .fragments (chunks.mapIdx fun i rows => empty.fragment (i + 1) chunks.length rows)

/-- What goes on the wire for a record. -/
def Split.wire : Split V → List (Record V)
  | .fragments pieces => pieces
  | .bulk record => [record]

/-! ## Reassembly -/

/-- Why a fragment was refused. -/
inductive ReassembleError where
  | outOfRange (fragment fragments : ℕ)
  | inconsistent
  | notSplittable
  deriving DecidableEq

/-- The fragments of incomplete records; a record that has none has an empty entry. -/
structure Reassembler (V : Type) where
  parts : RecordKey → BTreeMap ℕ (Record V) := fun _ => ∅

/-- Everything but the fragment index and the rows. -/
def Record.header (r : Record V) : Record V :=
  { r.piece 0 r.envelope.fragments with body := r.body.withRows [] }

/-- The record of all its fragments, in their order. -/
def assemble : List (Record V) → Option (Record V)
  | [] => none
  | first :: rest =>
      some { first.piece 1 1 with
        body := first.body.withRows (first.rows ++ rest.flatMap Record.rows) }

/-- Offer one fragment.  The answer is the whole record when this completes it. -/
def Reassembler.push [DecidableEq V] (s : Reassembler V) (fragment : Record V) :
    Except ReassembleError (Option (Record V)) × Reassembler V :=
  let i := fragment.envelope.fragment
  let k := fragment.envelope.fragments
  if k = 0 || i = 0 || k < i then (.error (.outOfRange i k), s)
  else if k = 1 then (.ok (some fragment), s)
  else if fragment.body.tableRows.isNone then (.error .notSplittable, s)
  else
    let key := RecordKey.of fragment
    let parts := s.parts key
    if (parts.toList.head?).any fun sibling => sibling.2.header ≠ fragment.header then
      (.error .inconsistent, s)
    else
      let parts := parts.insertIfNew i fragment
      if parts.size ≠ k then (.ok none, { s with parts := Function.update s.parts key parts })
      else
        (.ok (assemble (parts.toList.map (·.2))),
          { s with parts := Function.update s.parts key ∅ })

/-! ## What the pieces of a record are -/

theorem Body.withRows_withRows (body : Body V) (rows rows' : List (RowChange V)) :
    (body.withRows rows).withRows rows' = body.withRows rows' := by
  cases body <;> rfl

theorem Record.withRows_rows (r : Record V) : r.body.withRows r.rows = r.body := by
  rcases r with ⟨_, body⟩
  cases body <;> rfl

theorem Record.rows_fragment {r : Record V} (table : r.body.tableRows.isSome) (i k : ℕ)
    (rows : List (RowChange V)) : (r.fragment i k rows).rows = rows := by
  rcases r with ⟨_, body⟩
  cases body <;> first | rfl | cases table

theorem RecordKey.of_fragment (r : Record V) (i k : ℕ) (rows : List (RowChange V)) :
    RecordKey.of (r.fragment i k rows) = RecordKey.of r := by
  rcases r with ⟨_, body⟩
  cases body <;> rfl

theorem chunkRows_flatten {sizes : Sizes V} {base maxBytes : ℕ} {rest current : List (RowChange V)}
    {size : ℕ} {chunks : List (List (RowChange V))}
    (cut : chunkRows sizes base maxBytes rest current size = some chunks) :
    chunks.flatten = current ++ rest := by
  induction rest generalizing current size chunks with
  | nil =>
    simp only [chunkRows, Option.some.injEq] at cut
    subst cut
    cases current <;> simp
  | cons row rest ih =>
    simp only [chunkRows] at cut
    generalize sizes.row row + (if current.isEmpty = true then 0 else 1) = add at cut
    split_ifs at cut with tooLarge full
    · -- The chunk is full: the row starts the next one.
      obtain ⟨_, cutTail, rfl⟩ := Option.map_eq_some_iff.mp cut
      rw [flatten_cons, ih cutTail, singleton_append]
    · rw [ih cut, append_assoc, singleton_append]

/-- The record a consumer holds once it has every piece. -/
def whole (sizes : Sizes V) (maxBytes : ℕ) (record : Record V) : Record V :=
  match split sizes maxBytes record with
  | .fragments _ => record.piece 1 1
  | .bulk marker => marker

/-- `pieces` are the fragments of `w`, numbered in order. -/
structure Pieces (w : Record V) (pieces : List (Record V)) : Prop where
  single : w = w.piece 1 1
  nonempty : pieces ≠ []
  numbered : ∀ i, (h : i < pieces.length) →
    pieces[i] = w.fragment (i + 1) pieces.length pieces[i].rows
  rows : pieces.flatMap Record.rows = w.rows
  splittable : 1 < pieces.length → w.body.tableRows.isSome

theorem Pieces.unsplit {w : Record V} (single : w = w.piece 1 1) : Pieces w [w] where
  single := single
  nonempty := cons_ne_nil _ _
  numbered := by
    intro i h
    obtain rfl : i = 0 := by simpa using h
    simp only [getElem_cons_zero, length_singleton, Record.fragment, Record.withRows_rows]
    exact single
  rows := by simp
  splittable := by simp

theorem Pieces.numberedChunks {r : Record V} {chunks : List (List (RowChange V))}
    (table : r.body.tableRows.isSome) (some_chunk : chunks ≠ []) (rows : chunks.flatten = r.rows) :
    Pieces (r.piece 1 1) (chunks.mapIdx fun i rows => r.fragment (i + 1) chunks.length rows) where
  single := rfl
  nonempty := by simpa using some_chunk
  numbered := by
    intro i _
    simp only [getElem_mapIdx, length_mapIdx, Record.rows_fragment table]
    rfl
  rows := by
    have parts : (chunks.mapIdx fun i rows => r.fragment (i + 1) chunks.length rows).map
        Record.rows = chunks := by
      refine ext_getElem (by simp) fun i _ _ => ?_
      simp only [getElem_map, getElem_mapIdx, Record.rows_fragment table]
    rw [flatMap_def, parts, rows]
    rfl
  splittable := fun _ => table

/-- What `split` puts on the wire are the pieces of the whole record. -/
theorem wire_pieces (sizes : Sizes V) (maxBytes : ℕ) (record : Record V) :
    Pieces (whole sizes maxBytes record) (split sizes maxBytes record).wire := by
  rw [whole]
  cases table : record.body.tableRows with
  | none =>
    have uncut : split sizes maxBytes record = .fragments [record.piece 1 1] := by
      simp [split, Record.piece, table]
    rw [uncut]
    exact Pieces.unsplit rfl
  | some data =>
    by_cases fits : (data.rows.isEmpty || sizes.record (record.piece 1 1) ≤ maxBytes) = true
    · have uncut : split sizes maxBytes record = .fragments [record.piece 1 1] := by
        simp only [split, show (record.piece 1 1).body = record.body from rfl, table, fits, if_true]
      rw [uncut]
      exact Pieces.unsplit rfl
    · simp only [split, show (record.piece 1 1).body = record.body from rfl, table, fits,
        Bool.false_eq_true, if_false]
      cases cut : chunkRows sizes _ maxBytes data.rows [] _ with
      | none => exact Pieces.unsplit rfl
      | some chunks =>
        have flat : chunks.flatten = record.rows := by
          rw [chunkRows_flatten cut, nil_append, Record.rows, table]
          rfl
        have some_chunk : chunks ≠ [] := by
          rintro rfl
          rw [Record.rows, table] at flat
          simp_all
        have named : (fun i rows => Record.fragment
              { record.piece 1 1 with body := record.body.withRows [] } (i + 1)
              chunks.length rows) =
            fun i rows => record.fragment (i + 1) chunks.length rows := by
          funext i rows
          simp [Record.fragment, Record.piece, Body.withRows_withRows]
        have pieces := Pieces.numberedChunks (by rw [table]; rfl) some_chunk flat
        rw [← named] at pieces
        exact pieces

namespace Pieces

variable {w f g : Record V} {pieces : List (Record V)}

/-- A piece is a fragment with its number in range. -/
theorem mem (h : Pieces w pieces) (memF : f ∈ pieces) : ∃ i < pieces.length,
    f.envelope.fragment = i + 1 ∧ f = w.fragment (i + 1) pieces.length f.rows := by
  obtain ⟨i, lt, rfl⟩ := getElem_of_mem memF
  exact ⟨i, lt, by rw [h.numbered i lt]; rfl, h.numbered i lt⟩

theorem key (h : Pieces w pieces) (memF : f ∈ pieces) : RecordKey.of f = RecordKey.of w := by
  obtain ⟨_, -, -, eq⟩ := h.mem memF
  rw [eq, RecordKey.of_fragment]

theorem fragments (h : Pieces w pieces) (memF : f ∈ pieces) :
    f.envelope.fragments = pieces.length := by
  obtain ⟨_, -, -, eq⟩ := h.mem memF
  rw [eq]
  rfl

theorem sorted (h : Pieces w pieces) :
    pieces.Pairwise fun f g => f.envelope.fragment < g.envelope.fragment := by
  refine pairwise_iff_getElem.mpr fun i j hi hj lt => ?_
  rw [h.numbered i hi, h.numbered j hj]
  exact Nat.succ_lt_succ lt

/-- The dedup key tells the pieces of a record apart. -/
theorem eq_of_key (h : Pieces w pieces) (memF : f ∈ pieces) (memG : g ∈ pieces)
    (same : DedupKey.of f = DedupKey.of g) : f = g := by
  obtain ⟨i, lt, rfl⟩ := getElem_of_mem memF
  obtain ⟨j, lt', rfl⟩ := getElem_of_mem memG
  have number : i + 1 = j + 1 := by
    have fragments := congrArg DedupKey.fragment same
    rw [h.numbered i lt, h.numbered j lt'] at fragments
    exact fragments
  obtain rfl : i = j := Nat.succ.inj number
  rfl

theorem header (h : Pieces w pieces) (memF : f ∈ pieces) :
    f.header = (w.fragment 0 pieces.length []) := by
  obtain ⟨_, -, -, eq⟩ := h.mem memF
  rw [eq]
  simp [Record.header, Record.fragment, Record.piece, Body.withRows_withRows]

theorem eq_singleton (h : Pieces w pieces) (one : ¬1 < pieces.length) : pieces = [w] := by
  obtain ⟨_, rfl⟩ := length_eq_one_iff.mp
    (le_antisymm (not_lt.mp one) (length_pos_iff.mpr h.nonempty))
  have rows := h.rows
  have numbered := h.numbered 0 (by simp)
  simp only [flatMap_cons, flatMap_nil, append_nil] at rows
  simp only [getElem_cons_zero, length_singleton, rows, Record.fragment,
    Record.withRows_rows] at numbered
  rw [numbered, ← h.single]

theorem assemble_eq (h : Pieces w pieces) : assemble pieces = some w := by
  obtain ⟨first, rest, rfl⟩ := exists_cons_of_ne_nil h.nonempty
  have numbered := h.numbered 0 (by simp)
  rw [getElem_cons_zero] at numbered
  have body : first.body.withRows (first.rows ++ rest.flatMap Record.rows) = w.body := by
    rw [show first.rows ++ rest.flatMap Record.rows = w.rows from h.rows, numbered]
    simp only [Record.fragment, Body.withRows_withRows, Record.withRows_rows]
  have envelope : (first.piece 1 1).envelope = w.envelope := by
    rw [numbered, h.single]
    rfl
  simp only [assemble, body, envelope]

end Pieces

end

end Celld.Export
