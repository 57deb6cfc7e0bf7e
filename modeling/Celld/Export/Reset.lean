import Celld.Export.Derive

/-!
# A complete stream snapshot

A complete snapshot of the stream at `P` is meant to supersede every record at or below `P`.  It
does for the rows, the uncertain tables and the gaps; the records that close a generation are not
superseded, and a generation the snapshot holds stays closed if one of them names it.
-/

namespace Celld.Export

open List Option

/-! ## The best cut -/

theorem bestCut_concat (cs : List Cut) (c : Cut) :
    bestCut (cs ++ [c]) = if (bestCut cs).all c.beats then some c else bestCut cs := by
  rw [bestCut, foldl_append, foldl_cons, foldl_nil, ← bestCut]

/-- The best cut is one of the cuts, and none ranks above it. -/
theorem bestCut_greatest (cs : List Cut) :
    (∀ c ∈ cs, (bestCut cs).isSome) ∧
      ∀ best, bestCut cs = some best → best ∈ cs ∧ ∀ c ∈ cs, c.rank ≤ best.rank := by
  induction cs using List.reverseRecOn with
  | nil => exact ⟨by simp, by simp [bestCut]⟩
  | append_singleton cs c ih =>
    rw [bestCut_concat]
    cases found : bestCut cs with
    | none =>
      -- No cut so far: the list before `c` is empty.
      have empty : cs = [] := eq_nil_iff_forall_not_mem.mpr fun d mem => by
        simpa [found] using ih.1 d mem
      subst empty
      simp
    | some best =>
      obtain ⟨mem, greatest⟩ := ih.2 best found
      by_cases beats : c.beats best = true
      · have above : best.rank < c.rank := by simpa [Cut.beats] using beats
        simp only [all_some, beats, if_true, isSome_some, Option.some.injEq]
        refine ⟨fun _ _ => trivial, ?_⟩
        rintro _ rfl
        refine ⟨by simp, fun d memD => ?_⟩
        rcases mem_append.mp memD with earlier | last
        · exact (greatest d earlier).trans above.le
        · rw [mem_singleton.mp last]
      · have below : c.rank ≤ best.rank := by simpa [Cut.beats] using beats
        simp only [all_some, beats, Bool.false_eq_true, if_false, isSome_some,
          Option.some.injEq]
        refine ⟨fun _ _ => trivial, ?_⟩
        rintro _ rfl
        refine ⟨mem_append_left _ mem, fun d memD => ?_⟩
        rcases mem_append.mp memD with earlier | last
        · exact greatest d earlier
        · rwa [mem_singleton.mp last]

/-- A cut that beats all others is the best one. -/
theorem bestCut_eq_some {cs : List Cut} {S : Cut} (mem : S ∈ cs)
    (first : ∀ c ∈ cs, c = S ∨ S.beats c) : bestCut cs = some S := by
  obtain ⟨best, found⟩ := isSome_iff_exists.mp ((bestCut_greatest cs).1 S mem)
  obtain ⟨memBest, greatest⟩ := (bestCut_greatest cs).2 best found
  rcases first best memBest with same | beaten
  · rw [found, same]
  · have above : best.rank < S.rank := by simpa [Cut.beats] using beaten
    exact absurd (greatest S mem) (not_le.mpr above)

/-! ## The certified position -/

section

variable {V : Type} {records : List (Entry V)}

/-- What every watermark of the chain keeps holds where the chain ends. -/
theorem chain_induct {P : Option Position → Prop} {epoch : ℕ}
    (step : ∀ w ∈ watermarks records, ∀ reached, w.continues records epoch reached → P reached →
      P (some w.through)) (fuel : ℕ) {reached : Option Position} (start : P reached) :
    P (chain records epoch fuel reached) := by
  induction fuel generalizing reached with
  | zero => exact start
  | succ fuel ih =>
    rw [chain]
    split
    case h_1 w found =>
      have continues : w.continues records epoch reached := by simpa using find?_some found
      exact ih (step w (mem_of_find?_eq_some found) reached continues start)
    case h_2 => exact start

/-- What an epoch is certified to is where one of the watermarks ends. -/
theorem certify_reaches {epoch : ℕ} {p : Position}
    (got : certify records epoch = some p) : ∃ w ∈ watermarks records, w.through = p := by
  refine chain_induct (P := fun r => ∀ p ∈ r, ∃ w ∈ watermarks records, w.through = p)
    (fun w mem _ _ _ p here => ?_) _ (by simp) p got
  exact ⟨w, mem, Option.some.inj here⟩

theorem mem_watermarks {w : WatermarkBody} :
    w ∈ watermarks records ↔ ∃ e ∈ records, e.body = .watermark w := by
  simp only [watermarks, mem_filterMap]
  refine exists_congr fun e => and_congr_right fun _ => ?_
  cases e.body <;> simp

/-! ## What a snapshot holds -/

/-- The positions a body names beside that of its record are at or below `P`. -/
def Body.NamesUpTo (P : Position) : Body V → Prop
  | .link body => ∀ epoch ∈ body.prevEpoch, ∀ txid ∈ body.prevTxid, ⟨epoch, txid, 0⟩ ≤ P
  | .recovered body => body.head ≤ P
  | .watermark body => body.through ≤ P
  | .gap body => body.to_ ≤ P
  | _ => True

/-- A set of one stream's records, none of them a deletion and none above `S.position`, that
contains the complete stream snapshot `S` and no complete snapshot `S` does not beat. -/
structure Resets (all : List (Entry V)) (S : Cut) : Prop where
  mem : S ∈ cuts all
  scope : S.end_.scope = .stream
  first : ∀ c ∈ cuts all, c = S ∨ S.beats c
  undeleted : ∀ e ∈ all, e.body.kind ≠ .deleted
  upTo : ∀ e ∈ all, e.position ≤ S.position
  names : ∀ e ∈ all, e.body.NamesUpTo S.position

variable {all : List (Entry V)} {S : Cut}

theorem openedAt_isSome {tg : TableGen} {e : Entry V} (mem : e ∈ all) (named : tg ∈ e.body.names) :
    (openedAt all tg).isSome := by
  rw [openedAt, isSome_min?_iff]
  exact ne_nil_of_mem (mem_map_of_mem (mem_filter.mpr ⟨mem, decide_eq_true named⟩))

theorem Entry.names_of_snapshotData {tg : TableGen} {e : Entry V} {data : TableRows V}
    (holds : e.snapshotData S tg = some data) : tg ∈ e.body.names := by
  unfold Entry.snapshotData at holds
  split at holds
  case h_1 id data' body =>
    split at holds
    case isTrue mine =>
      simp only [Bool.and_eq_true, decide_eq_true_eq] at mine
      rw [body, Body.names, ← mine.2]
      exact mem_singleton.mpr rfl
    case isFalse => cases holds
  case h_2 => cases holds

namespace Resets

theorem undeleted_eq (h : Resets all S) : Export.undeleted all = all := by
  have none_deletes : all.filter (·.body.deletesStream) = [] := by
    refine filter_eq_nil_iff.mpr fun e mem deletes => ?_
    have kept := h.undeleted e mem
    cases body : e.body <;> simp_all [Body.deletesStream, Body.kind]
  simp [Export.undeleted, deletedAt, none_deletes]

theorem streamCut_eq (h : Resets all S) : streamCut all = some S :=
  bestCut_eq_some (mem_filter.mpr ⟨h.mem, decide_eq_true h.scope⟩)
    fun c mem => h.first c (mem_filter.mp mem).1

theorem cutFor_eq (h : Resets all S) (tg : TableGen) : cutFor all tg = some S := by
  rw [cutFor, h.streamCut_eq, toList_some]
  refine bestCut_eq_some (by simp) fun c mem => ?_
  rcases mem_append.mp mem with table | stream
  · exact h.first c (mem_filter.mp table).1
  · exact .inl (mem_singleton.mp stream)

theorem covered_of_le (h : Resets all S) {epoch txid : ℕ}
    (le : (⟨epoch, txid, 0⟩ : Position) ≤ S.position) : covered all epoch txid = true := by
  rw [covered, h.streamCut_eq]
  rcases Position.le_iff.mp le with before | ⟨same, before | ⟨sameTxid, -⟩⟩
  · simp [show epoch < S.position.epoch from before]
  · simp [show epoch = S.position.epoch from same, (show txid < S.position.txid from before).le]
  · simp [show epoch = S.position.epoch from same, show txid = S.position.txid from sameTxid]

theorem covered_position (h : Resets all S) {p : Position} (le : p ≤ S.position) :
    covered all p.epoch p.txid = true := by
  refine h.covered_of_le (le_trans (Position.le_iff.mpr ?_) le)
  exact .inr ⟨rfl, .inr ⟨rfl, Nat.zero_le _⟩⟩

/-- Every position a record names is covered, so no record leaves a gap. -/
theorem gapOf_eq_none (h : Resets all S) {e : Entry V} (mem : e ∈ all) : gapOf all e = none := by
  have names := h.names e mem
  have certified : ∀ epoch, ∀ c ∈ certify all epoch, covered all c.epoch c.txid = true := by
    intro epoch c got
    obtain ⟨_, memW, rfl⟩ := certify_reaches got
    obtain ⟨e', memE, body⟩ := mem_watermarks.mp memW
    have upTo := h.names e' memE
    rw [body] at upTo
    exact h.covered_position upTo
  rw [gapOf]
  cases body : e.body with
  | gap b =>
    rw [body] at names
    simp [h.covered_position (show b.to_ ≤ S.position from names)]
  | link b =>
    rw [body] at names
    cases prevEpoch : b.prevEpoch with
    | none => simp [prevEpoch]
    | some epoch =>
      cases prevTxid : b.prevTxid with
      | none => simp [prevEpoch, prevTxid]
      | some txid =>
        simp [prevEpoch, prevTxid, h.covered_of_le (names epoch prevEpoch txid prevTxid)]
  | recovered b =>
    rw [body] at names
    have seen := h.covered_position (show b.head ≤ S.position from names)
    cases reached : certify all b.head.epoch with
    | none => simp [seen, reached]
    | some c =>
      have seenC := certified _ c reached
      simp [seen, reached, seenC]
  | _ => rfl

end Resets

variable [Ord V] [Std.TransOrd V]

/-- The rows the snapshot records of a cut hold for a generation. -/
def Cut.rowsOf (S : Cut) (records : List (Entry V)) (tg : TableGen) : TableState V :=
  (records.filterMap (Entry.snapshotData S tg)).foldl TableState.load {}

/-- The table generations of a cut that are not empty, with its rows. -/
def Cut.tables (S : Cut) (records : List (Entry V)) (tg : TableGen) : Option (TableState V) :=
  if (S.rowsOf records tg).rows.isEmpty then none else some (S.rowsOf records tg)

/-- A generation the snapshot holds rows of is named by one of its records. -/
theorem Cut.named_of_holds {tg : TableGen}
    (holds : (S.rowsOf all tg).rows.isEmpty = false) : ∃ e ∈ all, tg ∈ e.body.names := by
  have some_data : all.filterMap (Entry.snapshotData S tg) ≠ [] := by
    intro none_data
    simp [Cut.rowsOf, none_data] at holds
  obtain ⟨_, mem⟩ := exists_mem_of_ne_nil _ some_data
  obtain ⟨e, memE, holdsE⟩ := mem_filterMap.mp mem
  exact ⟨e, memE, Entry.names_of_snapshotData holdsE⟩

namespace Resets

/-- No change lies above the snapshot, so its rows are the table's. -/
theorem tableState_eq (h : Resets all S) (tg : TableGen) :
    tableState all tg = S.rowsOf all tg := by
  have no_live : liveRows all tg (some S) = [] := by
    have nothing : (all.filter fun e => (e.body.rowsData tg).isSome &&
        (some S).all (·.position < e.position)) = [] := by
      refine filter_eq_nil_iff.mpr fun e mem live => ?_
      simp only [all_some, Bool.and_eq_true, decide_eq_true_eq] at live
      exact not_lt.mpr (h.upTo e mem) live.2
    rw [liveRows, nothing, insertionSort_nil]
  rw [tableState, h.cutFor_eq tg]
  simp only [no_live, filterMap_nil, foldl_nil, map_some, getD_some]
  rfl

theorem certain (h : Resets all S) (tg : TableGen) : (derive all).uncertain tg = false := by
  have nothing : (all.any fun e => e.body.marksBulk tg && (some S).all (·.position < e.position))
      = false := by
    refine any_eq_false.mpr fun e mem marks => ?_
    simp only [all_some, Bool.and_eq_true, decide_eq_true_eq] at marks
    exact not_lt.mpr (h.upTo e mem) marks.2
  simp only [derive, h.undeleted_eq, h.cutFor_eq tg, nothing, Bool.and_false]

theorem no_gaps (h : Resets all S) : (derive all).gaps = [] := by
  simp only [derive, h.undeleted_eq]
  exact filterMap_eq_nil_iff.mpr fun e mem => h.gapOf_eq_none mem

theorem tables_eq (h : Resets all S) (tg : TableGen) :
    (derive all).tables tg =
      if isOpen all tg && !(S.rowsOf all tg).rows.isEmpty then some (S.rowsOf all tg)
      else none := by
  simp only [derive, h.undeleted_eq, h.tableState_eq tg]

/-- The derived state is the snapshot exactly when no record closes a generation the snapshot
holds rows of. -/
theorem reset_iff (h : Resets all S) :
    ((derive all).tables = S.tables all ∧ (∀ tg, (derive all).uncertain tg = false) ∧
      (derive all).gaps = []) ↔
    ∀ tg, (S.rowsOf all tg).rows.isEmpty = false →
      (∀ e ∈ all, e.body.drops tg = false) ∧ superseded all tg = false ∧
        ∀ opened ∈ openedAt all tg, ∀ e ∈ all, e.body.renames tg.table → e.position < opened := by
  have open_iff : ∀ tg, (S.rowsOf all tg).rows.isEmpty = false →
      (isOpen all tg = true ↔ (∀ e ∈ all, e.body.drops tg = false) ∧ superseded all tg = false ∧
        ∀ opened ∈ openedAt all tg, ∀ e ∈ all, e.body.renames tg.table → e.position < opened) := by
    intro tg holds
    obtain ⟨e, mem, named⟩ := Cut.named_of_holds holds
    obtain ⟨opened, at_⟩ := isSome_iff_exists.mp (openedAt_isSome mem named)
    simp [isOpen, at_, List.any_eq_false, and_assoc, ← not_le]
  constructor
  · rintro ⟨tables, -⟩ tg holds
    refine (open_iff tg holds).mp ?_
    have same := congrFun tables tg
    rw [h.tables_eq, Cut.tables, holds] at same
    by_contra closed
    simp [closed] at same
  · intro clear
    refine ⟨?_, h.certain, h.no_gaps⟩
    funext tg
    rw [h.tables_eq, Cut.tables]
    cases holds : (S.rowsOf all tg).rows.isEmpty with
    | true => simp
    | false => simp [(open_iff tg holds).mpr (clear tg holds)]

end Resets

end

/-! ## A drop that was lost -/

/-- A table is dropped at `(1, 2, 0)`; the drop is exported and then lost with its node.  The
repair snapshot of the next epoch holds the table again. -/
def lostDrop : List (Entry ℕ) :=
  [⟨⟨1, 1, 0⟩, .live, .rows ⟨"t", 1, ["id"], ["id"], [⟨.insert, [1], [1]⟩]⟩⟩,
    ⟨⟨1, 2, 0⟩, .live, .schema { table := "t", generation := 1, dropped := true }⟩,
    ⟨⟨2, 1, 0⟩, .repair, .snapshot "s" ⟨"t", 1, ["id"], ["id"], [⟨.insert, [1], [1]⟩]⟩⟩,
    ⟨⟨2, 1, 0⟩, .repair, .snapshotEnd ⟨"s", .stream, [], 1⟩⟩]

def repairCut : Cut := ⟨⟨2, 1, 0⟩, .repair, ⟨"s", .stream, [], 1⟩⟩

theorem lostDrop_resets : Resets lostDrop repairCut where
  mem := by decide +kernel
  scope := rfl
  first := by decide +kernel
  undeleted := by decide +kernel
  upTo := by decide +kernel
  names := by simp [lostDrop, Body.NamesUpTo]

/-- The snapshot holds a row of the table, and the derived state has no such table. -/
theorem Resets.lostDrop_missing : Resets lostDrop repairCut ∧
    (derive lostDrop).tables ⟨"t", 1⟩ = none ∧ (repairCut.tables lostDrop ⟨"t", 1⟩).isSome :=
  ⟨lostDrop_resets, by
    rw [lostDrop_resets.tables_eq, show isOpen lostDrop ⟨"t", 1⟩ = false by decide +kernel]
    rfl, by decide +kernel⟩

/-- With the drop left out, the snapshot is restored. -/
theorem Resets.kept_reset :
    ((derive (lostDrop.eraseIdx 1)).tables = repairCut.tables (lostDrop.eraseIdx 1) ∧
      (∀ tg, (derive (lostDrop.eraseIdx 1)).uncertain tg = false) ∧
      (derive (lostDrop.eraseIdx 1)).gaps = []) := by
  have resets : Resets (lostDrop.eraseIdx 1) repairCut :=
    { mem := by decide +kernel
      scope := rfl
      first := by decide +kernel
      undeleted := by decide +kernel
      upTo := by decide +kernel
      names := by simp [lostDrop, Body.NamesUpTo] }
  refine resets.reset_iff.mpr fun tg holds => ?_
  have only : tg = ⟨"t", 1⟩ := by
    obtain ⟨e, mem, named⟩ := Cut.named_of_holds holds
    have all_name : ∀ e ∈ lostDrop.eraseIdx 1, ∀ tg ∈ e.body.names, tg = ⟨"t", 1⟩ := by
      decide +kernel
    exact all_name e mem tg named
  subst only
  exact ⟨by decide +kernel, by decide +kernel, by decide +kernel⟩

end Celld.Export
