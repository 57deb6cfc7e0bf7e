import Celld.Export.Booking
import Celld.Lib.Tally

/-!
# Watermarks are exact

What the delivery task knows about a stream that is not frozen, while the sink takes what it is
given: everything the stream submitted up to the delivered position is settled and acknowledged,
and the counts are those of the records since the last watermark.  The watermarks it makes from
that form a chain, and each counts exactly the records of its range.
-/

namespace Celld.Export

open List Std.ExtTreeMap Tally

namespace Exporter

section

variable {V : Type} {x x' : Exporter V} {key : DeliveryKey} {d : Delivered} {w : WatermarkBody}

/-- The positions of the records that were acknowledged since the last watermark. -/
def counted (x : Exporter V) (key : DeliveryKey) (marked : Option Position) :
    List Position :=
  ((x.own key).filter fun q => q.info.whole && decide (q.seq ∈ x.handled.map (·.1)) &&
    marked.all (· < q.info.position)).map (·.info.position)

/-- What the state of a stream says of its records. -/
structure Live (x : Exporter V) (key : DeliveryKey) (d : Delivered) : Prop where
  under : ∀ p ∈ d.position, ∃ top ∈ x.cursor key, p ≤ top
  marked : ∀ p ∈ d.marked, ∃ p' ∈ d.position, p ≤ p'
  acks : ∀ q ∈ x.own key, ∀ result, (q.seq, result) ∈ x.handled → result = .acknowledged
  reach : ∀ p ∈ d.position, ∀ q ∈ x.own key, q.info.position ≤ p → q.seq ∈ x.handled.map (·.1)
  tally : Tallies d.acked (counted x key d.marked)

theorem Live.of_eq {d' : Delivered} (live : Live x key d) (position : d'.position = d.position)
    (marked : d'.marked = d.marked) (acked : d'.acked = d.acked) : Live x key d' :=
  ⟨position ▸ live.under, marked ▸ position ▸ live.marked, live.acks, position ▸ live.reach,
    marked ▸ acked ▸ live.tally⟩

/-- The positions in the range of a watermark. -/
def covers (w : WatermarkBody) (p : Position) : Bool := w.from_.all (· < p) && p ≤ w.through

/-- A watermark that counts exactly the records of its range, all of them acknowledged. -/
structure Exact (x : Exporter V) (key : DeliveryKey) (w : WatermarkBody) : Prop where
  under : ∃ top ∈ x.cursor key, w.through ≤ top
  acks : ∀ q ∈ x.own key, q.info.position ≤ w.through →
    (q.seq, SinkDelivery.acknowledged) ∈ x.handled
  records : w.records = ((x.own key).filter fun q =>
    q.info.whole && covers w q.info.position).length
  commits : w.commits = (((x.own key).filter fun q =>
    covers w q.info.position).map (·.info.position)).dedup.length

/-! ## A stream submits more -/

theorem filter_append_none {α : Type} {p : α → Bool} {l new : List α}
    (none : ∀ a ∈ new, p a = false) : (l ++ new).filter p = l.filter p := by
  have empty : new.filter p = [] := filter_eq_nil_iff.mpr fun a mem => by simp [none a mem]
  rw [filter_append, empty, append_nil]

/-- Only new records are added, above what the stream submitted. -/
structure Grows (x x' : Exporter V) (key : DeliveryKey) : Prop where
  own : ∃ new, x'.own key = x.own key ++ new ∧ ∀ q ∈ new, q.seq ∉ x.handled.map (·.1) ∧
    ∀ top ∈ x.cursor key, top < q.info.position
  handled : x'.handled = x.handled
  cursor : ∀ top ∈ x.cursor key, ∃ top' ∈ x'.cursor key, top ≤ top'

theorem Grows.of_eq (log : x'.log = x.log) (handled : x'.handled = x.handled)
    (cursor : ∀ top ∈ x.cursor key, ∃ top' ∈ x'.cursor key, top ≤ top') : Grows x x' key :=
  ⟨⟨[], by simp [Exporter.own, log], by simp⟩, handled, cursor⟩

theorem Live.grow (live : Live x key d) (grows : Grows x x' key) : Live x' key d := by
  obtain ⟨⟨_, own, fresh⟩, handled, cursor⟩ := grows
  constructor
  case under =>
    intro p here
    obtain ⟨top, here', le⟩ := live.under p here
    obtain ⟨top', here'', le'⟩ := cursor top here'
    exact ⟨top', here'', le.trans le'⟩
  case marked => exact live.marked
  case acks =>
    intro q mem result settled
    rw [handled] at settled
    rw [own, mem_append] at mem
    refine live.acks q (mem.resolve_right fun isNew => ?_) result settled
    exact (fresh q isNew).1 (mem_map_of_mem settled)
  case reach =>
    intro p here q mem le
    rw [handled]
    rw [own, mem_append] at mem
    refine live.reach p here q (mem.resolve_right fun isNew => ?_) le
    obtain ⟨top, here', le'⟩ := live.under p here
    exact absurd (le.trans le') (not_le.mpr ((fresh q isNew).2 top here'))
  case tally =>
    have same : counted x' key d.marked = counted x key d.marked := by
      rw [counted, counted, own, handled, filter_append_none fun q mem => ?_]
      simp [(fresh q mem).1]
    rw [same]
    exact live.tally

theorem Exact.grow (exact_ : Exact x key w) (grows : Grows x x' key) :
    Exact x' key w := by
  obtain ⟨⟨new, own, fresh⟩, handled, cursor⟩ := grows
  obtain ⟨top, here, le⟩ := exact_.under
  have beyond : ∀ q ∈ new, ¬q.info.position ≤ w.through := fun q mem le' =>
    absurd (le'.trans le) (not_le.mpr ((fresh q mem).2 top here))
  have uncovered : ∀ q ∈ new, covers w q.info.position = false := fun q mem => by
    simp [covers, beyond q mem]
  constructor
  case under =>
    obtain ⟨top', here', le'⟩ := cursor top here
    exact ⟨top', here', le.trans le'⟩
  case acks =>
    intro q mem le'
    rw [handled]
    rw [own, mem_append] at mem
    exact exact_.acks q (mem.resolve_right fun isNew => beyond q isNew le') le'
  case records =>
    rw [own, filter_append_none fun q mem => by simp [uncovered q mem]]
    exact exact_.records
  case commits =>
    rw [own, filter_append_none uncovered]
    exact exact_.commits

/-! ## Results -/

/-- A result is settled, and nothing is submitted. -/
structure Settles (x x' : Exporter V) (seq : ℕ) (result : SinkDelivery) : Prop where
  log : x'.log = x.log
  handled : x'.handled = x.handled ++ [(seq, result)]
  cursor : x'.cursor = x.cursor
  accepted : x'.accepted = x.accepted
  closed : x'.closed = x.closed
  flight : x'.flight = x.flight

section Settling

variable {seq : ℕ} {result : SinkDelivery} (settles : Settles x x' seq result)

include settles

theorem Settles.own (key : DeliveryKey) : x'.own key = x.own key := by
  rw [Exporter.own, Exporter.own, settles.log]

theorem Settles.settled_iff {other : ℕ} (apart : other ≠ seq) :
    other ∈ x'.handled.map (·.1) ↔ other ∈ x.handled.map (·.1) := by
  rw [settles.handled, map_append, mem_append, map_singleton, mem_singleton,
    or_iff_left apart]

theorem Exact.settle (exact_ : Exact x key w) : Exact x' key w := by
  constructor
  case under => rw [settles.cursor]; exact exact_.under
  case acks =>
    intro q mem le
    rw [settles.handled]
    exact mem_append_left _ (exact_.acks q (settles.own key ▸ mem) le)
  case records => rw [settles.own]; exact exact_.records
  case commits => rw [settles.own]; exact exact_.commits

/-- A result of a record that is not the stream's own says nothing about the stream. -/
theorem Live.settleOther (live : Live x key d) (other : ∀ q ∈ x.own key, q.seq ≠ seq) :
    Live x' key d := by
  constructor
  case under => rw [settles.cursor]; exact live.under
  case marked => exact live.marked
  case acks =>
    intro q mem result' settled
    rw [settles.own] at mem
    rw [settles.handled, mem_append, mem_singleton] at settled
    refine live.acks q mem result' (settled.resolve_right fun eq => ?_)
    exact other q mem (Prod.mk.inj eq).1
  case reach =>
    intro p here q mem le
    rw [settles.own] at mem
    exact (settles.settled_iff (other q mem)).mpr (live.reach p here q mem le)
  case tally =>
    have same : counted x' key d.marked = counted x key d.marked := by
      rw [counted, counted, settles.own]
      refine congrArg (List.map _) (filter_congr fun q mem => ?_)
      rw [decide_eq_decide.mpr (settles.settled_iff (other q mem))]
    rw [same]
    exact live.tally

end Settling

/-- An own record is acknowledged. -/
theorem Live.settleOwn (live : Live x key d) (booked : Booked x) {q : Queued V}
    (mem : q ∈ x.own key) (fresh : q.seq ∉ x.handled.map (·.1))
    (before : ∀ q' ∈ x.own key, q'.seq < q.seq → q'.seq ∈ x.handled.map (·.1))
    (settles : Settles x x' q.seq .acknowledged) :
    Live x' key
      { d with
        acked := if q.info.whole then
            d.acked.insert q.info.position ((d.acked[q.info.position]?).getD 0 + 1)
          else d.acked
        position := if q.info.closes then some q.info.position else d.position } := by
  have own := settles.own key
  have handled := settles.handled
  -- The record is not settled yet, so it lies above everything the state has reached.
  have above : ∀ p ∈ d.position, p < q.info.position := fun p here =>
    not_le.mp fun le => fresh (live.reach p here q mem le)
  constructor
  case under =>
    intro p here
    rw [settles.cursor]
    dsimp only at here
    split_ifs at here
    · cases here
      exact booked.under key q mem
    · exact live.under p here
  case marked =>
    intro p here
    obtain ⟨p', here', le⟩ := live.marked p here
    dsimp only
    split_ifs
    · exact ⟨q.info.position, rfl, le.trans (above p' here').le⟩
    · exact ⟨p', here', le⟩
  case acks =>
    intro q' mem' result settled
    rw [own] at mem'
    rw [handled, mem_append, mem_singleton] at settled
    rcases settled with old | new
    · exact live.acks q' mem' result old
    · exact (Prod.mk.inj new).2
  case reach =>
    intro p here q' mem' le
    rw [own] at mem'
    rw [handled, map_append, mem_append]
    dsimp only at here
    split_ifs at here with closes
    · cases here
      rcases lt_trichotomy q'.seq q.seq with earlier | same | later
      · exact .inl (before q' mem' earlier)
      · exact .inr (by simp [same])
      · have lt := (booked.rises_of_lt mem mem' later).2 closes
        exact absurd le (not_le.mpr lt)
    · exact .inl (live.reach p here q' mem' le)
  case tally =>
    have unmarked : d.marked.all (· < q.info.position) = true := by
      cases marked : d.marked with
      | none => rfl
      | some p =>
        obtain ⟨p', here', le⟩ := live.marked p (by rw [marked]; rfl)
        exact decide_eq_true (le.trans_lt (above p' here'))
    obtain ⟨first, last, parts⟩ := append_of_mem mem
    have apart : ∀ q' ∈ first ++ last, q'.seq ≠ q.seq := by
      have sorted : (x.own key).Pairwise fun q q' => q.seq < q'.seq := booked.sorted.filter _
      rw [parts, pairwise_append] at sorted
      obtain ⟨-, tail, cross⟩ := sorted
      intro q' mem'
      rcases mem_append.mp mem' with earlier | later
      · exact (cross q' earlier q mem_cons_self).ne
      · exact ((pairwise_cons.mp tail).1 q' later).ne'
    let keep (y : Exporter V) (q' : Queued V) : Bool := q'.info.whole &&
      decide (q'.seq ∈ y.handled.map (·.1)) && d.marked.all (· < q'.info.position)
    have kept : ∀ l : List (Queued V), (∀ q' ∈ l, q' ∈ first ++ last) →
        l.filter (keep x') = l.filter (keep x) := by
      intro l sub
      refine filter_congr fun q' mem' => ?_
      simp only [keep]
      rw [decide_eq_decide.mpr (settles.settled_iff (apart q' (sub q' mem')))]
    have now : counted x' key d.marked = (first.filter (keep x)).map (·.info.position) ++
        (if q.info.whole then [q.info.position] else []) ++
          (last.filter (keep x)).map (·.info.position) := by
      rw [← kept first fun q' mem' => mem_append_left _ mem',
        ← kept last fun q' mem' => mem_append_right _ mem', counted, own, parts,
        filter_append, filter_cons]
      cases whole : q.info.whole <;> simp [handled, unmarked, map_append, keep]
    have then_ : counted x key d.marked = (first.filter (keep x)).map (·.info.position) ++
        (last.filter (keep x)).map (·.info.position) := by
      rw [counted, parts, filter_append, filter_cons]
      simp [fresh, map_append, keep]
    have tally := live.tally
    rw [then_] at tally
    rw [now]
    dsimp only
    split_ifs
    · refine (tally.insert q.info.position).perm ?_
      rw [append_assoc]
      exact perm_middle.symm
    · simpa using tally

/-! ## Advances and watermarks -/

/-- Nothing registered before a ready advance is open. -/
theorem ready_settled (booked : Booked x) (open_ : x.closed = false) {a : ℕ × Submitted}
    (mem : a ∈ x.ready) : x.advances[a.1]? = some a.2 ∧
      ∀ q ∈ x.log, q.seq ≤ a.1 → q.seq ∈ x.handled.map (·.1) := by
  obtain ⟨listed, first⟩ := mem_filter.mp mem
  refine ⟨mem_toList_iff_getElem?_eq_some.mp listed, fun q memQ le => ?_⟩
  rcases booked.opens q memQ with found | settled | closed
  · have memS := mem_toList_iff_getElem?_eq_some.mpr found
    obtain ⟨oldest, _, eq⟩ := exists_cons_of_ne_nil (ne_nil_of_mem memS)
    have ordered : x.submitted.toList.Pairwise fun a b => compare a.1 b.1 = .lt :=
      ordered_keys_toList
    rw [eq] at memS ordered first
    have lt : a.1 < oldest.1 := of_decide_eq_true first
    rcases mem_cons.mp memS with same | later
    · rw [← same] at lt
      exact absurd lt (by simpa using le)
    · have after := compare_lt_iff_lt.mp ((pairwise_cons.mp ordered).1 _ later)
      exact absurd (lt.trans after) (by simpa using le)
  · exact settled
  · rw [open_] at closed
    cases closed

theorem Live.advance (live : Live x key d) {m : Submitted}
    (under : ∃ top ∈ x.cursor key, m.position ≤ top)
    (settled : ∀ q ∈ x.own key, q.info.position ≤ m.position → q.seq ∈ x.handled.map (·.1)) :
    Live x key (d.advance m) := by
  have position : (d.advance m).position = d.position ∨
      (d.advance m).position = some m.position ∧ ∀ p ∈ d.position, p < m.position := by
    simp only [Delivered.advance]
    split_ifs with moves
    · refine .inr ⟨rfl, fun p here => ?_⟩
      rw [Bool.and_eq_true, Option.mem_def.mp here] at moves
      exact of_decide_eq_true moves.2
    · exact .inl rfl
  refine ⟨fun p here => ?_, fun p here => ?_, live.acks, fun p here q mem le => ?_, live.tally⟩
  · rcases position with same | ⟨moved, -⟩
    · exact live.under p (same ▸ here)
    · rw [moved] at here
      cases here
      exact under
  · obtain ⟨p', here', le⟩ := live.marked p here
    rcases position with same | ⟨moved, above⟩
    · exact ⟨p', same ▸ here', le⟩
    · exact ⟨m.position, by rw [moved]; rfl, le.trans (above p' here').le⟩
  · rcases position with same | ⟨moved, -⟩
    · exact live.reach p (same ▸ here) q mem le
    · rw [moved] at here
      cases here
      exact settled q mem le

theorem lt_above {p through : Position} : p < Delivered.above through ↔ p ≤ through := by
  rw [Position.lt_iff, Position.le_iff]
  simp only [Delivered.above, Nat.lt_succ_iff]

/-- The records a watermark counts are those of its range. -/
theorem counted_filter (live : Live x key d) (position : d.position = some w.through)
    (from_ : w.from_ = d.marked) :
    (counted x key d.marked).filter (fun p => decide (p < Delivered.above w.through)) =
      ((x.own key).filter fun q => q.info.whole && covers w q.info.position).map
        (·.info.position) := by
  rw [counted, filter_map, filter_filter]
  refine congrArg (List.map _) (filter_congr fun q mem => ?_)
  simp only [Function.comp, lt_above, covers, from_]
  by_cases le : q.info.position ≤ w.through
  · have settled := live.reach w.through position q mem le
    simp [le, settled]
  · simp [le]

/-- The watermark a stream is due is exact. -/
theorem Live.exact_due (live : Live x key d) (booked : Booked x) {stream : StreamId × Option String}
    (due : d.due = some (stream, w)) :
    Exact x key w := by
  obtain ⟨-, position, from_, -, commits, records, -⟩ := due_eq_some due
  have tally := live.tally.filter fun p => decide (p < Delivered.above w.through)
  rw [counted_filter live position from_] at tally
  constructor
  case under => exact live.under w.through position
  case acks =>
    intro q mem le
    obtain ⟨⟨_, result⟩, settled, rfl⟩ := mem_map.mp (live.reach _ position q mem le)
    rwa [live.acks q mem result settled] at settled
  case records =>
    rw [records]
    exact tally.sum.trans (length_map _)
  case commits =>
    rw [commits]
    refine tally.size (nodup_dedup _) fun p => ?_
    simp only [mem_dedup, mem_map, mem_filter, Bool.and_eq_true]
    constructor
    · rintro ⟨q, ⟨mem, covered⟩, rfl⟩
      obtain ⟨q', mem', same, whole⟩ := booked.whole key q mem
      exact ⟨q', ⟨mem', whole, same ▸ covered⟩, same⟩
    · rintro ⟨q, ⟨mem, -, covered⟩, rfl⟩
      exact ⟨q, ⟨mem, covered⟩, rfl⟩

theorem Live.mark (live : Live x key d) : Live x key d.mark := by
  unfold Delivered.mark
  split
  · exact live
  case h_2 stream w due =>
    obtain ⟨-, position, -, above, -, -⟩ := due_eq_some due
    refine ⟨live.under, fun p here => ?_, live.acks, live.reach, ?_⟩
    · cases here
      exact ⟨w.through, position, le_rfl⟩
    · have tally := live.tally.filter fun p => !decide (p < Delivered.above w.through)
      have rest : (counted x key d.marked).filter
          (fun p => !decide (p < Delivered.above w.through)) =
          counted x key (some w.through) := by
        rw [counted, counted, filter_map, filter_filter]
        refine congrArg (List.map _) (filter_congr fun q mem => ?_)
        simp only [Function.comp, lt_above, Option.all_some]
        by_cases lt : w.through < q.info.position
        · have unmarked : d.marked.all (· < q.info.position) = true := by
            cases marked : d.marked with
            | none => rfl
            | some p => exact decide_eq_true ((above p marked).trans lt)
          simp [lt, unmarked, not_le.mpr lt]
        · simp [lt, not_lt.mp lt]
      rwa [rest] at tally

end

end Exporter

end Celld.Export
