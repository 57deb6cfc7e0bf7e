import Celld.Export.Consumer

/-!
# Deliveries of a collection of records

What the consumer holds after any delivery of a collection's fragments: each record once, as soon
as its last fragment has arrived.  Two deliveries of the same collection therefore leave the same
records up to their order.
-/

namespace Celld.Export

open List Std.ExtTreeMap DedupKey Record

section

variable {V : Type}

/-- Whole records, told apart by their dedup keys. -/
structure Distinct (collection : List (Record V)) : Prop where
  single : ∀ r ∈ collection, r = r.piece 1 1
  keys : ∀ r ∈ collection, ∀ r' ∈ collection, of r = of r' → r = r'

theorem RecordKey.of_eq_of_filed {a b : Record V} (same : a.filed = b.filed) :
    RecordKey.of a = RecordKey.of b := by
  simp only [filed, Filed.mk.injEq, entry, Entry.mk.injEq] at same
  simp only [RecordKey.of, same]

/-- A marker for one table is filed as any record with its key. -/
theorem Record.filed_eq_of_bulk {a b : Record V} {tg : TableGen} (bulk : a.body = .bulk [tg])
    (same : RecordKey.of a = RecordKey.of b) : a.filed = b.filed := by
  simp only [RecordKey.of, RecordKey.mk.injEq, bulk] at same
  obtain ⟨stream, position, kind, origin, -, -, -, tables⟩ := same
  have body : b.body = .bulk [tg] := by
    cases body : b.body with
    | bulk sorted =>
      rw [body] at tables
      have perm := perm_insertionSort (· ≤ ·) sorted
      rw [show sorted.insertionSort (· ≤ ·) = [tg] from tables.symm] at perm
      rw [perm_singleton.mp perm.symm]
    | _ => rw [body] at kind; cases kind
  simp only [filed, entry, stream, position, origin, bulk, body]

variable {sizes : Sizes V} {maxBytes : ℕ} {collection pieces : List (Record V)} {r r' : Record V}
  {c : Consumer V}

theorem whole_cases (sizes : Sizes V) (maxBytes : ℕ) (r : Record V) :
    whole sizes maxBytes r = r.piece 1 1 ∨
      ∃ tg, (whole sizes maxBytes r).body = .bulk [tg] := by
  cases table : r.body.tableRows with
  | none => exact .inl (by simp [whole, split, piece, table])
  | some data =>
    rw [whole]
    split
    case h_1 => exact .inl rfl
    case h_2 marker cut =>
      refine .inr ⟨data.tableGen, ?_⟩
      simp only [split, show (r.piece 1 1).body = r.body from rfl, table] at cut
      split_ifs at cut
      split at cut <;> cases cut
      rfl

namespace Distinct

/-- Records of a collection whose whole forms have one key are filed alike, and are one record if
one of them was cut. -/
theorem whole_filed (h : Distinct collection) (mem : r ∈ collection) (mem' : r' ∈ collection)
    (same : RecordKey.of (whole sizes maxBytes r) = RecordKey.of (whole sizes maxBytes r')) :
    (whole sizes maxBytes r).filed = (whole sizes maxBytes r').filed ∧
      (1 < (split sizes maxBytes r).wire.length → r' = r) := by
  have unmarked : 1 < (split sizes maxBytes r).wire.length →
      ∀ tg, (whole sizes maxBytes r).body ≠ .bulk [tg] := by
    intro many tg bulk
    have table := (wire_pieces sizes maxBytes r).splittable many
    rw [bulk] at table
    cases table
  rcases whole_cases sizes maxBytes r with uncut | ⟨tg, bulk⟩
  · rcases whole_cases sizes maxBytes r' with uncut' | ⟨tg, bulk'⟩
    · have eq : r = r' := by
        refine h.keys r mem r' mem' ?_
        rw [uncut, uncut', ← h.single r mem, ← h.single r' mem'] at same
        rw [of, of, same, h.single r mem, h.single r' mem']
        rfl
      exact ⟨by rw [eq], fun _ => eq.symm⟩
    · refine ⟨(filed_eq_of_bulk bulk' same.symm).symm, fun many => ?_⟩
      -- A record that was cut has a table, and a marker has none.
      have filed := filed_eq_of_bulk bulk' same.symm
      have body := congrArg (fun x => x.entry.body) filed
      exact absurd (body.symm.trans bulk') (unmarked many tg)
  · exact ⟨filed_eq_of_bulk bulk same, fun many => absurd bulk (unmarked many tg)⟩

end Distinct

/-- Every fragment of a record has arrived. -/
def Complete (seen : List DedupKey) (pieces : List (Record V)) : Prop :=
  ∀ q ∈ pieces, of q ∈ seen

theorem Complete.mono {seen : List DedupKey} {key : DedupKey}
    (complete : Complete seen pieces) : Complete (key :: seen) pieces :=
  fun q mem => mem_cons_of_mem _ (complete q mem)

/-- The reassembler keeps what has arrived of the record `r` until the record is complete. -/
def KeepsParts (sizes : Sizes V) (maxBytes : ℕ) (r : Record V) (seen : List DedupKey)
    (s : Reassembler V) : Prop :=
  1 < (split sizes maxBytes r).wire.length → ∀ i p,
    (s.parts (RecordKey.of (whole sizes maxBytes r)))[i]? = some p ↔
      (p ∈ (split sizes maxBytes r).wire ∧ of p ∈ seen ∧ p.envelope.fragment = i) ∧
        ¬Complete seen (split sizes maxBytes r).wire

/-- What the consumer holds is decided by the fragments it has seen. -/
structure Holds (sizes : Sizes V) (maxBytes : ℕ) (collection : List (Record V))
    (c : Consumer V) : Prop where
  parts : ∀ r ∈ collection, KeepsParts sizes maxBytes r c.seen c.reassembler
  records : ∀ x, x ∈ c.records.map filed ↔
    ∃ r ∈ collection, Complete c.seen (split sizes maxBytes r).wire ∧
      x = (whole sizes maxBytes r).filed
  nodup : (c.records.map filed).Nodup

/-- The parts that have arrived, in the order of their numbers. -/
theorem values_eq {m : BTreeMap ℕ (Record V)}
    (sorted : pieces.Pairwise fun f g => f.envelope.fragment < g.envelope.fragment)
    (arrived : Record V → Bool)
    (parts : ∀ i p, m[i]? = some p ↔ p ∈ pieces ∧ arrived p ∧ p.envelope.fragment = i) :
    m.toList.map (·.2) = pieces.filter arrived := by
  have ordered : (m.toList.map (·.2)).Pairwise fun f g =>
      f.envelope.fragment < g.envelope.fragment := by
    rw [pairwise_map]
    refine (ordered_keys_toList.imp_of_mem fun {a b} memA memB lt => ?_)
    have numberA := (parts a.1 a.2).mp (mem_toList_iff_getElem?_eq_some.mp memA)
    have numberB := (parts b.1 b.2).mp (mem_toList_iff_getElem?_eq_some.mp memB)
    rw [numberA.2.2, numberB.2.2]
    exact compare_lt_iff_lt.mp lt
  have kept := sorted.filter arrived
  refine List.Perm.eq_of_pairwise (fun a b _ _ lt gt => absurd lt gt.le.not_gt) ordered kept ?_
  have apart {l : List (Record V)}
      (h : l.Pairwise fun f g => f.envelope.fragment < g.envelope.fragment) : l.Nodup :=
    h.imp fun lt eq => absurd lt (by rw [eq]; exact lt_irrefl _)
  refine (perm_ext_iff_of_nodup (apart ordered) (apart kept)).mpr fun p => ?_
  simp only [mem_map, Prod.exists, mem_toList_iff_getElem?_eq_some, parts,
    mem_filter]
  constructor
  · rintro ⟨i, _, ⟨mem, here, -⟩, rfl⟩
    exact ⟨mem, here⟩
  · rintro ⟨mem, here⟩
    exact ⟨_, p, ⟨mem, here, rfl⟩, rfl⟩

/-! ## One fragment -/

theorem Body.tableRows_withRows {body : Body V} (table : body.tableRows.isSome)
    (rows : List (RowChange V)) : (body.withRows rows).tableRows.isNone = false := by
  cases body <;> first | rfl | cases table

section

variable {w f : Record V} {pieces : List (Record V)} {m : BTreeMap ℕ (Record V)}
  {arrived : Record V → Bool}

/-- A new fragment joins the parts that have arrived. -/
theorem Pieces.insert_parts (h : Pieces w pieces) (memF : f ∈ pieces) (new : arrived f = false)
    (parts : ∀ i p, m[i]? = some p ↔ p ∈ pieces ∧ arrived p ∧ p.envelope.fragment = i) (i : ℕ)
    (p : Record V) : (m.insertIfNew f.envelope.fragment f)[i]? = some p ↔
      p ∈ pieces ∧ (p = f ∨ arrived p) ∧ p.envelope.fragment = i := by
  have same_number : ∀ p ∈ pieces, p.envelope.fragment = f.envelope.fragment → p = f := by
    intro p memP number
    refine h.eq_of_key memP memF ?_
    rw [of, of, h.key memP, h.key memF, number, h.fragments memP, h.fragments memF]
  have absent : f.envelope.fragment ∉ m := by
    intro present
    obtain ⟨p, found⟩ := Option.isSome_iff_exists.mp
      (mem_iff_isSome_getElem?.mp present)
    obtain ⟨memP, here, number⟩ := (parts _ p).mp found
    rw [same_number p memP number, new] at here
    cases here
  rw [getElem?_insertIfNew]
  by_cases number : f.envelope.fragment = i
  · subst number
    rw [if_pos ⟨compare_eq_iff_eq.mpr rfl, absent⟩, Option.some.injEq]
    constructor
    · rintro rfl
      exact ⟨memF, .inl rfl, rfl⟩
    · rintro ⟨memP, -, numberP⟩
      exact (same_number p memP numberP).symm
  · rw [if_neg fun both => number (compare_eq_iff_eq.mp both.1), parts]
    refine and_congr_right fun _ => and_congr_left fun numberP => ⟨.inr, fun joined => ?_⟩
    exact joined.resolve_left fun eq => number (eq ▸ numberP)

variable [DecidableEq V]

theorem Reassembler.push_single (s : Reassembler V) (single : f = f.piece 1 1) :
    s.push f = (.ok (some f), s) := by
  rw [single]
  rfl

/-- A new fragment of a record that was cut completes the record, or is kept. -/
theorem Reassembler.push_part (s : Reassembler V) (arrived : Record V → Bool) (h : Pieces w pieces)
    (many : 1 < pieces.length) (memF : f ∈ pieces) (new : arrived f = false)
    (parts : ∀ i p, (s.parts (RecordKey.of w))[i]? = some p ↔
      p ∈ pieces ∧ arrived p ∧ p.envelope.fragment = i) :
    s.push f =
      if ∀ q ∈ pieces, q = f ∨ arrived q then
        (.ok (some w), ⟨Function.update s.parts (RecordKey.of w) ∅⟩)
      else
        (.ok none, ⟨Function.update s.parts (RecordKey.of w)
          ((s.parts (RecordKey.of w)).insertIfNew f.envelope.fragment f)⟩) := by
  obtain ⟨i, _, _, eq⟩ := h.mem memF
  have values := values_eq h.sorted (fun p => p = f ∨ arrived p)
    (by simpa using h.insert_parts memF new parts)
  have size : ((s.parts (RecordKey.of w)).insertIfNew f.envelope.fragment f).size =
      (pieces.filter fun p => p = f ∨ arrived p).length := by
    rw [← values, length_map, length_toList]
  have in_range : (decide (pieces.length = 0) || decide (f.envelope.fragment = 0) ||
      decide (pieces.length < f.envelope.fragment)) = false := by
    simp only [Bool.or_eq_false_iff, decide_eq_false_iff_not]
    omega
  have table : f.body.tableRows.isNone = false := by
    rw [eq]
    exact Body.tableRows_withRows (h.splittable many) _
  have consistent : ((s.parts (RecordKey.of w)).toList.head?.any fun sibling =>
      sibling.2.header ≠ f.header) = false := by
    cases head : (s.parts (RecordKey.of w)).toList.head? with
    | none => rfl
    | some =>
      have found := mem_toList_iff_getElem?_eq_some.mp (mem_of_head? head)
      simp [h.header ((parts _ _).mp found).1, h.header memF]
  unfold Reassembler.push
  simp only [h.fragments memF, in_range, h.key memF, table, consistent, size,
    show pieces.length ≠ 1 by omega, Bool.false_eq_true, if_false]
  by_cases complete : ∀ q ∈ pieces, q = f ∨ arrived q
  · have all_here : (pieces.filter fun p => p = f ∨ arrived p) = pieces :=
      filter_eq_self.mpr fun q mem => decide_eq_true (complete q mem)
    rw [if_pos complete, if_neg (by rw [all_here]; exact not_not.mpr rfl), values, all_here,
      h.assemble_eq]
  · have missing : (pieces.filter fun p => p = f ∨ arrived p).length ≠ pieces.length := by
      rw [ne_eq, length_filter_eq_length_iff]
      simpa using complete
    rw [if_neg complete, if_pos missing]

theorem Consumer.ingest_filed {s : Reassembler V} (new : of f ∉ c.seen)
    (push : c.reassembler.push f = (.ok (some w), s)) :
    c.ingest f = (.ok (), ⟨of f :: c.seen, s, c.records ++ [w]⟩) := by
  rw [Consumer.ingest, if_neg new]
  simp only [push]

theorem Consumer.ingest_kept {s : Reassembler V} (new : of f ∉ c.seen)
    (push : c.reassembler.push f = (.ok none, s)) :
    c.ingest f = (.ok (), ⟨of f :: c.seen, s, c.records⟩) := by
  rw [Consumer.ingest, if_neg new]
  simp only [push]

end

theorem whole_key_of_piece {f q : Record V} (memF : f ∈ (split sizes maxBytes r).wire)
    (memQ : q ∈ (split sizes maxBytes r').wire) (same : of q = of f) :
    RecordKey.of (whole sizes maxBytes r) = RecordKey.of (whole sizes maxBytes r') := by
  rw [← (wire_pieces sizes maxBytes r).key memF, ← (wire_pieces sizes maxBytes r').key memQ]
  exact (congrArg record same).symm

theorem Complete.piece_of_new {seen : List DedupKey} {f : Record V}
    (complete : Complete (of f :: seen) pieces) (before : ¬Complete seen pieces) :
    ∃ q ∈ pieces, of q = of f := by
  simp only [Complete, not_forall] at before
  obtain ⟨q, memQ, missing⟩ := before
  exact ⟨q, memQ, (mem_cons.mp (complete q memQ)).resolve_right missing⟩

namespace Holds

variable {c : Consumer V} {f : Record V}

/-- The parts of a record none of whose fragments has the new key are what they were. -/
theorem keepsParts_of_ne (h : Holds sizes maxBytes collection c) (mem : r ∈ collection)
    (apart : ∀ q ∈ (split sizes maxBytes r).wire, of q ≠ of f)
    {reassembler : Reassembler V}
    (kept : reassembler.parts (RecordKey.of (whole sizes maxBytes r)) =
      c.reassembler.parts (RecordKey.of (whole sizes maxBytes r))) :
    KeepsParts sizes maxBytes r (of f :: c.seen) reassembler := by
  intro many _ p
  have seen_iff : ∀ q ∈ (split sizes maxBytes r).wire,
      (of q ∈ of f :: c.seen ↔ of q ∈ c.seen) := by
    intro q memQ
    rw [mem_cons, or_iff_right (apart q memQ)]
  have complete_iff : Complete (of f :: c.seen) (split sizes maxBytes r).wire ↔
      Complete c.seen (split sizes maxBytes r).wire :=
    forall₂_congr seen_iff
  rw [kept, h.parts r mem many, complete_iff]
  refine and_congr_left fun _ => and_congr_right fun memP => ?_
  rw [seen_iff p memP]

variable (h : Holds sizes maxBytes collection c) (distinct : Distinct collection)
  (mem : r ∈ collection) (memF : f ∈ (split sizes maxBytes r).wire)

include h distinct mem memF

/-- Records other than the one a fragment belongs to keep their parts. -/
theorem keepsParts_update (many : 1 < (split sizes maxBytes r).wire.length)
    {m : BTreeMap ℕ (Record V)}
    (mine : KeepsParts sizes maxBytes r (of f :: c.seen)
      ⟨Function.update c.reassembler.parts (RecordKey.of (whole sizes maxBytes r)) m⟩) :
    ∀ r' ∈ collection, KeepsParts sizes maxBytes r' (of f :: c.seen)
      ⟨Function.update c.reassembler.parts (RecordKey.of (whole sizes maxBytes r)) m⟩ := by
  intro r' mem'
  by_cases same : RecordKey.of (whole sizes maxBytes r) = RecordKey.of (whole sizes maxBytes r')
  · rwa [(distinct.whole_filed mem mem' same).2 many]
  · refine h.keepsParts_of_ne mem' (fun q memQ key => same (whole_key_of_piece memF memQ key)) ?_
    exact Function.update_of_ne (Ne.symm same) _ _

section

variable {reassembler : Reassembler V} (parts : ∀ r ∈ collection,
  KeepsParts sizes maxBytes r (of f :: c.seen) reassembler)

include parts

/-- The last fragment of a record has arrived: the record is filed, and was not before. -/
theorem file (new : of f ∉ c.seen)
    (complete : Complete (of f :: c.seen) (split sizes maxBytes r).wire) :
    Holds sizes maxBytes collection
      ⟨of f :: c.seen, reassembler, c.records ++ [whole sizes maxBytes r]⟩ where
  parts := parts
  records := by
    intro _
    rw [map_append, mem_append, h.records, map_singleton, mem_singleton]
    constructor
    · rintro (⟨r', mem', complete', eq⟩ | eq)
      · exact ⟨r', mem', complete'.mono, eq⟩
      · exact ⟨r, mem, complete, eq⟩
    · rintro ⟨r', mem', complete', eq⟩
      by_cases before : Complete c.seen (split sizes maxBytes r').wire
      · exact .inl ⟨r', mem', before, eq⟩
      · obtain ⟨_, memQ, same⟩ := complete'.piece_of_new before
        have key := whole_key_of_piece memF memQ same
        exact .inr (eq.trans (distinct.whole_filed mem mem' key).1.symm)
  nodup := by
    rw [map_append, map_singleton]
    refine h.nodup.append (nodup_singleton _) ?_
    rw [disjoint_singleton, h.records]
    rintro ⟨r', mem', before, filed⟩
    -- A record filed alike was complete before, and its fragments are those of `r`.
    have key := RecordKey.of_eq_of_filed filed
    have pieces := wire_pieces sizes maxBytes r
    have pieces' := wire_pieces sizes maxBytes r'
    by_cases many : 1 < (split sizes maxBytes r).wire.length
    · rw [(distinct.whole_filed mem mem' key).2 many] at before
      exact new (before f memF)
    · by_cases many' : 1 < (split sizes maxBytes r').wire.length
      · rw [(distinct.whole_filed mem' mem key.symm).2 many'] at many
        exact many many'
      · have one := pieces.eq_singleton many
        have one' := pieces'.eq_singleton many'
        rw [one, mem_singleton] at memF
        refine new ?_
        have seen := before (whole sizes maxBytes r') (by rw [one']; exact mem_singleton.mpr rfl)
        have keys : of f = of (whole sizes maxBytes r') := by
          rw [memF, of, of, key, pieces.single, pieces'.single]
          rfl
        rwa [keys]

/-- A fragment of a record that is still incomplete files nothing. -/
theorem wait (many : 1 < (split sizes maxBytes r).wire.length)
    (incomplete : ¬Complete (of f :: c.seen) (split sizes maxBytes r).wire) :
    Holds sizes maxBytes collection ⟨of f :: c.seen, reassembler, c.records⟩ where
  parts := parts
  records := by
    intro _
    rw [h.records]
    refine exists_congr fun r' => and_congr_right fun mem' => and_congr_left fun _ => ?_
    refine ⟨Complete.mono, fun complete' => ?_⟩
    by_contra before
    obtain ⟨_, memQ, same⟩ := complete'.piece_of_new before
    have eq := (distinct.whole_filed mem mem' (whole_key_of_piece memF memQ same)).2 many
    exact incomplete (eq ▸ complete')
  nodup := h.nodup

end

variable [DecidableEq V]

/-- One fragment: it is accepted, and what is held is again decided by what has been seen. -/
theorem ingest : (c.ingest f).1 = .ok () ∧ Holds sizes maxBytes collection (c.ingest f).2 ∧
      ∀ key, key ∈ (c.ingest f).2.seen ↔ key = of f ∨ key ∈ c.seen := by
  by_cases seen : of f ∈ c.seen
  · have same : c.ingest f = (.ok (), c) := by rw [Consumer.ingest, if_pos seen]
    rw [same]
    exact ⟨rfl, h, fun key => ⟨.inr, fun either => either.elim (fun eq => eq ▸ seen) id⟩⟩
  · have pieces := wire_pieces sizes maxBytes r
    by_cases many : 1 < (split sizes maxBytes r).wire.length
    · have incomplete : ¬Complete c.seen (split sizes maxBytes r).wire :=
        fun complete => seen (complete f memF)
      have parts : ∀ i p, (c.reassembler.parts (RecordKey.of (whole sizes maxBytes r)))[i]? =
          some p ↔ p ∈ (split sizes maxBytes r).wire ∧ decide (of p ∈ c.seen) = true ∧
            p.envelope.fragment = i := by
        intro i p
        rw [h.parts r mem many, and_iff_left incomplete, decide_eq_true_iff]
      have push := c.reassembler.push_part (fun p => decide (of p ∈ c.seen)) pieces many
        memF (decide_eq_false seen) parts
      have complete_iff : (∀ q ∈ (split sizes maxBytes r).wire,
          q = f ∨ decide (of q ∈ c.seen) = true) ↔
          Complete (of f :: c.seen) (split sizes maxBytes r).wire := by
        refine forall₂_congr fun q memQ => ?_
        rw [decide_eq_true_iff, mem_cons]
        exact or_congr_left ⟨fun eq => eq ▸ rfl, fun same => pieces.eq_of_key memQ memF same⟩
      by_cases complete : Complete (of f :: c.seen) (split sizes maxBytes r).wire
      · rw [if_pos (complete_iff.mpr complete)] at push
        rw [Consumer.ingest_filed seen push]
        refine ⟨rfl, h.file distinct mem memF ?_ seen complete, fun key => mem_cons⟩
        refine h.keepsParts_update distinct mem memF many fun _ i p => ?_
        simp [complete]
      · rw [if_neg fun all => complete (complete_iff.mp all)] at push
        rw [Consumer.ingest_kept seen push]
        refine ⟨rfl, h.wait distinct mem memF ?_ many complete, fun key => mem_cons⟩
        refine h.keepsParts_update distinct mem memF many fun _ i p => ?_
        simp only [Function.update_self]
        rw [pieces.insert_parts memF (decide_eq_false seen) parts, and_iff_left complete]
        refine and_congr_right fun memP => and_congr_left fun _ => ?_
        rw [decide_eq_true_iff, mem_cons]
        exact or_congr_left ⟨fun eq => eq ▸ rfl, fun same => pieces.eq_of_key memP memF same⟩
    · have one := pieces.eq_singleton many
      have whole_eq : f = whole sizes maxBytes r := by
        rw [one] at memF
        exact mem_singleton.mp memF
      have single : f = f.piece 1 1 := whole_eq ▸ pieces.single
      rw [Consumer.ingest_filed seen (c.reassembler.push_single single)]
      refine ⟨rfl, ?_, fun key => mem_cons⟩
      have complete : Complete (of f :: c.seen) (split sizes maxBytes r).wire := by
        rw [one, ← whole_eq]
        simp [Complete]
      have filed := h.file distinct mem memF (fun r' mem' many' =>
        h.keepsParts_of_ne mem' (fun q memQ same => ?_) rfl many') seen complete
      · rwa [← whole_eq] at filed
      · -- A fragment of a record that was cut is one of several.
        have number := congrArg fragments same
        rw [single] at number
        have one' : (split sizes maxBytes r').wire.length = 1 :=
          ((wire_pieces sizes maxBytes r').fragments memQ).symm.trans number
        omega

end Holds

/-! ## A whole delivery -/

/-- A delivery of a collection: its fragments, each at least once. -/
def Delivers (sizes : Sizes V) (maxBytes : ℕ) (collection delivery : List (Record V)) : Prop :=
  ∀ f, f ∈ delivery ↔ ∃ r ∈ collection, f ∈ (split sizes maxBytes r).wire

theorem delivers_flatMap (sizes : Sizes V) (maxBytes : ℕ) (collection : List (Record V)) :
    Delivers sizes maxBytes collection
      (collection.flatMap fun r => (split sizes maxBytes r).wire) :=
  fun _ => mem_flatMap

theorem holds_empty (sizes : Sizes V) (maxBytes : ℕ) (collection : List (Record V)) :
    Holds sizes maxBytes collection {} where
  parts := by simp [KeepsParts]
  records := by
    intro _
    simp only [map_nil, not_mem_nil, false_iff]
    rintro ⟨r, -, complete, -⟩
    obtain ⟨f, memF⟩ := exists_mem_of_ne_nil _ (wire_pieces sizes maxBytes r).nonempty
    exact not_mem_nil (complete f memF)
  nodup := nodup_nil

variable [DecidableEq V]

theorem Holds.ingestAll (h : Holds sizes maxBytes collection c) (distinct : Distinct collection)
    {delivery : List (Record V)}
    (mem : ∀ f ∈ delivery, ∃ r ∈ collection, f ∈ (split sizes maxBytes r).wire) :
    (c.ingestAll delivery).1 = .ok () ∧ Holds sizes maxBytes collection (c.ingestAll delivery).2 ∧
      ∀ key, key ∈ (c.ingestAll delivery).2.seen ↔
        key ∈ delivery.map of ∨ key ∈ c.seen := by
  induction delivery generalizing c with
  | nil => exact ⟨rfl, h, by simp [Consumer.ingestAll]⟩
  | cons f delivery ih =>
    obtain ⟨r, memR, memF⟩ := mem f mem_cons_self
    obtain ⟨accepted, holds, seen⟩ := h.ingest distinct memR memF
    have rest := ih holds fun g memG => mem g (mem_cons_of_mem _ memG)
    have step : c.ingestAll (f :: delivery) = (c.ingest f).2.ingestAll delivery := by
      rw [Consumer.ingestAll, show c.ingest f = (.ok (), (c.ingest f).2) from Prod.ext accepted rfl]
    rw [step]
    refine ⟨rest.1, rest.2.1, fun key => ?_⟩
    rw [rest.2.2, seen, map_cons, mem_cons]
    tauto

/-- A delivery is accepted, and leaves each record of the collection filed once. -/
theorem Delivers.filed {delivery : List (Record V)}
    (delivers : Delivers sizes maxBytes collection delivery) (distinct : Distinct collection) :
    ((({} : Consumer V).ingestAll delivery).1 = .ok ()) ∧
      ((({} : Consumer V).ingestAll delivery).2.records.map filed).Nodup ∧
      ∀ x, x ∈ (({} : Consumer V).ingestAll delivery).2.records.map filed ↔
        x ∈ (collection.map (whole sizes maxBytes)).map filed := by
  obtain ⟨accepted, holds, seen⟩ := (holds_empty sizes maxBytes collection).ingestAll distinct
    fun f mem => (delivers f).mp mem
  refine ⟨accepted, holds.nodup, fun x => ?_⟩
  have complete : ∀ r ∈ collection, Complete
      (({} : Consumer V).ingestAll delivery).2.seen (split sizes maxBytes r).wire := by
    intro r mem q memQ
    exact (seen _).mpr (.inl (mem_map_of_mem ((delivers q).mpr ⟨r, mem, memQ⟩)))
  rw [holds.records, List.map_map, mem_map]
  constructor
  · rintro ⟨r, mem, -, eq⟩
    exact ⟨r, mem, eq.symm⟩
  · rintro ⟨r, mem, eq⟩
    exact ⟨r, mem, complete r mem, eq.symm⟩

end

end Celld.Export
