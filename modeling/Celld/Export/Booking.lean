import Celld.Export.Exporter

/-!
# What a process has registered, taken and settled

The bookkeeping of the exporter over every run: what is registered is open until it is settled or
withdrawn, the sink takes and reports a stream's records in their order, and a stream's positions
rise with its numbers.
-/

namespace Celld.Export

open Function List Option Std.ExtTreeMap

section

variable {V : Type} {entries : List (Record V × Record V × Submitted)} {batch : List (Queued V)}
  {q : Queued V} {seq : ℕ} {c : Option Position}

/-! ## Numbered batches -/

theorem mem_numbered (mem : q ∈ numbered seq entries) :
    seq ≤ q.seq ∧ q.seq < seq + entries.length ∧ (q.record, q.source, q.info) ∈ entries := by
  obtain ⟨_, lt, rfl⟩ := mem_mapIdx.mp mem
  exact ⟨Nat.le_add_right _ _, Nat.add_lt_add_left lt _, getElem_mem lt⟩

theorem numbered_sorted (seq : ℕ) (entries : List (Record V × Record V × Submitted)) :
    (numbered seq entries).Pairwise fun q q' => q.seq < q'.seq := by
  refine pairwise_iff_getElem.mpr fun i j hi hj lt => ?_
  simp only [numbered, getElem_mapIdx]
  exact Nat.add_lt_add_left lt _

theorem numbered_infos (seq : ℕ) (entries : List (Record V × Record V × Submitted)) :
    (numbered seq entries).map (·.info) = entries.map (·.2.2) := by
  refine ext_getElem (by simp [numbered]) fun i _ _ => ?_
  simp [numbered]

/-- What is registered once a batch is: its entries, and what was before. -/
theorem foldl_insert_iff (sorted : batch.Pairwise fun q q' => q.seq < q'.seq)
    {submitted : BTreeMap ℕ Submitted} (apart : ∀ q ∈ batch, submitted[q.seq]? = none) (seq : ℕ)
    (m : Submitted) :
    (batch.foldl (fun submitted q => submitted.insert q.seq q.info) submitted)[seq]? = some m ↔
      (∃ q ∈ batch, q.seq = seq ∧ q.info = m) ∨ submitted[seq]? = some m := by
  induction batch generalizing submitted with
  | nil => simp
  | cons q batch ih =>
    obtain ⟨later, sorted⟩ := pairwise_cons.mp sorted
    rw [foldl_cons, ih sorted]
    · rw [Std.ExtTreeMap.getElem?_insert]
      by_cases same : q.seq = seq
      · subst same
        simp [apart q mem_cons_self, or_comm]
      · simp [same]
    · intro q' mem
      rw [Std.ExtTreeMap.getElem?_insert, if_neg fun same =>
        (later q' mem).ne (compare_eq_iff_eq.mp same)]
      exact apart q' (mem_cons_of_mem _ mem)

theorem foldl_erase_some {α : Type} {key : α → ℕ} {batch : List α} {table : BTreeMap ℕ Submitted}
    {m : Submitted}
    (kept : (batch.foldl (fun table a => table.erase (key a)) table)[seq]? = some m) :
    table[seq]? = some m := by
  induction batch generalizing table with
  | nil => exact kept
  | cons a batch ih =>
    have kept := ih kept
    rw [getElem?_erase] at kept
    split_ifs at kept
    exact kept

/-! ## The discipline of a stream -/

/-- The positions of a stream rise with its numbers, strictly where a commit ends. -/
def Rises (m m' : Submitted) : Prop :=
  m.position ≤ m'.position ∧ (m.closes → m.position < m'.position)

/-- What a stream adds to what it submitted, `c` and `c'` being its cursor before and after. -/
structure Extends (c c' : Option Position) (added : List Submitted) : Prop where
  rises : added.Pairwise Rises
  above : ∀ m ∈ added, ∀ top ∈ c, top < m.position
  under : ∀ m ∈ added, ∃ top ∈ c', m.position ≤ top
  whole : ∀ m ∈ added, ∃ m' ∈ added, m'.position = m.position ∧ m'.whole
  grows : ∀ top ∈ c, ∃ top' ∈ c', top ≤ top'

theorem Extends.nil (c : Option Position) : Extends c c [] :=
  ⟨List.Pairwise.nil, by simp, by simp, by simp, fun top mem => ⟨top, mem, le_rfl⟩⟩

theorem Extends.append {c' c'' : Option Position} {added added' : List Submitted}
    (first : Extends c c' added) (second : Extends c' c'' added') :
    Extends c c'' (added ++ added') where
  rises := by
    refine pairwise_append.mpr ⟨first.rises, second.rises, fun m mem m' mem' => ?_⟩
    obtain ⟨top, here, le⟩ := first.under m mem
    have lt := le.trans_lt (second.above m' mem' top here)
    exact ⟨lt.le, fun _ => lt⟩
  above := by
    intro m mem top here
    rcases mem_append.mp mem with mem | mem
    · exact first.above m mem top here
    · obtain ⟨top', here', le⟩ := first.grows top here
      exact le.trans_lt (second.above m mem top' here')
  under := by
    intro m mem
    rcases mem_append.mp mem with mem | mem
    · obtain ⟨top, here, le⟩ := first.under m mem
      obtain ⟨top', here', le'⟩ := second.grows top here
      exact ⟨top', here', le.trans le'⟩
    · exact second.under m mem
  whole := by
    intro m mem
    rcases mem_append.mp mem with mem | mem
    · obtain ⟨m', mem', at_⟩ := first.whole m mem
      exact ⟨m', mem_append_left _ mem', at_⟩
    · obtain ⟨m', mem', at_⟩ := second.whole m mem
      exact ⟨m', mem_append_right _ mem', at_⟩
  grows := by
    intro top here
    obtain ⟨top', here', le⟩ := first.grows top here
    obtain ⟨top'', here'', le'⟩ := second.grows top' here'
    exact ⟨top'', here'', le.trans le'⟩

variable {sizes : Sizes V} {maxRecord : ℕ} {key : DeliveryKey} {stream : StreamId}
  {cellName : Option String} {groups : List (List (Record V))}

theorem position_whole (r : Record V) : (whole sizes maxRecord r).position = r.position := by
  rw [whole]
  split
  case h_1 => rfl
  case h_2 marker cut =>
    simp only [split] at cut
    split at cut
    · cases cut
    · split_ifs at cut
      split at cut <;> cases cut
      rfl

theorem position_wire {r piece : Record V} (mem : piece ∈ (split sizes maxRecord r).wire) :
    piece.position = r.position := by
  obtain ⟨_, -, -, eq⟩ := (wire_pieces sizes maxRecord r).mem mem
  rw [eq]
  exact position_whole r

/-- The pieces of one commit are at its position, and the last one closes it. -/
theorem groupEntries_extends {group : List (Record V)} {p : Position} (nonempty : group ≠ [])
    (at_ : ∀ r ∈ group, r.position = p) (above : ∀ top ∈ c, top < p) :
    Extends c (some p)
      ((groupEntries sizes maxRecord key stream cellName group).map (·.2.2)) := by
  set pieces := group.flatMap fun r =>
    (split sizes maxRecord r).wire.map fun piece => (piece, whole sizes maxRecord r) with pieces_def
  have at_p : ∀ piece ∈ pieces, piece.1.position = p := by
    intro piece mem
    obtain ⟨r, memR, mem⟩ := mem_flatMap.mp mem
    obtain ⟨_, memP, rfl⟩ := mem_map.mp mem
    exact (position_wire memP).trans (at_ r memR)
  have infos : ∀ m ∈ (groupEntries sizes maxRecord key stream cellName group).map (·.2.2),
      m.position = p := by
    intro m mem
    obtain ⟨_, memE, rfl⟩ := mem_map.mp mem
    obtain ⟨i, lt, rfl⟩ := mem_mapIdx.mp memE
    exact at_p _ (getElem_mem lt)
  refine ⟨?_, fun m mem top here => infos m mem ▸ above top here,
    fun m mem => ⟨p, rfl, (infos m mem).le⟩, fun m mem => ?_,
    fun top here => ⟨p, rfl, (above top here).le⟩⟩
  · refine pairwise_iff_getElem.mpr fun i j hi hj lt => ?_
    have same := (infos _ (getElem_mem hi)).trans (infos _ (getElem_mem hj)).symm
    refine ⟨same.le, fun closes => ?_⟩
    -- Only the last piece closes, and `i` has one after it.
    simp only [groupEntries, getElem_map, getElem_mapIdx, decide_eq_true_eq,
      ← pieces_def] at closes
    simp only [groupEntries, length_map, length_mapIdx, ← pieces_def] at hj
    omega
  · obtain ⟨r, memR⟩ := exists_mem_of_ne_nil _ nonempty
    have cut := wire_pieces sizes maxRecord r
    obtain ⟨last, lastMem⟩ : ∃ i, i + 1 = (split sizes maxRecord r).wire.length :=
      ⟨_, Nat.succ_pred_eq_of_pos (length_pos_iff.mpr cut.nonempty)⟩
    have lt : last < (split sizes maxRecord r).wire.length := by omega
    have number : ((split sizes maxRecord r).wire[last]).envelope.fragment =
        ((split sizes maxRecord r).wire[last]).envelope.fragments := by
      rw [cut.fragments (getElem_mem lt), ← lastMem, cut.numbered last lt]
      rfl
    have memPiece : ((split sizes maxRecord r).wire[last], whole sizes maxRecord r) ∈ pieces :=
      mem_flatMap.mpr ⟨r, memR, mem_map_of_mem (getElem_mem lt)⟩
    obtain ⟨i, hi, eq⟩ := getElem_of_mem memPiece
    refine ⟨_, mem_map_of_mem (mem_mapIdx.mpr ⟨i, hi, rfl⟩), ?_⟩
    simp only [← pieces_def, eq, number, decide_true, and_true]
    rw [infos m mem]
    exact at_p _ memPiece

theorem Exporter.Ascends.extends (ascends : Exporter.Ascends key stream c groups) :
    Extends c (groups.foldl (fun cursor group => (group.head?.map (·.position)).or cursor) c)
      ((groups.flatMap (groupEntries sizes maxRecord key stream cellName)).map (·.2.2)) := by
  induction groups generalizing c with
  | nil => exact Extends.nil c
  | cons group groups ih =>
    cases group with
    | nil => exact ascends.elim
    | cons =>
      obtain ⟨at_, -, above, ascends⟩ := ascends
      rw [flatMap_cons, map_append, foldl_cons]
      refine Extends.append (groupEntries_extends (cons_ne_nil _ _)
        (fun r' mem => (at_ r' mem).1) fun top here => ?_) (ih ascends)
      rw [mem_def.mp here] at above
      exact of_decide_eq_true above

namespace Exporter

variable {x : Exporter V} {who : Submitter} {followUp : List (Record V × Submitted)}
  {dirty : BTreeSet DeliveryKey}

/-! ## The invariant -/

structure Booked (x : Exporter V) : Prop where
  sorted : x.log.Pairwise fun q q' => q.seq < q'.seq
  below : ∀ q ∈ x.log, q.seq < x.nextSeq
  registered : ∀ seq m, x.submitted[seq]? = some m → ∃ q ∈ x.log, q.seq = seq ∧ q.info = m
  /-- What was registered is open until it is settled, or the sink has refused a batch. -/
  opens : ∀ q ∈ x.log, x.submitted[q.seq]? = some q.info ∨ q.seq ∈ x.handled.map (·.1) ∨ x.closed
  refused : ∀ who batch, x.flight who = .refused batch → x.closed
  flights : ∀ who batch, x.flight who = .registered batch →
    ∀ q ∈ batch, q ∈ x.log ∧ (∀ key, isOwn key q → who = .stream key) ∧
      (q.info.watermark → who = .delivery)
  taken : ∀ key, ∀ q ∈ x.own key, q ∈ x.accepted ∨
    (∃ batch, x.flight (.stream key) = .registered batch ∧ q ∈ batch) ∨ x.closed
  logged : ∀ q ∈ x.accepted, q ∈ x.log
  /-- The sink took a stream's records in their order. -/
  inOrder : ∀ key, ∀ q ∈ x.accepted, isOwn key q → ∀ q' ∈ x.own key, q'.seq < q.seq →
    q' ∈ x.accepted
  /-- The sink reported what it took once, a stream's records in their order. -/
  reports : ∀ before seq result after, x.handled ++ x.pending = before ++ (seq, result) :: after →
    seq ∉ before.map (·.1) ∧ (∃ q ∈ x.accepted, q.seq = seq) ∧
      ∀ key, ∀ q ∈ x.own key, q.seq = seq → ∀ q' ∈ x.own key, q'.seq < seq →
        q'.seq ∈ before.map (·.1)
  rises : ∀ key, ((x.own key).map (·.info)).Pairwise Rises
  under : ∀ key, ∀ q ∈ x.own key, ∃ top ∈ x.cursor key, q.info.position ≤ top
  whole : ∀ key, ∀ q ∈ x.own key,
    ∃ q' ∈ x.own key, q'.info.position = q.info.position ∧ q'.info.whole
  /-- An advance lies between what its stream submitted before and after it. -/
  advances : ∀ seq m, x.advances[seq]? = some m → seq < x.nextSeq ∧
    (∃ top ∈ x.cursor m.key, m.position ≤ top) ∧
      ∀ q ∈ x.own m.key, (q.seq < seq → q.info.position ≤ m.position) ∧
        (seq < q.seq → m.position < q.info.position)
  follow : ∀ r ∈ x.followUps, r.2.watermark

theorem booked_start : Booked ({} : Exporter V) := by
  constructor <;> simp [own, pending, followUps]

/-- A record is known by its number. -/
theorem Booked.eq_of_seq (h : Booked x) {q' : Queued V} (mem : q ∈ x.log) (mem' : q' ∈ x.log)
    (same : q.seq = q'.seq) : q = q' := by
  have nodup : (x.log.map (·.seq)).Nodup := pairwise_map.mpr (h.sorted.imp ne_of_lt)
  exact inj_on_of_nodup_map nodup mem mem' same

theorem mem_own : q ∈ x.own key ↔ q ∈ x.log ∧ isOwn key q := mem_filter

theorem Booked.rises_of_lt (h : Booked x) {q' : Queued V} (mem : q ∈ x.own key)
    (mem' : q' ∈ x.own key) (lt : q.seq < q'.seq) : Rises q.info q'.info := by
  have sorted : (x.own key).Pairwise fun q q' => q.seq < q'.seq := h.sorted.filter _
  have rises : (x.own key).Pairwise fun q q' => q.seq < q'.seq → Rises q.info q'.info :=
    (pairwise_map.mp (h.rises key)).imp (by exact fun rises _ => rises)
  exact rises.forall_of_forall_of_flip (fun _ _ lt => absurd lt (lt_irrefl _))
    (sorted.imp fun before lt => absurd lt before.not_gt) mem mem' lt

/-! ## Registering -/

theorem Booked.withCursor (h : Booked x) {cursor : DeliveryKey → Option Position}
    (grows : ∀ key, ∀ top ∈ x.cursor key, ∃ top' ∈ cursor key, top ≤ top') :
    Booked { x with cursor := cursor } :=
  { h with
    under := by
      intro key q mem
      obtain ⟨top, here, le⟩ := h.under key q mem
      obtain ⟨top', here', le'⟩ := grows key top here
      exact ⟨top', here', le.trans le'⟩
    advances := by
      intro seq m pending
      obtain ⟨lt, ⟨top, here, le⟩, between⟩ := h.advances seq m pending
      obtain ⟨top', here', le'⟩ := grows m.key top here
      exact ⟨lt, ⟨top', here', le.trans le'⟩, between⟩ }

/-- A batch that belongs to whom it is registered for, and extends the streams it adds to. -/
theorem Booked.register (h : Booked x) (idle : x.flight who = .idle)
    {cursor : DeliveryKey → Option Position} (owner : ∀ q ∈ numbered x.nextSeq entries,
      (∀ key, isOwn key q → who = .stream key) ∧ (q.info.watermark → who = .delivery))
    (extend : ∀ key, Extends (x.cursor key) (cursor key)
      (((numbered x.nextSeq entries).filter (isOwn key)).map (·.info))) :
    Booked { x.register who entries with cursor := cursor } := by
  by_cases none_new : entries.isEmpty = true
  · rw [Exporter.register, if_pos none_new]
    exact h.withCursor fun key => (extend key).grows
  rw [Exporter.register, if_neg none_new]
  set batch := numbered x.nextSeq entries with batch_def
  have later : ∀ q ∈ batch, x.nextSeq ≤ q.seq := fun q mem => (mem_numbered mem).1
  have own_eq : ∀ key, (x.log ++ batch).filter (isOwn key) =
      x.own key ++ batch.filter (isOwn key) := fun key => filter_append ..
  have own_cases : ∀ {key q}, q ∈ (x.log ++ batch).filter (isOwn key) →
      q ∈ x.own key ∨ q ∈ batch.filter (isOwn key) := fun mem =>
    mem_append.mp ((own_eq _) ▸ mem)
  have mem_own' : ∀ {key q}, q ∈ (x.log ++ batch).filter (isOwn key) → q.seq < x.nextSeq →
      q ∈ x.own key := by
    intro key q mem lt
    exact (own_cases mem).resolve_right fun new =>
      (later q (mem_filter.mp new).1).not_gt lt
  have mem_new : ∀ {key q}, q ∈ batch.filter (isOwn key) →
      q.info ∈ (batch.filter (isOwn key)).map (·.info) := fun mem => mem_map_of_mem mem
  have submitted_iff := foldl_insert_iff (numbered_sorted x.nextSeq entries)
    (show ∀ q ∈ numbered x.nextSeq entries, x.submitted[q.seq]? = none from fun q mem =>
      eq_none_iff_forall_ne_some.mpr fun m found => by
        obtain ⟨q', memQ, same, -⟩ := h.registered _ m found
        have := h.below q' memQ
        have := (mem_numbered mem).1
        omega)
  constructor
  case sorted =>
    refine pairwise_append.mpr ⟨h.sorted, numbered_sorted _ _, fun q mem q' mem' => ?_⟩
    exact (h.below q mem).trans_le (later q' mem')
  case below =>
    intro q mem
    rcases mem_append.mp mem with old | new
    · exact (h.below q old).trans_le (Nat.le_add_right _ _)
    · exact (mem_numbered new).2.1
  case registered =>
    intro seq m found
    rcases (submitted_iff seq m).mp found with ⟨q, mem, at_⟩ | old
    · exact ⟨q, mem_append_right _ mem, at_⟩
    · obtain ⟨q, mem, at_⟩ := h.registered seq m old
      exact ⟨q, mem_append_left _ mem, at_⟩
  case opens =>
    intro q mem
    rcases mem_append.mp mem with old | new
    · exact (h.opens q old).imp_left fun found => (submitted_iff _ _).mpr (.inr found)
    · exact .inl ((submitted_iff _ _).mpr (.inl ⟨q, new, rfl, rfl⟩))
  case refused =>
    intro who' batch' found
    change update x.flight who (.registered batch) who' = _ at found
    by_cases mine : who' = who
    · rw [mine, update_self] at found
      cases found
    · rw [update_of_ne mine] at found
      exact h.refused who' batch' found
  case flights =>
    intro who' batch' found q mem
    change update x.flight who (.registered batch) who' = _ at found
    by_cases mine : who' = who
    · rw [mine, update_self] at found
      cases found
      exact ⟨mem_append_right _ mem, mine ▸ owner q mem⟩
    · rw [update_of_ne mine] at found
      obtain ⟨logged, theirs⟩ := h.flights who' batch' found q mem
      exact ⟨mem_append_left _ logged, theirs⟩
  case taken =>
    intro key q mem
    change _ ∨ (∃ batch', update x.flight who (.registered batch) (.stream key) = _ ∧ _) ∨ _
    rcases own_cases mem with old | new
    · refine (h.taken key q old).imp_right (Or.imp_left fun ⟨batch', found, memB⟩ => ?_)
      have other : Submitter.stream key ≠ who := by
        rintro rfl
        rw [idle] at found
        cases found
      exact ⟨batch', by rwa [update_of_ne other], memB⟩
    · obtain ⟨memB, own⟩ := mem_filter.mp new
      refine .inr (.inl ⟨batch, ?_, memB⟩)
      rw [(owner q memB).1 key own, update_self]
  case logged => exact fun q mem => mem_append_left _ (h.logged q mem)
  case inOrder =>
    intro key q mem own q' mem' lt
    exact h.inOrder key q mem own q' (mem_own' mem' (lt.trans (h.below q (h.logged q mem)))) lt
  case reports =>
    intro before seq result after eq
    obtain ⟨fresh, ⟨q₀, mem₀, at_⟩, ordered⟩ := h.reports before seq result after eq
    have lt : seq < x.nextSeq := at_ ▸ h.below q₀ (h.logged q₀ mem₀)
    refine ⟨fresh, ⟨q₀, mem₀, at_⟩, fun key q mem same q' mem' lt' => ?_⟩
    exact ordered key q (mem_own' mem (same ▸ lt)) same q' (mem_own' mem' (lt'.trans lt)) lt'
  case rises =>
    intro key
    rw [own, own_eq, map_append]
    refine pairwise_append.mpr ⟨h.rises key, (extend key).rises, fun m mem m' mem' => ?_⟩
    obtain ⟨q, memQ, rfl⟩ := mem_map.mp mem
    obtain ⟨top, here, le⟩ := h.under key q memQ
    have lt := le.trans_lt ((extend key).above m' mem' top here)
    exact ⟨lt.le, fun _ => lt⟩
  case under =>
    intro key q mem
    rcases own_cases mem with old | new
    · obtain ⟨top, here, le⟩ := h.under key q old
      obtain ⟨top', here', le'⟩ := (extend key).grows top here
      exact ⟨top', here', le.trans le'⟩
    · exact (extend key).under q.info (mem_new new)
  case whole =>
    intro key q mem
    rw [own, own_eq]
    rcases own_cases mem with old | new
    · obtain ⟨q', mem', at_⟩ := h.whole key q old
      exact ⟨q', mem_append_left _ mem', at_⟩
    · obtain ⟨m', mem', at_⟩ := (extend key).whole q.info (mem_new new)
      obtain ⟨q', memQ, rfl⟩ := mem_map.mp mem'
      exact ⟨q', mem_append_right _ memQ, at_⟩
  case advances =>
    intro seq m pending
    obtain ⟨lt, ⟨top, here, le⟩, between⟩ := h.advances seq m pending
    obtain ⟨top', here', le'⟩ := (extend m.key).grows top here
    refine ⟨lt.trans_le (Nat.le_add_right _ _), ⟨top', here', le.trans le'⟩, fun q mem => ?_⟩
    rcases own_cases mem with old | new
    · exact between q old
    · have after := later q (mem_filter.mp new).1
      refine ⟨fun before => absurd before (by omega), fun _ => ?_⟩
      exact le.trans_lt ((extend m.key).above q.info (mem_new new) top here)
  case follow => exact h.follow

/-! ## The sink -/

theorem flight_of_update {flights : Submitter → Flight V} {who' : Submitter} {now found : Flight V}
    (at_ : update flights who now who' = found) (other : now ≠ found) : flights who' = found := by
  by_cases mine : who' = who
  · rw [mine, update_self] at at_
    exact absurd at_ other
  · rwa [update_of_ne mine] at at_

theorem Booked.take (h : Booked x) (flying : x.flight who = .registered batch)
    (takes : x.closed = false) :
    Booked { x with
      accepted := x.accepted ++ batch
      flight := update x.flight who .idle } :=
  { h with
    refused := fun who' batch' found => h.refused who' batch' (flight_of_update found (by simp))
    flights := fun who' batch' found => h.flights who' batch' (flight_of_update found (by simp))
    taken := by
      intro key q mem
      change _ ∨ (∃ batch', update x.flight who .idle (.stream key) = _ ∧ _) ∨ _
      rcases h.taken key q mem with accepted | ⟨batch', found, memB⟩ | closed
      · exact .inl (mem_append_left _ accepted)
      · by_cases mine : Submitter.stream key = who
        · rw [mine, flying] at found
          cases found
          exact .inl (mem_append_right _ memB)
        · exact .inr (.inl ⟨batch', by rwa [update_of_ne mine], memB⟩)
      · exact .inr (.inr closed)
    logged := by
      intro q mem
      rcases mem_append.mp mem with old | new
      · exact h.logged q old
      · exact (h.flights who batch flying q new).1
    inOrder := by
      intro key q mem own q' mem' lt
      rcases mem_append.mp mem with old | new
      · exact mem_append_left _ (h.inOrder key q old own q' mem' lt)
      · have mine := (h.flights who batch flying q new).2.1 key own
        subst mine
        -- The stream has one batch in flight: the rest it submitted was taken before.
        rcases h.taken key q' mem' with accepted | ⟨batch', found, memB⟩ | closed
        · exact mem_append_left _ accepted
        · rw [flying] at found
          cases found
          exact mem_append_right _ memB
        · rw [takes] at closed
          cases closed
    reports := by
      intro before seq result after eq
      obtain ⟨fresh, ⟨q, mem, at_⟩, ordered⟩ := h.reports before seq result after eq
      exact ⟨fresh, ⟨q, mem_append_left _ mem, at_⟩, ordered⟩ }

theorem Booked.refuse (h : Booked x) :
    Booked { x with
      closed := true
      flight := update x.flight who (.refused batch) } :=
  { h with
    opens := fun _ _ => .inr (.inr rfl)
    refused := fun _ _ _ => rfl
    flights := fun who' batch' found => h.flights who' batch' (flight_of_update found (by simp))
    taken := fun _ _ _ => .inr (.inr rfl) }

theorem Booked.withdraw (h : Booked x) (flying : x.flight who = .refused batch) :
    Booked { x with
      submitted := batch.foldl (fun submitted q => submitted.erase q.seq) x.submitted
      flight := update x.flight who .idle } :=
  have closed := h.refused who batch flying
  { h with
    registered := fun seq m found => h.registered seq m (foldl_erase_some found)
    opens := fun _ _ => .inr (.inr closed)
    refused := fun _ _ _ => closed
    flights := fun who' batch' found => h.flights who' batch' (flight_of_update found (by simp))
    taken := fun _ _ _ => .inr (.inr closed) }

/-- What the sink reports joins what it has reported. -/
theorem Booked.report (h : Booked x) {results : List (ℕ × SinkDelivery)}
    (legal : x.Legal (.report results)) : Booked { x with outcomes := x.outcomes ++ [results] } :=
  { h with
    reports := by
      intro before seq result after eq
      have reported : x.handled ++ x.pending ++ results = before ++ (seq, result) :: after := by
        rw [← eq]
        simp [pending]
      have split : (∃ more, before = x.handled ++ x.pending ++ more ∧
          results = more ++ (seq, result) :: after) ∨
            ∃ more, x.handled ++ x.pending = before ++ (seq, result) :: more := by
        rcases append_eq_append_iff.mp reported with new | ⟨_ | ⟨_, more⟩, eq', split⟩
        · exact .inl new
        · exact .inl ⟨[], by simpa using eq'.symm, split.symm⟩
        · obtain ⟨rfl, -⟩ := List.cons.inj split
          exact .inr ⟨more, eq'⟩
      rcases split with ⟨more, rfl, split⟩ | ⟨more, eq'⟩
      · obtain ⟨fresh, ⟨q, mem, at_, ordered⟩⟩ := legal more seq result after split
        refine ⟨fresh, ⟨q, mem, at_⟩, fun key q' mem' same q'' mem'' lt => ?_⟩
        obtain rfl := h.eq_of_seq (h.logged q mem) (mem_own.mp mem').1 (at_.trans same.symm)
        have own := (mem_own.mp mem').2
        have taken := h.inOrder key q mem own q'' mem'' (at_ ▸ lt)
        exact ordered key own q'' taken (mem_own.mp mem'').2 lt
      · exact h.reports before seq result more eq' }

/-! ## The delivery task -/

theorem Booked.advance (h : Booked x) {m : Submitted} (legal : x.Legal (.advance m)) :
    Booked { x with
      nextSeq := x.nextSeq + 1
      advances := x.advances.insert x.nextSeq m
      outcomes := x.outcomes ++ [[]]
      cursor := update x.cursor m.key (some m.position) } := by
  have top_le : ∀ top ∈ x.cursor m.key, top ≤ m.position := by
    intro top here
    have le := legal.2.1
    rw [mem_def.mp here] at le
    exact of_decide_eq_true le
  have grows : ∀ key, ∀ top ∈ x.cursor key,
      ∃ top' ∈ update x.cursor m.key (some m.position) key, top ≤ top' := by
    intro key top here
    by_cases mine : key = m.key
    · subst mine
      exact ⟨m.position, by simp, top_le top here⟩
    · exact ⟨top, by rwa [update_of_ne mine], le_rfl⟩
  have moved := h.withCursor grows
  exact
    { moved with
      below := fun q mem => (h.below q mem).trans (lt_add_one _)
      reports := by
        intro before seq result after eq
        refine moved.reports before seq result after ?_
        rw [← eq]
        simp [pending]
      advances := by
        intro seq m' found
        change (x.advances.insert x.nextSeq m)[seq]? = some m' at found
        rw [Std.ExtTreeMap.getElem?_insert] at found
        split_ifs at found with now
        · obtain rfl := compare_eq_iff_eq.mp now
          cases found
          refine ⟨lt_add_one _, ⟨m.position, by simp, le_rfl⟩, fun q mem => ?_⟩
          refine ⟨fun _ => ?_, fun after => absurd (h.below q (mem_own.mp mem).1) after.not_gt⟩
          obtain ⟨top, here, le⟩ := h.under m.key q mem
          exact le.trans (top_le top here)
        · obtain ⟨lt, rest⟩ := moved.advances seq m' found
          exact ⟨lt.trans (lt_add_one _), rest⟩ }

theorem Booked.receive (h : Booked x) (idle : x.task = .idle)
    {outcome : List (ℕ × SinkDelivery)} {outcomes : List (List (ℕ × SinkDelivery))}
    (next : x.outcomes = outcome :: outcomes) :
    Booked { x with task := .results outcome ∅ [], outcomes := outcomes } :=
  { h with
    reports := by
      intro before seq result after eq
      refine h.reports before seq result after ?_
      rw [← eq]
      simp [pending, idle, next]
    follow := by simp [followUps] }

/-- A result is settled; its record is no longer open. -/
theorem Booked.settle (h : Booked x) {result : SinkDelivery} {rest : List (ℕ × SinkDelivery)}
    {dirty' : BTreeSet DeliveryKey} {followUp' : List (Record V × Submitted)}
    (task : x.task = .results ((seq, result) :: rest) dirty followUp)
    (follow : ∀ r ∈ followUp', r.2.watermark) (streams : DeliveryStates) :
    Booked { x with
      handled := x.handled ++ [(seq, result)]
      submitted := x.submitted.erase seq
      streams := streams
      task := .results rest dirty' followUp' } :=
  { h with
    registered := by
      intro seq' m found
      change (x.submitted.erase seq)[seq']? = some m at found
      rw [getElem?_erase] at found
      split_ifs at found
      exact h.registered seq' m found
    opens := by
      intro q mem
      change (x.submitted.erase seq)[q.seq]? = _ ∨ q.seq ∈ (x.handled ++ [(seq, result)]).map _ ∨ _
      by_cases settled : seq = q.seq
      · exact .inr (.inl (by simp [settled]))
      · refine (h.opens q mem).imp (fun found => ?_) (Or.imp_left fun mem' => ?_)
        · rwa [getElem?_erase, if_neg fun same =>
            settled (compare_eq_iff_eq.mp same)]
        · rw [map_append]
          exact mem_append_left _ mem'
    reports := by
      intro before seq' result' after eq
      refine h.reports before seq' result' after ?_
      rw [← eq]
      simp [pending, task]
    follow := follow }

theorem Booked.settleResult (h : Booked x) {result : SinkDelivery} {rest : List (ℕ × SinkDelivery)}
    (task : x.task = .results ((seq, result) :: rest) dirty followUp) :
    Booked (x.settleResult seq result rest dirty followUp) := by
  have follow : ∀ r ∈ followUp, r.2.watermark := by
    have all := h.follow
    rwa [followUps, task] at all
  unfold Exporter.settleResult
  split
  · exact h.settle task follow x.streams
  · split_ifs
    · exact h.settle task follow x.streams
    · refine h.settle task (fun r mem => ?_) _
      rcases mem_append.mp mem with old | new
      · exact follow r old
      · obtain ⟨_, -, rfl⟩ := map_eq_some_iff.mp (mem_toList.mp new)
        rfl

theorem markAll_watermark (keys : List DeliveryKey)
    (streams : DeliveryStates) :
    ∀ r ∈ (markAll (V := V) streams keys).1, r.2.watermark := by
  induction keys generalizing streams with
  | nil => simp [markAll]
  | cons key keys ih =>
    intro r mem
    rw [markAll] at mem
    rcases mem_append.mp mem with mine | later
    · obtain ⟨_, -, rfl⟩ := map_eq_some_iff.mp (mem_toList.mp mine)
      rfl
    · exact ih _ r later

theorem Booked.resolve (h : Booked x) (task : x.task = .results [] dirty followUp) :
    Booked (x.resolve dirty followUp) :=
  { h with
    reports := by
      intro before seq result after eq
      refine h.reports before seq result after ?_
      rw [← eq]
      simp [pending, task, Exporter.resolve]
    advances := fun seq m found => h.advances seq m (foldl_erase_some found)
    follow := by
      intro r mem
      rcases mem_append.mp mem with old | new
      · have all := h.follow
        rw [followUps, task] at all
        exact all r old
      · exact markAll_watermark _ _ r new }

/-! ## Every step -/

theorem isOwn_iff : isOwn key q ↔
    q.info.key = key ∧ q.info.watermark = false ∧ q.info.recovered = false := by
  simp [isOwn, and_assoc]

theorem foreign_extends (other : ∀ e ∈ entries, e.2.2.watermark ∨ e.2.2.recovered)
    (c : Option Position) (key : DeliveryKey) :
    Extends c c (((numbered seq entries).filter (isOwn key)).map (·.info)) := by
  have none_own : (numbered seq entries).filter (isOwn key) = [] := by
    refine filter_eq_nil_iff.mpr fun q mem own => ?_
    obtain ⟨-, watermark, recovered⟩ := isOwn_iff.mp own
    have marked := other _ (mem_numbered mem).2.2
    simp [watermark, recovered] at marked
  rw [none_own]
  exact Extends.nil c

/-- Records that are not a stream's own extend no stream. -/
theorem Booked.registerOther (h : Booked x) (idle : x.flight who = .idle)
    (other : ∀ e ∈ entries, e.2.2.watermark ∧ who = .delivery ∨
      e.2.2.recovered ∧ e.2.2.watermark = false) :
    Booked { x.register who entries with cursor := x.cursor } := by
  refine h.register idle (fun q mem => ⟨fun key own => ?_, fun watermark => ?_⟩)
    fun key => foreign_extends (fun e mem => (other e mem).imp And.left And.left) _ key
  · obtain ⟨-, watermark, recovered⟩ := isOwn_iff.mp own
    have marked := other _ (mem_numbered mem).2.2
    simp [watermark, recovered] at marked
  · rcases other _ (mem_numbered mem).2.2 with ⟨-, delivery⟩ | ⟨-, plain⟩
    · exact delivery
    · exact absurd watermark (by simpa using plain)

/-- A stream's batch is its own. -/
theorem submit_isOwn (incarnation : stream.incarnation = key.incarnation) (mem : q ∈ numbered seq
      (groups.flatMap (groupEntries sizes maxRecord key stream cellName))) :
    q.info.watermark = false ∧ ∀ key', isOwn key' q ↔ key = key' := by
  obtain ⟨_, -, memE⟩ := mem_flatMap.mp (mem_numbered mem).2.2
  obtain ⟨_, _, eq⟩ := mem_mapIdx.mp memE
  have info := (congrArg (fun e => e.2.2) eq).symm
  simp only at info
  refine ⟨by rw [info], fun key' => ?_⟩
  rw [isOwn_iff, info]
  simp [Submitted.key, incarnation]

theorem submit_extends (legal : x.Legal (.submit key stream cellName groups)) (key' : DeliveryKey) :
    Extends (x.cursor key') (update x.cursor key (groups.foldl
        (fun cursor group => (group.head?.map (·.position)).or cursor) (x.cursor key)) key')
      (((numbered x.nextSeq (groups.flatMap (groupEntries sizes maxRecord key stream
        cellName))).filter (isOwn key')).map (·.info)) := by
  obtain ⟨-, incarnation, ascends⟩ := legal
  by_cases same : key' = key
  · subst same
    rw [filter_eq_self.mpr fun q mem => ((submit_isOwn incarnation mem).2 key').mpr rfl,
      numbered_infos, update_self]
    exact ascends.extends
  · rw [filter_eq_nil_iff.mpr fun q mem own =>
        same (((submit_isOwn incarnation mem).2 key').mp own).symm,
      update_of_ne same]
    exact Extends.nil _

theorem Booked.submit (h : Booked x) (legal : x.Legal (.submit key stream cellName groups)) :
    Booked (x.step sizes maxRecord (.submit key stream cellName groups)) := by
  refine h.register legal.1 (fun q mem => ?_) (submit_extends legal)
  obtain ⟨plain, own⟩ := submit_isOwn legal.2.1 mem
  refine ⟨fun key' isOwn => by rw [(own key').mp isOwn], fun watermark => ?_⟩
  rw [plain] at watermark
  cases watermark

theorem register_cursor (x : Exporter V) (who : Submitter)
    (entries : List (Record V × Record V × Submitted)) :
    { x.register who entries with cursor := x.cursor } = x.register who entries := by
  unfold Exporter.register
  split_ifs <;> rfl

theorem Booked.step (h : Booked x) {event : Event V} (legal : x.Legal event) :
    Booked (x.step sizes maxRecord event) := by
  cases event with
  | submit => exact h.submit legal
  | recover =>
    rw [Exporter.step, ← register_cursor]
    refine h.registerOther legal.1 fun e mem => ?_
    obtain ⟨r, memR, rfl⟩ := mem_map.mp mem
    exact .inr (legal.2 r memR)
  | take =>
    simp only [Exporter.step]
    split
    case h_1 batch flying => exact h.take flying legal
    case h_2 => exact h
  | refuse =>
    simp only [Exporter.step]
    split
    case h_1 batch flying => exact h.refuse
    case h_2 => exact h
  | withdraw =>
    simp only [Exporter.step]
    split
    case h_1 batch flying => exact h.withdraw flying
    case h_2 => exact h
  | advance => exact h.advance legal
  | report => exact h.report legal
  | receive =>
    have idle : x.task = .idle := by
      have at_ := legal.1
      split at at_
      case h_1 idle => exact idle
      case h_2 => exact at_.elim
    simp only [Exporter.step]
    split
    case h_1 outcome outcomes next => exact h.receive idle next
    case h_2 => exact h
  | result =>
    simp only [Exporter.step]
    split
    case h_1 seq result rest dirty followUp task => exact h.settleResult task
    case h_2 => exact h
  | resolve =>
    simp only [Exporter.step]
    split
    case h_1 dirty followUp task => exact h.resolve task
    case h_2 => exact h
  | followUp =>
    simp only [Exporter.step]
    split
    case h_1 followUp task =>
      have follow := h.follow
      rw [followUps, task] at follow
      have booked : Booked (x.register .delivery (followUp.map fun r => (r.1, r.1, r.2))) := by
        rw [← register_cursor]
        refine h.registerOther legal fun e mem => ?_
        obtain ⟨r, memR, rfl⟩ := mem_map.mp mem
        exact .inl ⟨follow r memR, rfl⟩
      have waiting : (x.register .delivery (followUp.map fun r => (r.1, r.1, r.2))).task =
          .submitting followUp := by
        unfold Exporter.register
        split_ifs <;> exact task
      exact
        { booked with
          reports := by
            intro before seq result after eq
            refine booked.reports before seq result after ?_
            rw [← eq]
            simp [pending, waiting]
          follow := by simp [followUps] }
    case h_2 => exact h

end Exporter

end

end Celld.Export
