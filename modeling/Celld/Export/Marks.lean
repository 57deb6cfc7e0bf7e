import Celld.Export.Exact

/-!
# The watermarks of a process

Every run of a process keeps the chain of each stream's watermarks: those the sink took, followed
by those the delivery task is about to submit, continue one another up to the position the stream
is marked to, and each is exact.  Once the sink has refused a batch, only those it took count.
-/

namespace Celld.Export

open Function List Delivered

/-! ## Chains -/

/-- Watermarks that continue one another from `start`, strictly. -/
def Chained : Option Position → List WatermarkBody → Prop
  | _, [] => True
  | start, w :: ws => w.from_ = start ∧ (∀ p ∈ start, p < w.through) ∧ Chained (some w.through) ws

/-- Where a chain ends. -/
def chainEnd (start : Option Position) (ws : List WatermarkBody) : Option Position :=
  ws.foldl (fun _ w => some w.through) start

theorem chainEnd_append (start : Option Position) (ws ws' : List WatermarkBody) :
    chainEnd start (ws ++ ws') = chainEnd (chainEnd start ws) ws' := foldl_append

theorem chained_append {start : Option Position} {ws ws' : List WatermarkBody} :
    Chained start (ws ++ ws') ↔ Chained start ws ∧ Chained (chainEnd start ws) ws' := by
  induction ws generalizing start with
  | nil => simp [Chained, chainEnd]
  | cons w ws ih =>
    simp only [cons_append, Chained, ih, and_assoc]
    rfl

namespace Exporter

section

variable {V : Type} {x x' : Exporter V} {key : DeliveryKey} {result : SinkDelivery}

/-- The watermarks of a stream. -/
def marksOf (key : DeliveryKey) (l : List (Record V × Submitted)) : List WatermarkBody :=
  l.filterMap fun r => if r.2.key = key && r.2.watermark then
    match r.1.body with
    | .watermark w => some w
    | _ => none
  else none

theorem marksOf_append (l l' : List (Record V × Submitted)) :
    marksOf key (l ++ l') = marksOf key l ++ marksOf key l' := filterMap_append

theorem marksOf_eq_nil {l : List (Record V × Submitted)}
    (plain : ∀ r ∈ l, r.2.watermark = false) : marksOf key l = [] :=
  filterMap_eq_nil_iff.mpr fun r mem => by simp [plain r mem]

def acceptedMarks (x : Exporter V) (key : DeliveryKey) : List WatermarkBody :=
  marksOf key (x.accepted.map fun q => (q.record, q.info))

/-- What the delivery task has registered and the sink has not answered. -/
def inFlight (x : Exporter V) : List (Record V × Submitted) :=
  match x.flight .delivery with
  | .registered batch => batch.map fun q => (q.record, q.info)
  | _ => []

def pendingMarks (x : Exporter V) (key : DeliveryKey) : List WatermarkBody :=
  marksOf key (x.inFlight ++ x.followUps)

structure Marks (x : Exporter V) (key : DeliveryKey) : Prop where
  chain : Chained none (x.acceptedMarks key)
  exacts : ∀ w ∈ x.acceptedMarks key, Exact x key w
  live : x.closed = false →
    Chained none (x.acceptedMarks key ++ x.pendingMarks key) ∧
      chainEnd none (x.acceptedMarks key ++ x.pendingMarks key) = (x.streams.value key).marked ∧
      ∀ w ∈ x.pendingMarks key, Exact x key w

/-- What holds in every state of a process. -/
structure Inv (x : Exporter V) : Prop where
  booked : Booked x
  names : ∀ key, ∀ stream ∈ (x.streams.value key).stream,
    stream.1.incarnation = key.incarnation
  lives : ∀ key, (x.streams.value key).frozen = false → x.closed = false →
    Live x key (x.streams.value key)
  marks : ∀ key, Marks x key

theorem value_start (key : DeliveryKey) : ({} : Exporter V).streams.value key = {} :=
  congrFun Cache.Store.value_empty key

theorem inv_start : Inv ({} : Exporter V) where
  booked := booked_start
  names := by
    intro key _ here
    rw [value_start] at here
    cases here
  lives := by
    intro key _ _
    rw [value_start]
    exact ⟨by simp, by simp, by simp [own], by simp,
      by simpa [counted, own] using Tally.tallies_empty⟩
  marks := by
    intro key
    refine ⟨trivial, by simp [acceptedMarks, marksOf], fun _ => ⟨trivial, ?_, ?_⟩⟩
    · exact congrArg marked (value_start key).symm
    · simp [pendingMarks, inFlight, followUps, marksOf]

/-! ## Steps that settle nothing -/

/-- A step that adds records above what their streams submitted, and leaves the delivery states. -/
theorem Inv.grow (inv : Inv x) (booked : Booked x') (grows : ∀ key, Grows x x' key)
    (streams : x'.streams = x.streams) (closed : x'.closed = false → x.closed = false)
    (chain : ∀ key, x'.acceptedMarks key = x.acceptedMarks key ∧
        (x'.closed = false → x'.pendingMarks key = x.pendingMarks key) ∨
      x.closed = false ∧ x'.acceptedMarks key ++ x'.pendingMarks key =
        x.acceptedMarks key ++ x.pendingMarks key) : Inv x' where
  booked := booked
  names := by
    rw [streams]
    exact inv.names
  lives := by
    intro key frozen open_
    rw [streams] at frozen ⊢
    exact (inv.lives key frozen (closed open_)).grow (grows key)
  marks := by
    intro key
    have marks := inv.marks key
    have exacts : ∀ w, Exact x key w → Exact x' key w := fun w h => h.grow (grows key)
    rcases chain key with ⟨accepted, pending⟩ | ⟨open_, together⟩
    · refine ⟨by rw [accepted]; exact marks.chain, fun w mem => ?_, fun open_ => ?_⟩
      · rw [accepted] at mem
        exact exacts w (marks.exacts w mem)
      · obtain ⟨chained, ends, due⟩ := marks.live (closed open_)
        rw [accepted, pending open_, streams]
        exact ⟨chained, ends, fun w mem => exacts w (due w mem)⟩
    · -- Watermarks move from what is pending to what was taken.
      obtain ⟨chained, ends, due⟩ := marks.live open_
      have all : ∀ w ∈ x'.acceptedMarks key ++ x'.pendingMarks key, Exact x' key w := by
        intro w mem
        rw [together, mem_append] at mem
        exact exacts w (mem.elim (marks.exacts w) (due w))
      rw [← together] at chained ends
      refine ⟨(chained_append.mp chained).1, fun w mem => all w (mem_append_left _ mem),
        fun _ => ⟨chained, by rw [ends, streams], fun w mem => all w (mem_append_right _ mem)⟩⟩

theorem handled_lt (booked : Booked x) {seq : ℕ} (mem : seq ∈ x.handled.map (·.1)) :
    seq < x.nextSeq := by
  obtain ⟨⟨seq, result⟩, memH, rfl⟩ := mem_map.mp mem
  obtain ⟨before, after, eq⟩ := append_of_mem memH
  obtain ⟨-, ⟨q, taken, at_⟩, -⟩ := booked.reports before seq result (after ++ x.pending) (by
    rw [eq, append_assoc, cons_append])
  exact at_ ▸ booked.below q (booked.logged q taken)

/-- Registering adds the batch to the log. -/
theorem register_grows (booked : Booked x) {who : Submitter}
    {entries : List (Record V × Record V × Submitted)} {cursor : DeliveryKey → Option Position}
    (extend : ∀ key, Extends (x.cursor key) (cursor key)
      (((numbered x.nextSeq entries).filter (isOwn key)).map (·.info))) (key : DeliveryKey) :
    Grows x { x.register who entries with cursor := cursor } key := by
  unfold Exporter.register
  split_ifs
  · exact Grows.of_eq rfl rfl (extend key).grows
  · refine ⟨⟨(numbered x.nextSeq entries).filter (isOwn key), filter_append .., ?_⟩, rfl,
      (extend key).grows⟩
    intro q mem
    obtain ⟨memB, -⟩ := mem_filter.mp mem
    refine ⟨fun settled => ?_, (extend key).above q.info (mem_map_of_mem mem)⟩
    exact absurd (handled_lt booked settled) (mem_numbered memB).1.not_gt

/-- Registering leaves everything but the log, the numbers and its own flight. -/
structure Registers (x : Exporter V) (who : Submitter) (new : List (Queued V))
    (x' : Exporter V) : Prop where
  log : x'.log = x.log ++ new
  handled : x'.handled = x.handled
  streams : x'.streams = x.streams
  closed : x'.closed = x.closed
  accepted : x'.accepted = x.accepted
  advances : x'.advances = x.advances
  task : x'.task = x.task
  flight : ∀ other ≠ who, x'.flight other = x.flight other

theorem register_frame (x : Exporter V) (who : Submitter)
    (entries : List (Record V × Record V × Submitted)) :
    Registers x who (numbered x.nextSeq entries) (x.register who entries) := by
  unfold Exporter.register
  split_ifs with none_new
  · have empty : entries = [] := by simpa using none_new
    refine ⟨?_, rfl, rfl, rfl, rfl, rfl, rfl, fun _ _ => rfl⟩
    simp [empty, numbered]
  · exact ⟨rfl, rfl, rfl, rfl, rfl, rfl, rfl, fun other ne => update_of_ne ne _ _⟩

theorem marks_eq (accepted : x'.accepted = x.accepted)
    (flight : x'.flight .delivery = x.flight .delivery) (follow : x'.followUps = x.followUps)
    (key : DeliveryKey) : x'.acceptedMarks key = x.acceptedMarks key ∧
      x'.pendingMarks key = x.pendingMarks key := by
  simp only [acceptedMarks, pendingMarks, inFlight, accepted, flight, follow, and_self]

/-- A submission that is not the delivery task's. -/
theorem Inv.register (inv : Inv x) {who : Submitter} (other : who ≠ .delivery)
    {entries : List (Record V × Record V × Submitted)} {cursor : DeliveryKey → Option Position}
    (extend : ∀ key, Extends (x.cursor key) (cursor key)
      (((numbered x.nextSeq entries).filter (isOwn key)).map (·.info)))
    (booked : Booked { x.register who entries with cursor := cursor }) :
    Inv { x.register who entries with cursor := cursor } := by
  have frame := register_frame x who entries
  refine inv.grow booked (register_grows inv.booked extend) frame.streams
    (fun h => frame.closed ▸ h) fun key => .inl ?_
  have same : acceptedMarks { x.register who entries with cursor := cursor } key = _ ∧
      pendingMarks { x.register who entries with cursor := cursor } key = _ :=
    marks_eq frame.accepted (frame.flight _ other.symm) (by simp only [followUps, frame.task]) key
  exact ⟨same.1, fun _ => same.2⟩

theorem Inv.take (inv : Inv x) {who : Submitter} {batch : List (Queued V)}
    (flying : x.flight who = .registered batch) (takes : x.closed = false) :
    Inv { x with
      accepted := x.accepted ++ batch
      flight := update x.flight who .idle } := by
  refine inv.grow (inv.booked.take flying takes)
    (fun key => Grows.of_eq rfl rfl fun top here => ⟨top, here, le_rfl⟩) rfl id fun key => ?_
  refine .inr ⟨takes, ?_⟩
  simp only [acceptedMarks, pendingMarks, map_append, marksOf_append, followUps]
  by_cases delivery : who = .delivery
  · subst delivery
    simp [inFlight, flying, marksOf]
  · have plain : marksOf key (batch.map fun q => (q.record, q.info)) = [] := by
      refine marksOf_eq_nil fun r mem => ?_
      obtain ⟨q, memQ, rfl⟩ := mem_map.mp mem
      cases watermark : q.info.watermark with
      | false => rfl
      | true => exact absurd ((inv.booked.flights who batch flying q memQ).2.2 watermark) delivery
    simp only [plain, append_nil, inFlight, update_of_ne (Ne.symm delivery)]

theorem Inv.closing (inv : Inv x) (booked : Booked x') (log : x'.log = x.log)
    (handled : x'.handled = x.handled) (cursor : x'.cursor = x.cursor)
    (accepted : x'.accepted = x.accepted) (streams : x'.streams = x.streams)
    (closed : x'.closed = true) : Inv x' := by
  have shut : ¬x'.closed = false := by simp [closed]
  refine inv.grow booked (fun key => Grows.of_eq log handled fun top here =>
    ⟨top, cursor ▸ here, le_rfl⟩) streams (fun open_ => absurd open_ shut) fun key => .inl ?_
  exact ⟨by simp only [acceptedMarks, accepted], fun open_ => absurd open_ shut⟩

/-- The delivery task submits its watermarks and gaps. -/
theorem Inv.followUp (inv : Inv x) {followUp : List (Record V × Submitted)}
    (task : x.task = .submitting followUp) (idle : x.flight .delivery = .idle)
    (booked : Booked { x.register .delivery (followUp.map fun r => (r.1, r.1, r.2)) with
      task := .idle }) :
    Inv { x.register .delivery (followUp.map fun r => (r.1, r.1, r.2)) with task := .idle } := by
  set entries := followUp.map fun r => (r.1, r.1, r.2) with entries_def
  have frame := register_frame x .delivery entries
  have follow := inv.booked.follow
  rw [followUps, task] at follow
  have other : ∀ e ∈ entries, e.2.2.watermark ∨ e.2.2.recovered := by
    intro e mem
    obtain ⟨r, memR, rfl⟩ := mem_map.mp mem
    exact .inl (follow r memR)
  have grows : ∀ key, Grows x { x.register .delivery entries with cursor := x.cursor } key :=
    register_grows inv.booked fun key => foreign_extends other (x.cursor key) key
  refine inv.grow booked (fun key => ?_) frame.streams (fun h => frame.closed ▸ h) fun key =>
    .inl ⟨by simp only [acceptedMarks, frame.accepted], fun _ => ?_⟩
  · have here := grows key
    rw [register_cursor] at here
    exact ⟨here.own, here.handled, here.cursor⟩
  · have sent : (inFlight { x.register .delivery entries with task := .idle }) = followUp := by
      unfold Exporter.register
      split_ifs with none_new
      · have empty : followUp = [] := by simpa [entries_def] using none_new
        simp [inFlight, idle, empty]
      · simp only [inFlight, update_self]
        refine ext_getElem (by simp [numbered, entries_def]) fun i _ _ => ?_
        simp [numbered, entries_def]
    simp only [pendingMarks, sent]
    simp [inFlight, idle, followUps, task]

/-! ## Results -/

theorem settle_marked (d : Delivered) (m : Submitted) (result : SinkDelivery) :
    (d.settle m result).marked = d.marked ∧
      (d.settle m result).stream = some (m.stream, m.cellName) := by
  unfold settle
  cases result <;> dsimp only <;> split_ifs <;> exact ⟨rfl, rfl⟩

/-- A stream that is not frozen after a result was not before, and the result was an
acknowledgement. -/
theorem settle_thawed {d : Delivered} {m : Submitted}
    (thawed : (d.settle m result).frozen = false) : d.frozen = false ∧ result = .acknowledged := by
  cases frozen : d.frozen with
  | true => simp [settle, frozen] at thawed
  | false =>
    cases result with
    | acknowledged => exact ⟨rfl, rfl⟩
    | dropped => simp [settle, frozen] at thawed

/-- What delivery knows of every stream. -/
structure Knows (x : Exporter V) (key : DeliveryKey) (d : Delivered) : Prop where
  names : ∀ stream ∈ d.stream, stream.1.incarnation = key.incarnation
  live : d.frozen = false → x.closed = false → Live x key d

theorem Inv.knows (inv : Inv x) (key : DeliveryKey) : Knows x key (x.streams.value key) :=
  ⟨inv.names key, inv.lives key⟩

theorem Inv.of_knows (booked : Booked x) (knows : ∀ key, Knows x key (x.streams.value key))
    (marks : ∀ key, Marks x key) : Inv x :=
  ⟨booked, fun key => (knows key).names, fun key => (knows key).live, marks⟩

theorem Marks.settle (marks : Marks x key) {seq : ℕ} (settles : Settles x x' seq result)
    (follow : marksOf key x'.followUps = marksOf key x.followUps)
    (marked : (x'.streams.value key).marked = (x.streams.value key).marked) : Marks x' key := by
  have exacts : ∀ w, Exact x key w → Exact x' key w := fun w h => h.settle settles
  have taken : x'.acceptedMarks key = x.acceptedMarks key := by
    simp only [acceptedMarks, settles.accepted]
  have due : x'.pendingMarks key = x.pendingMarks key := by
    simp only [pendingMarks, marksOf_append, follow, inFlight, settles.flight]
  refine ⟨taken ▸ marks.chain, fun w mem => exacts w (marks.exacts w (taken ▸ mem)),
    fun open_ => ?_⟩
  obtain ⟨chained, ends, dueExact⟩ := marks.live (settles.closed ▸ open_)
  rw [taken, due, marked]
  exact ⟨chained, ends, fun w mem => exacts w (dueExact w mem)⟩

/-- A result touches one stream, and leaves what the others know. -/
theorem Inv.settleResult (inv : Inv x) (fits : x.Fits) {seq : ℕ} {rest : List (ℕ × SinkDelivery)}
    {dirty : BTreeSet DeliveryKey} {followUp : List (Record V × Submitted)}
    (task : x.task = .results ((seq, result) :: rest) dirty followUp) :
    Inv (x.settleResult seq result rest dirty followUp) := by
  have booked := inv.booked
  obtain ⟨fresh, -, ordered⟩ := booked.reports x.handled seq result (rest ++ x.outcomes.flatten)
    (by simp [pending, task])
  set settled : Exporter V := { x with
    handled := x.handled ++ [(seq, result)]
    submitted := x.submitted.erase seq
    task := .results rest dirty followUp } with settled_def
  have plain (apart : ∀ key, x.closed = false → ∀ q ∈ x.own key, q.seq ≠ seq)
      (booked' : Booked settled) : Inv settled :=
    have settles : Settles x settled seq result := ⟨rfl, rfl, rfl, rfl, rfl, rfl⟩
    { booked := booked'
      names := inv.names
      lives := fun key frozen open_ => (inv.lives key frozen open_).settleOther settles
        (apart key open_)
      marks := fun key => (inv.marks key).settle settles (by simp [followUps, task, settled]) rfl }
  have booked' := booked.settleResult task
  unfold Exporter.settleResult at booked' ⊢
  cases found : x.submitted[seq]? with
  | none =>
    simp only [found] at booked' ⊢
    refine plain (fun key open_ q mem same => ?_) booked'
    rcases booked.opens q (mem_own.mp mem).1 with registered | settledBefore | closed
    · rw [same, found] at registered
      cases registered
    · exact fresh (same ▸ settledBefore)
    · rw [open_] at closed
      cases closed
  | some m =>
    obtain ⟨q₀, mem₀, at_, info⟩ := booked.registered seq m found
    have only : ∀ key, ∀ q ∈ x.own key, q.seq = seq → q = q₀ := fun key q mem same =>
      booked.eq_of_seq (mem_own.mp mem).1 mem₀ (same.trans at_.symm)
    simp only [found] at booked' ⊢
    by_cases recovered : m.recovered = true
    · rw [if_pos recovered] at booked' ⊢
      refine plain (fun key open_ q mem same => ?_) booked'
      have own := (isOwn_iff.mp (mem_own.mp mem).2).2.2
      rw [only key q mem same, info, recovered] at own
      cases own
    · rw [if_neg recovered] at booked' ⊢
      have known : ∀ {x' : Exporter V}, Settles x x' seq result →
          ∀ key, Knows x' key ((x.streams.modify m.key (·.settle m result)).value key) := by
        intro x' settles
        refine Cache.Store.modify_forall fits.1 ⟨fun stream here => ?_, fun frozen open_ => ?_⟩
          fun key apart => ⟨inv.names key, fun frozen open_ => ?_⟩
        · rw [(settle_marked _ _ _).2] at here
          cases here
          rfl
        · obtain ⟨thawed, rfl⟩ := settle_thawed frozen
          have live := inv.lives m.key thawed (settles.closed ▸ open_)
          cases watermark : m.watermark with
          | true =>
            have apart : ∀ q ∈ x.own m.key, q.seq ≠ seq := by
              intro q mem same
              have own := (isOwn_iff.mp (mem_own.mp mem).2).2.1
              rw [only m.key q mem same, info, watermark] at own
              cases own
            refine (live.settleOther settles apart).of_eq ?_ ?_ ?_
            all_goals simp only [settle, thawed, watermark, Bool.false_eq_true,
              if_false, if_true]
          | false =>
            have own : q₀ ∈ x.own m.key := mem_own.mpr ⟨mem₀, isOwn_iff.mpr
              (by rw [info]; exact ⟨rfl, watermark, by simpa using recovered⟩)⟩
            subst at_ info
            refine (live.settleOwn booked own fresh
              (fun q' mem' lt => ordered q₀.info.key q₀ own rfl q' mem' lt) settles).of_eq
              ?_ ?_ ?_
            all_goals simp only [settle, thawed, watermark, Bool.false_eq_true,
              if_false]
        · refine (inv.lives key frozen (settles.closed ▸ open_)).settleOther settles
            fun q mem same => apart ?_
          rw [← (isOwn_iff.mp (mem_own.mp mem).2).1, only key q mem same, info]
      refine .of_knows booked' (known ⟨rfl, rfl, rfl, rfl, rfl, rfl⟩) fun key =>
        (inv.marks key).settle ⟨rfl, rfl, rfl, rfl, rfl, rfl⟩ ?_ (Cache.Store.modify_forall
          (P := fun key (d : Delivered) => d.marked = (x.streams.value key).marked) fits.1
          (settle_marked _ _ _).1 (fun _ _ => rfl) key)
      have gap : ∀ gap : Option GapBody, marksOf key ((gap.map fun gap =>
          (({ envelope := { stream := m.stream, cellName := m.cellName, position := m.position }
              body := .gap gap } : Record V), { m with watermark := true })).toList) = [] := by
        rintro (_ | gap) <;> simp [marksOf]
      simp only [followUps, task, marksOf_append, gap, append_nil]

/-! ## The end of an outcome -/

theorem Knows.advance {d : Delivered} (knows : Knows x key d) (booked : Booked x)
    {a : ℕ × Submitted} (mem : a ∈ x.ready) (mine : a.2.key = key) :
    Knows x key (d.advance a.2) := by
  constructor
  case names =>
    intro _ here
    cases here
    exact congrArg DeliveryKey.incarnation mine
  case live =>
    intro thawed open_
    obtain ⟨found, settled⟩ := ready_settled booked open_ mem
    obtain ⟨-, under, between⟩ := booked.advances a.1 a.2 found
    subst mine
    refine (knows.live thawed open_).advance under fun q memQ le => ?_
    refine settled q (mem_own.mp memQ).1 (not_lt.mp fun later => ?_)
    exact absurd ((between q memQ).2 later) (not_lt.mpr le)

theorem Knows.mark {d : Delivered} (knows : Knows x key d) : Knows x key d.mark := by
  have frame : d.mark.stream = d.stream ∧ d.mark.frozen = d.frozen := by
    unfold Delivered.mark
    split <;> exact ⟨rfl, rfl⟩
  exact ⟨frame.1 ▸ knows.names, fun thawed open_ =>
    (knows.live (frame.2 ▸ thawed) open_).mark⟩

/-- What an advance keeps of its stream holds of every stream after all of them. -/
theorem foldl_advance {P : DeliveryKey → Delivered → Prop} {ready : List (ℕ × Submitted)}
    (step : ∀ a ∈ ready, ∀ d, P a.2.key d → P a.2.key (d.advance a.2))
    (bounded : ∀ a ∈ ready, a.2.fits) {streams : DeliveryStates}
    (all : ∀ key, P key (streams.value key) ∧ (streams.value key).fits) (key : DeliveryKey) :
    P key ((ready.foldl (fun streams a => streams.modify a.2.key (·.advance a.2))
      streams).value key) ∧ ((ready.foldl (fun streams a => streams.modify a.2.key (·.advance a.2))
      streams).value key).fits := by
  induction ready generalizing streams with
  | nil => exact all key
  | cons a ready ih =>
    rw [forall_mem_cons] at step bounded
    exact ih step.2 bounded.2 (Cache.Store.modify_forall
      (P := fun key (d : Delivered) => P key d ∧ d.fits) (fun key => (all key).2)
      ⟨step.1 _ (all _).1, fits_advance (all _).2 bounded.1⟩ fun key _ => all key)

/-- Each stream an outcome touched gets the watermark it is due, once. -/
theorem markAll_spec {keys : List DeliveryKey} (nodup : keys.Nodup)
    {streams : DeliveryStates} (fits : ∀ key, (streams.value key).fits)
    (knows : ∀ key, Knows x key (streams.value key)) (key : DeliveryKey) :
    ((markAll (V := V) streams keys).2.value key = streams.value key ∧
      marksOf key (markAll (V := V) streams keys).1 = []) ∨
    ((markAll (V := V) streams keys).2.value key = (streams.value key).mark ∧
      marksOf key (markAll (V := V) streams keys).1 =
        ((streams.value key).due.map (·.2)).toList) := by
  -- A stream that is not among the rest of the keys is not touched by them.
  suffices spec : (markAll streams keys).2.value key =
        (if key ∈ keys then (streams.value key).mark else streams.value key) ∧
      marksOf key (markAll streams keys).1 =
        if key ∈ keys then ((streams.value key).due.map (·.2)).toList else [] by
    split_ifs at spec
    · exact .inr spec
    · exact .inl spec
  induction keys generalizing streams with
  | nil => exact ⟨rfl, rfl⟩
  | cons k keys ih =>
    obtain ⟨apart, nodup⟩ := nodup_cons.mp nodup
    have step : (streams.modify k mark).value =
        update streams.value k (streams.value k).mark := Cache.Store.value_modify _ fits ..
    have known : ∀ key, Knows x key ((streams.modify k mark).value key) :=
      Cache.Store.modify_forall fits (knows k).mark fun key _ => knows key
    obtain ⟨value, marks⟩ := ih nodup (Cache.Store.modify_forall
      (P := fun _ (d : Delivered) => d.fits) fits (fits_mark (fits k))
      fun key _ => fits key) known
    rw [step] at value marks
    simp only [markAll, marksOf_append]
    rw [value, marks]
    by_cases mine : key = k
    · subst mine
      rw [if_neg apart, if_neg apart, update_self, if_pos mem_cons_self,
        if_pos mem_cons_self, append_nil]
      refine ⟨rfl, ?_⟩
      cases due : (streams.value key).due with
      | none => rfl
      | some due' =>
        have named := (knows key).names due'.1 (due_eq_some due).2.2.2.2.2.2
        simp [marksOf, Submitted.key, named]
    · rw [update_of_ne mine]
      have other : ∀ due : Option ((StreamId × Option String) × WatermarkBody),
          (∀ due' ∈ due, due'.1.1.incarnation = k.incarnation) →
          marksOf key ((due.map fun due =>
            (({ envelope := { stream := due.1.1, cellName := due.1.2, position := due.2.through }
                body := .watermark due.2 } : Record V),
              { cell := k.cell, epoch := k.epoch, stream := due.1.1, cellName := due.1.2
                position := due.2.through, whole := false, closes := false
                watermark := true : Submitted })).toList) = [] := by
        rintro (_ | due) named
        · rfl
        · simp [marksOf, Submitted.key, named due rfl, Ne.symm mine]
      rw [other _ fun due here => (knows k).names due.1 (due_eq_some here).2.2.2.2.2.2,
        nil_append]
      simp only [mem_cons, mine, false_or, and_self]

/-- The watermark a stream is due continues its chain. -/
theorem due_chained (d : Delivered) :
    Chained d.marked ((d.due.map (·.2)).toList) ∧
      chainEnd d.marked ((d.due.map (·.2)).toList) = d.mark.marked := by
  cases due : d.due with
  | none => simp [Chained, chainEnd, mark, due]
  | some =>
    obtain ⟨-, -, from_, above, -, -⟩ := due_eq_some due
    refine ⟨⟨from_, above, trivial⟩, ?_⟩
    simp [chainEnd, mark, due]

theorem Inv.resolve (inv : Inv x) (fits : x.Fits) {dirty : BTreeSet DeliveryKey}
    {followUp : List (Record V × Submitted)} (task : x.task = .results [] dirty followUp) :
    Inv (x.resolve dirty followUp) := by
  have booked := inv.booked
  have advanced := foldl_advance
    (P := fun key d => Knows x key d ∧ d.marked = (x.streams.value key).marked)
    (fun a (mem : a ∈ x.ready) d known => ⟨known.1.advance booked mem rfl, known.2⟩)
    (fun a mem => fits.2 a (mem_filter.mp mem).1) fun key => ⟨⟨inv.knows key, rfl⟩, fits.1 key⟩
  set touched := x.ready.foldl (fun dirty a => dirty.insert a.2.key) dirty with touched_def
  set streams := x.ready.foldl (fun streams a => streams.modify a.2.key (·.advance a.2)) x.streams
    with streams_def
  have nodup : touched.toList.Nodup :=
    Std.ExtTreeSet.distinct_toList.imp fun apart same => apart (compare_eq_iff_eq.mpr same)
  have marked := markAll_spec nodup (fun key => (advanced key).2) fun key => (advanced key).1.1
  have knows : ∀ key, Knows x key ((markAll (V := V) streams touched.toList).2.value key) := by
    intro key
    rcases marked key with ⟨value, -⟩ | ⟨value, -⟩ <;> rw [value]
    · exact (advanced key).1.1
    · exact (advanced key).1.1.mark
  have grows : ∀ key, Grows x (x.resolve dirty followUp) key := fun key =>
    Grows.of_eq rfl rfl fun top here => ⟨top, here, le_rfl⟩
  refine ⟨booked.resolve task, fun key => (knows key).names,
    fun key thawed open_ => ((knows key).live thawed open_).grow (grows key), fun key => ?_⟩
  have before := inv.marks key
  refine ⟨before.chain, fun w mem => (before.exacts w mem).grow (grows key), fun open_ => ?_⟩
  obtain ⟨chained, ends, dueExact⟩ := before.live open_
  have pending : (x.resolve dirty followUp).pendingMarks key =
      x.pendingMarks key ++ marksOf key (markAll (V := V) streams touched.toList).1 := by
    simp only [pendingMarks, followUps, task, Exporter.resolve, marksOf_append, ← append_assoc]
    rfl
  have accepted : (x.resolve dirty followUp).acceptedMarks key = x.acceptedMarks key := rfl
  rw [pending, accepted, ← append_assoc, chained_append, ends, chainEnd_append none, ends,
    ← (advanced key).1.2]
  change (_ ∧ Chained (streams.value key).marked _) ∧
    _ = ((markAll streams touched.toList).2.value key).marked ∧ _
  rcases marked key with ⟨value, marks⟩ | ⟨value, marks⟩ <;> rw [value, marks]
  · rw [append_nil]
    exact ⟨⟨chained, trivial⟩, rfl, fun w mem => (dueExact w mem).grow (grows key)⟩
  · refine ⟨⟨chained, (due_chained _).1⟩, (due_chained _).2, fun w mem => ?_⟩
    rcases mem_append.mp mem with old | new
    · exact (dueExact w old).grow (grows key)
    · obtain ⟨_, here, rfl⟩ := Option.map_eq_some_iff.mp (Option.mem_toList.mp new)
      have live := (advanced key).1.1.live (due_eq_some here).1 open_
      exact (live.exact_due booked here).grow (grows key)

/-! ## Every run -/

variable {sizes : Sizes V} {maxRecord : ℕ}

theorem Inv.step (inv : Inv x) (fits : x.Fits) {event : Event V} (legal : x.Legal event) :
    Inv (x.step sizes maxRecord event) := by
  have booked : Booked (x.step sizes maxRecord event) := inv.booked.step legal
  -- A step that submits nothing and settles nothing.
  have still : ∀ {x' : Exporter V}, Booked x' → x'.log = x.log → x'.handled = x.handled →
      (∀ key, ∀ top ∈ x.cursor key, ∃ top' ∈ x'.cursor key, top ≤ top') →
      x'.streams = x.streams → x'.closed = x.closed → x'.accepted = x.accepted →
      x'.flight .delivery = x.flight .delivery → x'.followUps = x.followUps → Inv x' := by
    intro x' booked' log handled cursor streams closed accepted flight follow
    refine inv.grow booked' (fun key => Grows.of_eq log handled (cursor key)) streams
      (fun open_ => closed ▸ open_) fun key => .inl ?_
    exact ⟨(marks_eq accepted flight follow key).1,
      fun _ => (marks_eq accepted flight follow key).2⟩
  have same : ∀ key, ∀ top ∈ x.cursor key, ∃ top' ∈ x.cursor key, top ≤ top' :=
    fun _ top here => ⟨top, here, le_rfl⟩
  cases event with
  | submit => exact inv.register (by simp) (submit_extends legal) booked
  | recover =>
    simp only [Exporter.step] at booked ⊢
    rw [← register_cursor] at booked ⊢
    refine inv.register (by simp) (fun key => foreign_extends (fun e mem => ?_) _ key) booked
    obtain ⟨r, memR, rfl⟩ := mem_map.mp mem
    exact .inr (legal.2 r memR).1
  | take =>
    simp only [Exporter.step]
    split
    case h_1 batch flying => exact inv.take flying legal
    case h_2 => exact inv
  | refuse =>
    simp only [Exporter.step]
    split
    case h_1 batch flying => exact inv.closing inv.booked.refuse rfl rfl rfl rfl rfl rfl
    case h_2 => exact inv
  | withdraw who =>
    simp only [Exporter.step]
    split
    case h_1 batch flying =>
      exact inv.closing (inv.booked.withdraw flying) rfl rfl rfl rfl rfl
        (inv.booked.refused who batch flying)
    case h_2 => exact inv
  | advance m =>
    refine still booked rfl rfl (fun key top here => ?_) rfl rfl rfl rfl rfl
    simp only [Exporter.step]
    by_cases mine : key = m.key
    · subst mine
      have above := legal.2.1
      rw [Option.mem_def.mp here] at above
      exact ⟨m.position, by rw [update_self]; rfl, of_decide_eq_true above⟩
    · rw [update_of_ne mine]
      exact ⟨top, here, le_rfl⟩
  | report => exact still booked rfl rfl same rfl rfl rfl rfl rfl
  | receive =>
    simp only [Exporter.step] at booked ⊢
    split
    case h_1 outcome outcomes next =>
      simp only [next] at booked
      refine still booked rfl rfl same rfl rfl rfl rfl ?_
      have at_ := legal.1
      split at at_
      case h_1 idle => simp only [followUps, idle]
      case h_2 => exact at_.elim
    case h_2 => exact inv
  | result =>
    simp only [Exporter.step]
    split
    case h_1 seq result rest dirty followUp task => exact inv.settleResult fits task
    case h_2 => exact inv
  | resolve =>
    simp only [Exporter.step]
    split
    case h_1 dirty followUp task => exact inv.resolve fits task
    case h_2 => exact inv
  | followUp =>
    simp only [Exporter.step] at booked ⊢
    split
    case h_1 followUp task =>
      simp only [task] at booked
      exact inv.followUp task legal booked
    case h_2 => exact inv

theorem Reachable.inv (reachable : Reachable sizes maxRecord x) : Inv x := by
  induction reachable with
  | start => exact inv_start
  | step _ fits _ legal ih => exact ih.step fits legal

theorem Booked.result_unique (booked : Booked x) {seq : ℕ} {result' : SinkDelivery}
    (mem : (seq, result) ∈ x.handled ++ x.pending)
    (mem' : (seq, result') ∈ x.handled ++ x.pending) : result = result' := by
  obtain ⟨before, after, eq⟩ := append_of_mem mem
  obtain ⟨fresh, -, -⟩ := booked.reports before seq result after eq
  rw [eq, mem_append, mem_cons] at mem'
  rcases mem' with earlier | same | later
  · exact absurd (mem_map_of_mem earlier) fresh
  · exact (Prod.mk.inj same).2.symm
  · obtain ⟨between, rest, parts⟩ := append_of_mem later
    obtain ⟨fresh', -, -⟩ := booked.reports (before ++ (seq, result) :: between) seq result' rest
      (by rw [eq, parts, append_assoc, cons_append])
    exact absurd (mem_map_of_mem (mem_append_right _ mem_cons_self)) fresh'

/-- The watermarks the sink took for a stream form a chain, and each counts exactly the records of
its range, all of them acknowledged and none at or below it dropped. -/
theorem watermarks_exact (reachable : Reachable sizes maxRecord x) (key : DeliveryKey) :
    Chained none (x.acceptedMarks key) ∧ ∀ w ∈ x.acceptedMarks key,
      (∀ q ∈ x.own key, q.info.position ≤ w.through → (q.seq, .acknowledged) ∈ x.handled) ∧
      w.records = ((x.own key).filter fun q =>
        q.info.whole && covers w q.info.position).length ∧
      w.commits = (((x.own key).filter fun q =>
        covers w q.info.position).map (·.info.position)).dedup.length ∧
      ∀ q ∈ x.own key, ∀ reason, (q.seq, .dropped reason) ∈ x.handled ++ x.pending →
        w.through < q.info.position := by
  have inv := reachable.inv
  refine ⟨(inv.marks key).chain, fun w mem => ?_⟩
  have counts := (inv.marks key).exacts w mem
  refine ⟨counts.acks, counts.records, counts.commits, fun q own reason dropped => ?_⟩
  by_contra reached
  have settled := mem_append_left x.pending (counts.acks q own (not_lt.mp reached))
  cases inv.booked.result_unique settled dropped

end

/-! ## A run -/

namespace OneLink

def key : DeliveryKey := ⟨"a", 1, 0⟩

def stream : StreamId := { script := "s", class_ := "C", cell := "a", incarnation := 0 }

def sizes : Sizes ℕ := ⟨fun _ => 1, fun _ => 1⟩

def fresh : LinkBody := { startTxid := 1 }

/-- The link of a process that reopens epoch 1 after its first transaction. -/
def resumed : LinkBody :=
  { startTxid := 2, prevEpoch := some 1, prevTxid := some 1 }

variable (body : LinkBody)

/-- The link of a residency of epoch 1. -/
def link : Record ℕ :=
  { envelope := { stream := stream, position := ⟨1, body.startTxid, 0⟩ }, body := .link body }

/-- The sink takes and acknowledges the link, and takes the watermark that follows. -/
def events : List (Event ℕ) :=
  [.submit key stream none [[link body]], .take (.stream key), .report [(0, .acknowledged)],
    .receive, .result, .resolve, .followUp, .take .delivery]

/-- The state after the first `n` events. -/
def after (n : ℕ) : Exporter ℕ := ((events body).take n).foldl (step sizes 100) {}

theorem after_succ {n : ℕ} {e : Event ℕ} (at_ : (events body)[n]? = some e) :
    after body (n + 1) = step sizes 100 (after body n) e := by
  rw [after, after, take_add_one, at_, foldl_append]
  rfl

theorem fits : ∀ body ∈ [fresh, resumed], ∀ n < 8, (after body n).Fits := by
  have hot : ∀ body ∈ [fresh, resumed], ∀ n < 8,
      (∀ e ∈ (after body n).streams.1.hot.toList, e.2.2.fits) ∧
        (after body n).streams.1.cold.toList = [] ∧ (after body n).advances.toList = [] := by
    decide +kernel
  intro body known n lt
  obtain ⟨hot, cold, advances⟩ := hot body known n lt
  refine ⟨fun key => ?_, by simp [advances]⟩
  rw [Std.ExtTreeMap.toList_eq_nil_iff] at cold
  simp only [Cache.Store.value, Cache.Raw.value, Cache.Raw.load, cold]
  split
  case h_1 found => exact hot _ (Std.ExtTreeMap.mem_toList_iff_getElem?_eq_some.mpr found)
  case h_2 => rfl

theorem reachable (known : body ∈ [fresh, resumed]) : Reachable sizes 100 (after body 8) := by
  have fits := fits body known
  have first : Reachable sizes 100 (after body 1) := by
    refine .step .start (fits 0 (by decide)) (.submit key stream none [[link body]])
      ⟨rfl, rfl, fun r mem => ?_, rfl, rfl, trivial⟩
    rw [mem_singleton.mp mem]
    exact ⟨rfl, rfl, rfl⟩
  have second : Reachable sizes 100 (after body 2) :=
    first.step (fits 1 (by decide)) (.take (.stream key)) rfl
  have third : Reachable sizes 100 (after body 3) := by
    refine second.step (fits 2 (by decide)) (.report [(0, .acknowledged)])
      fun before seq result later eq => ?_
    obtain ⟨rfl, head, -⟩ : before = [] ∧ (0, .acknowledged) = (seq, result) ∧ later = [] := by
      rcases before with _ | ⟨head, before⟩
      · simpa [eq_comm] using eq
      · simp at eq
    obtain ⟨rfl, rfl⟩ := Prod.mk.inj head
    refine ⟨show 0 ∉ ([] : List ℕ) from not_mem_nil, ?_⟩
    refine ⟨_, mem_singleton_self _, rfl, fun key' _ q mem _ lt => ?_⟩
    exact absurd lt (Nat.not_lt_zero _)
  have fourth : Reachable sizes 100 (after body 4) :=
    third.step (fits 3 (by decide)) .receive ⟨trivial, rfl⟩
  have fifth : Reachable sizes 100 (after body 5) :=
    fourth.step (fits 4 (by decide)) .result trivial
  have sixth : Reachable sizes 100 (after body 6) :=
    fifth.step (fits 5 (by decide)) .resolve trivial
  have seventh : Reachable sizes 100 (after body 7) :=
    sixth.step (fits 6 (by decide)) .followUp rfl
  have open_ : (after body 7).closed = false := by
    rw [after_succ body rfl]
    simp only [step]
    split
    · exact (register_frame ..).closed
    · rfl
  rw [after_succ body rfl]
  exact seventh.step (fits 7 (by decide)) _ open_

end OneLink

theorem oneLink_exact : ∃ w ∈ (OneLink.after OneLink.fresh 8).acceptedMarks
      OneLink.key, w.through = ⟨1, 1, 0⟩ ∧
    w.records = (((OneLink.after OneLink.fresh 8).own OneLink.key).filter
      fun q => q.info.whole && covers w q.info.position).length := by
  have marked : (⟨none, ⟨1, 1, 0⟩, 1, 1⟩ : WatermarkBody) ∈
      (OneLink.after OneLink.fresh 8).acceptedMarks OneLink.key := by
    decide +kernel
  exact ⟨_, marked, rfl,
    ((watermarks_exact (OneLink.reachable _ mem_cons_self) OneLink.key).2 _ marked).2.1⟩

end Exporter

end Celld.Export
