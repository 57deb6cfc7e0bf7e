import Celld.Export.Marks

/-!
# What a process emits

Where the records in the log of a process come from: a stream's own records are at positions of
its epoch, a watermark is at the position it reaches, and a gap is at the position of the record
whose loss it reports.
-/

namespace Celld.Export.Exporter

open List Option Delivered

section

variable {V : Type} {x x' : Exporter V} {key : DeliveryKey} {result : SinkDelivery}

/-- The sink gave the record up. -/
def isDropped (x : Exporter V) (seq : ℕ) : Bool :=
  (x.handled ++ x.pending).any fun r => r.1 = seq && r.2 ≠ .acknowledged

/-- A record the delivery task makes: a watermark, or the gap of a record that was dropped, the
first of its stream. -/
def Follows (x : Exporter V) (r : Record V × Submitted) : Prop :=
  r.2.recovered = false ∧ r.1.position = r.2.position ∧ r.2.position.epoch = r.2.key.epoch ∧
    ((∃ w, r.1.body = .watermark w ∧ w.through = r.2.position) ∨
      (∃ g, r.1.body = .gap g) ∧ (x.streams.value r.2.key).frozen ∧
        ∃ q ∈ x.log, q.info.key = r.2.key ∧ q.info.recovered = false ∧
          q.info.position = r.2.position ∧ (∃ reason, (q.seq, .dropped reason) ∈ x.handled) ∧
          (q.info.watermark → ∃ w, q.source.body = .watermark w ∧ w.through = q.info.position))

structure Emits (x : Exporter V) : Prop where
  own : ∀ key, ∀ q ∈ x.own key, q.info.position.epoch = key.epoch ∧
    q.source.position = q.info.position ∧ q.source.entry.isSent
  advances : ∀ (seq : ℕ) (m : Submitted), x.advances[seq]? = some m → m.position.epoch = m.epoch
  reached : ∀ key, ∀ p ∈ (x.streams.value key).position, p.epoch = key.epoch
  logged : ∀ q ∈ x.log, q.info.watermark → q.record = q.source ∧ Follows x (q.source, q.info)
  follow : ∀ r ∈ x.followUps, Follows x r

theorem emits_start : Emits ({} : Exporter V) := by
  constructor
  case reached =>
    intro _ _ here
    rw [value_start] at here
    cases here
  all_goals simp [Exporter.own, followUps]

theorem Follows.mono {r : Record V × Submitted} (follows : Follows x r)
    (log : ∀ q ∈ x.log, q ∈ x'.log) (handled : ∀ h ∈ x.handled, h ∈ x'.handled)
    (frozen : (x.streams.value r.2.key).frozen → (x'.streams.value r.2.key).frozen) :
    Follows x' r := by
  obtain ⟨own, at_, epoch, kind⟩ := follows
  refine ⟨own, at_, epoch, kind.imp_right ?_⟩
  rintro ⟨gap, stopped, q, mem, mine, plain, same, ⟨reason, lost⟩, cause⟩
  exact ⟨gap, frozen stopped, q, log q mem, mine, plain, same, ⟨reason, handled _ lost⟩, cause⟩

/-- A step that adds `new` to the log. -/
theorem Emits.extend (emits : Emits x) {new : List (Queued V)} (log : x'.log = x.log ++ new)
    (fresh : ∀ q ∈ new, (∀ key, isOwn key q → q.info.position.epoch = key.epoch ∧
        q.source.position = q.info.position ∧ q.source.entry.isSent) ∧
      (q.info.watermark → q.record = q.source ∧ Follows x (q.source, q.info)))
    (handled : x'.handled = x.handled) (streams : x'.streams = x.streams)
    (advances : ∀ (seq : ℕ) (m : Submitted), x'.advances[seq]? = some m →
      m.position.epoch = m.epoch)
    (follow : ∀ r ∈ x'.followUps, r ∈ x.followUps) : Emits x' := by
  have keeps : ∀ r, Follows x r → Follows x' r := fun r follows => follows.mono
    (fun q mem => by rw [log]; exact mem_append_left _ mem) (fun h mem => handled ▸ mem)
    (fun frozen => by rwa [streams])
  constructor
  case own =>
    intro key q mem
    obtain ⟨memL, own⟩ := mem_own.mp mem
    rw [log] at memL
    rcases mem_append.mp memL with old | isNew
    · exact emits.own key q (mem_own.mpr ⟨old, own⟩)
    · exact (fresh q isNew).1 key own
  case advances => exact advances
  case reached => rw [streams]; exact emits.reached
  case logged =>
    intro q mem watermark
    rw [log] at mem
    rcases mem_append.mp mem with old | isNew
    · exact (emits.logged q old watermark).imp_right (keeps _)
    · exact ((fresh q isNew).2 watermark).imp_right (keeps _)
  case follow => exact fun r mem => keeps r (emits.follow r (follow r mem))

theorem whole_isSent {sizes : Sizes V} {maxRecord : ℕ} {r : Record V} (sent : r.entry.isSent) :
    (whole sizes maxRecord r).entry.isSent := by
  rw [whole]
  split
  case h_1 => exact sent
  case h_2 marker cut =>
    simp only [split] at cut
    split at cut
    · cases cut
    · split_ifs at cut
      split at cut <;> cases cut
      simp only [Entry.isSent, Bool.and_eq_true] at sent ⊢
      exact ⟨sent.1, rfl⟩

/-- The records of a submission are those of its groups. -/
theorem submit_sources {sizes : Sizes V} {maxRecord : ℕ} {stream : StreamId}
    {cellName : Option String} {c : Option Position} {groups : List (List (Record V))}
    (ascends : Ascends key stream c groups) {e : Record V × Record V × Submitted}
    (mem : e ∈ groups.flatMap (groupEntries sizes maxRecord key stream cellName)) :
    e.2.2.position.epoch = key.epoch ∧ e.2.1.position = e.2.2.position ∧ e.2.1.entry.isSent := by
  induction groups generalizing c with
  | nil => simp at mem
  | cons group groups ih =>
    cases group with
    | nil => exact ascends.elim
    | cons =>
      obtain ⟨at_, epoch, -, ascends⟩ := ascends
      rw [flatMap_cons, mem_append] at mem
      refine mem.elim (fun mine => ?_) (ih ascends)
      obtain ⟨_, lt, rfl⟩ := mem_mapIdx.mp mine
      obtain ⟨r, memR, memP⟩ := mem_flatMap.mp (getElem_mem lt)
      obtain ⟨_, memW, eq⟩ := mem_map.mp memP
      obtain ⟨same, -, sent⟩ := at_ r memR
      simp only [← eq]
      rw [position_wire memW, position_whole, same]
      exact ⟨epoch, rfl, whole_isSent sent⟩

theorem settle_position {d : Delivered} {m : Submitted} {p : Position}
    (here : p ∈ (d.settle m result).position) :
    p ∈ d.position ∨ p = m.position ∧ m.watermark = false := by
  unfold settle at here
  cases result with
  | acknowledged =>
    dsimp only at here
    by_cases closes : m.closes = true
    · rw [if_pos closes] at here
      split_ifs at here with frozen plain
      · exact .inl here
      · exact .inl here
      all_goals exact .inr ⟨(Option.some.inj here).symm, by simpa using plain⟩
    · rw [if_neg closes] at here
      split_ifs at here <;> exact .inl here
  | dropped =>
    dsimp only at here
    split_ifs at here <;> exact .inl here

theorem settle_frozen {d : Delivered} (m : Submitted) (result : SinkDelivery)
    (frozen : d.frozen = true) : (d.settle m result).frozen = true := by
  simp [settle, frozen]

theorem dropGap_eq_some {d : Delivered} {m : Submitted} {gap : GapBody}
    (drop : d.dropGap m result = some gap) :
    d.frozen = false ∧ (∃ reason, result = .dropped reason) ∧
      (d.settle m result).frozen = true := by
  unfold dropGap at drop
  cases result with
  | acknowledged => cases drop
  | dropped =>
    dsimp only at drop
    split_ifs at drop with frozen
    simp [settle, frozen]

/-- A result leaves the gap of the record it drops. -/
theorem Emits.settleResult (emits : Emits x) (fits : x.Fits) (booked : Booked x) {seq : ℕ}
    {rest : List (ℕ × SinkDelivery)} {dirty : BTreeSet DeliveryKey}
    {followUp : List (Record V × Submitted)}
    (task : x.task = .results ((seq, result) :: rest) dirty followUp) :
    Emits (x.settleResult seq result rest dirty followUp) := by
  have follow := emits.follow
  simp only [followUps, task] at follow
  have handled : ∀ h ∈ x.handled, h ∈ x.handled ++ [(seq, result)] := fun h mem =>
    mem_append_left _ mem
  have plain : Emits { x with
      handled := x.handled ++ [(seq, result)]
      submitted := x.submitted.erase seq
      task := .results rest dirty followUp } :=
    { emits with
      logged := fun q mem watermark => (emits.logged q mem watermark).imp_right fun follows =>
        follows.mono (fun _ => id) handled id
      follow := fun r mem => (follow r mem).mono (fun _ => id) handled id }
  unfold Exporter.settleResult
  cases found : x.submitted[seq]? with
  | none => exact plain
  | some m =>
    obtain ⟨q₀, mem₀, at_, rfl⟩ := booked.registered seq m found
    dsimp only
    split_ifs with recovered
    · exact plain
    · have own : q₀.info.watermark = false → q₀ ∈ x.own q₀.info.key := fun plain =>
        mem_own.mpr ⟨mem₀, isOwn_iff.mpr ⟨rfl, plain, by simpa using recovered⟩⟩
      have frozen : ∀ key, (x.streams.value key).frozen →
          ((x.streams.modify q₀.info.key (·.settle q₀.info result)).value key).frozen :=
        Cache.Store.modify_forall
          (P := fun key (d : Delivered) => (x.streams.value key).frozen → d.frozen) fits.1
          (settle_frozen _ _) fun _ _ => id
      constructor
      case own => exact emits.own
      case advances => exact emits.advances
      case reached =>
        refine Cache.Store.modify_forall
          (P := fun key (d : Delivered) => ∀ p ∈ d.position, p.epoch = key.epoch) fits.1
          (fun p here => ?_) fun key _ => emits.reached key
        rcases settle_position here with before | ⟨rfl, plain⟩
        · exact emits.reached _ p before
        · exact (emits.own _ q₀ (own plain)).1
      case logged =>
        intro q mem watermark
        exact (emits.logged q mem watermark).imp_right fun follows =>
          follows.mono (fun _ => id) handled (frozen _)
      case follow =>
        intro r mem
        rcases mem_append.mp mem with old | isNew
        · exact (follow r old).mono (fun _ => id) handled (frozen _)
        · obtain ⟨gap, drop, rfl⟩ := map_eq_some_iff.mp (mem_toList.mp isNew)
          obtain ⟨thawed, ⟨reason, rfl⟩, stopped⟩ := dropGap_eq_some drop
          -- The stream was not frozen, so what was dropped is not a gap.
          have cause : q₀.info.position.epoch = q₀.info.key.epoch ∧ (q₀.info.watermark →
              ∃ w, q₀.source.body = .watermark w ∧ w.through = q₀.info.position) := by
            cases watermark : q₀.info.watermark with
            | false => exact ⟨(emits.own _ q₀ (own watermark)).1, by simp⟩
            | true =>
              obtain ⟨-, -, -, epoch, mark | ⟨-, frozen, -⟩⟩ := emits.logged q₀ mem₀ watermark
              · exact ⟨epoch, fun _ => mark⟩
              · cases thawed.symm.trans frozen
          have plain : q₀.info.recovered = false := by simpa using recovered
          refine ⟨plain, rfl, cause.1, .inr ⟨⟨gap, rfl⟩, ?_, q₀, mem₀, rfl, plain, rfl,
            ⟨reason, ?_⟩, cause.2⟩⟩
          · change ((x.streams.modify q₀.info.key (·.settle q₀.info _)).value q₀.info.key).frozen
            rw [Cache.Store.value_modify _ fits.1, Function.update_self]
            exact stopped
          · rw [at_]
            exact mem_append_right _ mem_cons_self

theorem markAll_emits {P : DeliveryKey → Delivered → Prop} (step : ∀ key d, P key d → P key d.mark)
    (keys : List DeliveryKey) {streams : DeliveryStates} (fits : ∀ key, (streams.value key).fits)
    (all : ∀ key, P key (streams.value key)) :
    (∀ key, P key ((markAll (V := V) streams keys).2.value key)) ∧
      ∀ r ∈ (markAll (V := V) streams keys).1, ∃ key d stream w, P key d ∧
        d.due = some (stream, w) ∧ r.1.body = .watermark w ∧ w.through = r.2.position ∧
        r.1.position = r.2.position ∧ r.2.key.epoch = key.epoch ∧ r.2.recovered = false := by
  induction keys generalizing streams with
  | nil => exact ⟨all, by simp [markAll]⟩
  | cons k keys ih =>
    have next : ∀ key, P key ((streams.modify k mark).value key) :=
      Cache.Store.modify_forall fits (step k _ (all k)) fun key _ => all key
    have ih := ih (Cache.Store.modify_forall (P := fun _ (d : Delivered) => d.fits) fits
      (fits_mark (fits k)) fun key _ => fits key) next
    refine ⟨ih.1, fun r mem => ?_⟩
    rcases mem_append.mp mem with mine | later
    · obtain ⟨⟨stream, w⟩, due, rfl⟩ := map_eq_some_iff.mp (mem_toList.mp mine)
      exact ⟨k, _, stream, w, all k, due, rfl, rfl, rfl, rfl, rfl⟩
    · exact ih.2 r later

theorem mark_frame (d : Delivered) : d.mark.position = d.position ∧ d.mark.frozen = d.frozen := by
  unfold mark
  split <;> exact ⟨rfl, rfl⟩

/-- What the end of an outcome keeps of every stream. -/
def Keeps (x : Exporter V) (key : DeliveryKey) (d : Delivered) : Prop :=
  (∀ p ∈ d.position, p.epoch = key.epoch) ∧ d.frozen = (x.streams.value key).frozen

theorem Emits.resolve (emits : Emits x) (fits : x.Fits) (dirty : BTreeSet DeliveryKey)
    {followUp : List (Record V × Submitted)} (task : x.task = .results [] dirty followUp) :
    Emits (x.resolve dirty followUp) := by
  have advanced := foldl_advance (P := Keeps x)
    (fun a (mem : a ∈ x.ready) d known => ⟨fun p here => by
      simp only [advance] at here
      split_ifs at here
      · cases here
        exact emits.advances a.1 a.2
          (Std.ExtTreeMap.mem_toList_iff_getElem?_eq_some.mp (mem_filter.mp mem).1)
      · exact known.1 p here, known.2⟩)
    (fun a mem => fits.2 a (mem_filter.mp mem).1) fun key => ⟨⟨emits.reached key, rfl⟩, fits.1 key⟩
  obtain ⟨streams, marks⟩ := markAll_emits
    (fun key d known => by rwa [Keeps, (mark_frame d).1, (mark_frame d).2])
    (x.ready.foldl (fun dirty a => dirty.insert a.2.key) dirty).toList
    (fun key => (advanced key).2) fun key => (advanced key).1
  have frozen : ∀ key, (x.streams.value key).frozen →
      ((x.resolve dirty followUp).streams.value key).frozen := fun key stopped =>
    (streams key).2.trans stopped
  have keeps : ∀ r, Follows x r → Follows (x.resolve dirty followUp) r := fun r follows =>
    follows.mono (fun _ => id) (fun _ => id) (frozen _)
  constructor
  case own => exact emits.own
  case advances => exact fun seq m found => emits.advances seq m (foldl_erase_some found)
  case reached => exact fun key => (streams key).1
  case logged =>
    exact fun q mem watermark => (emits.logged q mem watermark).imp_right (keeps _)
  case follow =>
    intro r mem
    rcases mem_append.mp mem with _ | isNew
    · refine keeps r (emits.follow r ?_)
      rwa [followUps, task]
    · obtain ⟨key, d, _, w, known, due, body, through, at_, epoch, own⟩ := marks r isNew
      refine ⟨own, at_, ?_, .inl ⟨w, body, through⟩⟩
      rw [epoch, ← through]
      exact known.1 _ (due_eq_some due).2.1

variable {sizes : Sizes V} {maxRecord : ℕ}

theorem Emits.step (emits : Emits x) (fits : x.Fits) (booked : Booked x) {event : Event V}
    (legal : x.Legal event) : Emits (x.step sizes maxRecord event) := by
  -- A step that registers nothing.
  have still : ∀ {x' : Exporter V}, x'.log = x.log → x'.handled = x.handled →
      x'.streams = x.streams →
      (∀ (seq : ℕ) (m : Submitted), x'.advances[seq]? = some m → m.position.epoch = m.epoch) →
      x'.followUps = x.followUps → Emits x' :=
    fun log handled streams advances follow => emits.extend
      (log.trans (append_nil _).symm) (by simp) handled streams advances (by simp [follow])
  cases event with
  | submit key stream cellName groups =>
    have frame := register_frame x (.stream key)
      (groups.flatMap (groupEntries sizes maxRecord key stream cellName))
    refine emits.extend frame.log (fun q mem => ?_) frame.handled frame.streams
      (fun seq m found => emits.advances seq m (frame.advances ▸ found))
      (by simp [followUps, Exporter.step, frame.task])
    obtain ⟨plain, own⟩ := submit_isOwn legal.2.1 mem
    refine ⟨fun key' isOwn => ?_, fun watermark => absurd watermark (by simp [plain])⟩
    rw [← (own key').mp isOwn]
    exact submit_sources legal.2.2 (mem_numbered mem).2.2
  | recover records =>
    have frame := register_frame x .recovery (records.map fun r => (r.1, r.1, r.2))
    refine emits.extend frame.log (fun q mem => ?_) frame.handled frame.streams
      (fun seq m found => emits.advances seq m (frame.advances ▸ found))
      (by simp [followUps, Exporter.step, frame.task])
    obtain ⟨r, memR, eq⟩ := mem_map.mp (mem_numbered mem).2.2
    obtain ⟨recovered, plain⟩ := legal.2 r memR
    have info : r.2 = q.info := congrArg (fun e => e.2.2) eq
    refine ⟨fun key own => ?_, fun watermark => absurd watermark (by simp [← info, plain])⟩
    have notRecovered := (isOwn_iff.mp own).2.2
    rw [← info, recovered] at notRecovered
    cases notRecovered
  | take who | refuse who | withdraw who =>
    simp only [Exporter.step]
    split <;> exact still rfl rfl rfl emits.advances rfl
  | advance =>
    refine still rfl rfl rfl (fun seq m' found => ?_) rfl
    simp only [Exporter.step, Std.ExtTreeMap.getElem?_insert] at found
    split_ifs at found
    · cases found
      exact legal.2.2
    · exact emits.advances seq m' found
  | report => exact still rfl rfl rfl emits.advances rfl
  | receive =>
    simp only [Exporter.step]
    split
    case h_1 outcome outcomes next =>
      refine still rfl rfl rfl emits.advances ?_
      have at_ := legal.1
      split at at_
      case h_1 idle => simp only [followUps, idle]
      case h_2 => exact at_.elim
    case h_2 => exact emits
  | result =>
    simp only [Exporter.step]
    split
    case h_1 seq result rest dirty followUp task => exact emits.settleResult fits booked task
    case h_2 => exact emits
  | resolve =>
    simp only [Exporter.step]
    split
    case h_1 dirty followUp task => exact emits.resolve fits dirty task
    case h_2 => exact emits
  | followUp =>
    simp only [Exporter.step]
    split
    case h_1 followUp task =>
      have follow := booked.follow
      have follows := emits.follow
      simp only [followUps, task] at follow follows
      have frame := register_frame x .delivery (followUp.map fun r => (r.1, r.1, r.2))
      refine emits.extend frame.log (fun q mem => ?_) frame.handled frame.streams
        (fun seq m found => emits.advances seq m (frame.advances ▸ found)) (by simp [followUps])
      obtain ⟨r, memR, eq⟩ := mem_map.mp (mem_numbered mem).2.2
      obtain ⟨record, source, info⟩ : r.1 = q.record ∧ r.1 = q.source ∧ r.2 = q.info := by
        obtain ⟨record, source⟩ := Prod.mk.inj eq
        exact ⟨record, Prod.mk.inj source⟩
      refine ⟨fun key own => ?_, fun _ => ⟨record ▸ source, ?_⟩⟩
      · have plain := (isOwn_iff.mp own).2.1
        rw [← info, follow r memR] at plain
        cases plain
      · rw [← source, ← info]
        exact follows r memR
    case h_2 => exact emits

theorem Reachable.emits (reachable : Reachable sizes maxRecord x) : Emits x := by
  induction reachable with
  | start => exact emits_start
  | step before fits _ legal ih => exact ih.step fits before.inv.booked legal

end

end Celld.Export.Exporter
