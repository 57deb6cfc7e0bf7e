import Celld.Export.Emitted
import Celld.Export.Reset

/-!
# Certification across processes

The consumer counts what it holds in the range of a watermark, and a process counts what it
submitted.  The two agree as long as one process exported an epoch: then a certified position has
everything at or below it, and complete delivery is certified.  A process that resumes the epoch of
an earlier one starts a new chain, with counts of its own over a range that holds the earlier one's
records, and both fail.
-/

namespace Celld.Export

open List

variable {w : WatermarkBody} {ws : List WatermarkBody}

theorem pairwise_or {α : Type*} {R : α → α → Prop} {l : List α} (pairs : l.Pairwise R) {a b : α}
    (memA : a ∈ l) (memB : b ∈ l) (ne : a ≠ b) : R a b ∨ R b a := by
  have : Std.Symm fun a b => R a b ∨ R b a := ⟨fun _ _ => Or.symm⟩
  have either : l.Pairwise fun a b => R a b ∨ R b a := pairs.imp .inl
  exact either.forall memA memB ne

/-! ## Chains -/

/-- A chain starts at or above where it is said to. -/
theorem chained_from {a : Position} (chained : Chained (some a) ws)
    (mem : w ∈ ws) : ∃ p ∈ w.from_, a ≤ p ∧ p < w.through := by
  induction ws generalizing a with
  | nil => cases mem
  | cons w' ws ih =>
    obtain ⟨from_, above, chained⟩ := chained
    have up : a < w'.through := above a rfl
    rcases mem_cons.mp mem with rfl | later
    · exact ⟨a, from_, le_rfl, up⟩
    · obtain ⟨p, here, le, lt⟩ := ih chained later
      exact ⟨p, here, up.le.trans le, lt⟩

theorem chained_pairwise {start : Option Position}
    (chained : Chained start ws) : ws.Pairwise fun w w' => ∃ p ∈ w'.from_, w.through ≤ p := by
  induction ws generalizing start with
  | nil => exact .nil
  | cons w ws ih =>
    obtain ⟨-, -, chained⟩ := chained
    refine .cons (fun w' mem => ?_) (ih chained)
    obtain ⟨p, here, le, -⟩ := chained_from chained mem
    exact ⟨p, here, le⟩

theorem chained_up (chained : Chained none ws) (mem : w ∈ ws) {p : Position}
    (here : p ∈ w.from_) : p < w.through := by
  cases ws with
  | nil => cases mem
  | cons =>
    obtain ⟨from_, -, chained⟩ := chained
    rcases mem_cons.mp mem with rfl | later
    · rw [from_] at here
      cases here
    · obtain ⟨_, here', -, lt⟩ := chained_from chained later
      cases Option.mem_unique here here'
      exact lt

namespace Exporter

section

variable {V : Type} {x : Exporter V} {sizes : Sizes V} {maxRecord : ℕ} {key : DeliveryKey}
  {q : Queued V}

/-- The process registered a record of the stream. -/
def Serves (x : Exporter V) (key : DeliveryKey) : Prop :=
  ∃ q ∈ x.log, q.info.key = key ∧ q.info.recovered = false

/-- What the sink took for a stream and has not given up, a record by its last piece. -/
def landed (x : Exporter V) (key : DeliveryKey) : List (Queued V) :=
  x.accepted.filter fun q => q.info.key = key && !q.info.recovered &&
    (q.info.whole || q.info.watermark) && !x.isDropped q.seq

theorem mem_landed : q ∈ x.landed key ↔ q ∈ x.accepted ∧ q.info.key = key ∧
    q.info.recovered = false ∧ (q.info.whole ∨ q.info.watermark) ∧ x.isDropped q.seq = false := by
  simp [landed, and_assoc]

/-- A watermark that landed is one the sink took. -/
theorem landed_watermark (emits : Emits x) (booked : Booked x) (mem : q ∈ x.landed key)
    (body : q.source.body = .watermark w) :
    q.info.watermark ∧ q.record = q.source ∧ w ∈ x.acceptedMarks key ∧
      w.through.epoch = key.epoch := by
  obtain ⟨taken, mine, plain, -, -⟩ := mem_landed.mp mem
  have logged := booked.logged q taken
  have watermark : q.info.watermark = true := by
    by_contra own
    have sent := (emits.own key q (mem_own.mpr ⟨logged, isOwn_iff.mpr
      ⟨mine, by simpa using own, plain⟩⟩)).2.2
    simp [Entry.isSent, Record.entry, body] at sent
  obtain ⟨record, -, -, epoch, ⟨_, body', through⟩ | ⟨⟨_, body'⟩, -⟩⟩ :=
    emits.logged q logged watermark <;> rw [body] at body'
  · cases body'
    refine ⟨watermark, record, mem_filterMap.mpr ⟨_, mem_map_of_mem taken, ?_⟩, ?_⟩
    · simp [mine, watermark, record, body]
    · rw [through, ← mine]
      exact epoch
  · cases body'

/-- The sink took a watermark once. -/
theorem marked_once (inv : Inv x) {q' : Queued V} (mem : q ∈ x.accepted) (mem' : q' ∈ x.accepted)
    (mine : q.info.key = key ∧ q.info.watermark) (mine' : q'.info.key = key ∧ q'.info.watermark)
    (body : q.record.body = .watermark w) (body' : q'.record.body = .watermark w) : q = q' := by
  have chained := (inv.marks key).chain
  have apart := chained_pairwise chained
  simp only [acceptedMarks, marksOf, filterMap_map, pairwise_filterMap] at apart
  have up : ∀ p ∈ w.from_, p < w.through := fun p => chained_up chained
    (mem_filterMap.mpr ⟨_, mem_map_of_mem mem, by simp [mine, body]⟩)
  by_contra ne
  rcases pairwise_or apart mem mem' ne with after | after
  · obtain ⟨p, here, le⟩ := after w (by simp [mine, body]) w (by simp [mine', body'])
    exact absurd (up p here) (not_lt.mpr le)
  · obtain ⟨p, here, le⟩ := after w (by simp [mine', body']) w (by simp [mine, body])
    exact absurd (up p here) (not_lt.mpr le)

theorem not_isDropped {seq : ℕ} (here : x.isDropped seq = false) {reason : String} :
    (seq, .dropped reason) ∉ x.handled ++ x.pending := by
  intro mem
  simp only [isDropped, any_eq_false] at here
  exact here _ mem (by simp)

theorem Booked.taken_of_handled (booked : Booked x) (mem : q ∈ x.log) {result : SinkDelivery}
    (settled : (q.seq, result) ∈ x.handled) : q ∈ x.accepted := by
  obtain ⟨before, after, eq⟩ := append_of_mem settled
  obtain ⟨-, ⟨q', taken, at_⟩, -⟩ := booked.reports before _ _ (after ++ x.pending)
    (by rw [eq, append_assoc, cons_append])
  rwa [← booked.eq_of_seq (booked.logged q' taken) mem at_]

/-- What lands in the range of a watermark that landed is a record of the stream's own. -/
theorem landed_own (inv : Inv x) (emits : Emits x) {qw : Queued V} (mem : q ∈ x.landed key)
    (sent : q.source.entry.isSent) (memW : qw ∈ x.landed key) (body : qw.source.body = .watermark w)
    (inside : covers w q.source.position) :
    q ∈ x.own key ∧ q.info.whole := by
  obtain ⟨taken, mine, plain, kind, -⟩ := mem_landed.mp mem
  obtain ⟨takenW, mineW, -, -, kept⟩ := mem_landed.mp memW
  have booked := inv.booked
  have logged := booked.logged q taken
  obtain ⟨watermarkW, recordW, marked, -⟩ := landed_watermark emits booked memW body
  simp only [covers, Bool.and_eq_true, decide_eq_true_eq] at inside
  cases watermark : q.info.watermark with
  | false => exact ⟨mem_own.mpr ⟨logged, isOwn_iff.mpr ⟨mine, watermark, plain⟩⟩,
      kind.resolve_right (by simp [watermark])⟩
  | true =>
    obtain ⟨-, -, at_, -, ⟨w', body', -⟩ | ⟨-, -, lost, memL, mineL, plainL, same, ⟨_, drop⟩,
      cause⟩⟩ := emits.logged q logged watermark <;> exfalso
    · simp [Entry.isSent, Record.entry, show q.source.body = _ from body'] at sent
    -- A gap: what was dropped is not below a watermark, and is no watermark that landed.
    · dsimp only at mineL same at_
      rw [at_, ← same] at inside
      cases mark : lost.info.watermark with
      | false =>
        have own : lost ∈ x.own key := mem_own.mpr ⟨memL, isOwn_iff.mpr
          ⟨mineL.trans mine, mark, plainL⟩⟩
        have settled := ((inv.marks key).exacts w marked).acks lost own inside.2
        cases booked.result_unique (mem_append_left _ settled)
          (mem_append_left _ drop)
      | true =>
        obtain ⟨w', bodyL, through⟩ := cause mark
        have takenL := booked.taken_of_handled memL drop
        have recordL := (emits.logged lost memL mark).1
        have marked' : w' ∈ x.acceptedMarks key := mem_filterMap.mpr
          ⟨_, mem_map_of_mem takenL, by simp [mineL, mine, mark, recordL, bodyL]⟩
        rw [← through] at inside
        have chained := (inv.marks key).chain
        have one : w' = w := by
          by_contra ne
          rcases pairwise_or (chained_pairwise chained) marked' marked ne with
            ⟨p, here, le⟩ | ⟨p, here, le⟩
          · have lt := inside.1
            rw [Option.mem_def.mp here] at lt
            exact absurd (of_decide_eq_true lt) (not_lt.mpr le)
          · exact absurd inside.2 (not_le.mpr (le.trans_lt (chained_up chained marked' here)))
        subst one
        cases marked_once inv takenL takenW ⟨mineL.trans mine, mark⟩ ⟨mineW, watermarkW⟩
          (recordL ▸ bodyL) (recordW ▸ body)
        exact not_isDropped kept (mem_append_left _ drop)

/-! ## What a consumer holds -/

/-- What a consumer may hold of a cell: records and watermarks that landed, each once.  Of what it
does not count it may hold anything. -/
structure Holding (fleet : List (Exporter V)) (cell : String) (incarnation : ℕ)
    (held : List (Entry V)) : Prop where
  nodup : held.Nodup
  emitted : ∀ e ∈ held, (e.isSent ∨ ∃ w, e.body = .watermark w) → ∃ x ∈ fleet, ∃ epoch,
    ∃ q ∈ x.landed ⟨cell, epoch, incarnation⟩, q.source.entry = e

/-- No two processes exported the epoch. -/
def Alone (fleet : List (Exporter V)) (key : DeliveryKey) : Prop :=
  fleet.Pairwise fun x x' => ¬(x.Serves key ∧ x'.Serves key)

variable {fleet : List (Exporter V)} {held : List (Entry V)}

theorem landed_epoch (emits : Emits x) (booked : Booked x)
    (mem : q ∈ x.landed key) : q.source.position.epoch = key.epoch := by
  obtain ⟨taken, mine, plain, -, -⟩ := mem_landed.mp mem
  have logged := booked.logged q taken
  cases watermark : q.info.watermark with
  | false =>
    obtain ⟨epoch, at_, -⟩ := emits.own key q (mem_own.mpr ⟨logged, isOwn_iff.mpr
      ⟨mine, watermark, plain⟩⟩)
    rw [at_, epoch]
  | true =>
    obtain ⟨-, -, at_, epoch, -⟩ := emits.logged q logged watermark
    rw [show q.source.position = _ from at_, show q.info.position.epoch = _ from epoch, mine]

theorem Alone.eq (alone : Alone fleet key) {x' : Exporter V} (mem : x ∈ fleet)
    (mem' : x' ∈ fleet) (serves : x.Serves key) (serves' : x'.Serves key) : x = x' := by
  by_contra ne
  rcases pairwise_or alone mem mem' ne with apart | apart
  · exact apart ⟨serves, serves'⟩
  · exact apart ⟨serves', serves⟩

theorem Serves.of_landed (booked : Booked x) (mem : q ∈ x.landed key) :
    x.Serves key := by
  obtain ⟨taken, mine, plain, -, -⟩ := mem_landed.mp mem
  exact ⟨q, booked.logged q taken, mine, plain⟩

/-- Of an epoch's positions, a watermark spans those it covers. -/
theorem spans_iff {p : Position} (same : p.epoch = w.through.epoch) :
    w.spans p = covers w p := by
  unfold WatermarkBody.spans covers
  rw [Bool.and_comm]
  congr 1
  cases w.from_ with
  | some => rfl
  | none =>
    refine decide_eq_true (Position.le_iff.mpr (.inr ⟨same.symm, ?_⟩))
    rcases Nat.eq_zero_or_pos p.txid with zero | pos
    · exact .inr ⟨zero.symm, Nat.zero_le _⟩
    · exact .inl pos

theorem epoch_of_spans {p : Position} (spans : w.spans p)
    (start : ∀ lo ∈ w.from_, lo.epoch = w.through.epoch) : p.epoch = w.through.epoch := by
  simp only [WatermarkBody.spans, Bool.and_eq_true, decide_eq_true_eq] at spans
  obtain ⟨le, above⟩ := spans
  have low : w.through.epoch ≤ p.epoch := by
    cases from_ : w.from_ with
    | some lo =>
      rw [from_] at above
      have lt := Position.lt_iff.mp (of_decide_eq_true above)
      have := start lo from_
      omega
    | none =>
      rw [from_] at above
      have ge := Position.le_iff.mp (of_decide_eq_true above)
      dsimp only at ge
      omega
  have := Position.le_iff.mp le
  omega

namespace Holding

variable (holding : Holding fleet key.cell key.incarnation held)
  (reachable : ∀ x ∈ fleet, Reachable sizes maxRecord x) (alone : Alone fleet key)
  (mem : x ∈ fleet) (serves : x.Serves key)

include holding reachable alone mem serves

/-- What a consumer counts for an epoch comes from the process that exported it. -/
theorem source {e : Entry V} (memE : e ∈ held)
    (counts : e.isSent ∧ e.position.epoch = key.epoch ∨
      ∃ w, e.body = .watermark w ∧ w.through.epoch = key.epoch) :
    ∃ q ∈ x.landed key, q.source.entry = e := by
  obtain ⟨x', mem', epoch, q, landed, rfl⟩ := holding.emitted e memE
    (counts.imp And.left fun ⟨w, body, _⟩ => ⟨w, body⟩)
  have inv := (reachable x' mem').inv
  have emits := (reachable x' mem').emits
  have same : epoch = key.epoch := by
    rcases counts with ⟨-, at_⟩ | ⟨w, body, at_⟩
    · exact (landed_epoch emits inv.booked landed).symm.trans at_
    · exact (landed_watermark emits inv.booked landed body).2.2.2.symm.trans at_
  subst same
  have one := alone.eq mem mem' serves (Serves.of_landed inv.booked landed)
  subst one
  exact ⟨q, landed, rfl⟩

/-- What a consumer counts for a watermark of the epoch is of the stream's own. -/
theorem inRange (memW : w ∈ watermarks held) (epoch : w.through.epoch = key.epoch)
    (start : ∀ lo ∈ w.from_, lo.epoch = key.epoch) :
    Exact x key w ∧ ∀ e ∈ (held.filter (·.isSent)).filter fun e => w.spans e.position,
      e ∈ ((x.own key).filter fun q => q.info.whole && covers w q.info.position).map
        (·.source.entry) := by
  have inv := (reachable x mem).inv
  have emits := (reachable x mem).emits
  obtain ⟨_, memM, body⟩ := mem_watermarks.mp memW
  obtain ⟨_, landedW, rfl⟩ := holding.source reachable alone mem serves memM
    (.inr ⟨w, body, epoch⟩)
  obtain ⟨-, -, marked, -⟩ := landed_watermark emits inv.booked landedW body
  refine ⟨(inv.marks key).exacts w marked, fun e memE => ?_⟩
  simp only [mem_filter] at memE
  obtain ⟨⟨memE, sent⟩, spans⟩ := memE
  have same := epoch_of_spans spans fun lo here => (start lo here).trans epoch.symm
  obtain ⟨q, landed, rfl⟩ := holding.source reachable alone mem serves memE
    (.inl ⟨sent, same.trans epoch⟩)
  rw [spans_iff same] at spans
  obtain ⟨own, whole⟩ := landed_own inv emits landed sent landedW body spans
  refine mem_map_of_mem (mem_filter.mpr ⟨own, ?_⟩)
  rw [whole, Bool.true_and, ← (emits.own key q own).2.1]
  exact spans

/-- The counts of a watermark match what a consumer holds that holds everything. -/
theorem matches_ (undropped : ∀ seq, x.isDropped seq = false)
    (complete : ∀ q ∈ x.landed key, q.source.entry ∈ held)
    (apart : (((x.own key).filter (·.info.whole)).map (·.source.entry)).Nodup)
    (memW : w ∈ watermarks held) (epoch : w.through.epoch = key.epoch)
    (start : ∀ lo ∈ w.from_, lo.epoch = key.epoch) : w.matches_ held := by
  have inv := (reachable x mem).inv
  have emits := (reachable x mem).emits
  obtain ⟨counts, sub⟩ := holding.inRange reachable alone mem serves memW epoch start
  set counted := (x.own key).filter fun q => q.info.whole && covers w q.info.position
    with counted_def
  have nodup : (counted.map (·.source.entry)).Nodup := by
    refine apart.sublist ((monotone_filter_right _ fun q inside => ?_).map _)
    rw [Bool.and_eq_true] at inside
    exact inside.1
  have same : ((held.filter (·.isSent)).filter fun e => w.spans e.position).Perm
      (counted.map (·.source.entry)) := by
    refine (perm_ext_iff_of_nodup ((holding.nodup.filter _).filter _) nodup).mpr fun e =>
      ⟨sub e, fun memE => ?_⟩
    obtain ⟨q, memQ, rfl⟩ := mem_map.mp memE
    obtain ⟨own, inside⟩ := mem_filter.mp memQ
    rw [Bool.and_eq_true] at inside
    obtain ⟨atEpoch, at_, sent⟩ := emits.own key q own
    obtain ⟨logged, isOwn⟩ := mem_own.mp own
    have le : q.info.position ≤ w.through := by
      have both := inside.2
      simp only [covers, Bool.and_eq_true, decide_eq_true_eq] at both
      exact both.2
    have taken := inv.booked.taken_of_handled logged (counts.acks q own le)
    have held_ := complete q (mem_landed.mpr ⟨taken, (isOwn_iff.mp isOwn).1,
      (isOwn_iff.mp isOwn).2.2, .inl inside.1, undropped _⟩)
    refine mem_filter.mpr ⟨mem_filter.mpr ⟨held_, sent⟩, ?_⟩
    change w.spans q.source.position
    rw [at_, spans_iff (atEpoch.trans epoch.symm)]
    exact inside.2
  have positions : (counted.map (·.source.entry)).map (·.position) =
      counted.map (·.info.position) := by
    rw [map_map]
    exact map_congr_left fun q memQ => (emits.own key q (mem_filter.mp memQ).1).2.1
  simp only [WatermarkBody.matches_, Bool.and_eq_true, decide_eq_true_eq]
  refine ⟨?_, ?_⟩
  · rw [same.length_eq, length_map, counts.records]
  · rw [counts.commits, ← card_toFinset, ← card_toFinset,
      toFinset_eq_of_perm _ _ (same.map _), positions]
    congr 1
    ext p
    simp only [mem_toFinset, mem_map, counted_def, mem_filter, Bool.and_eq_true]
    constructor
    · rintro ⟨q, ⟨own, -, inside⟩, rfl⟩
      exact ⟨q, ⟨own, inside⟩, rfl⟩
    · rintro ⟨q, ⟨own, inside⟩, rfl⟩
      obtain ⟨q', own', at_, whole⟩ := inv.booked.whole key q own
      exact ⟨q', ⟨own', whole, at_ ▸ inside⟩, at_⟩

end Holding

/-- What a consumer has certified it holds, where one process exported the epoch. -/
theorem certified_held (reachable : ∀ x ∈ fleet, Reachable sizes maxRecord x)
    (holding : Holding fleet key.cell key.incarnation held) (alone : Alone fleet key)
    {p : Position} (certified : certify held key.epoch = some p) (mem : x ∈ fleet) {q : Queued V}
    (own : q ∈ x.own key) (whole : q.info.whole) (le : q.info.position ≤ p) :
    q.source.entry ∈ held := by
  have serves : x.Serves key := by
    obtain ⟨logged, isOwn⟩ := mem_own.mp own
    exact ⟨q, logged, (isOwn_iff.mp isOwn).1, (isOwn_iff.mp isOwn).2.2⟩
  -- Along the chain, everything of the stream up to where it has come is held.
  have reached : ∀ p ∈ certify held key.epoch, p.epoch = key.epoch ∧ ∀ q ∈ x.own key,
      q.info.whole → q.info.position ≤ p → q.source.entry ∈ held := by
    refine chain_induct
      (P := fun r => ∀ p ∈ r, p.epoch = key.epoch ∧ ∀ q ∈ x.own key, q.info.whole →
        q.info.position ≤ p → q.source.entry ∈ held)
      (fun w memW reached continues before p here => ?_) _ (by simp)
    cases here
    simp only [WatermarkBody.continues, WatermarkBody.matches_, Bool.and_eq_true,
      decide_eq_true_eq] at continues
    obtain ⟨⟨⟨epoch, from_⟩, -⟩, count, -⟩ := continues
    refine ⟨epoch, fun q own whole le => ?_⟩
    obtain ⟨counts, sub⟩ := holding.inRange reachable alone mem serves memW epoch
      fun lo here => (before lo (from_ ▸ here)).1
    by_cases after : w.from_.all (· < q.info.position)
    · have nodup : ((held.filter (·.isSent)).filter fun e => w.spans e.position).Nodup :=
        (holding.nodup.filter _).filter _
      have all := (subperm_of_subset nodup sub).perm_of_length_le (by
        rw [length_map, count, counts.records])
      have here := all.mem_iff.mpr (mem_map_of_mem
        (mem_filter.mpr ⟨own, by simp [whole, covers, after, le]⟩))
      exact (mem_filter.mp (mem_filter.mp here).1).1
    · obtain ⟨lo, here, below⟩ : ∃ lo ∈ w.from_, q.info.position ≤ lo := by
        cases at_ : w.from_ with
        | none => simp [at_] at after
        | some lo => exact ⟨lo, rfl, by simpa [at_] using after⟩
      exact (before lo (from_ ▸ here)).2 q own whole below
  exact (reached p certified).2 q own whole le

/-! ## Complete delivery -/

/-- The watermarks of an epoch that one process exported are those of that process. -/
theorem Alone.marks (reachable : ∀ x ∈ fleet, Reachable sizes maxRecord x)
    (alone : Alone fleet key) (mem : x ∈ fleet) (serves : x.Serves key) :
    fleet.flatMap (·.acceptedMarks key) = x.acceptedMarks key := by
  have idle : ∀ x' ∈ fleet, ¬x'.Serves key → x'.acceptedMarks key = [] := by
    intro x' mem' unserved
    refine filterMap_eq_nil_iff.mpr fun r memR => ?_
    obtain ⟨q, taken, rfl⟩ := mem_map.mp memR
    refine if_neg fun mine => unserved ?_
    simp only [Bool.and_eq_true, decide_eq_true_eq] at mine
    have logged := (reachable x' mem').inv.booked.logged q taken
    exact ⟨q, logged, mine.1, ((reachable x' mem').emits.logged q logged mine.2).2.1⟩
  obtain ⟨_, _, rfl⟩ := append_of_mem mem
  obtain ⟨-, after, before⟩ := pairwise_append.mp alone
  rw [flatMap_append, flatMap_cons, flatMap_eq_nil_iff.mpr fun x' mem' => ?_,
    flatMap_eq_nil_iff.mpr fun x' mem' => ?_, nil_append, append_nil]
  · refine idle x' (mem_append_right _ (mem_cons_of_mem _ mem')) fun serves' => ?_
    exact (pairwise_cons.mp after).1 x' mem' ⟨serves, serves'⟩
  · refine idle x' (mem_append_left _ mem') fun serves' => ?_
    exact before x' mem' x mem_cons_self ⟨serves', serves⟩

end

/-! ## A process that resumes an epoch -/

namespace OneLink

/-- The watermark of a process whose link is delivered. -/
def mark (body : LinkBody) : Entry ℕ :=
  ⟨⟨1, body.startTxid, 0⟩, .live,
    .watermark { through := ⟨1, body.startTxid, 0⟩, commits := 1, records := 1 }⟩

/-- The processes that served epoch 1, one after the other. -/
def processes : List (Exporter ℕ) := [after fresh 8, after resumed 8]

theorem processes_reachable : ∀ x ∈ processes, Reachable sizes 100 x := by
  simp only [processes, forall_mem_cons]
  exact ⟨reachable _ mem_cons_self, reachable _ (mem_cons_of_mem _ mem_cons_self), by simp⟩

theorem holding {fleet : List (Exporter ℕ)} {held : List (Entry ℕ)} (nodup : held.Nodup)
    (landed : ∀ e ∈ held, e ∈ fleet.flatMap fun x => (x.landed key).map (·.source.entry)) :
    Holding fleet "a" 0 held := by
  refine ⟨nodup, fun e mem _ => ?_⟩
  obtain ⟨x, memX, memE⟩ := mem_flatMap.mp (landed e mem)
  obtain ⟨q, memQ, rfl⟩ := mem_map.mp memE
  exact ⟨x, memX, 1, q, memQ, rfl⟩

theorem alone_reachable : ∀ x ∈ [after fresh 8], Reachable sizes 100 x := by
  simpa using reachable fresh mem_cons_self

theorem alone_holding : Holding [after fresh 8] key.cell key.incarnation
    [(link fresh).entry, mark fresh] :=
  holding (by decide +kernel) (by decide +kernel)

/-- A consumer that holds the first process's link and the second one's watermark. -/
def unheld : List (Entry ℕ) := [(link fresh).entry, mark resumed]

theorem undropped (body : LinkBody) (settled : (after body 8).handled ++ (after body 8).pending =
    [(0, .acknowledged)]) (seq : ℕ) : (after body 8).isDropped seq = false := by
  simp [isDropped, settled]

end OneLink

open OneLink in
theorem certified_lost : (∀ x ∈ processes, Reachable sizes 100 x) ∧
    Holding processes key.cell key.incarnation unheld ∧
    certify unheld key.epoch = some ⟨1, 2, 0⟩ ∧
    ∃ x ∈ processes, ∃ q ∈ x.own key, q.info.whole ∧ q.info.position ≤ ⟨1, 2, 0⟩ ∧
      q.source.entry ∉ unheld := by
  refine ⟨processes_reachable, holding (by decide +kernel) (by decide +kernel),
    by decide +kernel, after resumed 8, mem_cons_of_mem _ mem_cons_self, ?_⟩
  decide +kernel

open OneLink in
theorem certified_oneLink : ∃ q ∈ (after fresh 8).own key,
    q.source.entry ∈ [(link fresh).entry, mark fresh] := by
  have delivered : ∃ q ∈ (after fresh 8).own key, q.info.whole ∧
      q.info.position ≤ ⟨1, 1, 0⟩ := by decide +kernel
  obtain ⟨q, own, whole, le⟩ := delivered
  exact ⟨q, own, certified_held alone_reachable alone_holding (pairwise_singleton ..)
    (by decide +kernel) mem_cons_self own whole le⟩

end Exporter

end Celld.Export
