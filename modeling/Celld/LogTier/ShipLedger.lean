import Mathlib.Data.List.Basic
import Mathlib.Order.Lattice

/-!
# The truncation ledger of the ship loop

The ship loop sends captured frames to the followers, and with every append the sequence they may
truncate behind.  `ShipLedger` computes it: the batches every member confirmed, oldest first, and
the watermark over the leading ones the bucket covers.  Sequences restart with the log epoch.

The loop's three turns are modelled (a wake that begins a capture, the submission that ends it, a
completed round), and around them what other tasks do between any two of them: shippers are
installed, removed and degraded, and the bucket makes progress.  A round that fails discards every
later one.
-/

namespace Celld.LogTier

open List

structure ShipLedger (Batch : Type) where
  epoch : ℕ := 0
  coveredSeq : ℕ := 0
  outstanding : List (ℕ × Batch) := []

namespace ShipLedger

variable {Batch : Type}

/-- A new epoch is a new sequence space and the ledger starts over. -/
def observeEpoch (l : ShipLedger Batch) (epoch : ℕ) : ShipLedger Batch :=
  if epoch ≠ l.epoch then { epoch := epoch } else l

/-- A batch was acknowledged by every member through `lastSeq`. -/
def shipped (l : ShipLedger Batch) (lastSeq : ℕ) (batch : Batch) : ShipLedger Batch :=
  { l with outstanding := l.outstanding ++ [(lastSeq, batch)] }

/-- The loop of `advance`, from a watermark over a queue. -/
def advanceOver (covered : Batch → Bool) : ℕ → List (ℕ × Batch) → ℕ × List (ℕ × Batch)
  | coveredSeq, [] => (coveredSeq, [])
  | coveredSeq, (lastSeq, batch) :: rest =>
      if covered batch then advanceOver covered lastSeq rest
      else (coveredSeq, (lastSeq, batch) :: rest)

/-- Advance the watermark over every leading batch `covered` accepts. -/
def advance (l : ShipLedger Batch) (covered : Batch → Bool) : ShipLedger Batch :=
  { l with
    coveredSeq := (advanceOver covered l.coveredSeq l.outstanding).1
    outstanding := (advanceOver covered l.coveredSeq l.outstanding).2 }

end ShipLedger

/-- The part of a `FleetShipper` a submission reads. -/
structure FleetShipper where
  epoch : ℕ
  members : ℕ
  seq : ℕ := 0
  degraded : Bool := false

/-- What `ship_at_epoch` started. -/
inductive Append where
  /-- On every member's lane, with its epoch and last sequence. -/
  | sent (epoch lastSeq : ℕ)
  | unsent
  deriving DecidableEq

/-- A round in flight; without an append it only waits for its turn. -/
structure ShipRound (Cell : Type) where
  append : Option Append
  credits : List (Cell × ℕ)
  coveredSeq : ℕ

/-- The ship loop and what it shares with other tasks.  `sent` and `accepted` are history: the
epoch and `truncate_to` of every append, and the batches, by epoch, of the rounds that were applied
with every member's confirmation.  A round that was discarded before is not counted, even if every
member has confirmed it. -/
structure ShipLoop (Cell : Type) where
  ledger : ShipLedger (List (Cell × ℕ)) := {}
  inflight : List (ShipRound Cell) := []
  currentEpoch : Option ℕ := none
  /-- The epoch of the capture the loop is waiting for. -/
  capture : Option ℕ := none
  installed : Option FleetShipper := none
  /-- The epoch of the newest log record. -/
  recordEpoch : ℕ := 0
  durable : Cell → ℕ := fun _ => 0
  sent : List (ℕ × ℕ) := []
  accepted : List (ℕ × ℕ × List (Cell × ℕ)) := []

/-- The bucket covers every row of a batch. -/
def shipBatchCovered {Cell : Type} (durable : Cell → ℕ) (cells : List (Cell × ℕ)) : Bool :=
  cells.all fun (cell, txid) => txid ≤ durable cell

namespace ShipLoop

variable {Cell : Type} (w : ShipLoop Cell) {accepted : List (ℕ × List (Cell × ℕ))}
  {durable : Cell → ℕ} {coveredSeq : ℕ}

/-- A wake: without an active shipper the rounds in flight die; otherwise a capture begins. -/
def wake (active : Bool) : ShipLoop Cell :=
  if active then
    let captureEpoch := w.installed.elim 0 (·.epoch)
    { w with
      inflight := if w.currentEpoch ≠ some captureEpoch then [] else w.inflight
      currentEpoch := some captureEpoch
      ledger := w.ledger.observeEpoch captureEpoch
      capture := some captureEpoch }
  else { w with inflight := [], currentEpoch := none }

/-- `ship_at_epoch` of the manager, with `ship_batch` of the shipper it selects. -/
def shipAtEpoch (expectedEpoch entries coveredSeq : ℕ) : Append × ShipLoop Cell :=
  match w.installed with
  | none => (.unsent, w)
  | some shipper =>
      if shipper.epoch ≠ expectedEpoch ∨ shipper.members = 0 ∨ entries = 0 ∨ shipper.degraded then
        (.unsent, w)
      else
        (.sent shipper.epoch (shipper.seq + entries),
          { w with
            installed := some { shipper with seq := shipper.seq + entries }
            sent := w.sent ++ [(shipper.epoch, coveredSeq)] })

/-- The end of a capture: advance the watermark and submit the round. -/
def submit (captureEpoch : ℕ) (credits : List (Cell × ℕ)) (entries : ℕ) : ShipLoop Cell :=
  if credits.isEmpty then { w with capture := none }
  else
    let w := { w with
      capture := none, ledger := w.ledger.advance (shipBatchCovered w.durable) }
    let coveredSeq := w.ledger.coveredSeq
    if entries = 0 then { w with inflight := w.inflight ++ [⟨none, credits, coveredSeq⟩] }
    else
      let (append, w) := w.shipAtEpoch captureEpoch entries coveredSeq
      { w with inflight := w.inflight ++ [⟨some append, credits, coveredSeq⟩] }

/-- `apply_round` on the oldest round, `confirmed` if every member confirmed its append; a failed
round discards the later ones. -/
def applyRound (round : ShipRound Cell) (rest : List (ShipRound Cell))
    (confirmed : Bool) : ShipLoop Cell :=
  match round.append with
  | none => { w with inflight := rest }
  | some .unsent => { w with inflight := [] }
  | some (.sent epoch lastSeq) =>
      if confirmed then
        { w with
          inflight := rest
          accepted := w.accepted ++ [(epoch, lastSeq, round.credits)]
          ledger := if round.coveredSeq < lastSeq then w.ledger.shipped lastSeq round.credits
            else w.ledger }
      else { w with inflight := [] }

/-- What happens next. -/
inductive Event (Cell : Type) where
  /-- The bucket holds the cell's rows through `txid`. -/
  | progress (cell : Cell) (txid : ℕ)
  /-- A new log record is open; its epoch is above that of the one before. -/
  | install (epoch members : ℕ)
  | remove
  | degrade
  | wake (active : Bool)
  | captured (credits : List (Cell × ℕ)) (entries : ℕ)
  | round (confirmed : Bool)

/-- One event; the loop applies no round while it waits for a capture. -/
def step [DecidableEq Cell] (w : ShipLoop Cell) : Event Cell → ShipLoop Cell
  | .progress cell txid =>
      { w with durable := Function.update w.durable cell (max (w.durable cell) txid) }
  | .install epoch members =>
      if w.recordEpoch < epoch then
        { w with recordEpoch := epoch, installed := some { epoch := epoch, members := members } }
      else w
  | .remove => { w with installed := none }
  | .degrade => { w with installed := w.installed.map ({ · with degraded := true }) }
  | .wake active => if w.capture.isNone then w.wake active else w
  | .captured credits entries => w.capture.elim w (w.submit · credits entries)
  | .round confirmed =>
      match w.capture, w.inflight with
      | none, round :: rest => w.applyRound round rest confirmed
      | _, _ => w

/-- The batches accepted at an epoch, oldest first. -/
def acceptedAt (epoch : ℕ) : List (ℕ × List (Cell × ℕ)) :=
  (w.accepted.filter (·.1 = epoch)).map (·.2)

/-- `coveredSeq` is the watermark over the first batches accepted at an epoch, up to `rest`, and
the bucket covers them. -/
def Covers (durable : Cell → ℕ) (accepted : List (ℕ × List (Cell × ℕ))) (coveredSeq : ℕ)
    (rest : List (ℕ × List (Cell × ℕ))) : Prop :=
  ∃ popped, accepted = popped ++ rest ∧ (∀ b ∈ popped, shipBatchCovered durable b.2) ∧
    coveredSeq = (popped.getLast?.map (·.1)).getD 0

theorem Covers.advanceOver {outstanding : List (ℕ × List (Cell × ℕ))}
    (h : Covers durable accepted coveredSeq outstanding) :
    Covers durable accepted
      (ShipLedger.advanceOver (shipBatchCovered durable) coveredSeq outstanding).1
      (ShipLedger.advanceOver (shipBatchCovered durable) coveredSeq outstanding).2 := by
  induction outstanding generalizing coveredSeq with
  | nil => exact h
  | cons head rest ih =>
    obtain ⟨lastSeq, batch⟩ := head
    rw [ShipLedger.advanceOver]
    split_ifs with covered
    · obtain ⟨popped, split, all, -⟩ := h
      refine ih ⟨popped ++ [(lastSeq, batch)], by simp [split], ?_, by simp⟩
      intro b mem
      rcases mem_append.mp mem with mem | mem
      · exact all b mem
      · rw [mem_singleton.mp mem]
        exact covered
    · exact h

theorem Covers.mono {durable' : Cell → ℕ} {rest : List (ℕ × List (Cell × ℕ))}
    (h : Covers durable accepted coveredSeq rest)
    (grown : ∀ cell, durable cell ≤ durable' cell) : Covers durable' accepted coveredSeq rest := by
  obtain ⟨popped, split, all, eq⟩ := h
  refine ⟨popped, split, fun b mem => ?_, eq⟩
  have covered := all b mem
  simp only [shipBatchCovered, all_eq_true, decide_eq_true_eq] at covered ⊢
  exact fun p memP => (covered p memP).trans (grown _)

theorem Covers.append {rest : List (ℕ × List (Cell × ℕ))}
    (h : Covers durable accepted coveredSeq rest) (more : List (ℕ × List (Cell × ℕ))) :
    Covers durable (accepted ++ more) coveredSeq (rest ++ more) := by
  obtain ⟨popped, rfl, all, eq⟩ := h
  exact ⟨popped, append_assoc .., all, eq⟩

/-- `lastSeq` was allocated at `epoch`, and while its shipper is installed the ledger follows it. -/
def Allocated (epoch lastSeq : ℕ) : Prop :=
  epoch ≠ 0 ∧ epoch ≤ w.recordEpoch ∧
    ∀ s ∈ w.installed, s.epoch = epoch → lastSeq ≤ s.seq ∧ w.ledger.epoch = epoch

/-- What holds between any two events. -/
structure Sound (w : ShipLoop Cell) : Prop where
  ledger : Covers w.durable (w.acceptedAt w.ledger.epoch) w.ledger.coveredSeq w.ledger.outstanding
  sent : ∀ p ∈ w.sent, ∃ rest, Covers w.durable (w.acceptedAt p.1) p.2 rest
  current : ∀ e ∈ w.currentEpoch, e = w.ledger.epoch
  capture : ∀ e ∈ w.capture, e = w.ledger.epoch
  installed : ∀ s ∈ w.installed, s.epoch ≠ 0 ∧ s.epoch ≤ w.recordEpoch
  /-- The rounds in flight belong to the ledger's epoch, past the watermark they carry. -/
  rounds : ∀ r ∈ w.inflight, ∀ e last, r.append = some (.sent e last) →
    e = w.ledger.epoch ∧ r.coveredSeq < last ∧ w.Allocated e last
  accepted : ∀ a ∈ w.accepted, w.Allocated a.1 a.2.1

theorem acceptedAt_snoc (a : ℕ × ℕ × List (Cell × ℕ)) (epoch : ℕ) :
    acceptedAt { w with accepted := w.accepted ++ [a] } epoch =
      w.acceptedAt epoch ++ if a.1 = epoch then [a.2] else [] := by
  by_cases same : a.1 = epoch <;> simp [acceptedAt, same]

namespace Sound

variable {w : ShipLoop Cell}

/-- Another shipper, or none, or the same one further on. -/
theorem reinstalled (h : w.Sound) {installed : Option FleetShipper} {recordEpoch : ℕ}
    (le : w.recordEpoch ≤ recordEpoch)
    (new : ∀ s ∈ installed, (w.recordEpoch < s.epoch ∧ s.epoch ≤ recordEpoch) ∨
      ∃ s' ∈ w.installed, s.epoch = s'.epoch ∧ s'.seq ≤ s.seq) :
    Sound { w with installed := installed, recordEpoch := recordEpoch } := by
  have allocated : ∀ {e last}, w.Allocated e last →
      Allocated { w with installed := installed, recordEpoch := recordEpoch } e last := by
    rintro e last ⟨ne, older, seq⟩
    refine ⟨ne, older.trans le, fun s mem same => ?_⟩
    rcases new s mem with ⟨newer, -⟩ | ⟨s', mem', epoch, grown⟩
    · omega
    · obtain ⟨bound, follows⟩ := seq s' mem' (epoch ▸ same)
      exact ⟨bound.trans grown, follows⟩
  refine ⟨h.ledger, h.sent, h.current, h.capture, fun s mem => ?_, fun r memR e last append => ?_,
    fun a memA => allocated (h.accepted a memA)⟩
  · rcases new s mem with ⟨newer, bound⟩ | ⟨s', mem', epoch, -⟩
    · exact ⟨by omega, bound⟩
    · obtain ⟨ne, bound⟩ := h.installed s' mem'
      exact ⟨epoch ▸ ne, epoch ▸ bound.trans le⟩
  · obtain ⟨epoch, past, known⟩ := h.rounds r memR e last append
    exact ⟨epoch, past, allocated known⟩

theorem wake (h : w.Sound) (active : Bool) : (w.wake active).Sound := by
  unfold ShipLoop.wake
  cases active with
  | false =>
    exact ⟨h.ledger, h.sent, by simp, h.capture, h.installed, by simp, h.accepted⟩
  | true =>
    simp only [if_true]
    by_cases same : w.installed.elim 0 (·.epoch) = w.ledger.epoch
    · -- The ledger stays; rounds may still be dropped, after a wake without a shipper.
      have keeps : w.ledger.observeEpoch w.ledger.epoch = w.ledger := by
        simp [ShipLedger.observeEpoch]
      rw [same, keeps]
      refine ⟨h.ledger, h.sent, by simp, by simp, h.installed, fun r mem => ?_, h.accepted⟩
      by_cases follows : w.currentEpoch = some w.ledger.epoch
      · rw [if_neg (not_not.mpr follows)] at mem
        exact h.rounds r mem
      · rw [if_pos follows] at mem
        cases mem
    · -- A new sequence space: nothing was accepted in it, and no round of it is in flight.
      have restarts : w.ledger.observeEpoch (w.installed.elim 0 (·.epoch)) =
          { epoch := w.installed.elim 0 (·.epoch) } := by
        rw [ShipLedger.observeEpoch, if_pos same]
      have dropped : w.currentEpoch ≠ some (w.installed.elim 0 (·.epoch)) := by
        intro eq
        exact same (h.current _ eq)
      have unaccepted : ∀ a ∈ w.accepted, a.1 ≠ w.installed.elim 0 (·.epoch) := by
        intro a mem eq
        obtain ⟨ne, -, follows⟩ := h.accepted a mem
        cases inst : w.installed with
        | none => exact ne (by simpa [inst] using eq)
        | some s =>
          simp only [inst, Option.elim_some] at eq same
          exact same ((follows s inst eq.symm).2.trans eq).symm
      rw [restarts, if_pos dropped]
      refine ⟨⟨[], ?_, by simp, rfl⟩, h.sent, by simp, by simp, h.installed, by simp,
        fun a mem => ?_⟩
      · simpa [acceptedAt] using fun e l b mem => unaccepted (e, l, b) mem
      · obtain ⟨ne, le, follows⟩ := h.accepted a mem
        refine ⟨ne, le, fun s inst eq => ⟨(follows s inst eq).1, ?_⟩⟩
        rw [← eq, show w.installed = some s from inst]
        rfl

theorem advance (h : w.Sound) :
    Sound { w with capture := none, ledger := w.ledger.advance (shipBatchCovered w.durable) } :=
  ⟨h.ledger.advanceOver, h.sent, h.current, by simp, h.installed, h.rounds, h.accepted⟩

/-- The watermark was allocated before any later sequence of its epoch. -/
theorem coveredSeq_le (h : w.Sound) {s : FleetShipper} (inst : s ∈ w.installed)
    (follows : s.epoch = w.ledger.epoch) : w.ledger.coveredSeq ≤ s.seq := by
  obtain ⟨popped, split, -, eq⟩ := h.ledger
  rcases popped.eq_nil_or_concat with rfl | ⟨_, b, rfl⟩
  · simp_all
  · have mem : b ∈ w.acceptedAt w.ledger.epoch := by simp [split]
    simp only [acceptedAt, mem_map, mem_filter, decide_eq_true_eq] at mem
    obtain ⟨a, ⟨memA, epoch⟩, rfl⟩ := mem
    rw [eq]
    simpa using ((h.accepted a memA).2.2 s inst (follows.trans epoch.symm)).1

/-- A round that is queued with a watermark of the ledger's epoch. -/
theorem queued (h : w.Sound) {round : ShipRound Cell}
    (new : ∀ e last, round.append = some (.sent e last) →
      e = w.ledger.epoch ∧ round.coveredSeq < last ∧ w.Allocated e last) :
    Sound { w with inflight := w.inflight ++ [round] } := by
  refine ⟨h.ledger, h.sent, h.current, h.capture, h.installed, fun r mem => ?_, h.accepted⟩
  rcases mem_append.mp mem with mem | mem
  · exact h.rounds r mem
  · rw [mem_singleton.mp mem]
    exact new

/-- What `ship_at_epoch` can do: nothing, or one append at the ledger's epoch. -/
theorem shipAtEpoch (h : w.Sound) (entries : ℕ) :
    (w.shipAtEpoch w.ledger.epoch entries w.ledger.coveredSeq).2.Sound ∧
      (w.shipAtEpoch w.ledger.epoch entries w.ledger.coveredSeq).2.ledger = w.ledger ∧
      ∀ e last, (w.shipAtEpoch w.ledger.epoch entries w.ledger.coveredSeq).1 = .sent e last →
        e = w.ledger.epoch ∧ w.ledger.coveredSeq < last ∧
          (w.shipAtEpoch w.ledger.epoch entries w.ledger.coveredSeq).2.Allocated e last := by
  unfold ShipLoop.shipAtEpoch
  cases inst : w.installed with
  | none => exact ⟨h, rfl, by simp⟩
  | some s =>
    simp only
    split_ifs with refused
    · exact ⟨h, rfl, by simp⟩
    · push Not at refused
      have follows := refused.1
      have moved : Sound { w with installed := some { s with seq := s.seq + entries } } :=
        h.reinstalled le_rfl (by simpa using .inr ⟨s, inst, rfl, Nat.le_add_right ..⟩)
      refine ⟨{ moved with sent := fun p mem => ?_ }, rfl, fun e last eq => ?_⟩
      · rcases mem_append.mp mem with mem | mem
        · exact h.sent p mem
        · rw [mem_singleton.mp mem, follows]
          exact ⟨_, h.ledger⟩
      · obtain ⟨rfl, rfl⟩ := Append.sent.inj eq
        have le := h.coveredSeq_le inst follows
        have bounds := h.installed s inst
        have positive := Nat.pos_of_ne_zero refused.2.2.1
        exact ⟨follows, by omega, bounds.1, bounds.2, by simp [follows]⟩

theorem submit (h : w.Sound) (credits : List (Cell × ℕ)) (entries : ℕ) :
    (w.submit w.ledger.epoch credits entries).Sound := by
  unfold ShipLoop.submit
  split_ifs with nothing empty
  · exact ⟨h.ledger, h.sent, h.current, by simp, h.installed, h.rounds, h.accepted⟩
  · exact h.advance.queued (by simp)
  · obtain ⟨sound, ledger, sent⟩ := h.advance.shipAtEpoch entries
    refine sound.queued fun e last append => ?_
    rw [ledger]
    exact sent e last (Option.some.inj append)

/-- A batch is accepted at the ledger's epoch. -/
theorem shipped (h : w.Sound) {lastSeq : ℕ} (allocated : w.Allocated w.ledger.epoch lastSeq)
    (credits : List (Cell × ℕ)) :
    Sound { w with
      accepted := w.accepted ++ [(w.ledger.epoch, lastSeq, credits)]
      ledger := w.ledger.shipped lastSeq credits } := by
  have grown := acceptedAt_snoc w (w.ledger.epoch, lastSeq, credits)
  refine { h with ledger := ?_, sent := fun p mem => ?_, accepted := fun a mem => ?_ }
  · exact (grown w.ledger.epoch).trans (by rw [if_pos rfl]) ▸ h.ledger.append [(lastSeq, credits)]
  · obtain ⟨_, covers⟩ := h.sent p mem
    exact ⟨_, grown p.1 ▸ covers.append _⟩
  · rcases mem_append.mp mem with mem | mem
    · exact h.accepted a mem
    · rw [mem_singleton.mp mem]
      exact allocated

theorem applyRound (h : w.Sound) {round : ShipRound Cell} {rest : List (ShipRound Cell)}
    (oldest : w.inflight = round :: rest) (confirmed : Bool) :
    (w.applyRound round rest confirmed).Sound := by
  have fewer : ∀ {left}, left ⊆ w.inflight → Sound { w with inflight := left } := fun sub =>
    { h with rounds := fun r mem => h.rounds r (sub mem) }
  have tail : rest ⊆ w.inflight := by simp [oldest]
  unfold ShipLoop.applyRound
  rcases append : round.append with _ | ⟨epoch, lastSeq⟩ | _
  · exact fewer tail
  · obtain ⟨rfl, past, allocated⟩ := h.rounds round (by simp [oldest]) epoch lastSeq append
    simp only [past, if_true]
    split_ifs with ok
    · exact (fewer tail).shipped allocated round.credits
    · exact fewer (nil_subset _)
  · exact fewer (nil_subset _)

theorem step [DecidableEq Cell] (h : w.Sound) (event : Event Cell) : (w.step event).Sound := by
  cases event with
  | progress cell txid =>
    have grown : ∀ c, w.durable c ≤ Function.update w.durable cell
        (max (w.durable cell) txid) c := by
      intro c
      by_cases same : c = cell
      · rw [same, Function.update_self]
        exact le_max_left ..
      · rw [Function.update_of_ne same]
    refine { h with ledger := h.ledger.mono grown, sent := fun p mem => ?_ }
    obtain ⟨rest, covers⟩ := h.sent p mem
    exact ⟨rest, covers.mono grown⟩
  | install =>
    simp only [ShipLoop.step]
    split_ifs with newer
    · exact h.reinstalled newer.le (by simp [newer])
    · exact h
  | remove => exact h.reinstalled le_rfl (by simp)
  | degrade =>
    refine h.reinstalled le_rfl fun s mem => .inr ?_
    obtain ⟨s', inst, rfl⟩ := Option.map_eq_some_iff.mp mem
    exact ⟨s', inst, rfl, le_rfl⟩
  | wake active =>
    simp only [ShipLoop.step]
    split_ifs
    · exact h.wake active
    · exact h
  | captured credits entries =>
    simp only [ShipLoop.step]
    cases at_ : w.capture with
    | none => exact h
    | some e => exact h.capture e at_ ▸ h.submit credits entries
  | round confirmed =>
    simp only [ShipLoop.step]
    split
    · exact h.applyRound ‹_› confirmed
    · exact h

end Sound

/-- The loop after some events. -/
def run [DecidableEq Cell] (events : List (Event Cell)) : ShipLoop Cell := events.foldl step {}

theorem run_sound [DecidableEq Cell] (events : List (Event Cell)) : (run events).Sound := by
  have start : Sound ({} : ShipLoop Cell) :=
    ⟨⟨[], rfl, by simp, rfl⟩, by simp, by simp, by simp, by simp, by simp, by simp⟩
  exact List.foldlRecOn events step start fun _ sound event _ => sound.step event

/-- Every watermark sent at an epoch is `0` or the last sequence of a batch accepted at it, and
the bucket covers that batch and those accepted at it before. -/
theorem truncation_justified [DecidableEq Cell] (events : List (Event Cell)) (epoch coveredSeq : ℕ)
    (sent : (epoch, coveredSeq) ∈ (run events).sent) :
    coveredSeq = 0 ∨ ∃ before batch after,
      (run events).acceptedAt epoch = before ++ (coveredSeq, batch) :: after ∧
        ∀ b ∈ before ++ [(coveredSeq, batch)], ∀ p ∈ b.2, p.2 ≤ (run events).durable p.1 := by
  obtain ⟨rest, popped, split, covered, rfl⟩ := (run_sound events).sent _ sent
  rcases popped.eq_nil_or_concat with rfl | ⟨before, ⟨_, batch⟩, rfl⟩
  · exact .inl rfl
  · refine .inr ⟨before, batch, rest, by simpa using split, fun b mem p memP => ?_⟩
    have all := covered b (by simpa using mem)
    simp only [shipBatchCovered, all_eq_true, decide_eq_true_eq] at all
    exact all p memP

/-- **No confirmed batch is forgotten.**  The batches accepted at the ledger's epoch are those
behind the watermark, which the bucket covers, and the outstanding ones. -/
theorem ledger_complete [DecidableEq Cell] (events : List (Event Cell)) :
    let w := run events
    Covers w.durable (w.acceptedAt w.ledger.epoch) w.ledger.coveredSeq w.ledger.outstanding ∧
      ∀ r ∈ w.inflight, ∀ e last, r.append = some (.sent e last) →
        e = w.ledger.epoch ∧ r.coveredSeq < last := by
  have sound := run_sound events
  refine ⟨sound.ledger, fun r mem e last append => ?_⟩
  obtain ⟨epoch, past, -⟩ := sound.rounds r mem e last append
  exact ⟨epoch, past⟩

/-- Two epochs: the watermark of the first rides its second append, and the second starts over. -/
def swappedRun : List (Event Bool) :=
  [.install 1 2, .wake true, .captured [(true, 3)] 2, .round true, .progress true 3, .wake true,
    .captured [(false, 1)] 1, .round true, .install 2 2, .wake true, .captured [(true, 4)] 1]

theorem truncation_swapped : (run swappedRun).sent = [(1, 0), (1, 2), (2, 0)] ∧
    ∃ before batch after,
      (run swappedRun).acceptedAt 1 = before ++ (2, batch) :: after ∧
        ∀ b ∈ before ++ [(2, batch)], ∀ p ∈ b.2, p.2 ≤ (run swappedRun).durable p.1 :=
  ⟨by decide, (truncation_justified swappedRun 1 2 (by decide)).resolve_left (by decide)⟩

end ShipLoop

end Celld.LogTier
