import Celld.Gate.Releases
import Celld.Gate.Writes

/-!
# Export tickets settle once, on evidence of their own

That a ticket has one verdict, or one place on a barrier, is the balance of the docket again.  What
a positive verdict rests on is an invariant of the tickets in custody: a barrier's own position
covers a ticket that rides it, or the ticket's proof has landed before; and where the barrier is
in verification, its ownership read was asked for after the proofs of all its tickets had landed.
-/

namespace Celld

open List Nat Barrier

variable {χ : Type}

/-- The export ticket an event brings. -/
def Event.ticket? : Event χ → Option ℕ
  | .exportTicket _ _ _ ticket => some ticket
  | _ => none

section

variable {barrier : Barrier χ} {cell : CellId} {epoch : Epoch} {position ticket : ℕ}

/-- A barrier owes its owner a verdict on the ticket it was opened for. -/
theorem Barrier.owner_of_owed (owed : .ticket cell epoch position ticket ∈ barrier.ownerOwes) :
    barrier.owner = .export ticket ∧ position = barrier.position := by
  unfold ownerOwes at owed
  cases which : barrier.owner with
  | output | alarm => simp [which] at owed
  | «export» number =>
    simp only [which, mem_singleton, Owed.ticket.injEq] at owed
    exact ⟨by rw [owed.2.2.2], owed.2.2.1⟩

/-- A ticket that a barrier owes a verdict is on it. -/
theorem Barrier.mem_tickets (owed : .ticket cell epoch position ticket ∈ barrier.owes) :
    ticket ∈ barrier.tickets := by
  unfold tickets
  rcases mem_owes.mp owed with owner | ⟨_, _, differs⟩ | ⟨_, rides, same⟩
  · rw [(owner_of_owed owner).1]
    exact mem_cons_self
  · cases differs
  · cases same
    have rode := mem_map_of_mem (f := (·.ticket)) rides
    cases barrier.owner with
    | output | alarm => exact rode
    | «export» => exact mem_cons_of_mem _ rode

end

namespace Run

variable {r : Run χ} {i j k n : ℕ} {cell : CellId} {epoch : Epoch} {position ticket : ℕ}
  {event : Event χ} {op : OpId}

/-- Barrier `op`, on the ticket's residency, carries the ticket when event `k` arrives, or takes
along the export barrier that does: one that is still proving, at or below its own position. -/
def Hosts (r : Run χ) (k : ℕ) (op : OpId) (cell : CellId) (epoch : Epoch) (ticket : ℕ) : Prop :=
  ∃ gate : Barrier χ, (r.stateAt k).barriers[op]? = some gate ∧ gate.isOn cell epoch = true ∧
    (ticket ∈ gate.tickets ∨ ∃ (other : OpId) (taken : Barrier χ),
      (r.stateAt k).barriers[other]? = some taken ∧ taken.isOn cell epoch = true ∧
      taken.isExport = true ∧ taken.verifying = false ∧ taken.position ≤ gate.position ∧
      ticket ∈ taken.tickets)

/-- Event `k` is a proof that covers the ticket's position, for the ticket's own barrier or its
host. -/
def LandsAt (r : Run χ) (k : ℕ) (cell : CellId) (epoch : Epoch) (position ticket : ℕ) : Prop :=
  ∃ op durable source, r.events[k]? = some (.durableReached op (.ok durable) source) ∧
    position ≤ durable ∧ r.Hosts k op cell epoch ticket

/-- The proof of a ticket landed after the ticket arrived, before event `n`. -/
def LandedBefore (r : Run χ) (n : ℕ) (cell : CellId) (epoch : Epoch) (position ticket : ℕ) : Prop :=
  ∃ i k, i < k ∧ k < n ∧ r.events[i]? = some (.exportTicket cell epoch position ticket) ∧
    r.LandsAt k cell epoch position ticket

/-- An ownership read for a ticket was asked for before event `n`, at an event by which the
ticket's proof had landed. -/
def ReadBefore (r : Run χ) (n : ℕ) (op : OpId) (cell : CellId) (epoch : Epoch)
    (position ticket : ℕ) : Prop :=
  ∃ v < n, .verifyOwnership op cell epoch ∈ r.effectsAt v ∧
    r.LandedBefore (v + 1) cell epoch position ticket

/-- Event `k` is a fleet acknowledgement that covers the ticket's position, for the ticket's own
barrier. -/
def AcknowledgedAt (r : Run χ) (k : ℕ) (cell : CellId) (epoch : Epoch) (position ticket : ℕ) :
    Prop :=
  ∃ op durable, r.events[k]? = some (.durableReached op (.ok durable) .fleet) ∧
    position ≤ durable ∧ ∃ gate : Barrier χ, (r.stateAt k).barriers[op]? = some gate ∧
      gate.isOn cell epoch = true ∧ gate.owner = .export ticket

/-- What a positive verdict on the ticket of event `i` rests on: a fleet acknowledgement of its
own barrier, or a proof that landed and an ownership read that was asked for afterwards. -/
def ProvedFrom (r : Run χ) (i n : ℕ) (cell : CellId) (epoch : Epoch) (position ticket : ℕ) : Prop :=
  ∃ k, i < k ∧ k ≤ n ∧
    (r.AcknowledgedAt k cell epoch position ticket ∨
      r.LandsAt k cell epoch position ticket ∧ ∃ op v w, k ≤ v ∧ v < w ∧ w ≤ n ∧
        .verifyOwnership op cell epoch ∈ r.effectsAt v ∧
        r.events[w]? = some (.ownershipVerified op (.ok ())))

/-- The evidence event `n` may act on. -/
def evidence (r : Run χ) (n : ℕ) : Evidence where
  landed := r.LandedBefore (n + 1)
  proves cell epoch position ticket :=
    ∃ i, r.events[i]? = some (.exportTicket cell epoch position ticket) ∧
      r.ProvedFrom i n cell epoch position ticket

/-- What is known of a ticket before event `n`. -/
def custody (r : Run χ) (n : ℕ) : Custody where
  known cell epoch position ticket :=
    ∃ i < n, r.events[i]? = some (.exportTicket cell epoch position ticket)
  read := r.ReadBefore n

theorem LandedBefore.mono (landed : r.LandedBefore j cell epoch position ticket) (before : j ≤ n) :
    r.LandedBefore n cell epoch position ticket := by
  obtain ⟨i, k, first, last, arrived, lands⟩ := landed
  exact ⟨i, k, first, last.trans_le before, arrived, lands⟩

theorem ReadBefore.mono (read : r.ReadBefore j op cell epoch position ticket)
    (before : j ≤ n) : r.ReadBefore n op cell epoch position ticket := by
  obtain ⟨v, earlier, asked, landed⟩ := read
  exact ⟨v, earlier.trans_le before, asked, landed⟩

/-! ## The ownership reads that were asked for -/

/-- A barrier whose ownership read was asked for is in verification. -/
theorem verifying_of_asked (r : Run χ) : ∀ n ≤ r.events.length, ∀ j < n, ∀ op cell epoch,
    .verifyOwnership op cell epoch ∈ r.effectsAt j → op < (r.stateAt n).nextOp ∧
      ∀ gate, (r.stateAt n).barriers[op]? = some gate → gate.verifying = true := by
  refine history ?_ ?_
  · intro j before
    omega
  · intro n event told earlier j before op cell epoch asked
    have within := (lt_length_of_told told).le
    have moves := onEvent_docket event (.all event (r.alone n within)) (r.stateAt_cacheSound n)
    have bounded := r.docket_bounded n within event.owed
    rw [stateAt_succ told]
    rcases Nat.lt_succ_iff_lt_or_eq.mp before with sooner | rfl
    · obtain ⟨known, verifying⟩ := earlier j sooner op cell epoch asked
      have follows := moves.invariant (fun _ _ move follows => Docket.Follows.move follows move)
        (Docket.Follows.refl _)
      refine ⟨known.trans_le follows.later, fun gate found => ?_⟩
      obtain ⟨before, there, kept⟩ := follows.barriers op gate known found
      exact kept (verifying before there)
    · have none : ((r.stateAt j).docket event.owed).Asked := fun _ _ _ told => by cases told
      have all := moves.invariant (P := fun e => e.Bounded ∧ e.Asked)
        (fun _ _ move before => ⟨move.bounded before.1, before.2.move before.1 move⟩)
        ⟨bounded, none⟩
      rw [effectsAt_of_told told] at asked
      exact all.2 op cell epoch (mem_filter.mpr ⟨asked, rfl⟩)

/-! ## The tickets in custody -/

/-- What is known of the tickets of a barrier before event `n`. -/
def Vouches (r : Run χ) (n : ℕ) (op : OpId) (gate : Barrier χ) : Prop :=
  gate.Vouched ⟨r.LandedBefore n, fun _ _ _ _ => False⟩ (r.custody n) [] op

/-- A barrier's position covers its tickets, those apart whose proof has landed. -/
theorem Vouches.covers {gate : Barrier χ} (vouches : r.Vouches n op gate)
    (owed : .ticket cell epoch position ticket ∈ gate.owes) :
    position ≤ gate.position ∨ r.LandedBefore n cell epoch position ticket := by
  rcases mem_owes.mp owed with owner | ⟨_, _, differs⟩ | ⟨rider, rides, same⟩
  · exact .inl (owner_of_owed owner).2.le
  · cases differs
  · cases same
    exact vouches.within rider rides

theorem isOn_of_owed {gate : Barrier χ} (owed : .ticket cell epoch position ticket ∈ gate.owes) :
    gate.isOn cell epoch = true := by
  obtain ⟨rfl, rfl⟩ := residency_of_mem owed
  simp [isOn]

/-- A proof that arrives for barrier `op` lands for a ticket that `op` hosts. -/
theorem landed_of_covers {durable : ℕ} {source : ProofSource} {other : OpId} {carrier : Barrier χ}
    (told : r.events[n]? = some (.durableReached op (.ok durable) source))
    (vouches : r.Vouches n other carrier) (reaches : carrier.position ≤ durable)
    (owed : .ticket cell epoch position ticket ∈ carrier.owes)
    (hosts : r.Hosts n op cell epoch ticket) :
    r.LandedBefore (n + 1) cell epoch position ticket := by
  rcases vouches.covers owed with covers | landed
  · obtain ⟨i, before, arrived⟩ := vouches.known _ _ _ _ owed
    exact ⟨i, n, before, lt_succ_self n, arrived, op, durable, source, told,
      covers.trans reaches, hosts⟩
  · exact landed.mono (le_succ n)

section Vouched

variable (vouches : ∀ (op : OpId) (gate : Barrier χ), (r.stateAt n).barriers[op]? = some gate →
  r.Vouches n op gate)

include vouches

/-- What a completed proof rests on. -/
theorem proofCustody {result : Except Failure ℕ} {source : ProofSource}
    (told : r.events[n]? = some (.durableReached op result source)) :
    Turn.ProofCustody (r.evidence n) { r.stateAt n with effects := [] } op result source where
  landed := by
    rintro rfl gate found covers
    obtain ⟨durable, rfl, reaches⟩ := covered_ok covers
    refine ⟨fun cell epoch position ticket owed => ?_,
      fun one riding cell epoch position ticket owed => ?_⟩
    · exact landed_of_covers told (vouches op gate found) reaches owed
        ⟨gate, found, isOn_of_owed owed, .inl (mem_tickets owed)⟩
    · obtain ⟨there, fits⟩ := mem_filter.mp riding
      simp only [Bool.and_eq_true, Bool.not_eq_true', decide_eq_true_eq] at fits
      obtain ⟨⟨⟨⟨_, on⟩, proving⟩, below⟩, exports⟩ := fits
      have carried : (r.stateAt n).barriers[one.1]? = some one.2 :=
        Turn.toList_found there
      obtain ⟨rfl, rfl⟩ := residency_of_mem owed
      -- Both barriers are on the ticket's residency.
      have same : gate.isOn one.2.cell one.2.epoch = true := by
        simp only [isOn, Bool.and_eq_true, decide_eq_true_eq] at on ⊢
        exact ⟨on.1.symm, on.2.symm⟩
      exact landed_of_covers told (vouches one.1 one.2 carried) (below.trans reaches) owed
        ⟨gate, found, same, .inr ⟨one.1, one.2, carried, isOn_of_owed owed, exports, proving, below,
          mem_tickets owed⟩⟩
  proves := by
    rintro rfl gate found covers one owner
    obtain ⟨durable, rfl, reaches⟩ := covered_ok covers
    cases one with
    | output => trivial
    | ticket =>
      have owed := mem_owes.mpr (.inl owner)
      obtain ⟨i, before, arrived⟩ := (vouches op gate found).known _ _ _ _ owed
      obtain ⟨which, rfl⟩ := owner_of_owed owner
      exact fun _ => ⟨i, arrived, n, before, le_rfl,
        .inl ⟨op, durable, told, reaches, gate, found, isOn_of_owed owed, which⟩⟩

/-- What handling event `n` rests on. -/
theorem eventCustody (answered : r.Answered) (told : r.events[n]? = some event) :
    event.Custody (r.evidence n) { r.stateAt n with effects := [] } where
  alone := r.alone n (lt_length_of_told told).le
  reached op result source same := proofCustody vouches (same ▸ told)
  verified := by
    rintro op rfl gate found one owed
    cases one with
    | output => trivial
    | ticket =>
      obtain ⟨j, before, _, _, asked⟩ := answered n op _ told
      have verifying := (r.verifying_of_asked n (lt_length_of_told told).le j before op _ _ asked).2
        gate found
      rcases (vouches op gate found).read verifying _ _ _ _ owed with read | ⟨_, none⟩
      · obtain ⟨v, earlier, raised, i, k, first, _, arrived, lands⟩ := read
        refine fun _ =>
          ⟨i, arrived, k, first, by omega, .inr ⟨lands, op, v, n, by omega, earlier, le_rfl,
          raised, told⟩⟩
      · cases none

/-- What is known of the tickets while event `n` is handled. -/
def custodyDuring (r : Run χ) (n : ℕ) : Custody := { r.custody (n + 1) with read := r.ReadBefore n }

/-- **Handling an event keeps the tickets in custody**, and a positive verdict rests on the
evidence for it. -/
theorem docket_vouched (answered : r.Answered) (told : r.events[n]? = some event) :
    (Turn.docket { r.stateAt (n + 1) with effects := r.effectsAt n } 0).Vouched (r.evidence n)
      (r.custodyDuring n) := by
  have moves := onEvent_docket event (eventCustody vouches answered told) (r.stateAt_cacheSound n)
  rw [← stateAt_succ told, ← effectsAt_of_told told] at moves
  refine moves.invariant (fun _ _ move vouched => vouched.move move) ⟨?_,
    fun op gate found => ?_, ?_⟩
  · intro cell epoch _ ticket brought
    refine ⟨n, lt_succ_self n, ?_⟩
    rw [told]
    cases event with
    | exportTicket => cases mem_singleton.mp (Multiset.mem_coe.mp brought); rfl
    | output | outputAt => cases mem_singleton.mp (Multiset.mem_coe.mp brought)
    | _ => cases Multiset.mem_coe.mp brought
  · have before := vouches op gate found
    refine ⟨fun _ _ _ _ owed => ?_, fun rider rides => ?_, before.alone,
      fun verifying _ _ _ _ owed => ?_⟩
    · obtain ⟨i, earlier, arrived⟩ := before.known _ _ _ _ owed
      exact ⟨i, earlier.trans (lt_succ_self n), arrived⟩
    · exact (before.within rider rides).imp_right fun landed => landed.mono (le_succ n)
    · exact (before.read verifying _ _ _ _ owed).imp_right fun told =>
        absurd told.2 not_mem_nil
  · intro cell epoch ticket none
    cases none

end Vouched

/-- **Every ticket of a run is vouched for.** -/
theorem vouched (answered : r.Answered) : ∀ n ≤ r.events.length, ∀ (op : OpId) (gate : Barrier χ),
    (r.stateAt n).barriers[op]? = some gate → r.Vouches n op gate := by
  refine history ?_ ?_
  · intro op gate found
    rw [stateAt_zero] at found
    simp [State.new] at found
  · intro n _ told vouches op gate found
    have after := (docket_vouched vouches answered told).barriers op gate found
    refine ⟨after.known, after.within, after.alone, fun verifying _ _ _ _ owed => .inl ?_⟩
    rcases after.read verifying _ _ _ _ owed with read | ⟨landed, asked⟩
    · exact ReadBefore.mono read (le_succ n)
    · exact ⟨n, lt_succ_self n, (mem_filter.mp asked).1, landed⟩

/-! ## Verdicts -/

/-- No two export tickets have one number. -/
def DistinctTickets (r : Run χ) : Prop :=
  ∀ i j ticket : ℕ, r.events[i]?.bind Event.ticket? = some ticket →
    r.events[j]?.bind Event.ticket? = some ticket → i = j

/-- Only an export ticket brings a ticket. -/
theorem exportTicket_of_owed (brought : Debt.ticket ticket ∈ event.owed.map Owed.debt) :
    ∃ cell epoch position, event = .exportTicket cell epoch position ticket := by
  obtain ⟨owed, mem, same⟩ := mem_map.mp brought
  cases event with
  | exportTicket cell epoch position =>
    cases mem_singleton.mp mem
    cases same
    exact ⟨cell, epoch, position, rfl⟩
  | output | outputAt =>
    cases mem_singleton.mp mem
    cases same
  | _ => cases mem

section Counts

variable [DecidableEq χ]

theorem brings_ticket (told : r.events[i]? = some (.exportTicket cell epoch position ticket)) :
    r.brings i (.ticket ticket) = 1 := by
  rw [brings, told]
  simp [Event.owed, Owed.debt]

theorem brings_no_ticket
    (other : ∀ cell epoch position,
      r.events[i]? ≠ some (.exportTicket cell epoch position ticket)) :
    r.brings i (.ticket ticket) = 0 := by
  refine count_eq_zero.mpr fun mem => ?_
  cases told : r.events[i]? with
  | none => simp [told] at mem
  | some =>
    simp only [told, Option.elim_some] at mem
    obtain ⟨cell, epoch, position, rfl⟩ := exportTicket_of_owed mem
    exact other cell epoch position told

/-- The verdicts on a ticket, with the places it has on the barriers. -/
theorem verdicts_balance (r : Run χ) (ticket : ℕ) (within : j ≤ r.events.length) :
    (r.stateAt j).tickets.count ticket + r.verdicts j ticket
      = ∑ k ∈ Finset.range j, r.brings k (.ticket ticket) := by
  have balanced := r.stretch_balance (.ticket ticket) (Nat.zero_le j) within
  have start : (r.stateAt 0).tickets.count ticket = 0 := by
    rw [stateAt_zero, State.tickets, State.new, Std.ExtTreeMap.toList_eq_nil_iff.mpr rfl]
    rfl
  rw [State.count_debts_ticket (r.docket_bounded j within 0),
    State.count_debts_ticket (r.docket_bounded 0 (Nat.zero_le _) 0), start, zero_add,
    ← Finset.range_eq_Ico] at balanced
  rw [← balanced, verdicts]
  refine congrArg _ (Finset.sum_congr rfl fun k _ => ?_)
  exact (r.answers_ticket k ticket).symm

/-- **Export tickets settle exactly once, and only on evidence of their own.**  From the event that
brings a ticket on, there is one verdict on it or one place for it on a barrier.  A positive
verdict comes after a proof that covers the ticket's position arrived for its own barrier or its
host: a fleet acknowledgement of its own barrier, or one that was followed by the verified
ownership read that was asked for after the ticket arrived. -/
theorem tickets_settle_once (r : Run χ) (distinct : r.DistinctTickets) (answered : r.Answered) :
    (∀ i j cell epoch position ticket,
      r.events[i]? = some (.exportTicket cell epoch position ticket) → i < j →
      j ≤ r.events.length → r.verdicts j ticket + (r.stateAt j).tickets.count ticket = 1) ∧
    ∀ n cell epoch ticket, .exportProven cell epoch ticket (.ok ()) ∈ r.effectsAt n →
      ∃ i position, r.events[i]? = some (.exportTicket cell epoch position ticket) ∧
        r.ProvedFrom i n cell epoch position ticket := by
  constructor
  · intro i j cell epoch position ticket arrived before within
    have only : ∑ k ∈ Finset.range j, r.brings k (.ticket ticket) = 1 := by
      rw [Finset.sum_eq_single i, brings_ticket arrived]
      · intro k _ differs
        refine brings_no_ticket fun cell' epoch' position' told => differs ?_
        exact distinct k i ticket (by rw [told]; rfl) (by rw [arrived]; rfl)
      · intro absent
        exact absurd (Finset.mem_range.mpr before) absent
    have balanced := r.verdicts_balance ticket within
    omega
  · intro n cell epoch ticket proven
    obtain ⟨_, told, _⟩ := told_of_effect proven
    have vouches := r.vouched answered n (lt_length_of_told told).le
    have settled := (docket_vouched vouches answered told).proven cell epoch ticket
      (mem_filter.mpr ⟨proven, rfl⟩)
    obtain ⟨position, i, arrived, proved⟩ := settled
    exact ⟨i, position, arrived, proved⟩

end Counts

/-- A ticket rides the barrier of a write, which the bucket proves and an ownership read
confirms. -/
def riddenTicket : Run Unit :=
  booted [.output 1 () (some 5) none none, .exportTicket "a" 1 4 0,
    .durableReached 6 (.ok 7) .bucket, .ownershipVerified 6 (.ok ())]

theorem riddenTicket_distinct : riddenTicket.DistinctTickets := by
  have only : ∀ k ticket, riddenTicket.events[k]?.bind Event.ticket? = some ticket → k = 7 := by
    intro k ticket found
    obtain ⟨_, told, _⟩ := Option.bind_eq_some_iff.mp found
    have within : k < 10 := lt_length_of_told told
    interval_cases k <;> cases found
    rfl
  intro i j ticket first second
  rw [only i ticket first, only j ticket second]

theorem riddenTicket_answered : riddenTicket.Answered := by
  intro k _ _ told
  have within : k < 10 := lt_length_of_told told
  have asks : .verifyOwnership 6 "a" 1 ∈ riddenTicket.effectsAt 8 := by decide +kernel
  interval_cases k <;> cases told
  exact ⟨8, by decide, "a", 1, asks⟩

/-- The ticket is carried until the read is confirmed, and then proved from evidence. -/
theorem riddenTicket_settles :
    riddenTicket.verdicts 9 0 + (riddenTicket.stateAt 9).tickets.count 0 = 1 ∧
      ∃ i position, riddenTicket.events[i]? = some (.exportTicket "a" 1 position 0) ∧
        riddenTicket.ProvedFrom i 9 "a" 1 position 0 := by
  have settles := tickets_settle_once riddenTicket riddenTicket_distinct riddenTicket_answered
  exact ⟨settles.1 7 9 "a" 1 4 0 rfl (by decide) (by decide),
    settles.2 9 "a" 1 0 (by decide +kernel)⟩

/-- A ticket with a barrier of its own, and a verified ownership read that nobody asked for. -/
def unaskedTicket : Run Unit :=
  booted [.exportTicket "a" 1 4 0, .ownershipVerified 6 (.ok ())]

/-- A positive verdict with no durability proof before it. -/
theorem unasked_verification_proves_ticket :
    .exportProven "a" 1 0 (.ok ()) ∈ unaskedTicket.effectsAt 7 ∧
      ∀ (k : ℕ) (op : OpId) (result : Except Failure ℕ) (source : ProofSource),
        unaskedTicket.events[k]? ≠ some (.durableReached op result source) := by
  refine ⟨by decide +kernel, fun k op result source told => ?_⟩
  have within : k < 8 := lt_length_of_told told
  interval_cases k <;> cases told

end Run

end Celld
