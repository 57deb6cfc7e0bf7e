import Celld.Ownership.Claims

/-!
# The takeover interlock

A node takes a cell from another owner by a conditional write against the version of
the ownership record it read.  Between the read and the write lies the evidence: the
owner's lease was read too, and was found absent or no longer live at the instant that
read was issued; and if the lease names a log that is neither absent nor sealed, the log
has been recovered since.

The evidence is collected two or three events before the write, and the claim may wait
behind the capacity lookup and the residency ceiling in between.  The invariants below
carry it along: a cell that reads a lease was told of the owner, a cell that waits for a
recovery found the owner dead, and a takeover claim a cell carries is backed.
-/

namespace Celld.Run

open Nat

variable {χ : Type} {r : Run χ} {i j k : ℕ} {id : CellId} {event : Event χ}

/-! ## Evidence -/

/-- Event `i` answers the read of a cell's ownership record. -/
def OwnerReadAt (r : Run χ) (i : ℕ) (id : CellId) (nowMs : ℕ) (record : OwnerRecord) : Prop :=
  ∃ op, r.events[i]? = some (.ownerRead op nowMs (.ok (some record))) ∧
    (((r.stateAt i).view []).cellAt id).phase.WaitsOwner op

/-- Event `i` finds that the record names another owner, and reads that owner's lease
under `op`, issued at the wall instant `issuedMs`. -/
structure LeaseAsked (r : Run χ) (i : ℕ) (id : CellId) (op : OpId) (record : OwnerRecord)
    (owner : NodeId) (issuedMs : ℕ) : Prop where
  read : r.OwnerReadAt i id issuedMs record
  names : record.node = some owner
  foreign : owner ≠ r.node
  asked : .cell (.readNodeLease op id owner) ∈ r.effectsAt i

/-- Event `j` answers the lease read that event `i` issued, and the owner's lease was
absent or not live when that read was issued. -/
structure FoundDead (r : Run χ) (i j : ℕ) (id : CellId) (record : OwnerRecord) (owner : NodeId)
    (lease : Option NodeLeaseRecord) : Prop where
  found : ∃ op nowMs issuedMs, r.LeaseAsked i id op record owner issuedMs ∧
    r.events[j]? = some (.nodeLeaseRead op nowMs (.ok lease)) ∧ LeaseDead record issuedMs lease
  before : i < j

/-- **The evidence for a takeover**, complete before event `k`: the owner was found
dead, and its log was settled then or has been recovered since. -/
def Evidence (r : Run χ) (k : ℕ) (id : CellId) (record : OwnerRecord) (owner : NodeId) : Prop :=
  ∃ i j lease, r.FoundDead i j id record owner lease ∧ j < k ∧
    (LogSettled lease ∨ ∃ m op, j < m ∧ m < k ∧
      .cell (.recoverNodeLog op id owner) ∈ r.effectsAt j ∧
      r.events[m]? = some (.nodeLogRecovered op (.ok ())))

/-- The takeover claim of a cell is for the record version its guard names, which is
released or whose owner there is evidence against. -/
structure Backed (r : Run χ) (k : ℕ) (id : CellId) (claim : Claim) (record : OwnerRecord) :
    Prop where
  read : ∃ i < k, ∃ nowMs, r.OwnerReadAt i id nowMs record
  guard : claim.guard = .match record.etag
  epoch : claim.epoch = record.epoch + 1
  prior : claim.prior = record.node
  dead : ∀ owner, record.node = some owner → owner ≠ r.node ∧ r.Evidence k id record owner

theorem Evidence.mono {record : OwnerRecord} {owner : NodeId} {later : ℕ}
    (evidence : r.Evidence k id record owner) (le : k ≤ later) :
    r.Evidence later id record owner := by
  obtain ⟨i, j, lease, dead, before, settled⟩ := evidence
  refine ⟨i, j, lease, dead, before.trans_le le, settled.imp_right ?_⟩
  rintro ⟨m, op, after, within, asked, recovered⟩
  exact ⟨m, op, after, within.trans_le le, asked, recovered⟩

theorem Backed.mono {claim : Claim} {record : OwnerRecord} {later : ℕ}
    (backed : r.Backed k id claim record) (le : k ≤ later) : r.Backed later id claim record := by
  obtain ⟨i, before, nowMs, read⟩ := backed.read
  refine ⟨⟨i, before.trans_le le, nowMs, read⟩, backed.guard, backed.epoch, backed.prior, ?_⟩
  intro owner named
  obtain ⟨foreign, evidence⟩ := backed.dead owner named
  exact ⟨foreign, evidence.mono le⟩

/-! ## Invariants of a run -/

/-- Every operation a cell waits for has an id already. -/
theorem opsBelow (r : Run χ) : ∀ i ≤ r.events.length, ((r.stateAt i).view []).OpsBelow := by
  refine history ?_ ?_
  · intro _ _ waits
    rw [stateAt_zero] at waits
    simp [State.view, State.gate, Turn.gate, Turn.core, CoreTurn.view, State.new, Phase.op?]
      at waits
  · intro i _ told below
    have kept := (moves told).opsBelow below
    exact kept

theorem grants_old (told : r.events[i]? = some event) :
    (event.grants (r.stateAt i)).Old (r.stateAt i).nextOp :=
  event.grants_old (r.opsBelow i (lt_length_of_told told).le)

/-- What the cells of a state have been told. -/
structure Informed (r : Run χ) (k : ℕ) : Prop where
  /-- A cell that reads a lease was told of the owner. -/
  lease : ∀ id op record issuedMs issuedMonoMs,
    (((r.stateAt k).view []).cellAt id).phase = .readingNodeLease op record issuedMs issuedMonoMs →
    ∃ i < k, ∃ owner, r.LeaseAsked i id op record owner issuedMs
  /-- A cell that waits for a recovery found the owner dead. -/
  recovery : ∀ id op record,
    (((r.stateAt k).view []).cellAt id).phase = .recoveringOwnerLog op record →
    ∃ i j lease owner, j < k ∧ r.FoundDead i j id record owner lease ∧
      .cell (.recoverNodeLog op id owner) ∈ r.effectsAt j
  /-- A takeover claim a cell carries is backed. -/
  claims : ∀ id claim, (((r.stateAt k).view []).cellAt id).Carries claim →
    claim.takeover = true → ∃ record, r.Backed k id claim record

/-- A takeover claim that an event grants is backed. -/
theorem Informed.backed (informed : r.Informed k) (told : r.events[k]? = some event) {claim : Claim}
    (granted : (event.grants (r.stateAt k)).claim (((r.stateAt k).view []).cellAt id).phase claim)
    (takeover : claim.takeover = true) : ∃ record, r.Backed (k + 1) id claim record := by
  cases event with
  | ownerRead op nowMs =>
    obtain ⟨_, waits, found, rfl, allowed⟩ := granted
    cases allowed with
    | absent => cases takeover
    | own => cases takeover
    | released record reconciles unowned =>
      refine ⟨record, ⟨k, lt_succ_self k, nowMs, op, told, waits⟩, rfl, rfl, unowned.symm, ?_⟩
      intro owner named
      rw [unowned] at named
      cases named
  | nodeLeaseRead op nowMs =>
    obtain ⟨_, record, issuedMs, issuedMonoMs, lease, phase, rfl, dead, settled, rfl⟩ := granted
    obtain ⟨i, before, owner, asked⟩ := informed.lease id op record issuedMs issuedMonoMs phase
    refine ⟨record, ⟨i, before.trans (lt_succ_self k), issuedMs, asked.read⟩, rfl, rfl, rfl, ?_⟩
    intro other named
    rw [asked.names] at named
    cases named
    exact ⟨asked.foreign, i, k, lease, ⟨⟨op, nowMs, issuedMs, asked, told, dead⟩, before⟩,
      lt_succ_self k, .inl settled⟩
  | nodeLogRecovered op =>
    obtain ⟨_, rfl, record, phase, rfl⟩ := granted
    obtain ⟨i, j, lease, owner, before, dead, raised⟩ := informed.recovery id op record phase
    obtain ⟨_, nowMs, issuedMs, asked, _⟩ := dead.found
    refine ⟨record, ⟨i, ?_, issuedMs, asked.read⟩, rfl, rfl, rfl, ?_⟩
    · exact (dead.before.trans before).trans (lt_succ_self k)
    intro other named
    rw [asked.names] at named
    cases named
    exact ⟨asked.foreign, i, j, lease, dead, before.trans (lt_succ_self k),
      .inr ⟨k, op, before, lt_succ_self k, raised, told⟩⟩
  | ownerCasCompleted => exact granted.2.elim
  | localCellsRead => exact granted.elim
  | durableReached => exact granted.elim
  | ownershipVerified => exact granted.elim
  | _ => exact granted.elim

/-- A claim that an event spends is backed after it. -/
theorem Informed.spent (informed : r.Informed k) (told : r.events[k]? = some event) {claim : Claim}
    (spent : (((r.stateAt k).view []).cellAt id).Carries claim ∨
      (event.grants (r.stateAt k)).claim (((r.stateAt k).view []).cellAt id).phase claim)
    (takeover : claim.takeover = true) : ∃ record, r.Backed (k + 1) id claim record := by
  rcases spent with carried | granted
  · obtain ⟨record, backed⟩ := informed.claims id claim carried takeover
    exact ⟨record, backed.mono (le_succ k)⟩
  · exact informed.backed told granted takeover

/-- An effect that moves list is an effect of the event. -/
theorem mem_effectsAt {effect : CellEffect}
    (raised : effect ∈ ((r.stateAt (k + 1)).view (r.effectsAt k)).effects) :
    .cell effect ∈ r.effectsAt k := by
  obtain ⟨whole, mem, eq⟩ := List.mem_filterMap.mp raised
  cases whole with
  | cell =>
    cases eq
    exact mem
  | _ => cases eq

/-- **Cells are informed in every state of a run.** -/
theorem informed (r : Run χ) : ∀ k ≤ r.events.length, r.Informed k := by
  refine history ?_ ?_
  · have start : ∀ id, (((r.stateAt 0).view []).cellAt id) = {} := by
      intro id
      rw [stateAt_zero]
      simp [State.view, State.gate, Turn.gate, Turn.core, CoreTurn.view, State.new]
    refine ⟨?_, ?_, ?_⟩
    · intro id op record issuedMs issuedMonoMs phase
      rw [start] at phase
      cases phase
    · intro id op record phase
      rw [start] at phase
      cases phase
    · intro id claim carried
      rw [start] at carried
      rcases carried with waits | ⟨op, issuedMonoMs, phase⟩
      · cases waits
      · cases phase
  · intro k _ told informed
    have moves := moves told
    have old := grants_old told
    have within : k ≤ r.events.length := (lt_length_of_told told).le
    refine ⟨?_, ?_, ?_⟩
    · intro id op record issuedMs issuedMonoMs phase
      rcases moves.leasePhase old phase with same | granted
      · obtain ⟨i, before, asked⟩ :=
          informed.lease id op record issuedMs issuedMonoMs (same.symm.trans phase)
        exact ⟨i, before.trans (lt_succ_self k), asked⟩
      · obtain ⟨readOp, owner, rfl, waits, named, foreign⟩ := Event.grants_lease granted
        rw [(r.node_config k within).1] at foreign
        have request : (((r.stateAt (k + 1)).view (r.effectsAt k)).cellAt id).phase.request id
            = some (.readNodeLease op id owner) := by
          show (((r.stateAt (k + 1)).view []).cellAt id).phase.request id = _
          rw [phase, Phase.request, named]
          rfl
        rcases moves.asked request with same | raised
        · -- The cell waited for its ownership record, not for a lease.
          rcases waits with reads | ⟨claim, _, reads⟩
          · cases (phase.symm.trans same).trans reads
          · cases (phase.symm.trans same).trans reads
        · exact ⟨k, lt_succ_self k, owner, ⟨readOp, told, waits⟩, named, foreign,
            mem_effectsAt raised⟩
    · intro id op record phase
      rcases moves.recoverPhase old phase with same | granted
      · obtain ⟨i, j, lease, owner, before, dead, raised⟩ :=
          informed.recovery id op record (same.symm.trans phase)
        exact ⟨i, j, lease, owner, before.trans (lt_succ_self k), dead, raised⟩
      · obtain ⟨leaseOp, nowMs, issuedMs, issuedMonoMs, lease, rfl, reads, gone⟩ :=
          Event.grants_recover granted
        obtain ⟨i, before, owner, asked⟩ :=
          informed.lease id leaseOp record issuedMs issuedMonoMs reads
        have request : (((r.stateAt (k + 1)).view (r.effectsAt k)).cellAt id).phase.request id
            = some (.recoverNodeLog op id owner) := by
          show (((r.stateAt (k + 1)).view []).cellAt id).phase.request id = _
          rw [phase, Phase.request, asked.names]
          rfl
        rcases moves.asked request with same | raised
        · cases (phase.symm.trans same).trans reads
        · exact ⟨i, k, lease, owner, lt_succ_self k,
            ⟨⟨leaseOp, nowMs, issuedMs, asked, told, gone⟩, before⟩, mem_effectsAt raised⟩
    · intro id claim carried takeover
      exact informed.spent told (moves.carries old carried) takeover

/-- **The takeover interlock.**  A conditional write that takes a cell over is for the
record version its guard names: a released one, or one that names another owner whom
there is evidence against. -/
theorem takeover_evidence (r : Run χ) {op : OpId} {guard : CasGuard} {epoch : Epoch}
    (claimed : .cell (.casOwner op id guard epoch true) ∈ r.effectsAt k) :
    ∃ record, guard = .match record.etag ∧ epoch = record.epoch + 1 ∧
      (∃ i ≤ k, ∃ nowMs, r.OwnerReadAt i id nowMs record) ∧
      (∀ claim dormant,
        (((r.stateAt (k + 1)).view []).cellAt id).phase = .acquiring op claim dormant →
        claim.prior = record.node) ∧
      ∀ owner, record.node = some owner → owner ≠ r.node ∧ r.Evidence (k + 1) id record owner := by
  obtain ⟨_, told, _⟩ := told_of_effect claimed
  have raised : CellEffect.casOwner op id guard epoch true
      ∈ ((r.stateAt (k + 1)).view (r.effectsAt k)).effects :=
    List.mem_filterMap.mpr ⟨_, claimed, rfl⟩
  rcases (moves told).claimed (grants_old told) raised with
    earlier | ⟨claim, rfl, rfl, takeover, _, same, spent⟩
  · cases earlier
  · have informed := r.informed k (lt_length_of_told told).le
    obtain ⟨record, backed⟩ := informed.spent told spent takeover
    obtain ⟨i, before, nowMs, read⟩ := backed.read
    refine ⟨record, backed.guard, backed.epoch, ⟨i, le_of_lt_succ before, nowMs, read⟩, ?_,
      backed.dead⟩
    intro other dormant phase
    rw [same other dormant phase]
    exact backed.prior

/-- Cell `a` belongs to node `m`, which has no lease any more. -/
def ownerGone : Run Unit where
  node := "n"
  config := sampleConfig
  events := [.request 1 "a", .ownerRead 1 50 (.ok (some ⟨some "m", 3, "v"⟩)),
    .nodeLeaseRead 2 60 (.ok none)]

theorem ownerGone_takeover_evidence :
    ∃ record, CasGuard.match "v" = .match record.etag ∧ 4 = record.epoch + 1 ∧
      (∃ i ≤ 2, ∃ nowMs, ownerGone.OwnerReadAt i "a" nowMs record) ∧
      (∀ claim dormant,
        (((ownerGone.stateAt 3).view []).cellAt "a").phase = .acquiring 3 claim dormant →
          claim.prior = record.node) ∧
      ∀ owner, record.node = some owner →
        owner ≠ ownerGone.node ∧ ownerGone.Evidence 3 "a" record owner :=
  takeover_evidence ownerGone (by decide +kernel)

end Celld.Run
