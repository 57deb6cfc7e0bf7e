import Celld.Moves.Activation

/-!
# Ownership resolution

The claims that resolution makes are the grants of three events: the ownership record that was
read (`OwnerClaim`), the dead owner's lease, and the recovery of its log.  The lemmas below say
exactly which claim each answer allows, so the takeover interlock can be read off the grants.

A cell whose ownership is being resolved is on its cold route: it stands in no queue, its phase
says that it has a permit, and its confirmation is settled before its record is acted on
(`Routed`).  Every answer either parks it or takes it one phase further.
-/

namespace Celld

open Option

variable {phase : Phase} {op : OpId}

/-- A claim that a read of the ownership record allows at once: the record is
absent, this node's own, or released. -/
inductive OwnerClaim (node : NodeId) : Option OwnerRecord → Claim → Prop
  | absent (reconciles : ℕ) :
      OwnerClaim node none
        { guard := .absent, epoch := 1, takeover := false, prior := none,
          reconciles := reconciles }
  | own (record : OwnerRecord) (reconciles : ℕ) (named : record.node = some node) :
      OwnerClaim node (some record)
        { guard := .match record.etag, epoch := record.epoch + 1, takeover := false,
          prior := record.node, reconciles := reconciles }
  | released (record : OwnerRecord) (reconciles : ℕ) (unowned : record.node = none) :
      OwnerClaim node (some record)
        { guard := .match record.etag, epoch := record.epoch + 1, takeover := true,
          prior := none, reconciles := reconciles }

/-- No lease, or one that was not live when its read was issued. -/
def LeaseDead (record : OwnerRecord) (issuedMs : ℕ) (lease : Option NodeLeaseRecord) : Prop :=
  ∀ found, lease = some found → CoreTurn.leaseIsLive found record issuedMs = false

/-- Nothing was acknowledged past the bucket: no lease, no log, or a sealed one. -/
def LogSettled (lease : Option NodeLeaseRecord) : Prop :=
  ∀ found, lease = some found → found.logState = none ∨ found.logState = some .sealed

/-- The phase waits for the read of an ownership record. -/
def Phase.WaitsOwner (phase : Phase) (op : OpId) : Prop :=
  phase = .readingOwner op ∨ ∃ claim dormant, phase = .reconcilingAcquire op claim dormant

theorem Phase.WaitsOwner.op? (waits : phase.WaitsOwner op) :
    phase.op? = some op := by
  rcases waits with rfl | ⟨_, _, rfl⟩ <;> rfl

/-- The cell an operation is indexed under waits for it. -/
def Core.Awaits (c : Core) (op : OpId) : Prop :=
  ∃ (id : CellId) (cell : Cell), c.cellOps[op]? = some id ∧ c.cells[id]? = some cell ∧
    cell.phase.op? = some op

/-- What the answer of an ownership read grants. -/
def Grants.ownerRead (node : NodeId) (op : OpId) (nowMs : ℕ)
    (result : Except Failure (Option OwnerRecord)) : Grants :=
  { Grants.none with
    claim phase claim := phase.WaitsOwner op ∧ ∃ found, result = .ok found ∧
      OwnerClaim node found claim
    confirm phase spec := ∃ claim dormant record, phase = .reconcilingAcquire op claim dormant ∧
      result = .ok (some record) ∧ record.node = some node ∧ record.epoch = claim.epoch ∧
      spec = CoreTurn.confirmedSpec claim
    lease phase record issuedMs := phase.WaitsOwner op ∧ result = .ok (some record) ∧
      issuedMs = nowMs ∧ ∃ owner, record.node = some owner ∧ owner ≠ node }

/-- What the answer of a lease read grants. -/
def Grants.nodeLeaseRead (op : OpId) (result : Except Failure (Option NodeLeaseRecord)) : Grants :=
  { Grants.none with
    claim phase claim := ∃ record issuedMs issuedMonoMs lease,
      phase = .readingNodeLease op record issuedMs issuedMonoMs ∧ result = .ok lease ∧
      LeaseDead record issuedMs lease ∧ LogSettled lease ∧
      claim = CoreTurn.takeoverClaim record (record.epoch + 1)
    recover phase record := ∃ issuedMs issuedMonoMs lease,
      phase = .readingNodeLease op record issuedMs issuedMonoMs ∧ result = .ok lease ∧
      LeaseDead record issuedMs lease ∧ ¬ LogSettled lease }

/-- What the recovery of a dead owner's log grants. -/
def Grants.nodeLogRecovered (op : OpId) (result : Except Failure Unit) : Grants :=
  { Grants.none with
    claim phase claim := result = .ok () ∧ ∃ record, phase = .recoveringOwnerLog op record ∧
      claim = CoreTurn.takeoverClaim record (record.epoch + 1) }

/-- What the answer of an ownership write grants. -/
def Grants.ownerCasCompleted (op : OpId) (result : Except Failure CasOutcome) : Grants :=
  { Grants.none with
    confirm phase spec := result = .ok .applied ∧ ∃ claim dormant,
      phase = .acquiring op claim dormant ∧ spec = CoreTurn.confirmedSpec claim }

theorem Grants.allows.claim {G : Grants} {id : CellId} {cell : Cell} {claim : Claim}
    (granted : G.claim cell.phase claim) : G.allows id cell (.claim claim) := .inl granted

theorem Grants.allows.confirm {G : Grants} {id : CellId} {cell : Cell} {spec : RestoreSpec}
    (granted : G.confirm cell.phase spec) : G.allows id cell (.restore spec) := .inl granted

/-- The cell is on its cold route, and free to leave it. -/
structure Cell.Routed (r : Rules) (cell : Cell) : Prop where
  unqueued : cell.phase.isQueued = false
  requires : cell.requiresPermit = true
  quiet : r.quiet cell
  drops : r.drops

namespace Cell.Routed

variable {r : Rules} {cell next : Cell}

theorem of_kept (routed : cell.Routed r) (same : next.kept = cell.kept) : next.Routed r := by
  simp only [Cell.kept, Prod.mk.injEq] at same
  obtain ⟨phase, _, _, _, waiting, confirming, swapping⟩ := same
  have requires := routed.requires
  have quiet := routed.quiet
  refine ⟨phase ▸ routed.unqueued, ?_, ?_, routed.drops⟩
  · rwa [Cell.requiresPermit, phase, swapping]
  · rwa [Rules.quiet, confirming, Cell.asks, phase, waiting]

/-- A cell that waits for an answer of its cold route. -/
theorem of_phase (found : cell.phase = phase) (unqueued : phase.isQueued = false)
    (requires : ∀ swapping, phase.requiresActivationPermit swapping = true)
    (silent : cell.asks = false) (drops : r.drops) : cell.Routed r where
  unqueued := by rw [found]; exact unqueued
  requires := by rw [Cell.requiresPermit, found]; exact requires _
  quiet := .inr (.inr silent)
  drops := drops

theorem loose (routed : cell.Routed r) : cell.Loose r cell cell := .refl (.inl routed.unqueued)

end Cell.Routed

namespace CoreTurn

variable {G : Grants} {r : Rules} {t u : CoreTurn} {id : CellId} {cell : Cell} {p : Cell × CoreTurn}
  {record : OwnerRecord}

/-! ## Placement -/

theorem park_hand (routed : cell.Routed r) (parked : phase.isParked = true) :
    Hands G r t id cell cell (t.setPhase cell phase) :=
  hand_park routed.loose routed.quiet (.inl routed.drops) parked

theorem refuse_hand (routed : cell.Routed r) (parked : phase.isParked = true)
    (result : Except RequestError Route) :
    Hands G r t id cell cell
      ((t.setPhase cell phase).2.finishRequests id (t.setPhase cell phase).1 result) :=
  parkAndFinish_hand routed.loose routed.quiet (.inl routed.drops) parked result

/-- Go on with the cold route in a phase that takes no slot. -/
theorem advance_hand (routed : cell.Routed r) (cold : phase.isCold = true)
    (vacant : phase.occupiesCapacity = false)
    (moves : Moves G (t.viewWith id cell) (u.viewWith id (cell.enter phase)))
    (rebooked : Rebooked t u cell phase) : Hands G r t id cell cell (cell.enter phase, u) := by
  have entry : Entry r t id cell (cell.enter phase) :=
    .cold (.inl routed.unqueued) (.inl routed.requires) cold
      (fun occupies => nomatch vacant.symm.trans occupies) (routed.quiet.carries rfl)
  exact ⟨moves, shift_move entry rfl rebooked⟩

theorem wait_hand (gone : t.Gone id) (routed : cell.Routed r) {activation : Activation}
    (allowed : G.allows id cell activation) (whenFull : WhenFull) :
    Hands G r t id cell cell (t.activateOrWait id cell activation whenFull) :=
  activateOrWait_hand gone routed.loose (.inl routed.requires) routed.quiet (.inl routed.drops)
    allowed whenFull

theorem exhausted_hand {previous : Epoch} (routed : cell.Routed r)
    (exhausted : t.nextWriterEpoch id cell previous = .error p) : Hands G r t id cell cell p :=
  nextWriterEpoch_error routed.loose routed.quiet (.inl routed.drops) exhausted

theorem drained_hand {prior : Option NodeId} (routed : cell.Routed r)
    (eq : t.refuseNewOwnershipDuringDrain id cell prior = some p) : Hands G r t id cell cell p :=
  refuseNewOwnershipDuringDrain_hand routed.loose routed.quiet routed.drops eq

theorem beginCapacityLookup_hand {claim : Claim} (routed : cell.Routed r)
    (allowed : G.allows id cell (.claim claim)) :
    Hands G r t id cell cell (t.beginCapacityLookup id cell claim) :=
  advance_hand (t := t) routed
    (rfl : (Phase.readingCapacity t.nextOp claim t.nowMonoMs).isCold = true)
    rfl (hand_startOp
      (.readCapacity id cell (by simpa using .refl _) claim (by simpa using allowed)) rfl) rfl

/-- What the refusal of handoffs leaves alone. -/
structure Refused (G : Grants) (r : Rules) (t : CoreTurn) (id : CellId) (cell : Cell)
    (p : Cell × CoreTurn) : Prop where
  kept : p.1.kept = cell.kept
  cells : p.2.cells = t.cells
  hands : Hands G r t id cell cell p

theorem refuseHandoffs_hand (l : List RequestId) (refused : Refused G r t id cell p) :
    Refused G r t id cell (l.foldl (refuseHandoff id) p) := by
  induction l generalizing p with
  | nil => exact refused
  | cons request l ih =>
    have erased : Hands G r p.2 id p.1 p.1
        ({ p.1 with requests := p.1.requests.erase request },
          { p.2 with requestCells := p.2.requestCells.erase request }) :=
      hand_touch (t := p.2) { p.1 with requests := p.1.requests.erase request } rfl
    exact ih ⟨refused.kept, refused.cells,
      refused.hands.trans (erased.trans (completeRequest_hand request _))⟩

theorem placeUnowned_hand {claim : Claim} (gone : t.Gone id) (routed : cell.Routed r)
    (granted : G.claim cell.phase claim) :
    Hands G r t id cell cell (t.placeUnowned id cell claim) := by
  have allowed : G.allows id cell (.claim claim) := .inl granted
  unfold placeUnowned
  split
  · rename_i eq
    exact drained_hand routed eq
  split
  · exact wait_hand gone routed allowed _
  split
  · rename_i dormant
    -- An ownership-only claim lands dormant: it needs no slot.
    exact beginActivation_hand routed.loose (.inl routed.requires) routed.quiet (.inl routed.drops)
      allowed (.inr ⟨⟨claim, rfl⟩, dormant⟩)
  · obtain ⟨same, cells, hands⟩ := refuseHandoffs_hand
      (cell.requests.toList.filter (t.capacityRequests.contains ·))
      (⟨rfl, rfl, .refl⟩ : Refused G r t id cell (cell, t))
    have routed' := routed.of_kept same
    have kept : G.allows id ((cell.requests.toList.filter (t.capacityRequests.contains ·)).foldl
        (refuseHandoff id) (cell, t)).1 (.claim claim) :=
      .inl ((Cell.Touches.of_kept same).phase ▸ granted)
    refine hands.trans ?_
    dsimp only
    split
    · refine wait_hand ?_ routed' kept _
      rw [Gone, cells]
      exact gone
    · exact beginCapacityLookup_hand routed' kept

/-! ## The dead owner -/

theorem claimFromDeadOwner_hand (gone : t.Gone id) (routed : cell.Routed r)
    (granted : G.claim cell.phase (takeoverClaim record (record.epoch + 1))) :
    Hands G r t id cell cell (t.claimFromDeadOwner id cell record) := by
  unfold claimFromDeadOwner
  split
  · rename_i eq
    exact exhausted_hand routed eq
  · rename_i eq
    rw [← nextWriterEpoch_ok eq] at granted
    exact wait_hand gone routed (.claim granted) _

theorem unrecovered_eq_false_iff (lease : Option CachedNodeLease) :
    unrecovered lease = false ↔ LogSettled (lease.map (·.record)) := by
  cases lease with
  | none => simp [unrecovered, LogSettled]
  | some lease =>
    cases state : lease.record.logState with
    | none => simp [unrecovered, LogSettled, state]
    | some log => cases log <;> simp [unrecovered, LogSettled, state]

/-- **The interlock.**  A lease answer leads to a claim only when the lease is dead
and its log settled, and to a recovery only when the log is not. -/
theorem applyNodeLeaseResult_hand {issuedMs : ℕ} {result : Except Failure (Option CachedNodeLease)}
    (gone : t.Gone id) (routed : cell.Routed r)
    (claims : ∀ lease, result = .ok lease → LeaseDead record issuedMs (lease.map (·.record)) →
      LogSettled (lease.map (·.record)) →
      G.claim cell.phase (takeoverClaim record (record.epoch + 1)))
    (recovers : ∀ lease, result = .ok lease → LeaseDead record issuedMs (lease.map (·.record)) →
      ¬ LogSettled (lease.map (·.record)) → G.recover cell.phase record) :
    Hands G r t id cell cell (t.applyNodeLeaseResult id cell record issuedMs result) := by
  unfold applyNodeLeaseResult
  split
  · exact refuse_hand routed rfl _
  rename_i lease
  split
  · split
    · exact refuse_hand routed rfl _
    · exact refuse_hand routed rfl _
  rename_i notLive
  have dead : LeaseDead record issuedMs (lease.map (·.record)) := by
    intro _ eq
    obtain ⟨_, rfl, rfl⟩ := map_eq_some_iff.mp eq
    have filtered := filter_eq_none_iff.mp notLive
    simpa using filtered
  split
  · rename_i eq
    exact drained_hand routed eq
  split
  · rename_i open_
    have granted : G.recover cell.phase record := by
      refine recovers lease rfl dead fun settled => ?_
      rw [(unrecovered_eq_false_iff lease).mpr settled] at open_
      cases open_
    exact advance_hand (t := t) routed
      (rfl : (Phase.recoveringOwnerLog t.nextOp record).isCold = true)
      rfl (hand_startOp
        (.recoverLog id cell (by simpa using .refl _) record (by simpa using granted)) rfl) rfl
  · rename_i sealed
    have settled := (unrecovered_eq_false_iff lease).mp (by simpa using sealed)
    exact claimFromDeadOwner_hand gone routed (claims lease rfl dead settled)

theorem cacheInsert_hand {owner : NodeId} {lease : CachedNodeLease} (sound : lease.Sound owner) :
    Moves G (t.viewWith id cell)
      (CoreTurn.viewWith { t with nodeLeaseCache := t.nodeLeaseCache.insert owner lease }
        id cell) := by
  have move := Move.cacheLease (G := G) (v := t.viewWith id cell) owner lease sound
  simp only [viewWith, view, View.put, BTreeMap.get_insert] at move ⊢
  exact .single move

theorem cacheErase_hand (owner : NodeId) :
    Moves G (t.viewWith id cell)
      (CoreTurn.viewWith { t with nodeLeaseCache := t.nodeLeaseCache.erase owner } id cell) := by
  have move := Move.uncacheLease (G := G) (v := t.viewWith id cell) owner
  simp only [viewWith, view, View.put, BTreeMap.get_erase] at move ⊢
  exact .single move

/-- The answer of a lease read, with the deadline the core derives for it. -/
def observedLease (issuedMonoMs receivedMs : ℕ) (result : Except Failure (Option NodeLeaseRecord)) :
    Except Failure (Option CachedNodeLease) :=
  result.map fun lease => lease.map fun record =>
    { record := record, deadline := .observed record.expiresMs issuedMonoMs receivedMs }

theorem observedLease_ok {issuedMonoMs receivedMs : ℕ}
    {result : Except Failure (Option NodeLeaseRecord)} {lease : Option CachedNodeLease}
    (eq : observedLease issuedMonoMs receivedMs result = .ok lease) :
    result = .ok (lease.map (·.record)) ∧
      ∀ cached, lease = some cached → cached.deadline.expiresMs = cached.record.expiresMs := by
  cases result with
  | error => cases eq
  | ok found =>
    have same := Except.ok.inj eq
    subst same
    cases found with
    | none => exact ⟨rfl, by simp⟩
    | some =>
      refine ⟨rfl, ?_⟩
      intro cached eq
      rw [← Option.some.inj eq]
      rfl

theorem cacheNodeLease_hand (t : CoreTurn) (id : CellId) (cell : Cell) (record : OwnerRecord)
    (issuedMonoMs receivedMs : ℕ) (result : Except Failure (Option NodeLeaseRecord)) :
    Hands G r t id cell cell
      (cell, t.cacheNodeLease record (observedLease issuedMonoMs receivedMs result)) ∧
    (t.cacheNodeLease record (observedLease issuedMonoMs receivedMs result)).cells = t.cells := by
  unfold cacheNodeLease
  split
  · rename_i lease eq
    split
    · rename_i fits
      simp only [Bool.and_eq_true, decide_eq_true_eq, Bool.not_eq_true'] at fits
      exact ⟨⟨cacheInsert_hand ⟨rfl, fits.2, (observedLease_ok eq).2 lease rfl⟩, .refl _⟩, rfl⟩
    · exact ⟨.refl, rfl⟩
  · exact ⟨.refl, rfl⟩

/-- A completion finds its cell: the index and the table hold it, and the predicate accepts it. -/
theorem takeCellOp_some {predicate : Cell → Bool} {u : CoreTurn}
    (eq : t.takeCellOp op predicate = some (id, cell, u)) :
    t.cellOps[op]? = some id ∧ t.cells[id]? = some cell ∧ predicate cell = true ∧
      u = t.dropOp op := by
  unfold takeCellOp at eq
  split at eq
  · cases eq
  rename_i index
  split at eq
  · cases eq
  rename_i mem
  split at eq
  · rename_i holds
    cases eq
    exact ⟨index, mem, holds, rfl⟩
  · cases eq

theorem nodeLeaseRead_turn (drops : r.drops) (op : OpId) (nowMs : ℕ)
    (result : Except Failure (Option NodeLeaseRecord)) :
    Turns ((Grants.nodeLeaseRead op result).when (t.Awaits op)) r t
      (t.nodeLeaseRead op nowMs result) := by
  unfold nodeLeaseRead
  split
  · exact .refl
  rename_i id cell _ eq
  obtain ⟨index, mem, holds, rfl⟩ := takeCellOp_some eq
  split
  · rename_i current record issuedMs issuedMonoMs phase
    obtain rfl : current = op := by simpa only [phase, decide_eq_true_eq] using holds
    refine Turns.mono (Grants.within_when ⟨id, cell, index, mem, by rw [phase]; rfl⟩) ?_
    have cached := cacheNodeLease_hand (G := .nodeLeaseRead current result) (r := r)
      ((t.dropOp current).dropCell id) id cell record issuedMonoMs (max nowMs t.nowMs) result
    have routed : cell.Routed r :=
      .of_phase phase rfl (fun _ => rfl) (by simp [Cell.asks, phase]) drops
    refine handled mem
      (cached.1.trans (applyNodeLeaseResult_hand ?_ routed ?_ ?_))
    · rw [Gone, cached.2]
      exact dropCell_gone _ _
    · intro lease ok dead settled
      exact ⟨record, issuedMs, issuedMonoMs, lease.map (·.record), phase,
        (observedLease_ok ok).1, dead, settled, rfl⟩
    · intro lease ok dead unsettled
      exact ⟨issuedMs, issuedMonoMs, lease.map (·.record), phase, (observedLease_ok ok).1, dead,
        unsettled⟩
  · exact .refl

theorem loose_attempts (settled : cell.phase.isQueued = false ∨ r.requeues) (attempts : ℕ) :
    cell.Loose r cell { cell with ownerLogRecoveryAttempts := attempts } := .of_kept rfl settled

theorem backOffRecovery_hand (routed : cell.Routed r) :
    Hands G r t id cell cell (t.backOffRecovery id cell) := by
  have loose := loose_attempts (r := r) (.inl routed.unqueued)
  unfold backOffRecovery
  dsimp only
  split
  · exact parkAndFinish_hand (loose 0) routed.quiet (.inl routed.drops) rfl _
  · have parked : Hands G r t id cell cell
        (t.setPhase { cell with ownerLogRecoveryAttempts := satAdd cell.ownerLogRecoveryAttempts 1 }
          (.waitingOwnerLogRecovery t.nextTimerGeneration)) :=
      hand_park (loose _) routed.quiet (.inl routed.drops) rfl
    exact parked.trans (hand_note [_] (by simp [CellEffect.inert]) rfl rfl)

theorem claimRecovered_hand {owner : OwnerRecord} {epoch : Epoch} (gone : t.Gone id)
    (routed : cell.Routed r) (allowed : G.allows id cell (.claim (takeoverClaim owner epoch))) :
    Hands G r t id cell cell (t.claimRecovered id cell owner epoch) :=
  (wait_hand gone routed allowed .shedToAdmit).trans (hand_touch _ rfl)

theorem nodeLogRecovered_turn (drops : r.drops) (op : OpId) (result : Except Failure Unit) :
    Turns ((Grants.nodeLogRecovered op result).when (t.Awaits op)) r t
      (t.nodeLogRecovered op result) := by
  unfold nodeLogRecovered
  split
  · exact .refl
  rename_i id cell _ eq
  obtain ⟨index, mem, holds, rfl⟩ := takeCellOp_some eq
  split
  · rename_i current owner phase
    obtain rfl : current = op := by simpa only [phase, decide_eq_true_eq] using holds
    have routed : cell.Routed r :=
      .of_phase phase rfl (fun _ => rfl) (by simp [Cell.asks, phase]) drops
    refine Turns.mono (Grants.within_when ⟨id, cell, index, mem, by rw [phase]; rfl⟩) ?_
    dsimp only
    split
    · split
      · rename_i exhausted
        exact handled (t := t.dropOp current) mem (exhausted_hand routed exhausted)
      · rename_i epoch fresh
        have allowed : (Grants.nodeLogRecovered current (.ok ())).allows id cell
            (.claim (takeoverClaim owner epoch)) := by
          rw [nextWriterEpoch_ok fresh]
          exact .inl ⟨rfl, owner, phase, rfl⟩
        exact (handled (t := t.dropOp current) mem
          (claimRecovered_hand (dropCell_gone _ _) routed allowed)).trans pumpActivations_turn
    · exact (handled (t := t.dropOp current) mem (backOffRecovery_hand routed)).trans
        pumpActivations_turn
  · exact .refl

theorem retryOwnerLogRecovery_turn (drops : r.drops) (generation : ℕ) :
    Turns G r t (t.retryOwnerLogRecovery id generation) := by
  unfold retryOwnerLogRecovery
  split
  · exact .refl
  rename_i cell mem
  split
  · exact .refl
  rename_i waits
  have phase : cell.phase = .waitingOwnerLogRecovery generation := not_not.mp waits
  have settled : cell.phase.isQueued = false ∨ r.requeues := .inl (by rw [phase]; rfl)
  dsimp only
  refine handled mem ?_
  split
  · exact hand_park (loose_attempts settled 0) (.inr (.inr (by simp [Cell.asks, phase])))
      (.inl drops) rfl
  · exact admitReadOwner_hand (dropCell_gone t id) (.refl settled) drops

/-! ## The ownership record -/

/-- Every cached lease may be trusted to name its owner and its published
deadline. -/
def CacheSound (t : CoreTurn) : Prop :=
  ∀ (owner : NodeId) (lease : CachedNodeLease), t.nodeLeaseCache[owner]? = some lease →
    lease.Sound owner

theorem resolveForeignOwner_hand {owner : NodeId} {nowMs : ℕ} (gone : t.Gone id)
    (routed : cell.Routed r) (sound : t.CacheSound) (past : nowMs ≤ t.nowMs)
    (named : record.node = some owner) (granted : G.lease cell.phase record nowMs) :
    Hands G r t id cell cell (t.resolveForeignOwner id cell record owner nowMs) := by
  unfold resolveForeignOwner
  split
  · rename_i lease hit
    obtain ⟨cached, fresh⟩ := filter_eq_some_iff.mp hit
    obtain ⟨node, addr, _⟩ := sound owner lease cached
    -- A cached lease is live now, so it was live at the earlier instant of this read.
    have live : leaseIsLive lease.record record nowMs = true := by
      simp only [RemoteLeaseDeadline.live, Bool.and_eq_true, decide_eq_true_eq] at fresh
      have later := fresh.1
      simp only [leaseIsLive, Bool.and_eq_true, decide_eq_true_eq, Bool.not_eq_true']
      exact ⟨⟨by omega, addr⟩, by rw [named, node]⟩
    have alive : ¬ LeaseDead record nowMs ((some lease).map (·.record)) := by
      intro dead
      rw [dead lease.record rfl] at live
      cases live
    refine applyNodeLeaseResult_hand gone routed ?_ ?_
    · rintro _ ⟨⟩ dead _
      exact absurd dead alive
    · rintro _ ⟨⟩ dead _
      exact absurd dead alive
  · let uncached : CoreTurn := { t with nodeLeaseCache := t.nodeLeaseCache.erase owner }
    exact advance_hand (t := t) routed
      (rfl : (Phase.readingNodeLease t.nextOp record nowMs t.nowMonoMs).isCold = true) rfl
      ((cacheErase_hand owner).trans (hand_startOp (.readLease id cell
        (by simpa using .refl _) record owner nowMs (by simpa using granted) named) rfl)) rfl

theorem confirmReconciled_hand {claim : Claim} (gone : t.Gone id) (routed : cell.Routed r)
    (granted : G.confirm cell.phase (confirmedSpec claim)) :
    Hands G r t id cell cell (t.confirmReconciled id cell claim) := by
  unfold confirmReconciled
  dsimp only
  split
  · exact park_hand (t := t) routed
      (rfl : (Phase.dormant (confirmedSpec claim).epoch).isParked = true)
  · exact wait_hand (t := t.recordAcquisition (confirmedSpec claim)) gone routed
      (.confirm granted) _

/-- Either result of a function that may find the epoch exhausted. -/
def outcome (result : Except (Cell × CoreTurn) (Cell × CoreTurn)) : Cell × CoreTurn :=
  match result with
  | .error p => p
  | .ok p => p

theorem reclaimOwn_hand {reconciles : ℕ} (gone : t.Gone id) (routed : cell.Routed r)
    (granted : G.claim cell.phase
      { guard := .match record.etag, epoch := record.epoch + 1, takeover := false,
        prior := record.node, reconciles := reconciles }) :
    Hands G r t id cell cell (outcome (t.reclaimOwn id cell record reconciles)) := by
  unfold reclaimOwn
  cases fresh : t.nextWriterEpoch id cell record.epoch with
  | error => exact exhausted_hand routed fresh
  | ok =>
    rw [← nextWriterEpoch_ok fresh] at granted
    exact wait_hand gone routed (.claim granted) _

theorem claimReleased_hand {reconciles : ℕ} (gone : t.Gone id) (routed : cell.Routed r)
    (granted : G.claim cell.phase
      { guard := .match record.etag, epoch := record.epoch + 1, takeover := true,
        prior := none, reconciles := reconciles }) :
    Hands G r t id cell cell (outcome (t.claimReleased id cell record reconciles)) := by
  unfold claimReleased
  cases fresh : t.nextWriterEpoch id cell record.epoch with
  | error => exact exhausted_hand routed fresh
  | ok =>
    rw [← nextWriterEpoch_ok fresh] at granted
    exact placeUnowned_hand gone routed granted

theorem reconcilingClaim_eq_some {claim : Claim} (eq : reconcilingClaim cell = some claim) :
    ∃ op dormant, cell.phase = .reconcilingAcquire op claim dormant := by
  unfold reconcilingClaim at eq
  split at eq
  · rename_i op _ dormant phase
    rw [← Option.some.inj eq]
    exact ⟨op, dormant, phase⟩
  · cases eq

theorem resolveOwner_hand {nowMs : ℕ} (result : Except Failure (Option OwnerRecord))
    (gone : t.Gone id) (sound : t.CacheSound) (past : nowMs ≤ t.nowMs)
    (waits : cell.phase.WaitsOwner op) (routed : cell.Routed r) :
    Hands (.ownerRead t.node op nowMs result) r t id cell cell
      (outcome (t.resolveOwner id cell nowMs result)) := by
  unfold resolveOwner
  dsimp only
  split
  · exact refuse_hand routed rfl _
  · exact placeUnowned_hand gone routed ⟨waits, none, rfl, .absent _⟩
  rename_i record
  split
  · rename_i claim hit
    obtain ⟨reconciling, same⟩ := filter_eq_some_iff.mp hit
    obtain ⟨current, dormant, phase⟩ := reconcilingClaim_eq_some reconciling
    simp only [Bool.and_eq_true, decide_eq_true_eq] at same
    have op_eq : current = op := by
      rcases waits with reading | ⟨_, _, other⟩
      · rw [phase] at reading; cases reading
      · rw [phase] at other; cases other; rfl
    subst op_eq
    exact confirmReconciled_hand gone routed ⟨claim, dormant, record, phase,
      rfl, same.1, same.2, rfl⟩
  split
  · rename_i unowned
    exact claimReleased_hand gone routed ⟨waits, some record, rfl, .released record _ unowned⟩
  rename_i owner named
  split
  · rename_i own
    rw [own] at named
    exact reclaimOwn_hand gone routed ⟨waits, some record, rfl, .own record _ named⟩
  · rename_i foreign
    exact resolveForeignOwner_hand gone routed sound past named
      ⟨waits, rfl, rfl, owner, named, foreign⟩

theorem confirmedPhase_isParked (node : NodeId) (result : Except Failure (Option OwnerRecord)) :
    (confirmedPhase node result).isParked = true := by
  unfold confirmedPhase
  split
  · split <;> rfl
  · rfl

/-- The answer of an ownership read, once the confirmation it was for is settled. -/
theorem finishOwnerRead_stores {nowMs : ℕ} (result : Except Failure (Option OwnerRecord))
    (drops : r.drops) (gone : t.Gone id) (sound : t.CacheSound) (past : nowMs ≤ t.nowMs)
    (waits : cell.phase.WaitsOwner op) :
    Stores (.ownerRead t.node op nowMs result) r t id cell { cell with confirming := false }
      (t.finishOwnerRead id cell nowMs result) := by
  let next : Cell := { cell with confirming := false }
  have routed : next.Routed r := by
    refine ⟨?_, ?_, .inr (.inl rfl), drops⟩
    · rcases waits with phase | ⟨claim, dormant, phase⟩ <;> simp [next, phase, Phase.isQueued]
    · rcases waits with phase | ⟨claim, dormant, phase⟩ <;>
        simp [next, Cell.requiresPermit, phase, Phase.requiresActivationPermit]
  have unmarked : Hands (.ownerRead t.node op nowMs result) r t id cell next (next, t) :=
    ⟨move_touch id ⟨rfl, rfl, .inl rfl, .inl rfl, .inl rfl⟩, .refl _⟩
  have answered := unmarked.trans (resolveOwner_hand result gone sound past waits routed)
  unfold finishOwnerRead
  split
  · exact (unmarked.trans (park_hand routed (confirmedPhase_isParked _ _))).stored
  · dsimp only
    split
    · rename_i found
      rw [found] at answered
      exact answered.stored
    · rename_i found
      rw [found] at answered
      split
      · exact answered.stored.trans (pumpCapacity_turn drops)
      · exact answered.stored

theorem ownerRead_turn (drops : r.drops) (op : OpId) (nowMs : ℕ)
    (result : Except Failure (Option OwnerRecord)) (sound : t.CacheSound) (past : nowMs ≤ t.nowMs) :
    Turns ((Grants.ownerRead t.node op nowMs result).when (t.Awaits op)) r t
      (t.ownerRead op nowMs result) := by
  unfold ownerRead
  split
  · exact .refl
  rename_i id cell _ eq
  obtain ⟨index, mem, holds, rfl⟩ := takeCellOp_some eq
  have waits : cell.phase.WaitsOwner op := by
    split at holds
    · rename_i phase
      simp only [decide_eq_true_eq] at holds
      exact .inl (holds ▸ phase)
    · rename_i claim dormant phase
      simp only [decide_eq_true_eq] at holds
      exact .inr ⟨claim, dormant, holds ▸ phase⟩
    · cases holds
  refine Turns.mono (Grants.within_when ⟨id, cell, index, mem, waits.op?⟩) ?_
  let held : CoreTurn := (t.dropOp op).dropCell id
  refine Stores.turn (t := t.dropOp op) mem (Stores.drop ?_)
  dsimp only
  split
  · have settle := Shift.settle (r := r) (v := held.ledgerWith id cell) id
    rw [ledgerWith_put, ledgerWith_cellAt] at settle
    have finished := finishOwnerRead_stores (t := held.settleConfirmation id) result drops
      (dropCell_gone _ _) sound past waits
    exact ⟨finished.1, (Trail.single settle).trans finished.2⟩
  · rename_i unmarked
    have touched : cell.Touches { cell with confirming := false } :=
      .of_kept (by simp [Cell.kept, Bool.eq_false_iff.mpr unmarked])
    have finished :=
      finishOwnerRead_stores (t := held) result drops (dropCell_gone _ _) sound past waits
    exact ⟨finished.1, (shift_touch id touched).trans finished.2⟩

/-! ## Fleet capacity -/

theorem foldSamples_spec (peers : List CapacityPeer) (t : CoreTurn) :
    (peers.foldl foldSample t).view = t.view ∧ (peers.foldl foldSample t).ledger = t.ledger ∧
      (peers.foldl foldSample t).cells = t.cells := by
  induction peers generalizing t with
  | nil => exact ⟨rfl, rfl, rfl⟩
  | cons peer peers ih =>
    have same : (foldSample t peer).view = t.view ∧ (foldSample t peer).ledger = t.ledger ∧
        (foldSample t peer).cells = t.cells := by
      unfold foldSample
      split <;> exact ⟨rfl, rfl, rfl⟩
    obtain ⟨view, books, cells⟩ := ih (foldSample t peer)
    exact ⟨view.trans same.1, books.trans same.2.1, cells.trans same.2.2⟩

theorem placeAtPeer_hand (routed : cell.Routed r) (peer : CapacityPeer) (nowMs issuedMonoMs : ℕ) :
    Hands G r t id cell cell (t.placeAtPeer id cell peer nowMs issuedMonoMs) :=
  refuse_hand (t := { t with
    capacityReservations :=
      t.capacityReservations.insert peer.node
        ((t.capacityReservations[peer.node]?).getD 0 + 1) }) routed
    (rfl : (Phase.remote peer.node peer.addr 0 peer.peerProtocol
      (.capacitySample peer.sampledMs
        (.observed peer.expiresMs issuedMonoMs (max nowMs t.nowMs)))).isParked = true) _

theorem capacityPeersRead_turn (drops : r.drops) (op : OpId) (nowMs : ℕ)
    (result : Except Failure (List CapacityPeer)) :
    Turns G r t (t.capacityPeersRead op nowMs result) := by
  unfold capacityPeersRead
  split
  · exact .refl
  rename_i id cell _ eq
  obtain ⟨_, mem, _, rfl⟩ := takeCellOp_some eq
  split
  · rename_i current claim issued phase
    have routed : cell.Routed r :=
      .of_phase phase rfl (fun _ => rfl) (by simp [Cell.asks, phase]) drops
    have allowed : G.allows id cell (.claim claim) := .inr (.inr ⟨current, issued, phase⟩)
    dsimp only
    split
    · exact handled (t := t.dropOp op) mem (wait_hand (dropCell_gone _ _) routed allowed _)
    · rename_i peers
      obtain ⟨view, books, cells⟩ := foldSamples_spec peers ((t.dropOp op).dropCell id)
      have gone : (peers.foldl foldSample ((t.dropOp op).dropCell id)).Gone id := by
        rw [Gone, cells]
        exact dropCell_gone _ _
      refine handled (t := t.dropOp op) mem ?_
      rw [Hands, viewWith, ← view, ← viewWith, ← ledgerWith_congr books]
      split
      · exact placeAtPeer_hand routed _ _ _
      · exact wait_hand gone routed allowed _
  · exact .refl

end CoreTurn

end Celld
