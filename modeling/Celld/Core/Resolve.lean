import Celld.Core.Activation

/-!
# Ownership resolution

A cold cell reads its ownership record, then, where the record names another
node, that node's lease, and, where the lease is dead and its folded log is not
sealed, waits for the log's recovery: the takeover interlock.  What resolution
decides is a `Claim`, handed to the residency queue of `Celld.Core.Activation`.
-/

namespace Celld.CoreTurn

variable (t : CoreTurn) (id : CellId) (cell : Cell)

/-! ## Placement of an unowned cell -/

def beginCapacityLookup (claim : Claim) : Cell × CoreTurn :=
  let (op, t) := t.cellOp id
  let (cell, t) := t.setPhase cell (.readingCapacity op claim t.nowMonoMs)
  (cell, t.push (.readCapacityPeers op id))

/-- Refuse one request that asked for a slot this node does not have. -/
def refuseHandoff (id : CellId) (p : Cell × CoreTurn) (request : RequestId) : Cell × CoreTurn :=
  ({ p.1 with requests := p.1.requests.erase request },
    { p.2 with requestCells := p.2.requestCells.erase request }.completeRequest id request
      (.error .capacityExhausted))

/-- Place a genuinely unowned cell. -/
def placeUnowned (claim : Claim) : Cell × CoreTurn :=
  match t.refuseNewOwnershipDuringDrain id cell claim.prior with
  | some refused => refused
  | none =>
      if t.hasCapacity then t.activateOrWait id cell (.claim claim) .shedToAdmit
      else if t.ownershipOnly cell then t.beginActivation id cell (.claim claim)
      else
        let handoffs := cell.requests.toList.filter (t.capacityRequests.contains ·)
        let (cell, t) := handoffs.foldl (refuseHandoff id) (cell, t)
        if cell.requests.isEmpty || !t.config.requireNodeLease then
          t.activateOrWait id cell (.claim claim) .shedToAdmit
        else t.beginCapacityLookup id cell claim

/-! ## The dead owner -/

/-- The lease is live at the instant its read was issued and speaks for the
record's owner. -/
def leaseIsLive (lease : NodeLeaseRecord) (record : OwnerRecord) (issuedMs : ℕ) : Bool :=
  issuedMs < lease.expiresMs && !lease.addr.isEmpty && record.node = some lease.node

/-- A dead owner whose folded log is not sealed may hold acknowledged writes only
on its followers. -/
def unrecovered (lease : Option CachedNodeLease) : Bool :=
  match lease with
  | none => false
  | some lease =>
      match lease.record.logState with
      | none | some .sealed => false
      | some .open | some .recovering => true

/-- The claim that takes a cell from the owner its record names. -/
def takeoverClaim (record : OwnerRecord) (epoch : Epoch) : Claim where
  guard := .match record.etag
  epoch := epoch
  takeover := true
  prior := record.node
  reconciles := 0

/-- Claim a cell from a dead owner whose log is settled. -/
def claimFromDeadOwner (record : OwnerRecord) : Cell × CoreTurn :=
  match t.nextWriterEpoch id cell record.epoch with
  | .error exhausted => exhausted
  | .ok epoch => t.activateOrWait id cell (.claim (takeoverClaim record epoch)) .shedToAdmit

/-- **The takeover interlock**, decided on the lease the core just read. -/
def applyNodeLeaseResult (record : OwnerRecord)
    (issuedMs : ℕ) (result : Except Failure (Option CachedNodeLease)) : Cell × CoreTurn :=
  match result with
  | .error _ =>
      let (cell, t) := t.setPhase cell .inactive
      t.finishRequests id cell (.error .resolveFailed)
  | .ok lease =>
      match lease.filter (leaseIsLive ·.record record issuedMs) with
      | some live =>
          if live.record.peerProtocol ≠ t.config.peerProtocol then
            let (cell, t) := t.setPhase cell .inactive
            t.finishRequests id cell (.error .peerIncompatible)
          else
            let (cell, t) := t.setPhase cell
              (.remote live.record.node live.record.addr record.epoch live.record.peerProtocol
                (.ownerLease live.deadline))
            t.finishRequests id cell
              (.ok (.remote live.record.node live.record.addr record.epoch
                live.record.peerProtocol))
      | none =>
          match t.refuseNewOwnershipDuringDrain id cell record.node with
          | some refused => refused
          | none =>
              if unrecovered lease then
                let (op, t) := t.cellOp id
                let (cell, t) := t.setPhase cell (.recoveringOwnerLog op record)
                (cell, t.push (.recoverNodeLog op id (record.node.getD "")))
              else t.claimFromDeadOwner id cell record

/-- Cache a live lease for the other cells of its owner. -/
def cacheNodeLease (record : OwnerRecord)
    (result : Except Failure (Option CachedNodeLease)) : CoreTurn :=
  match result with
  | .ok (some lease) =>
      if record.node = some lease.record.node && lease.deadline.live t.nowMs t.nowMonoMs
          && !lease.record.addr.isEmpty then
        { t with nodeLeaseCache := t.nodeLeaseCache.insert lease.record.node lease }
      else t
  | _ => t

def nodeLeaseRead (op : OpId) (nowMs : ℕ)
    (result : Except Failure (Option NodeLeaseRecord)) : CoreTurn :=
  match t.takeCellOp op fun cell =>
      match cell.phase with
      | .readingNodeLease current _ _ _ => current = op
      | _ => false with
  | none => t
  | some (id, cell, t) =>
      match cell.phase with
      | .readingNodeLease _ record issuedMs issuedMonoMs =>
          let t := t.dropCell id
          let result := result.map fun lease => lease.map fun record =>
            { record := record
              deadline := .observed record.expiresMs issuedMonoMs (max nowMs t.nowMs) }
          let t := t.cacheNodeLease record result
          let (cell, t) := t.applyNodeLeaseResult id cell record issuedMs result
          t.putCell id cell
      | _ => t

/-- A recovery failed: wait the survivors' sweep out behind a backoff, a bounded
number of times. -/
def backOffRecovery : Cell × CoreTurn :=
  let attempts := satAdd cell.ownerLogRecoveryAttempts 1
  if t.config.ownerLogRecoveryAttempts ≤ attempts then
    let (cell, t) := t.setPhase { cell with ownerLogRecoveryAttempts := 0 } .inactive
    t.finishRequests id cell (.error .resolveFailed)
  else
    let (generation, t) := t.timerGeneration
    let (cell, t) := t.setPhase { cell with ownerLogRecoveryAttempts := attempts }
      (.waitingOwnerLogRecovery generation)
    (cell, t.push (.scheduleTimer (.ownerLogRecoveryRetry id generation)
      (satAdd t.nowMonoMs t.config.ownerLogRecoveryBackoffMs)))

/-- Make the claim the recovery was for, and forget the failures before it. -/
def claimRecovered (owner : OwnerRecord) (epoch : Epoch) : Cell × CoreTurn :=
  let (cell, t) := t.activateOrWait id cell (.claim (takeoverClaim owner epoch)) .shedToAdmit
  ({ cell with ownerLogRecoveryAttempts := 0 }, t)

/-- The interlock's completion: the claim the gate deferred proceeds against the
same owner record the decision was made on. -/
def nodeLogRecovered (op : OpId) (result : Except Failure Unit) : CoreTurn :=
  match t.takeCellOp op fun cell =>
      match cell.phase with
      | .recoveringOwnerLog current _ => current = op
      | _ => false with
  | none => t
  | some (id, cell, t) =>
      match cell.phase with
      | .recoveringOwnerLog _ owner =>
          let t := t.dropCell id
          match result with
          | .ok _ =>
              match t.nextWriterEpoch id cell owner.epoch with
              | .error (cell, t) => t.putCell id cell
              | .ok epoch =>
                  let (cell, t) := t.claimRecovered id cell owner epoch
                  (t.putCell id cell).pumpActivations
          | .error _ =>
              let (cell, t) := t.backOffRecovery id cell
              (t.putCell id cell).pumpActivations
      | _ => t

/-- A backed-off recovery re-enters ownership resolution from the top. -/
def retryOwnerLogRecovery (generation : ℕ) : CoreTurn :=
  match t.cells[id]? with
  | none => t
  | some cell =>
      if cell.phase ≠ .waitingOwnerLogRecovery generation then t
      else
        let t := t.dropCell id
        let (cell, t) :=
          if !cell.wanted then t.setPhase { cell with ownerLogRecoveryAttempts := 0 } .inactive
          else t.admitOrQueueActivation id cell .readOwner
        t.putCell id cell

/-! ## The ownership record -/

/-- The claim a reconciling cell re-reads the record for. -/
def reconcilingClaim (cell : Cell) : Option Claim :=
  match cell.phase with
  | .reconcilingAcquire _ claim _ => some claim
  | _ => none

/-- The restore of an acquisition that has been confirmed. -/
def confirmedSpec (claim : Claim) : RestoreSpec where
  epoch := claim.epoch
  fresh := claim.guard = .absent
  tookOver := claim.takeover
  resumeLocal := false
  prior := claim.prior

/-- Resolution from the record another node holds. -/
def resolveForeignOwner (record : OwnerRecord) (owner : NodeId) (nowMs : ℕ) : Cell × CoreTurn :=
  match (t.nodeLeaseCache[owner]?).filter (·.deadline.live t.nowMs t.nowMonoMs) with
  | some lease => t.applyNodeLeaseResult id cell record nowMs (.ok (some lease))
  | none =>
      let t := { t with nodeLeaseCache := t.nodeLeaseCache.erase owner }
      let (op, t) := t.cellOp id
      let (cell, t) := t.setPhase cell (.readingNodeLease op record nowMs t.nowMonoMs)
      (cell, t.push (.readNodeLease op id owner))

/-- Settle a reconcile that found its own ambiguous acquire applied. -/
def confirmReconciled (claim : Claim) : Cell × CoreTurn :=
  let spec := confirmedSpec claim
  let t := t.recordAcquisition spec
  if t.ownershipOnly cell then t.setPhase cell (.dormant spec.epoch)
  else t.activateOrWait id cell (.restore spec) .shedToAdmit

/-- Claim again the record this node already holds.  A wake always claims a fresh
epoch.  An exhausted epoch is the `error` of this and the next two functions. -/
def reclaimOwn (record : OwnerRecord)
    (reconciles : ℕ) : Except (Cell × CoreTurn) (Cell × CoreTurn) :=
  (t.nextWriterEpoch id cell record.epoch).map fun epoch =>
    t.activateOrWait id cell
      (.claim
        { guard := .match record.etag, epoch := epoch, takeover := false, prior := record.node,
          reconciles := reconciles })
      .shedToAdmit

/-- Claim a deliberately released record. -/
def claimReleased (record : OwnerRecord)
    (reconciles : ℕ) : Except (Cell × CoreTurn) (Cell × CoreTurn) :=
  (t.nextWriterEpoch id cell record.epoch).map fun epoch =>
    t.placeUnowned id cell
      { guard := .match record.etag, epoch := epoch, takeover := true, prior := none,
        reconciles := reconciles }

/-- Resolution of a wanted cell from the record the store returned. -/
def resolveOwner (nowMs : ℕ) (result : Except Failure (Option OwnerRecord)) :
    Except (Cell × CoreTurn) (Cell × CoreTurn) :=
  let reconciling := reconcilingClaim cell
  -- One attempt continuing, not a new one: the count survives the round trip.
  let reconciles := (reconciling.map (·.reconciles)).getD 0
  match result with
  | .error _ =>
      let (cell, t) := t.setPhase cell .inactive
      .ok (t.finishRequests id cell (.error .resolveFailed))
  | .ok none =>
      .ok (t.placeUnowned id cell
        { guard := .absent, epoch := 1, takeover := false, prior := none,
          reconciles := reconciles })
  | .ok (some record) =>
      match reconciling.filter fun claim =>
          record.node = some t.node && record.epoch = claim.epoch with
      | some claim => .ok (t.confirmReconciled id cell claim)
      | none =>
          match record.node with
          | none => t.claimReleased id cell record reconciles
          | some owner =>
              if owner = t.node then t.reclaimOwn id cell record reconciles
              else .ok (t.resolveForeignOwner id cell record owner nowMs)

/-- The phase a confirmation nobody waits for settles in. -/
def confirmedPhase (node : NodeId) (result : Except Failure (Option OwnerRecord)) : Phase :=
  match result with
  | .ok (some record) => if record.node = some node then .dormant record.epoch else .inactive
  | _ => .inactive

/-- Act on the answer of an ownership read, for a cell held out of the table. -/
def finishOwnerRead (nowMs : ℕ) (result : Except Failure (Option OwnerRecord)) : CoreTurn :=
  if cell.confirming && cell.requests.isEmpty && !cell.alarmWake then
    let (cell, t) := t.setPhase { cell with confirming := false } (confirmedPhase t.node result)
    t.putCell id cell
  else
    let cell := { cell with confirming := false }
    match t.resolveOwner id cell nowMs result with
    | .error (next, t) => t.putCell id next
    | .ok (next, t) =>
        let t := t.putCell id next
        if (reconcilingClaim cell).isSome then t.pumpCapacity else t

def ownerRead (op : OpId) (nowMs : ℕ) (result : Except Failure (Option OwnerRecord)) : CoreTurn :=
  match t.takeCellOp op fun cell =>
      match cell.phase with
      | .readingOwner current | .reconcilingAcquire current _ _ => current = op
      | _ => false with
  | none => t
  | some (id, cell, t) =>
      let t := t.dropCell id
      (if cell.confirming then t.settleConfirmation id else t).finishOwnerRead id cell nowMs result

/-! ## Fleet capacity -/

/-- A newer load sample supersedes the reservations made against the prior one. -/
def foldSample (peer : CapacityPeer) : CoreTurn :=
  if (t.capacitySamples[peer.node]?).getD 0 < peer.sampledMs then
    { t with
      capacitySamples := t.capacitySamples.insert peer.node peer.sampledMs
      capacityReservations := t.capacityReservations.erase peer.node
      capacityRejections := t.capacityRejections.erase peer.node }
  else t

/-- The peer may take a placement. -/
def peerHasRoom (c : Core) (nowMs : ℕ) (peer : CapacityPeer) : Bool :=
  peer.node ≠ c.node && nowMs < peer.expiresMs && !peer.addr.isEmpty
    && peer.peerProtocol = c.config.peerProtocol && peer.sampledMs ≠ 0 && !peer.pressured
    && (c.capacityRejections[peer.node]?).all (· < peer.sampledMs)

/-- The residency a peer is projected to have. -/
def projectedCells (c : Core) (peer : CapacityPeer) : ℕ :=
  satAdd peer.residentCells ((c.capacityReservations[peer.node]?).getD 0)

/-- The placement order of `capacity_peers_read`. -/
def placesBefore (c : Core) (left right : CapacityPeer) : Bool :=
  ((((compare (projectedCells c left) (projectedCells c right)).then
    (compare left.hostWebsockets right.hostWebsockets)).then
      (compare (left.inUseBytes.getD left.rssBytes) (right.inUseBytes.getD right.rssBytes))).then
        (compare left.node right.node)).isLT

/-- Send the waiting requests to the selected peer. -/
def placeAtPeer (peer : CapacityPeer) (nowMs issuedMonoMs : ℕ) : Cell × CoreTurn :=
  let t := { t with
    capacityReservations :=
      t.capacityReservations.insert peer.node
        ((t.capacityReservations[peer.node]?).getD 0 + 1) }
  let (cell, t) := t.setPhase cell
    (.remote peer.node peer.addr 0 peer.peerProtocol
      (.capacitySample peer.sampledMs
        (.observed peer.expiresMs issuedMonoMs (max nowMs t.nowMs))))
  t.finishRequests id cell (.ok (.remote peer.node peer.addr 0 peer.peerProtocol))

def capacityPeersRead (op : OpId) (nowMs : ℕ)
    (result : Except Failure (List CapacityPeer)) : CoreTurn :=
  match t.takeCellOp op fun cell =>
      match cell.phase with
      | .readingCapacity current _ _ => current = op
      | _ => false with
  | none => t
  | some (id, cell, t) =>
      match cell.phase with
      | .readingCapacity _ claim issuedMonoMs =>
          let t := t.dropCell id
          match result with
          | .error _ =>
              -- The fleet's room is unknown, so no resident is cut for it.
              let (cell, t) := t.activateOrWait id cell (.claim claim) .holdResidents
              t.putCell id cell
          | .ok peers =>
              let t := peers.foldl foldSample t
              let (cell, t) :=
                match minBy (placesBefore t.toCore) (peers.filter (peerHasRoom t.toCore nowMs)) with
                | some peer => t.placeAtPeer id cell peer nowMs issuedMonoMs
                | none => t.activateOrWait id cell (.claim claim) .shedToAdmit
              t.putCell id cell
      | _ => t

end Celld.CoreTurn
