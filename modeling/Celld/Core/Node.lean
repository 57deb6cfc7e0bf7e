import Celld.Core.Alarm

/-!
# Node-wide decisions

What the node decides about its cells as a whole: requested evictions, the load
sample, sockets, the generation swap, balancing, the expiry of one operation, and
the fence.  These are still functions of the core.  Where the source asks for the
node's authority or looks at the barriers, the answer is an argument here.
-/

namespace Celld

/-- `queue::RESERVED_CLASS`. -/
def queueReservedClass : String := "__Queue"

def isQueueBroker (id : CellId) : Bool := scopeClass? id = some queueReservedClass

/-- The acknowledgement a released cell waits for. -/
def Phase.adoptingOp : Phase → Option OpId
  | .adopting op _ => some op
  | _ => none

namespace Cell

/-- Lifecycle work is pending on the cell outside its phase. -/
def transitioning (cell : Cell) : Bool :=
  cell.releasing.isSome || cell.waitingFor.isSome || cell.waitingActivation.isSome
    || !cell.requests.isEmpty || cell.quiescing || cell.swapping || cell.handoff
    || cell.confirming || cell.resumeDemand

end Cell

namespace CoreTurn

variable (t : CoreTurn) (id : CellId) (cell : Cell)

/-! ## Requested evictions -/

/-- `ready` is `ready_to_serve`. -/
def admitEviction (ready : Bool) (id : CellId) : Except EvictError (Option OpId) × CoreTurn :=
  if !ready || t.confirming then (.error (.refused .nodeUnavailable), t)
  else if t.isActive id then (.error (.refused .cellActive), t)
  else
    match t.cells[id]? with
    | none => (.ok none, t)
    | some cell =>
        match cell.phase with
        | .ensuringDurability op _ | .cleaning op _ (.evict _) => (.ok (some op), t)
        | phase =>
            if cell.transitioning then (.error (.refused .cellTransitioning), t)
            else
              match phase with
              | .inactive | .dormant _ | .remote _ _ _ _ _ => (.ok none, t)
              | .resident _ =>
                  match t.beginEviction id false with
                  | (.ok op, t) => (.ok (some op), t)
                  | (.error reason, t) => (.error (.refused reason), t)
              | _ => (.error (.refused .cellTransitioning), t)

/-- The caller's admission is answered ahead of the effects it admitted. -/
def evictRequested (ready : Bool) (request : RequestId) (id : CellId) : CoreTurn :=
  let before := t.effects
  let (admitted, t) := { t with effects := [] }.admitEviction ready id
  let caused := t.effects
  let t :=
    match admitted with
    | .ok (some op) =>
        { t with
          evictionNotifications :=
            t.evictionNotifications.insert op
              (((t.evictionNotifications[op]?).getD ∅).insert request) }
    | _ => t
  let answer : Except EvictError EvictionAdmission :=
    admitted.map fun op => if op.isSome then .pending else .absent
  { t with effects := before ++ [.evictionAdmission request answer] ++ caused }

/-! ## Load -/

/-- The walk down has done what it can: the last cut landed, the sample did not
rise, and no further cut reaches the resume line. -/
def cutIsSpent (c : Core) (cut : ShedCut) (sampleBytes : ℕ) : Bool :=
  let cutLanded := c.occupied ≤ c.shedFloor && c.evictionPermits.isEmpty
  let rose := satAdd cut.bytes (cut.bytes / 100) < sampleBytes
  cutLanded && !rose && !c.sheddingCanReachResumeLine cut sampleBytes

/-- Fold a resource sample into the shedding latch, then act on it. -/
def loadSampled (load : Load) (nowMonoMs : ℕ) : CoreTurn :=
  let (latches, reason) := t.config.pressure.classify load t.latches
  let t := { t with
    memoryHeadroom := t.config.pressure.hasHeadroom load
    latches := latches
    shedReason := reason
    shedding := reason.isSome }
  if !t.shedding then ({ t with shedCut := none }.pumpCapacity).evictIdle nowMonoMs
  else
    let metric := PressureConfig.walkMetric latches
    let sampleBytes := load.metricBytes metric
    let t := { t with shedCut := t.shedCut.filter (·.metric = metric) }
    if t.shedCut.any (cutIsSpent t.toCore · sampleBytes) then t
    else
      { t with
        shedFloor := PressureConfig.releaseTarget load.residentCells
        shedCut := some ⟨metric, sampleBytes, load.residentCells⟩ }.shedTowardFloor

/-! ## Sockets and routes -/

/-- How many cells an outbound socket holds resident. -/
def outboundPinned (c : Core) : ℕ := (c.cells.toList.filter (0 < ·.2.outboundCount)).length

def websocketOpened (websocket : WebSocketId) (kind : WebSocketKind) : CoreTurn :=
  if t.fenced then t
  else
    let outbound := ((t.cells[id]?).map Cell.outboundCount).getD 0
    if kind = .outbound && (t.cells[id]?.any (·.quiescing)) then
      t.push (.closeWebSocket id websocket)
    else if kind = .outbound && (t.config.maxOutboundWebsockets ≤ outbound
        || (outbound = 0 && !mayPinOutbound (outboundPinned t.toCore) t.config.maxResident))
    then t.push (.closeWebSocket id websocket)
    else t.modifyCell id fun cell =>
      { cell with websockets := cell.websockets.insert websocket kind }

def websocketClosed (websocket : WebSocketId) : CoreTurn :=
  (t.modifyCell id fun cell =>
    { cell with websockets := cell.websockets.erase websocket }).shedOne

/-- Forget a remote route that a send found stale. -/
def invalidateRemote (node : NodeId) (epoch : Epoch) : CoreTurn :=
  let t := { t with nodeLeaseCache := t.nodeLeaseCache.erase node }
  match t.cells[id]? with
  | none => t
  | some cell =>
      match cell.phase with
      | .remote current _ currentEpoch _ cache =>
          if current = node && currentEpoch = epoch then
            let t :=
              match cache with
              | .capacitySample sampledMs _ =>
                  { t with
                    capacityRejections := t.capacityRejections.insert node sampledMs
                    capacityReservations := t.capacityReservations.erase node }
              | _ => t
            let (cell, t) := t.setPhase cell .inactive
            t.putCell id cell
          else t
      | _ => t

/-! ## The queue deadline and the operation deadline -/

/-- Refuse the callers of a cell that waited out its deadline behind the gate. -/
def refuseQueued : CoreTurn :=
  cell.requests.toList.foldl
    (fun t request =>
      { t with
        requestCells := t.requestCells.erase request
        capacityRequests := t.capacityRequests.erase request }.push
          (.complete request (.error .capacityExhausted)))
    t

/-- The phase a queued cell settles in. -/
def queuedFallback (cell : Cell) : Phase :=
  match cell.waitingActivation, cell.waitingFor with
  | some (.restore spec), _ => .dormant spec.epoch
  | _, some (.restore spec) => .dormant spec.epoch
  | _, _ => .inactive

def expireQueued (generation : ℕ) : CoreTurn :=
  match t.cells[id]? with
  | none => t
  | some cell =>
      if cell.queuedGeneration ≠ some generation then t
      else if cell.phase ≠ .waitingActivation && cell.phase ≠ .waitingCapacity then t
      else
        let t := t.refuseQueued cell
        let cell := { cell with requests := ∅, queuedGeneration := none }
        -- An alarm wake or a record confirmation is not a client waiting.
        if cell.alarmWake || cell.confirming then t.putCell id cell
        else
          let t := { t with
            activationWaiters := t.activationWaiters.filter (· ≠ id)
            capacityWaiters := t.capacityWaiters.filter (· ≠ id) }
          let settlesResume := cell.resumeDemand
          let (cell, t) := t.setPhase { cell with waitingActivation := none, waitingFor := none }
            (queuedFallback cell)
          let t := t.putCell id cell
          if settlesResume then t.settleLocalResume id else t

/-- An operation outlived its deadline: reuse its stage's own failure handling.
A read is definite; what may have taken effect on the far side is ambiguous. -/
def expireCellOperation (op : OpId) (nowMs : ℕ) : CoreTurn :=
  match t.cellOps[op]? with
  | none => t
  | some id =>
      match t.cells[id]? with
      | none => t
      | some cell =>
          if cell.releasing = some op then t.ownerReleased op (.error .definite)
          else if cell.phase.adoptingOp = some op then t.successorAdopted op (.error .definite)
          -- A firing alarm is tracked on the cell rather than in its phase.
          else if cell.alarm.bind AlarmState.firingOp = some op then
            t.settleAlarm op nowMs t.nowMonoMs (.error .ambiguous)
          else if cell.phase.op? ≠ some op then t
          else
            match cell.phase with
            | .readingOwner _ => t.ownerRead op 0 (.error .definite)
            | .readingNodeLease _ _ _ _ => t.nodeLeaseRead op nowMs (.error .definite)
            | .recoveringOwnerLog _ _ => t.nodeLogRecovered op (.error .ambiguous)
            | .readingCapacity _ _ _ => t.capacityPeersRead op nowMs (.error .definite)
            | .acquiring _ _ _ => t.ownerCasCompleted op (.error .ambiguous)
            | .reconcilingAcquire _ _ _ => t.ownerRead op nowMs (.error .definite)
            | .starting _ _ => t.runtimeStartTimedOut op
            | .publishing _ _ => t.published op (.error .ambiguous)
            | .ensuringDurability _ _ => t.durabilityChecked op (.error .durabilityTimeout)
            -- A restore has no aggregate deadline, and a stop cannot expire.
            | _ => t

/-! ## Releases -/

/-- Release a dormant broker's record from the table. -/
def releaseQueue (queue : CellId × Epoch) : CoreTurn :=
  match t.cells[queue.1]? with
  | none => t
  | some cell =>
      let (cell, t) := t.releaseOwner queue.1 cell queue.2
      t.putCell queue.1 cell

/-- Release one dormant cell's record for a successor. -/
def releaseDormant (dormant : CellId × Epoch) : CoreTurn :=
  match t.cells[dormant.1]? with
  | none => t
  | some cell =>
      let (op, t) := t.cellOp dormant.1
      let t := t.putCell dormant.1 { cell with releasing := some op, handoff := !t.draining }
      let t := { t with releasingCells := t.releasingCells.insert dormant.1 }
      let t :=
        if cell.websockets.isEmpty then t
        else t.push (.cancelCellActivity dormant.1 [] cell.websockets.keys none false)
      t.push (.releaseOwner op dormant.1 dormant.2)

/-- The dormant cells of the table that hold no release, with their epochs. -/
def dormantCells (c : Core) (keep : CellId → Cell → Bool) : List (CellId × Epoch) :=
  c.cells.toList.filterMap fun (id, cell) =>
    match cell.phase with
    | .dormant epoch => if cell.releasing.isNone && keep id cell then some (id, epoch) else none
    | _ => none

/-- Oldest use first. -/
def usedBefore (c : Core) (left right : CellId × Epoch) : Bool :=
  let used (id : CellId) := ((c.cells[id]?).map Cell.lastUsedMonoMs).getD 0
  ((compare (used left.1) (used right.1)).then (compare left.1 right.1)).isLE

/-- Give up to `count` hibernated cells to the fleet without draining. -/
def rebalance (authoritative : Bool) (count : ℕ) : CoreTurn :=
  if t.draining || t.fenced || t.shedding || !authoritative then t
  else
    let budget := min count (t.config.maxReleases - t.handoffsInFlight)
    let dormant := dormantCells t.toCore fun _ cell =>
      cell.requests.isEmpty && !t.alarmIsImminent cell
    ((dormant.insertionSort fun left right => usedBefore t.toCore left right).take budget).foldl
      releaseDormant t

/-! ## The generation swap -/

/-- Whether a swap can stop this cell's runtime now without cutting work short.
`gated` says whether a trailable barrier is open on a cell. -/
def swapSafePoint (c : Core) (gated : CellId → Bool) (id : CellId) : Bool :=
  match c.cells[id]? with
  | none => false
  | some cell =>
      !c.activeCells.contains id && !cell.hasPinningSocket && !cell.isFiring && !gated id

/-- The requests active on a cell. -/
def activeOn (c : Core) (id : CellId) : List RequestId :=
  (c.activeRequests.toList.filter (·.2 = id)).map (·.1)

/-- Reserve a cell for the swap: new requests queue for the restarted runtime. -/
def nominateSwap : CoreTurn :=
  { t.modifyCell id fun cell => { cell with swapping := true, quiescing := true } with
    quiescingCells := t.quiescingCells.insert id }

/-- Cancel, once, the activity of a cell that never reaches a safe point. -/
def forceSwap : CoreTurn :=
  let websockets := (cell.websockets.toList.filter (·.2 ≠ .hibernatable)).map (·.1)
  (t.putCell id { cell with swapCancelled := true }).push
    (.cancelCellActivity id (activeOn t.toCore id) websockets
      (cell.alarm.bind AlarmState.firingOp) true)

/-- Stop a nominated cell at its safe point, or force it when its time has come. -/
def swapCell (gated : CellId → Bool) (forcedByAge : Bool) (t : CoreTurn) (id : CellId) : CoreTurn :=
  match t.cells[id]? with
  | none => t
  | some cell =>
      match cell.phase with
      | .resident epoch =>
          if swapSafePoint t.toCore gated id then
            let (cell, t) := t.stopRuntime id cell epoch .swap false
            { t with quiescingCells := t.quiescingCells.erase id }.putCell id cell
          else if (forcedByAge || t.swapIsEager id) && !cell.swapCancelled then
            t.forceSwap id cell
          else t
      | _ => t

/-- The resident cells on an older generation, in table order. -/
def staleCells (c : Core) : List CellId :=
  (c.cells.toList.filter fun (_, cell) =>
    cell.phase.isResident && !cell.swapping && !cell.quiescing && cell.releasing.isNone
      && cell.generation ≠ c.currentGeneration).map (·.1)

def nominatedCells (c : Core) : List CellId :=
  (c.cells.toList.filter fun (_, cell) =>
    cell.swapping && cell.quiescing && cell.phase.isResident).map (·.1)

/-- The swap pump, run after every event once a generation change has been
announced. -/
def pumpSwap (authoritative : Bool) (gated : CellId → Bool) : CoreTurn :=
  if t.currentGeneration = 0 || t.draining || t.fenced || !authoritative then t
  else
    let forcedByAge := t.swapMaxAgeMs ≤ t.nowMonoMs - t.generationChangedMonoMs
    let inFlight := (t.cells.toList.filter (·.2.swapping)).length
    let t := ((staleCells t.toCore).take (t.config.maxReleases - inFlight)).foldl nominateSwap t
    (nominatedCells t.toCore).foldl (swapCell gated forcedByAge) t

/-! ## The fence -/

/-- Everything the fence clears before it visits the cells. -/
def clearForFence : CoreTurn :=
  { t with
    fenced := true
    activationWaiters := []
    activationPermits := ∅
    capacityWaiters := []
    quiescingCells := ∅
    adoptingCells := ∅
    activeRequests := ∅
    activeCells := ∅
    admittedGates := ∅
    admittedGateCells := ∅ }

/-- Stop the runtime a fenced cell may hold, and remember the starts that may
still create one. -/
def stopForFence (phase : Phase) : CoreTurn :=
  let t :=
    match phase with
    | .starting op epoch | .publishing op epoch =>
        { t with
          timedOutRuntimeStarts := t.timedOutRuntimeStarts.erase op
          retiredRuntimeOps := t.retiredRuntimeOps.insert op (id, epoch) }
    | _ => t
  match phase.runtimeEpoch with
  | some epoch =>
      let (op, t) := t.op
      t.push (.stopRuntime op id epoch .fence false)
  | none => t

/-- Answer the callers of an eviction that a fence cuts short. -/
def fenceEviction : CoreTurn :=
  match cell.phase with
  | .ensuringDurability op _ | .cleaning op _ (.evict _) =>
      t.finishEviction op (.error (.cancelled .nodeFenced))
  | _ => t

/-- Forget the operation a cell's phase waits for. -/
def dropPhaseOp : CoreTurn :=
  match cell.phase.op? with
  | some stale => t.dropOp stale
  | none => t

/-- Retire every operation a fenced cell was waiting for, except its release. -/
def retireForFence : CoreTurn :=
  ((t.fenceEviction cell).dropPhaseOp cell).dropFiring cell

def fenceCell : CoreTurn :=
  match t.cells[id]? with
  | none => t
  | some cell =>
      let t := (t.dropCell id).stopForFence id cell.phase
      let (cell, t) := t.finishRequests id cell (.error .nodeFenced)
      let t := t.retireForFence cell
      let (cell, t) := t.setPhase cell .fenced
      t.putCell id
        { cell with
          waitingFor := none
          waitingActivation := none
          alarm := none
          alarmWake := false
          websockets := ∅ }

def fenceCells : CoreTurn := t.cells.keys.foldl fenceCell t

end CoreTurn

end Celld
