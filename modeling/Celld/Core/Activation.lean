import Celld.Core.Residency

/-!
# Admission of cold cells

A cell that is not running enters through two queues: the activation ceiling,
before any I/O begins, and the residency ceiling, once resolution has said what
the cell needs.  `beginActivation` is the one place that issues the conditional
write of an ownership record or a restore.

The second half routes requests and wake hints into those queues.
-/

namespace Celld

/-- `LocalCell`s as `sort` followed by `dedup` leaves them. -/
def LocalCell.sortDedup (cells : List LocalCell) : List LocalCell :=
  (cells.insertionSort fun left right => left.le right).dedup

namespace Activation

/-- The phase an activation nobody wants any more settles in. -/
def fallback : Activation → Phase
  | .claim _ => .inactive
  | .restore spec => .dormant spec.epoch

end Activation

namespace ColdStart

/-- The phase a cold start nobody wants any more settles in. -/
def fallback : ColdStart → Phase
  | .readOwner => .inactive
  | .restore spec => .dormant spec.epoch

end ColdStart

namespace CoreTurn

variable (t : CoreTurn) (id : CellId) (cell : Cell)

/-! ## The two queues -/

/-- Bound the time a cell can sit behind the admission gate. -/
def watchQueued : Cell × CoreTurn :=
  match t.config.operationDeadlineMs with
  | none => (cell, t)
  | some deadlineMs =>
      let (generation, t) := t.timerGeneration
      ({ cell with queuedGeneration := some generation },
        t.push (.scheduleTimer (.queuedActivation id generation) (satAdd t.nowMonoMs deadlineMs)))

/-- A leaving node must not acquire somebody else's or an unowned cell just to
hand it off again.  `none` means that the claim may proceed. -/
def refuseNewOwnershipDuringDrain (prior : Option NodeId) : Option (Cell × CoreTurn) :=
  if !t.draining || prior = some t.node then none
  else
    let (cell, t) := t.setPhase { cell with waitingFor := none } .inactive
    some (t.finishRequests id cell (.error .nodeUnavailable))

/-- The claim an activation carries is refused by a draining node. -/
def refuseActivation (activation : Activation) : Option (Cell × CoreTurn) :=
  match activation with
  | .claim claim => t.refuseNewOwnershipDuringDrain id cell claim.prior
  | .restore _ => none

/-- Issue the conditional write or the restore an admitted cell waits for. -/
def issueActivation (activation : Activation) : Cell × CoreTurn :=
  -- An ownership-only handoff claim lands dormant, so it takes no residency slot.
  let dormant := t.ownershipOnly cell
  let (op, t) := t.cellOp id
  match activation with
  | .claim claim =>
      let (cell, t) := t.setPhase { cell with waitingFor := none } (.acquiring op claim dormant)
      (cell, t.push (.casOwner op id claim.guard claim.epoch claim.takeover))
  | .restore spec =>
      let (cell, t) := t.setPhase { cell with waitingFor := none } (.restoring op spec)
      (cell, t.push (.restore op id spec))

def beginActivation (activation : Activation) : Cell × CoreTurn :=
  match t.refuseActivation id cell activation with
  | some refused => refused
  | none => t.issueActivation id cell activation

/-- Activate a resolved cell, or queue it for a residency slot. -/
def activateOrWait (activation : Activation) (whenFull : WhenFull) : Cell × CoreTurn :=
  match t.refuseActivation id cell activation with
  | some refused => refused
  | none =>
      if !cell.wanted && !cell.confirming then t.setPhase cell activation.fallback
      else if t.hasCapacity then t.beginActivation id cell activation
      else
        let (cell, t) := t.setPhase cell .waitingCapacity
        let t := { t with capacityWaiters := t.capacityWaiters ++ [id] }
        let (cell, t) := t.watchQueued id { cell with waitingFor := some activation }
        (cell, if whenFull = .shedToAdmit then t.shedOne else t)

/-- Begin the cold route of a cell that holds an activation permit. -/
def beginColdRoute (start : ColdStart) : Cell × CoreTurn :=
  let cell := { cell with waitingActivation := none }
  match start with
  | .readOwner =>
      let (op, t) := t.cellOp id
      let (cell, t) := t.setPhase cell (.readingOwner op)
      (cell, t.push (.readOwner op id))
  | .restore spec => t.activateOrWait id cell (.restore spec) .shedToAdmit

def admitOrQueueActivation (start : ColdStart) : Cell × CoreTurn :=
  if t.activationPermits.contains id then t.beginColdRoute id cell start
  else if t.activationPermits.size < t.config.maxActivations then
    { t with activationPermits := t.activationPermits.insert id }.beginColdRoute id cell start
  else
    let (cell, t) := t.setPhase cell .waitingActivation
    let t := { t with activationWaiters := t.activationWaiters ++ [id] }
    t.watchQueued id { cell with waitingActivation := some start }

/-- Return the permits of cells that left their cold route. -/
def retainActivationPermits : CoreTurn :=
  { t with
    activationPermits := t.activationPermits.filter fun id =>
      t.cells[id]?.any (·.phase.holdsActivation) }

/-- Admit or retire one cell popped from the activation queue. -/
def pumpActivation : CoreTurn :=
  match t.cells[id]? with
  | none => t
  | some cell =>
      if cell.phase ≠ .waitingActivation then t
      else
        match cell.waitingActivation with
        | none => t
        | some start =>
            let t := t.dropCell id
            let cell := { cell with waitingActivation := none }
            let (cell, t) :=
              if !cell.wanted && !cell.confirming then t.setPhase cell start.fallback
              else
                { t with activationPermits := t.activationPermits.insert id }.beginColdRoute
                  id cell start
            t.putCell id cell

/-- The loop of `pump_activations`: every pass pops one waiter. -/
def pumpActivationsLoop : ℕ → CoreTurn → CoreTurn
  | 0, t => t
  | fuel + 1, t =>
      if t.activationPermits.size < t.config.maxActivations then
        match t.activationWaiters with
        | [] => t
        | id :: rest =>
            pumpActivationsLoop fuel ({ t with activationWaiters := rest }.pumpActivation id)
      else t

def pumpActivations : CoreTurn :=
  let t := t.retainActivationPermits
  pumpActivationsLoop t.activationWaiters.length t

/-- Admit or retire one cell popped from the capacity queue. -/
def pumpCapacityOne : CoreTurn :=
  match t.cells[id]? with
  | none => t
  | some cell =>
      if cell.phase ≠ .waitingCapacity then t
      else
        match cell.waitingFor with
        | none => t
        | some activation =>
            let t := t.dropCell id
            let cell := { cell with waitingFor := none }
            let (cell, t) :=
              if !cell.wanted then t.setPhase cell activation.fallback
              else t.beginActivation id cell activation
            t.putCell id cell

/-- The loop of `pump_capacity`: every pass pops one waiter. -/
def pumpCapacityLoop : ℕ → CoreTurn → CoreTurn
  | 0, t => t
  | fuel + 1, t =>
      if t.hasCapacity then
        match t.capacityWaiters with
        | [] => t
        | id :: rest =>
            pumpCapacityLoop fuel ({ t with capacityWaiters := rest }.pumpCapacityOne id)
      else t

def pumpCapacity : CoreTurn :=
  (pumpCapacityLoop t.capacityWaiters.length t).shedOne

/-! ## The local inventory of a started process -/

def settleConfirmation : CoreTurn :=
  let rest := t.confirmingCells.erase id
  { t with
    confirmingCells := rest
    confirming := if t.confirmingCells.contains id && rest.isEmpty then false else t.confirming }

def settleLocalResume : CoreTurn :=
  let rest := t.resumingCells.erase id
  { t with
    resumingCells := rest
    resuming := if t.resumingCells.contains id && rest.isEmpty then false else t.resuming
    }.modifyCell id fun cell => { cell with resumeDemand := false }

/-- Read the ownership record of one cell on this node's disk. -/
def confirmLocalCell (local_ : LocalCell) : CoreTurn :=
  if t.cells.contains local_.id || t.confirmingCells.contains local_.id then t
  else
    let t := { t with confirmingCells := t.confirmingCells.insert local_.id }
    let (cell, t) := t.admitOrQueueActivation local_.id { confirming := true } .readOwner
    t.putCell local_.id cell

def confirmLocalCells (result : Except Failure (List LocalCell)) : CoreTurn :=
  match result with
  | .error _ => { t with confirming := false }
  | .ok cells =>
      let t := (LocalCell.sortDedup cells).foldl confirmLocalCell t
      if t.confirmingCells.isEmpty then { t with confirming := false } else t

/-- The restore of a preserved local epoch. -/
def resumeSpec (epoch : Epoch) : RestoreSpec where
  epoch := epoch
  fresh := false
  tookOver := false
  resumeLocal := true
  prior := none

/-- Adopt one epoch encoded by a clean predecessor's local paths. -/
def resumeLocalCell (local_ : LocalCell) : CoreTurn :=
  let t := { t with resumingCells := t.resumingCells.insert local_.id }
  let (cell, t) := t.admitOrQueueActivation local_.id { resumeDemand := true }
    (.restore (resumeSpec local_.epoch))
  t.putCell local_.id cell

/-- The node lease CAS that caused this event is the ownership proof, so this
path emits no per-cell ownership effects. -/
def localCellsRead (result : Except Failure (List LocalCell)) : CoreTurn :=
  if t.confirming then t.confirmLocalCells result
  else if !t.resuming then t
  else
    match result with
    | .error _ => { t with resuming := false }
    | .ok cells =>
        let cells := LocalCell.sortDedup (cells.filter (·.live))
        if t.config.maxResident < cells.length || !t.cells.isEmpty then
          { t with resuming := false }
        else
          let t := cells.foldl resumeLocalCell t
          if t.resumingCells.isEmpty then { t with resuming := false } else t

/-! ## Requests and wake hints -/

/-- Queue a request on a cell that cannot answer it now, starting a cold route
where the phase needs one. -/
def joinRequest (request : RequestId) (id : CellId) (cell : Cell) : Cell × CoreTurn :=
  let cell := { cell with requests := cell.requests.insert request }
  let t := { t with requestCells := t.requestCells.insert request id }
  match cell.phase with
  | .inactive => t.admitOrQueueActivation id cell .readOwner
  | .remote _ _ _ _ cache =>
      let t :=
        if cache = .uncached then t
        else { t with activity.remoteRouteRefreshes := satAdd t.activity.remoteRouteRefreshes 1 }
      t.admitOrQueueActivation id cell .readOwner
  | .dormant _ =>
      if t.handsOff cell then (cell, t) else t.admitOrQueueActivation id cell .readOwner
  | _ => (cell, t)

/-- Route one request by the phase of its cell, which is held out of the
table. -/
def routeRequest (request : RequestId) (id : CellId) (cell : Cell) : Cell × CoreTurn :=
  match cell.phase with
  | .resident _ =>
      if !cell.quiescing then
        (cell.recordLocalRequest request t.nowMonoMs,
          t.completeRequest id request (.ok .local))
      else t.joinRequest request id cell
  | .ensuringDurability _ epoch =>
      if !t.draining then
        -- The runtime is still published: a new request wins the race.
        let (cell, t) := t.cancelEviction id cell epoch .activity
        (cell.recordLocalRequest request t.nowMonoMs,
          t.completeRequest id request (.ok .local))
      else t.joinRequest request id cell
  | .remote node addr epoch peerProtocol cache =>
      if cache.reusable t.nowMs t.nowMonoMs then
        (cell, t.push (.complete request (.ok (.remote node addr epoch peerProtocol))))
      else t.joinRequest request id cell
  | .fenced => (cell, t.push (.complete request (.error .nodeFenced)))
  | .starting op _ =>
      if t.timedOutRuntimeStarts.contains op then
        (cell, t.push (.complete request (.error .runtimeFailed)))
      else t.joinRequest request id cell
  | .inactive =>
      if t.draining then (cell, t.push (.complete request (.error .nodeUnavailable)))
      else t.joinRequest request id cell
  | .cleaning op _ (.evict _) =>
      if !t.draining then
        -- Only the first waiter asks the shell to abandon the stop.
        let first := cell.requests.isEmpty
        let cell := { cell with requests := cell.requests.insert request }
        let t := { t with requestCells := t.requestCells.insert request id }
        (cell, if first then t.push (.abandonEvictionStop op id) else t)
      else t.joinRequest request id cell
  | .dormant _ =>
      if t.handoffRequests.contains request then
        ({ cell with requests := cell.requests.insert request },
          { t with requestCells := t.requestCells.insert request id })
      else t.joinRequest request id cell
  | _ => t.joinRequest request id cell

def requestAuthorized (request : RequestId) (id : CellId) : CoreTurn :=
  let (cell, t) := (t.dropCell id).routeRequest request id ((t.cells[id]?).getD {})
  t.putCell id cell

/-- `authoritative` is the node's authority when the event is handled. -/
def request (authoritative : Bool) (request : RequestId) (id : CellId)
    (capacityHandoff ownershipHandoff : Bool) : CoreTurn :=
  if t.requestCells.contains request then t
  else if t.fenced then t.push (.complete request (.error .nodeFenced))
  else
    let t := { t with
      capacityRequests :=
        if capacityHandoff then t.capacityRequests.insert request else t.capacityRequests
      handoffRequests :=
        if ownershipHandoff then t.handoffRequests.insert request else t.handoffRequests }
    if authoritative then t.requestAuthorized request id
    else t.push (.complete request (.error .nodeUnavailable))

/-- Route one event from an already registered WebSocket. -/
def websocketRequest (authoritative : Bool) (request : RequestId) (id : CellId)
    (websocket : WebSocketId) : CoreTurn :=
  if authoritative &&
      (t.cells[id]?.any fun cell => cell.phase.isResident && cell.websockets.contains websocket)
  then t.completeRequest id request (.ok .local)
  else t.request authoritative request id false false

/-- Admit an output gate on a resident cell even while it quiesces. -/
def gateRequest (authoritative : Bool) (request : RequestId) (id : CellId) : CoreTurn :=
  if authoritative && !t.draining &&
      (t.cells[id]?.any fun cell =>
        cell.phase.isResident && !cell.swapCancelled && (t.runsGateSource id || cell.isFiring))
  then
    let t := t.completeRequest id request (.ok .local)
    { t with
      admittedGates := t.admittedGates.insert request
      admittedGateCells :=
        t.admittedGateCells.insert id ((t.admittedGateCells[id]?).getD 0 + 1) }
  else t.request authoritative request id false false

def wakeHintAuthorized (scope : WakeHintScope) : CoreTurn :=
  if t.draining then t
  -- An owned hint is decided before the table is touched: a fleet probe creates
  -- an entry for a cell this node has never seen, and that is wrong here.
  else if scope = .owned && !(t.cells[id]?.any (·.phase.isDormant)) then t
  else
    let cell := { (t.cells[id]?).getD {} with alarmWake := true }
    let t := t.dropCell id
    let (cell, t) :=
      match cell.phase with
      | .inactive | .remote _ _ _ _ _ | .dormant _ => t.admitOrQueueActivation id cell .readOwner
      | _ => (cell, t)
    t.putCell id cell

def wakeHint (authoritative : Bool) (id : CellId) (scope : WakeHintScope) : CoreTurn :=
  if t.fenced then t
  else if authoritative then t.wakeHintAuthorized id scope
  else t

/-- The part of `cancel` that leaves the queues: the caller of a queued cell
went away. -/
def cancelQueued (request : RequestId) : CoreTurn :=
  let t := { t with
    capacityRequests := t.capacityRequests.erase request
    handoffRequests := t.handoffRequests.erase request }
  match t.requestCells[request]? with
  | none => t
  | some id =>
      let t := { t with requestCells := t.requestCells.erase request }
      match t.cells[id]? with
      | none => t
      | some cell =>
          let cell := { cell with requests := cell.requests.erase request }
          if !cell.wanted && cell.phase = .waitingActivation then
            let (cell, t) := t.setPhase { cell with waitingActivation := none }
              (match cell.waitingActivation with
                | some (.restore spec) => .dormant spec.epoch
                | _ => .inactive)
            { t with activationWaiters := t.activationWaiters.filter (· ≠ id) }.putCell id cell
          else if !cell.wanted && cell.phase = .waitingCapacity then
            let (cell, t) := t.setPhase { cell with waitingFor := none }
              (match cell.waitingFor with
                | some (.restore spec) => .dormant spec.epoch
                | _ => .inactive)
            { t with capacityWaiters := t.capacityWaiters.filter (· ≠ id) }.putCell id cell
          else t.putCell id cell

/-- The settled phase of cold work that a clean local reload retires. -/
def preserveFallback (cell : Cell) : Option Phase :=
  match cell.phase with
  | .waitingActivation =>
      match cell.waitingActivation with
      | some (.restore spec) => some (.dormant spec.epoch)
      | _ => some .inactive
  | .readingOwner _ | .readingNodeLease _ _ _ _ | .recoveringOwnerLog _ _
  | .waitingOwnerLogRecovery _ | .readingCapacity _ _ _ | .acquiring _ _ _
  | .reconcilingAcquire _ _ _ => some .inactive
  | .waitingCapacity =>
      match cell.waitingFor with
      | some (.restore spec) => some (.dormant spec.epoch)
      | _ => some .inactive
  | .restoring _ spec => some (.dormant spec.epoch)
  | _ => none

/-- Retire the cold work of one cell. -/
def preserveCell : CoreTurn :=
  match t.cells[id]? with
  | none => t
  | some cell =>
      match preserveFallback cell with
      | none => t
      | some fallback =>
          let t := t.dropCell id
          let t :=
            match cell.phase.op? with
            | some stale => t.dropOp stale
            | none => t
          let (cell, t) := t.finishRequests id cell (.error .nodeFenced)
          let (cell, t) := t.setPhase cell fallback
          { t with resumingCells := t.resumingCells.erase id }.putCell id
            { cell with
              ownerLogRecoveryAttempts := 0
              waitingFor := none
              waitingActivation := none
              alarmWake := false
              resumeDemand := false }

/-- Retire cold work that cannot contribute to a clean local reload. -/
def beginPreserve : CoreTurn :=
  let t := { t with activationWaiters := [], capacityWaiters := [] }
  let t := t.cells.keys.foldl preserveCell t
  let t := if t.resumingCells.isEmpty then { t with resuming := false } else t
  let t := t.retainActivationPermits
  { t with
    capacityRequests := t.capacityRequests.filter fun request => t.requestCells.contains request
    handoffRequests := t.handoffRequests.filter fun request => t.requestCells.contains request }

end CoreTurn

end Celld
