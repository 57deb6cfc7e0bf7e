import Celld.Core.Resolve

/-!
# From the confirmed claim to the published runtime, and back

The completions of the ownership write, the restore, the runtime start and the
publication; the durability proof and the stop of an eviction; the release of an
ownership record and its adoption by a successor.

A completion whose operation the cell no longer holds is ignored, except that a
runtime start or publication retired by a fence is compensated with a stop.
-/

namespace Celld

/-- Parse the class of a cell scope `<class>:<instance>`: everything before the
first colon, `none` if there is none. -/
def scopeClass? (id : CellId) : Option String :=
  let (cls, rest) := id.toList.span (· ≠ ':')
  if rest.isEmpty then none else some (String.ofList cls)

namespace CoreTurn

variable (t : CoreTurn) (id : CellId) (cell : Cell)

/-! ## Acquisition and start -/

/-- Read the ownership record again from the top. -/
def rereadOwner : Cell × CoreTurn :=
  let (next, t) := t.cellOp id
  let (cell, t) := t.setPhase cell (.readingOwner next)
  (cell, t.push (.readOwner next id))

/-- An applied acquisition: park it, queue its restore, or restore inline. -/
def acquired (claim : Claim) (dormant : Bool) : Cell × CoreTurn :=
  let spec := confirmedSpec claim
  let t := t.recordAcquisition spec
  if t.ownershipOnly cell then t.setPhase cell (.dormant spec.epoch)
  -- Live demand joined a dormant-bound claim, which held no residency slot.
  else if dormant then t.activateOrWait id cell (.restore spec) .shedToAdmit
  else
    let (next, t) := t.cellOp id
    let (cell, t) := t.setPhase cell (.restoring next spec)
    (cell, t.push (.restore next id spec))

/-- An acquisition whose outcome is unknown re-reads the record, a bounded number
of times. -/
def reconcileAcquire (claim : Claim) (dormant : Bool) : Cell × CoreTurn :=
  if claim.reconciles < maxAcquireReconciles then
    let (next, t) := t.cellOp id
    let claim := { claim with reconciles := claim.reconciles + 1 }
    let (cell, t) := t.setPhase cell (.reconcilingAcquire next claim dormant)
    (cell, t.push (.readOwner next id))
  else
    let (cell, t) := t.setPhase cell .inactive
    t.finishRequests id cell (.error .acquireFailed)

def ownerCasCompleted (op : OpId) (result : Except Failure CasOutcome) : CoreTurn :=
  match t.takeCellOp op fun cell =>
      match cell.phase with
      | .acquiring current _ _ => current = op
      | _ => false with
  | none => t
  | some (id, cell, t) =>
      match cell.phase with
      | .acquiring _ claim dormant =>
          let t := t.dropCell id
          let (cell, t) :=
            match result with
            | .ok .applied => t.acquired id cell claim dormant
            | .ok .rejected => t.rereadOwner id cell
            | .error .ambiguous => t.reconcileAcquire id cell claim dormant
            | .error .definite =>
                let (cell, t) := t.setPhase cell .inactive
                t.finishRequests id cell (.error .acquireFailed)
          (t.putCell id cell).pumpCapacity
      | _ => t

/-- Arm the wake of an alarm at a wall instant. -/
def scheduleAlarmTimer (generation : ℕ) (atMs : Ms) (nowMs nowMonoMs : ℕ) : CoreTurn :=
  t.push (.scheduleTimer (.cellAlarm id generation) (satAdd nowMonoMs (atMs.toNat - nowMs)))

/-- Seed the alarm mirror from the durable truth a restore loaded. -/
def seedAlarm (alarm : Option RestoredAlarm) : Cell × CoreTurn :=
  match alarm.filter fun alarm => 0 ≤ alarm.atMs with
  | none => (cell, t)
  | some alarm =>
      let (generation, t) := t.timerGeneration
      ({ cell with alarm := some (.armed alarm.atMs generation alarm.covered) },
        t.scheduleAlarmTimer id generation alarm.atMs t.nowMs t.nowMonoMs)

/-- Start a runtime on the epoch the node holds. -/
def startRuntime (epoch : Epoch) : Cell × CoreTurn :=
  let (next, t) := t.cellOp id
  let (cell, t) := t.setPhase cell (.starting next epoch)
  (cell, t.push (.startRuntime next id epoch))

/-- Park a cell whose activation failed and fail its callers. -/
def parkFailed (epoch : Epoch) (error : RequestError) : Cell × CoreTurn :=
  let (cell, t) := t.setPhase cell (.dormant epoch)
  t.finishRequests id cell (.error error)

def restoreCompleted (op : OpId) (result : Except Failure RestoreOutcome) : CoreTurn :=
  match t.takeCellOp op fun cell =>
      match cell.phase with
      | .restoring current _ => current = op
      | _ => false with
  | none => t
  | some (id, cell, t) =>
      match cell.phase with
      | .restoring _ spec =>
          let t := t.dropCell id
          match result with
          | .ok outcome =>
              let t := { t with
                activity.restored :=
                  if outcome.restored then satAdd t.activity.restored 1
                  else t.activity.restored }
              let (cell, t) := t.seedAlarm id cell outcome.alarm
              let (cell, t) := t.startRuntime id cell spec.epoch
              (t.putCell id cell).pumpCapacity
          | .error _ =>
              let (cell, t) := t.parkFailed id cell spec.epoch .restoreFailed
              let t := t.putCell id cell
              (if cell.resumeDemand then t.settleLocalResume id else t).pumpCapacity
      | _ => t

/-- A start or publication that completes after its cell was fenced: success or
ambiguity may have created a runtime, so it is stopped. -/
def compensateRetiredRuntime (op : OpId) (result : Except Failure Unit) : CoreTurn :=
  match t.retiredRuntimeOps[op]? with
  | none => t
  | some (cell, epoch) =>
      let t := { t with retiredRuntimeOps := t.retiredRuntimeOps.erase op }
      if result = .error .definite then t
      else
        let (cleanup, t) := t.op
        t.push (.stopRuntime cleanup cell epoch .fence false)

/-- Publish the runtime that started at `epoch`. -/
def publishRuntime (epoch : Epoch) : Cell × CoreTurn :=
  let (next, t) := t.cellOp id
  let (cell, t) := t.setPhase cell (.publishing next epoch)
  (cell, t.push (.publish next id epoch))

def runtimeStarted (op : OpId) (isolate : Option HeapId) (generation : ℕ)
    (result : Except Failure Unit) : CoreTurn :=
  match t.takeCellOp op fun cell =>
      match cell.phase with
      | .starting current _ => current = op
      | _ => false with
  | none => t.compensateRetiredRuntime op result
  | some (id, cell, t) =>
      match cell.phase with
      | .starting _ epoch =>
          let t := { t with timedOutRuntimeStarts := t.timedOutRuntimeStarts.erase op }
          let t := t.dropCell id
          match result with
          | .ok _ =>
              let (cell, t) := t.publishRuntime id
                { cell with isolate := isolate, generation := generation } epoch
              (t.putCell id cell).pumpCapacity
          | .error _ =>
              let (cell, t) := t.parkFailed id cell epoch .runtimeFailed
              let t := t.putCell id cell
              (if cell.resumeDemand then t.settleLocalResume id else t).pumpCapacity
      | _ => t

/-- Fail the callers waiting on a runtime start without retiring the start. -/
def runtimeStartTimedOut (op : OpId) : CoreTurn :=
  match t.cellOps[op]? with
  | none => t
  | some id =>
      match t.cells[id]? with
      | none => t
      | some cell =>
          match cell.phase with
          | .starting current _ =>
              if current = op then
                let t := t.dropCell id
                let t := { t with timedOutRuntimeStarts := t.timedOutRuntimeStarts.insert op }
                let (cell, t) := t.finishRequests id cell (.error .runtimeFailed)
                t.putCell id cell
              else t
          | _ => t

/-- Stop a runtime at the epoch the node holds. -/
def stopRuntime (epoch : Epoch) (cause : StopCause) (bounded : Bool) : Cell × CoreTurn :=
  let (next, t) := t.cellOp id
  let (cell, t) := t.setPhase cell (.cleaning next epoch cause)
  (cell, t.push (.stopRuntime next id epoch cause bounded))

/-- The published cell is resident, and its callers are served here. -/
def reside (epoch : Epoch) : Cell × CoreTurn :=
  let (cell, t) := t.setPhase cell (.resident epoch)
  t.finishRequests id { cell with swapping := false, swapCancelled := false } (.ok .local)

def published (op : OpId) (result : Except Failure Unit) : CoreTurn :=
  match t.takeCellOp op fun cell =>
      match cell.phase with
      | .publishing current _ => current = op
      | _ => false with
  | none => t.compensateRetiredRuntime op result
  | some (id, cell, t) =>
      match cell.phase with
      | .publishing _ epoch =>
          let completingResume := cell.resumeDemand
          let t := t.dropCell id
          let (cell, t) :=
            match result with
            | .ok _ => t.reside id cell epoch
            | .error _ => t.stopRuntime id cell epoch .cleanup false
          let t := t.putCell id cell
          if completingResume then t.settleLocalResume id else t
      | _ => t

/-! ## Release and adoption -/

/-- Ask the bucket to publish the cell as unowned. -/
def releaseOwner (epoch : Epoch) : Cell × CoreTurn :=
  let (op, t) := t.cellOp id
  ({ cell with releasing := some op },
    { t with releasingCells := t.releasingCells.insert id }.push (.releaseOwner op id epoch))

/-- The epoch a still dormant cell releases. -/
def releasedEpoch (cell : Cell) : Option Epoch :=
  match cell.phase with
  | .dormant epoch => some epoch
  | _ => none

/-- A release that did not reach adoption: forget a settled dormant cell, and send
the requests a balancing move parked down the ordinary path. -/
def releaseWithoutAdoption (settled : Bool) : Cell × CoreTurn :=
  let (cell, t) :=
    if settled && cell.phase.isDormant then t.setPhase cell .inactive else (cell, t)
  let handoff := cell.handoff
  let cell := { cell with handoff := false }
  if handoff && !cell.requests.isEmpty then t.admitOrQueueActivation id cell .readOwner
  else (cell, t)

/-- Offer the released cell to a successor. -/
def adoptReleased (epoch : Epoch) : Cell × CoreTurn :=
  let (adopt, t) := t.cellOp id
  let t := { t with
    releasingCells := t.releasingCells.erase id
    adoptingCells := t.adoptingCells.insert id }
  let (cell, t) := t.setPhase { cell with releasing := none } (.adopting adopt epoch)
  (cell, t.push (.adoptReleased adopt id epoch cell.handoff))

/-- A release either published the cell as unowned or did not. -/
def ownerReleased (op : OpId) (result : Except Failure CasOutcome) : CoreTurn :=
  match t.takeCellOp op fun cell => cell.releasing = some op with
  | none => t
  | some (id, cell, t) =>
      let t := t.dropCell id
      let handsOff := t.handsOff cell
      -- On a draining node a rejection settles the cell too.
      let settled := result = .ok .applied || (handsOff && result = .ok .rejected)
      let (cell, t) :=
        match (if settled && handsOff then releasedEpoch cell else none) with
        | some epoch => t.adoptReleased id cell epoch
        | none =>
            { t with releasingCells := t.releasingCells.erase id }.releaseWithoutAdoption id
              { cell with releasing := none } settled
      t.putCell id cell

/-- The successor's acknowledgement is usable. -/
def adoptionIsValid (c : Core) (releasedEpoch : Epoch) (adopted : AdoptedCell) : Bool :=
  adopted.node ≠ c.node && !adopted.addr.isEmpty && releasedEpoch < adopted.epoch
    && adopted.peerProtocol = c.config.peerProtocol

def countAdopted (handoff : Bool) : CoreTurn :=
  { t with
    activity.handedOff := satAdd t.activity.handedOff 1
    activity.rebalanced :=
      if handoff then satAdd t.activity.rebalanced 1 else t.activity.rebalanced }

def countAdoptionFailed (handoff : Bool) : CoreTurn :=
  { t with
    activity.handoffFailed := satAdd t.activity.handoffFailed 1
    activity.rebalanceFailed :=
      if handoff then satAdd t.activity.rebalanceFailed 1 else t.activity.rebalanceFailed }

def adoptionSucceeded (adopted : AdoptedCell) (handoff : Bool) : Cell × CoreTurn :=
  let (cell, t) := (t.countAdopted handoff).setPhase cell
    (.remote adopted.node adopted.addr adopted.epoch adopted.peerProtocol .uncached)
  t.finishRequests id cell
    (.ok (.remote adopted.node adopted.addr adopted.epoch adopted.peerProtocol))

/-- A drain has no future here, so its parked requests fail; the requests of a
balancing move re-read ownership like any cold request. -/
def adoptionFailed (handoff : Bool) : Cell × CoreTurn :=
  let (cell, t) := (t.countAdoptionFailed handoff).setPhase cell .inactive
  if handoff then
    if cell.requests.isEmpty then (cell, t) else t.admitOrQueueActivation id cell .readOwner
  else t.finishRequests id cell (.error .nodeUnavailable)

/-- Finish one handoff after a successor acquired the cell. -/
def successorAdopted (op : OpId) (result : Except Failure AdoptedCell) : CoreTurn :=
  match t.takeCellOp op fun cell =>
      match cell.phase with
      | .adopting current _ => current = op
      | _ => false with
  | none => t
  | some (id, cell, t) =>
      match cell.phase with
      | .adopting _ released =>
          let t := { t with adoptingCells := t.adoptingCells.erase id }.dropCell id
          let handoff := cell.handoff
          let cell := { cell with handoff := false }
          let (cell, t) :=
            match result with
            | .ok adopted =>
                if adoptionIsValid t.toCore released adopted then
                  t.adoptionSucceeded id cell adopted handoff
                else t.adoptionFailed id cell handoff
            | .error _ => t.adoptionFailed id cell handoff
          t.putCell id cell
      | _ => t

/-! ## Stops -/

/-- Forget the operation of a firing alarm. -/
def dropFiring : CoreTurn :=
  match cell.alarm.bind AlarmState.firingOp with
  | some op => t.dropOp op
  | none => t

/-- What a completed stop leaves, by its cause.  The source holds a fence stop
unreachable here: fenced cells do not wait for runtime shutdown. -/
def afterStop (epoch : Epoch) (cause : StopCause) : Cell × CoreTurn :=
  match cause with
  | .cleanup => t.parkFailed id cell epoch .publishFailed
  | .reset =>
      -- Inactive, not dormant: the next request re-reads the ownership record.
      let (cell, t) := t.setPhase cell .inactive
      (t.dropFiring cell).finishRequests id
        { cell with alarm := none, alarmWake := false, websockets := ∅ }
        (.error .durabilityUnproven)
  | .evict rebalance =>
      if cell.requests.isEmpty || (t.draining && rebalance) then
        let (cell, t) := t.setPhase cell (.dormant epoch)
        let t := { t with evictionPermits := t.evictionPermits.erase id }
        if rebalance then t.releaseOwner id cell epoch else (cell, t)
      else
        -- A request arrived mid-eviction, so the cell turns straight around.
        { t with evictionPermits := t.evictionPermits.erase id }.admitOrQueueActivation id cell
          .readOwner
  | .swap =>
      if t.draining then t.parkFailed id cell epoch .publishFailed
      else t.startRuntime id cell epoch
  | .fence => (cell, t)

def runtimeStopped (op : OpId) : CoreTurn :=
  match t.takeCellOp op fun cell =>
      match cell.phase with
      | .cleaning current _ _ => current = op
      | _ => false with
  | none => t
  | some (id, cell, t) =>
      match cell.phase with
      | .cleaning _ epoch cause =>
          let t := t.dropCell id
          let t :=
            match cause with
            | .evict _ => t.finishEviction op (.ok .evicted)
            | _ => t
          let (cell, t) := t.afterStop id { cell with isolate := none } epoch cause
          let t := (t.putCell id cell).pumpCapacity.shedTowardFloor
          t.evictIdle t.nowMonoMs
      | _ => t

/-- A bounded stop gave up: the cell restarts on the open database at the same
epoch, through the swap's own path.  The source asserts that the stop is an
eviction's. -/
def runtimeStopFailed (op : OpId) (error : EvictError) : CoreTurn :=
  match t.takeCellOp op fun cell =>
      match cell.phase with
      | .cleaning current _ _ => current = op
      | _ => false with
  | none => t
  | some (id, cell, u) =>
      match cell.phase with
      | .cleaning _ epoch (.evict _) =>
          let u := (u.dropCell id).finishEviction op (.error error)
          let cell := { cell with
            isolate := none
            evictRebalance := false
            handoff := false
            evictionRefusedMonoMs := some u.nowMonoMs
            swapping := true }
          let u := { u with evictionPermits := u.evictionPermits.erase id }
          let (cell, u) := u.startRuntime id cell epoch
          u.putCell id cell
      | _ => t

/-- The durability proof of an eviction answered. -/
def durabilityChecked (op : OpId) (result : Except EvictFailure Unit) : CoreTurn :=
  match t.takeCellOp op fun cell =>
      match cell.phase with
      | .ensuringDurability current _ => current = op
      | _ => false with
  | none => t
  | some (id, cell, t) =>
      match cell.phase with
      | .ensuringDurability _ epoch =>
          match result with
          | .ok _ =>
              let t := { t with
                evictionNotifications :=
                  match t.evictionNotifications[op]? with
                  | none => t.evictionNotifications
                  | some requests =>
                      (t.evictionNotifications.erase op).insert t.nextOp requests }
              let (cell, t) := t.stopRuntime id cell epoch (.evict cell.evictRebalance)
                (!t.draining)
              t.putCell id cell
          | .error reason =>
              let (cell, t) := t.setPhase cell (.resident epoch)
              let t := t.putCell id { cell with evictionRefusedMonoMs := some t.nowMonoMs }
              { t with evictionPermits := t.evictionPermits.erase id }.finishEviction op
                (.error (.failed reason))
      | _ => t

/-! ## Generations -/

/-- Announce the generation the node now serves; the pump moves cells. -/
def generationChanged (generation maxAgeMs : ℕ) (eagerClasses : List String) : CoreTurn :=
  if generation ≤ t.currentGeneration then t
  else
    { t with
      currentGeneration := generation
      generationChangedMonoMs := t.nowMonoMs
      swapMaxAgeMs := maxAgeMs
      swapEagerClasses := Std.ExtTreeSet.ofList eagerClasses }

end CoreTurn

/-- Whether the cell's class was named eager by the last announcement. -/
def Core.swapIsEager (c : Core) (id : CellId) : Bool :=
  c.swapEagerClasses.contains ((scopeClass? id).getD id)

end Celld
