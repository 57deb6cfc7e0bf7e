import Celld.Core.Node

/-!
# The output gate

Every output a cell produces passes through `output`: a write opens a barrier and
waits for a proof that covers its position, a read-only output that observed an
uncovered commit waits for that proof itself, and any other read-only output
trails the newest barrier open on its cell (`crates/logic/output_gate.rs`).

A proof by the bucket settles a barrier only after an ownership read
(`durableReached`, `ownershipVerified`); a proof by the fleet settles it at once.
A failed proof fails the barrier and discards the runtime (`resetCell`).
-/

namespace Celld

namespace Barrier

variable {χ : Type} (barrier : Barrier χ)

/-- What the owner of a barrier learns when the barrier fails outright. -/
def ownerFailure (error : RequestError) : List (Effect χ) :=
  match barrier.owner with
  | .output held => [.release held.request held.channel (.error error)]
  | .alarm _ _ _ => []
  | .export ticket => [.exportProven barrier.cell barrier.epoch ticket (.error error)]

def followerFailures (error : RequestError) : List (Effect χ) :=
  barrier.followers.map fun held => .release held.request held.channel (.error error)

/-- The verdict every rider of a barrier shares. -/
def riderVerdicts (result : Except RequestError Unit) : List (Effect χ) :=
  barrier.riders.map fun rider =>
    .exportProven barrier.cell barrier.epoch rider.ticket result

/-- Everything a barrier tells when it fails outright. -/
def failure (error : RequestError) : List (Effect χ) :=
  barrier.ownerFailure error ++ barrier.followerFailures error
    ++ barrier.riderVerdicts (.error error)

/-- The proof reaches the barrier's position. -/
def covered (result : Except Failure ℕ) : Bool :=
  match result with
  | .ok durable => barrier.position ≤ durable
  | .error _ => false

/-- The barrier is open on one residency of a cell. -/
def isOn (cell : CellId) (epoch : Epoch) : Bool :=
  barrier.cell = cell && barrier.epoch = epoch

end Barrier

namespace Core

/-- The cell is resident at `epoch`. -/
def residentAt (c : Core) (id : CellId) (epoch : Epoch) : Bool :=
  c.cells[id]?.any (·.phase = .resident epoch)

/-- The cell a live local request runs against, and the epoch it is resident
at. -/
def residentCell (c : Core) (request : RequestId) : Option (CellId × Epoch) :=
  match c.activeRequests[request]? with
  | none => none
  | some id =>
      match c.cells[id]? with
      | none => none
      | some cell =>
          match cell.phase with
          | .resident epoch => some (id, epoch)
          | _ => none

/-- Whether a verified proof of this residency already covers `observed`. -/
def provenCovers (c : Core) (id : CellId) (epoch : Epoch) (observed : ℕ) : Bool :=
  ((c.cells[id]?).bind (·.provenPosition)).any fun (provenAt, proven) =>
    provenAt = epoch && observed ≤ proven

end Core

namespace CoreTurn

variable (t : CoreTurn) (id : CellId)

/-- Record a verified proof. -/
def noteProven (epoch : Epoch) (position : ℕ) : CoreTurn :=
  t.modifyCell id fun cell =>
    { cell with
      provenPosition :=
        match cell.provenPosition with
        | some (provenAt, proven) =>
            if provenAt = epoch then some (epoch, max proven position) else some (epoch, position)
        | none => some (epoch, position) }

/-- The part of `activity_finished` past the gate's pin. -/
def finishActivity (request : RequestId) : CoreTurn :=
  match t.deactivateRequest request with
  | (none, t) => t.shedOne
  | (some id, t) =>
      (t.modifyCell id fun cell =>
        { cell with
          lastUsedMonoMs := t.nowMonoMs
          lastUsedRequest := max cell.lastUsedRequest request }).shedOne

/-- Take the runtime away from a resident cell whose durability could not be
proved, together with the requests that run on it. -/
def discardRuntime (epoch : Epoch) : CoreTurn :=
  let t := (activeOn t.toCore id).foldl (fun t request => (t.deactivateRequest request).2) t
  let (op, t) := t.cellOp id
  let t :=
    match t.cells[id]? with
    | none => t
    | some cell =>
        let t := { t.dropPhaseOp cell with quiescingCells := t.quiescingCells.erase id }
        let (cell, t) := t.setPhase cell (.cleaning op epoch .reset)
        t.putCell id cell
  t.push (.stopRuntime op id epoch .reset false)

end CoreTurn

namespace Turn

variable {χ : Type} (t : Turn χ)

def pushAll (effects : List (Effect χ)) : Turn χ :=
  { t with effects := t.effects ++ effects }

def putBarrier (op : OpId) (barrier : Barrier χ) : Turn χ :=
  { t with barriers := t.barriers.insert op barrier }

def dropBarrier (op : OpId) : Turn χ := { t with barriers := t.barriers.erase op }

/-! ## Opening a barrier -/

/-- Open a barrier and ask for the durability proof it waits for. -/
def openBarrier (owner : GateOwner χ) (cell : CellId) (epoch : Epoch) (position : ℕ) : Turn χ :=
  let (op, t) := t.op
  (t.putBarrier op { owner := owner, cell := cell, epoch := epoch, position := position }).push
    (.awaitDurable op cell epoch position)

/-- Open the output gate for a local write.  The request must still be a live
local activity on a resident cell. -/
def openWriteBarrier (held : Held χ) (position : ℕ) : Turn χ :=
  match t.residentCell held.request with
  | none => t.push (.release held.request held.channel (.error .durabilityUnproven))
  | some (cell, epoch) => t.openBarrier (.output held) cell epoch position

/-- Let an output wait for the verdict of an open barrier. -/
def follow (op : OpId) (barrier : Barrier χ) (held : Held χ) : Turn χ :=
  t.putBarrier op { barrier with followers := barrier.followers ++ [held] }

/-- Hold a read-only output that observed a committed write no verified proof
covers yet. -/
def holdObserved (held : Held χ) (cell : CellId) (epoch : Epoch) (observed : ℕ) : Turn χ :=
  match t.barriers.toList.reverse.find? fun (_, barrier) =>
      barrier.isOn cell epoch && observed ≤ barrier.position && barrier.trailable with
  | some (op, barrier) => t.follow op barrier held
  | none => t.openWriteBarrier held observed

/-- Hold a read-only output behind the newest barrier open on its cell. -/
def trailOpenBarrier (held : Held χ) : Turn χ :=
  match t.activeRequests[held.request]? with
  | none => t.push (.release held.request held.channel (.error .durabilityUnproven))
  | some cell =>
      match t.barriers.toList.reverse.find? fun (_, barrier) =>
          barrier.cell = cell && barrier.trailable with
      | some (op, barrier) => t.follow op barrier held
      | none => t.push (.release held.request held.channel (.ok ()))

/-- A ticket sampled at an epoch its request no longer runs at. -/
def sampledElsewhere (request : RequestId) (epoch : Option Epoch) : Bool :=
  match epoch with
  | none => false
  | some sampled =>
      match t.residentCell request with
      | none => true
      | some (_, current) => current ≠ sampled

/-- **The output gate.**  `channel` is stored and never branched on. -/
def output (request : RequestId) (channel : χ) (position observed : Option ℕ)
    (epoch : Option Epoch) : Turn χ :=
  let held : Held χ := ⟨request, channel⟩
  if !t.nodeAuthoritative then t.push (.release request channel (.error .nodeFenced))
  else if t.sampledElsewhere request epoch then
    t.push (.release request channel (.error .durabilityUnproven))
  else
    match position, observed with
    | some position, _ => t.openWriteBarrier held position
    | none, some observed =>
        match t.residentCell request with
        | some (cell, current) =>
            if t.provenCovers cell current observed then t.trailOpenBarrier held
            else t.holdObserved held cell current observed
        -- Fail closed: no runtime is left to prove what the output observed.
        | none => t.push (.release request channel (.error .durabilityUnproven))
    | none, none => t.trailOpenBarrier held

/-! ## Export tickets -/

/-- The refusal of an export ticket, if it is refused. -/
def refusesExport (cell : CellId) (epoch : Epoch) : Option RequestError :=
  if !t.nodeAuthoritative then some .nodeFenced
  else if !t.residentAt cell epoch then some .durabilityUnproven
  else none

/-- Open a barrier for the change exporter, or ride one whose read qualifies. -/
def exportTicket (cell : CellId) (epoch : Epoch) (position ticket : ℕ) : Turn χ :=
  match t.refusesExport cell epoch with
  | some error => t.push (.exportProven cell epoch ticket (.error error))
  | none =>
      match t.barriers.toList.find? fun (_, barrier) =>
          barrier.isOn cell epoch && !barrier.verifying && position ≤ barrier.position with
      | some (op, host) =>
          t.putBarrier op { host with riders := host.riders ++ [⟨ticket, position⟩] }
      | none => t.openBarrier (.export ticket) cell epoch position

/-- Ask each rider again with a proof of its own. -/
def reaskRiders (cell : CellId) (epoch : Epoch) (riders : List Rider) : Turn χ :=
  riders.foldl (fun t rider => t.openBarrier (.export rider.ticket) cell epoch rider.position) t

/-- An export barrier's bucket proof landed: its ticket rides a barrier on the
same residency that is still proving, if there is one. -/
def handExportOn (op : OpId) (gate : Barrier χ) : Option (Turn χ) :=
  match gate.owner with
  | .export ticket =>
      match t.barriers.toList.find? fun (other, barrier) =>
          other ≠ op && barrier.isOn gate.cell gate.epoch && !barrier.verifying
            && barrier.trailable with
      | none => none
      | some (other, host) =>
          some ((t.dropBarrier op).putBarrier other
            { host with riders := host.riders ++ ⟨ticket, gate.position⟩ :: gate.riders })
  | _ => none

/-- The export barriers that ride the ownership read of `gate`. -/
def ridingExports (op : OpId) (gate : Barrier χ) : List (OpId × Barrier χ) :=
  t.barriers.toList.filter fun (other, barrier) =>
    other ≠ op && barrier.isOn gate.cell gate.epoch && !barrier.verifying
      && barrier.position ≤ gate.position && barrier.isExport

/-- An export barrier's ticket and the tickets that ride it. -/
def exportRiders (barrier : Barrier χ) : List Rider :=
  match barrier.owner with
  | .export ticket => ⟨ticket, barrier.position⟩ :: barrier.riders
  | _ => barrier.riders

/-- Barrier `op` is about to read ownership after a proof of its position: the
export barriers it covers ride that read. -/
def takeExportRiders (op : OpId) (gate : Barrier χ) : Barrier χ × Turn χ :=
  let taken := t.ridingExports op gate
  let t := taken.foldl (fun t other => t.dropBarrier other.1) t
  let gate := { gate with riders := gate.riders ++ taken.flatMap (exportRiders ·.2) }
  (gate, t.putBarrier op gate)

/-! ## Settling a barrier -/

/-- The request still has an output on the gate. -/
def isGated (request : RequestId) : Bool :=
  t.barriers.toList.any (·.2.holds request)

/-- A write still on the output gate keeps its request pinned. -/
def activityFinished (request : RequestId) : Turn χ :=
  if t.isGated request then { t with gatePinned := t.gatePinned.insert request }
  else t.onCore (·.finishActivity request)

/-- Unpin, then release one withheld output. -/
def releaseHeld (result : Except RequestError Unit) (t : Turn χ) (held : Held χ) : Turn χ :=
  let t :=
    if t.gatePinned.contains held.request then
      { t with gatePinned := t.gatePinned.erase held.request }.activityFinished held.request
    else t
  t.push (.release held.request held.channel result)

/-- Settle a firing alarm, once the commit that consumed it is durable: the
commit takes the gate a request's write takes. -/
def alarmFinished (op : OpId) (fired : CellId) (epoch : Epoch)
    (nowMs nowMonoMs : ℕ) (result : Except Failure (AlarmSnapshot × Bool × Option ℕ)) : Turn χ :=
  match result with
  | .ok (snapshot, covered, some position) =>
      if t.residentAt fired epoch then
        t.openBarrier (.alarm op snapshot covered) fired epoch position
      else t.onCore (·.settleAlarm op nowMs nowMonoMs (.ok (snapshot, covered)))
  | .ok (snapshot, covered, none) =>
      t.onCore (·.settleAlarm op nowMs nowMonoMs (.ok (snapshot, covered)))
  | .error failure => t.onCore (·.settleAlarm op nowMs nowMonoMs (.error failure))

/-- Fail one barrier of a residency that is being discarded. -/
def failDoomed (op : OpId) : Turn χ :=
  match t.barriers[op]? with
  | none => t
  | some gate =>
      let t := t.dropBarrier op
      let t :=
        match gate.owner with
        | .output held => { t with gatePinned := t.gatePinned.erase held.request }
        -- The alarm is armed again, as a failed handler's is.
        | .alarm alarm _ _ =>
            t.alarmFinished alarm gate.cell gate.epoch t.nowMs t.nowMonoMs (.error .ambiguous)
        | .export _ => t
      t.pushAll (gate.failure .durabilityUnproven)

/-- The open barriers `keep` accepts, oldest first. -/
def barriersWhere (keep : Barrier χ → Bool) : List OpId :=
  (t.barriers.toList.filter fun (_, barrier) => keep barrier).map (·.1)

/-- Every barrier of a residency fails with it. -/
def failResidency (id : CellId) (epoch : Epoch) : Turn χ :=
  (t.barriersWhere (·.isOn id epoch)).foldl failDoomed t

def unpinAll (requests : List RequestId) : Turn χ :=
  { t with
    gatePinned := requests.foldl (fun pinned request => pinned.erase request) t.gatePinned }

/-- Discard a runtime whose durability could not be proved: every other write on
the gate for this residency fails with it. -/
def resetCell (id : CellId) (epoch : Epoch) : Turn χ :=
  if !t.residentAt id epoch then t
  else
    let t := t.failResidency id epoch
    (t.unpinAll (CoreTurn.activeOn t.toCore id)).onCore (·.discardRuntime id epoch)

/-- What a settled barrier tells its owner. -/
def settleOwner (gate : Barrier χ) (proven : Bool) (result : Except RequestError Unit) : Turn χ :=
  match gate.owner with
  | .output held => releaseHeld result t held
  | .alarm alarm snapshot covered =>
      t.alarmFinished alarm gate.cell gate.epoch t.nowMs t.nowMonoMs
        (if proven then .ok (snapshot, covered, none) else .error .ambiguous)
  | .export ticket => t.push (.exportProven gate.cell gate.epoch ticket result)

/-- What a withheld output is told. -/
def verdict (proven : Bool) : Except RequestError Unit :=
  if proven then .ok () else .error .durabilityUnproven

/-- Note a positive verdict on the cell. -/
def noteVerdict (gate : Barrier χ) (proven : Bool) : Turn χ :=
  if proven then t.onCore (·.noteProven gate.cell gate.epoch gate.position) else t

/-- Settle a barrier with its verdict. -/
def settleGate (op : OpId) (proven : Bool) : Turn χ :=
  match t.barriers[op]? with
  | none => t
  | some gate =>
      let result := verdict proven
      let t := (t.dropBarrier op).noteVerdict gate proven
      let t := (t.pushAll (gate.riderVerdicts result)).settleOwner gate proven result
      -- A failed export leaves the cell alone: the exporter retries.
      if gate.isExport then t
      else
        let t := gate.followers.foldl (releaseHeld result) t
        if proven then t else t.resetCell gate.cell gate.epoch

/-- A durability proof completed.  It settles the barrier only when it covers the
barrier's position, and a bucket proof only after an ownership read. -/
def durableReached (op : OpId) (result : Except Failure ℕ) (source : ProofSource) : Turn χ :=
  match t.barriers[op]? with
  | none => t
  | some gate =>
      if !gate.covered result then t.settleGate op false
      else
        match source with
        | .bucket =>
            match t.handExportOn op gate with
            | some t => t
            | none =>
                let (gate, t) := t.takeExportRiders op gate
                (t.putBarrier op { gate with verifying := true }).push
                  (.verifyOwnership op gate.cell gate.epoch)
        | .fleet =>
            -- A fleet acknowledgement can predate a rider's ticket.
            let t := t.putBarrier op { gate with riders := [] }
            (t.settleGate op true).reaskRiders gate.cell gate.epoch gate.riders

def ownershipVerified (op : OpId) (result : Except Failure Unit) : Turn χ :=
  if t.barriers.contains op then t.settleGate op result.isOk else t

/-! ## Drains and fences -/

/-- Fail the outputs one barrier withholds; its export tickets prove
themselves. -/
def cancelOutput (op : OpId) : Turn χ :=
  match t.barriers[op]? with
  | none => t
  | some gate =>
      match gate.owner with
      | .output held =>
          let t := releaseHeld (.error .durabilityUnproven) (t.dropBarrier op) held
          let t := gate.followers.foldl (releaseHeld (.error .durabilityUnproven)) t
          t.reaskRiders gate.cell gate.epoch gate.riders
      | _ => t

/-- Fail every unacknowledged output held on a cell without discarding its
runtime. -/
def cancelCellOutputs (id : CellId) : Turn χ :=
  (t.barriersWhere fun barrier => barrier.cell = id && barrier.isOutput).foldl cancelOutput t

/-- The request left before it was answered. -/
def cancel (request : RequestId) : Turn χ :=
  let t := if t.activeRequests.contains request then t.activityFinished request else t
  t.onCore (·.cancelQueued request)

/-- Drain every barrier: the fence and the failure of what it holds are one
step. -/
def drainBarriers : Turn χ :=
  { t with barriers := ∅, gatePinned := ∅ }.pushAll
    (t.barriers.toList.flatMap fun gate : OpId × Barrier χ => gate.2.failure .nodeFenced)

def fence : Turn χ :=
  if t.fenced then t
  else (t.onCore (·.clearForFence)).drainBarriers.onCore (·.fenceCells)

def fenceNode (reason : HaltReason) : Turn χ :=
  ({ t with nodeAuthority := .fenced }.fence).push (.halt 3 reason)

/-! ## The drain pump -/

/-- A drain hands brokers off first, then the cells traffic used most. -/
def drainsBefore (c : Core) (left right : CellId) : Bool :=
  let cell (id : CellId) : Cell := (c.cells[id]?).getD {}
  (((((compare (isQueueBroker right) (isQueueBroker left)).then
    (compare (cell right).localRequestCount (cell left).localRequestCount)).then
      (compare (cell right).lastUsedRequest (cell left).lastUsedRequest)).then
        (compare (cell right).lastUsedMonoMs (cell left).lastUsedMonoMs)).then
          (compare left right)).isLE

/-- The resident cells no drain has reserved yet. -/
def unreserved (c : Core) : List CellId :=
  (c.cells.toList.filter fun (_, cell) => !cell.quiescing && cell.phase.isResident).map (·.1)

/-- Reserve one resident cell for the handoff, and start its eviction if it is
idle. -/
def drainResident (id : CellId) : Turn χ :=
  match t.cells[id]? with
  | none => t
  | some cell =>
      let requests := CoreTurn.activeOn t.toCore id
      let t := t.onCore fun t =>
        { t.putCell id { cell with quiescing := true } with
          quiescingCells := t.quiescingCells.insert id }
      let t := t.cancelCellOutputs id
      t.onCore fun t =>
        ((t.push (.cancelCellActivity id requests cell.websockets.keys
          (cell.alarm.bind AlarmState.firingOp) false)).beginEviction id true).2

/-- Retry the evictions that a drain has reserved cells for. -/
def evictQuiescing : Turn χ :=
  t.onCore fun t => t.quiescingCells.toList.foldl (fun t id => (t.beginEviction id true).2) t

/-- Release dormant brokers first, up to `room`, and return the room left. -/
def releaseQueues (room : ℕ) : Turn χ × ℕ :=
  let queues := CoreTurn.dormantCells t.toCore fun id _ => isQueueBroker id
  (t.onCore fun t => (queues.take room).foldl CoreTurn.releaseQueue t, room - queues.length)

/-- Reserve residents, up to `room`, and return the room left. -/
def drainResidents (room : ℕ) : Turn χ × ℕ :=
  let residents :=
    (unreserved t.toCore).insertionSort fun left right => drainsBefore t.toCore left right
  ((residents.take room).foldl drainResident t, room - residents.length)

/-- Release dormant cells, up to `room`. -/
def releaseDormants (room : ℕ) : Turn χ :=
  let dormant := CoreTurn.dormantCells t.toCore fun _ _ => true
  t.onCore fun t => (dormant.take room).foldl CoreTurn.releaseDormant t

/-- The drain pump, run after every event once draining: keep `maxReleases`
handoffs in flight while any owned cell remains.  A loop of the source that stops
when the ceiling is reached is a `take` of the room below it. -/
def pumpRelease : Turn χ :=
  if !t.draining then t
  else
    let room := t.config.maxReleases - t.handoffsInFlight
    let (t, room) := t.evictQuiescing.releaseQueues room
    let (t, room) := t.drainResidents room
    t.releaseDormants room

def releaseAll : Turn χ :=
  (t.onCore fun t => { t with draining := true }).pumpRelease

/-- The swap pump sees the barriers that a reader may trail. -/
def pumpSwap : Turn χ :=
  t.onCore (·.pumpSwap t.nodeAuthoritative fun id =>
    t.barriers.toList.any fun (_, barrier) => barrier.cell = id && barrier.trailable)

end Turn

end Celld
