import Celld.Core.Pressure

/-!
# The authoritative state of one node

`Core` is everything the cells' lifecycle reads and writes; `State` adds the
output gate's barriers and the node lease.  The source keeps one flat struct.
The split is a reading aid with a consequence: a function typed over `Core`
cannot touch a barrier or the node's authority, so half of the frame conditions
of this development are typing judgements.

A handler of the source takes `&mut self` and pushes onto `effects`.  Here it is
a function on a *turn*: the state together with the effects pushed so far while
the current event is handled (`CoreTurn`, `Turn`).  A handler that holds a cell
taken out of the table by `cells.remove` takes and returns that cell beside the
turn, and the table it sees lacks the cell, exactly as in the source.
-/

namespace Celld

/-! ## Phases -/

/-- The two local upper bounds on reusing an observed remote lease. -/
structure RemoteLeaseDeadline where
  expiresMs : ℕ
  expiresMonoMs : ℕ
  deriving DecidableEq

namespace RemoteLeaseDeadline

def observed (expiresMs issuedMonoMs receivedMs : ℕ) : RemoteLeaseDeadline where
  expiresMs := expiresMs
  expiresMonoMs := satAdd issuedMonoMs (expiresMs - receivedMs)

def live (deadline : RemoteLeaseDeadline) (nowMs nowMonoMs : ℕ) : Bool :=
  nowMs < deadline.expiresMs && nowMonoMs < deadline.expiresMonoMs

end RemoteLeaseDeadline

/-- The evidence that permits another request to reuse a remote route. -/
inductive RemoteCache where
  | ownerLease (deadline : RemoteLeaseDeadline)
  | capacitySample (sampledMs : ℕ) (deadline : RemoteLeaseDeadline)
  | uncached
  deriving DecidableEq

def RemoteCache.reusable (cache : RemoteCache) (nowMs nowMonoMs : ℕ) : Bool :=
  match cache with
  | .ownerLease deadline | .capacitySample _ deadline => deadline.live nowMs nowMonoMs
  | .uncached => false

/-- A live routing authority shared by every cell of one owner. -/
structure CachedNodeLease where
  record : NodeLeaseRecord
  deadline : RemoteLeaseDeadline
  deriving DecidableEq

/-- The lifecycle phase of one cell on this node. -/
inductive Phase where
  | inactive
  /-- Cold demand queued behind `maxActivations`, before any I/O begins. -/
  | waitingActivation
  | readingOwner (op : OpId)
  /-- `issuedMs` is the wall instant the read was issued: a returned snapshot
  can prove expiry only relative to its invocation. -/
  | readingNodeLease (op : OpId) (owner : OwnerRecord) (issuedMs issuedMonoMs : ℕ)
  /-- The takeover interlock: the dead owner's log is being recovered. -/
  | recoveringOwnerLog (op : OpId) (owner : OwnerRecord)
  | waitingOwnerLogRecovery (generation : ℕ)
  | readingCapacity (op : OpId) (claim : Claim) (issuedMonoMs : ℕ)
  | waitingCapacity
  /-- `dormant`: the claim lands dormant, so it holds no residency slot. -/
  | acquiring (op : OpId) (claim : Claim) (dormant : Bool)
  | reconcilingAcquire (op : OpId) (claim : Claim) (dormant : Bool)
  | restoring (op : OpId) (spec : RestoreSpec)
  | starting (op : OpId) (epoch : Epoch)
  | publishing (op : OpId) (epoch : Epoch)
  | ensuringDurability (op : OpId) (epoch : Epoch)
  | cleaning (op : OpId) (epoch : Epoch) (cause : StopCause)
  /-- Out of memory, still owned here. -/
  | dormant (epoch : Epoch)
  | adopting (op : OpId) (releasedEpoch : Epoch)
  | resident (epoch : Epoch)
  | remote (node : NodeId) (addr : String) (epoch : Epoch) (peerProtocol : ℕ)
      (cache : RemoteCache)
  | fenced
  deriving DecidableEq

namespace Phase

def isResident : Phase → Bool
  | .resident _ => true
  | _ => false

def isDormant : Phase → Bool
  | .dormant _ => true
  | _ => false

/-- The phases that count against `maxResident`. -/
def occupiesCapacity : Phase → Bool
  | .acquiring _ _ parked | .reconcilingAcquire _ _ parked => !parked
  | .restoring _ _ | .starting _ _ | .publishing _ _ | .ensuringDurability _ _
  | .cleaning _ _ _ | .resident _ => true
  | _ => false

/-- The phases that keep an activation permit. -/
def holdsActivation : Phase → Bool
  | .readingOwner _ | .readingNodeLease _ _ _ _ | .recoveringOwnerLog _ _
  | .readingCapacity _ _ _ | .waitingCapacity | .acquiring _ _ _
  | .reconcilingAcquire _ _ _ | .restoring _ _ | .starting _ _ | .publishing _ _
  | .cleaning _ _ _ => true
  | _ => false

/-- The in-flight operation a phase is waiting on, if it is waiting on one. -/
def op? : Phase → Option OpId
  | .readingOwner op | .readingNodeLease op _ _ _ | .recoveringOwnerLog op _
  | .readingCapacity op _ _ | .acquiring op _ _ | .reconcilingAcquire op _ _
  | .restoring op _ | .starting op _ | .publishing op _ | .ensuringDurability op _
  | .cleaning op _ _ | .adopting op _ => some op
  | _ => none

/-- The epoch, only after this node has confirmed its ownership CAS. -/
def ownedEpoch : Phase → Option Epoch
  | .restoring _ spec => some spec.epoch
  | .starting _ epoch | .publishing _ epoch | .ensuringDurability _ epoch
  | .cleaning _ epoch _ | .dormant epoch | .resident epoch => some epoch
  | _ => none

/-- The epoch of the runtime a phase may hold. -/
def runtimeEpoch : Phase → Option Epoch
  | .publishing _ epoch | .ensuringDurability _ epoch | .cleaning _ epoch _
  | .resident epoch => some epoch
  | _ => none

/-- The phases a generation swap lives on. -/
def onSwapPath : Phase → Bool
  | .resident _ | .cleaning _ _ .swap | .starting _ _ | .publishing _ _ => true
  | _ => false

end Phase

/-! ## Cells -/

/-- What a capacity waiter will do once it is admitted. -/
inductive Activation where
  | claim (claim : Claim)
  | restore (spec : RestoreSpec)
  deriving DecidableEq

/-- What an activation waiter will do once it is admitted. -/
inductive ColdStart where
  | readOwner
  | restore (spec : RestoreSpec)
  deriving DecidableEq

/-- What a node does for a cell that needs a residency slot it does not have. -/
inductive WhenFull where
  | shedToAdmit
  | holdResidents
  deriving DecidableEq

inductive AlarmState where
  | armed (atMs : Ms) (generation : ℕ) (covered : Bool)
  /-- `observed` is the newest runtime observation that arrived before the
  firing's durability result. -/
  | firing (op : OpId) (atMs : Ms) (generation : ℕ) (covered : Bool)
      (observed : Option (AlarmSnapshot × Bool))
  deriving DecidableEq

namespace AlarmState

def atMs : AlarmState → Ms
  | .armed atMs _ _ | .firing _ atMs _ _ _ => atMs

def firingOp : AlarmState → Option OpId
  | .armed _ _ _ => none
  | .firing op _ _ _ _ => some op

/-- Armed, with a durable wake entry. -/
def isCovered : AlarmState → Bool
  | .armed _ _ covered => covered
  | .firing _ _ _ _ _ => false

end AlarmState

/-- A cell's coordination record. -/
structure Cell where
  phase : Phase := .inactive
  /-- The highest position a verified proof has covered in this residency, and
  the epoch it belongs to. -/
  provenPosition : Option (Epoch × ℕ) := none
  ownerLogRecoveryAttempts : ℕ := 0
  quiescing : Bool := false
  requests : BTreeSet RequestId := ∅
  websockets : BTreeMap WebSocketId WebSocketKind := ∅
  waitingFor : Option Activation := none
  waitingActivation : Option ColdStart := none
  releasing : Option OpId := none
  evictRebalance : Bool := false
  heldEpoch : Option Epoch := none
  handoff : Bool := false
  alarm : Option AlarmState := none
  alarmSource : Option PublicationId := none
  alarmWake : Bool := false
  resumeDemand : Bool := false
  confirming : Bool := false
  evictionRefusedMonoMs : Option ℕ := none
  isolate : Option HeapId := none
  generation : ℕ := 0
  swapping : Bool := false
  swapCancelled : Bool := false
  queuedGeneration : Option ℕ := none
  lastUsedMonoMs : ℕ := 0
  lastUsedRequest : RequestId := 0
  localRequestCount : ℕ := 0
  deriving DecidableEq

namespace Cell

variable (cell : Cell)

/-- A regular or outbound socket pins its cell. -/
def hasPinningSocket : Bool := cell.websockets.toList.any (·.2.pins)

def outboundCount : ℕ :=
  (cell.websockets.toList.filter (·.2 = .outbound)).length

def isFiring : Bool := (cell.alarm.bind AlarmState.firingOp).isSome

/-- No alarm, or an armed one with a durable wake entry. -/
def alarmCovered : Bool :=
  match cell.alarm with
  | none => true
  | some alarm => alarm.isCovered

/-- Caller, alarm or startup demand for an activation. -/
def wanted : Bool :=
  !cell.requests.isEmpty || cell.alarmWake || cell.resumeDemand

def recordLocalRequest (request : RequestId) (nowMonoMs : ℕ) : Cell :=
  { cell with
    lastUsedMonoMs := nowMonoMs
    lastUsedRequest := max cell.lastUsedRequest request
    localRequestCount := cell.localRequestCount + 1 }

/-- The part of `set_phase` that concerns the cell.  Ownership follows the
confirmed phases and survives the transient wake phases between them; every
residency starts with no proof on record; a swap lives on exactly the phases of
`onSwapPath`. -/
def enter (phase : Phase) : Cell :=
  { cell with
    phase := phase
    quiescing := if phase.isResident then cell.quiescing else false
    heldEpoch :=
      match phase.ownedEpoch with
      | some epoch => some epoch
      | none =>
          match phase with
          | .inactive | .remote _ _ _ _ _ | .fenced | .adopting _ _ => none
          | _ => cell.heldEpoch
    provenPosition := if phase.isResident then none else cell.provenPosition
    swapping := if phase.onSwapPath then cell.swapping else false
    swapCancelled := if phase.onSwapPath then cell.swapCancelled else false }

@[simp] theorem enter_phase (phase : Phase) : (cell.enter phase).phase = phase := rfl

end Cell

/-! ## The core -/

/-- Routed requests and the activity they hold on cells. -/
structure Requests where
  requestCells : BTreeMap RequestId CellId := ∅
  activeRequests : BTreeMap RequestId CellId := ∅
  activeCells : BTreeMap CellId ℕ := ∅
  admittedGates : BTreeSet RequestId := ∅
  admittedGateCells : BTreeMap CellId ℕ := ∅
  capacityRequests : BTreeSet RequestId := ∅
  handoffRequests : BTreeSet RequestId := ∅

/-- The activation and capacity queues. -/
structure Admission where
  activationWaiters : List CellId := []
  activationPermits : BTreeSet CellId := ∅
  capacityWaiters : List CellId := []

/-- Evictions in flight and the callers bound to them. -/
structure Evictions where
  evictionPermits : BTreeSet CellId := ∅
  evictionNotifications : BTreeMap OpId (BTreeSet RequestId) := ∅

/-- The last cut the walk down took. -/
structure ShedCut where
  metric : Metric
  bytes : ℕ
  cells : ℕ

/-- The shedding latch and the floor of the current walk down. -/
structure Shedding where
  shedFloor : ℕ := 0
  shedCut : Option ShedCut := none
  latches : Latches := {}
  shedding : Bool := false
  memoryHeadroom : Bool := false
  shedReason : Option String := none

/-- The shutdown handoff and its bounded work queues. -/
structure Handoffs where
  draining : Bool := false
  quiescingCells : BTreeSet CellId := ∅
  releasingCells : BTreeSet CellId := ∅
  adoptingCells : BTreeSet CellId := ∅

/-- The local inventory a started process resumes or confirms. -/
structure Startup where
  resuming : Bool := false
  resumingCells : BTreeSet CellId := ∅
  confirming : Bool := false
  confirmingCells : BTreeSet CellId := ∅

/-- The application generation the node serves. -/
structure Swaps where
  currentGeneration : ℕ := 0
  generationChangedMonoMs : ℕ := 0
  swapMaxAgeMs : ℕ := 0
  swapEagerClasses : BTreeSet String := ∅

/-- Reservations and refusals against advisory load samples. -/
structure CapacityBook where
  capacityReservations : BTreeMap NodeId ℕ := ∅
  capacitySamples : BTreeMap NodeId ℕ := ∅
  capacityRejections : BTreeMap NodeId ℕ := ∅

/-- In-flight operations that completion events name. -/
structure Operations where
  nextOp : OpId := 1
  nextTimerGeneration : ℕ := 1
  retiredRuntimeOps : BTreeMap OpId (CellId × Epoch) := ∅
  timedOutRuntimeStarts : BTreeSet OpId := ∅
  /-- The cell each in-flight cell-scoped operation belongs to. -/
  cellOps : BTreeMap OpId CellId := ∅

/-- The clocks the core was last told: it never reads one itself. -/
structure Clocks where
  nowMs : ℕ := 0
  nowMonoMs : ℕ := 0

/-- All coordination state the cells' lifecycle reads and writes. -/
structure Core extends Requests, Admission, Evictions, Shedding, Handoffs, Startup, Swaps,
    CapacityBook, Operations, Clocks where
  node : NodeId
  config : Config
  fenced : Bool := false
  cells : BTreeMap CellId Cell := ∅
  occupied : ℕ := 0
  workerCursor : Option CellId := none
  activity : ActivitySnapshot := {}
  nodeLeaseCache : BTreeMap NodeId CachedNodeLease := ∅

/-- A core together with the effects pushed while the current event is handled. -/
structure CoreTurn extends Core where
  effects : List CellEffect := []

namespace CoreTurn

variable (t : CoreTurn) (id : CellId) (cell : Cell)

def push (effect : CellEffect) : CoreTurn :=
  { t with effects := t.effects ++ [effect] }

def pushAll (effects : List CellEffect) : CoreTurn :=
  { t with effects := t.effects ++ effects }

/-- `self.cells.insert`. -/
def putCell : CoreTurn :=
  { t with cells := t.cells.insert id cell }

/-- `self.cells.remove`. -/
def dropCell : CoreTurn :=
  { t with cells := t.cells.erase id }

/-- `State::op`: the next operation id. -/
def op : OpId × CoreTurn := (t.nextOp, { t with nextOp := t.nextOp + 1 })

/-- `State::cell_op`: allocate an op that will live in a slot of `cell`. -/
def cellOp (cell : CellId) : OpId × CoreTurn :=
  (t.nextOp, { t with nextOp := t.nextOp + 1, cellOps := t.cellOps.insert t.nextOp cell })

def dropOp (op : OpId) : CoreTurn := { t with cellOps := t.cellOps.erase op }

/-- Allocate a timer generation. -/
def timerGeneration : ℕ × CoreTurn :=
  (t.nextTimerGeneration, { t with nextTimerGeneration := t.nextTimerGeneration + 1 })

/-- `set_phase`: the one gate every phase change passes through.  It keeps
`occupied` equal to the number of cells in a capacity-occupying phase. -/
def setPhase (phase : Phase) : Cell × CoreTurn :=
  (cell.enter phase,
    { t with
      occupied :=
        match cell.phase.occupiesCapacity, phase.occupiesCapacity with
        | false, true => t.occupied + 1
        | true, false => t.occupied - 1
        | _, _ => t.occupied })

/-- `State::take_cell_op`: resolve a completion's op to its cell, consuming the
index entry, but only when the cell still holds the op. -/
def takeCellOp (op : OpId) (predicate : Cell → Bool) : Option (CellId × Cell × CoreTurn) :=
  match t.cellOps[op]? with
  | none => none
  | some id =>
      match t.cells[id]? with
      | none => none
      | some cell => if predicate cell then some (id, cell, t.dropOp op) else none

end CoreTurn

/-! ## The output gate and the node lease -/

/-- One withheld output: which request raised it, and which way it leaves. -/
structure Held (χ : Type) where
  request : RequestId
  channel : χ
  deriving DecidableEq

/-- What waits behind an output gate. -/
inductive GateOwner (χ : Type) where
  | output (held : Held χ)
  | alarm (alarm : OpId) (snapshot : AlarmSnapshot) (covered : Bool)
  | export (ticket : ℕ)
  deriving DecidableEq

/-- An export ticket waiting on another barrier's ownership read. -/
structure Rider where
  ticket : ℕ
  position : ℕ
  deriving DecidableEq

/-- One local write held open by the output gate. -/
structure Barrier (χ : Type) where
  owner : GateOwner χ
  cell : CellId
  epoch : Epoch
  position : ℕ
  followers : List (Held χ) := []
  /-- Whether the ownership read for a bucket proof has been asked. -/
  verifying : Bool := false
  riders : List Rider := []
  deriving DecidableEq

namespace Barrier

variable {χ : Type}

def isExport (barrier : Barrier χ) : Bool :=
  match barrier.owner with
  | .export _ => true
  | _ => false

def isOutput (barrier : Barrier χ) : Bool :=
  match barrier.owner with
  | .output _ => true
  | _ => false

/-- Whether a read-only output may wait on this barrier's verdict. -/
def trailable (barrier : Barrier χ) : Bool := !barrier.isExport

/-- The outputs a barrier withholds: its owner, if that is one, and its
followers. -/
def holds (barrier : Barrier χ) (request : RequestId) : Bool :=
  (match barrier.owner with
    | .output held => held.request = request
    | _ => false) ||
  barrier.followers.any (·.request = request)

end Barrier

/-- A lease this process published and may act on. -/
structure HeldNodeLease where
  spec : NodeLeaseSpec
  record : NodeLeaseRecord
  lastOkMonoMs : ℕ
  lastAttemptMonoMs : ℕ
  timerGeneration : ℕ
  deriving DecidableEq

/-- A lease write or readback in flight. -/
structure PendingNodeLease where
  spec : NodeLeaseSpec
  desired : NodeLeaseRecord
  prior : Option HeldNodeLease
  readbackOnly : Bool
  /-- The monotonic instant `desired.expiresMs` was computed from. -/
  anchorMonoMs : ℕ
  resumeLocal : Bool
  deriving DecidableEq

/-- What the node can prove about its own lease. -/
inductive NodeAuthority where
  | unstarted
  | reading (op : OpId) (pending : PendingNodeLease)
  | writing (op : OpId) (pending : PendingNodeLease)
  | held (lease : HeldNodeLease)
  | retrying (spec : NodeLeaseSpec) (generation : ℕ)
  | failed
  | fenced
  deriving DecidableEq

/-- The lease this process may still be acting on: the held one, or the prior
of an attempt in flight. -/
def NodeAuthority.lease? : NodeAuthority → Option HeldNodeLease
  | .held lease => some lease
  | .reading _ pending | .writing _ pending => pending.prior
  | _ => none

/-- All authoritative coordination state of one node. -/
structure State (χ : Type) extends Core where
  barriers : BTreeMap OpId (Barrier χ) := ∅
  gatePinned : BTreeSet RequestId := ∅
  nodeAuthority : NodeAuthority := .unstarted
  nudgePending : Bool := false

/-- `State::new`. -/
def State.new {χ : Type} (node : NodeId) (config : Config) : State χ where
  node := node
  config := config

/-- The lease is fresh while its time to live has not elapsed since the instant
its published expiry was computed from. -/
def HeldNodeLease.fresh (lease : HeldNodeLease) (nowMonoMs : ℕ) : Bool :=
  nowMonoMs - lease.lastOkMonoMs < lease.spec.ttlMs

/-- **Authority** is the lease's published validity evaluated at ask time on the
monotonic clock, not the `held` variant. -/
def State.nodeAuthoritative {χ : Type} (s : State χ) : Bool :=
  if !s.config.requireNodeLease then !s.fenced
  else
    match s.nodeAuthority.lease? with
    | some lease => lease.fresh s.nowMonoMs
    | none => false

/-- A state together with the effects pushed while the current event is
handled. -/
structure Turn (χ : Type) extends State χ where
  effects : List (Effect χ) := []

namespace Turn

variable {χ : Type} (t : Turn χ)

def push (effect : Effect χ) : Turn χ :=
  { t with effects := t.effects ++ [effect] }

/-- Run a handler of the core inside a turn of the whole state. -/
def onCore (handler : CoreTurn → CoreTurn) : Turn χ :=
  let core := handler { t.toCore with effects := [] }
  { t with toCore := core.toCore, effects := t.effects ++ core.effects.map .cell }

/-- `State::op` on the whole state. -/
def op : OpId × Turn χ := (t.nextOp, { t with nextOp := t.nextOp + 1 })

end Turn

end Celld
