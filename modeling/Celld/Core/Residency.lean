import Celld.Core.State

/-!
# Requests, activity and eviction

The bookkeeping of routed requests (`complete_request`, `finish_requests`,
`activate_request`), the eviction entry point `begin_eviction` with the order
that picks its victims, and the walk down that shedding performs.  Everything
here lives in the core: no handler of this file sees a barrier.
-/

namespace Celld

/-- The first least element of a list, as `Iterator::min_by_key` picks it. -/
def minBy {α : Type} (lt : α → α → Bool) : List α → Option α
  | [] => none
  | a :: as => some (as.foldl (fun best x => if lt x best then x else best) a)

theorem minBy_mem {α : Type} {lt : α → α → Bool} {l : List α} {a : α}
    (h : minBy lt l = some a) : a ∈ l := by
  have key : ∀ (as : List α) (b : α),
      as.foldl (fun best x => if lt x best then x else best) b ∈ b :: as := by
    intro as
    induction as with
    | nil => intro b; simp
    | cons x xs ih =>
      intro b
      rw [List.foldl_cons]
      split
      · exact List.mem_cons_of_mem _ (ih x)
      · rcases List.mem_cons.mp (ih b) with hb | hx
        · rw [hb]; exact List.mem_cons_self
        · exact List.mem_cons_of_mem _ (List.mem_cons_of_mem _ hx)
  cases l with
  | nil => cases h
  | cons b bs =>
    rw [← Option.some.inj h]
    exact key bs b

namespace Core

variable (c : Core)

/-- Residency is a hard cap, counted and never sampled; memory pressure is the
only sampled fact that refuses admission. -/
def hasCapacity : Bool := c.occupied < c.config.maxResident && !c.shedding

/-- The cell runs a request, or holds a socket that cannot outlive it. -/
def isActive (id : CellId) : Bool :=
  c.activeCells.contains id || (c.cells[id]?.any Cell.hasPinningSocket)

/-- Whether `id` runs active work other than an admitted gate. -/
def runsGateSource (id : CellId) : Bool :=
  (c.admittedGateCells[id]?).getD 0 < (c.activeCells[id]?).getD 0

/-- Resident, doing no work, and holding nothing that must survive in memory. -/
def isHibernatable (id : CellId) : Bool :=
  (c.cells[id]?.any (·.phase.isResident)) && !c.isActive id

/-- Whether a cell takes the handoff path. -/
def handsOff (cell : Cell) : Bool := c.draining || cell.handoff

/-- Does an eviction made for room hand the cell away? -/
def rebalances : Bool := c.config.ownershipOnEvict = .release

/-- A drain may hold as many evictions as releases. -/
def evictionCeiling : ℕ :=
  if c.draining then max c.config.maxReleases c.config.maxEvictions else c.config.maxEvictions

/-- Cell movements past nomination and before a successor acknowledgement. -/
def handoffsInFlight : ℕ :=
  satAdd (satAdd (satAdd c.quiescingCells.size c.evictionPermits.size) c.releasingCells.size)
    c.adoptingCells.size

/-- An alarm about to fire is not worth an eviction. -/
def alarmIsImminent (cell : Cell) : Bool :=
  match cell.alarm with
  | none => false
  | some alarm => 0 ≤ alarm.atMs && alarm.atMs.toNat - c.nowMs ≤ c.config.alarmResidentMs

/-- Every request of the cell is an ownership-only handoff. -/
def ownershipOnly (cell : Cell) : Bool :=
  !cell.requests.isEmpty && cell.requests.toList.all (c.handoffRequests.contains ·)

end Core

namespace CoreTurn

variable (t : CoreTurn) (id : CellId) (cell : Cell)

/-! ## Requests -/

/-- Record `request` as active on `cell`, with the reverse index. -/
def activateRequest (request : RequestId) (cell : CellId) : CoreTurn :=
  { t with
    activeCells := t.activeCells.insert cell ((t.activeCells[cell]?).getD 0 + 1)
    activeRequests := t.activeRequests.insert request cell }

/-- Decrement a count, forgetting it at zero. -/
def decrement (counts : BTreeMap CellId ℕ) (cell : CellId) : BTreeMap CellId ℕ :=
  match counts[cell]? with
  | none => counts
  | some count => if count - 1 = 0 then counts.erase cell else counts.insert cell (count - 1)

/-- Drop `request` from the active set. -/
def deactivateRequest (request : RequestId) : Option CellId × CoreTurn :=
  match t.activeRequests[request]? with
  | none => (none, t)
  | some cell =>
      (some cell,
        { t with
          activeRequests := t.activeRequests.erase request
          activeCells := decrement t.activeCells cell
          admittedGates := t.admittedGates.erase request
          admittedGateCells :=
            if t.admittedGates.contains request then decrement t.admittedGateCells cell
            else t.admittedGateCells })

/-- Edit a cell in place, if the table has it. -/
def modifyCell (f : Cell → Cell) : CoreTurn :=
  match t.cells[id]? with
  | none => t
  | some cell => t.putCell id (f cell)

/-- Answer one request. -/
def completeRequest (request : RequestId) (result : Except RequestError Route) : CoreTurn :=
  let t := { t with
    capacityRequests := t.capacityRequests.erase request
    handoffRequests := t.handoffRequests.erase request }
  let t :=
    match result with
    | .ok .local =>
        let t := t.activateRequest request id
        t.modifyCell id (·.recordLocalRequest request t.nowMonoMs)
    | .ok (.remote _ _ _ _) =>
        { t with activity.proxied := satAdd t.activity.proxied 1 }
    | .error _ => t
  t.push (.complete request result)

/-- Answer one of the requests waiting on a cell held out of the table. -/
def finishRequest (id : CellId) (result : Except RequestError Route)
    (p : Cell × CoreTurn) (request : RequestId) : Cell × CoreTurn :=
  let t := { p.2 with requestCells := p.2.requestCells.erase request }
  let cell :=
    if result = .ok .local then p.1.recordLocalRequest request t.nowMonoMs else p.1
  (cell, t.completeRequest id request result)

/-- Answer every request waiting on a cell held out of the table. -/
def finishRequests (result : Except RequestError Route) : Cell × CoreTurn :=
  cell.requests.toList.foldl (finishRequest id result) ({ cell with requests := ∅ }, t)

/-- The next writer's epoch.  Exhaustion fails closed on every acquisition
path. -/
def nextWriterEpoch (previous : Epoch) : Except (Cell × CoreTurn) Epoch :=
  match checkedSucc previous with
  | some epoch => .ok epoch
  | none =>
      let (cell, t) := t.setPhase cell .inactive
      .error (t.finishRequests id cell (.error .resolveFailed))

def recordAcquisition (spec : RestoreSpec) : CoreTurn :=
  { t with
    activity.acquired := satAdd t.activity.acquired 1
    activity.expiredOwnerLeases :=
      if spec.tookOver then satAdd t.activity.expiredOwnerLeases 1
      else t.activity.expiredOwnerLeases
    activity.advancedEpochs :=
      if 1 < spec.epoch then satAdd t.activity.advancedEpochs 1 else t.activity.advancedEpochs }

/-! ## Evictions -/

/-- Settle the callers bound to an eviction operation. -/
def finishEviction (op : OpId) (result : Except EvictError EvictSuccess) : CoreTurn :=
  match t.evictionNotifications[op]? with
  | none => t
  | some requests =>
      { t with evictionNotifications := t.evictionNotifications.erase op }.pushAll
        (requests.toList.map (.evictionFinished · result))

/-- Return a voluntary eviction to service as one transition. -/
def cancelEviction (epoch : Epoch) (reason : EvictCancellation) : Cell × CoreTurn :=
  let t :=
    match cell.phase.op? with
    | some op => (t.dropOp op).finishEviction op (.error (.cancelled reason))
    | none => t
  let (cell, t) := t.setPhase cell (.resident epoch)
  (cell, { t with evictionPermits := t.evictionPermits.erase id })

/-- A cell that can serve a Worker request: published, quiet and not leaving. -/
def workerEpoch (c : Core) (id : CellId) (cell : Cell) : Option Epoch :=
  match cell.phase with
  | .resident epoch | .ensuringDurability _ epoch =>
      if cell.quiescing || c.isActive id || cell.isFiring then none else some epoch
  | _ => none

/-- Route a Worker request to the next serving cell after the cursor, wrapping
around the table. -/
def workerRequest (request : RequestId) : CoreTurn :=
  let serving := t.cells.toList.filterMap fun (id, cell) =>
    (workerEpoch t.toCore id cell).map fun epoch => (id, epoch)
  let route := (serving.find? fun (id, _) => t.workerCursor.all (· < id)).or serving.head?
  match route with
  | none => t.push (.completeWorker request none)
  | some (id, epoch) =>
      let t := { t with workerCursor := some id }.activateRequest request id
      let t :=
        match t.cells[id]? with
        | none => t
        | some cell =>
            let t := t.dropCell id
            let (cell, t) :=
              match cell.phase with
              | .ensuringDurability _ _ => t.cancelEviction id cell epoch .activity
              | _ => (cell, t)
            t.putCell id (cell.recordLocalRequest request t.nowMonoMs)
      t.push (.completeWorker request (some ⟨id, epoch⟩))

/-- Start an eviction: prove the replica durable before the runtime stops. -/
def beginEviction (rebalance : Bool) : Except EvictRefusal OpId × CoreTurn :=
  match t.cells[id]? with
  | none => (.error .cellTransitioning, t)
  | some cell =>
      -- Only while there is room to spare; under pressure the node takes the wake.
      if t.alarmIsImminent cell && !t.shedding && !t.draining then (.error .alarmImminent, t)
      else if t.isActive id then (.error .cellActive, t)
      else
        match cell.phase with
        | .resident epoch =>
            if !cell.alarmCovered then (.error .alarmUncovered, t)
            else if t.evictionCeiling ≤ t.evictionPermits.size then (.error .concurrencyLimit, t)
            else
              let (op, t) := t.cellOp id
              let (cell, t) := t.setPhase { cell with evictRebalance := rebalance }
                (.ensuringDurability op epoch)
              let t := t.putCell id cell
              let t := { t with
                quiescingCells := t.quiescingCells.erase id
                evictionPermits := t.evictionPermits.insert id }
              (.ok op, t.push (.ensureDurable op id epoch (!t.draining)))
        | _ => (.error .cellTransitioning, t)

end CoreTurn

namespace Core

variable (c : Core)

/-- How many cells of the table an isolate holds. -/
def isolateOccupancy (isolate : HeapId) : ℕ :=
  (c.cells.toList.filter (·.2.isolate = some isolate)).length

/-- The emptiness rank of the isolate that holds a cell; a cell the shell never
placed sorts last. -/
def emptiest (cell : Cell) : ℕ :=
  match cell.isolate with
  | some isolate => c.isolateOccupancy isolate
  | none => u64Max

/-- The shed order: the isolate closest to empty, never-refused first, least
recently used first, the id last. -/
def shedsBefore (left right : CellId × Cell) : Bool :=
  ((((compare (c.emptiest left.2) (c.emptiest right.2)).then
    (compare left.2.evictionRefusedMonoMs right.2.evictionRefusedMonoMs)).then
      (compare left.2.lastUsedMonoMs right.2.lastUsedMonoMs)).then
        (compare left.1 right.1)).isLT

/-- The shed victim among the cells `keep` accepts. -/
def shedCandidateWhere (keep : Cell → Bool) : Option CellId :=
  (minBy c.shedsBefore
    (c.cells.toList.filter fun (id, cell) =>
      c.isHibernatable id && keep cell && cell.alarmCovered)).map (·.1)

def shedCandidate : Option CellId := c.shedCandidateWhere fun _ => true

/-- Is there a heap this walk down can still take back whole, other than the
last one? -/
def canEmptyAnIsolate : Bool :=
  let placed := c.cells.toList.filterMap fun (id, cell) =>
    cell.isolate.map fun isolate => (isolate, c.isHibernatable id && cell.alarmCovered)
  let isolates := (placed.map (·.1)).dedup
  1 < isolates.length &&
    isolates.any fun isolate => placed.all fun (other, canGo) => other ≠ isolate || canGo

/-- Can shedding still get the sample down to the resume line? -/
def sheddingCanReachResumeLine (cut : ShedCut) (sampleBytes : ℕ) : Bool :=
  match c.config.pressure.resumeLine cut.metric with
  | none => false
  | some resumeLine =>
      if c.canEmptyAnIsolate then true
      else
        let removed := cut.cells - c.occupied
        if removed = 0 then true
        else
          let returned := cut.bytes - sampleBytes
          let projected := returned * c.occupied / removed
          sampleBytes - projected ≤ resumeLine

end Core

namespace CoreTurn

variable (t : CoreTurn)

/-! ## Shedding -/

/-- Cut one idle resident for a waiter that no eviction in flight will admit. -/
def shedOne : CoreTurn :=
  if t.shedding || t.capacityWaiters.length ≤ t.evictionPermits.size
      || t.config.maxEvictions ≤ t.evictionPermits.size then t
  else
    match t.shedCandidate with
    | some victim => (t.beginEviction victim t.rebalances).2
    | none => t

/-- The idle test of `evict_idle`: unused for a whole idle period, and not
refused within it. -/
def isIdle (nowMonoMs idleMs : ℕ) (cell : Cell) : Bool :=
  idleMs ≤ nowMonoMs - cell.lastUsedMonoMs &&
    (match cell.evictionRefusedMonoMs with
      | none => true
      | some refused => idleMs ≤ nowMonoMs - refused)

/-- The loop of `evict_idle`.  Every pass that continues turns one resident cell
of the table into an evicting one, so the table's size bounds the passes. -/
def evictIdleLoop (nowMonoMs idleMs : ℕ) : ℕ → CoreTurn → CoreTurn
  | 0, t => t
  | fuel + 1, t =>
      if t.evictionPermits.size < t.config.maxEvictions then
        match t.shedCandidateWhere (isIdle nowMonoMs idleMs) with
        | none => t
        | some candidate =>
            match t.beginEviction candidate false with
            | (.error _, t) => t
            | (.ok _, t) => evictIdleLoop nowMonoMs idleMs fuel t
      else t

/-- Release cells that have gone cold, with nothing asking for the room. -/
def evictIdle (nowMonoMs : ℕ) : CoreTurn :=
  match t.config.idleEvictMs with
  | none => t
  | some idleMs => if t.shedding then t else evictIdleLoop nowMonoMs idleMs t.cells.size t

/-- The loop of `shed_toward_floor`, bounded as `evictIdleLoop` is. -/
def shedTowardFloorLoop : ℕ → CoreTurn → CoreTurn
  | 0, t => t
  | fuel + 1, t =>
      if t.evictionPermits.size < t.config.maxEvictions
          && t.shedFloor < t.occupied - t.evictionPermits.size then
        match t.shedCandidate with
        | none => t
        | some victim =>
            match t.beginEviction victim t.rebalances with
            | (.error _, t) => t
            | (.ok _, t) => shedTowardFloorLoop fuel t
      else t

/-- Continue a latched walk down as each eviction lands. -/
def shedTowardFloor : CoreTurn :=
  if !t.shedding || t.occupied ≤ t.shedFloor then t
  else shedTowardFloorLoop t.cells.size t

end CoreTurn

end Celld
