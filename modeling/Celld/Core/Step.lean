import Celld.Core.Lease

/-!
# One event

`onEvent` is the sole state transition entry point: fold the clocks the event
carries, dispatch it, pump the queues, and arm a deadline for every operation the
event started.  A run is a list of events from the state a process starts in.
-/

namespace Celld

variable {χ : Type}

namespace Effect

/-- The operation an effect starts, if its completion has a deadline.  A restore
and a stop deliberately have none. -/
def watchedOp : Effect χ → Option OpId
  | .cell (.readOwner op _) | .cell (.readNodeLease op _ _) | .cell (.recoverNodeLog op _ _)
  | .cell (.readCapacityPeers op _) | .cell (.casOwner op _ _ _ _)
  | .cell (.startRuntime op _ _) | .cell (.publish op _ _) | .cell (.ensureDurable op _ _ _)
  | .cell (.releaseOwner op _ _) | .cell (.adoptReleased op _ _ _) | .awaitDurable op _ _ _
  | .cell (.fireAlarm op _ _ _) => some op
  | _ => none

end Effect

/-- Whether the process can accept new traffic. -/
def State.readyToServe (s : State χ) : Bool :=
  if s.fenced || s.resuming then false else s.nodeAuthoritative

namespace Turn

variable (t : Turn χ)

/-- Arm a deadline for every watched effect this event produced. -/
def armOperationDeadlines : Turn χ :=
  match t.config.operationDeadlineMs with
  | none => t
  | some deadlineMs =>
      t.pushAll ((t.effects.filterMap Effect.watchedOp).map fun op =>
        .cell (.scheduleTimer (.operationDeadline op) (satAdd t.nowMonoMs deadlineMs)))

/-- The handler of each event. -/
def handle : Event χ → Turn χ
  | .startNodeLease nowMs _ spec => t.startNodeLease nowMs spec
  | .nodeLogRecovered op result => t.onCore (·.nodeLogRecovered op result)
  | .nudgeNodeLease nowMs nowMonoMs => t.nudgeNodeLease nowMs nowMonoMs
  | .selfNodeLeaseRead op nowMs nowMonoMs result => t.readSelfNodeLease op nowMs nowMonoMs result
  | .nodeLeaseCasCompleted op nowMonoMs result stamped =>
      t.nodeLeaseCasCompleted op nowMonoMs result stamped
  | .localCellsRead result => t.onCore (·.localCellsRead result)
  | .timerFired timer nowMs nowMonoMs => t.timerFired timer nowMs nowMonoMs
  | .request request cell | .requestAt request cell _ =>
      t.onCore (·.request t.nodeAuthoritative request cell false false)
  | .capacityRequestAt request cell _ =>
      t.onCore (·.request t.nodeAuthoritative request cell true false)
  | .handoffRequestAt request cell _ _ =>
      t.onCore (·.request t.nodeAuthoritative request cell true true)
  | .webSocketRequestAt request cell websocket _ _ =>
      t.onCore (·.websocketRequest t.nodeAuthoritative request cell websocket)
  | .gateRequestAt request cell _ => t.onCore (·.gateRequest t.nodeAuthoritative request cell)
  | .workerRequest request => t.onCore (·.workerRequest request)
  | .beginPreserve => t.onCore (·.beginPreserve)
  | .cancel request => t.cancel request
  | .activityFinished request => t.activityFinished request
  | .output request channel position observed epoch
  | .outputAt request channel position observed epoch _ =>
      t.output request channel position observed epoch
  | .durableReached op result source => t.durableReached op result source
  | .ownershipVerified op result => t.ownershipVerified op result
  | .exportTicket cell epoch position ticket => t.exportTicket cell epoch position ticket
  | .webSocketOpened cell websocket kind => t.onCore (·.websocketOpened cell websocket kind)
  | .webSocketClosed cell websocket => t.onCore (·.websocketClosed cell websocket)
  | .alarmObserved cell alarm covered nowMs nowMonoMs =>
      t.onCore (·.alarmObserved cell alarm covered false nowMs nowMonoMs)
  | .alarmFinished op cell epoch nowMs nowMonoMs result =>
      t.alarmFinished op cell epoch nowMs nowMonoMs result
  | .wakeHint cell _ scope | .wakeHintAt cell _ scope _ =>
      t.onCore (·.wakeHint t.nodeAuthoritative cell scope)
  | .ownerRead op nowMs result => t.onCore (·.ownerRead op nowMs result)
  | .nodeLeaseRead op nowMs result => t.onCore (·.nodeLeaseRead op nowMs result)
  | .capacityPeersRead op nowMs result => t.onCore (·.capacityPeersRead op nowMs result)
  | .ownerCasCompleted op result => t.onCore (·.ownerCasCompleted op result)
  | .ownerReleased op result => t.onCore (·.ownerReleased op result)
  | .successorAdopted op result => t.onCore (·.successorAdopted op result)
  | .restoreCompleted op result => t.onCore (·.restoreCompleted op result)
  | .runtimeStarted op isolate generation result =>
      t.onCore (·.runtimeStarted op isolate generation result)
  | .generationChanged generation _ maxAgeMs eagerClasses =>
      t.onCore (·.generationChanged generation maxAgeMs eagerClasses)
  | .published op result => t.onCore (·.published op result)
  | .durabilityChecked op result =>
      t.onCore (·.durabilityChecked op (result.mapError fun _ => .durability))
  | .runtimeStopped op => t.onCore (·.runtimeStopped op)
  | .runtimeStopFailed op => t.onCore (·.runtimeStopFailed op (.failed .runtimeStop))
  | .runtimeStopCancelled op => t.onCore (·.runtimeStopFailed op (.cancelled .activity))
  | .evict cell => t.onCore fun t => (t.beginEviction cell false).2
  | .evictRequested request cell _ => t.onCore (·.evictRequested t.readyToServe request cell)
  | .loadSampled load nowMonoMs => t.onCore (·.loadSampled load nowMonoMs)
  | .invalidateRemote cell node epoch => t.onCore (·.invalidateRemote cell node epoch)
  | .nodeFenced => t.fenceNode .nodeLeaseExpired
  | .releaseAll => t.releaseAll
  | .rebalance cells => t.onCore (·.rebalance t.nodeAuthoritative cells)

end Turn

/-- Remember the clocks an event carries; they never run backwards here. -/
def State.foldClocks (s : State χ) (event : Event χ) : State χ :=
  { s with
    nowMonoMs := max s.nowMonoMs (event.nowMonoMs?.getD 0)
    nowMs := max s.nowMs (event.nowMs?.getD 0) }

/-- The turn in which an event is handled, before the deadlines are armed. -/
def State.turn (s : State χ) (event : Event χ) : Turn χ :=
  let t := Turn.handle { s.foldClocks event with effects := [] } event
  ((t.onCore (·.pumpActivations)).pumpRelease).pumpSwap

/-- **The sole state transition entry point.** -/
def onEvent (s : State χ) (event : Event χ) : State χ × List (Effect χ) :=
  let t := (s.turn event).armOperationDeadlines
  (t.toState, t.effects)

/-- The state after a list of events. -/
def runFrom (s : State χ) (events : List (Event χ)) : State χ :=
  events.foldl (fun s event => (onEvent s event).1) s

/-- The state of a process after a list of events. -/
def run (node : NodeId) (config : Config) (events : List (Event χ)) : State χ :=
  runFrom (State.new node config) events

theorem runFrom_append (s : State χ) (before after : List (Event χ)) :
    runFrom s (before ++ after) = runFrom (runFrom s before) after :=
  List.foldl_append

/-- **The run rule.** What holds of a starting process and is kept by every event
holds after every run. -/
theorem run_induction {P : State χ → Prop} {node : NodeId} {config : Config}
    (start : P (State.new node config)) (step : ∀ s event, P s → P (onEvent s event).1)
    (events : List (Event χ)) : P (run node config events) := by
  induction events using List.reverseRecOn with
  | nil => exact start
  | append_singleton events event ih =>
    have split : run node config (events ++ [event])
        = (onEvent (run node config events) event).1 := runFrom_append _ _ _
    rw [split]
    exact step _ _ ih

/-- Every effect a list of events raises, in order. -/
def effectsFrom (s : State χ) : List (Event χ) → List (Effect χ)
  | [] => []
  | event :: events => (onEvent s event).2 ++ effectsFrom (onEvent s event).1 events

end Celld
