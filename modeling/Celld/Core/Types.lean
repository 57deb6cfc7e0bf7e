import Mathlib

/-!
# The vocabulary of the decision core

Everything the core is told, everything it answers with, and the records it
reads and writes (`crates/logic/types.rs`).  Nothing is decided here: `Event`
is the only way in, `Effect` the only way out.

### Conventions

* A `u64` or `usize` is a `ℕ`.  Where the source saturates, the model saturates
  at `u64Max` (`satAdd`); where it checks, the model checks; a `saturating_sub`
  is the truncated subtraction of `ℕ`.  Operation ids, timer generations and
  request counts panic on overflow in the source, so a run that would exhaust
  them has no continuation, and the model lets them grow.
* `i64` wall-clock milliseconds are `ℤ`.
* `BTreeMap`/`BTreeSet` are the ordered extensional trees of `Std`; `VecDeque`
  and `Vec` are lists; `Result<T, E>` is `Except E T`.

### The channel is a parameter

The core stores the channel of a withheld output and hands it back; it never
reads it.  `Held`, `Barrier`, `Event` and `Effect` are therefore generic in the
channel type `χ`, and the theorems about the output gate hold at every `χ`.  The
shell's own enumeration is `Channel`.

### Effects in two layers

`CellEffect` collects the effects raised by code that never touches the
output gate or the node lease; `Effect` adds the ones that do.  The split is the
one between `Core` and `State` in `Celld.Core.State`.
-/

namespace Celld

/-- The largest `u64`. -/
def u64Max : ℕ := 2 ^ 64 - 1

/-- The largest `i64`. -/
def i64Max : ℤ := 2 ^ 63 - 1

/-- `u64::saturating_add`. -/
def satAdd (a b : ℕ) : ℕ := min (a + b) u64Max

/-- `u64::checked_add(1)`. -/
def checkedSucc (a : ℕ) : Option ℕ := if a + 1 ≤ u64Max then some (a + 1) else none

theorem satAdd_le (a b : ℕ) : satAdd a b ≤ a + b := Nat.min_le_left _ _

theorem checkedSucc_eq_some {a b : ℕ} (h : checkedSucc a = some b) : b = a + 1 := by
  unfold checkedSucc at h
  split at h
  · exact (Option.some.inj h).symm
  · cases h

abbrev BTreeMap (κ ν : Type) [Ord κ] := Std.ExtTreeMap κ ν compare
abbrev BTreeSet (κ : Type) [Ord κ] := Std.ExtTreeSet κ compare

section Maps

variable {κ ν : Type} [Ord κ] [Std.TransOrd κ] [Std.LawfulEqOrd κ] [DecidableEq κ]

/-- A map with a key written, as a function. -/
theorem BTreeMap.get_insert (m : BTreeMap κ ν) (key : κ) (value : ν) :
    (fun k => (m.insert key value)[k]?) = Function.update (fun k => m[k]?) key (some value) := by
  funext k
  by_cases eq : key = k
  · subst eq; simp
  · simp [Function.update_of_ne (Ne.symm eq), Std.ExtTreeMap.getElem?_insert, eq]

theorem BTreeMap.get_erase (m : BTreeMap κ ν) (key : κ) :
    (fun k => (m.erase key)[k]?) = Function.update (fun k => m[k]?) key none := by
  funext k
  by_cases eq : key = k
  · subst eq; simp
  · simp [Function.update_of_ne (Ne.symm eq), Std.ExtTreeMap.getElem?_erase, eq]

end Maps

abbrev Ms := ℤ
abbrev CellId := String
abbrev NodeId := String
abbrev RequestId := ℕ
abbrev WebSocketId := ℕ
abbrev OpId := ℕ
abbrev Epoch := ℕ
abbrev HeapId := ℕ

/-! ## Lifecycle counters and configuration -/

/-- Cumulative lifecycle decisions, exposed to management. -/
structure ActivitySnapshot where
  acquired : ℕ := 0
  proxied : ℕ := 0
  expiredOwnerLeases : ℕ := 0
  restored : ℕ := 0
  advancedEpochs : ℕ := 0
  handedOff : ℕ := 0
  handoffFailed : ℕ := 0
  rebalanced : ℕ := 0
  rebalanceFailed : ℕ := 0
  remoteRouteRefreshes : ℕ := 0
  deriving DecidableEq

/-- What an evicted cell's ownership record should say. -/
inductive OwnershipOnEvict where
  /-- Publish the cell as unowned so any node may take it next. -/
  | release
  /-- Keep the record, so a same-node wake can reuse the local snapshot. -/
  | sticky
  deriving DecidableEq

/-- Resource watermarks (`pressure.rs`). -/
structure PressureConfig where
  highBytes : Option ℕ := none
  rssHardBytes : Option ℕ := none
  deriving DecidableEq

/-- The node's limits and policies, fixed for the life of the process. -/
structure Config where
  maxResident : ℕ
  maxActivations : ℕ
  maxEvictions : ℕ
  maxReleases : ℕ
  maxOutboundWebsockets : ℕ
  ownershipOnEvict : OwnershipOnEvict
  requireNodeLease : Bool
  peerProtocol : ℕ
  operationDeadlineMs : Option ℕ
  ownerLogRecoveryBackoffMs : ℕ
  ownerLogRecoveryAttempts : ℕ
  alarmResidentMs : ℕ
  idleEvictMs : Option ℕ
  pressure : PressureConfig
  deriving DecidableEq

/-! ## Records read from and written to the bucket -/

/-- The state of a node's folded log (`log_tier.rs`). -/
inductive LogState where
  | open
  | recovering
  | sealed
  deriving DecidableEq

/-- A cell's ownership record.  `node = none` is a deliberately released,
fenced record; epochs never reset. -/
structure OwnerRecord where
  node : Option NodeId
  epoch : Epoch
  etag : String
  deriving DecidableEq

/-- The routing and authority fields read from `nodes/<node>.json`. -/
structure NodeLeaseRecord where
  node : NodeId
  addr : String
  expiresMs : ℕ
  peerProtocol : ℕ
  generation : String
  /-- `none`: this session never opened a fleet log. -/
  logState : Option LogState
  etag : String
  deriving DecidableEq

/-- One advisory fleet-capacity observation.  The fields only the rebalance
planner reads are not carried. -/
structure CapacityPeer where
  node : NodeId
  addr : String
  expiresMs : ℕ
  peerProtocol : ℕ
  sampledMs : ℕ
  residentCells : ℕ
  hostWebsockets : ℕ
  rssBytes : ℕ
  inUseBytes : Option ℕ
  pressured : Bool
  deriving DecidableEq

/-- A successor that has acquired a released cell. -/
structure AdoptedCell where
  node : NodeId
  addr : String
  epoch : Epoch
  peerProtocol : ℕ
  deriving DecidableEq

/-- What a process publishes about itself in its node lease. -/
structure NodeLeaseSpec where
  addr : String
  peerProtocol : ℕ
  generation : String
  resumeGeneration : Option String
  ttlMs : ℕ
  deriving DecidableEq

/-- The precondition of a conditional write. -/
inductive CasGuard where
  | absent
  | match (etag : String)
  deriving DecidableEq

/-- Why the node is halting. -/
inductive HaltReason where
  | nodeLeaseExpired
  | nodeLeaseMissing
  | nodeLeaseMismatch
  deriving DecidableEq

inductive CasOutcome where
  | applied
  | rejected
  deriving DecidableEq

inductive LeaseCasOutcome where
  | applied (etag : String)
  | rejected
  deriving DecidableEq

/-- The alarm a restored database already had armed. -/
structure RestoredAlarm where
  atMs : Ms
  covered : Bool
  deriving DecidableEq

/-- Observable result of a successful restore effect. -/
structure RestoreOutcome where
  restored : Bool
  alarm : Option RestoredAlarm
  deriving DecidableEq

/-- Whether a failed operation definitely did not commit, or may have. -/
inductive Failure where
  | definite
  | ambiguous
  deriving DecidableEq

/-- A SQLite writer epoch and its persistent alarm sequence (`wake.rs`). -/
structure PublicationId where
  epoch : ℕ
  sequence : ℕ
  deriving DecidableEq

/-- The derived lexicographic order of `PublicationId`. -/
def PublicationId.gt (left right : PublicationId) : Bool :=
  right.epoch < left.epoch || (right.epoch = left.epoch && right.sequence < left.sequence)

/-- The write position and publication identity of one committed connection. -/
structure AlarmSource where
  id : PublicationId
  position : ℕ
  deriving DecidableEq

/-- The alarm a runtime reports, with the committed source it was read from. -/
structure AlarmSnapshot where
  atMs : Option Ms
  source : Option AlarmSource
  deriving DecidableEq

/-- A resource sample. -/
structure Load where
  residentCells : ℕ
  rssBytes : ℕ
  inUseBytes : ℕ
  cgroupWorkingSetBytes : Option ℕ
  cgroupCurrentBytes : Option ℕ
  containerReservedBytes : ℕ
  deriving DecidableEq

/-- One database encoded by the local cell path. -/
structure LocalCell where
  id : CellId
  epoch : Epoch
  live : Bool
  deriving DecidableEq

/-- The derived lexicographic order of `LocalCell`. -/
def LocalCell.le (left right : LocalCell) : Bool :=
  (((compare left.id right.id).then (compare left.epoch right.epoch)).then
    (compare left.live right.live)).isLE

/-! ## Timers, channels, sockets -/

/-- Deterministic timers are versioned effects, not implicit clock reads. -/
inductive Timer where
  | nodeLeaseRenew (generation : ℕ)
  | nodeLeaseFence (generation : ℕ)
  | cellAlarm (cell : CellId) (generation : ℕ)
  | operationDeadline (op : OpId)
  | queuedActivation (cell : CellId) (generation : ℕ)
  | ownerLogRecoveryRetry (cell : CellId) (generation : ℕ)
  deriving DecidableEq

/-- Every way a cell's state can leave this process, and the one promise the
application treats as if it had. -/
inductive Channel where
  | response
  | fetch
  | wsHibernatable
  | wsSelf
  | service
  | cellRpc
  | r2
  | tcp
  | queue
  | sync
  deriving DecidableEq

/-- Which mechanism proved a gated write durable. -/
inductive ProofSource where
  | fleet
  | bucket
  deriving DecidableEq

inductive WebSocketKind where
  | hibernatable
  | regular
  | outbound
  deriving DecidableEq

/-- A transport that cannot outlive the isolate. -/
def WebSocketKind.pins : WebSocketKind → Bool
  | .hibernatable => false
  | .regular | .outbound => true

/-- How far a wake hint reaches. -/
inductive WakeHintScope where
  | owned
  | fleet
  deriving DecidableEq

/-! ## Routes and refusals -/

inductive Route where
  | local
  | remote (node : NodeId) (addr : String) (epoch : Epoch) (peerProtocol : ℕ)
  deriving DecidableEq

structure WorkerRoute where
  cell : CellId
  epoch : Epoch
  deriving DecidableEq

inductive RequestError where
  | nodeUnavailable
  | resolveFailed
  | acquireFailed
  | restoreFailed
  | runtimeFailed
  | publishFailed
  | nodeFenced
  | peerIncompatible
  | capacityExhausted
  | durabilityUnproven
  deriving DecidableEq

inductive EvictSuccess where
  | evicted
  | alreadyAbsent
  deriving DecidableEq

inductive EvictRefusal where
  | nodeUnavailable
  | cellActive
  | cellTransitioning
  | alarmImminent
  | alarmUncovered
  | concurrencyLimit
  deriving DecidableEq

inductive EvictCancellation where
  | activity
  | alarm
  | nodeFenced
  deriving DecidableEq

inductive EvictFailure where
  | durability
  | durabilityTimeout
  | runtimeStop
  | actorUnavailable
  | replyLost
  deriving DecidableEq

inductive EvictError where
  | refused (reason : EvictRefusal)
  | cancelled (reason : EvictCancellation)
  | failed (reason : EvictFailure)
  deriving DecidableEq

inductive EvictionAdmission where
  | absent
  | pending
  deriving DecidableEq

/-- Why a runtime is stopped. -/
inductive StopCause where
  | cleanup
  /-- `rebalance`: this eviction hands the cell to the fleet. -/
  | evict (rebalance : Bool)
  | fence
  /-- A durability proof came back negative. -/
  | reset
  /-- The cell moves to the current application generation at the same epoch. -/
  | swap
  deriving DecidableEq

/-! ## Claims and restore specifications -/

/-- Facts already decided by ownership resolution that select a safe restore
source. -/
structure RestoreSpec where
  epoch : Epoch
  fresh : Bool
  tookOver : Bool
  resumeLocal : Bool
  prior : Option NodeId
  deriving DecidableEq

/-- An acquisition the node intends: a conditional write of the ownership
record at `epoch`, guarded on the version `guard` names. -/
structure Claim where
  guard : CasGuard
  epoch : Epoch
  takeover : Bool
  /-- The node named by the record version `guard` matches. -/
  prior : Option NodeId
  /-- Ambiguous acquires already reconciled for this claim. -/
  reconciles : ℕ
  deriving DecidableEq

/-- How many times one claim may reconcile an ambiguous acquire. -/
def maxAcquireReconciles : ℕ := 3

/-! ## Events -/

/-- Everything the core is told.  `χ` is the channel type. -/
inductive Event (χ : Type) where
  | startNodeLease (nowMs nowMonoMs : ℕ) (spec : NodeLeaseSpec)
  | selfNodeLeaseRead (op : OpId) (nowMs nowMonoMs : ℕ)
      (result : Except Failure (Option NodeLeaseRecord))
  | nodeLeaseCasCompleted (op : OpId) (nowMonoMs : ℕ)
      (result : Except Failure LeaseCasOutcome) (stampedLogState : Option LogState)
  | localCellsRead (result : Except Failure (List LocalCell))
  | timerFired (timer : Timer) (nowMs nowMonoMs : ℕ)
  | request (request : RequestId) (cell : CellId)
  | requestAt (request : RequestId) (cell : CellId) (nowMonoMs : ℕ)
  | capacityRequestAt (request : RequestId) (cell : CellId) (nowMonoMs : ℕ)
  | handoffRequestAt (request : RequestId) (cell : CellId) (nowMs nowMonoMs : ℕ)
  | webSocketRequestAt (request : RequestId) (cell : CellId) (websocket : WebSocketId)
      (nowMs nowMonoMs : ℕ)
  | gateRequestAt (request : RequestId) (cell : CellId) (nowMonoMs : ℕ)
  | workerRequest (request : RequestId)
  | beginPreserve
  | cancel (request : RequestId)
  | activityFinished (request : RequestId)
  | output (request : RequestId) (channel : χ) (position observed : Option ℕ)
      (epoch : Option Epoch)
  | outputAt (request : RequestId) (channel : χ) (position observed : Option ℕ)
      (epoch : Option Epoch) (nowMonoMs : ℕ)
  | durableReached (op : OpId) (result : Except Failure ℕ) (source : ProofSource)
  | exportTicket (cell : CellId) (epoch : Epoch) (position ticket : ℕ)
  | ownershipVerified (op : OpId) (result : Except Failure Unit)
  | webSocketOpened (cell : CellId) (websocket : WebSocketId) (kind : WebSocketKind)
  | webSocketClosed (cell : CellId) (websocket : WebSocketId)
  | alarmObserved (cell : CellId) (alarm : AlarmSnapshot) (covered : Bool)
      (nowMs nowMonoMs : ℕ)
  | alarmFinished (op : OpId) (cell : CellId) (epoch : Epoch) (nowMs nowMonoMs : ℕ)
      (result : Except Failure (AlarmSnapshot × Bool × Option ℕ))
  | wakeHint (cell : CellId) (entryMs : Ms) (scope : WakeHintScope)
  | wakeHintAt (cell : CellId) (entryMs : Ms) (scope : WakeHintScope) (nowMonoMs : ℕ)
  | ownerRead (op : OpId) (nowMs : ℕ) (result : Except Failure (Option OwnerRecord))
  | nodeLogRecovered (op : OpId) (result : Except Failure Unit)
  | nudgeNodeLease (nowMs nowMonoMs : ℕ)
  | nodeLeaseRead (op : OpId) (nowMs : ℕ) (result : Except Failure (Option NodeLeaseRecord))
  | capacityPeersRead (op : OpId) (nowMs : ℕ) (result : Except Failure (List CapacityPeer))
  | ownerCasCompleted (op : OpId) (result : Except Failure CasOutcome)
  | ownerReleased (op : OpId) (result : Except Failure CasOutcome)
  | successorAdopted (op : OpId) (result : Except Failure AdoptedCell)
  | restoreCompleted (op : OpId) (result : Except Failure RestoreOutcome)
  | runtimeStarted (op : OpId) (isolate : Option HeapId) (generation : ℕ)
      (result : Except Failure Unit)
  | generationChanged (generation nowMonoMs maxAgeMs : ℕ) (eagerClasses : List String)
  | published (op : OpId) (result : Except Failure Unit)
  | durabilityChecked (op : OpId) (result : Except Failure Unit)
  | runtimeStopped (op : OpId)
  | runtimeStopFailed (op : OpId)
  | runtimeStopCancelled (op : OpId)
  | evict (cell : CellId)
  | evictRequested (request : RequestId) (cell : CellId) (nowMonoMs : ℕ)
  | loadSampled (load : Load) (nowMonoMs : ℕ)
  | invalidateRemote (cell : CellId) (node : NodeId) (epoch : Epoch)
  | nodeFenced
  | releaseAll
  | rebalance (cells : ℕ)
  deriving Functor, LawfulFunctor

namespace Event

variable {χ : Type}

/-- The wall-clock reading an event carries, if the core folds one from it. -/
def nowMs? : Event χ → Option ℕ
  | .startNodeLease nowMs _ _ | .selfNodeLeaseRead _ nowMs _ _ | .ownerRead _ nowMs _
  | .nodeLeaseRead _ nowMs _ | .timerFired _ nowMs _ | .alarmObserved _ _ _ nowMs _
  | .alarmFinished _ _ _ nowMs _ _ => some nowMs
  | _ => none

/-- The monotonic instant an event carries, if the core folds one from it.
`nudgeNodeLease` carries one that is not folded. -/
def nowMonoMs? : Event χ → Option ℕ
  | .startNodeLease _ mono _ | .selfNodeLeaseRead _ _ mono _
  | .nodeLeaseCasCompleted _ mono _ _ | .requestAt _ _ mono | .evictRequested _ _ mono
  | .capacityRequestAt _ _ mono | .handoffRequestAt _ _ _ mono
  | .webSocketRequestAt _ _ _ _ mono | .gateRequestAt _ _ mono
  | .outputAt _ _ _ _ _ mono | .wakeHintAt _ _ _ mono | .timerFired _ _ mono
  | .alarmObserved _ _ _ _ mono | .alarmFinished _ _ _ _ mono _ | .loadSampled _ mono
  | .generationChanged _ mono _ _ => some mono
  | _ => none

end Event

/-! ## Effects -/

/-- Work performed outside the core on behalf of cells. -/
inductive CellEffect where
  | evictionAdmission (request : RequestId) (result : Except EvictError EvictionAdmission)
  | evictionFinished (request : RequestId) (result : Except EvictError EvictSuccess)
  | scheduleTimer (timer : Timer) (atMonoMs : ℕ)
  | readLocalCells
  | readOwner (op : OpId) (cell : CellId)
  | readNodeLease (op : OpId) (cell : CellId) (owner : NodeId)
  | recoverNodeLog (op : OpId) (cell : CellId) (owner : NodeId)
  | readCapacityPeers (op : OpId) (cell : CellId)
  | casOwner (op : OpId) (cell : CellId) (guard : CasGuard) (epoch : Epoch) (takeover : Bool)
  | reconcileWakeEntry (cell : CellId) (alarm : AlarmSnapshot)
  | releaseOwner (op : OpId) (cell : CellId) (epoch : Epoch)
  | adoptReleased (op : OpId) (cell : CellId) (releasedEpoch : Epoch) (rebalance : Bool)
  | cancelCellActivity (cell : CellId) (requests : List RequestId)
      (websockets : List WebSocketId) (alarm : Option OpId) (keepHibernatable : Bool)
  | restore (op : OpId) (cell : CellId) (spec : RestoreSpec)
  | startRuntime (op : OpId) (cell : CellId) (epoch : Epoch)
  | publish (op : OpId) (cell : CellId) (epoch : Epoch)
  | ensureDurable (op : OpId) (cell : CellId) (epoch : Epoch) (revocable : Bool)
  | stopRuntime (op : OpId) (cell : CellId) (epoch : Epoch) (cause : StopCause)
      (bounded : Bool)
  | abandonEvictionStop (op : OpId) (cell : CellId)
  | fireAlarm (op : OpId) (cell : CellId) (epoch : Epoch) (scheduledMs : Ms)
  | complete (request : RequestId) (result : Except RequestError Route)
  | completeWorker (request : RequestId) (route : Option WorkerRoute)
  | closeWebSocket (cell : CellId) (websocket : WebSocketId)
  deriving DecidableEq

/-- Work performed outside the core.  Every asynchronous effect is versioned;
completion events with an obsolete `op` are ignored. -/
inductive Effect (χ : Type) where
  | cell (effect : CellEffect)
  | readSelfNodeLease (op : OpId)
  | casNodeLease (op : OpId) (guard : CasGuard) (record : NodeLeaseRecord)
      (authorityExpiresMs : Option ℕ)
  | awaitDurable (op : OpId) (cell : CellId) (epoch : Epoch) (position : ℕ)
  | verifyOwnership (op : OpId) (cell : CellId) (epoch : Epoch)
  | release (request : RequestId) (channel : χ) (result : Except RequestError Unit)
  | exportProven (cell : CellId) (epoch : Epoch) (ticket : ℕ)
      (result : Except RequestError Unit)
  | halt (code : ℤ) (reason : HaltReason)
  deriving DecidableEq

end Celld
