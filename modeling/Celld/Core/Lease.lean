import Celld.Core.OutputGate

/-!
# The node lease

The node's own lease is one record in the bucket.  An attempt to publish it is a
`PendingNodeLease`: the record it wants, the lease it would replace, and the
monotonic instant the record's expiry was computed from.  That instant, not the
instant the write completes, anchors the authority the record confers.

The functions follow the source's names.  `std::mem::replace` of the authority by
`Failed` while a handler runs is not observable, since every path installs a new
authority before anything reads it.
-/

namespace Celld

/-- Every field but the entity tag: the folded log state distinguishes our record
untouched from our record fenced to recovering by a peer. -/
def sameNodeLease (left right : NodeLeaseRecord) : Bool :=
  left.node = right.node && left.addr = right.addr && left.expiresMs = right.expiresMs
    && left.peerProtocol = right.peerProtocol && left.generation = right.generation
    && left.logState = right.logState

/-- The record a process wants to publish at a wall instant. -/
def desiredRecord (node : NodeId) (spec : NodeLeaseSpec) (nowMs : ℕ)
    (logState : Option LogState) : NodeLeaseRecord where
  node := node
  addr := spec.addr
  expiresMs := satAdd nowMs spec.ttlMs
  peerProtocol := spec.peerProtocol
  generation := spec.generation
  logState := logState
  etag := ""

/-- A record is this process's own late write: every identity field ours, and only
the expiry moved, no further than an attempt of ours could have written. -/
def isOwnZombie (pending : PendingNodeLease) (prior : HeldNodeLease)
    (record : NodeLeaseRecord) : Bool :=
  record.node = pending.desired.node && record.addr = pending.desired.addr
    && record.peerProtocol = pending.desired.peerProtocol
    && record.generation = pending.desired.generation
    && record.logState = pending.desired.logState
    && prior.record.expiresMs < record.expiresMs
    && record.expiresMs ≤ pending.desired.expiresMs

namespace Turn

variable {χ : Type} (t : Turn χ) (pending : PendingNodeLease)

def pushCell (effect : CellEffect) : Turn χ := t.push (.cell effect)

def setAuthority (authority : NodeAuthority) : Turn χ :=
  { t with nodeAuthority := authority }

/-- Allocate a timer generation. -/
def timerGeneration : ℕ × Turn χ :=
  (t.nextTimerGeneration, { t with nextTimerGeneration := t.nextTimerGeneration + 1 })

/-! ## Attempts -/

/-- Read our own record before a first attempt to publish it. -/
def beginNodeLeaseAcquisition (nowMs : ℕ) (spec : NodeLeaseSpec) : Turn χ :=
  let pending : PendingNodeLease :=
    { spec := spec
      desired := desiredRecord t.node spec nowMs none
      prior := none
      readbackOnly := false
      anchorMonoMs := t.nowMonoMs
      resumeLocal := false }
  let (op, t) := t.op
  (t.setAuthority (.reading op pending)).push (.readSelfNodeLease op)

def startNodeLease (nowMs : ℕ) (spec : NodeLeaseSpec) : Turn χ :=
  match t.nodeAuthority with
  | .unstarted | .failed => t.beginNodeLeaseAcquisition nowMs spec
  | _ => t

/-- Nothing else will ever ask again, so a failed first attempt arms its retry. -/
def failInitialNodeLease (spec : NodeLeaseSpec) : Turn χ :=
  let (generation, t) := t.timerGeneration
  (t.pushCell (.scheduleTimer (.nodeLeaseRenew generation)
    (satAdd t.nowMonoMs (max (spec.ttlMs / 3) 1)))).setAuthority (.retrying spec generation)

/-- A first lease looks at the cells on disk: to resume them, or to confirm them. -/
def readInventory (resumeLocal confirmLocal : Bool) : Turn χ :=
  if resumeLocal then { t with resuming := true }.pushCell .readLocalCells
  else if confirmLocal then { t with confirming := true }.pushCell .readLocalCells
  else t

/-- Arm the renewal and the fence of a lease that counts from `anchorMonoMs`. -/
def armNodeLease (generation : ℕ) (spec : NodeLeaseSpec) (anchorMonoMs : ℕ) : Turn χ :=
  -- A nudge that arrived mid-write could not ride the write that just landed.
  let renewAfter := if t.nudgePending then 1 else max (spec.ttlMs / 3) 1
  ({ t with nudgePending := false }.pushCell
    (.scheduleTimer (.nodeLeaseRenew generation) (satAdd anchorMonoMs renewAfter))).pushCell
      (.scheduleTimer (.nodeLeaseFence generation) (satAdd anchorMonoMs spec.ttlMs))

/-- Install a held lease.  `anchorMonoMs` is the instant the record's expiry was
computed from. -/
def holdNodeLease (spec : NodeLeaseSpec) (record : NodeLeaseRecord)
    (anchorMonoMs : ℕ) (resumeLocal confirmLocal : Bool) : Turn χ :=
  let (generation, t) := t.timerGeneration
  ((t.armNodeLease generation spec anchorMonoMs).setAuthority (.held
    { spec := spec
      record := record
      lastOkMonoMs := anchorMonoMs
      lastAttemptMonoMs := anchorMonoMs
      timerGeneration := generation })).readInventory resumeLocal confirmLocal

/-- The attempt's own record is already dead to every peer. -/
def attemptExpired (nowMonoMs : ℕ) : Bool :=
  pending.spec.ttlMs ≤ nowMonoMs - pending.anchorMonoMs

/-- A lease write landed.  A renewal preserves authority only if it lands while
the prior lease is still valid; losing that continuity is a fence. -/
def completeNodeLeaseWrite (record : NodeLeaseRecord) (nowMonoMs : ℕ) : Turn χ :=
  match pending.prior with
  | some prior =>
      if attemptExpired pending nowMonoMs
          || prior.spec.ttlMs ≤ nowMonoMs - prior.lastOkMonoMs then
        t.fenceNode .nodeLeaseExpired
      else
        t.holdNodeLease pending.spec record pending.anchorMonoMs pending.resumeLocal false
  | none =>
      -- A first acquisition that lands expired never became authoritative.
      if attemptExpired pending nowMonoMs then t.failInitialNodeLease pending.spec
      else
        t.holdNodeLease pending.spec record pending.anchorMonoMs pending.resumeLocal
          (!pending.resumeLocal)

/-- How long to wait before a renewal that failed is tried again. -/
def retryAfter (nudged : Bool) (prior : HeldNodeLease) (nowMonoMs : ℕ) : ℕ :=
  if nudged then 1
  else
    let remaining := satAdd prior.lastOkMonoMs prior.spec.ttlMs - nowMonoMs
    let cadence := max (prior.spec.ttlMs / 3) 1
    if cadence ≤ remaining / 2 then cadence else max (remaining / 4) 1

/-- Fall back on the lease the failed attempt would have replaced. -/
def resumeNodeLeaseAfterFailure (prior : HeldNodeLease) (nowMonoMs : ℕ) : Turn χ :=
  let wait := retryAfter t.nudgePending prior nowMonoMs
  ({ t with nudgePending := false }.pushCell
    (.scheduleTimer (.nodeLeaseRenew prior.timerGeneration)
      (satAdd nowMonoMs wait))).setAuthority (.held prior)

/-- A failed attempt: back to the prior lease, or to the retry of a first one. -/
def abandonAttempt (nowMonoMs : ℕ) : Turn χ :=
  match pending.prior with
  | some prior => t.resumeNodeLeaseAfterFailure prior nowMonoMs
  | none => t.failInitialNodeLease pending.spec

def beginNodeLeaseWrite (guard : CasGuard) : Turn χ :=
  let (op, t) := t.op
  (t.setAuthority (.writing op pending)).push
    (.casNodeLease op guard pending.desired (pending.prior.map (·.record.expiresMs)))

/-! ## Readbacks -/

/-- The monotonic anchor of an adopted record, bounded by the expiry delta and by
the expiry observed at this readback.  `none`: the deadline has passed, or cannot
be named by an anchor. -/
def adoptedAnchor (prior : HeldNodeLease) (record : NodeLeaseRecord) (nowMs nowMonoMs : ℕ) :
    Option ℕ :=
  let deltaAnchor := satAdd prior.lastOkMonoMs (record.expiresMs - prior.record.expiresMs)
  let observedRemaining := record.expiresMs - nowMs
  if observedRemaining = 0 then none
  else if satAdd nowMonoMs observedRemaining < prior.spec.ttlMs then none
  else some (min deltaAnchor (satAdd nowMonoMs observedRemaining - prior.spec.ttlMs))

/-- Adopt an earlier ambiguous renewal of ours that landed after its readback
missed it. -/
def adoptZombie (prior : HeldNodeLease) (record : NodeLeaseRecord) (nowMs nowMonoMs : ℕ) : Turn χ :=
  match adoptedAnchor prior record nowMs nowMonoMs with
  | none => t.fenceNode .nodeLeaseExpired
  | some anchor =>
      let adopted := { prior with lastOkMonoMs := anchor, record := record }
      ({ t with nudgePending := true }.pushCell
        (.scheduleTimer (.nodeLeaseFence adopted.timerGeneration)
          (satAdd anchor adopted.spec.ttlMs))).resumeNodeLeaseAfterFailure adopted nowMonoMs

/-- The readback of a renewal. -/
def readbackRenewal (prior : HeldNodeLease)
    (nowMs nowMonoMs : ℕ) (result : Option NodeLeaseRecord) : Turn χ :=
  match result with
  | none => t.fenceNode .nodeLeaseMissing
  | some record =>
      if sameNodeLease record pending.desired then
        t.completeNodeLeaseWrite pending record nowMonoMs
      else if sameNodeLease record prior.record then
        t.resumeNodeLeaseAfterFailure
          { prior with record := { prior.record with etag := record.etag } } nowMonoMs
      else if isOwnZombie pending prior record then t.adoptZombie prior record nowMs nowMonoMs
      else t.fenceNode .nodeLeaseMismatch

/-- Installing over a predecessor's unsealed log would erase the only evidence
that recovery was needed. -/
def predecessorUnrecovered (record : NodeLeaseRecord) : Bool :=
  record.generation ≠ pending.desired.generation &&
    match record.logState with
    | none | some .sealed => false
    | some .open | some .recovering => true

/-- The read that precedes a first write, or the readback of an ambiguous one. -/
def readbackInitial (nowMs nowMonoMs : ℕ) (result : Option NodeLeaseRecord) : Turn χ :=
  match result with
  | some record =>
      if sameNodeLease record pending.desired then
        t.completeNodeLeaseWrite pending record nowMonoMs
      else if pending.readbackOnly then t.failInitialNodeLease pending.spec
      else if predecessorUnrecovered pending record then t.failInitialNodeLease pending.spec
      else
        -- A restart replaces the node's prior process generation at once.
        t.beginNodeLeaseWrite
          { pending with
            resumeLocal := nowMs < record.expiresMs
              && pending.spec.resumeGeneration = some record.generation }
          (.match record.etag)
  | none =>
      if pending.readbackOnly then t.failInitialNodeLease pending.spec
      else t.beginNodeLeaseWrite pending .absent

def readSelfNodeLease (op : OpId) (nowMs nowMonoMs : ℕ)
    (result : Except Failure (Option NodeLeaseRecord)) : Turn χ :=
  match t.nodeAuthority with
  | .reading current pending =>
      if current ≠ op then t
      else
        match result with
        | .error _ => t.abandonAttempt pending nowMonoMs
        | .ok record =>
            match pending.prior with
            | some prior => t.readbackRenewal pending prior nowMs nowMonoMs record
            | none => t.readbackInitial pending nowMs nowMonoMs record
  | _ => t

/-- Read back what the shell serialized into this attempt. -/
def readback (readbackOnly : Bool) (stampedLogState : Option LogState) : Turn χ :=
  let (read, t) := t.op
  (t.setAuthority (.reading read
    { pending with
      readbackOnly := readbackOnly
      desired := { pending.desired with logState := stampedLogState } })).push
    (.readSelfNodeLease read)

def nodeLeaseCasCompleted (op : OpId) (nowMonoMs : ℕ)
    (result : Except Failure LeaseCasOutcome) (stampedLogState : Option LogState) : Turn χ :=
  match t.nodeAuthority with
  | .writing current pending =>
      if current ≠ op then t
      else
        match result with
        | .ok (.applied etag) =>
            t.completeNodeLeaseWrite pending
              { pending.desired with etag := etag, logState := stampedLogState } nowMonoMs
        -- A rejected renewal is not proof of usurpation.
        | .ok .rejected => t.readback pending pending.readbackOnly stampedLogState
        | .error .ambiguous => t.readback pending true stampedLogState
        | .error .definite => t.abandonAttempt pending nowMonoMs
  | _ => t

/-! ## Timers -/

/-- The published wall deadline and the local monotonic one are independent upper
bounds. -/
def leaseExpired (held : HeldNodeLease) (nowMs nowMonoMs : ℕ) : Bool :=
  held.record.expiresMs ≤ nowMs || held.spec.ttlMs ≤ nowMonoMs - held.lastOkMonoMs

/-- Begin a renewal of the held lease. -/
def renewNodeLease (held : HeldNodeLease) (nowMs nowMonoMs : ℕ) : Turn χ :=
  t.beginNodeLeaseWrite
    { spec := held.spec
      desired := desiredRecord t.node held.spec nowMs held.record.logState
      prior := some { held with lastAttemptMonoMs := nowMonoMs }
      readbackOnly := false
      anchorMonoMs := nowMonoMs
      resumeLocal := false }
    (.match held.record.etag)

/-- A renewal timer fired. -/
def renewTimer (generation nowMs nowMonoMs : ℕ) : Turn χ :=
  match t.nodeAuthority with
  | .retrying spec current =>
      if generation = current then t.beginNodeLeaseAcquisition nowMs spec else t
  | .held held =>
      if generation ≠ held.timerGeneration then t
      else if leaseExpired held nowMs nowMonoMs then t.fenceNode .nodeLeaseExpired
      else t.renewNodeLease held nowMs nowMonoMs
  | .reading _ pending | .writing _ pending =>
      match pending.prior with
      | some held =>
          if generation = held.timerGeneration && leaseExpired held nowMs nowMonoMs then
            t.fenceNode .nodeLeaseExpired
          else t
      | none => t
  | _ => t

/-- A fence timer fired: the liveness backstop that halts the process. -/
def fenceTimer (generation nowMs nowMonoMs : ℕ) : Turn χ :=
  match t.nodeAuthority.lease? with
  | some held =>
      if generation = held.timerGeneration && leaseExpired held nowMs nowMonoMs then
        t.fenceNode .nodeLeaseExpired
      else t
  | none => t

/-- Expire one operation: a gated write is tracked in the barriers, every other
operation on its cell. -/
def expireOperation (op : OpId) (nowMs : ℕ) : Turn χ :=
  if t.barriers.contains op then t.durableReached op (.error .ambiguous) .bucket
  else t.onCore (·.expireCellOperation op nowMs)

def timerFired (timer : Timer) (nowMs nowMonoMs : ℕ) : Turn χ :=
  match timer with
  | .cellAlarm cell generation =>
      t.onCore (·.cellAlarmTimer t.nodeAuthoritative cell generation nowMs nowMonoMs)
  | .operationDeadline op => t.expireOperation op nowMs
  | .queuedActivation cell generation =>
      t.onCore fun t => (t.expireQueued cell generation).pumpActivations.pumpCapacity
  | .ownerLogRecoveryRetry cell generation =>
      t.onCore (·.retryOwnerLogRecovery cell generation)
  | .nodeLeaseRenew generation => t.renewTimer generation nowMs nowMonoMs
  | .nodeLeaseFence generation => t.fenceTimer generation nowMs nowMonoMs

/-- Renew now, or as soon as the write in flight lands. -/
def nudgeNodeLease (nowMs nowMonoMs : ℕ) : Turn χ :=
  match t.nodeAuthority with
  | .held held => t.timerFired (.nodeLeaseRenew held.timerGeneration) nowMs nowMonoMs
  | .writing _ _ | .reading _ _ => { t with nudgePending := true }
  | _ => t

end Turn

end Celld
