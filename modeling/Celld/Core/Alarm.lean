import Celld.Core.Runtime

/-!
# Alarms

The core mirrors each cell's alarm, arms one versioned timer for it, fires it on
a resident cell, and settles it once the commit that consumed it is durable.  The
gate a consuming commit waits behind belongs to `Celld.Core.OutputGate`; what is
here is the mirror and its settlement.
-/

namespace Celld

namespace Phase

/-- Only a cell with a runtime on this node can be observed. -/
def observable : Phase → Bool
  | .starting _ _ | .publishing _ _ | .resident _ | .ensuringDurability _ _
  | .cleaning _ _ _ => true
  | _ => false

/-- The runtime is being discarded after a failed durability proof. -/
def isResetting : Phase → Bool
  | .cleaning _ _ .reset => true
  | _ => false

end Phase

namespace CoreTurn

variable (t : CoreTurn) (id : CellId) (cell : Cell)

/-- The publication identity of an observation. -/
def sourceId (alarm : AlarmSnapshot) : Option PublicationId := alarm.source.map (·.id)

/-- The observation belongs to another writer, or is older than the mirror. -/
def staleObservation (cell : Cell) (alarm : AlarmSnapshot) : Bool :=
  match sourceId alarm with
  | none => false
  | some source =>
      cell.heldEpoch ≠ some source.epoch || cell.alarmSource.any (·.gt source)

/-- An alarm change rescues a cell from eviction, unless it only confirms a
drain's own refresh. -/
def rescueObserved (alarm : AlarmSnapshot) (covered : Bool) : Cell × CoreTurn :=
  match cell.phase with
  | .ensuringDurability _ epoch =>
      if t.draining && (alarm.atMs.isNone || covered) then (cell, t)
      else t.cancelEviction id cell epoch .alarm
  | _ => (cell, t)

/-- Stage an observation that arrived before the firing's durability verdict. -/
def stageObservation (alarmSource : Option PublicationId) (alarm : AlarmSnapshot)
    (covered : Bool) : AlarmState → AlarmState
  | .armed atMs generation coverage => .armed atMs generation coverage
  | .firing op firingAtMs generation firingCovered staged =>
      if staged.any fun (earlier, _) =>
          (sourceId earlier).any fun earlier => (sourceId alarm).any fun next => earlier.gt next
      then .firing op firingAtMs generation firingCovered staged
      else if alarm.atMs = some firingAtMs && staged.isNone && sourceId alarm = alarmSource then
        .firing op firingAtMs generation covered staged
      else .firing op firingAtMs generation firingCovered (some (alarm, covered))

/-- The wake instant of an observation, `-1` for none. -/
def settledMs (alarm : AlarmSnapshot) : Ms := (alarm.atMs.filter (0 ≤ ·)).getD (-1)

/-- The bucket's wake entry has to follow the observation. -/
def entryFollows (cell : Cell) (alarm : AlarmSnapshot) (before : Ms) (discovered : Bool) : Bool :=
  settledMs alarm ≠ before ||
    (sourceId alarm).any fun source =>
      (discovered && alarm.atMs.isNone) ||
        (cell.alarmSource ≠ some source && (alarm.atMs.isSome || 0 < source.sequence))

/-- Replace the mirror by an observation and let the bucket's wake entry follow. -/
def settleObservation (alarm : AlarmSnapshot)
    (covered : Bool) (nowMs nowMonoMs : ℕ) : Cell × CoreTurn :=
  let before := (cell.alarm.map AlarmState.atMs).getD (-1)
  let t := t.dropFiring cell
  let (next, t) :=
    match alarm.atMs.filter (0 ≤ ·) with
    | none => (none, t)
    | some atMs =>
        let (generation, t) := t.timerGeneration
        (some (AlarmState.armed atMs generation covered),
          t.scheduleAlarmTimer id generation atMs nowMs nowMonoMs)
  let discovered := cell.alarmWake
  let cell := { cell with
    alarm := next
    alarmWake := if next.isNone then false else cell.alarmWake }
  let t :=
    if entryFollows cell alarm before discovered then t.push (.reconcileWakeEntry id alarm)
    else t
  ({ cell with alarmSource := (sourceId alarm).or cell.alarmSource }, t)

/-- Fold one observation of a cell's alarm. -/
def alarmObserved (alarm : AlarmSnapshot)
    (covered firingSettled : Bool) (nowMs nowMonoMs : ℕ) : CoreTurn :=
  match t.cells[id]? with
  | none => t
  | some cell =>
      if !cell.phase.observable || staleObservation cell alarm || cell.phase.isResetting then t
      else
        let (cell, t) := (t.dropCell id).rescueObserved id cell alarm covered
        let (cell, t) :=
          if cell.isFiring && !firingSettled then
            ({ cell with
              alarm := cell.alarm.map (stageObservation cell.alarmSource alarm covered) }, t)
          else t.settleObservation id cell alarm covered nowMs nowMonoMs
        t.putCell id cell

/-- Look again in a tenth of a second. -/
def retryAlarmTimer (generation nowMonoMs : ℕ) : CoreTurn :=
  t.push (.scheduleTimer (.cellAlarm id generation) (satAdd nowMonoMs 100))

/-- Fire an armed alarm on a runtime at `epoch`. -/
def fireAlarm (epoch : Epoch) (atMs : Ms) (generation : ℕ) (covered : Bool) : CoreTurn :=
  let (op, t) := t.cellOp id
  (t.putCell id
    { cell with alarm := some (.firing op atMs generation covered none), alarmWake := false
    }).push (.fireAlarm op id epoch atMs)

/-- A due alarm, by the phase of its cell. -/
def alarmDue (atMs : Ms) (generation : ℕ) (covered : Bool) (nowMonoMs : ℕ) : CoreTurn :=
  match cell.phase with
  | .resident epoch =>
      -- A drain is waiting for the cell to go idle: leave the alarm to the successor.
      if t.draining && cell.quiescing then
        (t.retryAlarmTimer id generation nowMonoMs).putCell id cell
      else t.fireAlarm id cell epoch atMs generation covered
  | .ensuringDurability _ epoch =>
      let (cell, t) := t.cancelEviction id cell epoch .alarm
      t.fireAlarm id cell epoch atMs generation covered
  | .fenced => t.putCell id { cell with alarm := none }
  | .dormant _ | .inactive =>
      if t.draining then t.putCell id { cell with alarm := none }
      else
        let (cell, t) := t.admitOrQueueActivation id { cell with alarmWake := true } .readOwner
        (t.retryAlarmTimer id generation nowMonoMs).putCell id cell
  | _ => (t.retryAlarmTimer id generation nowMonoMs).putCell id cell

def cellAlarmTimer (authoritative : Bool) (id : CellId)
    (generation nowMs nowMonoMs : ℕ) : CoreTurn :=
  if !authoritative then t
  else
    match t.cells[id]? with
    | none => t
    | some cell =>
        match cell.alarm with
        | some (.armed atMs current covered) =>
            if current ≠ generation then t
            else if min (nowMs : ℤ) i64Max < atMs then
              t.scheduleAlarmTimer id generation atMs nowMs nowMonoMs
            else (t.dropCell id).alarmDue id cell atMs generation covered nowMonoMs
        | _ => t

/-- The settlement half of `alarm_finished`: the consuming commit, if any, is
durable, or the firing failed and the alarm is armed again. -/
def settleAlarm (op : OpId) (nowMs nowMonoMs : ℕ)
    (result : Except Failure (AlarmSnapshot × Bool)) : CoreTurn :=
  match t.takeCellOp op fun cell => cell.alarm.bind AlarmState.firingOp = some op with
  | none => t
  | some (id, cell, t) =>
      match cell.alarm with
      | some (.firing _ atMs generation covered staged) =>
          match result with
          | .ok reported =>
              let (alarm, covered) := staged.getD reported
              t.alarmObserved id alarm covered true nowMs nowMonoMs
          | .error _ =>
              (t.putCell id { cell with alarm := some (.armed atMs generation covered) }).push
                (.scheduleTimer (.cellAlarm id generation) (satAdd nowMonoMs 500))
      | _ => t

end CoreTurn

end Celld
