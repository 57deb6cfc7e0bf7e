import Celld.Moves.Runtime

/-!
# Alarms

An alarm only touches its cell, except that a due alarm fires on a resident cell, rescues one
from its eviction, and sends a parked one to read its ownership record.
-/

namespace Celld.CoreTurn

variable {G : Grants} {r : Rules} {t : CoreTurn} {id : CellId} {cell : Cell}

/-- An alarm change rescues its cell from an eviction. -/
theorem rescueObserved_hand (alarm : AlarmSnapshot) (covered : Bool) :
    Hands G r t id cell cell (t.rescueObserved id cell alarm covered) := by
  unfold rescueObserved
  split
  · rename_i phase
    split
    · exact .refl
    · exact cancelEviction_hand phase _
  · exact .refl

theorem settleObservation_hand (alarm : AlarmSnapshot) (covered : Bool) (nowMs nowMonoMs : ℕ) :
    Hands G r t id cell cell (t.settleObservation id cell alarm covered nowMs nowMonoMs) := by
  obtain ⟨view, books⟩ := dropFiring_spec t cell
  have dropped : Hands G r t id cell cell (cell, t.dropFiring cell) := by
    rw [Hands, viewWith, viewWith, view, ledgerWith_congr books]
    exact Hands.refl
  have followed : ∀ (u : CoreTurn) (entry : Bool) (next : Option AlarmState) (wake : Bool)
      (source : Option PublicationId), Hands G r u id cell cell
        ({ cell with alarm := next, alarmWake := wake, alarmSource := source },
          if entry then u.push (.reconcileWakeEntry id alarm) else u) := by
    intro u entry next wake source
    have touched : Hands G r u id cell cell
        ({ cell with alarm := next, alarmWake := wake, alarmSource := source }, u) :=
          hand_touch _ rfl
    split
    · exact touched.trans (hand_note [_] (by simp [CellEffect.inert]) rfl rfl)
    · exact touched
  refine dropped.trans ?_
  unfold settleObservation
  dsimp only
  split
  · exact followed (t.dropFiring cell) _ _ _ _
  · rename_i atMs _
    let scheduled := CoreTurn.scheduleAlarmTimer { t.dropFiring cell with
      nextTimerGeneration := (t.dropFiring cell).nextTimerGeneration + 1 } id
      (t.dropFiring cell).nextTimerGeneration atMs nowMs nowMonoMs
    have armed : Hands G r (t.dropFiring cell) id cell cell (cell, scheduled) :=
      hand_note [_] (by simp [CellEffect.inert]) rfl rfl
    exact armed.trans (followed scheduled _ _ _ _)

/-- An observation calls an eviction off, and is staged while the alarm fires. -/
theorem alarmObserved_turn (alarm : AlarmSnapshot) (covered firingSettled : Bool)
    (nowMs nowMonoMs : ℕ) :
    Turns G r t (t.alarmObserved id alarm covered firingSettled nowMs nowMonoMs) := by
  unfold alarmObserved
  split
  · exact .refl
  rename_i cell mem
  split
  · exact .refl
  · have rescued : Hands G r (t.dropCell id) id cell cell
        ((t.dropCell id).rescueObserved id cell alarm covered) := rescueObserved_hand alarm covered
    have staged : ∀ (p : Cell × CoreTurn) (next : Option AlarmState),
        Hands G r p.2 id p.1 p.1 ({ p.1 with alarm := next }, p.2) := fun _ _ => hand_touch _ rfl
    dsimp only
    split
    · exact handled mem (rescued.trans (staged _ _))
    · exact handled mem (rescued.trans (settleObservation_hand _ _ _ _))

/-- A firing starts an operation of its own and leaves the cell where it is. -/
theorem fireAlarm_stores {epoch : Epoch} (id : CellId) (cell : Cell)
    (phase : cell.phase = .resident epoch) (atMs : Ms)
    (generation : ℕ) (covered : Bool) :
    Stores G r t id cell cell (t.fireAlarm id cell epoch atMs generation covered) := by
  let next : Cell :=
    { cell with alarm := some (.firing t.nextOp atMs generation covered none), alarmWake := false }
  let fired : CoreTurn := (t.cellOp id).2.push (.fireAlarm t.nextOp id epoch atMs)
  have started : Hands G r t id cell cell (next, fired) :=
    ⟨hand_startOp (.fireAlarm id next (by simpa using .of_kept rfl) epoch atMs
      (by simpa using phase)) rfl, shift_touch id (.of_kept rfl)⟩
  exact started.stored

/-- An alarm that is due fires on a runtime, wakes a parked cell, and waits for any other. -/
theorem alarmDue_stores (gone : t.Gone id) (drops : r.drops) (atMs : Ms) (generation : ℕ)
    (covered : Bool) (nowMonoMs : ℕ) :
    Stores G r t id cell cell (t.alarmDue id cell atMs generation covered nowMonoMs) := by
  have retry : ∀ (u : CoreTurn) (next : Cell), Hands G r u id next next
      (next, u.retryAlarmTimer id generation nowMonoMs) :=
    fun u _ => hand_note [_] (by simp [CellEffect.inert]) rfl rfl
  have cleared : Hands G r t id cell cell ({ cell with alarm := none }, t) := hand_touch _ rfl
  have forgotten : Stores G r t id cell cell (t.putCell id { cell with alarm := none }) :=
    cleared.stored
  have woken : cell.phase.isQueued = false → Stores G r t id cell cell
      (if t.draining then t.putCell id { cell with alarm := none }
        else
          ((t.admitOrQueueActivation id
            { cell with alarmWake := true } .readOwner).2.retryAlarmTimer
            id generation nowMonoMs).putCell id
            (t.admitOrQueueActivation id { cell with alarmWake := true } .readOwner).1) := by
    intro unqueued
    split
    · exact forgotten
    · have admitted : Hands G r t id cell cell
          (t.admitOrQueueActivation id { cell with alarmWake := true } .readOwner) :=
        admitReadOwner_hand gone (.of_kept rfl (.inl unqueued)) drops
      exact (admitted.trans (retry _ _)).stored
  unfold alarmDue
  split
  · rename_i phase
    split
    · exact (retry t cell).stored
    · exact fireAlarm_stores id cell phase _ _ _
  · rename_i epoch phase
    have rescued : Hands G r t id cell cell (t.cancelEviction id cell epoch .alarm) :=
      cancelEviction_hand phase .alarm
    exact rescued.store (fireAlarm_stores id _ rfl atMs generation covered)
  · exact forgotten
  · rename_i phase
    exact woken (by rw [phase]; rfl)
  · rename_i phase
    exact woken (by rw [phase]; rfl)
  · exact (retry t cell).stored

/-- A timer counts only for the alarm it was armed for. -/
theorem cellAlarmTimer_turn (drops : r.drops) (authoritative : Bool)
    (generation nowMs nowMonoMs : ℕ) :
    Turns G r t (t.cellAlarmTimer authoritative id generation nowMs nowMonoMs) := by
  unfold cellAlarmTimer
  split
  · exact .refl
  split
  · exact .refl
  rename_i mem
  split
  · split
    · exact .refl
    split
    · exact table_push rfl
    · exact (alarmDue_stores (dropCell_gone t id) drops _ _ _ _).drop.turn mem
  · exact .refl

/-- A firing that ended is observed as its snapshot says; one that failed is armed again. -/
theorem settleAlarm_turn (op : OpId) (nowMs nowMonoMs : ℕ)
    (result : Except Failure (AlarmSnapshot × Bool)) :
    Turns G r t (t.settleAlarm op nowMs nowMonoMs result) := by
  unfold settleAlarm
  split
  · exact .refl
  rename_i cell _ eq
  obtain ⟨_, mem, _, rfl⟩ := takeCellOp_some eq
  split
  · split
    · exact alarmObserved_turn (t := t.dropOp op) _ _ _ _ _
    · rename_i atMs generation covered _ _ _ _
      exact (put_turn mem { cell with alarm := some (.armed atMs generation covered) }
        rfl).trans (table_push rfl)
  · exact .refl

end Celld.CoreTurn
