import Mathlib

/-!
# The input gate

While an event holds the gate of a cell, no other event is delivered.  Holds nest, an event that
dies gives up its holds, and a release that comes after that changes nothing.

What the gate is for is said of the calls and their answers alone (`owed`): `refines` says that a
gate answers by what they leave owed.
-/

namespace Celld

abbrev EventId := ℕ

structure InputGate where
  holder : Option EventId := none
  outstanding : UInt32 := 0

inductive GateCall where
  | acquire (event : EventId)
  | release (event : EventId)
  | abandon (event : EventId)

namespace InputGate

variable (g : InputGate)

def isOpen : Bool := g.holder.isNone

def acquire (event : EventId) : InputGate × Bool :=
  match g.holder with
  | none => (⟨some event, 1⟩, true)
  | some holder =>
      if holder = event then ({ g with outstanding := g.outstanding + 1 }, true) else (g, false)

def release (event : EventId) : InputGate × Bool :=
  if g.holder ≠ some event then (g, false)
  else if g.outstanding - 1 = 0 then (⟨none, g.outstanding - 1⟩, true)
  else ({ g with outstanding := g.outstanding - 1 }, false)

def abandon (event : EventId) : InputGate × Bool :=
  if g.holder ≠ some event then (g, false) else (⟨none, 0⟩, true)

def step : GateCall → InputGate × Bool
  | .acquire event => g.acquire event
  | .release event => g.release event
  | .abandon event => g.abandon event

/-- The gate after some calls, and the calls with their answers, the last one first. -/
def run (calls : List GateCall) : InputGate × List (GateCall × Bool) :=
  calls.foldl (fun (g, log) call => ((g.step call).1, (call, (g.step call).2) :: log)) ({}, [])

/-- The holds that calls leave an event with: the acquires it was granted, less its releases. -/
def owed (event : EventId) : List (GateCall × Bool) → ℕ
  | [] => 0
  | (.acquire caller, granted) :: log =>
      if caller = event ∧ granted then owed event log + 1 else owed event log
  | (.release caller, _) :: log => if caller = event then owed event log - 1 else owed event log
  | (.abandon caller, _) :: log => if caller = event then 0 else owed event log

/-- What a call is answered. -/
def Answers (log : List (GateCall × Bool)) : GateCall → Prop
  | .acquire event => ∀ other ≠ event, owed other log = 0
  | .release event => owed event log = 1
  | .abandon event => 0 < owed event log

/-- The holds that are owed are the holder's. -/
structure Tracks (log : List (GateCall × Bool)) : Prop where
  owes event : owed event log = if g.holder = some event then g.outstanding.toNat else 0
  held : g.holder ≠ none → 0 < g.outstanding.toNat
  bound : g.outstanding.toNat ≤ log.length

variable {g} {log : List (GateCall × Bool)}

/-- A call is answered by what is owed, and what it leaves owed is the holder's again. -/
theorem Tracks.step (tracks : g.Tracks log) (short : log.length + 1 < 2 ^ 32) (call : GateCall) :
    ((g.step call).2 ↔ Answers log call) ∧
      (g.step call).1.Tracks ((call, (g.step call).2) :: log) := by
  obtain ⟨holder, outstanding⟩ := g
  obtain ⟨owes, held, bound⟩ := tracks
  dsimp only at owes held bound
  have more : (outstanding + 1).toNat = outstanding.toNat + 1 := by
    rw [UInt32.toNat_add]
    exact Nat.mod_eq_of_lt (by simp; omega)
  have less (some_ : 0 < outstanding.toNat) : (outstanding - 1).toNat = outstanding.toNat - 1 :=
    UInt32.toNat_sub_of_le _ _ some_
  have last : outstanding - 1 = 0 ↔ outstanding.toNat = 1 := by
    rw [sub_eq_zero, ← UInt32.toNat_inj]
    rfl
  have one : (1 : UInt32).toNat = 1 := rfl
  refine ⟨?_, ?_, ?_, ?_⟩ <;> cases call <;> cases holder <;>
    simp only [InputGate.step, acquire, release, abandon, Answers, owed, owes, List.length_cons] <;>
    first | grind | split_ifs <;> grind

theorem run_tracks (calls : List GateCall) (short : calls.length < 2 ^ 32) :
    (run calls).1.Tracks (run calls).2 ∧ (run calls).2.length = calls.length := by
  induction calls using List.reverseRecOn with
  | nil => exact ⟨⟨fun _ => rfl, absurd rfl, le_rfl⟩, rfl⟩
  | append_singleton calls call ih =>
    rw [List.length_append, List.length_singleton] at short
    obtain ⟨tracks, length⟩ := ih (by omega)
    rw [run, List.foldl_append]
    exact ⟨(tracks.step (by omega) call).2, by simp [← length, run]⟩

/-- **The gate has one holder.**  After fewer than `2 ^ 32 - 1` calls at most one event is owed
holds, the gate is open where none is, and the next call is answered by what is owed. -/
theorem refines (calls : List GateCall) (call : GateCall) (short : calls.length + 1 < 2 ^ 32) :
    (∀ one other, 0 < owed one (run calls).2 → 0 < owed other (run calls).2 → one = other) ∧
      ((run calls).1.isOpen ↔ ∀ event, owed event (run calls).2 = 0) ∧
      (((run calls).1.step call).2 ↔ Answers (run calls).2 call) := by
  obtain ⟨tracks, length⟩ := run_tracks calls (by omega)
  refine ⟨fun one other => ?_, ?_, (tracks.step (length ▸ short) call).1⟩
  · rw [tracks.owes, tracks.owes]
    grind
  · have held := tracks.held
    simp only [isOpen, tracks.owes]
    cases holder : (run calls).1.holder <;> grind

/-- An event that took two holds and gave back one excludes another one. -/
theorem nested_refines :
    ((run [.acquire 1, .acquire 1, .release 1]).1.step (.acquire 2)).2 = false := by
  refine Bool.eq_false_iff.mpr fun granted => ?_
  have free := (refines _ (.acquire 2) (by decide)).2.2.mp granted
  exact absurd (free 1 (by decide)) (by decide)

end InputGate

end Celld
