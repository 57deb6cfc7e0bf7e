import Celld.Core.Types

/-!
# The gray-follower eviction policy

The leader of a log tier acknowledges a write when every follower has it, so one slow follower
stalls them all.  `FollowerHealth` watches the latency of each member's appends over a sliding
window, and judges a member against the fastest of its siblings: over the threshold it is
suspect, and suspect for long enough it is evicted.  An append that is outstanding past a hard
backstop evicts at once.

What is proved is about the suspect clock.  An eviction by the sustain rule needs a clock that
has run since a verdict at least `sustain_ms` ago, and a healthy verdict is meant to stop it.  One
healthy exit does not: a window that has emptied.  `FollowerHealth.Lapses` is that case, and
apart from it the clock measures an unbroken row of verdicts other than healthy.
-/

namespace Celld.LogTier

open List Option

/-- `u64::saturating_mul`. -/
def satMul (a b : ℕ) : ℕ := min (a * b) u64Max

/-- Consecutive failed idle probes that degrade the ensemble off a member. -/
def probeFailuresToDegrade : ℕ := 3

structure EvictionPolicy where
  budgetMs : ℕ := 25
  siblingFactor : ℕ := 4
  sustainMs : ℕ := 2000
  backstopMs : ℕ := 1500
  quarantineMs : ℕ := 300000
  windowMs : ℕ := 3000
  minSamples : ℕ := 5
  hedgeFloorMs : ℕ := 250
  hedgeFactor : ℕ := 4
  deriving DecidableEq

inductive Verdict where
  | healthy
  /-- Over budget, sustain running. -/
  | suspect
  | evict
  deriving DecidableEq

/-- The rule behind an eviction. -/
inductive VerdictRule where
  | none
  | backstop
  | sustain
  deriving DecidableEq

/-- The evidence of a verdict. -/
structure VerdictDetail where
  rule : VerdictRule := .none
  outstandingMs : ℕ := 0
  ownMedianMs : Option ℕ := none
  samples : ℕ := 0
  siblingMedianMs : Option ℕ := none
  thresholdMs : ℕ := 0
  suspectMs : ℕ := 0
  deriving DecidableEq

structure MemberHealth where
  /-- Completion time and latency, oldest first. -/
  samples : List (ℕ × ℕ) := []
  outstandingSince : Option ℕ := none
  suspectSince : Option ℕ := none
  lastProbeFailedMs : Option ℕ := none
  probeFailures : ℕ := 0
  deriving DecidableEq

namespace MemberHealth

variable (policy : EvictionPolicy)

def prune (health : MemberHealth) (nowMs windowMs : ℕ) : MemberHealth :=
  { health with samples := health.samples.dropWhile fun (told, _) => satAdd told windowMs < nowMs }

def medianMs (health : MemberHealth) : Option ℕ :=
  if health.samples.isEmpty then none
  else
    let sorted := (health.samples.map (·.2)).insertionSort (· ≤ ·)
    sorted[sorted.length / 2]?

/-- The threshold of the sustain rule. -/
def threshold (siblingMedian : Option ℕ) : ℕ :=
  max ((siblingMedian.map fun median => satMul median policy.siblingFactor).getD 0)
    policy.budgetMs

/-- How long the append in flight has been out. -/
def outstandingMs (health : MemberHealth) (nowMs : ℕ) : ℕ :=
  (health.outstandingSince.map (nowMs - ·)).getD 0

/-- The append in flight is past the backstop. -/
def pastBackstop (health : MemberHealth) (nowMs : ℕ) : Bool :=
  health.outstandingSince.any fun since => policy.backstopMs ≤ nowMs - since

/-- The sustain rule, on a member over the threshold: the suspect clock starts, or runs on. -/
def sustain (health : MemberHealth) (nowMs : ℕ)
    (detail : VerdictDetail) : (Verdict × VerdictDetail) × MemberHealth :=
  let since := health.suspectSince.getD nowMs
  let health := { health with suspectSince := some since }
  let detail := { detail with suspectMs := nowMs - since }
  if policy.sustainMs ≤ detail.suspectMs then
    ((.evict, { detail with rule := .sustain }), health)
  else ((.suspect, detail), health)

/-- The verdict on a member whose siblings have been looked at.  `others` says that there are
siblings at all. -/
def judge (siblingMedian : Option ℕ) (others : Bool)
    (health : MemberHealth) (nowMs : ℕ) : (Verdict × VerdictDetail) × MemberHealth :=
  let detail : VerdictDetail :=
    { siblingMedianMs := siblingMedian, outstandingMs := health.outstandingMs nowMs }
  if health.pastBackstop policy nowMs then ((.evict, { detail with rule := .backstop }), health)
  else
    let health := health.prune nowMs policy.windowMs
    let detail := { detail with samples := health.samples.length }
    match health.medianMs with
    -- The window is empty, and the suspect clock keeps its start.
    | none => ((.healthy, detail), health)
    | some ownMedian =>
        let detail := { detail with ownMedianMs := some ownMedian }
        if detail.samples < policy.minSamples then
          ((.healthy, detail), { health with suspectSince := none })
        else if siblingMedian.isNone && others then
          ((.healthy, detail), { health with suspectSince := none })
        else
          let detail := { detail with thresholdMs := threshold policy siblingMedian }
          if ownMedian ≤ detail.thresholdMs then
            ((.healthy, detail), { health with suspectSince := none })
          else health.sustain policy nowMs detail

theorem medianMs_eq_none {health : MemberHealth} (empty : health.medianMs = none) :
    health.samples = [] := by
  unfold medianMs at empty
  by_cases blank : health.samples.isEmpty
  · exact List.isEmpty_iff.mp blank
  · have filled : 0 < health.samples.length := length_pos_iff.mpr (by simpa using blank)
    simp only [blank, Bool.false_eq_true, if_false, List.getElem?_eq_none_iff,
      length_insertionSort, length_map] at empty
    omega

/-- What a verdict does to the suspect clock. -/
inductive Clock (policy : EvictionPolicy) (nowMs : ℕ) (before : Option ℕ) :
    Verdict × VerdictDetail → Option ℕ → Prop
  | stops {answer} (healthy : answer.1 = .healthy) : Clock policy nowMs before answer none
  | stays {answer} (ill : answer.1 ≠ .healthy) (rule : answer.2.rule ≠ .sustain) :
      Clock policy nowMs before answer before
  | runs {answer} (ill : answer.1 ≠ .healthy)
      (long : answer.2.rule = .sustain → policy.sustainMs ≤ nowMs - before.getD nowMs) :
      Clock policy nowMs before answer (some (before.getD nowMs))

/-- A clock that runs after a verdict ran before it, or starts with it; and a sustained eviction
has seen it run for long enough. -/
theorem Clock.running {policy : EvictionPolicy} {nowMs since : ℕ} {before after : Option ℕ}
    {answer : Verdict × VerdictDetail} (clock : Clock policy nowMs before answer after)
    (runs : after = some since) :
    answer.1 ≠ .healthy ∧ (before = some since ∨ since = nowMs) ∧
      (answer.2.rule = .sustain → policy.sustainMs ≤ nowMs - since) := by
  cases clock with
  | stops => cases runs
  | stays ill rule => exact ⟨ill, .inl runs, fun sustained => absurd sustained rule⟩
  | runs ill long =>
    cases runs
    refine ⟨ill, ?_, long⟩
    cases before with
    | none => exact .inr rfl
    | some => exact .inl rfl

theorem Clock.stopped {policy : EvictionPolicy} {nowMs : ℕ} {before after : Option ℕ}
    {answer : Verdict × VerdictDetail} (clock : Clock policy nowMs before answer after)
    (healthy : answer.1 = .healthy) : after = none := by
  cases clock with
  | stops => rfl
  | stays ill => exact absurd healthy ill
  | runs ill => exact absurd healthy ill

/-- A sustained eviction leaves the clock running. -/
theorem Clock.runs_of_sustain {policy : EvictionPolicy} {nowMs : ℕ} {before after : Option ℕ}
    {answer : Verdict × VerdictDetail} (clock : Clock policy nowMs before answer after)
    (ill : answer.1 ≠ .healthy) (rule : answer.2.rule = .sustain) :
    ∃ since, after = some since := by
  cases clock with
  | stops healthy => exact absurd healthy ill
  | stays _ other => exact absurd rule other
  | runs => exact ⟨_, rfl⟩

theorem sustain_clock (health : MemberHealth) (nowMs : ℕ)
    {detail : VerdictDetail} (fresh : detail.rule ≠ .sustain) :
    Clock policy nowMs health.suspectSince (health.sustain policy nowMs detail).1
      (health.sustain policy nowMs detail).2.suspectSince := by
  unfold sustain
  dsimp only
  split
  case isTrue long => exact .runs (by simp) fun _ => long
  case isFalse => exact .runs (by simp) fun rule => absurd rule fresh

/-- Unless its window has emptied under a running clock, a member judged healthy has none. -/
theorem judge_clock (siblingMedian : Option ℕ) (others : Bool) (health : MemberHealth) (nowMs : ℕ)
    (kept : health.suspectSince.isSome = true → health.pastBackstop policy nowMs = false →
      (health.prune nowMs policy.windowMs).samples ≠ []) :
    Clock policy nowMs health.suspectSince
      (health.judge policy siblingMedian others nowMs).1
      (health.judge policy siblingMedian others nowMs).2.suspectSince := by
  unfold judge
  dsimp only
  split
  case isTrue => exact .stays (by simp) (by simp)
  case isFalse short =>
    split
    case h_1 empty =>
      have still : health.suspectSince = none := by
        by_contra running
        exact kept (isSome_iff_ne_none.mpr running) (by simpa using short)
          (medianMs_eq_none empty)
      have pruned : (health.prune nowMs policy.windowMs).suspectSince = none := still
      rw [pruned]
      exact .stops rfl
    case h_2 ownMedian _ =>
      split
      · exact .stops rfl
      · split
        · exact .stops rfl
        · split
          · exact .stops rfl
          · exact sustain_clock policy (health.prune nowMs policy.windowMs) nowMs (by simp)

end MemberHealth

/-- The tracker for one ensemble's followers. -/
structure FollowerHealth where
  members : BTreeMap NodeId MemberHealth := ∅
  quarantinedUntil : BTreeMap NodeId ℕ := ∅
  lastSwapMs : Option ℕ := none

namespace FollowerHealth

variable (f : FollowerHealth)

def reset : FollowerHealth := { f with members := ∅ }

/-- `entry(member).or_default()`. -/
def entry (member : NodeId) : MemberHealth := (f.members[member]?).getD {}

def setMember (member : NodeId) (health : MemberHealth) : FollowerHealth :=
  { f with members := f.members.insert member health }

def appendStarted (member : NodeId) (nowMs : ℕ) : FollowerHealth :=
  let health := f.entry member
  f.setMember member
    { health with outstandingSince := some (health.outstandingSince.getD nowMs) }

def appendCompleted (member : NodeId) (nowMs latencyMs : ℕ) : FollowerHealth :=
  let health := f.entry member
  f.setMember member
    { health with
      outstandingSince := none
      samples := health.samples ++ [(nowMs, latencyMs)]
      probeFailures := 0 }

/-- An idle probe failed.  The answer is whether to degrade the ensemble off the member. -/
def probeFailed (member : NodeId) (nowMs : ℕ) : Bool × FollowerHealth :=
  let health := f.entry member
  let failures := min (health.probeFailures + 1) (2 ^ 32 - 1)
  (probeFailuresToDegrade ≤ failures, f.setMember member
    { health with
      outstandingSince := none
      lastProbeFailedMs := some nowMs
      probeFailures := failures })

/-- The medians of the siblings, each pruned first. -/
def siblingMedians (policy : EvictionPolicy) (member : NodeId) (nowMs : ℕ) :
    List NodeId → BTreeMap NodeId MemberHealth → List ℕ × BTreeMap NodeId MemberHealth
  | [], members => ([], members)
  | sibling :: rest, members =>
      if sibling = member then siblingMedians policy member nowMs rest members
      else
        match members[sibling]? with
        | none => siblingMedians policy member nowMs rest members
        | some health =>
            let health := health.prune nowMs policy.windowMs
            let (medians, members) :=
              siblingMedians policy member nowMs rest (members.insert sibling health)
            (health.medianMs.toList ++ medians, members)

/-- The eviction decision for a member, with its evidence. -/
def verdictDetailed (policy : EvictionPolicy) (member : NodeId)
    (siblings : List NodeId) (nowMs : ℕ) : (Verdict × VerdictDetail) × FollowerHealth :=
  let (medians, members) := siblingMedians policy member nowMs siblings f.members
  let f := { f with members := members }
  match f.members[member]? with
  | none => ((.healthy, { siblingMedianMs := medians.min? }), f)
  | some health =>
      let (answer, health) :=
        health.judge policy medians.min? (siblings.any (· ≠ member)) nowMs
      (answer, f.setMember member health)

def evicted (member : NodeId) (nowMs : ℕ) : FollowerHealth :=
  { f with members := f.members.erase member, lastSwapMs := some nowMs }

def appendIncapable (policy : EvictionPolicy) (member : NodeId) (nowMs : ℕ) : FollowerHealth :=
  { f with
    quarantinedUntil := f.quarantinedUntil.insert member (satAdd nowMs policy.quarantineMs)
    members := f.members.erase member }

/-- The stream hedge deadline, from the worst append of every window. -/
def hedgeDeadlineMs (policy : EvictionPolicy) (nowMs : ℕ) : ℕ × FollowerHealth :=
  let members := f.members.map fun _ health => health.prune nowMs policy.windowMs
  let worst := (members.toList.flatMap fun (_, health) => health.samples.map (·.2)).foldl max 0
  let cap := satMul (policy.backstopMs / 3) 2
  let floor := min policy.hedgeFloorMs cap
  (max floor (min (satMul policy.hedgeFactor worst) cap), { f with members := members })

end FollowerHealth

/-! ## Runs of the tracker -/

/-- The calls that change the tracker. -/
inductive Call where
  | appendStarted (member : NodeId)
  | appendCompleted (member : NodeId) (latencyMs : ℕ)
  | probeFailed (member : NodeId)
  | verdictDetailed (policy : EvictionPolicy) (member : NodeId) (siblings : List NodeId)
  | hedgeDeadlineMs (policy : EvictionPolicy)
  | evicted (member : NodeId)
  | appendIncapable (policy : EvictionPolicy) (member : NodeId)
  | reset
  deriving DecidableEq

namespace FollowerHealth

variable (f : FollowerHealth)

/-- The tracker after one call at `nowMs`. -/
def call (nowMs : ℕ) : Call → FollowerHealth
  | .appendStarted member => f.appendStarted member nowMs
  | .appendCompleted member latencyMs => f.appendCompleted member nowMs latencyMs
  | .probeFailed member => (f.probeFailed member nowMs).2
  | .verdictDetailed policy member siblings => (f.verdictDetailed policy member siblings nowMs).2
  | .hedgeDeadlineMs policy => (f.hedgeDeadlineMs policy nowMs).2
  | .evicted member => f.evicted member nowMs
  | .appendIncapable policy member => f.appendIncapable policy member nowMs
  | .reset => f.reset

/-- The start of a member's suspect clock. -/
def suspectSince (member : NodeId) : Option ℕ :=
  (f.entry member).suspectSince

theorem entry_setMember (member key : NodeId) (health : MemberHealth) :
    (f.setMember member health).entry key = if key = member then health else f.entry key := by
  unfold entry setMember
  rw [Std.ExtTreeMap.getElem?_insert]
  by_cases same : key = member
  · simp [same]
  · rw [if_neg (by simpa using Ne.symm same), if_neg same]

/-- Looking at the siblings leaves the member alone, and every clock. -/
theorem siblingMedians_members (policy : EvictionPolicy) (member : NodeId) (nowMs : ℕ)
    (siblings : List NodeId) (members : BTreeMap NodeId MemberHealth) :
    (siblingMedians policy member nowMs siblings members).2[member]? = members[member]? ∧
      ∀ key : NodeId, ((siblingMedians policy member nowMs siblings members).2[key]?).map
        MemberHealth.suspectSince = (members[key]?).map MemberHealth.suspectSince := by
  induction siblings generalizing members with
  | nil => exact ⟨rfl, fun _ => rfl⟩
  | cons sibling rest ih =>
    unfold siblingMedians
    split
    case isTrue => exact ih members
    case isFalse other =>
      split
      case h_1 => exact ih members
      case h_2 health found =>
        obtain ⟨own, clocks⟩ := ih (members.insert sibling (health.prune nowMs policy.windowMs))
        refine ⟨own.trans ?_, fun key => (clocks key).trans ?_⟩
        · rw [Std.ExtTreeMap.getElem?_insert, if_neg (by simpa using other)]
        · rw [Std.ExtTreeMap.getElem?_insert]
          split
          case isTrue same =>
            obtain rfl : sibling = key := by simpa using same
            rw [found]
            rfl
          case isFalse => rfl

/-- The verdict is on a suspect member whose window has emptied, and whose append in flight, if
any, is short of the backstop. -/
def Lapses (nowMs : ℕ) : Call → Prop
  | .verdictDetailed policy member _ =>
      (f.suspectSince member).isSome = true ∧
        (f.entry member).pastBackstop policy nowMs = false ∧
        ((f.entry member).prune nowMs policy.windowMs).samples = []
  | _ => False

instance (f : FollowerHealth) (nowMs : ℕ) : ∀ call, Decidable (f.Lapses nowMs call)
  | .verdictDetailed _ _ _ => inferInstanceAs (Decidable (_ ∧ _ ∧ _))
  | .appendStarted _ | .appendCompleted _ _ | .probeFailed _ | .hedgeDeadlineMs _ | .evicted _
  | .appendIncapable _ _ | .reset => inferInstanceAs (Decidable False)

theorem suspectSince_eq (key : NodeId) :
    f.suspectSince key = ((f.members[key]?).map MemberHealth.suspectSince).join := by
  unfold suspectSince entry
  cases f.members[key]? <;> rfl

theorem suspectSince_setMember (member key : NodeId) (health : MemberHealth)
    (clock : health.suspectSince = f.suspectSince member) :
    (f.setMember member health).suspectSince key = f.suspectSince key := by
  rw [suspectSince, entry_setMember]
  split
  case isTrue same => rw [clock, same]
  case isFalse => rfl

theorem suspectSince_erase (member key : NodeId) :
    suspectSince { f with members := f.members.erase member } key = f.suspectSince key ∨
      suspectSince { f with members := f.members.erase member } key = none := by
  rw [suspectSince_eq, suspectSince_eq, Std.ExtTreeMap.getElem?_erase]
  split
  · exact .inr rfl
  · exact .inl rfl

/-- **What a verdict does to the clock of the member it is on.** -/
theorem verdictDetailed_clock (policy : EvictionPolicy) (member : NodeId)
    (siblings : List NodeId) (nowMs : ℕ)
    (kept : ¬ f.Lapses nowMs (.verdictDetailed policy member siblings)) :
    MemberHealth.Clock policy nowMs (f.suspectSince member)
      (f.verdictDetailed policy member siblings nowMs).1
      ((f.verdictDetailed policy member siblings nowMs).2.suspectSince member) := by
  have own := (siblingMedians_members policy member nowMs siblings f.members).1
  unfold verdictDetailed
  dsimp only
  split
  case h_1 absent =>
    have blank : suspectSince { f with
        members := (siblingMedians policy member nowMs siblings f.members).2 } member = none := by
      rw [suspectSince, entry, absent]
      rfl
    rw [blank]
    exact .stops rfl
  case h_2 health found =>
    have here : f.entry member = health := by rw [entry, ← own, found]; rfl
    have clock : f.suspectSince member = health.suspectSince := congrArg _ here
    rw [clock, suspectSince, entry_setMember, if_pos rfl]
    refine MemberHealth.judge_clock policy _ _ health nowMs fun running short empty => kept ?_
    rw [Lapses, here, clock]
    exact ⟨running, short, empty⟩

/-- Every other call leaves the clock of a member, or forgets the member. -/
theorem call_suspectSince (nowMs : ℕ) (call : Call) (key : NodeId)
    (other : ∀ policy siblings, call ≠ .verdictDetailed policy key siblings) :
    (f.call nowMs call).suspectSince key = f.suspectSince key ∨
      (f.call nowMs call).suspectSince key = none := by
  cases call with
  | appendStarted member => exact .inl (suspectSince_setMember f member key _ rfl)
  | appendCompleted member => exact .inl (suspectSince_setMember f member key _ rfl)
  | probeFailed member => exact .inl (suspectSince_setMember f member key _ rfl)
  | verdictDetailed policy member siblings =>
    have differs : key ≠ member := fun same => other policy siblings (by rw [same])
    have clocks := (siblingMedians_members policy member nowMs siblings f.members).2 key
    have looked : suspectSince { f with
        members := (siblingMedians policy member nowMs siblings f.members).2 } key
          = f.suspectSince key := by
      rw [suspectSince_eq, suspectSince_eq, clocks]
    refine .inl ?_
    unfold call verdictDetailed
    dsimp only
    split
    · exact looked
    · rw [suspectSince, entry_setMember, if_neg differs]
      exact looked
  | hedgeDeadlineMs =>
    refine .inl ?_
    simp only [call, hedgeDeadlineMs, suspectSince_eq, Std.ExtTreeMap.getElem?_map]
    cases f.members[key]? <;> rfl
  | evicted member => exact suspectSince_erase f member key
  | appendIncapable policy member => exact suspectSince_erase f member key
  | reset =>
    refine .inr ?_
    simp [call, reset, suspectSince, entry]

end FollowerHealth

/-- A run of the tracker: calls with the instants they were made at. -/
abbrev Calls := List (ℕ × Call)

namespace Calls

/-- The tracker before call `i`. -/
def trackerAt (calls : Calls) (i : ℕ) : FollowerHealth :=
  (calls.take i).foldl (fun f (nowMs, call) => f.call nowMs call) {}

/-- What call `i` answers, if it asks for a verdict on the member. -/
def verdictAt (calls : Calls) (member : NodeId) (i : ℕ) : Option (Verdict × VerdictDetail) :=
  match calls[i]? with
  | some (nowMs, .verdictDetailed policy judged siblings) =>
      if judged = member then
        some ((calls.trackerAt i).verdictDetailed policy judged siblings nowMs).1
      else none
  | _ => none

/-- From call `k` to before call `n` no verdict on the member was healthy. -/
def IllSince (calls : Calls) (member : NodeId) (k n : ℕ) : Prop :=
  ∀ j, k ≤ j → j < n → ∀ answer, calls.verdictAt member j = some answer → answer.1 ≠ .healthy

variable {calls : Calls} {member : NodeId} {i n nowMs : ℕ} {call : Call}

theorem trackerAt_succ (told : calls[i]? = some (nowMs, call)) :
    calls.trackerAt (i + 1) = (calls.trackerAt i).call nowMs call := by
  unfold trackerAt
  rw [take_add_one, told, toList_some, foldl_append]
  rfl

theorem verdictAt_of_told {policy : EvictionPolicy} {siblings : List NodeId}
    (told : calls[i]? = some (nowMs, .verdictDetailed policy member siblings)) :
    calls.verdictAt member i
      = some ((calls.trackerAt i).verdictDetailed policy member siblings nowMs).1 := by
  simp [verdictAt, told]

/-- A verdict on the member is a call for it. -/
theorem told_of_verdictAt {answer : Verdict × VerdictDetail}
    (asked : calls.verdictAt member i = some answer) :
    ∃ nowMs policy siblings,
      calls[i]? = some (nowMs, .verdictDetailed policy member siblings) ∧
        answer = ((calls.trackerAt i).verdictDetailed policy member siblings nowMs).1 := by
  unfold verdictAt at asked
  split at asked
  case h_1 nowMs policy judged siblings told =>
    split at asked
    case isTrue same =>
      subst same
      exact ⟨nowMs, policy, siblings, told, by simpa using asked.symm⟩
    case isFalse => cases asked
  case h_2 => cases asked

theorem IllSince.succ {k : ℕ} (ill : calls.IllSince member k n)
    (last : ∀ answer, calls.verdictAt member n = some answer → answer.1 ≠ .healthy) :
    calls.IllSince member k (n + 1) := by
  intro j after before answer asked
  rcases Nat.lt_succ_iff_lt_or_eq.mp before with earlier | rfl
  · exact ill j after earlier answer asked
  · exact last answer asked

/-- The clock of a member that runs before call `n` was started by a call, and no verdict on the
member was healthy since. -/
def Started (calls : Calls) (member : NodeId) (n since : ℕ) : Prop :=
  ∃ k < n, (calls[k]?).map Prod.fst = some since ∧ calls.IllSince member k n

/-- One call keeps the account of every clock. -/
theorem started_succ (told : calls[n]? = some (nowMs, call))
    (kept : ¬ (calls.trackerAt n).Lapses nowMs call)
    (before : ∀ since, (calls.trackerAt n).suspectSince member = some since →
      calls.Started member n since) :
    ∀ since, (calls.trackerAt (n + 1)).suspectSince member = some since →
      calls.Started member (n + 1) since := by
  intro since running
  rw [trackerAt_succ told] at running
  by_cases judged : ∃ policy siblings, call = .verdictDetailed policy member siblings
  · obtain ⟨policy, siblings, rfl⟩ := judged
    have clock := (calls.trackerAt n).verdictDetailed_clock policy member siblings nowMs kept
    have asked := verdictAt_of_told told
    change ((calls.trackerAt n).verdictDetailed policy member siblings nowMs).2.suspectSince
      member = some since at running
    obtain ⟨ill, source, -⟩ := clock.running running
    have last : ∀ answer, calls.verdictAt member n = some answer → answer.1 ≠ .healthy := by
      intro answer same
      cases asked.symm.trans same
      exact ill
    rcases source with ran | rfl
    · obtain ⟨k, earlier, start, ill⟩ := before since ran
      exact ⟨k, by omega, start, ill.succ last⟩
    · refine ⟨n, by omega, by rw [told]; rfl, ?_⟩
      intro j _ _ answer
      obtain rfl : j = n := by omega
      exact last answer
  · have other : ∀ policy siblings, call ≠ .verdictDetailed policy member siblings :=
      fun policy siblings same => judged ⟨policy, siblings, same⟩
    have quiet : ∀ answer, calls.verdictAt member n = some answer → answer.1 ≠ .healthy := by
      intro answer asked
      obtain ⟨_, policy, siblings, again, -⟩ := told_of_verdictAt asked
      cases told.symm.trans again
      exact absurd rfl (other policy siblings)
    rcases (calls.trackerAt n).call_suspectSince nowMs call member other with same | gone
    · obtain ⟨k, earlier, start, ill⟩ := before since (same ▸ running)
      exact ⟨k, by omega, start, ill.succ quiet⟩
    · cases gone.symm.trans running

/-- The account of the clocks, along a run whose verdicts never meet an emptied window under a
running clock. -/
theorem started (meets : ∀ i nowMs call, calls[i]? = some (nowMs, call) →
    ¬ (calls.trackerAt i).Lapses nowMs call) :
    ∀ n ≤ calls.length, ∀ since, (calls.trackerAt n).suspectSince member = some since →
      calls.Started member n since := by
  intro n within
  induction n with
  | zero =>
    intro since running
    simp [trackerAt, FollowerHealth.suspectSince, FollowerHealth.entry] at running
  | succ n ih =>
    obtain ⟨⟨nowMs, call⟩, told⟩ : ∃ call, calls[n]? = some call :=
      ⟨calls[n], getElem?_eq_getElem within⟩
    exact started_succ told (meets n nowMs call told) (ih (by omega))

/-- **A sustained eviction has sustained evidence.**  Calls are made at instants that do not
decrease, and no verdict meets an emptied window under a running clock.  Then an eviction by the
sustain rule looks back over at least `sustain_ms` of verdicts on the member, none of them
healthy; and a member judged healthy keeps no start of a suspect clock. -/
theorem evict_sustained (calls : Calls) (ordered : calls.Pairwise (·.1 ≤ ·.1))
    (meets : ∀ i nowMs call, calls[i]? = some (nowMs, call) →
      ¬ (calls.trackerAt i).Lapses nowMs call) :
    (∀ n nowMs policy member siblings detail,
      calls[n]? = some (nowMs, .verdictDetailed policy member siblings) →
      calls.verdictAt member n = some (.evict, detail) → detail.rule = .sustain →
        ∃ k ≤ n, ∃ since, (calls[k]?).map Prod.fst = some since ∧
          since + policy.sustainMs ≤ nowMs ∧ calls.IllSince member k (n + 1)) ∧
      ∀ n member answer, calls.verdictAt member n = some answer → answer.1 = .healthy →
        (calls.trackerAt (n + 1)).suspectSince member = none := by
  constructor
  · intro n nowMs policy member siblings detail told asked rule
    have within : n < calls.length := (List.getElem?_eq_some_iff.mp told).1
    have kept := meets n nowMs _ told
    have clock := (calls.trackerAt n).verdictDetailed_clock policy member siblings nowMs kept
    have answered := Option.some.inj ((verdictAt_of_told told).symm.trans asked)
    rw [answered] at clock
    obtain ⟨since, runs⟩ := clock.runs_of_sustain (by simp) rule
    obtain ⟨-, -, long⟩ := clock.running runs
    have running : (calls.trackerAt (n + 1)).suspectSince member = some since := by
      rw [trackerAt_succ told]
      exact runs
    obtain ⟨k, _, start, ill⟩ := started meets (n + 1) within since running
    have earlier : since ≤ nowMs := by
      obtain ⟨⟨_, _⟩, there, rfl⟩ := map_eq_some_iff.mp start
      obtain ⟨inside, first⟩ := List.getElem?_eq_some_iff.mp there
      obtain ⟨_, last⟩ := List.getElem?_eq_some_iff.mp told
      rcases Nat.lt_or_ge k n with less | _
      · have sorted := pairwise_iff_getElem.mp ordered k n inside within less
        rwa [first, last] at sorted
      · obtain rfl : k = n := by omega
        cases first.symm.trans last
        exact le_rfl
    have sustained : policy.sustainMs ≤ nowMs - since := long rule
    exact ⟨k, by omega, since, start, by omega, ill⟩
  · intro n member answer asked healthy
    obtain ⟨nowMs, policy, siblings, told, rfl⟩ := told_of_verdictAt asked
    rw [trackerAt_succ told]
    exact ((calls.trackerAt n).verdictDetailed_clock policy member siblings nowMs
      (meets n nowMs _ told)).stopped healthy

/-- A burst of slow appends, and a verdict. -/
def burst (nowMs : ℕ) : Calls :=
  (nowMs, .appendCompleted "b" 5) :: List.replicate 5 (nowMs, .appendCompleted "a" 100) ++
    [(nowMs, .verdictDetailed {} "a" ["a", "b"])]

/-- Two bursts, a second after the window of the first has emptied. -/
def twoBursts : Calls :=
  burst 0 ++ [(5000, .verdictDetailed {} "a" ["a", "b"])] ++ burst 6000

/-- In between the member is judged healthy, and yet it is evicted by the verdict on the second
burst: the clock has run since the first. -/
theorem twoBursts_evicts : twoBursts.Pairwise (·.1 ≤ ·.1) ∧
      (twoBursts.verdictAt "a" 7).map Prod.fst = some .healthy ∧
      (twoBursts.trackerAt 8).suspectSince "a" = some 0 ∧
      (twoBursts.verdictAt "a" 14).map (fun answer => (answer.1, answer.2.rule))
        = some (.evict, .sustain) ∧
      ∀ k since, (twoBursts[k]?).map Prod.fst = some since → since + 2000 ≤ 6000 →
        ¬ twoBursts.IllSince "a" k 15 := by
  have healthy : (twoBursts.verdictAt "a" 7).map Prod.fst = some .healthy := by decide +kernel
  refine ⟨by decide, healthy, by decide +kernel, by decide +kernel, ?_⟩
  intro k since start _ ill
  obtain ⟨answer, asked, judged⟩ := map_eq_some_iff.mp healthy
  refine ill 7 ?_ (by decide) answer asked judged
  by_contra late
  have second : ∀ k < 15, 7 < k → (twoBursts[k]?).map Prod.fst = some 6000 := by decide
  rcases Nat.lt_or_ge k 15 with inside | beyond
  · cases (second k inside (by omega)).symm.trans start
    omega
  · rw [getElem?_eq_none (show twoBursts.length ≤ k from beyond)] at start
    cases start

/-- A member that stays slow. -/
def slowFor : Calls := burst 0 ++ burst 1000 ++ burst 2000

theorem slowFor_meets : ∀ i nowMs call, slowFor[i]? = some (nowMs, call) →
    ¬ (slowFor.trackerAt i).Lapses nowMs call := by
  have checked : ∀ i < 21, (slowFor[i]?).all (fun told =>
      !decide ((slowFor.trackerAt i).Lapses told.1 told.2)) = true := by decide +kernel
  intro i nowMs call told
  have inside : i < 21 := (List.getElem?_eq_some_iff.mp told).1
  simpa [told] using checked i inside

theorem slowFor_evicts : (slowFor.verdictAt "a" 20).map (fun answer => (answer.1, answer.2.rule))
        = some (.evict, .sustain) ∧
      ∃ k ≤ 20, ∃ since, (slowFor[k]?).map Prod.fst = some since ∧ since + 2000 ≤ 2000 ∧
        slowFor.IllSince "a" k 21 := by
  have evicts : (slowFor.verdictAt "a" 20).map (fun answer => (answer.1, answer.2.rule))
      = some (.evict, .sustain) := by decide +kernel
  obtain ⟨⟨_, detail⟩, asked, answered⟩ := map_eq_some_iff.mp evicts
  simp only [Prod.mk.injEq] at answered
  obtain ⟨rfl, rule⟩ := answered
  exact ⟨evicts, (evict_sustained slowFor (by decide) slowFor_meets).1 20 2000 {} "a" ["a", "b"]
    detail rfl asked rule⟩

end Calls

end Celld.LogTier
