import Celld.Core.Types

/-!
# Memory-pressure shedding

The classifier of `crates/logic/pressure.rs`: a memory sample and the prior
latches decide whether the node sheds, against which measurement, and how far
down.  Each ceiling engages at its own crossing and releases at its own low
watermark.
-/

namespace Celld

/-- Which ceilings are currently latched. -/
structure Latches where
  memory : Bool := false
  rssHard : Bool := false
  deriving DecidableEq

/-- Which measurement a walk down is working against. -/
inductive Metric where
  | inUse
  | rss
  deriving DecidableEq

namespace Load

/-- The ordinary pressure measurement. -/
def memoryBytes (load : Load) : ℕ :=
  let allocatorSlack := load.rssBytes - load.inUseBytes
  let cgroupInUse := load.cgroupWorkingSetBytes.getD 0 - allocatorSlack
  satAdd (max load.inUseBytes cgroupInUse) load.containerReservedBytes

/-- The hard pressure measurement. -/
def hardBytes (load : Load) : ℕ :=
  satAdd (load.cgroupCurrentBytes.getD load.rssBytes) load.containerReservedBytes

/-- Memory a rollout must leave room for under the absolute cap. -/
def rolloutHardBytes (load : Load) : ℕ :=
  satAdd
    (match load.cgroupWorkingSetBytes with
      | none => load.cgroupCurrentBytes.getD load.rssBytes
      | some workingSet => max workingSet load.rssBytes)
    load.containerReservedBytes

def metricBytes (load : Load) : Metric → ℕ
  | .inUse => load.memoryBytes
  | .rss => load.hardBytes

end Load

/-- The shed reason of the ordinary ceiling. -/
def shedMemory : String := "memory"

/-- The shed reason of the absolute cap. -/
def shedRssHard : String := "rss-hard"

namespace PressureConfig

/-- The sample a latched ceiling releases at: 80% of the ceiling. -/
def lowWatermark (ceiling : ℕ) : ℕ := min (ceiling * 4) u64Max / 5

/-- A ceiling holds at or above itself, and above its low watermark once
latched. -/
def crosses (ceiling : Option ℕ) (sample : ℕ) (latched : Bool) : Bool :=
  match ceiling with
  | none => false
  | some c => c ≤ sample || (latched && lowWatermark c < sample)

/-- Fold a sample into the latches, and say why the node is shedding. -/
def classify (config : PressureConfig) (load : Load) (was : Latches) : Latches × Option String :=
  let latches : Latches :=
    { memory := crosses config.highBytes load.memoryBytes was.memory
      rssHard := crosses config.rssHardBytes load.hardBytes was.rssHard }
  (latches,
    if latches.rssHard then some shedRssHard
    else if latches.memory then some shedMemory
    else none)

/-- Whether a measurement sits at or below a ceiling's low watermark. -/
def below (ceiling : Option ℕ) (bytes : ℕ) : Bool :=
  match ceiling with
  | none => true
  | some c => bytes ≤ lowWatermark c

/-- Whether the sample leaves the reserve below every configured low
watermark. -/
def hasHeadroom (config : PressureConfig) (load : Load) : Bool :=
  below config.highBytes load.memoryBytes && below config.rssHardBytes load.rolloutHardBytes

/-- Where the walk down against a metric has to get the sample to. -/
def resumeLine (config : PressureConfig) : Metric → Option ℕ
  | .inUse => config.highBytes.map lowWatermark
  | .rss => config.rssHardBytes.map lowWatermark

/-- Which measurement the walk down must work against, given the latches. -/
def walkMetric (latches : Latches) : Metric := if latches.memory then .inUse else .rss

/-- How far to shed down to. -/
def releaseTarget (residentCells : ℕ) : ℕ := residentCells - max (residentCells / 10) 1

end PressureConfig

def maxOutboundPinPercent : ℕ := 50

/-- May another cell be pinned resident by an outbound WebSocket? -/
def mayPinOutbound (pinnedCells ceiling : ℕ) : Bool :=
  pinnedCells < max (min (ceiling * maxOutboundPinPercent) u64Max / 100) 1

end Celld
