/-
  Ranges of time, and how much of the communication overlaps with computation
  (`prof_common_func/_time_range_calculator.py`).

  The times may be of any linear order.  A sort of Python is stable.
-/
import Mathlib.Data.List.Sort

namespace TorchNpu.Profiler

variable {T : Type*}

/-- `TimeRange` -/
structure TimeRange (T : Type*) where
  startTs : T
  endTs : T
  /-- Whether it is a `CommunicationTimeRange`. -/
  communication : Bool := false

namespace RangeCaculator

def generateTimeRange (start «end» : T) (communication : Bool := false) : TimeRange T :=
  { startTs := start, endTs := «end», communication }

variable [LinearOrder T]

/-- `sorted(key=lambda x: x.start_ts)` -/
def sortedByStart (timeRangeList : List (TimeRange T)) : List (TimeRange T) :=
  timeRangeList.insertionSort fun x y => x.startTs ≤ y.startTs

/-! ### `merge_continuous_intervals` -/

/-- The loop, with what is appended to `result` from here on. -/
def mergeLoop (currentRange : TimeRange T) : List (TimeRange T) → List (TimeRange T)
  | [] => [currentRange]
  | timeRange :: timeRangeList =>
    if timeRange.startTs ≤ currentRange.endTs then
      mergeLoop { currentRange with endTs := max currentRange.endTs timeRange.endTs } timeRangeList
    else currentRange :: mergeLoop timeRange timeRangeList

def mergeContinuousIntervals (timeRangeList : List (TimeRange T)) : List (TimeRange T) :=
  match sortedByStart timeRangeList with
  | [] => []
  | currentRange :: rest => mergeLoop currentRange (currentRange :: rest)

/-! ### `compute_pipeline_overlap` -/

/-- The variables of the loop. -/
structure Sweep (T : Type*) where
  minRange : TimeRange T
  pureCommunicationRange : List (TimeRange T) := []
  freeTimeRange : List (TimeRange T) := []

namespace Sweep

/-- `pure_communication_range.append`, where `min_range` is of a communication. -/
def appendPure (s : Sweep T) (start «end» : T) : Sweep T :=
  if s.minRange.communication then
    { s with pureCommunicationRange := s.pureCommunicationRange ++ [generateTimeRange start «end»] }
  else s

/-- A round of the loop. -/
def next (s : Sweep T) (timeRange : TimeRange T) : Sweep T :=
  let minRange := s.minRange
  if minRange.endTs < timeRange.startTs then
    { s.appendPure minRange.startTs minRange.endTs with
      minRange := timeRange
      freeTimeRange := s.freeTimeRange ++ [generateTimeRange minRange.endTs timeRange.startTs] }
  else if minRange.endTs < timeRange.endTs then
    let s := s.appendPure minRange.startTs timeRange.startTs
    let minRange :=
      if minRange.communication then generateTimeRange minRange.endTs timeRange.endTs else minRange
    { s with
      minRange :=
        if timeRange.communication then generateTimeRange minRange.endTs timeRange.endTs true else minRange }
  else
    let s := s.appendPure minRange.startTs timeRange.startTs
    let minRange :=
      if minRange.communication then generateTimeRange timeRange.endTs minRange.endTs true else minRange
    { s with
      minRange :=
        if timeRange.communication then generateTimeRange timeRange.endTs minRange.endTs else minRange }

/-- After the loop. -/
def pureCommunication (s : Sweep T) : List (TimeRange T) :=
  s.pureCommunicationRange ++ if s.minRange.communication then [s.minRange] else []

end Sweep

/-- The pure communication and the free time. -/
def computePipelineOverlap (communicationRange computeRange : List (TimeRange T)) :
    List (TimeRange T) × List (TimeRange T) :=
  match sortedByStart (communicationRange ++ computeRange) with
  | [] => ([], [])
  | minRange :: timeRangeList =>
    let s := timeRangeList.foldl Sweep.next { minRange }
    (s.pureCommunication, s.freeTimeRange)

end RangeCaculator

end TorchNpu.Profiler
