/-
# The segment free map

`SegmentFreeMap` of `tidefs-spacemap-allocator`: the free segments of a pool as
an ordered set of runs, with a cached count, size-class hints for the search
and the segment groups changed since the last checkpoint. The size-class hints
may lag behind the runs (`alloc_after`, `add_free` and `remove_free` do not
rebuild them), so `allocate` can fail on a hint that is out of date; it never
hands out a segment that is not free.
-/
import Tidefs.Lib.Runs
import Tidefs.Lib.Word

namespace Tidefs.SpaceMap

open Ordered Word

def defaultSegmentGroupSegments : ℕ := 4096

/-- `SIZE_CLASS_BOUNDARIES`: the least run length of each size class. -/
def sizeClassBoundaries : List ℕ :=
  [1, 2, 4, 8, 16, 32, 64, 128, 256, 512, 1024, 2048, 4096, 8192]

def sizeClassCount : ℕ := 14

/-- The largest size class whose boundary is at most `len`. -/
def sizeClassFor (len : ℕ) : ℕ :=
  ((sizeClassBoundaries.zipIdx.reverse.find? fun p => p.1 ≤ len).map Prod.snd).getD 0

/-- The errors of the segment map. -/
inductive FreeMapError where
  | noFreeSegments
  | segmentOutOfRange (seg : ℕ)
  | alreadyUsed (seg : ℕ)
  | invalidRun (start stop : ℕ)
  | corruptCheckpoint
deriving DecidableEq, Repr

/-! ### Size-class hints -/

/-- For each size class, the runs that were long enough for it at the last rebuild. -/
structure SizeClassHints where
  hints : List (OrdSet Run)
deriving DecidableEq

namespace SizeClassHints

def new : SizeClassHints := ⟨List.replicate sizeClassCount OrdSet.empty⟩

variable (h : SizeClassHints)

/-- A run goes into every class up to that of its length. -/
def insertRun (start stop : ℕ) : SizeClassHints :=
  ⟨h.hints.mapIdx fun cls hint => if cls ≤ sizeClassFor (stop - start) then hint.insert ⟨start, stop⟩ else hint⟩

def rebuild (freeRuns : OrdSet Run) : SizeClassHints :=
  freeRuns.toList.foldl (fun h r => h.insertRun r.start r.stop) ⟨h.hints.map fun _ => OrdSet.empty⟩

/-- The first run of the first class, from that of `minLen` up, that has one. -/
def findForSize (minLen : ℕ) : Option Run :=
  if minLen = 0 then none
  else (h.hints.drop (sizeClassFor minLen)).findSome? fun hint => hint.toList.head?

/-- The same among the runs that start at or after `cursor`. -/
def findForSizeGe (minLen cursor : ℕ) : Option Run :=
  if minLen = 0 then none
  else (h.hints.drop (sizeClassFor minLen)).findSome? fun hint => hint.toList.find? fun r => cursor ≤ r.start

end SizeClassHints

/-! ### The map -/

/-- The free segments, as runs. -/
structure SegmentFreeMap where
  segmentCount : ℕ
  freeRuns : OrdSet Run
  generation : ℕ
  segmentGroupSegments : ℕ
  dirtySegmentGroups : OrdSet ℕ
  sizeClassHints : SizeClassHints
  sizeClassHitCount : ℕ
  sizeClassMissCount : ℕ
  cachedFree : ℕ
deriving DecidableEq

namespace SegmentFreeMap

variable (fm : SegmentFreeMap)

/-- The runs in order. -/
def runs : List Run := fm.freeRuns.toList

/-- `free_runs.range(..=(seg, u64::MAX))`: every end is at most `u64::MAX`, so
these are the runs that start at or before `seg`. -/
def runsUpTo (seg : ℕ) : List Run := fm.runs.filter fun r => r.start ≤ seg

/-- The loop of `is_free`, over the runs from the last one down. -/
def isFreeScan (seg : ℕ) : List Run → Bool
  | [] => false
  | r :: rs =>
    if r.start ≤ seg ∧ seg < r.stop then true
    else if r.stop ≤ seg then false
    else isFreeScan seg rs

def isFree (seg : ℕ) : Bool := isFreeScan seg (fm.runsUpTo seg).reverse

def validateRun (start stop : ℕ) : Except FreeMapError Unit :=
  if stop ≤ start ∨ fm.segmentCount < stop then .error (.invalidRun start stop) else .ok ()

/-- The segment group of a segment, as the 32-bit index the source keeps. -/
def segmentGroupIndex (seg : ℕ) : ℕ := asU32 (seg / fm.segmentGroupSegments)

def markDirty (seg : ℕ) : SegmentFreeMap :=
  { fm with dirtySegmentGroups := fm.dirtySegmentGroups.insert (fm.segmentGroupIndex seg) }

/-- The runs that overlap or touch `[start, stop)` become one run with it. -/
def insertRunMerge (start stop : ℕ) : SegmentFreeMap :=
  let toRemove := fm.runs.filter fun r => r.start ≤ stop ∧ start ≤ r.stop
  let merged := hull start stop toRemove
  let freeRuns := (fm.freeRuns.eraseAll toRemove).insert merged
  { fm with freeRuns := freeRuns, cachedFree := total freeRuns }

/-- Takes one segment out of the run that holds it: at the run's start, at its
end, or in the middle, where the run is split. -/
def removeFromFreeRuns (fm : SegmentFreeMap) (seg : ℕ) : SegmentFreeMap × Except FreeMapError Unit :=
  match (fm.runsUpTo seg).reverse.find? fun r => r.start ≤ seg ∧ seg < r.stop with
  | none => (fm, .error (.alreadyUsed seg))
  | some r =>
    let rest := fm.freeRuns.erase r
    let freeRuns :=
      if seg = r.start then
        if r.start + 1 < r.stop then rest.insert ⟨r.start + 1, r.stop⟩ else rest
      else if seg = r.stop - 1 then
        if r.start < r.stop - 1 then rest.insert ⟨r.start, r.stop - 1⟩ else rest
      else (rest.insert ⟨r.start, seg⟩).insert ⟨seg + 1, r.stop⟩
    ({ fm with freeRuns := freeRuns, cachedFree := fm.cachedFree - 1 }, .ok ())

def rebuildHints (fm : SegmentFreeMap) : SegmentFreeMap :=
  { fm with sizeClassHints := fm.sizeClassHints.rebuild fm.freeRuns }

/-- The loop of `new` over the initial runs. -/
def insertRuns (fm : SegmentFreeMap) : List Run → Except FreeMapError SegmentFreeMap
  | [] => .ok fm
  | r :: rs =>
    match fm.validateRun r.start r.stop with
    | .error e => .error e
    | .ok () => (fm.insertRunMerge r.start r.stop).insertRuns rs

def empty (segmentCount : ℕ) : SegmentFreeMap where
  segmentCount := segmentCount
  freeRuns := OrdSet.empty
  generation := 1
  segmentGroupSegments := defaultSegmentGroupSegments
  dirtySegmentGroups := OrdSet.empty
  sizeClassHints := SizeClassHints.new
  sizeClassHitCount := 0
  sizeClassMissCount := 0
  cachedFree := 0

def new (segmentCount : ℕ) (initialFree : List Run) : Except FreeMapError SegmentFreeMap :=
  match (empty segmentCount).insertRuns initialFree with
  | .error e => .error e
  | .ok fm => .ok { fm.rebuildHints with cachedFree := total fm.freeRuns }

/-- The loop of `find_first_free_ge`. -/
def firstFreeGe (min : ℕ) : List Run → Option ℕ
  | [] => none
  | r :: rs => if min ≤ r.start then some r.start else if min < r.stop then some min else firstFreeGe min rs

def findFirstFreeGe (fm : SegmentFreeMap) (min : ℕ) : Option ℕ := firstFreeGe min fm.runs

def bumpGeneration (fm : SegmentFreeMap) : SegmentFreeMap :=
  { fm with generation := max (satAdd fm.generation 1) 1 }

def doAllocate (fm : SegmentFreeMap) (seg : ℕ) : SegmentFreeMap × Except FreeMapError ℕ :=
  match fm.removeFromFreeRuns seg with
  | (fm', .error e) => (fm', .error e)
  | (fm', .ok ()) => ((fm'.markDirty seg).bumpGeneration, .ok seg)

def allocAfter (fm : SegmentFreeMap) (cursor : ℕ) : SegmentFreeMap × Except FreeMapError ℕ :=
  if fm.segmentCount = 0 then (fm, .error .noFreeSegments)
  else
    match fm.findFirstFreeGe cursor with
    | some seg => fm.doAllocate seg
    | none =>
      if 0 < cursor then
        match fm.findFirstFreeGe 0 with
        | some seg => if seg < cursor then fm.doAllocate seg else (fm, .error .noFreeSegments)
        | none => (fm, .error .noFreeSegments)
      else (fm, .error .noFreeSegments)

def addFree (fm : SegmentFreeMap) (seg : ℕ) : SegmentFreeMap × Except FreeMapError Unit :=
  if fm.segmentCount ≤ seg then (fm, .error (.segmentOutOfRange seg))
  else if fm.isFree seg then (fm, .ok ())
  else ((fm.insertRunMerge seg (satAdd seg 1)).markDirty seg, .ok ())

def removeFree (fm : SegmentFreeMap) (seg : ℕ) : SegmentFreeMap × Except FreeMapError Unit :=
  if fm.segmentCount ≤ seg then (fm, .error (.segmentOutOfRange seg))
  else if !fm.isFree seg then (fm, .error (.alreadyUsed seg))
  else
    match fm.removeFromFreeRuns seg with
    | (fm', .error e) => (fm', .error e)
    | (fm', .ok ()) => (fm'.markDirty seg, .ok ())

def freeRange (fm : SegmentFreeMap) (start stop : ℕ) : SegmentFreeMap × Except FreeMapError Unit :=
  match fm.validateRun start stop with
  | .error e => (fm, .error e)
  | .ok () =>
    let fm' := (fm.insertRunMerge start stop).rebuildHints
    ((List.range' start (stop - start)).foldl markDirty fm', .ok ())

/-- The merge loop of `coalesce`, with the last run pushed so far in hand. -/
def coalesceLoop (last : Run) : List Run → List Run
  | [] => [last]
  | r :: rs => if last.stop = r.start then coalesceLoop ⟨last.start, r.stop⟩ rs else last :: coalesceLoop r rs

def coalesce (fm : SegmentFreeMap) : SegmentFreeMap :=
  match fm.runs with
  | r :: r' :: rs =>
    { fm with freeRuns := OrdSet.empty.extend (coalesceLoop r (r' :: rs)) }.rebuildHints
  | _ => fm

def allocate (fm : SegmentFreeMap) (minSize cursor : ℕ) : SegmentFreeMap × Except FreeMapError ℕ :=
  if fm.segmentCount = 0 ∨ fm.runs = [] then (fm, .error .noFreeSegments)
  else
    match fm.sizeClassHints.findForSizeGe minSize cursor with
    | some run =>
      let fm := { fm with sizeClassHitCount := satAdd fm.sizeClassHitCount 1 }
      let seg := max run.start cursor
      -- a hint that is out of date can name a segment that is in use
      match fm.removeFromFreeRuns seg with
      | (fm', .error e) => (fm', .error e)
      | (fm', .ok ()) => (((fm'.rebuildHints.markDirty seg).bumpGeneration).coalesce, .ok seg)
    | none =>
      let fm := { fm with sizeClassMissCount := satAdd fm.sizeClassMissCount 1 }
      match fm.allocAfter cursor with
      | (fm', .error e) => (fm', .error e)
      | (fm', .ok seg) => (fm'.rebuildHints.coalesce, .ok seg)

/-- A free run of at least about `minLen` segments, from the size-class hints. -/
def findFreeRun (fm : SegmentFreeMap) (minLen : ℕ) : Option Run := fm.sizeClassHints.findForSize minLen

def findFreeRunGe (fm : SegmentFreeMap) (minLen cursor : ℕ) : Option Run := fm.sizeClassHints.findForSizeGe minLen cursor

end SegmentFreeMap

end Tidefs.SpaceMap
