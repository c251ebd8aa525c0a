/-
# Extents

The extent entries of a file and what the extent maps compute from them: types,
overlaps, fragments, and the two passes over sorted entries that an insertion makes,
the merge with the new entries and the joining of neighbours.

Offsets and lengths are `u64` and addition wraps around. Every subtraction in the
source is of a smaller number as long as no extent wraps around.
-/
import Tidefs.Btree.Tree
import Tidefs.Lib.Spans
import Mathlib.Data.List.Sort

namespace Tidefs.ExtentMap

open Word Btree

/-- What the bytes of an extent are. -/
inductive ExtentType where
  | hole
  | unwritten
  | data
deriving DecidableEq

def ExtentType.consumesSpace : ExtentType → Bool
  | .unwritten | .data => true
  | .hole => false

/-- The errors of extent maps. -/
inductive ExtentMapError where
  | notFound
  | invalidRange
  | overlappingExtent
  | corrupt
  | wrongVersion
  | mapFull
  | invalidExtentType
  | v3NotEnabled
  | refCountOverflow
  | crossPool
deriving DecidableEq

abbrev LocatorId := ℕ

def LocatorId.none : LocatorId := 0

/-- An extent of a file, with where its data is. -/
structure ExtentMapEntryV2 where
  logicalOffset : ℕ
  length : ℕ
  extentKind : UInt8
  flags : UInt8
  locatorId : LocatorId
  checksum : Digest
  birthCommitGroup : ℕ
  reserved : Vector UInt8 15
deriving DecidableEq

/-- A range of the file that lost its extent. -/
structure FreedExtent where
  logicalOffset : ℕ
  length : ℕ
  locatorId : LocatorId
  extentType : ExtentType
deriving DecidableEq

namespace ExtentMapEntryV2

def kindData : UInt8 := 0

def kindUnwritten : UInt8 := 1

def kindPendingData : UInt8 := 2

def newData (logicalOffset length : ℕ) (locatorId : LocatorId) (checksum : Digest) (birthCommitGroup : ℕ) :
    ExtentMapEntryV2 :=
  ⟨logicalOffset, length, kindData, 0, locatorId, checksum, birthCommitGroup, Vector.replicate 15 0⟩

def newUnwritten (logicalOffset length birthCommitGroup : ℕ) : ExtentMapEntryV2 :=
  ⟨logicalOffset, length, kindUnwritten, 0, LocatorId.none, Vector.replicate 32 0, birthCommitGroup,
    Vector.replicate 15 0⟩

variable (e : ExtentMapEntryV2)

def isUnwritten : Bool := e.extentKind == kindUnwritten

def extentType : ExtentType :=
  if e.extentKind = kindData then .data
  else if e.extentKind = kindPendingData then .data
  else if e.extentKind = kindUnwritten then .unwritten
  else .hole

def endOffset : ℕ := wrap64 (e.logicalOffset + e.length)

/-- Ranges that wrap around intersect nothing. -/
def intersects (offset len : ℕ) : Bool :=
  if u64Max < e.logicalOffset + e.length then false
  else if u64Max < offset + len then false
  else decide (e.logicalOffset < offset + len) && decide (offset < e.logicalOffset + e.length)

/-- The entry cut down to a range. -/
def within (start stop : ℕ) : ExtentMapEntryV2 :=
  { e with logicalOffset := start, length := stop - start }

def freed (start stop : ℕ) : FreedExtent :=
  ⟨start, stop - start, e.locatorId, e.extentType⟩

end ExtentMapEntryV2

open ExtentMapEntryV2

/-- What `push_clipped_overlap` pushes. -/
def clippedOverlap (e : ExtentMapEntryV2) (offset stop : ℕ) : List ExtentMapEntryV2 :=
  if stop ≤ e.logicalOffset ∨ e.endOffset ≤ offset then []
  else
    let clippedOffset := max e.logicalOffset offset
    let clippedEnd := min e.endOffset stop
    if clippedEnd ≤ clippedOffset then [] else [e.within clippedOffset clippedEnd]

/-- What `push_existing_fragment` pushes. -/
def existingFragment (e : ExtentMapEntryV2) (start stop : ℕ) : List ExtentMapEntryV2 :=
  if stop ≤ start then [] else [e.within start stop]

/-! ### Merging new entries in -/

/-- The position of the merge: what was pushed, the new entries still to come, and
the end of those that went in. -/
structure Merge where
  pushed : List ExtentMapEntryV2
  rest : List ExtentMapEntryV2
  coveredUntil : ℕ

/-- New entries that end before the existing one starts. -/
def pushBefore (existingStart : ℕ) : List ExtentMapEntryV2 → ℕ → Merge
  | [], covered => ⟨[], [], covered⟩
  | n :: new, covered =>
    if n.endOffset ≤ existingStart then
      let r := pushBefore existingStart new (max covered n.endOffset)
      { r with pushed := n :: r.pushed }
    else ⟨[], n :: new, covered⟩

/-- New entries that start before the existing one ends, each after the fragment of
the existing one in front of it, and at last the fragment behind them. -/
def pushOver (existing : ExtentMapEntryV2) : List ExtentMapEntryV2 → ℕ → ℕ → Merge
  | [], covered, retainStart => ⟨existingFragment existing retainStart existing.endOffset, [], covered⟩
  | n :: new, covered, retainStart =>
    if n.logicalOffset < existing.endOffset then
      let front := existingFragment existing retainStart n.logicalOffset
      if existing.endOffset ≤ max retainStart n.endOffset then
        ⟨front ++ n :: existingFragment existing (max retainStart n.endOffset) existing.endOffset, new,
          max covered n.endOffset⟩
      else
        let r := pushOver existing new (max covered n.endOffset) (max retainStart n.endOffset)
        { r with pushed := front ++ n :: r.pushed }
    else ⟨existingFragment existing retainStart existing.endOffset, n :: new, covered⟩

/-- The loop of `apply_inserts_from_tree` over the existing entries. -/
def applyInserts : List ExtentMapEntryV2 → List ExtentMapEntryV2 → ℕ → List ExtentMapEntryV2
  | [], new, _ => new
  | existing :: es, new, covered =>
    let before := pushBefore existing.logicalOffset new covered
    let hit := pushOver existing before.rest before.coveredUntil (max existing.logicalOffset before.coveredUntil)
    before.pushed ++ hit.pushed ++ applyInserts es hit.rest hit.coveredUntil

/-! ### Joining neighbours -/

/-- The second entry goes on where the first ends, and is like it. -/
def Joins (last e : ExtentMapEntryV2) : Prop :=
  last.endOffset = e.logicalOffset ∧ last.extentType = e.extentType ∧ last.locatorId = e.locatorId ∧
    last.checksum = e.checksum

instance (last e : ExtentMapEntryV2) : Decidable (Joins last e) := inferInstanceAs (Decidable (_ ∧ _))

def mergeLoop (last : ExtentMapEntryV2) : List ExtentMapEntryV2 → List ExtentMapEntryV2
  | [] => [last]
  | e :: es =>
    if Joins last e then mergeLoop { last with length := wrap64 (last.length + e.length) } es
    else last :: mergeLoop e es

def mergeAdjacent : List ExtentMapEntryV2 → List ExtentMapEntryV2
  | [] => []
  | e :: es => mergeLoop e es

def retainNonempty (es : List ExtentMapEntryV2) : List ExtentMapEntryV2 := es.filter fun e => 0 < e.length

/-- `sort_by_key(|e| e.logical_offset)`. -/
def sortByOffset (es : List ExtentMapEntryV2) : List ExtentMapEntryV2 :=
  es.insertionSort fun a b => a.logicalOffset ≤ b.logicalOffset

/-- Some entry intersects a later one. -/
def anyOverlap : List ExtentMapEntryV2 → Bool
  | [] => false
  | e :: es => (es.any fun f => e.intersects f.logicalOffset f.length) || anyOverlap es

end Tidefs.ExtentMap
