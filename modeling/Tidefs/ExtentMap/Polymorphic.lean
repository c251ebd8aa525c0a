/-
# The polymorphic extent map

`PolymorphicExtentMap` keeps the extents of a file in one of three representations and
moves them to another one after an operation: up to the tree when there are more than
six extents or one that the inline form does not take, back when at most four are left,
and to and from the multi-level tree at 100000 and 50000 extents. The representations
that are not active keep what was last in them.

An insertion into the inline form looks ahead at the number of extents there could be,
and moves to the tree first; no other operation does.
-/
import Tidefs.ExtentMap.Validate

namespace Tidefs.ExtentMap

open Word Btree ExtentMapEntryV2

/-- The three representations. -/
inductive ExtentMapRepr where
  | inline
  | btree
  | multiLevel
deriving DecidableEq

/-- An extent map, of which one representation is in use. -/
structure PolymorphicExtentMap where
  active : ExtentMapRepr
  inline : InlineExtentMap
  btree : BTreeExtentMap
  multiLevel : MultiLevelBTreeExtentMap

def promoteThreshold : ℕ := 6

def demoteThreshold : ℕ := 4

/-- `EXTENT_MAP_V2_V3_PROMOTION_THRESHOLD`. -/
def v2V3PromotionThreshold : ℕ := 100000

/-- `EXTENT_MAP_V3_V2_DEMOTION_THRESHOLD`. -/
def v3V2DemotionThreshold : ℕ := 50000

def entryIsUnwrittenOrHole (e : ExtentMapEntryV2) : Bool := e.isUnwritten || e.extentType == .hole

def hasUnwrittenOrHoles (es : List ExtentMapEntryV2) : Bool := es.any entryIsUnwrittenOrHole

/-- The loop of `merge_adjacent_extents`. Unlike `mergeLoop` it compares kinds. -/
def mergeExtentsLoop (last : ExtentMapEntryV2) : List ExtentMapEntryV2 → List ExtentMapEntryV2
  | [] => [last]
  | e :: es =>
    if last.locatorId = e.locatorId ∧ last.extentKind = e.extentKind ∧ last.endOffset = e.logicalOffset ∧
      last.checksum = e.checksum then mergeExtentsLoop { last with length := wrap64 (last.length + e.length) } es
    else last :: mergeExtentsLoop e es

def mergeAdjacentExtents : List ExtentMapEntryV2 → List ExtentMapEntryV2
  | [] => []
  | e :: es => mergeExtentsLoop e es

/-- What an operation of the inline form returns, in the form of all operations. -/
def InlineExtentMap.step (m : InlineExtentMap) : Op → InlineExtentMap × Reply
  | .insertExtent entries => ((m.insertExtent entries).1, (m.insertExtent entries).2.map fun _ => [])
  | .truncate newSize => m.truncate newSize
  | .punchHole offset length => m.punchHole offset length
  | .zeroRange offset length => m.zeroRange offset length
  | .collapseRange offset length => m.collapseRange offset length
  | .convertUnwrittenToData offset length locatorId checksum birthCommitGroup =>
    ((m.convertUnwrittenToData offset length locatorId checksum birthCommitGroup).1,
      (m.convertUnwrittenToData offset length locatorId checksum birthCommitGroup).2.map fun _ => [])
  | .fallocate offset length keepSize =>
    ((m.fallocate offset length keepSize).1, (m.fallocate offset length keepSize).2.map fun _ => [])

namespace PolymorphicExtentMap

variable (P : Params)

def withRepr (repr : ExtentMapRepr) : PolymorphicExtentMap :=
  ⟨repr, InlineExtentMap.new, BTreeExtentMap.new P, MultiLevelBTreeExtentMap.new P⟩

def new : PolymorphicExtentMap := withRepr P .inline

variable (m : PolymorphicExtentMap)

def entryCount : ℕ :=
  match m.active with
  | .inline => m.inline.header.entryCount
  | .btree => m.btree.header.entryCount
  | .multiLevel => m.multiLevel.header.entryCount

def fileSize : ℕ :=
  match m.active with
  | .inline => m.inline.header.fileSize
  | .btree => m.btree.header.fileSize
  | .multiLevel => m.multiLevel.header.fileSize

def lookupRange (offset length : ℕ) : Option (Outcome (List ExtentMapEntryV2)) :=
  match m.active with
  | .inline => some (m.inline.lookupRange offset length)
  | .btree => ExtentMap.lookupRange m.btree offset length
  | .multiLevel => ExtentMap.lookupRange m.multiLevel offset length

/-- `unwrap_or_default`. -/
def orDefault : Outcome (List ExtentMapEntryV2) → List ExtentMapEntryV2
  | .ok es => es
  | .error _ => []

def collectEntries : Option (List ExtentMapEntryV2) :=
  match m.active with
  | .inline => some m.inline.entries
  | .btree => (ExtentMap.lookupRange m.btree 0 u64Max).map orDefault
  | .multiLevel => (ExtentMap.lookupRange m.multiLevel 0 u64Max).map orDefault

/-! ### Moving between representations -/

variable (entries : List ExtentMapEntryV2)

def promoteToBtree : Option (PolymorphicExtentMap × Outcome Unit) :=
  let filled := if entries.isEmpty then some (BTreeExtentMap.new P, .ok ())
    else BTreeExtentMap.insertExtent P (BTreeExtentMap.new P) entries
  filled.map fun r =>
    match r.2 with
    | .error e => ({ m with btree := r.1 }, .error e)
    | .ok () =>
      let header := { r.1.header with
        fileSize := m.inline.header.fileSize
        allocBytes := m.inline.header.allocBytes }
      ({ m with btree := { r.1 with header }, active := .btree }, .ok ())

def demoteToInline : PolymorphicExtentMap × Outcome Unit :=
  let r := if entries.isEmpty then (InlineExtentMap.new, .ok ()) else InlineExtentMap.new.insertExtent entries
  match r.2 with
  | .error e => ({ m with inline := r.1 }, .error e)
  | .ok () =>
    let header := { r.1.header with
      fileSize := m.btree.header.fileSize
      allocBytes := m.btree.header.allocBytes }
    ({ m with inline := { r.1 with header }, active := .inline }, .ok ())

def promoteBtreeToMultiLevel : Option (PolymorphicExtentMap × Outcome Unit) :=
  (m.btree.scan .unbounded .unbounded).bind fun entries =>
    (MultiLevelBTreeExtentMap.rebuildFromOrderedEntries P (MultiLevelBTreeExtentMap.new P) entries
      m.btree.header.fileSize).map fun
      | .error e => (m, .error e)
      | .ok multiLevel => ({ m with multiLevel, active := .multiLevel }, .ok ())

def demoteMultiLevelToBtree : Option (PolymorphicExtentMap × Outcome Unit) :=
  (m.multiLevel.scan .unbounded .unbounded).bind fun entries =>
    (BTreeExtentMap.rebuildFromOrderedEntries P (BTreeExtentMap.new P) entries m.multiLevel.header.fileSize).map fun
      | .error e => (m, .error e)
      | .ok btree => ({ m with btree, active := .btree }, .ok ())

def checkAndSwitch : Option (PolymorphicExtentMap × Outcome Unit) :=
  let count := m.entryCount
  match m.active with
  | .inline =>
    m.collectEntries.bind fun entries =>
      if promoteThreshold < count ∨ hasUnwrittenOrHoles entries = true then m.promoteToBtree P entries
      else some (m, .ok ())
  | .btree =>
    if count ≤ demoteThreshold then
      m.collectEntries.map fun entries =>
        if hasUnwrittenOrHoles entries then (m, .ok ()) else m.demoteToInline entries
    else if v2V3PromotionThreshold ≤ count then m.promoteBtreeToMultiLevel P
    else some (m, .ok ())
  | .multiLevel =>
    if count ≤ v3V2DemotionThreshold then
      (m.multiLevel.scan .unbounded .unbounded).bind fun entries =>
        if hasUnwrittenOrHoles entries then some (m, .ok ()) else m.demoteMultiLevelToBtree P
    else some (m, .ok ())

/-! ### Operations -/

/-- An operation of the active representation. -/
def onActive {α : Type} (m : PolymorphicExtentMap) (onInline : InlineExtentMap → InlineExtentMap × Outcome α)
    (onBtree : BTreeExtentMap → Option (BTreeExtentMap × Outcome α))
    (onMultiLevel : MultiLevelBTreeExtentMap → Option (MultiLevelBTreeExtentMap × Outcome α)) :
    Option (PolymorphicExtentMap × Outcome α) :=
  match m.active with
  | .inline => some ({ m with inline := (onInline m.inline).1 }, (onInline m.inline).2)
  | .btree => (onBtree m.btree).map fun r => ({ m with btree := r.1 }, r.2)
  | .multiLevel => (onMultiLevel m.multiLevel).map fun r => ({ m with multiLevel := r.1 }, r.2)

/-- The batch would overflow the inline form, or has an extent it does not take. -/
def promotesBefore : Bool :=
  decide (m.active = .inline) &&
    (hasUnwrittenOrHoles entries || decide (promoteThreshold < m.inline.header.entryCount + entries.length))

/-- `insert_extent` up to the call of `check_and_switch`. -/
def insertActive : Option (PolymorphicExtentMap × Outcome Unit) :=
  let ready := if m.promotesBefore entries then m.collectEntries.bind (m.promoteToBtree P) else some (m, .ok ())
  ready.bind fun r =>
    match r.2 with
    | .error e => some (r.1, .error e)
    | .ok () =>
      r.1.onActive (·.insertExtent entries) (BTreeExtentMap.insertExtent P · entries)
        (MultiLevelBTreeExtentMap.insertExtent P · entries)

/-- An operation up to the call of `check_and_switch`. -/
def stepActive : Op → Option (PolymorphicExtentMap × Reply)
  | .insertExtent entries => (m.insertActive P entries).map fun r => (r.1, r.2.map fun _ => [])
  | op => m.onActive (InlineExtentMap.step · op) (BTreeExtentMap.step P · op) (MultiLevelBTreeExtentMap.step P · op)

/-- An operation. What it freed is not returned if the representation could not be changed. -/
def step (op : Op) : Option (PolymorphicExtentMap × Reply) :=
  (m.stepActive P op).bind fun r =>
    match r.2 with
    | .error e => some (r.1, .error e)
    | .ok freed => (r.1.checkAndSwitch P).map fun s => (s.1, s.2.map fun _ => freed)

/-! ### Defragmentation -/

/-- What goes wrong with the insertion is ignored. -/
def rebuildWithEntries (fileSize allocBytes : ℕ) : Option PolymorphicExtentMap :=
  match m.active with
  | .inline =>
    let base : InlineExtentMap := ⟨{ InlineExtentMap.new.header with fileSize, allocBytes }, []⟩
    let filled := if entries.isEmpty then base else (base.insertExtent entries).1
    some { m with inline := { filled with header := { filled.header with entryCount := entries.length } } }
  | .btree =>
    let base : BTreeExtentMap := ⟨{ ExtentMapV2.new with fileSize, allocBytes }, (BTreeExtentMap.new P).tree⟩
    (if entries.isEmpty then some base else (BTreeExtentMap.insertExtent P base entries).map Prod.fst).map fun filled =>
      { m with btree := { filled with header := { filled.header with entryCount := entries.length } } }
  | .multiLevel =>
    let base : MultiLevelBTreeExtentMap :=
      ⟨{ ExtentMapV3.new with fileSize, allocBytes }, (MultiLevelBTreeExtentMap.new P).tree⟩
    (if entries.isEmpty then some base
      else (MultiLevelBTreeExtentMap.insertExtent P base entries).map Prod.fst).map fun filled =>
      { m with multiLevel := { filled with header := { filled.header with entryCount := entries.length } } }

/-- The map, and the counts before and after. -/
def defrag : Option (PolymorphicExtentMap × (ℕ × ℕ)) :=
  let before := m.entryCount
  if before ≤ 1 then some (m, (before, before))
  else
    m.collectEntries.bind fun entries =>
      let merged := mergeAdjacentExtents entries
      if before ≤ merged.length then some (m, (before, before))
      else
        (m.rebuildWithEntries P merged m.fileSize (allocatedBytes merged)).map fun m' => (m', (before, m'.entryCount))

end PolymorphicExtentMap

end Tidefs.ExtentMap
