/-
# The tree-backed extent maps

`BTreeExtentMap` (version 2) and `MultiLevelBTreeExtentMap` (version 3) keep the
extents of a file in a B+tree under their logical offset, with a header of counts.
Every mutation reads the tree by scans, forms the list of extents after it, and
builds the tree anew. The two versions differ in what the header counts, in that
only version 2 checks for overflow on insertion, and in that version 3 refuses a tree
that is too deep, after the change was made.

An operation is given by the map after it and its result. A panic has neither.
-/
import Tidefs.Btree.Scan
import Tidefs.ExtentMap.Entry

namespace Tidefs.ExtentMap

open Word Btree ExtentMapEntryV2

abbrev ExtentTree := BPlusTree ℕ ExtentMapEntryV2

/-- Header of a version 2 map, as far as operations read or write it. -/
structure ExtentMapV2 where
  entryCount : ℕ
  allocBytes : ℕ
  fileSize : ℕ
  depth : ℕ

/-- Header of a version 3 map, with page counts. -/
structure ExtentMapV3 where
  entryCount : ℕ
  allocBytes : ℕ
  fileSize : ℕ
  depth : ℕ
  leafCount : ℕ
  internalCount : ℕ

def ExtentMapV2.new : ExtentMapV2 := ⟨0, 0, 0, 0⟩

def ExtentMapV3.new : ExtentMapV3 := ⟨0, 0, 0, 2, 0, 0⟩

/-- The bytes of all extents that take up space. -/
def allocatedBytes (es : List ExtentMapEntryV2) : ℕ :=
  wrap64 ((es.filter fun e => e.extentType.consumesSpace).map (·.length)).sum

/-- What the operations do with a header: `refresh` sets all counts but the file
size after the tree was rebuilt from the entries, with its depth. -/
class MapHeader (H : Type) where
  fileSize : H → ℕ
  setFileSize : H → ℕ → H
  refresh : H → ExtentTree → ℕ → List ExtentMapEntryV2 → H
  fileSize_setFileSize : ∀ h n, fileSize (setFileSize h n) = n

instance : MapHeader ExtentMapV2 where
  fileSize h := h.fileSize
  setFileSize h n := { h with fileSize := n }
  refresh h _ depth es := { h with entryCount := es.length, allocBytes := allocatedBytes es, depth := depth }
  fileSize_setFileSize _ _ := rfl

instance : MapHeader ExtentMapV3 where
  fileSize h := h.fileSize
  setFileSize h n := { h with fileSize := n }
  refresh h tree depth es :=
    { h with
      entryCount := es.length
      allocBytes := allocatedBytes es
      depth := depth
      leafCount := if tree.isEmpty then 0 else asU32 tree.leafCount
      internalCount := if tree.isEmpty then 0 else asU32 tree.internalCount }
  fileSize_setFileSize _ _ := rfl

/-- A tree of extents with the header of its version. -/
structure TreeMap (H : Type) where
  header : H
  tree : ExtentTree

abbrev BTreeExtentMap := TreeMap ExtentMapV2

abbrev MultiLevelBTreeExtentMap := TreeMap ExtentMapV3

/-- The result of a call, `Result<T, ExtentMapError>`. -/
abbrev Outcome := Except ExtentMapError

variable (P : Params) {H : Type}

def TreeMap.extents (m : TreeMap H) : List ExtentMapEntryV2 := m.tree.entries.map Prod.snd

def TreeMap.scan (m : TreeMap H) (start stop : Bound ℕ) : Option (List ExtentMapEntryV2) :=
  (m.tree.rangeScan start stop).map fun l => l.map Prod.snd

def BTreeExtentMap.new : BTreeExtentMap := ⟨ExtentMapV2.new, BPlusTree.new P⟩

def MultiLevelBTreeExtentMap.new : MultiLevelBTreeExtentMap := ⟨ExtentMapV3.new, BPlusTree.new P⟩

/-! ### Lookup -/

def lookupRange (m : TreeMap H) (offset length : ℕ) : Option (Outcome (List ExtentMapEntryV2)) :=
  if length = 0 then some (.error .invalidRange)
  else if u64Max < offset + length then some (.error .invalidRange)
  else
    let stop := offset + length
    (m.tree.floorEntry offset).bind fun found =>
      let first := found.elim [] fun predecessor =>
        if predecessor.2.logicalOffset < offset then clippedOverlap predecessor.2 offset stop else []
      (m.scan (.included offset) (.excluded stop)).map fun es =>
        .ok (first ++ es.flatMap fun e => clippedOverlap e offset stop)

/-! ### Mutations of both versions -/

variable [MapHeader H]

open MapHeader

def TreeMap.fileSize (m : TreeMap H) : ℕ := MapHeader.fileSize m.header

def TreeMap.setFileSize (m : TreeMap H) (n : ℕ) : TreeMap H := { m with header := MapHeader.setFileSize m.header n }

/-- `if end > file_size { file_size = end }`. -/
def TreeMap.raiseFileSize (m : TreeMap H) (n : ℕ) : TreeMap H := if m.fileSize < n then m.setFileSize n else m

/-- The map with these entries. The file does not get shorter. -/
def rebuild (m : TreeMap H) (es : List ExtentMapEntryV2) : Option (TreeMap H) :=
  (BPlusTree.rebuild P (es.map fun e => (e.logicalOffset, e))).bind fun packed =>
    (packed.compact P).bind fun tree =>
      tree.depth.map fun depth =>
        (⟨refresh m.header tree depth es, tree⟩ : TreeMap H).setFileSize
          (max (es.getLast?.elim 0 endOffset) m.fileSize)

/-- The part of `insert_extent` after the checks. -/
def insertChecked (m : TreeMap H) (entries : List ExtentMapEntryV2) : Option (TreeMap H) :=
  (m.scan .unbounded .unbounded).bind fun existing =>
    rebuild P m (mergeAdjacent (retainNonempty (applyInserts existing (sortByOffset entries) 0)))

def truncate (m : TreeMap H) (newSize : ℕ) : Option (TreeMap H × Outcome (List FreedExtent)) :=
  if m.fileSize ≤ newSize then some (m.raiseFileSize newSize, .ok [])
  else
    (m.scan .unbounded (.excluded newSize)).bind fun before =>
      (m.scan (.included newSize) .unbounded).bind fun after =>
        let result := before.map fun e => if newSize < e.endOffset then e.within e.logicalOffset newSize else e
        let freed := (before.flatMap fun e => if newSize < e.endOffset then [e.freed newSize e.endOffset] else []) ++
          after.map fun e => ⟨e.logicalOffset, e.length, e.locatorId, e.extentType⟩
        (rebuild P m (retainNonempty result)).map fun m' => (m'.setFileSize newSize, .ok freed)

/-- A freed range, if there is one. -/
def freedPart (e : ExtentMapEntryV2) (start stop : ℕ) : List FreedExtent :=
  if start < stop then [e.freed start stop] else []

def punchHole (m : TreeMap H) (offset length : ℕ) : Option (TreeMap H × Outcome (List FreedExtent)) :=
  if length = 0 then some (m, .error .invalidRange)
  else if u64Max < offset + length then some (m, .error .invalidRange)
  else
    let stop := offset + length
    -- the part of an entry behind the hole
    let behind := fun e : ExtentMapEntryV2 => if stop < e.endOffset then [e.within stop e.endOffset] else []
    (m.scan .unbounded (.excluded offset)).bind fun before =>
      (m.scan (.included offset) (.excluded stop)).bind fun inside =>
        (m.scan (.included stop) .unbounded).bind fun after =>
          let result :=
            (before.flatMap fun e =>
              if e.endOffset ≤ offset then [e] else e.within e.logicalOffset offset :: behind e) ++
            inside.flatMap behind ++ after
          let freed :=
            (before.flatMap fun e =>
              if e.endOffset ≤ offset then []
              else freedPart e (max e.logicalOffset offset) (min e.endOffset stop)) ++
            inside.flatMap fun e => freedPart e e.logicalOffset (min e.endOffset stop)
          (rebuild P m (retainNonempty result)).map fun m' => (m'.raiseFileSize stop, .ok freed)

def zeroRange (m : TreeMap H) (offset length : ℕ) : Option (TreeMap H × Outcome (List FreedExtent)) :=
  punchHole P m offset length

/-- `collapse_range` of version 2. -/
def collapseRange (m : TreeMap H) (offset length : ℕ) : Option (TreeMap H × Outcome (List FreedExtent)) :=
  if length = 0 then some (m, .ok [])
  else if u64Max < offset + length then some (m, .error .invalidRange)
  else if m.fileSize < offset + length then some (m, .error .invalidRange)
  else
    let stop := offset + length
    -- the part of an entry behind the range, moved to its start
    let behind := fun e : ExtentMapEntryV2 =>
      if stop < e.endOffset then [{ e with logicalOffset := offset, length := e.endOffset - stop }] else []
    (m.scan .unbounded (.excluded offset)).bind fun before =>
      (m.scan (.included offset) (.excluded stop)).bind fun inside =>
        (m.scan (.included stop) .unbounded).bind fun after =>
          let result :=
            (before.flatMap fun e =>
              if e.endOffset ≤ offset then [e] else e.within e.logicalOffset offset :: behind e) ++
            inside.flatMap behind ++ after.map fun e => { e with logicalOffset := e.logicalOffset - length }
          let freed :=
            (before.flatMap fun e =>
              if e.endOffset ≤ offset then [] else freedPart e offset (min e.endOffset stop)) ++
            inside.flatMap fun e => freedPart e e.logicalOffset (min e.endOffset stop)
          (rebuild P m (mergeAdjacent (retainNonempty result))).map fun m' =>
            (m'.setFileSize (m'.fileSize - length), .ok freed)

def convertUnwrittenToData (m : TreeMap H) (offset length : ℕ) (locatorId : LocatorId) (checksum : Digest)
    (birthCommitGroup : ℕ) : Option (TreeMap H × Outcome Unit) :=
  if length = 0 then some (m, .error .invalidRange)
  else if u64Max < offset + length then some (m, .error .invalidRange)
  else
    let stop := offset + length
    (m.tree.floorEntry offset).bind fun found =>
      match (found.map Prod.snd).filter fun e => e.isUnwritten && decide (stop ≤ e.endOffset) with
      | none => some (m, .error .notFound)
      | some e =>
        (m.scan .unbounded (.excluded e.logicalOffset)).bind fun before =>
          (m.scan (.included stop) .unbounded).bind fun after =>
            let entries := before ++ (if e.logicalOffset < offset then [e.within e.logicalOffset offset] else []) ++
              [newData offset length locatorId checksum birthCommitGroup] ++
              (if stop < e.endOffset then [e.within stop e.endOffset] else []) ++ after
            (rebuild P m entries).map fun m' => (m'.raiseFileSize stop, .ok ())

/-- `insert_extent` with the check a version makes of each entry and what it reports
in the end. -/
def insertWith (bad : ExtentMapEntryV2 → Bool) (report : TreeMap H → Outcome Unit) (m : TreeMap H)
    (entries : List ExtentMapEntryV2) : Option (TreeMap H × Outcome Unit) :=
  if entries.isEmpty then some (m, .ok ())
  else if entries.any bad then some (m, .error .invalidRange)
  else if anyOverlap entries then some (m, .error .overlappingExtent)
  else (insertChecked P m entries).map fun m' => (m', report m')

/-- `fallocate`, given the `insert_extent` of the version. -/
def fallocateWith (insertExtent : TreeMap H → List ExtentMapEntryV2 → Option (TreeMap H × Outcome Unit))
    (m : TreeMap H) (offset length : ℕ) (keepSize : Bool) : Option (TreeMap H × Outcome Unit) :=
  if length = 0 then some (m, .error .invalidRange)
  else if u64Max < offset + length then some (m, .error .invalidRange)
  else
    (insertExtent m [newUnwritten offset length 0]).map fun r =>
      match r.2 with
      | .error e => (r.1, .error e)
      | .ok () =>
        (r.1.setFileSize (if keepSize then m.fileSize else max r.1.fileSize (offset + length)), .ok ())

/-! ### Version 2 -/

namespace BTreeExtentMap

def insertExtent (m : BTreeExtentMap) (entries : List ExtentMapEntryV2) : Option (BTreeExtentMap × Outcome Unit) :=
  insertWith P (fun e => e.length == 0 || decide (u64Max < e.logicalOffset + e.length)) (fun _ => .ok ()) m entries

def fallocate (m : BTreeExtentMap) (offset length : ℕ) (keepSize : Bool) : Option (BTreeExtentMap × Outcome Unit) :=
  fallocateWith (insertExtent P) m offset length keepSize

end BTreeExtentMap

/-! ### Version 3 -/

namespace MultiLevelBTreeExtentMap

def maxDepth : ℕ := 6

variable (m : MultiLevelBTreeExtentMap)

def checkDepth : Outcome Unit :=
  if maxDepth < m.header.depth then .error .mapFull else .ok ()

def insertExtent (entries : List ExtentMapEntryV2) : Option (MultiLevelBTreeExtentMap × Outcome Unit) :=
  insertWith P (fun e => e.length == 0) checkDepth m entries

/-- The range is collapsed before the depth is checked; the check is not reached if
nothing is collapsed. -/
def collapseRange (offset length : ℕ) : Option (MultiLevelBTreeExtentMap × Outcome (List FreedExtent)) :=
  (ExtentMap.collapseRange P m offset length).map fun r =>
    match r.2 with
    | .error e => (r.1, .error e)
    | .ok freed => (r.1, if length = 0 then .ok freed else (checkDepth r.1).map fun _ => freed)

def fallocate (offset length : ℕ) (keepSize : Bool) : Option (MultiLevelBTreeExtentMap × Outcome Unit) :=
  fallocateWith (insertExtent P) m offset length keepSize

end MultiLevelBTreeExtentMap

end Tidefs.ExtentMap
