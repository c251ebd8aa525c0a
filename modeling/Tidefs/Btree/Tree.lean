/-
# The B+tree

`BPlusTree` of `tidefs-btree`, generic in the key and the value, with its two
fanouts. Insertion goes down one path and splits nodes that overflow on the way
back; deletion, update and compaction collect all entries and build the tree
anew from the leaves up. Indexing out of bounds, and the smallest key of an
empty node, panic: an operation that panics has no result.

BLAKE3 is a parameter. The entry count is a natural number: a tree in memory has
fewer than 2^64 entries, so the check of its increment never fails.
-/
import Tidefs.Lib.Assoc
import Tidefs.Lib.Word

namespace Tidefs.Btree

open Ordered Word

/-- A BLAKE3 hash, `[u8; 32]`. -/
abbrev Digest := Vector UInt8 32

/-- The const generics of the tree, and the hash function. -/
structure Params where
  maxLeaf : ℕ
  maxInternal : ℕ
  blake3 : List UInt8 → Digest

/-- What a check of a tree's structure can find. -/
inductive BTreeError where
  | internalTooFewChildren
  | leafOverflow
  | internalOverflow
  | leafUnderflow
  | internalUnderflow
  | keyChildMismatch
  | keyOrderViolation
  | separatorMismatch
  | checksumMismatch
  | lengthMismatch
deriving DecidableEq

/-- A leaf has its entries, an internal node the smallest keys of all children
but the first. -/
inductive BTreeNode (K V : Type) where
  | leaf (entries : List (K × V)) (checksum : Digest)
  | internal (keys : List K) (children : List (BTreeNode K V)) (checksum : Digest)

variable (P : Params) {K V : Type}

def Params.minLeaf : ℕ := divCeil P.maxLeaf 2

def Params.minInternal : ℕ := divCeil P.maxInternal 2

/-! ### Checksums -/

def asciiBytes (s : String) : List UInt8 := s.toList.map fun c => UInt8.ofNat c.toNat

/-- `(n as u64).to_le_bytes()`. -/
def toLeBytes (n : ℕ) : List UInt8 := (List.range 8).map fun i => UInt8.ofNat (n / 256 ^ i)

def leafChecksum (len : ℕ) : Digest := P.blake3 (asciiBytes "tidefs-btree-leaf-v1" ++ toLeBytes len)

namespace BTreeNode

def checksum : BTreeNode K V → Digest
  | .leaf _ cs => cs
  | .internal _ _ cs => cs

end BTreeNode

open BTreeNode

def internalChecksum (children : List (BTreeNode K V)) : Digest :=
  P.blake3 (asciiBytes "tidefs-btree-internal-v1" ++ toLeBytes children.length ++
    children.flatMap fun c => c.checksum.toList)

namespace BTreeNode

/-! ### Reading a subtree -/

mutual

/-- The smallest key. An empty leaf panics. -/
def minKey : BTreeNode K V → Option K
  | .leaf entries _ => entries.head?.map Prod.fst
  | .internal _ children _ => minKeyFirst children

def minKeyFirst : List (BTreeNode K V) → Option K
  | [] => none
  | c :: _ => minKey c

end

mutual

/-- All entries in key order. -/
def collectAll : BTreeNode K V → List (K × V)
  | .leaf entries _ => entries
  | .internal _ children _ => collectChildren children

def collectChildren : List (BTreeNode K V) → List (K × V)
  | [] => []
  | c :: cs => collectAll c ++ collectChildren cs

end

mutual

/-- The entry with the greatest key. -/
def maxEntry : BTreeNode K V → Option (K × V)
  | .leaf entries _ => entries.getLast?
  | .internal _ children _ => maxEntryLast children

def maxEntryLast : List (BTreeNode K V) → Option (K × V)
  | [] => none
  | [c] => maxEntry c
  | _ :: c :: cs => maxEntryLast (c :: cs)

end

mutual

/-- Leaves have depth 1. -/
def depth : BTreeNode K V → Option ℕ
  | .leaf _ _ => some 1
  | .internal _ children _ => (depthFirst children).map (1 + ·)

def depthFirst : List (BTreeNode K V) → Option ℕ
  | [] => none
  | c :: _ => depth c

end

mutual

def countLeaves : BTreeNode K V → ℕ
  | .leaf _ _ => 1
  | .internal _ children _ => countLeavesOf children

def countLeavesOf : List (BTreeNode K V) → ℕ
  | [] => 0
  | c :: cs => countLeaves c + countLeavesOf cs

end

mutual

def countInternals : BTreeNode K V → ℕ
  | .leaf _ _ => 0
  | .internal _ children _ => 1 + countInternalsOf children

def countInternalsOf : List (BTreeNode K V) → ℕ
  | [] => 0
  | c :: cs => countInternals c + countInternalsOf cs

end

variable [LinearOrder K]

/-- The child a key belongs to: the search never finds a separator equal, so the
`unwrap_err` on its result does not panic. -/
def childIndex (keys : List K) (key : K) : Option ℕ :=
  match binarySearchBy (fun k => if key < k then Ordering.gt else Ordering.lt) keys with
  | .ok _ => none
  | .error i => some i

mutual

def getInNode (key : K) : BTreeNode K V → Option (Option V)
  | .leaf entries _ =>
    match binarySearchBy (fun e => compare e.1 key) entries with
    | .ok i => entries[i]?.map fun e => some e.2
    | .error _ => some none
  | .internal keys children _ => (childIndex keys key).bind fun i => getInChild key i children

def getInChild (key : K) : ℕ → List (BTreeNode K V) → Option (Option V)
  | _, [] => none
  | 0, c :: _ => getInNode key c
  | i + 1, _ :: cs => getInChild key i cs

end

mutual

/-- The entry with the greatest key at or below `key`. -/
def floorEntry (key : K) : BTreeNode K V → Option (Option (K × V))
  | .leaf entries _ =>
    match binarySearchBy (fun e => compare e.1 key) entries with
    | .ok i => entries[i]?.map some
    | .error 0 => some none
    | .error (i + 1) => entries[i]?.map some
  | .internal keys children _ =>
    (childIndex keys key).bind fun i =>
      (floorInChild key i children).bind fun
        | some entry => some (some entry)
        | none => if 0 < i then children[i - 1]?.map maxEntry else some none

def floorInChild (key : K) : ℕ → List (BTreeNode K V) → Option (Option (K × V))
  | _, [] => none
  | 0, c :: _ => floorEntry key c
  | i + 1, _ :: cs => floorInChild key i cs

end

end BTreeNode

/-! ### Insertion -/

/-- The internal node over the children: `refresh_internal_metadata`. -/
def nodeOver (children : List (BTreeNode K V)) : Option (BTreeNode K V) :=
  ((children.drop 1).mapM minKey).map fun keys => .internal keys children (internalChecksum P children)

/-- What an insertion leaves behind: the node, the value it replaced, and the
new right sibling if the node was split. -/
abbrev InsertResult (K V : Type) := BTreeNode K V × Option V × Option (BTreeNode K V)

/-- A leaf after the entry went in: split in the middle if there are too many. -/
def splitLeaf (entries : List (K × V)) : BTreeNode K V × Option (BTreeNode K V) :=
  if entries.length ≤ P.maxLeaf then (.leaf entries (leafChecksum P entries.length), none)
  else
    let left := entries.take (divCeil entries.length 2)
    let right := entries.drop (divCeil entries.length 2)
    (.leaf left (leafChecksum P left.length), some (.leaf right (leafChecksum P right.length)))

def splitInternal (children : List (BTreeNode K V)) : Option (BTreeNode K V × Option (BTreeNode K V)) :=
  (nodeOver P children).bind fun node =>
    if children.length ≤ P.maxInternal then some (node, none)
    else
      (nodeOver P (children.take (divCeil children.length 2))).bind fun left =>
        (nodeOver P (children.drop (divCeil children.length 2))).map fun right => (left, some right)

section Insert

variable [LinearOrder K]

mutual

def insertIntoNode (key : K) (value : V) : BTreeNode K V → Option (InsertResult K V)
  | .leaf entries _ =>
    match binarySearchBy (fun e => compare e.1 key) entries with
    | .ok i =>
      entries[i]?.map fun previous =>
        (.leaf (entries.set i (key, value)) (leafChecksum P entries.length), some previous.2, none)
    | .error i =>
      let r := splitLeaf P (entries.insertIdx i (key, value))
      some (r.1, none, r.2)
  | .internal keys children _ =>
    (insertIntoChild key value (partitionPoint (fun separator => separator ≤ key) keys) children).bind fun r =>
      (splitInternal P r.1).map fun n => (n.1, r.2, n.2)

/-- The child at the index takes the entry; its new sibling, if any, comes after it. -/
def insertIntoChild (key : K) (value : V) : ℕ → List (BTreeNode K V) → Option (List (BTreeNode K V) × Option V)
  | _, [] => none
  | 0, c :: cs => (insertIntoNode key value c).map fun r => (r.1 :: (r.2.2.toList ++ cs), r.2.1)
  | i + 1, c :: cs => (insertIntoChild key value i cs).map fun r => (c :: r.1, r.2)

end

end Insert

/-! ### Rebuilding -/

section Deal

variable {α β : Type}

/-- `&items[offset..offset + size]`. -/
def slice (items : List α) (offset size : ℕ) : Option (List α) :=
  if offset + size ≤ items.length then some ((items.drop offset).take size) else none

/-- The loop that takes away parts as long as they would be too small. -/
def shrinkParts (n minFill : ℕ) : ℕ → ℕ
  | 0 => 0
  | parts + 1 =>
    if 1 < parts + 1 ∧ divCeil n (parts + 1) < minFill then shrinkParts n minFill parts else parts + 1

/-- The loop over the parts: the first `remainder` of them get one item more. -/
def dealLoop (make : List α → Option β) (items : List α) (base remainder : ℕ) : List ℕ → ℕ → Option (List β)
  | [], _ => some []
  | i :: is, offset =>
    let size := if i < remainder then base + 1 else base
    (slice items offset size).bind fun chunk =>
      (make chunk).bind fun node =>
        (dealLoop make items base remainder is (offset + size)).map (node :: ·)

/-- The items dealt out evenly to as few parts as their bounds allow. -/
def deal (maxFill minFill : ℕ) (make : List α → Option β) (items : List α) : Option (List β) :=
  if maxFill = 0 then none
  else
    let n := items.length
    let parts := shrinkParts n minFill (divCeil n maxFill)
    dealLoop make items (n / parts) (n % parts) (List.range parts) 0

end Deal

def leafOver (entries : List (K × V)) : BTreeNode K V := .leaf entries (leafChecksum P entries.length)

def buildCompactLeaves (entries : List (K × V)) : Option (List (BTreeNode K V)) :=
  if entries.length ≤ P.maxLeaf then some [leafOver P entries]
  else deal P.maxLeaf P.minLeaf (fun chunk => some (leafOver P chunk)) entries

/-- A group of one child is that child. -/
def groupOver : List (BTreeNode K V) → Option (BTreeNode K V)
  | [c] => some c
  | chunk => nodeOver P chunk

def buildCompactInternalLevel (children : List (BTreeNode K V)) : Option (List (BTreeNode K V)) :=
  if children.length ≤ P.maxInternal then
    if children.length = 1 then some children else (nodeOver P children).map ([·])
  else deal P.maxInternal P.minInternal (groupOver P) children

/-- The loop over the levels. Without fuel it would go on. -/
def levelLoop : ℕ → List (BTreeNode K V) → Option (List (BTreeNode K V))
  | 0, current => if 1 < current.length then none else some current
  | fuel + 1, current =>
    if 1 < current.length then (buildCompactInternalLevel P current).bind (levelLoop fuel) else some current

/-- `chunks`: the last one may be short. The fuel is the number of items. -/
def chunks {α : Type} (size : ℕ) : ℕ → List α → List (List α)
  | 0, _ => []
  | fuel + 1, items => if items.isEmpty then [] else items.take size :: chunks size fuel (items.drop size)

/-- One turn of the loop in `rebuild`: full groups, and what is left in the last. -/
def chunkLevel (current : List (BTreeNode K V)) : Option (List (BTreeNode K V)) :=
  if P.maxInternal = 0 then none else (chunks P.maxInternal current.length current).mapM (groupOver P)

def chunkLoop : ℕ → List (BTreeNode K V) → Option (List (BTreeNode K V))
  | 0, current => if 1 < current.length then none else some current
  | fuel + 1, current => if 1 < current.length then (chunkLevel P current).bind (chunkLoop fuel) else some current

/-! ### Validation -/

/-- Each key is less than the next: the `windows(2)` loops. -/
def windowsAscend [LinearOrder K] : List K → Bool
  | a :: b :: l => decide (a < b) && windowsAscend (b :: l)
  | _ => true

/-- The loop that compares separators with the smallest keys of the children. -/
def separatorsMatch [DecidableEq K] : List K → List (BTreeNode K V) → Option Bool
  | [], _ => some true
  | _ :: _, [] => none
  | key :: keys, c :: cs =>
    (minKey c).bind fun childMin => if key ≠ childMin then some false else separatorsMatch keys cs

mutual

def validateNode [LinearOrder K] (isRoot : Bool) : BTreeNode K V → Option (Except BTreeError Unit)
  | .leaf entries _ =>
    some <|
      if P.maxLeaf < entries.length then .error .leafOverflow
      else if !isRoot && decide (entries.length < P.minLeaf) then .error .leafUnderflow
      else if !windowsAscend (entries.map Prod.fst) then .error .keyOrderViolation
      else .ok ()
  | .internal keys children _ =>
    if children.length < 2 then some (.error .internalTooFewChildren)
    else if P.maxInternal < children.length then some (.error .internalOverflow)
    else if !isRoot && decide (children.length < P.minInternal) then some (.error .internalUnderflow)
    else if keys.length ≠ children.length - 1 then some (.error .keyChildMismatch)
    else
      (separatorsMatch keys (children.drop 1)).bind fun
        | false => some (.error .separatorMismatch)
        | true => if !windowsAscend keys then some (.error .keyOrderViolation) else validateChildren children

def validateChildren [LinearOrder K] : List (BTreeNode K V) → Option (Except BTreeError Unit)
  | [] => some (.ok ())
  | c :: cs =>
    (validateNode false c).bind fun
      | .error e => some (.error e)
      | .ok () => validateChildren cs

end

mutual

def verifyNodeChecksums : BTreeNode K V → Except BTreeError Unit
  | .leaf entries checksum => if checksum ≠ leafChecksum P entries.length then .error .checksumMismatch else .ok ()
  | .internal _ children checksum =>
    if checksum ≠ internalChecksum P children then .error .checksumMismatch else verifyChildren children

def verifyChildren : List (BTreeNode K V) → Except BTreeError Unit
  | [] => .ok ()
  | c :: cs =>
    match verifyNodeChecksums c with
    | .error e => .error e
    | .ok () => verifyChildren cs

end

/-! ### The tree -/

/-- A tree with the number of its entries. -/
structure BPlusTree (K V : Type) where
  root : BTreeNode K V
  len : ℕ

namespace BPlusTree

def new : BPlusTree K V := ⟨.leaf [] (leafChecksum P 0), 0⟩

variable (t : BPlusTree K V)

/-- All entries in key order; also `collect_all_entries`. -/
def entries : List (K × V) := t.root.collectAll

def isEmpty : Bool := t.len == 0

def depth : Option ℕ := if t.len = 0 then some 1 else t.root.depth

def clear : BPlusTree K V := ⟨.leaf [] (leafChecksum P 0), 0⟩

def rebuildCompact (entries : List (K × V)) : Option (BPlusTree K V) :=
  if entries.isEmpty then some ⟨.leaf [] (leafChecksum P 0), 0⟩
  else
    (buildCompactLeaves P entries).bind fun leaves =>
      (levelLoop P leaves.length leaves).bind fun top => top.head?.map fun root => ⟨root, entries.length⟩

def compact : Option (BPlusTree K V) :=
  if t.isEmpty then some t else rebuildCompact P t.entries

/-- Packs the sorted entries from the left: the last nodes of a level may be short,
and a node left over goes up a level as it is. -/
def rebuild (entries : List (K × V)) : Option (BPlusTree K V) :=
  if entries.isEmpty then some ⟨.leaf [] (leafChecksum P 0), 0⟩
  else if P.maxLeaf = 0 then none
  else
    let leaves := (chunks P.maxLeaf entries.length entries).map (leafOver P)
    (chunkLoop P leaves.length leaves).bind fun top => top.head?.map fun root => ⟨root, entries.length⟩

def leafCount : ℕ := t.root.countLeaves

def internalCount : ℕ := if t.isEmpty then 0 else t.root.countInternals

variable [LinearOrder K]

def get (key : K) : Option (Option V) := t.root.getInNode key

def containsKey (key : K) : Option Bool := (t.get key).map Option.isSome

def floorEntry (key : K) : Option (Option (K × V)) := t.root.floorEntry key

def insert (key : K) (value : V) : Option (BPlusTree K V × Option V) :=
  (insertIntoNode P key value t.root).bind fun r =>
    let root :=
      match r.2.2 with
      | some right => nodeOver P [r.1, right]
      | none => some r.1
    root.map fun root => (⟨root, if r.2.1.isNone then t.len + 1 else t.len⟩, r.2.1)

/-- The tree after the deletion, and the value removed. -/
def delete (key : K) : Option (BPlusTree K V × Option V) :=
  match binarySearchBy (fun e => compare e.1 key) t.entries with
  | .ok i =>
    t.entries[i]?.bind fun removed => (rebuildCompact P (t.entries.eraseIdx i)).map fun t' => (t', some removed.2)
  | .error _ => some (t, none)

/-- The tree after the update, and whether the key was there. -/
def update (key : K) (f : V → V) : Option (BPlusTree K V × Bool) :=
  match binarySearchBy (fun e => compare e.1 key) t.entries with
  | .ok i =>
    t.entries[i]?.bind fun entry =>
      (rebuildCompact P (t.entries.set i (entry.1, f entry.2))).map fun t' => (t', true)
  | .error _ => some (t, false)

def validate : Option (Except BTreeError Unit) :=
  if t.len = 0 then
    match t.root with
    | .leaf [] checksum => some (if checksum ≠ leafChecksum P 0 then .error .checksumMismatch else .ok ())
    | _ => some (.error .keyChildMismatch)
  else
    (validateNode P true t.root).map fun
      | .error e => .error e
      | .ok () => verifyNodeChecksums P t.root

end BPlusTree

end Tidefs.Btree
