/-
# The free-block bitmap

`FreeBlockBitmap` of `tidefs-block-allocator`: one bit for each block, set if
the block is used, with a cached count of the free blocks and the block where
the next search starts. A search either takes consecutive blocks (first fit
from the hint, wrapping around; best fit over all runs; the run across the end
of the bitmap) or any free blocks in the order it meets them. The variants that
avoid fenced devices run the same searches over fewer blocks, so each search
takes the blocks to skip as a parameter.

Block numbers are naturals. Sums of two block numbers do not wrap: a bitmap
over 2^63 blocks would fill 2^60 bytes of memory.
-/
import Tidefs.Lib.Bits
import Tidefs.Lib.Runs
import Tidefs.Lib.Word

namespace Tidefs.Allocator

open Ordered Word Bits

/-- The errors of the block allocator. -/
inductive AllocError where
  | noSpace
  | quotaExceeded
  | alignmentViolation
  | misalignedOffset
  | mixedDeviceTopology
  | deviceNotRegistered
  | deviceAlreadyRegistered
  | io
  | alignmentImpossible
  | invalidDeviceTopology
  | commitGroupConflict
deriving DecidableEq, Repr

abbrev DeviceId := ℕ

/-- One bit a block. -/
structure FreeBlockBitmap where
  blockCount : ℕ
  /-- Bit `i` of the words is set if block `i` is used. -/
  words : List (BitVec 64)
  hint : ℕ
  freeCount : ℕ
  dirty : Bool
deriving DecidableEq

/-- Whether the block's byte offset falls into the last device extent that
starts at or before it, and that device is fenced. The offset and the end of
the extent are 64-bit and wrap. -/
def isBlockFencedInner (blockSize : ℕ) (deviceExtents : OrdMap ℕ (DeviceId × ℕ)) (fencedDevices : OrdSet DeviceId)
    (blockId : ℕ) : Bool :=
  let offset := wrap64 (blockId * blockSize)
  match deviceExtents.lastLE offset with
  | some (start, id, len) => decide (offset < wrap64 (start + len)) && decide (id ∈ fencedDevices)
  | none => false

namespace FreeBlockBitmap

/-! ### Construction -/

abbrev bitsPerWord : ℕ := 64

def wordCountFor (blockCount : ℕ) : ℕ := divCeil blockCount bitsPerWord

def byteLenFor (blockCount : ℕ) : ℕ := wordCountFor blockCount * 8

/-- The word with the bits below `rem` set. -/
def lowMask (rem : ℕ) : BitVec 64 := 1#64 <<< rem - 1#64

variable (bm : FreeBlockBitmap)

/-- The bits behind the last block are set, so that no search finds them. -/
def guardTailBits : FreeBlockBitmap :=
  let rem := bm.blockCount % bitsPerWord
  if rem = 0 then bm
  else { bm with words := bm.words.modify (bm.words.length - 1) (· ||| ~~~ lowMask rem) }

def countOnes (w : BitVec 64) : ℕ := (List.range 64).countP fun i => w.getLsbD i

def countFreeBlocks : ℕ :=
  let fullWords := bm.blockCount / bitsPerWord
  let rem := bm.blockCount % bitsPerWord
  let free := ((bm.words.take fullWords).map fun word => countOnes (~~~ word)).sum
  if rem ≠ 0 then
    match bm.words[fullWords]? with
    | some word => free + countOnes (~~~ word &&& lowMask rem)
    | none => free
  else free

def new (blockCount : ℕ) : FreeBlockBitmap :=
  guardTailBits
    { blockCount := blockCount
      words := List.replicate (wordCountFor blockCount) 0#64
      hint := 0
      freeCount := blockCount
      dirty := true }

/-- Words that are missing are taken as all used. -/
def fromWords (blockCount : ℕ) (words : List (BitVec 64)) : FreeBlockBitmap :=
  let expected := wordCountFor blockCount
  let truncated := words.take expected
  let bm := guardTailBits
    { blockCount := blockCount
      words := truncated ++ List.replicate (expected - truncated.length) (BitVec.allOnes 64)
      hint := 0
      freeCount := 0
      dirty := false }
  { bm with freeCount := bm.countFreeBlocks }

/-! ### One block -/

/-- The test without a bound; the callers stay below the block count. -/
def isFreeInner (id : ℕ) : Bool :=
  bm.words.getD (id / bitsPerWord) 0#64 &&& mask 64 (id % bitsPerWord) == 0#64

def isFree (id : ℕ) : Bool := if bm.blockCount ≤ id then false else bm.isFreeInner id

def markUsed (id : ℕ) : FreeBlockBitmap :=
  if bm.blockCount ≤ id then bm
  else if bm.words.getD (id / bitsPerWord) 0#64 &&& mask 64 (id % bitsPerWord) = 0#64 then
    { bm with
      words := bm.words.modify (id / bitsPerWord) (· ||| mask 64 (id % bitsPerWord))
      freeCount := bm.freeCount - 1
      dirty := true }
  else bm

def markFree (id : ℕ) : FreeBlockBitmap :=
  if bm.blockCount ≤ id then bm
  else if bm.words.getD (id / bitsPerWord) 0#64 &&& mask 64 (id % bitsPerWord) ≠ 0#64 then
    { bm with
      words := bm.words.modify (id / bitsPerWord) (· &&& ~~~ mask 64 (id % bitsPerWord))
      freeCount := bm.freeCount + 1
      dirty := true }
  else bm

def freeBlocks (blocks : List ℕ) : FreeBlockBitmap := blocks.foldl markFree bm

def markClean : FreeBlockBitmap := { bm with dirty := false }

/-! ### Consecutive blocks -/

/-- One pass of the first-fit search, with the run under way: where it starts and
how long it is. Stops at the first run of `need` blocks and returns its start. -/
def searchPass (usable : ℕ → Bool) (need : ℕ) : List ℕ → Option ℕ × ℕ → ℕ ⊕ (Option ℕ × ℕ)
  | [], run => .inr run
  | blk :: blks, (runStart, runLen) =>
    if usable blk then
      let first := runStart.getD blk
      if need ≤ runLen + 1 then .inl first
      else searchPass usable need blks (some first, runLen + 1)
    else searchPass usable need blks (none, 0)

/-- Between the passes, a run is carried over if it reaches the end. -/
def carryOver (total : ℕ) : Option ℕ × ℕ → Option ℕ × ℕ
  | (some rs, runLen) => if rs + runLen < total then (none, 0) else (some rs, runLen)
  | (none, runLen) => (none, runLen)

/-- The two passes of the search, from the hint to the end and from block 0 to
the hint. -/
def firstFit (usable : ℕ → Bool) (need hint total : ℕ) : Option ℕ :=
  match searchPass usable need (List.range' hint (total - hint)) (none, 0) with
  | .inl first => some first
  | .inr run =>
    match searchPass usable need (List.range hint) (carryOver total run) with
    | .inl first => some first
    | .inr _ => none

/-- The run across the end of the bitmap, as the blocks to take and the next hint. -/
def wrapAround (usable : ℕ → Bool) (need total : ℕ) : Option (List ℕ × ℕ) :=
  let suffixFree := ((List.range total).reverse.takeWhile usable).length
  let prefixFree := ((List.range total).takeWhile usable).length
  if need ≤ suffixFree + prefixFree then
    let first := total - min need suffixFree
    let ids :=
      if need ≤ suffixFree then List.range' first need
      else List.range' first (total - first) ++ List.range (need - suffixFree)
    let hint := if need ≤ suffixFree then first + need else need - suffixFree
    some (ids, if total ≤ hint then 0 else hint)
  else none

/-- The blocks are marked used and the next search starts at `hint`. -/
def take (ids : List ℕ) (hint : ℕ) : FreeBlockBitmap :=
  { ids.foldl markUsed bm with hint := hint }

/-- `alloc_contiguous` over the free blocks that are not skipped. -/
def allocContiguousWhere (skip : ℕ → Bool) (bm : FreeBlockBitmap) (nblocks : ℕ) :
    FreeBlockBitmap × Except AllocError (List ℕ) :=
  let total := bm.blockCount
  if nblocks = 0 ∨ total < nblocks ∨ bm.freeCount < nblocks then (bm, .error .noSpace)
  else
    let usable := fun blk => bm.isFreeInner blk && !skip blk
    match firstFit usable nblocks bm.hint total with
    | some first =>
      let ids := (List.range nblocks).map fun off => (first + off) % total
      (bm.take ids ((first + nblocks) % total), .ok ids)
    | none =>
      match wrapAround usable nblocks total with
      | some (ids, hint) => (bm.take ids hint, .ok ids)
      | none => (bm, .error .noSpace)

def allocContiguous (nblocks : ℕ) : FreeBlockBitmap × Except AllocError (List ℕ) :=
  allocContiguousWhere (fun _ => false) bm nblocks

def allocContiguousSkipDevices (nblocks blockSize : ℕ)
    (deviceExtents : OrdMap ℕ (DeviceId × ℕ)) (fencedDevices : OrdSet DeviceId) :
    FreeBlockBitmap × Except AllocError (List ℕ) :=
  allocContiguousWhere (isBlockFencedInner blockSize deviceExtents fencedDevices) bm nblocks

/-- The loop of the best-fit search over the free runs: the shortest run that is
long enough, and the first one that fits exactly. -/
def bestRun (need : ℕ) : List Run → Option ℕ × ℕ → Option ℕ
  | [], best => best.1
  | r :: rs, (bestStart, bestLen) =>
    if need ≤ r.len ∧ r.len < bestLen then
      if r.len = need then some r.start else bestRun need rs (some r.start, r.len)
    else bestRun need rs (bestStart, bestLen)

def allocContiguousBestFit (nblocks : ℕ) : FreeBlockBitmap × Except AllocError (List ℕ) :=
  let total := bm.blockCount
  if nblocks = 0 ∨ total < nblocks ∨ bm.freeCount < nblocks then (bm, .error .noSpace)
  else
    match bestRun nblocks (scan bm.isFreeInner 0 total []) (none, u64Max) with
    | some first =>
      let ids := List.range' first nblocks
      (bm.take ids (first + nblocks), .ok ids)
    | none =>
      match wrapAround bm.isFreeInner nblocks total with
      | some (ids, hint) => (bm.take ids hint, .ok ids)
      | none => (bm, .error .noSpace)

/-- The run at `startBlock`, if it is free; the hint stays. -/
def allocContiguousAt (startBlock nblocks : ℕ) : FreeBlockBitmap × Except AllocError (List ℕ) :=
  if nblocks = 0 ∨ bm.blockCount < startBlock + nblocks then (bm, .error .noSpace)
  else
    let ids := List.range' startBlock nblocks
    if ids.all bm.isFreeInner then (ids.foldl markUsed bm, .ok ids) else (bm, .error .noSpace)

/-! ### Any blocks -/

/-- One pass of the scattered search. It marks each block it takes at once; with
`need` blocks in hand it stops and moves the hint. -/
def scatterPass (skip : ℕ → Bool) (need : ℕ) :
    List ℕ → FreeBlockBitmap → List ℕ → (FreeBlockBitmap × List ℕ) ⊕ (FreeBlockBitmap × List ℕ)
  | [], bm, result => .inr (bm, result)
  | blk :: blks, bm, result =>
    if bm.isFreeInner blk && !skip blk then
      let bm := bm.markUsed blk
      let result := result ++ [blk]
      if need ≤ result.length then
        .inl ({ bm with hint := if bm.blockCount ≤ blk + 1 then 0 else blk + 1 }, result)
      else scatterPass skip need blks bm result
    else scatterPass skip need blks bm result

/-- `alloc_any` over the free blocks that are not skipped. When it fails, what
the passes marked stays marked. -/
def allocScatteredWhere (skip : ℕ → Bool) (bm : FreeBlockBitmap) (nblocks : ℕ) :
    FreeBlockBitmap × Except AllocError (List ℕ) :=
  if nblocks = 0 ∨ bm.freeCount < nblocks then (bm, .error .noSpace)
  else
    let total := bm.blockCount
    let start := bm.hint
    match scatterPass skip nblocks (List.range' start (total - start)) bm [] with
    | .inl (bm', ids) => (bm', .ok ids)
    | .inr (bm', result) =>
      match scatterPass skip nblocks (List.range start) bm' result with
      | .inl (bm'', ids) => (bm'', .ok ids)
      | .inr (bm'', _) => (bm'', .error .noSpace)

def allocAny (nblocks : ℕ) : FreeBlockBitmap × Except AllocError (List ℕ) :=
  allocScatteredWhere (fun _ => false) bm nblocks

def allocScatteredSkipDevices (nblocks blockSize : ℕ)
    (deviceExtents : OrdMap ℕ (DeviceId × ℕ)) (fencedDevices : OrdSet DeviceId) :
    FreeBlockBitmap × Except AllocError (List ℕ) :=
  allocScatteredWhere (isBlockFencedInner blockSize deviceExtents fencedDevices) bm nblocks

/-! ### Chains of searches -/

/-- `a.or_else(b)`: the second search runs on what the first one left. -/
def orElse (first : FreeBlockBitmap × Except AllocError (List ℕ))
    (second : FreeBlockBitmap → FreeBlockBitmap × Except AllocError (List ℕ)) :
    FreeBlockBitmap × Except AllocError (List ℕ) :=
  match first with
  | (bm, .ok ids) => (bm, .ok ids)
  | (bm, .error _) => second bm

def alloc (nblocks : ℕ) : FreeBlockBitmap × Except AllocError (List ℕ) :=
  orElse (orElse (bm.allocContiguous nblocks) fun bm => bm.allocContiguousBestFit nblocks) fun bm =>
    bm.allocAny nblocks

def allocAnySkipDevices (nblocks blockSize : ℕ)
    (deviceExtents : OrdMap ℕ (DeviceId × ℕ)) (fencedDevices : OrdSet DeviceId) :
    FreeBlockBitmap × Except AllocError (List ℕ) :=
  orElse (bm.allocContiguousSkipDevices nblocks blockSize deviceExtents fencedDevices) fun bm =>
    bm.allocScatteredSkipDevices nblocks blockSize deviceExtents fencedDevices

/-! ### Diagnostics -/

/-- One block of the loop of `largest_contiguous_free`: the longest run, and the one under way. -/
def longestStep (st : ℕ × ℕ) (blk : ℕ) : ℕ × ℕ :=
  if bm.isFreeInner blk then (max st.1 (st.2 + 1), st.2 + 1) else (st.1, 0)

def largestContiguousFree : ℕ :=
  let total := bm.blockCount
  let maxRun := ((List.range total).foldl (longestStep bm) (0, 0)).1
  let suffixFree := ((List.range total).reverse.takeWhile bm.isFreeInner).length
  let prefixFree := ((List.range total).takeWhile bm.isFreeInner).length
  let wrapRun := if 0 < suffixFree ∧ 0 < prefixFree then min (suffixFree + prefixFree) total else 0
  asU32 (max maxRun wrapRun)

end FreeBlockBitmap

end Tidefs.Allocator
