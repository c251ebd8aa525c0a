/-
# The block allocator

`AllocatorInner` of `tidefs-block-allocator` and the calls of `BlockAllocator`
that change it or search it. The state is behind one lock, so a run is a
sequence of calls. A call that panics has no result (the lock is poisoned and
no call follows it).

Left out: the quota table and the flush calls, which share no field with what
is here, and the checks of debug builds.
-/
import Tidefs.Allocator.Bitmap
import Tidefs.Allocator.Topology
import Tidefs.Lib.Groups
import Tidefs.SpaceMap.FreeMap

namespace Tidefs.Allocator

open Ordered Word SpaceMap

/-! ### Data -/

/-- Which commit group a change belongs to. -/
structure CommitGroupEpochFence where
  epochNumber : ℕ
  commitGroupId : ℕ
deriving DecidableEq

namespace CommitGroupEpochFence

/-- Fences are ordered by epoch, then by commit group. -/
instance : LinearOrder CommitGroupEpochFence :=
  LinearOrder.lift' (fun f => toLex (f.epochNumber, f.commitGroupId)) fun a b h => by
    cases a; cases b
    simpa using h

def isValid (f : CommitGroupEpochFence) : Bool := decide (0 < f.epochNumber) && decide (0 < f.commitGroupId)

end CommitGroupEpochFence

structure Region where
  offset : ℕ
  length : ℕ
deriving DecidableEq

structure TrimRequest where
  offset : ℕ
  length : ℕ
deriving DecidableEq, Repr

structure TrimStats where
  trimOps : ℕ
  trimBytes : ℕ
deriving DecidableEq

/-- A `TrimSink` is known to the allocator by its answers. -/
structure TrimSink where
  trimRange : TrimRequest → Bool

/-- Blocks named to the holder of an epoch: `BlockAllocationReservation` and
`BlockFreeReservation`. -/
structure Reservation where
  epochFence : CommitGroupEpochFence
  blocks : List ℕ
deriving DecidableEq

structure CommitGroupBlockDelta where
  allocations : ℕ
  frees : ℕ
deriving DecidableEq

/-- Blocks, or how long the longest free run is. -/
inductive AllocResult where
  | allocated (blocks : List ℕ)
  | noSpace (largestFreeExtent : ℕ)
deriving DecidableEq

/-- The blocks of each epoch. -/
abbrev Pending := OrdMap CommitGroupEpochFence (OrdSet ℕ)

/-- The epoch of each block. -/
abbrev Owners := OrdMap ℕ CommitGroupEpochFence

/-- The state of the block allocator. -/
structure AllocatorInner where
  bitmap : FreeBlockBitmap
  blockSize : ℕ
  bitmapRegion : Region
  topology : AllocatorTopology
  rootReserve : ℕ
  deviceTopologies : OrdMap DeviceId DeviceTopology
  /-- From the start offset of a device's range to the device and the length. -/
  deviceExtents : OrdMap ℕ (DeviceId × ℕ)
  spacemap : SegmentFreeMap
  trimSink : Option TrimSink
  minDiscardBytes : ℕ
  trimStats : TrimStats
  fencedDevices : OrdSet DeviceId
  pendingAllocations : Pending
  pendingAllocationBlocks : Owners
  pendingFrees : Pending
  pendingFreeBlocks : Owners

namespace AllocatorInner

/-! ### Construction -/

def defaultMinDiscardBytes : ℕ := 1048576

/-- `assert_region_capacity` and `assert_block_alignment`. -/
def assertsHold (blockCount blockSize : ℕ) (region : Region) (topology : AllocatorTopology) : Bool :=
  decide (FreeBlockBitmap.byteLenFor blockCount ≤ region.length) &&
    (AllocatorTopology.modChecked blockSize topology.sectorSize == some 0)

/-- The state with nothing registered, fenced or pending. -/
def start (bitmap : FreeBlockBitmap) (blockSize : ℕ) (region : Region) (topology : AllocatorTopology)
    (rootReserve : ℕ) (spacemap : SegmentFreeMap) : AllocatorInner where
  bitmap := bitmap
  blockSize := blockSize
  bitmapRegion := region
  topology := topology
  rootReserve := rootReserve
  deviceTopologies := OrdMap.empty
  deviceExtents := OrdMap.empty
  spacemap := spacemap
  trimSink := none
  minDiscardBytes := defaultMinDiscardBytes
  trimStats := ⟨0, 0⟩
  fencedDevices := OrdSet.empty
  pendingAllocations := OrdMap.empty
  pendingAllocationBlocks := OrdMap.empty
  pendingFrees := OrdMap.empty
  pendingFreeBlocks := OrdMap.empty

def withTopology (blockCount blockSize : ℕ) (region : Region) (topology : AllocatorTopology) (rootReserve : ℕ) :
    Option AllocatorInner :=
  if assertsHold blockCount blockSize region topology then
    (SegmentFreeMap.new blockCount [⟨0, blockCount⟩]).toOption.map
      (start (FreeBlockBitmap.new blockCount) blockSize region topology rootReserve)
  else none

/-- Whether a persisted word vector has the block free, for the free-space map:
a block whose word is missing counts as free. -/
def persistedFree (words : List (BitVec 64)) (blk : ℕ) : Bool :=
  match words[blk / 64]? with
  | some word => (word >>> (blk % 64)) &&& 1#64 == 0#64
  | none => true

def fromPersistedWithTopology (blockCount blockSize : ℕ) (region : Region) (words : List (BitVec 64))
    (topology : AllocatorTopology) (rootReserve : ℕ) : Option AllocatorInner :=
  if assertsHold blockCount blockSize region topology then
    (SegmentFreeMap.new blockCount (scan (persistedFree words) 0 blockCount [])).toOption.map
      (start (FreeBlockBitmap.fromWords blockCount words) blockSize region topology rootReserve)
  else none

/-! ### Devices -/

variable (s : AllocatorInner)

/-- The device extents from the last one that starts at or before the offset down. -/
def extentsDownFrom (offset : ℕ) : List (ℕ × DeviceId × ℕ) :=
  (s.deviceExtents.entries.filter fun e => e.1 ≤ offset).reverse

/-- The topology of the device the offset falls on, or the default. -/
def topologyFor (offset : ℕ) : AllocatorTopology :=
  let found := (s.extentsDownFrom offset).findSome? fun e =>
    if e.1 ≤ offset ∧ offset < wrap64 (e.1 + e.2.2) then s.deviceTopologies.get? e.2.1 else none
  match found with
  | some dt => AllocatorTopology.ofDevice dt
  | none => s.topology

def topologyForRange (start length : ℕ) : Except AllocError AllocatorTopology :=
  if length = 0 then .ok (s.topologyFor start)
  else
    let stop := satAdd start length
    let startTopo := s.topologyFor start
    let endTopo := s.topologyFor (stop - 1)
    let inside := s.deviceExtents.entries.filter fun e => start ≤ e.1 ∧ e.1 < stop
    if inside.any fun e => startTopo ≠ endTopo ∨ start < e.1 ∧ s.topologyFor e.1 ≠ startTopo then
      .error .mixedDeviceTopology
    else if endTopo ≠ startTopo then .error .mixedDeviceTopology
    else .ok startTopo

def registerDevice (id : DeviceId) (topology : DeviceTopology) (startOffset length : ℕ) :
    AllocatorInner × Except AllocError Unit :=
  if !isPowerOfTwo topology.logicalSectorSize || topology.logicalSectorSize == 0 ||
      topology.physicalSectorSize == 0 || !isPowerOfTwo topology.physicalSectorSize then
    (s, .error .invalidDeviceTopology)
  else if topology.physicalSectorSize ≤ topology.alignmentOffset then (s, .error .invalidDeviceTopology)
  else if s.deviceTopologies.contains id then (s, .error .deviceAlreadyRegistered)
  else
    ({ s with
        deviceTopologies := s.deviceTopologies.insert id topology
        deviceExtents := s.deviceExtents.insert startOffset (id, length) }, .ok ())

def fenceDevice (id : DeviceId) : AllocatorInner :=
  { s with fencedDevices := s.fencedDevices.insert id }

def unfenceDevice (id : DeviceId) : AllocatorInner :=
  { s with fencedDevices := s.fencedDevices.erase id }

/-! ### Allocation -/

/-- The blocks the fence-aware searches skip. -/
def fenced (blk : ℕ) : Bool :=
  isBlockFencedInner s.blockSize s.deviceExtents s.fencedDevices blk

def admitAllocation (nblocks : ℕ) : Except AllocError Unit :=
  if nblocks = 0 then .ok ()
  else if s.bitmap.freeCount - s.rootReserve < nblocks then .error .noSpace
  else .ok ()

def removeFromSpacemap (blocks : List ℕ) : AllocatorInner :=
  { s with spacemap := blocks.foldl (fun fm blk => (fm.removeFree blk).1) s.spacemap }

def markBlocksUsedInSpacemap (blocks : List ℕ) : AllocatorInner :=
  let s := s.removeFromSpacemap blocks
  { s with spacemap := s.spacemap.rebuildHints }

def markBlocksFreeLocked (blocks : List ℕ) : AllocatorInner :=
  { s with
    bitmap := s.bitmap.freeBlocks blocks
    spacemap := (blocks.foldl (fun fm blk => (fm.addFree blk).1) s.spacemap).rebuildHints }

/-- The end of every allocation: the bitmap is as the search left it, and the
blocks it found leave the free-space map. -/
def settle (found : FreeBlockBitmap × Except AllocError (List ℕ)) : AllocatorInner × Except AllocError (List ℕ) :=
  match found with
  | (bm, .ok blocks) => ({ s with bitmap := bm }.markBlocksUsedInSpacemap blocks, .ok blocks)
  | (bm, .error e) => ({ s with bitmap := bm }, .error e)

/-- Admission, and then a search. -/
def admitThen (nblocks : ℕ) (search : FreeBlockBitmap × Except AllocError (List ℕ)) :
    AllocatorInner × Except AllocError (List ℕ) :=
  match s.admitAllocation nblocks with
  | .error e => (s, .error e)
  | .ok () => s.settle search

/-- The search of `alloc_locked` and of the fallback of `alloc_bytes`. -/
def searchBlocks (nblocks : ℕ) : FreeBlockBitmap × Except AllocError (List ℕ) :=
  if s.fencedDevices.isEmpty then s.bitmap.alloc nblocks
  else
    FreeBlockBitmap.orElse
      (s.bitmap.allocContiguousSkipDevices nblocks s.blockSize s.deviceExtents s.fencedDevices)
      fun bm => bm.allocAnySkipDevices nblocks s.blockSize s.deviceExtents s.fencedDevices

def allocLocked (nblocks : ℕ) : AllocatorInner × Except AllocError (List ℕ) :=
  s.admitThen nblocks (s.searchBlocks nblocks)

def alloc (nblocks : ℕ) : AllocatorInner × Except AllocError (List ℕ) :=
  s.allocLocked nblocks

def allocContiguous (nblocks : ℕ) : AllocatorInner × Except AllocError (List ℕ) :=
  s.admitThen nblocks
    (if s.fencedDevices.isEmpty then s.bitmap.allocContiguous nblocks
      else s.bitmap.allocContiguousSkipDevices nblocks s.blockSize s.deviceExtents s.fencedDevices)

def allocAny (nblocks : ℕ) : AllocatorInner × Except AllocError (List ℕ) :=
  s.admitThen nblocks
    (if s.fencedDevices.isEmpty then s.bitmap.allocAny nblocks
      else s.bitmap.allocAnySkipDevices nblocks s.blockSize s.deviceExtents s.fencedDevices)

/-- `allocate`: contiguous blocks only, and no look at the fences. -/
def allocate (nblocks : ℕ) : AllocatorInner × Except AllocError AllocResult :=
  if nblocks = 0 then (s, .ok (.allocated []))
  else
    match s.admitAllocation nblocks with
    | .error .noSpace => (s, .ok (.noSpace s.bitmap.largestContiguousFree))
    | .error e => (s, .error e)
    | .ok () =>
      let found := FreeBlockBitmap.orElse (s.bitmap.allocContiguous nblocks) fun bm =>
        bm.allocContiguousBestFit nblocks
      match s.settle found with
      | (s', .ok blocks) => (s', .ok (.allocated blocks))
      | (s', .error .noSpace) => (s', .ok (.noSpace s'.bitmap.largestContiguousFree))
      | (s', .error e) => (s', .error e)

/-- The number of blocks `alloc_bytes` and `allocate_aligned` ask for. -/
def blocksForBytes (byteLength : ℕ) : Option (Except AllocError ℕ) :=
  let effMinIo := s.topology.effectiveMinIoSize
  if s.topology.sectorSize < effMinIo ∧ byteLength % effMinIo ≠ 0 then some (.error .alignmentViolation)
  else do
    let alignedLen ← s.topology.roundUpLogical byteLength
    let nblocks ← AllocatorTopology.divCeilChecked alignedLen s.blockSize
    some (.ok (asU32 nblocks))

def allocateAligned (byteLength : ℕ) : Option (AllocatorInner × Except AllocError AllocResult) :=
  if byteLength = 0 then some (s, .ok (.allocated []))
  else
    (s.blocksForBytes byteLength).map fun
      | .error e => (s, .error e)
      | .ok nblocks => if nblocks = 0 then (s, .ok (.allocated [])) else s.allocate nblocks

/-- The physically aligned run `alloc_bytes` tries first: the first run of the
size-class hints, if its start is aligned. -/
def alignedRun (nblocks : ℕ) : Option (Option ℕ) :=
  if s.topology.logicalSectorSize < s.topology.sectorSize ∧ 0 < nblocks then
    match s.spacemap.findFreeRun nblocks with
    | some run =>
      (AllocatorTopology.modChecked run.start (s.topology.sectorSize / s.blockSize)).map fun rem =>
        if rem = 0 then some run.start else none
    | none => some none
  else some none

/-- The attempt at an aligned run: no admission, and no look at the fences. -/
def allocAligned (start nblocks : ℕ) : AllocatorInner × Except AllocError (List ℕ) :=
  match s.bitmap.allocContiguousAt start nblocks with
  | (bm, .ok blocks) => ({ s with bitmap := bm }.removeFromSpacemap blocks, .ok blocks)
  | (bm, .error e) => ({ s with bitmap := bm }, .error e)

def allocBytes (byteLength : ℕ) : Option (AllocatorInner × Except AllocError (List ℕ)) :=
  if byteLength = 0 then some (s, .ok [])
  else
    match s.blocksForBytes byteLength with
    | none => none
    | some (.error e) => some (s, .error e)
    | some (.ok nblocks) =>
      if nblocks = 0 then some (s, .ok [])
      else
        (s.alignedRun nblocks).map fun
          | some start => s.allocAligned start nblocks
          | none => s.admitThen nblocks (s.searchBlocks nblocks)

/-- The checks of `alloc_bytes_at`, up to the number of blocks. -/
def blocksForExtent (offset length : ℕ) : Option (Except AllocError ℕ) :=
  let topology := s.topologyFor offset
  match topology.roundExtentInward offset length with
  | none => none
  | some (alignedStart, alignedLen) =>
    if alignedLen = 0 then some (.error .alignmentImpossible)
    else if slackExceedsMax length alignedLen then some (.error .alignmentImpossible)
    else
      match s.topologyForRange alignedStart alignedLen with
      | .error e => some (.error e)
      | .ok _ =>
        let effMinIo := topology.effectiveMinIoSize
        if topology.sectorSize < effMinIo ∧ (alignedStart % effMinIo ≠ 0 ∨ alignedLen % effMinIo ≠ 0) then
          some (.error .alignmentViolation)
        else (AllocatorTopology.divCeilChecked alignedLen s.blockSize).map fun nblocks => .ok (asU32 nblocks)

def allocBytesAt (offset length : ℕ) : Option (AllocatorInner × Except AllocError (List ℕ)) :=
  if length = 0 then some (s, .ok [])
  else
    (s.blocksForExtent offset length).map fun
      | .error e => (s, .error e)
      | .ok nblocks => if nblocks = 0 then (s, .ok []) else s.alloc nblocks

/-! ### Commit groups -/

variable (fence : CommitGroupEpochFence)

def reserveAllocation (nblocks : ℕ) : AllocatorInner × Except AllocError Reservation :=
  if !fence.isValid then (s, .error .commitGroupConflict)
  else
    match s.allocLocked nblocks with
    | (s', .error e) => (s', .error e)
    | (s', .ok blocks) =>
      ({ s' with
          pendingAllocations := enroll fence blocks s'.pendingAllocations
          pendingAllocationBlocks := own fence s'.pendingAllocationBlocks blocks }, .ok ⟨fence, blocks⟩)

/-- The loop of `release_allocation` over the blocks of the reservation: what is
left of the epoch's blocks, and those released. -/
def releaseLoop : List ℕ → OrdSet ℕ → OrdSet ℕ × List ℕ
  | [], pending => (pending, [])
  | b :: blocks, pending =>
    if b ∈ pending then
      let r := releaseLoop blocks (pending.erase b)
      (r.1, b :: r.2)
    else releaseLoop blocks pending

/-- The loop of `release_allocation` over the released blocks: the pending frees
of the same epoch are cancelled. -/
def cancelLoop (fence : CommitGroupEpochFence) : List ℕ → Owners → Owners × List ℕ
  | [], owners => (owners, [])
  | b :: blocks, owners =>
    if owners.get? b = some fence then
      let r := cancelLoop fence blocks (owners.erase b)
      (r.1, b :: r.2)
    else cancelLoop fence blocks owners

/-- The blocks of a reservation its epoch still holds. -/
def releasedBy (reservation : Reservation) : List ℕ :=
  (releaseLoop reservation.blocks (membersOf s.pendingAllocations reservation.epochFence)).2

def releaseAllocation (reservation : Reservation) : AllocatorInner × Except AllocError CommitGroupBlockDelta :=
  let fence := reservation.epochFence
  if !fence.isValid then (s, .error .commitGroupConflict)
  else
    let released := s.releasedBy reservation
    let cancelled := (cancelLoop fence released s.pendingFreeBlocks).2
    let s' := { s with
      pendingAllocations :=
        updateGroup fence (fun pending => (releaseLoop reservation.blocks pending).1) s.pendingAllocations
      pendingAllocationBlocks := disown fence s.pendingAllocationBlocks released
      pendingFrees :=
        if cancelled.isEmpty then s.pendingFrees
        else updateGroup fence (fun pending => pending.eraseAll cancelled) s.pendingFrees
      pendingFreeBlocks := (cancelLoop fence released s.pendingFreeBlocks).1 }
    (s'.markBlocksFreeLocked released, .ok ⟨released.length, cancelled.length⟩)

/-- The loop of `free_on_commit`: the used blocks no other epoch holds, and that
are not scheduled already. -/
def scheduleLoop : List ℕ → OrdSet ℕ → Except AllocError (OrdSet ℕ)
  | [], scheduled => .ok scheduled
  | b :: blocks, scheduled =>
    if s.bitmap.blockCount ≤ b ∨ s.bitmap.isFree b = true then scheduleLoop blocks scheduled
    else if (s.pendingAllocationBlocks.get? b).any (· ≠ fence) then .error .commitGroupConflict
    else
      match s.pendingFreeBlocks.get? b with
      | some owner =>
        if owner ≠ fence then .error .commitGroupConflict else scheduleLoop blocks scheduled
      | none => scheduleLoop blocks (scheduled.insert b)

def freeOnCommit (blocks : List ℕ) : AllocatorInner × Except AllocError Reservation :=
  if !fence.isValid then (s, .error .commitGroupConflict)
  else
    match s.scheduleLoop fence blocks OrdSet.empty with
    | .error e => (s, .error e)
    | .ok scheduled =>
      if scheduled.isEmpty then (s, .ok ⟨fence, []⟩)
      else
        ({ s with
            pendingFreeBlocks := own fence s.pendingFreeBlocks scheduled.toList
            pendingFrees := enroll fence scheduled.toList s.pendingFrees }, .ok ⟨fence, scheduled.toList⟩)

/-- Both kinds of pending blocks of an epoch leave the four maps. -/
def retire : AllocatorInner :=
  { s with
    pendingAllocations := s.pendingAllocations.erase fence
    pendingAllocationBlocks := disown fence s.pendingAllocationBlocks (membersOf s.pendingAllocations fence).toList
    pendingFrees := s.pendingFrees.erase fence
    pendingFreeBlocks := disown fence s.pendingFreeBlocks (membersOf s.pendingFrees fence).toList }

def abortCommitGroup : AllocatorInner × Except AllocError CommitGroupBlockDelta :=
  if !fence.isValid then (s, .error .commitGroupConflict)
  else
    let released := (membersOf s.pendingAllocations fence).toList
    let frees := membersOf s.pendingFrees fence
    ((s.retire fence).markBlocksFreeLocked released, .ok ⟨released.length, frees.toList.length⟩)

/-! ### Discarding freed ranges -/

/-- The merge loop of `coalesce_trim_requests`, with the request under way. -/
def mergeRequests (gapThreshold : ℕ) (current : TrimRequest) : List TrimRequest → List TrimRequest
  | [] => [current]
  | next :: rest =>
    let currentEnd := satAdd current.offset current.length
    if next.offset ≤ satAdd currentEnd gapThreshold then
      let newEnd := max currentEnd (satAdd next.offset next.length)
      mergeRequests gapThreshold ⟨current.offset, newEnd - current.offset⟩ rest
    else current :: mergeRequests gapThreshold next rest

/-- The sort is by offset and stable. -/
def coalesceTrimRequests (requests : List TrimRequest) (gapThreshold : ℕ) : List TrimRequest :=
  match requests.insertionSort (fun a b => a.offset ≤ b.offset) with
  | [] => []
  | first :: rest => mergeRequests gapThreshold first rest

def recordTrim (sink : TrimSink) (stats : TrimStats) (req : TrimRequest) : TrimStats :=
  if sink.trimRange req then ⟨wrap64 (stats.trimOps + 1), wrap64 (stats.trimBytes + req.length)⟩ else stats

/-- `maybe_discard_freed`, with the requests it passes to the sink. -/
def maybeDiscardFreed (blocks : List ℕ) : AllocatorInner × List TrimRequest :=
  match s.trimSink with
  | none => (s, [])
  | some sink =>
    let minBytes := s.minDiscardBytes
    if minBytes = u64Max ∨ blocks = [] then (s, [])
    else
      let raw := blocks.map fun id => ⟨wrap64 (id * s.blockSize), s.blockSize⟩
      let requests := (coalesceTrimRequests raw minBytes).filter fun req => minBytes ≤ req.length
      ({ s with trimStats := requests.foldl (recordTrim sink) s.trimStats }, requests)

/-- The blocks `free` frees at once: those no epoch holds. -/
def immediate (blocks : List ℕ) : List ℕ :=
  blocks.filter fun b => !s.pendingAllocationBlocks.contains b && !s.pendingFreeBlocks.contains b

def free (blocks : List ℕ) : AllocatorInner × List TrimRequest :=
  (s.markBlocksFreeLocked (s.immediate blocks)).maybeDiscardFreed (s.immediate blocks)

def markCommitGroupDurable : (AllocatorInner × List TrimRequest) × Except AllocError CommitGroupBlockDelta :=
  if !fence.isValid then ((s, []), .error .commitGroupConflict)
  else
    let allocations := membersOf s.pendingAllocations fence
    let freed := (membersOf s.pendingFrees fence).toList
    (((s.retire fence).markBlocksFreeLocked freed).maybeDiscardFreed freed,
      .ok ⟨allocations.toList.length, freed.length⟩)

end AllocatorInner

/-! ### Calls -/

/-- The calls of the allocator that change its state. -/
inductive Call where
  | alloc (nblocks : ℕ)
  | allocAny (nblocks : ℕ)
  | allocContiguous (nblocks : ℕ)
  | allocate (nblocks : ℕ)
  | allocateAligned (byteLength : ℕ)
  | allocBytes (byteLength : ℕ)
  | allocBytesAt (offset length : ℕ)
  | reserveAllocation (fence : CommitGroupEpochFence) (nblocks : ℕ)
  | releaseAllocation (reservation : Reservation)
  | freeOnCommit (fence : CommitGroupEpochFence) (blocks : List ℕ)
  | markCommitGroupDurable (fence : CommitGroupEpochFence)
  | abortCommitGroup (fence : CommitGroupEpochFence)
  | free (blocks : List ℕ)
  | registerDevice (id : DeviceId) (topology : DeviceTopology) (startOffset length : ℕ)
  | fenceDevice (id : DeviceId)
  | unfenceDevice (id : DeviceId)
  | setMinDiscardBytes (threshold : ℕ)
  | setTrimSink (sink : Option TrimSink)
  | markClean

/-- The public entry points of allocation. -/
def Call.allocates : Call → Bool
  | .alloc _ | .allocAny _ | .allocContiguous _ | .allocate _ | .allocateAligned _ | .allocBytes _ | .allocBytesAt _ _
  | .reserveAllocation _ _ => true
  | _ => false

/-- What a call returns. -/
inductive Outcome where
  | blocks (r : Except AllocError (List ℕ))
  | result (r : Except AllocError AllocResult)
  | reservation (r : Except AllocError Reservation)
  | scheduled (r : Except AllocError Reservation)
  | delta (r : Except AllocError CommitGroupBlockDelta)
  | unit (r : Except AllocError Unit)

namespace Outcome

/-- The blocks a call hands out. -/
def handedOut : Outcome → List ℕ
  | .blocks (.ok ids) => ids
  | .result (.ok (.allocated ids)) => ids
  | .reservation (.ok r) => r.blocks
  | _ => []

def isErr : Outcome → Bool
  | .blocks (.error _) | .result (.error _) | .reservation (.error _) | .scheduled (.error _)
  | .delta (.error _) | .unit (.error _) => true
  | _ => false

/-- A call that allocates and succeeds, with or without blocks. -/
def granted : Outcome → Bool
  | .blocks (.ok _) | .result (.ok (.allocated _)) | .reservation (.ok _) => true
  | _ => false

end Outcome

/-- One call: the state after it, what it returns, and the ranges it passes to
the trim sink. -/
def step (s : AllocatorInner) : Call → Option (AllocatorInner × Outcome × List TrimRequest)
  | .alloc n => some ((s.alloc n).1, .blocks (s.alloc n).2, [])
  | .allocAny n => some ((s.allocAny n).1, .blocks (s.allocAny n).2, [])
  | .allocContiguous n => some ((s.allocContiguous n).1, .blocks (s.allocContiguous n).2, [])
  | .allocate n => some ((s.allocate n).1, .result (s.allocate n).2, [])
  | .allocateAligned len => (s.allocateAligned len).map fun r => (r.1, .result r.2, [])
  | .allocBytes len => (s.allocBytes len).map fun r => (r.1, .blocks r.2, [])
  | .allocBytesAt offset len => (s.allocBytesAt offset len).map fun r => (r.1, .blocks r.2, [])
  | .reserveAllocation fence n =>
    some ((s.reserveAllocation fence n).1, .reservation (s.reserveAllocation fence n).2, [])
  | .releaseAllocation r => some ((s.releaseAllocation r).1, .delta (s.releaseAllocation r).2, [])
  | .freeOnCommit fence blocks => some ((s.freeOnCommit fence blocks).1, .scheduled (s.freeOnCommit fence blocks).2, [])
  | .markCommitGroupDurable fence =>
    some ((s.markCommitGroupDurable fence).1.1, .delta (s.markCommitGroupDurable fence).2,
      (s.markCommitGroupDurable fence).1.2)
  | .abortCommitGroup fence => some ((s.abortCommitGroup fence).1, .delta (s.abortCommitGroup fence).2, [])
  | .free blocks => some ((s.free blocks).1, .unit (.ok ()), (s.free blocks).2)
  | .registerDevice id topology start len =>
    some ((s.registerDevice id topology start len).1, .unit (s.registerDevice id topology start len).2, [])
  | .fenceDevice id => some (s.fenceDevice id, .unit (.ok ()), [])
  | .unfenceDevice id => some (s.unfenceDevice id, .unit (.ok ()), [])
  | .setMinDiscardBytes threshold => some ({ s with minDiscardBytes := threshold }, .unit (.ok ()), [])
  | .setTrimSink sink => some ({ s with trimSink := sink }, .unit (.ok ()), [])
  | .markClean => some ({ s with bitmap := s.bitmap.markClean }, .unit (.ok ()), [])

end Tidefs.Allocator
