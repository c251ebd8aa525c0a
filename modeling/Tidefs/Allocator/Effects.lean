/-
# What a call does to the blocks

The bitmap and the free-space map are each well formed in every reachable
state (`Base`). A call that allocates takes the blocks it returns from both
(`Takes`), or leaves the state as it was, or, if the blocks outside the fenced
devices are some but too few, loses those from the bitmap alone (`Loses`); a
call that frees puts the blocks into both (`Frees`). Which of these happens is
said once for each call here, and the theorems about runs build on it.
-/
import Tidefs.Allocator.BitmapSound
import Tidefs.Allocator.State
import Tidefs.SpaceMap.Sound

namespace Tidefs.Allocator

open Ordered Word SpaceMap List Option FreeBlockBitmap SegmentFreeMap

namespace AllocatorInner

/-- The two records of free space are each well formed, over the same blocks. -/
structure Base (s : AllocatorInner) : Prop where
  bitmap : s.bitmap.Inv
  spacemap : s.spacemap.Inv
  blockCount : s.spacemap.segmentCount = s.bitmap.blockCount

/-- The blocks `ids` were free and have left both records. -/
structure Takes (s s' : AllocatorInner) (ids : List ℕ) : Prop where
  base : Base s'
  nodup : ids.Nodup
  free : ∀ b ∈ ids, b ∈ s.bitmap.freeSet
  blockCount : s'.bitmap.blockCount = s.bitmap.blockCount
  bitmap : s'.bitmap.freeSet = s.bitmap.freeSet \ ids.toFinset
  spacemap : s'.spacemap.freeSet = s.spacemap.freeSet \ {b | b ∈ ids}

/-- The usable blocks have left the bitmap, and there were some. -/
structure Loses (s s' : AllocatorInner) : Prop where
  base : Base s'
  blockCount : s'.bitmap.blockCount = s.bitmap.blockCount
  bitmap : s'.bitmap.freeSet = s.bitmap.freeSet \ FreeBlockBitmap.usableSet s.fenced s.bitmap
  some : (FreeBlockBitmap.usableSet s.fenced s.bitmap).Nonempty
  spacemap : s'.spacemap = s.spacemap

/-- The blocks of `ids` that exist are free in both records. -/
structure Frees (s s' : AllocatorInner) (ids : List ℕ) : Prop where
  base : Base s'
  blockCount : s'.bitmap.blockCount = s.bitmap.blockCount
  bitmap : ∀ b, b ∈ s'.bitmap.freeSet ↔ b ∈ s.bitmap.freeSet ∨ b ∈ ids ∧ b < s.bitmap.blockCount
  spacemap : ∀ b, b ∈ s'.spacemap.freeSet ↔ b ∈ s.spacemap.freeSet ∨ b ∈ ids ∧ b < s.bitmap.blockCount

/-! ### The free-space map -/

theorem foldl_removeFree_spec : ∀ (ids : List ℕ) {fm : SegmentFreeMap}, fm.Inv →
    (ids.foldl (fun fm blk => (fm.removeFree blk).1) fm).Inv ∧
    (ids.foldl (fun fm blk => (fm.removeFree blk).1) fm).segmentCount = fm.segmentCount ∧
    (ids.foldl (fun fm blk => (fm.removeFree blk).1) fm).freeSet = fm.freeSet \ {b | b ∈ ids}
  | [], _, h => ⟨h, rfl, by simp⟩
  | b :: ids, fm, h => by
    obtain ⟨h1, h2, h3, -⟩ := removeFree_spec h b
    obtain ⟨h4, h5, h6⟩ := foldl_removeFree_spec ids h1
    refine ⟨h4, h5.trans h2, ?_⟩
    rw [foldl_cons, h6, h3]
    ext x
    simp only [Set.mem_sdiff, Set.mem_ofPred_eq, Set.mem_singleton_iff, mem_cons]
    tauto

theorem foldl_addFree_spec : ∀ (ids : List ℕ) {fm : SegmentFreeMap}, fm.Inv →
    (ids.foldl (fun fm blk => (fm.addFree blk).1) fm).Inv ∧
    (ids.foldl (fun fm blk => (fm.addFree blk).1) fm).segmentCount = fm.segmentCount ∧
    ∀ b, b ∈ (ids.foldl (fun fm blk => (fm.addFree blk).1) fm).freeSet ↔ b ∈ fm.freeSet ∨ b ∈ ids ∧ b < fm.segmentCount
  | [], _, h => ⟨h, rfl, fun b => by simp⟩
  | x :: ids, fm, h => by
    obtain ⟨h1, h2, h3, -⟩ := addFree_spec h x
    obtain ⟨h4, h5, h6⟩ := foldl_addFree_spec ids h1
    refine ⟨h4, h5.trans h2, fun b => ?_⟩
    rw [foldl_cons, h6, h3, h2]
    refine mem_freed ?_
    split_ifs with hx
    · simp [hx, or_comm]
    · simp [hx]

/-! ### Taking, losing and freeing -/

variable {s s' : AllocatorInner} {bm : FreeBlockBitmap} {n : ℕ} {ids : List ℕ}
  {r : AllocatorInner × Except AllocError (List ℕ)} {call : Call}

/-- A granted search, and the blocks taken out of the free-space map, with or
without new hints. -/
theorem takes_of_granted (h : Base s) {skip : ℕ → Bool} (hg : FreeBlockBitmap.Granted skip s.bitmap bm n ids) :
    Takes s ({ s with bitmap := bm }.removeFromSpacemap ids) ids ∧
    Takes s ({ s with bitmap := bm }.markBlocksUsedInSpacemap ids) ids := by
  obtain ⟨h1, h2, h3⟩ := foldl_removeFree_spec ids h.spacemap
  have hcount := h2.trans (h.blockCount.trans hg.blockCount.symm)
  exact ⟨⟨⟨hg.inv, h1, hcount⟩, hg.nodup, hg.free, hg.blockCount, hg.freeSet, h3⟩,
    ⟨⟨hg.inv, h1.rebuildHints, hcount⟩, hg.nodup, hg.free, hg.blockCount, hg.freeSet, h3⟩⟩

/-- `mark_blocks_free_locked` frees the blocks in both records, whatever else
was changed before. -/
theorem frees_markBlocksFreeLocked {t : AllocatorInner} (h : Base s) (hb : t.bitmap = s.bitmap)
    (hm : t.spacemap = s.spacemap) (ids : List ℕ) : Frees s (t.markBlocksFreeLocked ids) ids := by
  obtain ⟨h1, h2, h3⟩ := freeBlocks_spec ids h.bitmap
  obtain ⟨h4, h5, h6⟩ := foldl_addFree_spec ids h.spacemap
  have hbm : (t.markBlocksFreeLocked ids).bitmap = s.bitmap.freeBlocks ids := by rw [← hb]; rfl
  have hsm : (t.markBlocksFreeLocked ids).spacemap =
      (ids.foldl (fun fm blk => (fm.addFree blk).1) s.spacemap).rebuildHints := by rw [← hm]; rfl
  refine ⟨⟨?_, ?_, ?_⟩, ?_, ?_, ?_⟩
  · rw [hbm]; exact h1
  · rw [hsm]; exact h4.rebuildHints
  · rw [hbm, hsm, h2]; exact h5.trans h.blockCount
  · rw [hbm]; exact h2
  · rw [hbm]; exact h3
  · intro b
    rw [hsm, ← h.blockCount]
    exact h6 b

theorem fenced_of_isEmpty (h : s.fencedDevices.isEmpty = true) : s.fenced = fun _ => false := by
  funext b
  have hnone : ∀ id, id ∉ s.fencedDevices := fun id => by
    rw [OrdSet.isEmpty_iff] at h
    exact h id
  unfold fenced isBlockFencedInner
  dsimp only
  split
  · simp [hnone]
  · rfl

/-! ### Allocation -/

/-- The request passes admission, and then the search loses blocks. -/
def LeakyRequest (s : AllocatorInner) (n : ℕ) : Prop :=
  n ≤ s.bitmap.freeCount - s.rootReserve ∧ FreeBlockBitmap.Leaky s.fenced s.bitmap n

/-- The calls that lose blocks when they fail. The condition is on the request
and the state before the call: enough blocks are free, but of those outside the
fenced devices there are some and too few. -/
def Leaks (s : AllocatorInner) : Call → Prop
  | .alloc n => s.LeakyRequest n
  | .allocAny n => s.LeakyRequest n
  | .reserveAllocation fence n => fence.isValid = true ∧ s.LeakyRequest n
  | .allocBytes len => len ≠ 0 ∧ ∃ n, s.blocksForBytes len = some (.ok n) ∧ s.alignedRun n = some none ∧ s.LeakyRequest n
  | .allocBytesAt offset len => len ≠ 0 ∧ ∃ n, s.blocksForExtent offset len = some (.ok n) ∧ s.LeakyRequest n
  | _ => False

/-- As many blocks as asked for were taken around the fenced devices, and the
reserve is left. -/
def Aware (s : AllocatorInner) (n : ℕ) (s' : AllocatorInner) (ids : List ℕ) : Prop :=
  ids.length = n ∧ (∀ b ∈ ids, s.fenced b = false) ∧ s.rootReserve ≤ s'.bitmap.freeCount

/-- What an allocation can do: the state after it, and what it returns. On
success it took the blocks, and they are as `good` says. -/
inductive AllocCase (s : AllocatorInner) (leak : Prop) (good : AllocatorInner → List ℕ → Prop) :
    AllocatorInner × Except AllocError (List ℕ) → Prop
  | takes {s' : AllocatorInner} {ids : List ℕ} : ¬ leak → Takes s s' ids → good s' ids →
    AllocCase s leak good (s', .ok ids)
  | refuses {e : AllocError} : ¬ leak → AllocCase s leak good (s, .error e)
  | loses {s' : AllocatorInner} : leak → Loses s s' → AllocCase s leak good (s', .error .noSpace)

variable (h : Base s)
include h

/-- An admitted request leaves the reserve. -/
theorem reserve_le {skip : ℕ → Bool}
    (hg : FreeBlockBitmap.Granted skip s.bitmap bm n ids) (hadm : n ≤ s.bitmap.freeCount - s.rootReserve) (hn : 0 < n) :
    s.rootReserve ≤ bm.freeCount := by
  have := hg.freeCount h.bitmap
  omega

/-- Admission, and a chain of searches around the fenced devices. -/
theorem admitThen_case {found : FreeBlockBitmap × Except AllocError (List ℕ)}
    (hf : FreeBlockBitmap.ChainResult s.fenced s.bitmap n found) :
    AllocCase s (s.LeakyRequest n) (Aware s n) (s.admitThen n found) := by
  unfold admitThen admitAllocation
  split_ifs with h0 h1
  · -- an empty request is admitted, and no search grants it
    subst h0
    cases hf with
    | granted hn _ => omega
    | refused hl => exact .refuses fun hr => hl hr.2
    | leaked hl _ => exact absurd hl.1 (by omega)
  · exact .refuses fun hr => by have := hr.1; omega
  · cases hf with
    | granted hn hg =>
      refine .takes (fun hr => ?_) (takes_of_granted h hg).2 ⟨hg.length, hg.kept, reserve_le h hg (by omega) hn⟩
      have := hg.le_usable
      have := hr.2.2.2.2
      omega
    | refused hl => exact .refuses fun hr => hl hr.2
    | @leaked ids hl hids =>
      obtain ⟨e1, e2, e3, -⟩ := foldl_markUsed_spec ids h.bitmap
      rw [hids] at e2
      exact .loses ⟨by omega, hl⟩ ⟨⟨e1, h.spacemap, h.blockCount.trans e3.symm⟩, e3, e2, hl.2.2.1, rfl⟩

theorem searchBlocks_result (n : ℕ) : FreeBlockBitmap.ChainResult s.fenced s.bitmap n (s.searchBlocks n) := by
  unfold searchBlocks
  split_ifs with he
  · rw [fenced_of_isEmpty he]
    exact alloc_result h.bitmap n
  · exact FreeBlockBitmap.ChainResult.orElse h.bitmap
      (allocAnySkipDevices_result h.bitmap n _ _ _)

theorem allocLocked_case (n : ℕ) :
    AllocCase s (s.LeakyRequest n) (Aware s n) (s.allocLocked n) := admitThen_case h (searchBlocks_result h n)

theorem allocAny_case (n : ℕ) : AllocCase s (s.LeakyRequest n) (Aware s n) (s.allocAny n) := by
  refine admitThen_case h ?_
  split_ifs with he
  · rw [fenced_of_isEmpty he]
    exact allocAny_result h.bitmap n
  · exact allocAnySkipDevices_result h.bitmap n _ _ _

theorem allocContiguous_case (n : ℕ) : AllocCase s False (Aware s n) (s.allocContiguous n) := by
  have hskip : (if s.fencedDevices.isEmpty then s.bitmap.allocContiguous n
      else s.bitmap.allocContiguousSkipDevices n s.blockSize s.deviceExtents s.fencedDevices) =
      allocContiguousWhere s.fenced s.bitmap n := by
    split_ifs with he
    · rw [fenced_of_isEmpty he]; rfl
    · rfl
  unfold allocContiguous admitThen admitAllocation
  rw [hskip]
  have hfound := allocContiguousWhere_spec s.fenced h.bitmap n
  split_ifs with h0 h1
  · rcases hfound with ⟨bm', first, e, hn, -⟩ | e
    · omega
    · rw [e]; exact .refuses not_false
  · exact .refuses not_false
  · rcases hfound with ⟨bm', first, e, hn, hg⟩ | e
    · rw [e]
      exact .takes not_false (takes_of_granted h hg).2 ⟨hg.length, hg.kept, reserve_le h hg (by omega) hn⟩
    · rw [e]; exact .refuses not_false

/-- `allocate` takes a cyclic run of free blocks, on fenced devices or not. -/
theorem allocate_case (n : ℕ) : (n = 0 ∧ s.allocate n = (s, .ok (.allocated []))) ∨
    (∃ s' first, 0 < n ∧ s.allocate n = (s', .ok (.allocated (cyclic s.bitmap.blockCount first n))) ∧
      Takes s s' (cyclic s.bitmap.blockCount first n) ∧ s.rootReserve ≤ s'.bitmap.freeCount) ∨
    ∃ largest, s.allocate n = (s, .ok (.noSpace largest)) := by
  unfold allocate
  split_ifs with h0
  · exact Or.inl ⟨h0, rfl⟩
  right
  unfold admitAllocation
  rw [if_neg h0]
  split_ifs with h1
  · exact Or.inr ⟨_, rfl⟩
  · rcases allocContiguousWhere_spec (fun _ => false) h.bitmap n with ⟨bm', first, e, hn, hg⟩ | e
    · left
      rw [FreeBlockBitmap.allocContiguous, e]
      exact ⟨_, first, hn, rfl, (takes_of_granted h hg).2, reserve_le h hg (by omega) hn⟩
    · rw [FreeBlockBitmap.allocContiguous, e]
      rcases allocContiguousBestFit_spec h.bitmap n with ⟨bm', first, e', hn, hg⟩ | e'
      · left
        simp only [FreeBlockBitmap.orElse, e']
        exact ⟨_, first, hn, rfl, (takes_of_granted h hg).2, reserve_le h hg (by omega) hn⟩
      · right
        simp only [orElse, e']
        exact ⟨_, rfl⟩

/-- The attempt at an aligned run takes the run from its start, or nothing. -/
theorem allocAligned_case (start n : ℕ) :
    AllocCase s False (fun s' ids => ids = range' start n ∧ s'.bitmap.freeCount + n = s.bitmap.freeCount)
      (s.allocAligned start n) := by
  unfold allocAligned
  rcases allocContiguousAt_spec h.bitmap start n with ⟨bm', e, hn, hg⟩ | e
  · rw [e]
    exact .takes not_false (takes_of_granted h hg).1 ⟨rfl, hg.freeCount h.bitmap⟩
  · rw [e]
    exact .refuses not_false

omit h

/-! ### Every call -/

/-- The blocks a call puts back. -/
def freedBy (s : AllocatorInner) : Call → List ℕ
  | .releaseAllocation r => if r.epochFence.isValid then s.releasedBy r else []
  | .markCommitGroupDurable fence => if fence.isValid then (membersOf s.pendingFrees fence).toList else []
  | .abortCommitGroup fence => if fence.isValid then (membersOf s.pendingAllocations fence).toList else []
  | .free blocks => s.immediate blocks
  | _ => []

/-- What a call does to the two records of free space. -/
inductive Effect (s : AllocatorInner) (call : Call) (s' : AllocatorInner) (out : Outcome) : Prop
  | takes : ¬ s.Leaks call → Takes s s' out.handedOut → out.isErr = false → Effect s call s' out
  | keeps : ¬ s.Leaks call → s' = s → out.handedOut = [] → Effect s call s' out
  | loses : s.Leaks call → Loses s s' → out.isErr = true → out.handedOut = [] → Effect s call s' out
  | frees : call.allocates = false → Frees s s' (s.freedBy call) → out.handedOut = [] → Effect s call s' out

theorem AllocCase.effect {leak : Prop} {good : AllocatorInner → List ℕ → Prop} (h : AllocCase s leak good r)
    (hl : s.Leaks call ↔ leak) : Effect s call r.1 (.blocks r.2) := by
  cases h with
  | takes h1 h2 h3 => exact .takes (fun h => h1 (hl.mp h)) h2 rfl
  | refuses h1 => exact .keeps (fun h => h1 (hl.mp h)) rfl rfl
  | loses h1 h2 => exact .loses (hl.mpr h1) h2 rfl rfl

/-- What a request in bytes comes to: nothing to do, a refusal, or a search for the blocks of the plan. -/
inductive ByteRequest {R : Type} (s : AllocatorInner) (len : ℕ) (plan : Option (Except AllocError ℕ)) (nothing : R)
    (search : ℕ → AllocatorInner × Except AllocError R → Prop) : AllocatorInner × Except AllocError R → Prop
  | empty : len = 0 ∨ plan = some (.ok 0) → ByteRequest s len plan nothing search (s, .ok nothing)
  | refused {e : AllocError} : plan = some (.error e) → ByteRequest s len plan nothing search (s, .error e)
  | blocks {n : ℕ} {r : AllocatorInner × Except AllocError R} : len ≠ 0 → plan = some (.ok n) → search n r →
    ByteRequest s len plan nothing search r

theorem planned {plan : Option (Except AllocError ℕ)} {n m : ℕ} (hn : plan = some (.ok n)) (hm : plan = some (.ok m)) :
    n = m := by
  rw [hn] at hm
  cases hm
  rfl

theorem request_of_map {R : Type} {len : ℕ} {plan : Option (Except AllocError ℕ)} {nothing : R}
    {search : ℕ → AllocatorInner × Except AllocError R} {r : AllocatorInner × Except AllocError R}
    (hr : (if len = 0 then some (s, .ok nothing) else plan.map fun
      | .error e => (s, .error e)
      | .ok n => if n = 0 then (s, .ok nothing) else search n) = some r) :
    ByteRequest s len plan nothing (fun n r => r = search n) r := by
  split_ifs at hr with h0
  · cases hr
    exact .empty (.inl h0)
  · obtain ⟨p, hp, rfl⟩ := map_eq_some_iff.mp hr
    cases p with
    | error e => exact .refused hp
    | ok n =>
      dsimp only
      split_ifs with hn
      · exact .empty (.inr (hn ▸ hp))
      · exact .blocks h0 hp rfl

theorem allocBytes_request {len : ℕ} (hr : s.allocBytes len = some r) : ByteRequest s len (s.blocksForBytes len) []
    (fun n r => (∃ start, s.alignedRun n = some (some start) ∧ r = s.allocAligned start n) ∨
      s.alignedRun n = some none ∧ r = s.admitThen n (s.searchBlocks n)) r := by
  unfold allocBytes at hr
  split_ifs at hr with h0
  · cases hr
    exact .empty (.inl h0)
  · split at hr
    · cases hr
    · cases hr
      exact .refused ‹_›
    · split_ifs at hr with hn
      · cases hr
        exact .empty (.inr (hn ▸ ‹_›))
      · obtain ⟨run, hrun, rfl⟩ := map_eq_some_iff.mp hr
        cases run with
        | some start => exact .blocks h0 ‹_› (.inl ⟨start, hrun, rfl⟩)
        | none => exact .blocks h0 ‹_› (.inr ⟨hrun, rfl⟩)

variable (h : Base s)
include h

theorem allocate_effect (n : ℕ) (hl : ¬ s.Leaks call) : Effect s call (s.allocate n).1 (.result (s.allocate n).2) := by
  rcases allocate_case h n with ⟨-, e⟩ | ⟨s', first, -, e, h1, -⟩ | ⟨largest, e⟩
  · rw [e]; exact .keeps hl rfl rfl
  · rw [e]; exact .takes hl h1 rfl
  · rw [e]; exact .keeps hl rfl rfl

theorem allocateAligned_effect (len : ℕ)
    {r : AllocatorInner × Except AllocError AllocResult} (hr : s.allocateAligned len = some r) :
    Effect s (.allocateAligned len) r.1 (.result r.2) := by
  cases request_of_map hr with
  | empty | refused => exact .keeps not_false rfl rfl
  | blocks _ _ hsearch => exact hsearch ▸ allocate_effect h _ not_false

theorem allocBytes_effect (len : ℕ) (hr : s.allocBytes len = some r) :
    Effect s (.allocBytes len) r.1 (.blocks r.2) := by
  cases allocBytes_request hr with
  | empty hnone =>
    refine .keeps ?_ rfl rfl
    rintro ⟨h0, m, hm, -, hl⟩
    obtain rfl := planned (hnone.resolve_left h0) hm
    exact absurd hl.2.1 (lt_irrefl 0)
  | refused hp =>
    refine .keeps ?_ rfl rfl
    rintro ⟨-, n, hn, -⟩
    simp [hp] at hn
  | blocks h0 hp hsearch =>
    -- a leak of this call is a leak of the request for the blocks
    rcases hsearch with ⟨start, hrun, rfl⟩ | ⟨hrun, rfl⟩
    · refine AllocCase.effect (allocAligned_case h start _) (iff_false_intro ?_)
      rintro ⟨-, m, hm, hnone, -⟩
      obtain rfl := planned hp hm
      rw [hrun] at hnone
      simp at hnone
    · refine AllocCase.effect (admitThen_case h (searchBlocks_result h _)) ⟨?_, fun hl => ⟨h0, _, hp, hrun, hl⟩⟩
      rintro ⟨-, m, hm, -, hl⟩
      obtain rfl := planned hp hm
      exact hl

theorem allocBytesAt_effect (offset len : ℕ) (hr : s.allocBytesAt offset len = some r) :
    Effect s (.allocBytesAt offset len) r.1 (.blocks r.2) := by
  cases request_of_map hr with
  | empty hnone =>
    refine .keeps ?_ rfl rfl
    rintro ⟨h0, m, hm, hl⟩
    obtain rfl := planned (hnone.resolve_left h0) hm
    exact absurd hl.2.1 (lt_irrefl 0)
  | refused hp =>
    refine .keeps ?_ rfl rfl
    rintro ⟨-, n, hn, -⟩
    simp [hp] at hn
  | blocks h0 hp hsearch =>
    rw [hsearch]
    refine AllocCase.effect (allocLocked_case h _) ⟨?_, fun hl => ⟨h0, _, hp, hl⟩⟩
    rintro ⟨-, m, hm, hl⟩
    obtain rfl := planned hp hm
    exact hl

theorem reserveAllocation_effect (fence : CommitGroupEpochFence) (n : ℕ) :
    Effect s (.reserveAllocation fence n) (s.reserveAllocation fence n).1
      (.reservation (s.reserveAllocation fence n).2) := by
  unfold reserveAllocation
  cases hv : fence.isValid with
  | false => exact .keeps (fun hl => absurd hl.1 (by simp [hv])) rfl rfl
  | true =>
    have hcase := allocLocked_case h n
    rcases hloc : s.allocLocked n with ⟨t, res⟩
    rw [hloc] at hcase
    cases hcase with
    | takes h1 h2 h3 =>
      -- the pending maps are not part of what `Takes` speaks of
      exact .takes (fun hl => h1 hl.2) ⟨⟨h2.base.bitmap, h2.base.spacemap, h2.base.blockCount⟩, h2.nodup, h2.free,
        h2.blockCount, h2.bitmap, h2.spacemap⟩ rfl
    | refuses h1 => exact .keeps (fun hl => h1 hl.2) rfl rfl
    | loses h1 h2 => exact .loses ⟨hv, h1⟩ h2 rfl rfl

omit h

theorem Frees.congr {t : AllocatorInner} (h : Frees s s' ids) (hb : t.bitmap = s'.bitmap)
    (hm : t.spacemap = s'.spacemap) : Frees s t ids :=
  ⟨⟨hb ▸ h.base.bitmap, hm ▸ h.base.spacemap, by rw [hb, hm]; exact h.base.blockCount⟩, by rw [hb]; exact h.blockCount,
    by rw [hb]; exact h.bitmap, by rw [hm]; exact h.spacemap⟩

theorem frees_nil (h : Base s) : Frees s s [] :=
  ⟨h, rfl, fun b => by simp, fun b => by simp⟩

theorem releaseAllocation_frees (h : Base s) (r : Reservation) :
    Frees s (s.releaseAllocation r).1 (s.freedBy (.releaseAllocation r)) := by
  cases hv : r.epochFence.isValid with
  | false =>
    simp only [releaseAllocation, freedBy, hv, Bool.not_false, Bool.false_eq_true, ↓reduceIte]
    exact frees_nil h
  | true =>
    simp only [releaseAllocation, freedBy, hv, Bool.not_true, Bool.false_eq_true, ↓reduceIte]
    refine frees_markBlocksFreeLocked h ?_ ?_ _ <;> rfl

theorem maybeDiscardFreed_fields (s : AllocatorInner) (blocks : List ℕ) :
    (s.maybeDiscardFreed blocks).1.bitmap = s.bitmap ∧ (s.maybeDiscardFreed blocks).1.spacemap = s.spacemap := by
  unfold maybeDiscardFreed
  split
  · exact ⟨rfl, rfl⟩
  · dsimp only
    split_ifs <;> exact ⟨rfl, rfl⟩

theorem free_frees (h : Base s) (blocks : List ℕ) : Frees s (s.free blocks).1 (s.freedBy (.free blocks)) :=
  (frees_markBlocksFreeLocked h rfl rfl _).congr (maybeDiscardFreed_fields _ _).1 (maybeDiscardFreed_fields _ _).2

theorem markCommitGroupDurable_frees (h : Base s) (fence : CommitGroupEpochFence) :
    Frees s (s.markCommitGroupDurable fence).1.1 (s.freedBy (.markCommitGroupDurable fence)) := by
  cases hv : fence.isValid with
  | false =>
    simp only [markCommitGroupDurable, freedBy, hv, Bool.not_false, Bool.false_eq_true, ↓reduceIte]
    exact frees_nil h
  | true =>
    simp only [markCommitGroupDurable, freedBy, hv, Bool.not_true, Bool.false_eq_true, ↓reduceIte]
    exact Frees.congr (frees_markBlocksFreeLocked (t := s.retire fence) h rfl rfl _) (maybeDiscardFreed_fields _ _).1
      (maybeDiscardFreed_fields _ _).2

theorem abortCommitGroup_frees (h : Base s) (fence : CommitGroupEpochFence) :
    Frees s (s.abortCommitGroup fence).1 (s.freedBy (.abortCommitGroup fence)) := by
  cases hv : fence.isValid with
  | false =>
    simp only [abortCommitGroup, freedBy, hv, Bool.not_false, Bool.false_eq_true, ↓reduceIte]
    exact frees_nil h
  | true =>
    simp only [abortCommitGroup, freedBy, hv, Bool.not_true, Bool.false_eq_true, ↓reduceIte]
    refine frees_markBlocksFreeLocked h ?_ ?_ _ <;> rfl

theorem freeOnCommit_fields (s : AllocatorInner) (fence : CommitGroupEpochFence) (blocks : List ℕ) :
    (s.freeOnCommit fence blocks).1.bitmap = s.bitmap ∧ (s.freeOnCommit fence blocks).1.spacemap = s.spacemap := by
  unfold freeOnCommit
  split_ifs
  · exact ⟨rfl, rfl⟩
  · split
    · exact ⟨rfl, rfl⟩
    · split_ifs <;> exact ⟨rfl, rfl⟩

theorem registerDevice_fields (s : AllocatorInner) (id : DeviceId) (topology : DeviceTopology) (start len : ℕ) :
    (s.registerDevice id topology start len).1.bitmap = s.bitmap ∧
      (s.registerDevice id topology start len).1.spacemap = s.spacemap := by
  unfold registerDevice
  split_ifs <;> exact ⟨rfl, rfl⟩

/-- **What a call can do.** -/
theorem step_effect (h : Base s) {out : Outcome} {trims : List TrimRequest}
    (hs : step s call = some (s', out, trims)) : Effect s call s' out := by
  cases call with
  | alloc n => cases hs; exact AllocCase.effect (allocLocked_case h n) Iff.rfl
  | allocAny n => cases hs; exact AllocCase.effect (allocAny_case h n) Iff.rfl
  | allocContiguous n => cases hs; exact AllocCase.effect (allocContiguous_case h n) Iff.rfl
  | allocate n => cases hs; exact allocate_effect h n not_false
  | allocateAligned len =>
    obtain ⟨r, hr, he⟩ := map_eq_some_iff.mp hs
    cases he
    exact allocateAligned_effect h len hr
  | allocBytes len =>
    obtain ⟨r, hr, he⟩ := map_eq_some_iff.mp hs
    cases he
    exact allocBytes_effect h len hr
  | allocBytesAt offset len =>
    obtain ⟨r, hr, he⟩ := map_eq_some_iff.mp hs
    cases he
    exact allocBytesAt_effect h offset len hr
  | reserveAllocation fence n => cases hs; exact reserveAllocation_effect h fence n
  | releaseAllocation r => cases hs; exact .frees rfl (releaseAllocation_frees h r) rfl
  | freeOnCommit fence blocks =>
    cases hs
    exact .frees rfl
      ((frees_nil h).congr (freeOnCommit_fields s fence blocks).1 (freeOnCommit_fields s fence blocks).2) rfl
  | markCommitGroupDurable fence => cases hs; exact .frees rfl (markCommitGroupDurable_frees h fence) rfl
  | abortCommitGroup fence => cases hs; exact .frees rfl (abortCommitGroup_frees h fence) rfl
  | free blocks => cases hs; exact .frees rfl (free_frees h blocks) rfl
  | registerDevice id topology start len =>
    cases hs
    exact .frees rfl ((frees_nil h).congr (registerDevice_fields s id topology start len).1
      (registerDevice_fields s id topology start len).2) rfl
  | fenceDevice | unfenceDevice | setMinDiscardBytes | setTrimSink =>
    cases hs
    exact .frees rfl ((frees_nil h).congr rfl rfl) rfl
  | markClean =>
    cases hs
    have hb : Base { s with bitmap := s.bitmap.markClean } :=
      ⟨⟨h.bitmap.length, h.bitmap.count, h.bitmap.hint⟩, h.spacemap, h.blockCount⟩
    exact .frees rfl ⟨hb, rfl, fun b => by simp [freedBy]; rfl, fun b => by simp [freedBy]⟩ rfl

theorem not_leaks_of_not_allocates (h : call.allocates = false) : ¬ s.Leaks call := by
  cases call <;> simp [Call.allocates, Leaks] at h ⊢

theorem Effect.base (h : Base s) {out : Outcome} (he : Effect s call s' out) : Base s' := by
  cases he with
  | takes _ h1 _ => exact h1.base
  | keeps _ h1 _ => exact h1 ▸ h
  | loses _ h1 _ _ => exact h1.base
  | frees _ h1 _ => exact h1.base

/-! ### Construction -/

/-- The state with nothing pending, over any two well-formed records. -/
theorem start_base {fm : SegmentFreeMap} (h1 : bm.Inv) (h2 : fm.Inv)
    (h3 : fm.segmentCount = bm.blockCount) (blockSize : ℕ) (region : Region) (topology : AllocatorTopology)
    (rootReserve : ℕ) : Base (start bm blockSize region topology rootReserve fm) := ⟨h1, h2, h3⟩

theorem withTopology_spec {blockCount blockSize : ℕ} (hw : blockCount ≤ u64Max) {region : Region}
    {topology : AllocatorTopology} {rootReserve : ℕ}
    (h : withTopology blockCount blockSize region topology rootReserve = some s) :
    Base s ∧ ∃ fm, s = start (FreeBlockBitmap.new blockCount) blockSize region topology rootReserve fm ∧
      fm.freeSet = {b | b < blockCount} := by
  unfold withTopology at h
  split_ifs at h
  obtain ⟨fm, hfm, rfl⟩ := map_eq_some_iff.mp h
  obtain ⟨h1, h2, -⟩ := new_spec blockCount
  -- a pool without blocks has no valid run, and no allocator
  have hpos : 0 < blockCount := by
    by_contra h0
    obtain rfl : blockCount = 0 := by omega
    simp [SegmentFreeMap.new, SegmentFreeMap.insertRuns, SegmentFreeMap.validateRun, Except.toOption] at hfm
  obtain ⟨fm', e1, e2, e3, e4, -⟩ := new_spec hw [⟨0, blockCount⟩] (by simpa using hpos)
  rw [e1] at hfm
  obtain rfl : fm' = fm := some.inj hfm
  refine ⟨start_base h1 e2 (e3.trans h2.symm) _ _ _ _, fm', rfl, ?_⟩
  rw [e4]
  ext b
  simp [Run.mem_def]

theorem persistedFree_eq (words : List (BitVec 64)) (b : ℕ) :
    persistedFree words b = true ↔ (b / 64 < words.length → Bits.bitAt words b = false) := by
  unfold persistedFree
  by_cases hb : b / 64 < words.length
  · rw [getElem?_eq_getElem hb]
    -- the shifted word shares its lowest bit with one exactly if the block's bit is set
    have hshift : words[b / 64] >>> (b % 64) &&& 1#64 = 0#64 ↔ Bits.bitAt words b = false := by
      have h0 := Bits.and_mask_eq_zero (w := words[b / 64] >>> (b % 64)) (i := 0) (by decide)
      have hone : Bits.mask 64 0 = 1#64 := rfl
      rw [hone, BitVec.getLsbD_ushiftRight, add_zero] at h0
      rw [h0, Bits.bitAt, getD_eq_getElem _ _ hb]
    simp only [beq_iff_eq, hb, true_imp_iff]
    exact hshift
  · rw [getElem?_eq_none (not_lt.mp hb)]
    simp [hb]

theorem fromPersistedWithTopology_spec {blockCount blockSize : ℕ} (hw : blockCount ≤ u64Max) {region : Region}
    {words : List (BitVec 64)} {topology : AllocatorTopology} {rootReserve : ℕ}
    (h : fromPersistedWithTopology blockCount blockSize region words topology rootReserve = some s) :
    Base s ∧ ∃ fm, s = start (fromWords blockCount words) blockSize region topology rootReserve fm ∧
      fm.freeSet = {b | b < blockCount ∧ persistedFree words b = true} := by
  unfold fromPersistedWithTopology at h
  split_ifs at h
  obtain ⟨fm, hfm, rfl⟩ := map_eq_some_iff.mp h
  obtain ⟨h1, h2, -⟩ := fromWords_spec blockCount words
  have hvalid : ∀ r ∈ scan (persistedFree words) 0 blockCount [], r.start < r.stop ∧ r.stop ≤ blockCount := by
    intro r hr
    rcases scan_valid (persistedFree words) (Nat.zero_le _) [] r hr with h3 | h3
    · simp at h3
    · exact h3.2
  obtain ⟨fm', e1, e2, e3, e4, -⟩ := new_spec hw _ hvalid
  rw [e1] at hfm
  obtain rfl : fm' = fm := some.inj hfm
  refine ⟨start_base h1 e2 (e3.trans h2.symm) _ _ _ _, fm', rfl, ?_⟩
  rw [e4]
  ext b
  have := scan_covers (persistedFree words) (Nat.zero_le blockCount) [] b
  simpa [Held] using this

end AllocatorInner

end Tidefs.Allocator
