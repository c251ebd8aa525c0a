/-
# Blocks between two holders

A block that an epoch has allocated or is about to free is in one of two
indexes, each kept in both directions, and is marked used until the epoch is
durable, aborted or gives the block back (`PendingInv`). Every call keeps that
(`pendingInv_step`). A block can be handed out only if it is free, and a block
that was handed out becomes free only by a call that returns it (`Returns`): so
between two times a block is handed out lies such a call
(`allocation_history_sound`).
-/
import Tidefs.Allocator.Leaks

namespace Tidefs.Allocator

open Ordered Word SpaceMap AllocatorInner List Option FreeBlockBitmap

namespace AllocatorInner

/-- The block exists and is marked used. -/
def Used (s : AllocatorInner) (b : ℕ) : Prop := b < s.bitmap.blockCount ∧ b ∉ s.bitmap.freeSet

/-- What every call keeps. -/
structure PendingInv (s : AllocatorInner) : Prop where
  allocations : TwoWay s.pendingAllocations s.pendingAllocationBlocks
  frees : TwoWay s.pendingFrees s.pendingFreeBlocks
  /-- A block in both indexes is in both for the same epoch. -/
  owner : ∀ b f f', s.pendingAllocationBlocks.get? b = some f → s.pendingFreeBlocks.get? b = some f' → f = f'
  allocUsed : ∀ b f, s.pendingAllocationBlocks.get? b = some f → s.Used b
  freeUsed : ∀ b f, s.pendingFreeBlocks.get? b = some f → s.Used b

/-! ### The loops over pending blocks -/

theorem releaseLoop_spec (b : ℕ) : ∀ (blocks : List ℕ) (pending : OrdSet ℕ),
    (b ∈ (releaseLoop blocks pending).1 ↔ b ∈ pending ∧ b ∉ blocks) ∧
      (b ∈ (releaseLoop blocks pending).2 ↔ b ∈ pending ∧ b ∈ blocks)
  | [], pending => by simp [releaseLoop]
  | x :: blocks, pending => by
    rw [releaseLoop]
    split_ifs with hx
    · obtain ⟨h1, h2⟩ := releaseLoop_spec b blocks (pending.erase x)
      simp only [h1, mem_cons, h2, OrdSet.mem_erase]
      by_cases hb : b = x
      · subst hb; simp [hx]
      · simp [hb]
    · obtain ⟨h1, h2⟩ := releaseLoop_spec b blocks pending
      rw [h1, h2, mem_cons]
      by_cases hb : b = x
      · subst hb; simp [hx]
      · simp [hb]

variable {s s' : AllocatorInner} {b len : ℕ} {fence : CommitGroupEpochFence} {call : Call} {out : Outcome}

theorem mem_releasedBy {r : Reservation} :
    b ∈ s.releasedBy r ↔ b ∈ membersOf s.pendingAllocations r.epochFence ∧ b ∈ r.blocks :=
  (releaseLoop_spec b r.blocks _).2

/-- The blocks whose frees are cancelled are the released ones the epoch was to
free, and they lose their owner. -/
theorem cancelLoop_spec (fence : CommitGroupEpochFence) (b : ℕ) : ∀ (blocks : List ℕ) (owners : Owners),
    ((cancelLoop fence blocks owners).1.get? b =
      if b ∈ blocks ∧ owners.get? b = some fence then none else owners.get? b) ∧
    (b ∈ (cancelLoop fence blocks owners).2 ↔ b ∈ blocks ∧ owners.get? b = some fence)
  | [], owners => by simp [cancelLoop]
  | x :: blocks, owners => by
    rw [cancelLoop]
    by_cases hx : owners.get? x = some fence
    · rw [if_pos hx]
      obtain ⟨h1, h2⟩ := cancelLoop_spec fence b blocks (owners.erase x)
      simp only [h1, mem_cons, h2, OrdMap.get?_erase]
      by_cases hb : b = x
      · subst hb; simp [hx]
      · simp [hb]
    · rw [if_neg hx]
      obtain ⟨h1, h2⟩ := cancelLoop_spec fence b blocks owners
      simp only [h1, h2, mem_cons]
      by_cases hb : b = x
      · subst hb; simp [hx]
      · simp [hb]

variable {owners : Owners}

/-- Cancelled frees leave both directions of the index. -/
theorem twoWay_cancel {pending : Pending} (h : TwoWay pending owners)
    (fence : CommitGroupEpochFence) (released : List ℕ) :
    TwoWay (if (cancelLoop fence released owners).2.isEmpty then pending
      else updateGroup fence (fun p => p.eraseAll (cancelLoop fence released owners).2) pending)
      (cancelLoop fence released owners).1 := by
  have hmem := fun b => (cancelLoop_spec fence b released owners).2
  have hget := fun b => (cancelLoop_spec fence b released owners).1
  generalize (cancelLoop fence released owners).2 = cancelled at hmem
  generalize (cancelLoop fence released owners).1 = owners' at hget
  -- the map back is as if the cancelled blocks had been disowned
  have hsame : ∀ b, owners'.get? b = (disown fence owners cancelled).get? b := fun b => by
    rw [hget, get?_disown]
    simp [hmem]
  split_ifs with he
  · intro b k
    have hnil : cancelled = [] := isEmpty_iff.mp he
    rw [hsame, hnil]
    exact h b k
  · intro b k
    rw [hsame]
    have hf : ∀ b, b ∈ (membersOf pending fence).eraseAll cancelled ↔ b ∈ membersOf pending fence ∧ b ∉ cancelled :=
      fun b => by simp
    exact h.remove hf b k

/-- What `free_on_commit` schedules: used blocks, pending with no other epoch and
not scheduled before. -/
theorem scheduleLoop_spec : ∀ (blocks : List ℕ)
    {scheduled result : OrdSet ℕ}, s.scheduleLoop fence blocks scheduled = .ok result → ∀ b ∈ result, b ∈ scheduled ∨
      s.Used b ∧ (∀ f, s.pendingAllocationBlocks.get? b = some f → f = fence) ∧ s.pendingFreeBlocks.get? b = none
  | [], scheduled, result, h, b, hb => by
    obtain rfl : scheduled = result := Except.ok.inj h
    exact .inl hb
  | x :: blocks, scheduled, result, h, b, hb => by
    rw [scheduleLoop] at h
    split_ifs at h with h1 h2
    · exact scheduleLoop_spec blocks h b hb
    · push Not at h1
      have hused : s.Used x := ⟨h1.1, fun hc => h1.2 (mem_freeSet.mp hc)⟩
      have howner : ∀ f, s.pendingAllocationBlocks.get? x = some f → f = fence := fun f hf => by
        by_contra hne
        exact h2 (by simp [hf, hne])
      cases hfree : s.pendingFreeBlocks.get? x with
      | some owner =>
        rw [hfree] at h
        dsimp only at h
        split_ifs at h
        exact scheduleLoop_spec blocks h b hb
      | none =>
        rw [hfree] at h
        rcases scheduleLoop_spec blocks h b hb with h3 | h3
        · rcases OrdSet.mem_insert.mp h3 with rfl | h3
          · exact .inr ⟨hused, howner, hfree⟩
          · exact .inl h3
        · exact .inr h3

/-! ### Calls that leave the indexes alone -/

/-- The four pending maps are the same. -/
structure SamePending (s s' : AllocatorInner) : Prop where
  allocations : s'.pendingAllocations = s.pendingAllocations
  allocationBlocks : s'.pendingAllocationBlocks = s.pendingAllocationBlocks
  frees : s'.pendingFrees = s.pendingFrees
  freeBlocks : s'.pendingFreeBlocks = s.pendingFreeBlocks

theorem SamePending.refl (s : AllocatorInner) : SamePending s s := ⟨rfl, rfl, rfl, rfl⟩

theorem samePending_settle (s : AllocatorInner) (found : FreeBlockBitmap × Except AllocError (List ℕ)) :
    SamePending s (s.settle found).1 := by
  obtain ⟨bm, res⟩ := found
  cases res <;> exact ⟨rfl, rfl, rfl, rfl⟩

theorem samePending_admitThen (s : AllocatorInner) (n : ℕ) (found : FreeBlockBitmap × Except AllocError (List ℕ)) :
    SamePending s (s.admitThen n found).1 := by
  unfold admitThen
  split
  · exact .refl s
  · exact samePending_settle s found

theorem samePending_allocate (s : AllocatorInner) (n : ℕ) : SamePending s (s.allocate n).1 := by
  unfold allocate
  split_ifs
  · exact .refl s
  · split
    · exact .refl s
    · exact .refl s
    · have h := samePending_settle s
        (orElse (s.bitmap.allocContiguous n) fun bm => bm.allocContiguousBestFit n)
      dsimp only
      split <;> simp_all

theorem samePending_allocAligned (s : AllocatorInner) (start n : ℕ) : SamePending s (s.allocAligned start n).1 := by
  unfold allocAligned
  split <;> exact ⟨rfl, rfl, rfl, rfl⟩

variable {r : AllocatorInner × Except AllocError (List ℕ)}

theorem samePending_allocBytes (h : s.allocBytes len = some r) : SamePending s r.1 := by
  cases allocBytes_request h with
  | empty | refused => exact .refl s
  | blocks _ _ hsearch =>
    rcases hsearch with ⟨start, -, rfl⟩ | ⟨-, rfl⟩
    · exact samePending_allocAligned s start _
    · exact samePending_admitThen s _ _

theorem samePending_allocBytesAt {offset : ℕ} (h : s.allocBytesAt offset len = some r) : SamePending s r.1 := by
  cases request_of_map h with
  | empty | refused => exact .refl s
  | blocks _ _ hsearch => exact hsearch ▸ samePending_admitThen s _ _

theorem samePending_allocateAligned
    {r : AllocatorInner × Except AllocError AllocResult} (h : s.allocateAligned len = some r) : SamePending s r.1 := by
  cases request_of_map h with
  | empty | refused => exact .refl s
  | blocks _ _ hsearch => exact hsearch ▸ samePending_allocate s _

theorem samePending_discard (s : AllocatorInner) (blocks : List ℕ) :
    SamePending s ((s.markBlocksFreeLocked blocks).maybeDiscardFreed blocks).1 := by
  unfold maybeDiscardFreed
  split
  · exact ⟨rfl, rfl, rfl, rfl⟩
  · dsimp only
    split_ifs <;> exact ⟨rfl, rfl, rfl, rfl⟩

theorem samePending_registerDevice (s : AllocatorInner) (id : DeviceId) (topology : DeviceTopology) (start len : ℕ) :
    SamePending s (s.registerDevice id topology start len).1 := by
  unfold registerDevice
  split_ifs <;> exact ⟨rfl, rfl, rfl, rfl⟩

/-! ### One call -/

/-- Some epoch holds the block, to keep it or to free it. -/
def Held (s : AllocatorInner) (b : ℕ) : Prop :=
  (∃ f, s.pendingAllocationBlocks.get? b = some f) ∨ ∃ f, s.pendingFreeBlocks.get? b = some f

theorem PendingInv.used (h : PendingInv s) (hb : s.Held b) : s.Used b := by
  rcases hb with ⟨f, hf⟩ | ⟨f, hf⟩
  · exact h.allocUsed b f hf
  · exact h.freeUsed b f hf

theorem PendingInv.mono (h : PendingInv s) (hp : SamePending s s')
    (hu : ∀ b, s.Used b → s.Held b → s'.Used b) : PendingInv s' := by
  refine ⟨?_, ?_, ?_, ?_, ?_⟩
  · rw [hp.allocations, hp.allocationBlocks]; exact h.allocations
  · rw [hp.frees, hp.freeBlocks]; exact h.frees
  · rw [hp.allocationBlocks, hp.freeBlocks]; exact h.owner
  · rw [hp.allocationBlocks]
    exact fun b f hf => hu b (h.allocUsed b f hf) (.inl ⟨f, hf⟩)
  · rw [hp.freeBlocks]
    exact fun b f hf => hu b (h.freeUsed b f hf) (.inr ⟨f, hf⟩)

theorem Effect.used_of_allocates (he : Effect s call s' out)
    (hc : call.allocates = true) (hb : s.Used b) : s'.Used b := by
  cases he with
  | takes _ h1 _ =>
    refine ⟨h1.blockCount ▸ hb.1, fun hf => hb.2 ?_⟩
    rw [h1.bitmap] at hf
    exact (Finset.mem_sdiff.mp hf).1
  | keeps _ h1 _ => exact h1 ▸ hb
  | loses _ h1 _ _ =>
    refine ⟨h1.blockCount ▸ hb.1, fun hf => hb.2 ?_⟩
    rw [h1.bitmap] at hf
    exact (Finset.mem_sdiff.mp hf).1
  | frees h1 => rw [hc] at h1; exact Bool.noConfusion h1

variable {ids : List ℕ}

theorem Frees.used (h : Frees s s' ids) (hb : s.Used b) (hn : b ∉ ids) : s'.Used b := by
  refine ⟨h.blockCount ▸ hb.1, fun hf => ?_⟩
  rcases (h.bitmap b).mp hf with h1 | h1
  · exact hb.2 h1
  · exact hn h1.1

theorem pendingInv_reserveAllocation (hb : Base s) (h : PendingInv s)
    (fence : CommitGroupEpochFence) (n : ℕ) : PendingInv (s.reserveAllocation fence n).1 := by
  have he : Effect s (.alloc n) (s.allocLocked n).1 (.blocks (s.allocLocked n).2) := step_effect hb rfl
  have hp : SamePending s (s.allocLocked n).1 := samePending_admitThen s n _
  have ht : PendingInv (s.allocLocked n).1 := h.mono hp fun b hu _ => he.used_of_allocates rfl hu
  have hcase := allocLocked_case hb n
  unfold reserveAllocation
  split_ifs
  · exact h
  · rcases hloc : s.allocLocked n with ⟨t, res⟩
    rw [hloc] at ht hcase hp
    cases hcase with
    | refuses => exact ht
    | loses => exact ht
    | @takes _ ids _ h2 _ =>
      -- the blocks were free, so no epoch held them
      have hnew : ∀ b ∈ ids, ¬ t.Held b := fun b hid hh => by
        refine (h.used ?_).2 (h2.free b hid)
        unfold Held at hh ⊢
        rwa [hp.allocationBlocks, hp.freeBlocks] at hh
      have hused : ∀ b ∈ ids, t.Used b := fun b hid => by
        refine ⟨h2.blockCount ▸ lt_of_mem_freeSet (h2.free b hid), fun hf => ?_⟩
        rw [h2.bitmap] at hf
        exact (Finset.mem_sdiff.mp hf).2 (mem_toFinset.mpr hid)
      have hget : ∀ b f, (own fence t.pendingAllocationBlocks ids).get? b = some f →
          b ∈ ids ∨ t.pendingAllocationBlocks.get? b = some f := fun b f hf => by
        rw [get?_own] at hf
        split_ifs at hf with hid
        · exact .inl hid
        · exact .inr hf
      refine ⟨ht.allocations.enroll fun b hid => ?_, ht.frees, fun b f f' h3 h4 => ?_, fun b f h3 => ?_, ht.freeUsed⟩
      · cases ho : t.pendingAllocationBlocks.get? b with
        | none => rfl
        | some f => exact absurd (.inl ⟨f, ho⟩) (hnew b hid)
      · rcases hget b f h3 with hid | h5
        · exact absurd (.inr ⟨f', h4⟩) (hnew b hid)
        · exact ht.owner b f f' h5 h4
      · rcases hget b f h3 with hid | h5
        · exact hused b hid
        · exact ht.allocUsed b f h5

theorem pendingInv_releaseAllocation (hb : Base s) (h : PendingInv s) (r : Reservation) :
    PendingInv (s.releaseAllocation r).1 := by
  have hfrees := releaseAllocation_frees hb r
  cases hv : r.epochFence.isValid with
  | false =>
    simp only [releaseAllocation, hv, Bool.not_false, ↓reduceIte]
    exact h
  | true =>
    simp only [releaseAllocation, freedBy, hv, Bool.not_true, Bool.false_eq_true, ↓reduceIte] at hfrees ⊢
    -- a released block is owned by the epoch
    have hown : ∀ b ∈ s.releasedBy r, s.pendingAllocationBlocks.get? b = some r.epochFence := fun b hr =>
      (h.allocations b _).mpr (mem_releasedBy.mp hr).1
    have halloc : ∀ b f, (disown r.epochFence s.pendingAllocationBlocks (s.releasedBy r)).get? b = some f →
        s.pendingAllocationBlocks.get? b = some f ∧ b ∉ s.releasedBy r := fun b f hf => by
      rw [get?_disown] at hf
      split_ifs at hf with hc
      exact ⟨hf, fun hr => hc ⟨hr, hown b hr⟩⟩
    have hfree : ∀ b f, (cancelLoop r.epochFence (s.releasedBy r) s.pendingFreeBlocks).1.get? b = some f →
        s.pendingFreeBlocks.get? b = some f ∧ b ∉ s.releasedBy r := fun b f hf => by
      rw [(cancelLoop_spec _ b _ _).1] at hf
      split_ifs at hf with hc
      refine ⟨hf, fun hr => hc ⟨hr, ?_⟩⟩
      rw [hf, h.owner b _ _ (hown b hr) hf]
    refine ⟨h.allocations.remove fun b => ?_, ?_, fun b f f' h3 h4 => ?_, fun b f h3 => ?_, fun b f h3 => ?_⟩
    · rw [(releaseLoop_spec b _ _).1, mem_releasedBy]
      tauto
    · exact twoWay_cancel h.frees _ _
    · exact h.owner b f f' (halloc b f h3).1 (hfree b f' h4).1
    · exact hfrees.used (h.allocUsed b f (halloc b f h3).1) (halloc b f h3).2
    · exact hfrees.used (h.freeUsed b f (hfree b f h3).1) (hfree b f h3).2

theorem pendingInv_freeOnCommit (h : PendingInv s) (fence : CommitGroupEpochFence)
    (blocks : List ℕ) : PendingInv (s.freeOnCommit fence blocks).1 := by
  unfold freeOnCommit
  split_ifs
  · exact h
  · cases hloop : s.scheduleLoop fence blocks OrdSet.empty with
    | error e => exact h
    | ok scheduled =>
      dsimp only
      split_ifs
      · exact h
      · have hsched : ∀ b ∈ scheduled.toList, s.Used b ∧
            (∀ f, s.pendingAllocationBlocks.get? b = some f → f = fence) ∧ s.pendingFreeBlocks.get? b = none :=
          fun b hb => (scheduleLoop_spec blocks hloop b hb).resolve_left (by simp)
        have hget : ∀ b f, (own fence s.pendingFreeBlocks scheduled.toList).get? b = some f →
            b ∈ scheduled.toList ∧ f = fence ∨ s.pendingFreeBlocks.get? b = some f := fun b f hf => by
          rw [get?_own] at hf
          split_ifs at hf with hid
          · exact .inl ⟨hid, (some.inj hf).symm⟩
          · exact .inr hf
        refine ⟨h.allocations, h.frees.enroll fun b hb => (hsched b hb).2.2, fun b f f' h3 h4 => ?_, h.allocUsed,
          fun b f h4 => ?_⟩
        · rcases hget b f' h4 with ⟨hid, rfl⟩ | h5
          · exact (hsched b hid).2.1 f h3
          · exact h.owner b f f' h3 h5
        · rcases hget b f h4 with ⟨hid, -⟩ | h5
          · exact (hsched b hid).1
          · exact h.freeUsed b f h5

/-- Once an epoch is retired, the blocks left in the indexes are those of the
other epochs. -/
theorem retire_get? {groups : Pending} (h : TwoWay groups owners) {f : CommitGroupEpochFence}
    (hf : (disown fence owners (membersOf groups fence).toList).get? b = some f) :
    owners.get? b = some f ∧ f ≠ fence := by
  have hleft := (mem_membersOf_erase groups fence f b).mp ((h.retire fence b f).mp hf)
  exact ⟨(h b f).mpr hleft.2, hleft.1⟩

/-- An epoch is retired, and the blocks it allocated or those it was to free
become free. -/
theorem PendingInv.retire {t : AllocatorInner} (h : PendingInv s)
    (hp : SamePending (s.retire fence) t) (hfrees : Frees s t ids)
    (hids : ∀ b ∈ ids, s.pendingAllocationBlocks.get? b = some fence ∨ s.pendingFreeBlocks.get? b = some fence) :
    PendingInv t := by
  -- a block of another epoch is not among those
  have hnot : ∀ b f, f ≠ fence → s.pendingAllocationBlocks.get? b = some f ∨ s.pendingFreeBlocks.get? b = some f →
      b ∉ ids := by
    intro b f hne hf hid
    rcases hids b hid with h1 | h1 <;> rcases hf with h2 | h2
    · rw [h1] at h2; exact hne (some.inj h2).symm
    · exact hne (h.owner b _ _ h1 h2).symm
    · exact hne (h.owner b _ _ h2 h1)
    · rw [h1] at h2; exact hne (some.inj h2).symm
  have halloc : ∀ b f, t.pendingAllocationBlocks.get? b = some f →
      s.pendingAllocationBlocks.get? b = some f ∧ f ≠ fence := fun b f hf =>
    retire_get? h.allocations (by rwa [hp.allocationBlocks] at hf)
  have hfree : ∀ b f, t.pendingFreeBlocks.get? b = some f → s.pendingFreeBlocks.get? b = some f ∧ f ≠ fence :=
    fun b f hf => retire_get? h.frees (by rwa [hp.freeBlocks] at hf)
  refine ⟨?_, ?_, fun b f f' h3 h4 => ?_, fun b f h3 => ?_, fun b f h3 => ?_⟩
  · rw [hp.allocations, hp.allocationBlocks]; exact h.allocations.retire fence
  · rw [hp.frees, hp.freeBlocks]; exact h.frees.retire fence
  · exact h.owner b f f' (halloc b f h3).1 (hfree b f' h4).1
  · obtain ⟨h4, h5⟩ := halloc b f h3
    exact hfrees.used (h.allocUsed b f h4) (hnot b f h5 (.inl h4))
  · obtain ⟨h4, h5⟩ := hfree b f h3
    exact hfrees.used (h.freeUsed b f h4) (hnot b f h5 (.inr h4))

theorem pendingInv_markCommitGroupDurable (hb : Base s) (h : PendingInv s)
    (fence : CommitGroupEpochFence) : PendingInv (s.markCommitGroupDurable fence).1.1 := by
  have hfrees := markCommitGroupDurable_frees hb fence
  cases hv : fence.isValid with
  | false =>
    simp only [markCommitGroupDurable, hv, Bool.not_false, ↓reduceIte]
    exact h
  | true =>
    simp only [markCommitGroupDurable, freedBy, hv, Bool.not_true, Bool.false_eq_true, ↓reduceIte] at hfrees ⊢
    exact h.retire (samePending_discard _ _) hfrees fun b hid => .inr ((h.frees b fence).mpr hid)

theorem pendingInv_abortCommitGroup (hb : Base s) (h : PendingInv s)
    (fence : CommitGroupEpochFence) : PendingInv (s.abortCommitGroup fence).1 := by
  have hfrees := abortCommitGroup_frees hb fence
  cases hv : fence.isValid with
  | false =>
    simp only [abortCommitGroup, hv, Bool.not_false, ↓reduceIte]
    exact h
  | true =>
    simp only [abortCommitGroup, freedBy, hv, Bool.not_true, Bool.false_eq_true, ↓reduceIte] at hfrees ⊢
    exact h.retire ⟨rfl, rfl, rfl, rfl⟩ hfrees fun b hid => .inl ((h.allocations b fence).mpr hid)

theorem mem_immediate {blocks : List ℕ} : b ∈ s.immediate blocks ↔ b ∈ blocks ∧ ¬ s.Held b := by
  simp [immediate, Held, OrdMap.contains, eq_none_iff_forall_ne_some]

theorem pendingInv_free (hb : Base s) (h : PendingInv s) (blocks : List ℕ) : PendingInv (s.free blocks).1 :=
  h.mono (samePending_discard s _) fun _ hu hheld =>
    (free_frees hb blocks).used hu fun hid => (mem_immediate.mp hid).2 hheld

/-- **Every call keeps the indexes.** -/
theorem pendingInv_step (hb : Base s) (h : PendingInv s)
    {trims : List TrimRequest} (hs : step s call = some (s', out, trims)) : PendingInv s' := by
  have he := step_effect hb hs
  have halloc : call.allocates = true → SamePending s s' → PendingInv s' := fun hc hp =>
    h.mono hp fun _ hu _ => he.used_of_allocates hc hu
  have hsame : ∀ t : AllocatorInner, SamePending s t → t.bitmap = s.bitmap → PendingInv t := fun t hp hbm =>
    h.mono hp fun b hu _ => by unfold Used at hu ⊢; rwa [hbm]
  cases call with
  | alloc n | allocAny n | allocContiguous n => cases hs; exact halloc rfl (samePending_admitThen s n _)
  | allocate n => cases hs; exact halloc rfl (samePending_allocate s n)
  | allocateAligned len =>
    obtain ⟨r, hr, he⟩ := map_eq_some_iff.mp hs
    cases he
    exact halloc rfl (samePending_allocateAligned hr)
  | allocBytes len =>
    obtain ⟨r, hr, he⟩ := map_eq_some_iff.mp hs
    cases he
    exact halloc rfl (samePending_allocBytes hr)
  | allocBytesAt offset len =>
    obtain ⟨r, hr, he⟩ := map_eq_some_iff.mp hs
    cases he
    exact halloc rfl (samePending_allocBytesAt hr)
  | reserveAllocation fence n => cases hs; exact pendingInv_reserveAllocation hb h fence n
  | releaseAllocation r => cases hs; exact pendingInv_releaseAllocation hb h r
  | freeOnCommit fence blocks => cases hs; exact pendingInv_freeOnCommit h fence blocks
  | markCommitGroupDurable fence => cases hs; exact pendingInv_markCommitGroupDurable hb h fence
  | abortCommitGroup fence => cases hs; exact pendingInv_abortCommitGroup hb h fence
  | free blocks => cases hs; exact pendingInv_free hb h blocks
  | registerDevice id topology start len =>
    cases hs
    exact hsame _ (samePending_registerDevice s id topology start len) (registerDevice_fields s id topology start len).1
  | fenceDevice | unfenceDevice | setMinDiscardBytes | setTrimSink => cases hs; exact hsame _ ⟨rfl, rfl, rfl, rfl⟩ rfl
  | markClean => cases hs; exact h.mono ⟨rfl, rfl, rfl, rfl⟩ fun b hu _ => hu

theorem pendingInv_start (bm : FreeBlockBitmap) (blockSize : ℕ) (region : Region) (topology : AllocatorTopology)
    (rootReserve : ℕ) (fm : SegmentFreeMap) : PendingInv (start bm blockSize region topology rootReserve fm) :=
  ⟨twoWay_empty, twoWay_empty, fun _ _ _ h => by simp [start] at h, fun _ _ h => by simp [start] at h,
    fun _ _ h => by simp [start] at h⟩

/-! ### Returning a block -/

/-- The call takes the block from its holder: the epoch that was to free it is
durable, the epoch that allocated it is aborted or releases it, or it is freed
while no epoch holds it. -/
def Returns (s : AllocatorInner) (call : Call) (b : ℕ) : Prop :=
  match call with
  | .markCommitGroupDurable fence => fence.isValid = true ∧ s.pendingFreeBlocks.get? b = some fence
  | .abortCommitGroup fence => fence.isValid = true ∧ s.pendingAllocationBlocks.get? b = some fence
  | .releaseAllocation r =>
    r.epochFence.isValid = true ∧ b ∈ r.blocks ∧ s.pendingAllocationBlocks.get? b = some r.epochFence
  | .free blocks => b ∈ blocks ∧ ¬ s.Held b
  | _ => False

theorem returns_of_mem_freedBy (h : PendingInv s) (hb : b ∈ s.freedBy call) : s.Returns call b := by
  cases call with
  | releaseAllocation r =>
    simp only [freedBy] at hb
    split_ifs at hb with hv
    · obtain ⟨h1, h2⟩ := mem_releasedBy.mp hb
      exact ⟨hv, h2, (h.allocations b _).mpr h1⟩
    · simp at hb
  | markCommitGroupDurable fence =>
    simp only [freedBy] at hb
    split_ifs at hb with hv
    · exact ⟨hv, (h.frees b fence).mpr hb⟩
    · simp at hb
  | abortCommitGroup fence =>
    simp only [freedBy] at hb
    split_ifs at hb with hv
    · exact ⟨hv, (h.allocations b fence).mpr hb⟩
    · simp at hb
  | free blocks => exact mem_immediate.mp hb
  | _ => simp [freedBy] at hb

/-- A used block is used after the call, or the call returns it. -/
theorem used_or_returns (h : PendingInv s)
    (he : Effect s call s' out) (hb : s.Used b) : s'.Used b ∨ s.Returns call b := by
  cases hc : call.allocates with
  | true => exact .inl (he.used_of_allocates hc hb)
  | false =>
    cases he with
    | takes _ h1 _ =>
      refine .inl ⟨h1.blockCount ▸ hb.1, fun hf => hb.2 ?_⟩
      rw [h1.bitmap] at hf
      exact (Finset.mem_sdiff.mp hf).1
    | keeps _ h1 _ => exact .inl (h1 ▸ hb)
    | loses hl => exact absurd hl (not_leaks_of_not_allocates hc)
    | frees _ h1 _ =>
      by_cases hid : b ∈ s.freedBy call
      · exact .inr (returns_of_mem_freedBy h hid)
      · exact .inl (h1.used hb hid)

end AllocatorInner

/-! ### Whole runs -/

variable {s : AllocatorInner}

theorem Origin.pendingInv {o : Origin} (hw : o.blockCount ≤ u64Max) (h : o.build = some s) : PendingInv s := by
  cases o with
  | fresh =>
    obtain ⟨-, fm, rfl, -⟩ := withTopology_spec hw h
    exact pendingInv_start ..
  | restored =>
    obtain ⟨-, fm, rfl, -⟩ := fromPersistedWithTopology_spec hw h
    exact pendingInv_start ..

variable {t : AllocatorInner} {calls : List Call}

theorem Run.pendingInv (h : Run s calls t) (hb : Base s) (hs : PendingInv s) : PendingInv t := by
  induction h with
  | nil => exact hs
  | cons h1 _ ih => exact ih ((step_effect hb h1).base hb) (pendingInv_step hb hs h1)

/-- A block that is used at the start of a run and free at its end was returned
on the way. -/
theorem Run.exists_returns (h : Run s calls t) (hb : Base s)
    (hs : PendingInv s) {b : ℕ} (hused : s.Used b) (hfree : b ∈ t.bitmap.freeSet) :
    ∃ done call rest u, calls = done ++ call :: rest ∧ Run s done u ∧ u.Returns call b := by
  induction h with
  | nil => exact absurd hfree hused.2
  | @cons s s' t call calls out trims h1 h2 ih =>
    have he := step_effect hb h1
    rcases used_or_returns hs he hused with hu | hr
    · obtain ⟨done, c, rest, u, rfl, h3, h4⟩ := ih (he.base hb) (pendingInv_step hb hs h1) hu hfree
      exact ⟨call :: done, c, rest, u, rfl, .cons h1 h3, h4⟩
    · exact ⟨[], call, calls, s, rfl, .nil s, hr⟩

/-- The blocks a call hands out are free before it and used after it. -/
theorem AllocatorInner.Effect.handedOut {s' : AllocatorInner} {call : Call} {out : Outcome}
    (he : Effect s call s' out) : out.handedOut.Nodup ∧ ∀ b ∈ out.handedOut, b ∈ s.bitmap.freeSet ∧ s'.Used b := by
  cases he with
  | takes _ h1 _ =>
    refine ⟨h1.nodup, fun b hb => ⟨h1.free b hb, ?_, fun hf => ?_⟩⟩
    · exact h1.blockCount ▸ lt_of_mem_freeSet (h1.free b hb)
    · rw [h1.bitmap] at hf
      exact (Finset.mem_sdiff.mp hf).2 (mem_toFinset.mpr hb)
  | keeps _ _ h1 => simp [h1]
  | loses _ _ _ h1 => simp [h1]
  | frees _ _ h1 => simp [h1]

/-- The pending sets and the maps back from blocks to epochs, the used bits of
the pending blocks, and the count of free blocks. -/
structure Consistent (s : AllocatorInner) : Prop where
  allocations : ∀ b f, s.pendingAllocationBlocks.get? b = some f ↔
    ∃ blocks, s.pendingAllocations.get? f = some blocks ∧ b ∈ blocks
  frees : ∀ b f, s.pendingFreeBlocks.get? b = some f ↔ ∃ blocks, s.pendingFrees.get? f = some blocks ∧ b ∈ blocks
  used : ∀ b, s.Held b → b < s.bitmap.blockCount ∧ s.bitmap.isFree b = false
  freeCount : s.bitmap.freeCount =
    ((Finset.range s.bitmap.blockCount).filter fun b => Bits.bitAt s.bitmap.words b = false).card

theorem mem_membersOf_iff {groups : Pending} {f : CommitGroupEpochFence} {b : ℕ} :
    b ∈ membersOf groups f ↔ ∃ blocks, groups.get? f = some blocks ∧ b ∈ blocks := by
  unfold membersOf
  cases groups.get? f with
  | none => simp
  | some blocks => simp

theorem consistent_of_pendingInv (hb : Base s) (h : PendingInv s) : Consistent s := by
  refine ⟨fun b f => (h.allocations b f).trans mem_membersOf_iff, fun b f => (h.frees b f).trans mem_membersOf_iff,
    fun b hheld => ⟨(h.used hheld).1, ?_⟩, ?_⟩
  · rw [Bool.eq_false_iff]
    exact fun hf => (h.used hheld).2 (mem_freeSet.mpr hf)
  · rw [hb.bitmap.count]
    congr 1
    ext b
    rw [mem_freeSet, isFree_iff_bitAt, Finset.mem_filter, Finset.mem_range]

/-- **The allocator never has two holders for a block.** After any calls the
indexes are consistent; the next call hands out distinct blocks that were free;
and if a later call hands out one of them again, a call in between took it from
its holder. (`new` is `Origin.fresh` with the default topology and no reserve.) -/
theorem allocation_history_sound (o : Origin) (hw : o.blockCount ≤ u64Max) (s₀ : AllocatorInner)
    (h₀ : o.build = some s₀) (calls : List Call) (s : AllocatorInner) (hrun : Run s₀ calls s) :
    Consistent s ∧ ∀ call s' out trims, step s call = some (s', out, trims) →
      out.handedOut.Nodup ∧ (∀ b ∈ out.handedOut, s.bitmap.isFree b = true) ∧
      ∀ b ∈ out.handedOut, ∀ between t later t' out' trims', Run s' between t →
        step t later = some (t', out', trims') → b ∈ out'.handedOut →
        ∃ done ret rest u, between = done ++ ret :: rest ∧ Run s' done u ∧ u.Returns ret b := by
  have hb := hrun.base (Origin.base hw h₀)
  have hp := hrun.pendingInv (Origin.base hw h₀) (Origin.pendingInv hw h₀)
  refine ⟨consistent_of_pendingInv hb hp, fun call s' out trims hstep => ?_⟩
  have he := step_effect hb hstep
  obtain ⟨h1, h2⟩ := he.handedOut
  refine ⟨h1, fun b hid => FreeBlockBitmap.mem_freeSet.mp (h2 b hid).1, ?_⟩
  intro b hid between t later t' out' trims' hbetween hlater hid'
  have hfree := ((step_effect (hbetween.base (he.base hb)) hlater).handedOut.2 b hid').1
  exact hbetween.exists_returns (he.base hb) (pendingInv_step hb hp hstep) (h2 b hid).2 hfree

/-- All four blocks are reserved by an epoch, the epoch is aborted, and the next
one reserves them again: the abort took block 0 from its holder. -/
theorem allocation_history_abort : ∃ s₀ s' out trims t, fourBlocks.build = some s₀ ∧
    step s₀ (.reserveAllocation ⟨1, 1⟩ 4) = some (s', out, trims) ∧ 0 ∈ out.handedOut ∧
    Run s' [.abortCommitGroup ⟨1, 1⟩] t ∧
    (∃ t' out' trims', step t (.reserveAllocation ⟨2, 2⟩ 4) = some (t', out', trims') ∧ 0 ∈ out'.handedOut) ∧
    Consistent s₀ ∧ ∃ done ret rest u, [.abortCommitGroup ⟨1, 1⟩] = done ++ ret :: rest ∧ Run s' done u ∧
      u.Returns ret 0 := by
  have hrun : (fourBlocks.build.bind fun s₀ => (step s₀ (.reserveAllocation ⟨1, 1⟩ 4)).bind fun r =>
      (runCalls r.1 [.abortCommitGroup ⟨1, 1⟩]).bind fun t => (step t (.reserveAllocation ⟨2, 2⟩ 4)).map fun r' =>
        (decide (0 ∈ r.2.1.handedOut), decide (0 ∈ r'.2.1.handedOut))) = some (true, true) := by decide +kernel
  obtain ⟨s₀, h₀, h1⟩ := bind_eq_some_iff.mp hrun
  obtain ⟨⟨s', out, trims⟩, hstep, h2⟩ := bind_eq_some_iff.mp h1
  obtain ⟨t, hr, h3⟩ := bind_eq_some_iff.mp h2
  obtain ⟨⟨t', out', trims'⟩, hstep', h4⟩ := map_eq_some_iff.mp h3
  obtain ⟨h5, h6⟩ := Prod.mk.inj h4
  have hid := of_decide_eq_true h5
  have hid' := of_decide_eq_true h6
  have hbetween := run_of_runCalls _ hr
  obtain ⟨h7, h8⟩ := allocation_history_sound fourBlocks (by decide) s₀ h₀ [] s₀ (.nil s₀)
  exact ⟨s₀, s', out, trims, t, h₀, hstep, hid, hbetween, ⟨t', out', trims', hstep', hid'⟩, h7,
    (h8 _ s' out trims hstep).2.2 0 hid _ t _ t' out' trims' hbetween hstep' hid'⟩

end Tidefs.Allocator
