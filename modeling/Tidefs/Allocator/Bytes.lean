/-
# Allocation of a number of bytes

`alloc_bytes` asks for the blocks that cover the rounded length. With a physical sector
between the logical sector and the block, the number of blocks of a physical sector is
zero, and the search for an aligned run divides by it (`allocBytes_panics`). The number of
blocks is narrowed to 32 bits, and the run that the size-class hints offer need not be free
any more.

When a call keeps its promise is said by the state before it (`allocBytes_keeps_iff`): what
the rounding gives, how much of it is left after narrowing, and whether the blocks at the
offered run are free.
-/
import Tidefs.Allocator.Effects

namespace Tidefs.Allocator
namespace AllocatorInner

open Word FreeBlockBitmap

variable {s : AllocatorInner} {n : ℕ}

theorem orElse_ok {first : FreeBlockBitmap × Except AllocError (List ℕ)} {bm : FreeBlockBitmap}
    {second : FreeBlockBitmap → FreeBlockBitmap × Except AllocError (List ℕ)}
    (hfirst : (∃ bm' ids, first = (bm', .ok ids)) ∨ first = (bm, .error .noSpace))
    (hsecond : ∃ bm' ids, second bm = (bm', .ok ids)) : ∃ bm' ids, orElse first second = (bm', .ok ids) := by
  rcases hfirst with ⟨bm', ids, rfl⟩ | rfl
  · exact ⟨bm', ids, rfl⟩
  · exact hsecond

/-- The search finds blocks if enough are free outside the fenced devices. -/
theorem searchBlocks_ok (h : Base s) (hn : 0 < n) (husable : n ≤ (usableSet s.fenced s.bitmap).card)
    (hfree : n ≤ s.bitmap.freeCount) : ∃ bm ids, s.searchBlocks n = (bm, .ok ids) := by
  have hscattered : ∃ bm ids, allocScatteredWhere s.fenced s.bitmap n = (bm, .ok ids) := by
    rcases allocScatteredWhere_spec s.fenced h.bitmap n with ⟨bm, ids, e, -⟩ | ⟨hno, -⟩ | ⟨-, -, hfew, -⟩
    · exact ⟨bm, ids, e⟩
    · omega
    · omega
  have hcontiguous : ∀ skip, (∃ bm ids, allocContiguousWhere skip s.bitmap n = (bm, .ok ids)) ∨
      allocContiguousWhere skip s.bitmap n = (s.bitmap, .error .noSpace) := fun skip =>
    (allocContiguousWhere_spec skip h.bitmap n).imp_left fun ⟨bm, _, e, _⟩ => ⟨bm, _, e⟩
  have hbest : (∃ bm ids, s.bitmap.allocContiguousBestFit n = (bm, .ok ids)) ∨ _ :=
    (allocContiguousBestFit_spec h.bitmap n).imp_left fun ⟨bm, _, e, _⟩ => ⟨bm, _, e⟩
  unfold searchBlocks
  split_ifs with he
  · rw [fenced_of_isEmpty he] at hscattered
    rcases hcontiguous fun _ => false with ⟨bm, ids, e⟩ | e
    · exact ⟨bm, ids, by rw [FreeBlockBitmap.alloc, FreeBlockBitmap.allocContiguous, e]; rfl⟩
    · rw [FreeBlockBitmap.alloc, FreeBlockBitmap.allocContiguous, e]
      exact orElse_ok hbest hscattered
  · exact orElse_ok (hcontiguous s.fenced) (orElse_ok (hcontiguous s.fenced) hscattered)

/-! ### The promise of a call -/

/-- So many blocks are free outside the fenced devices and above the root reserve. -/
def Enough (s : AllocatorInner) (n : ℕ) : Prop :=
  n ≤ (usableSet s.fenced s.bitmap).card ∧ s.rootReserve + n ≤ s.bitmap.freeCount

/-- The blocks cover the bytes, and where `enough` holds there is space. -/
def Covers (blockSize byteLength : ℕ) (enough : Prop) (result : Except AllocError (List ℕ)) : Prop :=
  (∀ blocks, result = .ok blocks → byteLength ≤ blocks.length * blockSize) ∧ (enough → result ≠ .error .noSpace)

/-- The call does not panic, and its result covers the bytes if there is space. -/
def KeepsPromise (s : AllocatorInner) (byteLength : ℕ) : Prop :=
  ∃ s' result, s.allocBytes byteLength = some (s', result) ∧
    Covers s.blockSize byteLength (∀ aligned, s.topology.roundUpLogical byteLength = some aligned →
      s.Enough (divCeil aligned s.blockSize)) result

/-- The length is refused: the device wants larger units. -/
def Misaligned (s : AllocatorInner) (byteLength : ℕ) : Prop :=
  s.topology.sectorSize < s.topology.effectiveMinIoSize ∧ byteLength % s.topology.effectiveMinIoSize ≠ 0

/-- The run that the hints offer, where physical sectors are larger than logical ones. -/
def offered (s : AllocatorInner) (n : ℕ) : Option Ordered.Run :=
  if s.topology.logicalSectorSize < s.topology.sectorSize then s.spacemap.findFreeRun n else none

/-- For `n` blocks: what the search gives covers the bytes; and an aligned run that the hints offer is free if
enough blocks are. -/
def Placed (s : AllocatorInner) (byteLength n : ℕ) (enough : Prop) : Prop :=
  match s.offered n with
  | none => s.Enough n → byteLength ≤ n * s.blockSize
  | some run =>
    s.topology.sectorSize / s.blockSize ≠ 0 ∧
      if run.start % (s.topology.sectorSize / s.blockSize) = 0 then
        ((∀ b ∈ List.range' run.start n, b ∈ s.bitmap.freeSet) → byteLength ≤ n * s.blockSize) ∧
          (enough → ∀ b ∈ List.range' run.start n, b ∈ s.bitmap.freeSet)
      else s.Enough n → byteLength ≤ n * s.blockSize

/-- A result that is blocks exactly if `found`, and else a lack of space. -/
theorem covers_iff {r : AllocatorInner × Except AllocError (List ℕ)} {found enough : Prop} {blockSize byteLength : ℕ}
    (hok : found → ∃ s' ids, r = (s', .ok ids) ∧ ids.length = n) (hno : ¬ found → ∃ s', r = (s', .error .noSpace)) :
    Covers blockSize byteLength enough r.2 ↔ (found → byteLength ≤ n * blockSize) ∧ (enough → found) := by
  by_cases hfound : found
  · obtain ⟨s', ids, rfl, rfl⟩ := hok hfound
    exact ⟨fun h => ⟨fun _ => h.1 ids rfl, fun _ => hfound⟩,
      fun h => ⟨fun blocks e => Except.ok.inj e ▸ h.1 hfound, fun _ => nofun⟩⟩
  · obtain ⟨s', rfl⟩ := hno hfound
    exact ⟨fun h => ⟨fun hf => absurd hf hfound, fun he => absurd rfl (h.2 he)⟩,
      fun h => ⟨nofun, fun he => absurd (h.2 he) hfound⟩⟩

/-- **The search**: it finds blocks exactly if there are enough. -/
theorem admitThen_covers (h : Base s) (hn : 0 < n) {enough : Prop} {byteLength : ℕ} (hle : enough → s.Enough n) :
    Covers s.blockSize byteLength enough (s.admitThen n (s.searchBlocks n)).2 ↔
      (s.Enough n → byteLength ≤ n * s.blockSize) := by
  refine (@covers_iff n _ (s.Enough n) enough s.blockSize byteLength ?_ ?_).trans (and_iff_left hle)
  · rintro ⟨husable, hfree⟩
    obtain ⟨bm, ids, e⟩ := searchBlocks_ok h hn husable (by omega)
    have hresult := searchBlocks_result h n
    rw [e] at hresult
    unfold admitThen admitAllocation
    rw [if_neg (by omega), if_neg (by omega), e]
    cases hresult with
    | granted _ hg => exact ⟨_, ids, rfl, hg.length⟩
  · intro hfew
    unfold admitThen admitAllocation
    rw [if_neg (by omega)]
    split_ifs with hadmit
    · exact ⟨s, rfl⟩
    · have hresult := searchBlocks_result h n
      generalize s.searchBlocks n = found at hresult
      cases hresult with
      | @granted bm ids _ hg =>
        -- the blocks were usable, so there were enough of them
        refine absurd ⟨?_, by omega⟩ hfew
        rw [← hg.length, ← List.toFinset_card_of_nodup hg.nodup]
        exact Finset.card_le_card fun b hb =>
          mem_usableSet.mpr ⟨hg.free b (List.mem_toFinset.mp hb), hg.kept b (List.mem_toFinset.mp hb)⟩
      | refused => exact ⟨_, rfl⟩
      | leaked => exact ⟨_, rfl⟩

/-- **The aligned run**: it is taken exactly if its blocks are free. -/
theorem allocAligned_covers (h : Base s) (hn : 0 < n) {enough : Prop} {byteLength start : ℕ} :
    Covers s.blockSize byteLength enough (s.allocAligned start n).2 ↔
      ((∀ b ∈ List.range' start n, b ∈ s.bitmap.freeSet) → byteLength ≤ n * s.blockSize) ∧
        (enough → ∀ b ∈ List.range' start n, b ∈ s.bitmap.freeSet) := by
  apply covers_iff
  · intro hfree
    have hlast := (isFree_iff.mp (mem_freeSet.mp (hfree (start + n - 1) (List.mem_range'_1.mpr (by omega))))).1
    have hall : (List.range' start n).all s.bitmap.isFreeInner = true :=
      List.all_eq_true.mpr fun b hb => (isFree_iff.mp (mem_freeSet.mp (hfree b hb))).2
    unfold allocAligned allocContiguousAt
    rw [if_neg (by omega)]
    dsimp only
    rw [if_pos hall]
    exact ⟨_, _, rfl, List.length_range'⟩
  · intro hused
    rcases allocContiguousAt_spec h.bitmap start n with ⟨bm, e, -, hg⟩ | e
    · exact absurd hg.free hused
    · exact ⟨_, by rw [allocAligned, e]⟩

theorem exists_some_iff {r : AllocatorInner × Except AllocError (List ℕ)} {P : Except AllocError (List ℕ) → Prop} :
    (∃ s' result, some r = some (s', result) ∧ P result) ↔ P r.2 :=
  ⟨fun ⟨_, _, e, hp⟩ => Option.some.inj e ▸ hp, fun hp => ⟨_, _, rfl, hp⟩⟩

/-- **The aligned run, or else the search.** -/
theorem alignedRun_covers (h : Base s) (hn : 0 < n) {enough : Prop} {byteLength : ℕ} (hle : enough → s.Enough n) :
    (∃ s' result, ((s.alignedRun n).map fun
        | some start => s.allocAligned start n
        | none => s.admitThen n (s.searchBlocks n)) = some (s', result) ∧
      Covers s.blockSize byteLength enough result) ↔ s.Placed byteLength n enough := by
  have hsearch := @admitThen_covers s n h hn enough byteLength hle
  unfold alignedRun Placed offered
  by_cases hfast : s.topology.logicalSectorSize < s.topology.sectorSize
  · rw [if_pos ⟨hfast, hn⟩, if_pos hfast]
    cases s.spacemap.findFreeRun n with
    | none => exact exists_some_iff.trans hsearch
    | some run =>
      by_cases hphys : s.topology.sectorSize / s.blockSize = 0
      · -- the remainder divides by zero
        simp [AllocatorTopology.modChecked, hphys]
      · simp only [AllocatorTopology.modChecked, if_neg hphys, and_iff_right hphys, ne_eq]
        refine exists_some_iff.trans ?_
        dsimp only
        split_ifs
        · exact allocAligned_covers h hn
        · exact hsearch
  · rw [if_neg fun h => hfast h.1, if_neg hfast]
    exact exists_some_iff.trans hsearch

/-- **When the promise is kept**: the length is refused, or the rounding and the division are defined, narrowing
leaves a block, and the blocks that are left are placed. -/
theorem allocBytes_keeps_iff (h : Base s) {byteLength : ℕ} (hpos : 0 < byteLength) :
    s.KeepsPromise byteLength ↔ s.Misaligned byteLength ∨ s.blockSize ≠ 0 ∧
      ∃ aligned, s.topology.roundUpLogical byteLength = some aligned ∧
        let count := divCeil aligned s.blockSize
        asU32 count ≠ 0 ∧ s.Placed byteLength (asU32 count) (s.Enough count) := by
  unfold KeepsPromise allocBytes blocksForBytes
  rw [if_neg hpos.ne']
  dsimp only
  by_cases hmis : s.Misaligned byteLength
  · rw [if_pos (show _ ∧ _ from hmis)]
    exact iff_of_true ⟨s, _, rfl, nofun, fun _ => nofun⟩ (.inl hmis)
  rw [if_neg (show ¬ (_ ∧ _) from hmis), or_iff_right hmis]
  cases s.topology.roundUpLogical byteLength with
  | none =>
    refine iff_of_false ?_ ?_
    · rintro ⟨s', result, e, -⟩
      cases e
    · rintro ⟨-, aligned, e, -⟩
      cases e
  | some aligned =>
    by_cases hblock : s.blockSize = 0
    · refine iff_of_false ?_ fun h => h.1 hblock
      rintro ⟨s', result, e, -⟩
      simp [AllocatorTopology.divCeilChecked, hblock] at e
    simp only [AllocatorTopology.divCeilChecked, if_neg hblock, Option.bind_eq_bind, Option.bind_some,
      Option.some.injEq, forall_eq', exists_eq_left', and_iff_right hblock, ne_eq]
    generalize divCeil aligned s.blockSize = count
    by_cases hzero : asU32 count = 0
    · -- narrowed to no block at all
      rw [if_pos hzero, exists_some_iff]
      refine iff_of_false (fun hcovers => ?_) fun h => h.1 hzero
      have := hcovers.1 [] rfl
      rw [List.length_nil, Nat.zero_mul] at this
      omega
    · rw [if_neg hzero, and_iff_right hzero]
      refine alignedRun_covers h (Nat.pos_of_ne_zero hzero) fun ⟨h1, h2⟩ => ?_
      have : asU32 count ≤ count := Nat.mod_le _ _
      exact ⟨by omega, by omega⟩

/-- Four blocks of 4096 bytes, the size of a physical sector: the run the hints offer is free. -/
theorem allocBytes_keeps_iff_four : ∃ s, withTopology 4 4096 ⟨0, 8⟩ ⟨512, 4096, 0, 0⟩ 1 = some s ∧ s.KeepsPromise 5000 := by
  have hs := (withTopology 4 4096 ⟨0, 8⟩ ⟨512, 4096, 0, 0⟩ 1).some_get (by decide)
  refine ⟨_, hs.symm, (allocBytes_keeps_iff (withTopology_spec (by decide) hs.symm).1 (by decide)).mpr (.inr ?_)⟩
  refine ⟨by decide, 5120, by decide, by decide, show _ ∧ _ from ⟨by decide, ?_⟩⟩
  exact ⟨fun _ => by decide, fun _ => by decide⟩

/-- **The division by zero**: sectors of 512 and 4096 bytes in blocks of 8192. -/
theorem allocBytes_panics : ∃ s, withTopology 2 8192 ⟨0, 8⟩ ⟨512, 4096, 0, 0⟩ 0 = some s ∧ s.allocBytes 1 = none := by
  refine ⟨(withTopology 2 8192 ⟨0, 8⟩ ⟨512, 4096, 0, 0⟩ 0).get (by decide), (Option.some_get _).symm, by decide⟩

end AllocatorInner
end Tidefs.Allocator
