/-
# Recovery of the orphans in batches

A batch has the inodes after the cursor, as many as the budget allows, and its cursor is the
last of them. So the batches cut the index into pieces, in order, also when inodes that were
returned are removed in between (`batches_cover`).
-/
import Tidefs.Orphan.Index
import Tidefs.Lib.Assoc
import Tidefs.Lib.Word

namespace Tidefs.Orphan

open Ordered List Word

/-- The scan starts at the key after the cursor; at the start, at the key that no inode has. -/
def startIdx (all : List InodeId) (position : InodeId) : ℕ :=
  match binarySearchBy (fun k : InodeId => compare (k : ℕ) (if position = 0 then 0 else satAdd position 1)) all with
  | .ok idx | .error idx => idx

/-- The inodes of the batch, the position of the new cursor, and whether the index is exhausted. -/
def OrphanIndex.batchRecover (x : OrphanIndex) (position : InodeId) (budgetCount : ℕ) : List InodeId × InodeId × Bool :=
  let (entries, scanExhausted) :=
    if x.tree.isEmpty = true ∨ (position : ℕ) = u64Max then ([], true)
    else
      let all := x.tree.toList
      let result := (all.drop (startIdx all position)).take budgetCount
      (result, decide (result.length < budgetCount ∨ all.length ≤ startIdx all position + result.length))
  (entries, entries.getLast?.getD position,
    entries.length == 0 || (position : ℕ) == u64Max || x.tree.isEmpty || scanExhausted)

variable {x : OrphanIndex} {position : InodeId} {budget : ℕ} {A C out : List InodeId}

/-- The inodes of `A` are behind the cursor, those of `C` are to come. -/
structure Split (x : OrphanIndex) (position : InodeId) (A C : List InodeId) : Prop where
  tree : x.tree.toList = A ++ C
  behind : ∀ a ∈ A, a ≠ 0 ∧ a ≤ position
  ahead : ∀ c ∈ C, position < c

theorem startIdx_eq (hmax : (position : ℕ) ≠ u64Max) (hC : ∀ c ∈ C, position < c) : ∀ {A : List InodeId},
    (∀ a ∈ A, a ≠ 0 ∧ a ≤ position) → startIdx (A ++ C) position = A.length
  | [], _ => by
    cases C with
    | nil => rfl
    | cons c C =>
      have hc := Fin.lt_def.mp (hC c mem_cons_self)
      have hle : (if position = 0 then 0 else satAdd position 1) ≤ (c : ℕ) := by
        unfold satAdd
        split_ifs <;> omega
      rw [nil_append, startIdx, binarySearchBy]
      rcases hle.lt_or_eq with hlt | heq
      · rw [compare_gt_iff_gt.mpr hlt]
        rfl
      · rw [compare_eq_iff_eq.mpr heq.symm]
        rfl
  | a :: A, hA => by
    obtain ⟨⟨h0, hle⟩, hA⟩ := forall_mem_cons.mp hA
    have hlt : (a : ℕ) < if position = 0 then 0 else satAdd position 1 := by
      have hle := Fin.le_def.mp hle
      have h0 := Fin.val_ne_zero_iff.mpr h0
      have := a.isLt
      unfold satAdd u64Max at *
      split_ifs with hp
      · rw [hp] at hle
        exact absurd (Nat.le_zero.mp hle) h0
      · omega
    have ih := startIdx_eq hmax hC hA
    unfold startIdx at ih ⊢
    rw [cons_append, binarySearchBy, compare_lt_iff_lt.mpr hlt]
    dsimp only
    rw [length_cons, ← ih]
    generalize binarySearchBy _ (A ++ C) = r
    cases r <;> rfl

theorem batchRecover_eq (h : Split x position A C) (hbudget : 1 ≤ budget) : x.batchRecover position budget =
      (C.take budget, (C.take budget).getLast?.getD position, decide (C.length ≤ budget)) := by
  unfold OrphanIndex.batchRecover
  split_ifs with hend
  · have hnone : C = [] := by
      refine eq_nil_iff_forall_not_mem.mpr fun c hc => ?_
      rcases hend with hend | hend
      · exact OrdSet.isEmpty_iff.mp hend c (OrdSet.mem_def.mpr (h.tree ▸ mem_append_right A hc))
      · have := Fin.lt_def.mp (h.ahead c hc)
        unfold u64Max at hend
        omega
    simp [hnone]
  · dsimp only
    rw [h.tree, startIdx_eq (fun hmax => hend (.inr hmax)) h.ahead h.behind, drop_left]
    refine Prod.ext rfl (Prod.ext rfl (Bool.eq_iff_iff.mpr ?_))
    simp [not_or.mp hend]
    rw [← length_eq_zero_iff]
    omega

/-- Batches with removals of returned inodes in between: the index, the cursor and the inodes after `k` batches. -/
inductive Batches (start : OrphanIndex) (budget : ℕ) : ℕ → OrphanIndex → InodeId → List InodeId → Prop
  | start : Batches start budget 0 start 0 []
  | batch {k x position out} : Batches start budget k x position out →
      Batches start budget (k + 1) x (x.batchRecover position budget).2.1 (out ++ (x.batchRecover position budget).1)
  | remove {k x position out} {x' : OrphanIndex} {inodeId : InodeId} : Batches start budget k x position out →
      inodeId ∈ out → x'.tree = x.tree.erase inodeId → Batches start budget k x' position out

variable {start : OrphanIndex} (h0 : 0 ∉ start.tree) (hbudget : 1 ≤ budget) {k : ℕ}
  (h : Batches start budget k x position out)
include h0 hbudget h

theorem Batches.inv : out = start.tree.toList.take (k * budget) ∧ (∀ a ∈ out, a ≤ position) ∧
    ∃ A, Split x position A (start.tree.toList.drop (k * budget)) := by
  induction h with
  | start =>
    refine ⟨by simp, by simp, [], by simp, by simp, fun c hc => ?_⟩
    rw [zero_mul, drop_zero] at hc
    exact Fin.pos_of_ne_zero fun h => h0 (h ▸ hc)
  | @batch k x position out _ ih =>
    obtain ⟨hout, hle, A, hs⟩ := ih
    rw [batchRecover_eq hs hbudget, Nat.add_mul, one_mul, take_add, ← drop_drop, ← hout]
    generalize start.tree.toList.drop (k * budget) = C at *
    have hsplit := take_append_drop budget C
    rcases eq_nil_or_concat (C.take budget) with hnil | ⟨T, y, hT⟩
    · have hC : C = [] := (take_eq_nil_iff.mp hnil).resolve_left (by omega)
      subst hC
      exact ⟨by simp, by simpa using hle, A, by simpa using hs⟩
    · rw [concat_eq_append] at hT
      rw [hT] at hsplit
      rw [hT, List.getLast?_append_of_ne_nil _ (by simp)]
      have hsorted := x.tree.sorted
      rw [hs.tree, ← hsplit, pairwise_append, pairwise_append] at hsorted
      obtain ⟨-, ⟨htaken, -, hrest⟩, -⟩ := hsorted
      have hy : position < y := hs.ahead y (hsplit ▸ by simp)
      have hlast : ∀ a ∈ T ++ [y], a ≤ y := forall_mem_append.mpr
        ⟨fun a ha => ((pairwise_append.mp htaken).2.2 a ha y (by simp)).le, forall_mem_singleton.mpr le_rfl⟩
      refine ⟨rfl, ?_, A ++ (T ++ [y]), ?_, ?_, fun c hc => hrest y (by simp) c hc⟩
      · exact forall_mem_append.mpr ⟨fun a ha => (hle a ha).trans hy.le, hlast⟩
      · rw [hs.tree, append_assoc, hsplit]
      · refine forall_mem_append.mpr ⟨fun a ha => ⟨(hs.behind a ha).1, (hs.behind a ha).2.trans hy.le⟩, fun a ha => ?_⟩
        exact ⟨((Fin.zero_le _).trans_lt (hs.ahead a (hsplit ▸ mem_append_left _ ha))).ne', hlast a ha⟩
  | @remove k x position out x' inodeId _ hmem htree ih =>
    obtain ⟨hout, hle, A, hs⟩ := ih
    refine ⟨hout, hle, A.filter (· ≠ inodeId), ?_, fun a ha => hs.behind a (mem_of_mem_filter ha), hs.ahead⟩
    rw [htree]
    show x.tree.toList.filter _ = _
    rw [hs.tree, filter_append]
    refine congrArg _ (filter_eq_self.mpr fun c hc => ?_)
    simpa using ((hle inodeId hmem).trans_lt (hs.ahead c hc)).ne'

/-- **The batches return the inodes in order, `budget` at a time, and the last of them is the first
to say that the index is exhausted.** -/
theorem batches_cover : out = start.tree.toList.take (k * budget) ∧
    ((x.batchRecover position budget).2.2 = true ↔ start.tree.toList.length ≤ (k + 1) * budget) := by
  obtain ⟨hout, -, A, hs⟩ := h.inv h0 hbudget
  refine ⟨hout, ?_⟩
  rw [batchRecover_eq hs hbudget, decide_eq_true_iff, length_drop, Nat.add_mul]
  omega

omit h0 hbudget h in
theorem batches_cover_three_inodes :
    let start : OrphanIndex := { OrphanIndex.new with tree := OrdSet.empty.extend [9, 5, 7] }
    (start.batchRecover 0 2).1 = [5, 7] ∧
      ((start.remove 5).1.batchRecover (start.batchRecover 0 2).2.1 2).2.2 = true := by
  intro start
  have hrun : Batches start 2 1 (start.remove 5).1 _ _ := .remove (.batch .start) (by decide +kernel) rfl
  obtain ⟨hout, hexhausted⟩ := batches_cover (by decide +kernel) (by decide) hrun
  exact ⟨hout.trans (by decide +kernel), hexhausted.mpr (by decide +kernel)⟩

end Tidefs.Orphan
