/-
# Gauss–Jordan elimination

Elimination on a square system with the identity written beside it. A step brings a
row with a nonzero entry in the column to its place, scales the entry to one and
clears the rest of the column. No step changes the space the rows span
(`step_mem_iff`). So each row keeps recording how it came from the rows of the system,
and no vector the rows cannot tell from zero is new: if only zero solves the
homogeneous system, a pivot is always found (`exists_pivot`), and in the end the right
half is the inverse (`Reduced.inverse`).

Matrices are functions of two indices, of which the first `n` count.
-/
import Mathlib.Algebra.BigOperators.Ring.Finset
import Mathlib.Algebra.Field.Basic
import Mathlib.LinearAlgebra.Pi

namespace Tidefs.GaussJordan

open Finset

/-! ### Row operations -/

variable {F : Type*}

def swapRows (M : ℕ → ℕ → F) (a b : ℕ) : ℕ → ℕ → F := fun i => if i = a then M b else if i = b then M a else M i

theorem swapRows_swapRows (M : ℕ → ℕ → F) (a b : ℕ) : swapRows (swapRows M a b) a b = M := by
  funext i
  unfold swapRows
  split_ifs <;> simp_all

variable [Field F] {n : ℕ}

def scaleRow (M : ℕ → ℕ → F) (a : ℕ) (s : F) : ℕ → ℕ → F := fun i => if i = a then fun j => M a j * s else M i

/-- Takes row `a` off every other row as often as their entry in column `c` says. -/
def clearColumn (M : ℕ → ℕ → F) (a c : ℕ) : ℕ → ℕ → F := fun i =>
  if i = a then M i else fun j => M i j - M i c * M a j

/-- Eliminates column `c` with row `p`. -/
def step (M : ℕ → ℕ → F) (c p : ℕ) : ℕ → ℕ → F :=
  clearColumn (scaleRow (swapRows M c p) c (M p c)⁻¹) c c

section Span

variable (S : Submodule F (ℕ → F)) {M : ℕ → ℕ → F} {a b c p : ℕ}

theorem swapRows_mem (ha : a < n) (hb : b < n) (h : ∀ i < n, M i ∈ S) : ∀ i < n, swapRows M a b i ∈ S := by
  intro i hi
  unfold swapRows
  split_ifs
  · exact h b hb
  · exact h a ha
  · exact h i hi

theorem swapRows_mem_iff (ha : a < n) (hb : b < n) : (∀ i < n, swapRows M a b i ∈ S) ↔ ∀ i < n, M i ∈ S := by
  refine ⟨fun h => ?_, swapRows_mem S ha hb⟩
  have := swapRows_mem S ha hb h
  rwa [swapRows_swapRows] at this

theorem scaleRow_mem_iff {s : F} (hs : s ≠ 0) : (∀ i < n, scaleRow M a s i ∈ S) ↔ ∀ i < n, M i ∈ S := by
  refine forall₂_congr fun i hi => ?_
  unfold scaleRow
  by_cases hia : i = a
  · have hrow : (fun j => M a j * s) = s • M a := by
      funext j
      exact mul_comm _ _
    rw [if_pos hia, hia, hrow, S.smul_mem_iff hs]
  · rw [if_neg hia]

theorem clearColumn_mem_iff (ha : a < n) : (∀ i < n, clearColumn M a c i ∈ S) ↔ ∀ i < n, M i ∈ S := by
  have hrow : ∀ i, i ≠ a → clearColumn M a c i = M i - M i c • M a := fun i hi => if_neg hi
  have hself : clearColumn M a c a = M a := if_pos rfl
  constructor
  · intro h i hi
    have hMa : M a ∈ S := hself ▸ h a ha
    by_cases hia : i = a
    · rw [hia]
      exact hMa
    · have := S.add_mem (hrow i hia ▸ h i hi) (S.smul_mem (M i c) hMa)
      rwa [sub_add_cancel] at this
  · intro h i hi
    by_cases hia : i = a
    · rw [hia, hself]
      exact h a ha
    · rw [hrow i hia]
      exact S.sub_mem (h i hi) (S.smul_mem _ (h a ha))

/-- **A step leaves the span of the rows as it is.** -/
theorem step_mem_iff (hc : c < n) (hp : p < n) (hpc : M p c ≠ 0) : (∀ i < n, step M c p i ∈ S) ↔ ∀ i < n, M i ∈ S := by
  rw [step, clearColumn_mem_iff S hc, scaleRow_mem_iff S (inv_ne_zero hpc), swapRows_mem_iff S hc hp]

end Span

/-! ### The state of the elimination -/

/-- The system with the identity beside it. -/
def augment (n : ℕ) (A : ℕ → ℕ → F) : ℕ → ℕ → F := fun i j =>
  if j < n then A i j else if j = n + i then 1 else 0

/-- Only zero solves the homogeneous system. -/
def Regular (n : ℕ) (A : ℕ → ℕ → F) : Prop :=
  ∀ v : ℕ → F, (∀ i < n, ∑ j ∈ range n, A i j * v j = 0) → ∀ j < n, v j = 0

/-- The columns before `c` are eliminated, and the rows span what they did. -/
structure Reduced (n : ℕ) (A M : ℕ → ℕ → F) (c : ℕ) : Prop where
  span : ∀ S : Submodule F (ℕ → F), (∀ i < n, M i ∈ S) ↔ ∀ i < n, augment n A i ∈ S
  unit : ∀ j < c, ∀ i < n, M i j = if i = j then 1 else 0

variable {A M : ℕ → ℕ → F} {c p : ℕ}

theorem Reduced.step (h : Reduced n A M c) (hcp : c ≤ p) (hp : p < n) (hpc : M p c ≠ 0) :
    Reduced n A (step M c p) (c + 1) := by
  have hc : c < n := lt_of_le_of_lt hcp hp
  refine ⟨fun S => (step_mem_iff S hc hp hpc).trans (h.span S), fun j hj i hi => ?_⟩
  -- the pivot row after scaling
  have hpivot : ∀ j, GaussJordan.step M c p c j = M p j * (M p c)⁻¹ := fun j => by
    unfold GaussJordan.step clearColumn scaleRow swapRows
    rw [if_pos rfl, if_pos rfl, if_pos rfl]
  by_cases hjc : j = c
  · subst hjc
    by_cases hij : i = j
    · rw [hij, if_pos rfl, hpivot, mul_inv_cancel₀ hpc]
    · rw [if_neg hij]
      unfold GaussJordan.step clearColumn scaleRow
      rw [if_neg hij, if_pos rfl, if_neg hij]
      unfold swapRows
      rw [if_pos rfl, mul_inv_cancel₀ hpc, mul_one, sub_self]
  · have hjc' : j < c := by omega
    have hzero : M p j = 0 := by rw [h.unit j hjc' p hp, if_neg (by omega)]
    by_cases hic : i = c
    · rw [hic, hpivot, hzero, zero_mul, if_neg (by omega)]
    · have hswap : swapRows M c p i j = if i = j then 1 else 0 := by
        unfold swapRows
        rw [if_neg hic]
        by_cases hip : i = p
        · rw [if_pos hip, h.unit j hjc' c hc, if_neg (by omega), if_neg (by omega)]
        · rw [if_neg hip, h.unit j hjc' i hi]
      unfold GaussJordan.step clearColumn scaleRow
      rw [if_neg hic, if_pos rfl, if_neg hic, hswap]
      unfold swapRows
      rw [if_pos rfl, hzero, zero_mul, mul_zero, sub_zero]

/-! ### What the rows say -/

/-- Rows whose right half says how they came from the rows of the system. -/
def recorded (n : ℕ) (A : ℕ → ℕ → F) : Submodule F (ℕ → F) where
  carrier := {r | ∀ j < n, r j = ∑ l ∈ range n, r (n + l) * A l j}
  add_mem' := by
    intro r s hr hs j hj
    simp only [Pi.add_apply, add_mul, sum_add_distrib]
    rw [← hr j hj, ← hs j hj]
  zero_mem' := by
    intro j _
    simp
  smul_mem' := by
    intro x r hr j hj
    simp only [Pi.smul_apply, smul_eq_mul, mul_assoc, ← mul_sum]
    rw [← hr j hj]

/-- Rows a vector solves. -/
def solvedBy (n : ℕ) (v : ℕ → F) : Submodule F (ℕ → F) where
  carrier := {r | ∑ j ∈ range n, r j * v j = 0}
  add_mem' := by
    intro r s hr hs
    show ∑ j ∈ range n, (r j + s j) * v j = 0
    simp only [add_mul, sum_add_distrib]
    rw [show ∑ j ∈ range n, r j * v j = 0 from hr, show ∑ j ∈ range n, s j * v j = 0 from hs, add_zero]
  zero_mem' := by
    show ∑ j ∈ range n, (0 : F) * v j = 0
    simp
  smul_mem' := by
    intro x r hr
    show ∑ j ∈ range n, x * r j * v j = 0
    simp only [mul_assoc, ← mul_sum]
    rw [show ∑ j ∈ range n, r j * v j = 0 from hr, mul_zero]

theorem augment_recorded (A : ℕ → ℕ → F) : ∀ i < n, augment n A i ∈ recorded n A := by
  intro i hi j hj
  have hterm : ∀ l ∈ range n, augment n A i (n + l) * A l j = if l = i then A i j else 0 := fun l _ => by
    by_cases hl : l = i
    · simp [augment, hl]
    · simp [augment, hl]
  rw [sum_congr rfl hterm, sum_ite_eq', if_pos (mem_range.mpr hi)]
  exact if_pos hj

theorem augment_solvedBy {v : ℕ → F} : (∀ i < n, augment n A i ∈ solvedBy n v) ↔
    ∀ i < n, ∑ j ∈ range n, A i j * v j = 0 := by
  refine forall₂_congr fun i hi => ?_
  have hterm : ∑ j ∈ range n, augment n A i j * v j = ∑ j ∈ range n, A i j * v j :=
    sum_congr rfl fun j hj => by rw [augment, if_pos (mem_range.mp hj)]
  exact Eq.congr hterm rfl

/-- **A pivot is always found**: otherwise the column is made of those before it, which
gives a solution that is not zero. -/
theorem exists_pivot (h : Reduced n A M c) (hA : Regular n A) (hc : c < n) : ∃ p, c ≤ p ∧ p < n ∧ M p c ≠ 0 := by
  by_contra hnone
  have hzero : ∀ i, c ≤ i → i < n → M i c = 0 := fun i h1 h2 => by
    by_contra hne
    exact hnone ⟨i, h1, h2, hne⟩
  -- the solution
  have hsolved : ∀ i < n, M i ∈ solvedBy n fun j => if j < c then M j c else if j = c then -1 else 0 := by
    intro i hi
    show ∑ j ∈ range n, M i j * (if j < c then M j c else if j = c then -1 else 0) = 0
    have hterm : ∀ j ∈ range n, M i j * (if j < c then M j c else if j = c then -1 else 0) =
        (if j = i then (if i < c then M i c else 0) else 0) + if j = c then -M i c else 0 := by
      intro j hj
      by_cases hjc : j < c
      · rw [if_pos hjc, h.unit j hjc i hi, if_neg hjc.ne, add_zero]
        by_cases hij : i = j
        · rw [if_pos hij, if_pos hij.symm, hij, if_pos hjc, one_mul]
        · rw [if_neg hij, if_neg (Ne.symm hij), zero_mul]
      · have hfirst : (if j = i then (if i < c then M i c else 0) else 0) = 0 :=
          ite_eq_right_iff.mpr fun hji => if_neg (hji ▸ hjc)
        rw [if_neg hjc, hfirst, zero_add]
        by_cases hjc' : j = c
        · rw [if_pos hjc', if_pos hjc', hjc', mul_neg, mul_one]
        · rw [if_neg hjc', if_neg hjc', mul_zero]
    rw [sum_congr rfl hterm, sum_add_distrib, sum_ite_eq', sum_ite_eq', if_pos (mem_range.mpr hi),
      if_pos (mem_range.mpr hc)]
    by_cases hic : i < c
    · rw [if_pos hic, add_neg_cancel]
    · rw [if_neg hic, hzero i (not_lt.mp hic) hi, neg_zero, add_zero]
  have hv := hA _ (augment_solvedBy.mp ((h.span _).mp hsolved)) c hc
  rw [if_neg (lt_irrefl c), if_pos rfl, neg_eq_zero] at hv
  exact one_ne_zero hv

/-- **In the end the right half is a left inverse of the system.** -/
theorem Reduced.inverse (h : Reduced n A M n) {i j : ℕ} (hi : i < n) (hj : j < n) :
    ∑ l ∈ range n, M i (n + l) * A l j = if i = j then 1 else 0 := by
  rw [← h.unit j hj i hi]
  exact ((h.span (recorded n A)).mpr (augment_recorded A) i hi j hj).symm

/-- A left inverse recovers a vector from its image. -/
theorem solve {B : ℕ → ℕ → F}
    (hB : ∀ i < n, ∀ j < n, ∑ l ∈ range n, B i l * A l j = if i = j then 1 else 0) (x : ℕ → F) {i : ℕ} (hi : i < n) :
    ∑ l ∈ range n, B i l * ∑ j ∈ range n, A l j * x j = x i := by
  calc ∑ l ∈ range n, B i l * ∑ j ∈ range n, A l j * x j
      = ∑ l ∈ range n, ∑ j ∈ range n, B i l * A l j * x j := by simp only [mul_sum, mul_assoc]
    _ = ∑ j ∈ range n, (∑ l ∈ range n, B i l * A l j) * x j := by rw [sum_comm]; simp only [sum_mul]
    _ = ∑ j ∈ range n, if j = i then x i else 0 := by
        refine sum_congr rfl fun j hj => ?_
        rw [hB i hi j (mem_range.mp hj)]
        by_cases hij : i = j
        · simp [hij]
        · simp [hij, Ne.symm hij]
    _ = x i := by rw [sum_ite_eq', if_pos (mem_range.mpr hi)]

end Tidefs.GaussJordan
