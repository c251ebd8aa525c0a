/-
# Cauchy matrices

The matrix of `1 / (x - y)` for points `x` and `y` apart is regular: a combination of
its columns that vanishes at as many points as there are columns is, up to the common
denominator, a polynomial of too small a degree to vanish there.
-/
import Mathlib.LinearAlgebra.Lagrange

namespace Tidefs.Cauchy

open Finset Polynomial Lagrange

variable {F ι : Type*} [Field F] [DecidableEq ι]

/-- The numerator of the combination of `1 / (X - y j)` with coefficients `v`. -/
noncomputable def numerator (s : Finset ι) (y v : ι → F) : F[X] := ∑ j ∈ s, C (v j) * nodal (s.erase j) y

variable {s : Finset ι} {y v : ι → F}

theorem degree_numerator_lt (s : Finset ι) (y v : ι → F) : (numerator s y v).degree < #s := by
  rw [← mem_degreeLT]
  refine Submodule.sum_mem _ fun j hj => ?_
  rw [← smul_eq_C_mul]
  refine Submodule.smul_mem _ _ (mem_degreeLT.mpr ?_)
  rw [degree_nodal, card_erase_of_mem hj]
  exact_mod_cast Nat.sub_lt (card_pos.mpr ⟨j, hj⟩) one_pos

theorem eval_numerator {x : F} (hx : ∀ j ∈ s, x ≠ y j) :
    (numerator s y v).eval x = (∑ j ∈ s, v j * (x - y j)⁻¹) * (nodal s y).eval x := by
  rw [numerator, eval_finsetSum, sum_mul]
  refine sum_congr rfl fun j hj => ?_
  have hne : x - y j ≠ 0 := sub_ne_zero.mpr (hx j hj)
  rw [nodal_eq_mul_nodal_erase hj, eval_mul, eval_mul, eval_C, eval_sub, eval_X, eval_C, mul_assoc,
    inv_mul_cancel_left₀ hne]

theorem eval_numerator_node {j : ι} (hj : j ∈ s) :
    (numerator s y v).eval (y j) = v j * ∏ l ∈ s.erase j, (y j - y l) := by
  rw [numerator, eval_finsetSum, sum_eq_single_of_mem j hj]
  · rw [eval_mul, eval_C, eval_nodal]
  · intro i hi hij
    rw [eval_mul, eval_nodal_at_node (mem_erase.mpr ⟨hij.symm, hj⟩), mul_zero]

/-- **A Cauchy matrix is regular.** -/
theorem cauchy_eq_zero (hy : Set.InjOn y s) {t : Finset F} (hcard : #s ≤ #t) (hxy : ∀ x ∈ t, ∀ j ∈ s, x ≠ y j)
    (h : ∀ x ∈ t, ∑ j ∈ s, v j * (x - y j)⁻¹ = 0) {j : ι} (hj : j ∈ s) : v j = 0 := by
  have hzero : numerator s y v = 0 := by
    refine eq_zero_of_degree_lt_of_eval_finset_eq_zero t ?_ fun x hx => ?_
    · exact lt_of_lt_of_le (degree_numerator_lt s y v) (by exact_mod_cast hcard)
    · rw [eval_numerator (hxy x hx), h x hx, zero_mul]
  have hnode := eval_numerator_node (y := y) (v := v) hj
  rw [hzero, eval_zero] at hnode
  refine (mul_eq_zero.mp hnode.symm).resolve_right (prod_ne_zero_iff.mpr fun l hl => ?_)
  obtain ⟨hlj, hls⟩ := mem_erase.mp hl
  exact sub_ne_zero.mpr fun he => hlj (hy hls hj he.symm)

end Tidefs.Cauchy
