/-
# Machine words over the naturals

Unsigned words are naturals; where a width matters, the operation that wraps,
saturates or truncates is applied by name.
-/
import Mathlib

namespace Tidefs.Word

/-- The greatest 64-bit word. -/
def u64Max : ℕ := 2 ^ 64 - 1

/-- Addition that stops at the greatest 64-bit word. -/
def satAdd (a b : ℕ) : ℕ := min (a + b) u64Max

/-- A 64-bit result that wraps around. -/
def wrap64 (a : ℕ) : ℕ := a % 2 ^ 64

/-- Subtraction that wraps around. -/
def wrapSub (a b : ℕ) : ℕ := (a + 2 ^ 64 - b) % 2 ^ 64

/-- The low 32 bits. -/
def asU32 (a : ℕ) : ℕ := a % 2 ^ 32

/-- Division rounded up. -/
def divCeil (a b : ℕ) : ℕ := (a + b - 1) / b

theorem divCeil_le_iff {a b c : ℕ} (hb : 0 < b) : divCeil a b ≤ c ↔ a ≤ c * b := by
  unfold divCeil
  rw [Nat.div_le_iff_le_mul_add_pred hb]
  constructor
  · intro h
    have : b * c = c * b := mul_comm b c
    omega
  · intro h
    have : b * c = c * b := mul_comm b c
    omega

theorem lt_divCeil_iff {a b c : ℕ} (hb : 0 < b) : c < divCeil a b ↔ c * b < a := by
  rw [← not_le, divCeil_le_iff hb, not_le]

theorem wrapSub_of_le {a b : ℕ} (hb : b ≤ a) (ha : a ≤ u64Max) : wrapSub a b = a - b := by
  unfold wrapSub u64Max at *
  omega

/-- A maximum kept over a list is no less than where it started and than any element. -/
theorem le_foldl_max {α : Type*} (f : α → ℕ) : ∀ (l : List α) (a : ℕ),
    a ≤ l.foldl (fun n x => max n (f x)) a ∧ ∀ x ∈ l, f x ≤ l.foldl (fun n x => max n (f x)) a
  | [], _ => ⟨le_rfl, by simp⟩
  | x :: l, a => by
    obtain ⟨h1, h2⟩ := le_foldl_max f l (max a (f x))
    exact ⟨(le_max_left ..).trans h1, List.forall_mem_cons.mpr ⟨(le_max_right ..).trans h1, h2⟩⟩

end Tidefs.Word
