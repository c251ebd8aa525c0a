/-
# Merging into the last element

A list is walked once. Each element is merged into the one kept last where the two can be
merged, and is kept after it otherwise. Elements that keep apart still do
(`pairwise_coalesce`).
-/
import Mathlib

namespace Tidefs.Coalesce

open List

variable {α : Type*} (merge : α → α → Option α)

/-- One more element; the one kept last is the head. -/
def push (kept : List α) (a : α) : List α :=
  match kept with
  | [] => [a]
  | last :: rest =>
    match merge last a with
    | some both => both :: rest
    | none => a :: last :: rest

def coalesce (l : List α) : List α := (l.foldl (push merge) []).reverse

variable {merge}

theorem push_cases (kept : List α) (a : α) : push merge kept a = a :: kept ∨
      ∃ last rest both, kept = last :: rest ∧ merge last a = some both ∧ push merge kept a = both :: rest := by
  cases kept with
  | nil => exact Or.inl rfl
  | cons last rest =>
    cases hmerge : merge last a with
    | none =>
      left
      simp only [push, hmerge]
    | some both =>
      right
      refine ⟨last, rest, both, rfl, hmerge, ?_⟩
      simp only [push, hmerge]

section Pairwise

variable {R : α → α → Prop} (hR : ∀ {a b}, R a b → R b a) (hmerged : ∀ {a b c x}, merge a b = some c → R a x → R b x → R c x)

include hR hmerged

/-- The elements kept and those to come keep apart. -/
theorem pairwise_push {kept : List α} {a : α} {l : List α} (h : (kept ++ a :: l).Pairwise R) :
    (push merge kept a ++ l).Pairwise R := by
  have hfront : (a :: (kept ++ l)).Pairwise R := (perm_middle.pairwise_iff hR).mp h
  rcases push_cases kept a with hpush | ⟨last, rest, both, rfl, hmerge, hpush⟩
  · rw [hpush]
    exact hfront
  · rw [hpush]
    obtain ⟨hnew, hkept⟩ := pairwise_cons.mp hfront
    obtain ⟨hlast, hrest⟩ := pairwise_cons.mp hkept
    apply pairwise_cons.mpr
    refine ⟨fun x hx => ?_, hrest⟩
    exact hmerged hmerge (hlast x hx) (hnew x (mem_cons_of_mem _ hx))

theorem pairwise_foldl_push (l : List α) : ∀ kept : List α, (kept ++ l).Pairwise R →
    (l.foldl (push merge) kept).Pairwise R := by
  induction l with
  | nil => simp
  | cons a l ih =>
    intro kept h
    exact ih _ (pairwise_push hR hmerged h)

/-- **Elements that keep apart still do.** -/
theorem pairwise_coalesce {l : List α} (h : l.Pairwise R) : (coalesce merge l).Pairwise R := by
  have hfold := pairwise_foldl_push hR hmerged l [] h
  exact pairwise_reverse.mpr (hfold.imp hR)

end Pairwise

section Any

variable {p : α → Bool} (hmerged : ∀ {a b both}, merge a b = some both → p both = (p a || p b))
include hmerged

theorem any_foldl_push : ∀ l kept : List α, (l.foldl (push merge) kept).any p = (kept.any p || l.any p)
  | [], kept => by simp
  | a :: l, kept => by
    rw [foldl_cons, any_foldl_push l, any_cons, ← Bool.or_assoc]
    congr 1
    rcases push_cases kept a with hpush | ⟨last, rest, both, rfl, hmerge, hpush⟩
    · rw [hpush, any_cons, Bool.or_comm]
    · rw [hpush, any_cons, any_cons, hmerged hmerge, Bool.or_assoc, Bool.or_assoc, Bool.or_comm (p a)]

/-- **What holds of a merged element if it holds of either** holds somewhere if it did before. -/
theorem any_coalesce (l : List α) : (coalesce merge l).any p = l.any p := by
  rw [coalesce, any_reverse, any_foldl_push hmerged]
  rfl

end Any

end Tidefs.Coalesce
