/-
# Ranges of numbers, and who holds them

A range is a start and a length. A list of ranges is gapped if none is empty and a gap
follows each; an interval all of whose numbers are covered then lies in one of them
(`Gapped.interval`). A table of ranges is apart if no number is in two of them; it stays
so when one range gives way to a part of it or is dropped, or a range of numbers nobody
owns is added (`Apart.shrink`, `Apart.erase`, `Apart.add`).
-/
import Tidefs.Lib.Ordered

namespace Tidefs.Ranges

open Ordered List Option OrdMap

/-- The number is in the range. -/
def Holds (r : ℕ × ℕ) (b : ℕ) : Prop := r.1 ≤ b ∧ b < r.1 + r.2

instance (r : ℕ × ℕ) (b : ℕ) : Decidable (Holds r b) := inferInstanceAs (Decidable (_ ∧ _))

/-! ### Lists of ranges -/

/-- The number is in a range of the list. -/
def Covered (rs : List (ℕ × ℕ)) (b : ℕ) : Prop := ∃ r ∈ rs, Holds r b

/-- No range is empty, and a gap follows each. -/
structure Gapped (rs : List (ℕ × ℕ)) : Prop where
  pos : ∀ r ∈ rs, 0 < r.2
  gaps : rs.Pairwise fun a b => a.1 + a.2 < b.1

variable {r : ℕ × ℕ} {rs rs' : List (ℕ × ℕ)} {b : ℕ}

theorem covered_cons : Covered (r :: rs) b ↔ Holds r b ∨ Covered rs b := by simp [Covered]

theorem Gapped.cons_iff : Gapped (r :: rs) ↔ 0 < r.2 ∧ Gapped rs ∧ ∀ x ∈ rs, r.1 + r.2 < x.1 := by
  constructor
  · rintro ⟨h1, h2⟩
    rw [forall_mem_cons] at h1
    rw [pairwise_cons] at h2
    exact ⟨h1.1, ⟨h1.2, h2.2⟩, h2.1⟩
  · rintro ⟨h1, ⟨h2, h3⟩, h4⟩
    exact ⟨forall_mem_cons.mpr ⟨h1, h2⟩, pairwise_cons.mpr ⟨h4, h3⟩⟩

theorem Gapped.append_iff : Gapped (rs ++ rs') ↔ Gapped rs ∧ Gapped rs' ∧ ∀ x ∈ rs, ∀ y ∈ rs', x.1 + x.2 < y.1 := by
  constructor
  · rintro ⟨h1, h2⟩
    rw [forall_mem_append] at h1
    rw [pairwise_append] at h2
    exact ⟨⟨h1.1, h2.1⟩, ⟨h1.2, h2.2.1⟩, h2.2.2⟩
  · rintro ⟨⟨h1, h2⟩, ⟨h3, h4⟩, h5⟩
    exact ⟨forall_mem_append.mpr ⟨h1, h3⟩, pairwise_append.mpr ⟨h2, h4, h5⟩⟩

/-- The number where a range ends is in the gap behind it. -/
theorem Gapped.not_covered_end (h : Gapped rs) (hr : r ∈ rs) : ¬ Covered rs (r.1 + r.2) := by
  obtain ⟨A, C, rfl⟩ := mem_iff_append.mp hr
  obtain ⟨-, h2, h3⟩ := Gapped.append_iff.mp h
  obtain ⟨-, -, h4⟩ := Gapped.cons_iff.mp h2
  rintro ⟨x, hx, hx1, hx2⟩
  rcases mem_append.mp hx with hx | hx
  · have := h3 x hx r (mem_cons_self ..)
    omega
  · rcases mem_cons.mp hx with rfl | hx
    · omega
    · have := h4 x hx
      omega

/-- **An interval that is covered lies in one range.** -/
theorem Gapped.interval (h : Gapped rs) {a c : ℕ} (hac : a < c) (hcov : ∀ b, a ≤ b → b < c → Covered rs b) :
    ∃ r ∈ rs, r.1 ≤ a ∧ c ≤ r.1 + r.2 := by
  obtain ⟨r, hr, h1, h2⟩ := hcov a le_rfl hac
  refine ⟨r, hr, h1, ?_⟩
  by_contra hlt
  exact h.not_covered_end hr (hcov _ h2.le (not_le.mp hlt))

/-! ### Tables of ranges -/

variable {κ : Type*} [LinearOrder κ] {t : OrdMap κ (ℕ × ℕ)} {k : κ} {r' : ℕ × ℕ}

def Owned (t : OrdMap κ (ℕ × ℕ)) (b : ℕ) : Prop := ∃ k r, t.get? k = some r ∧ Holds r b

/-- No number is held twice. -/
def Apart (t : OrdMap κ (ℕ × ℕ)) : Prop :=
  ∀ k k' r r', t.get? k = some r → t.get? k' = some r' → k ≠ k' → ∀ b, Holds r b → ¬ Holds r' b

theorem apart_empty : Apart (empty : OrdMap κ (ℕ × ℕ)) := fun _ _ _ _ h => nomatch h

theorem not_owned_empty : ¬ Owned (empty : OrdMap κ (ℕ × ℕ)) b := fun ⟨_, _, h, _⟩ => nomatch h

theorem Apart.owned_ne (h : Apart t) (hk : t.get? k = some r) :
    (∃ k' x, k' ≠ k ∧ t.get? k' = some x ∧ Holds x b) ↔ Owned t b ∧ ¬ Holds r b := by
  constructor
  · rintro ⟨k', x, hne, h1, h2⟩
    exact ⟨⟨k', x, h1, h2⟩, h k' k x r h1 hk hne b h2⟩
  · rintro ⟨⟨k', x, h1, h2⟩, h3⟩
    refine ⟨k', x, ?_, h1, h2⟩
    rintro rfl
    rw [hk] at h1
    exact h3 (some.inj h1 ▸ h2)

theorem owned_erase : Owned (t.erase k) b ↔ ∃ k' x, k' ≠ k ∧ t.get? k' = some x ∧ Holds x b := by
  refine exists₂_congr fun k' x => ?_
  rw [get?_erase]
  by_cases hk : k' = k
  · simp [hk]
  · simp [hk]

theorem owned_insert : Owned (t.insert k r) b ↔ Holds r b ∨ ∃ k' x, k' ≠ k ∧ t.get? k' = some x ∧ Holds x b := by
  constructor
  · rintro ⟨k', x, h1, h2⟩
    rw [get?_insert] at h1
    split_ifs at h1 with hk
    · exact Or.inl (some.inj h1 ▸ h2)
    · exact Or.inr ⟨k', x, hk, h1, h2⟩
  · rintro (h | ⟨k', x, hk, h1, h2⟩)
    · exact ⟨k, r, by rw [get?_insert, if_pos rfl], h⟩
    · exact ⟨k', x, by rw [get?_insert, if_neg hk, h1], h2⟩

theorem Apart.erase (h : Apart t) (k : κ) : Apart (t.erase k) := by
  intro k₁ k₂ r₁ r₂ h1 h2
  rw [get?_erase] at h1 h2
  split_ifs at h1 h2
  exact h k₁ k₂ r₁ r₂ h1 h2

/-- A range put in place of another keeps the table apart if the others do not meet it. -/
theorem Apart.insert (h : Apart t)
    (hr : ∀ b, Holds r b → ¬ ∃ k' x, k' ≠ k ∧ t.get? k' = some x ∧ Holds x b) : Apart (t.insert k r) := by
  intro k₁ k₂ r₁ r₂ h1 h2 hne b hb1 hb2
  rw [get?_insert] at h1 h2
  split_ifs at h1 h2 with hk1 hk2 hk2
  · exact hne (hk1.trans hk2.symm)
  · exact hr b (some.inj h1 ▸ hb1) ⟨k₂, r₂, hk2, h2, hb2⟩
  · exact hr b (some.inj h2 ▸ hb2) ⟨k₁, r₁, hk1, h1, hb1⟩
  · exact h k₁ k₂ r₁ r₂ h1 h2 hne b hb1 hb2

/-- **A range gives way to a part of it.** -/
theorem Apart.shrink (h : Apart t) (hk : t.get? k = some r) (hsub : ∀ b, Holds r' b → Holds r b) :
    Apart (t.insert k r') ∧ ∀ b, Owned (t.insert k r') b ↔ Holds r' b ∨ Owned t b ∧ ¬ Holds r b := by
  refine ⟨h.insert fun b hb hother => ?_, fun b => ?_⟩
  · exact ((h.owned_ne hk).mp hother).2 (hsub b hb)
  · rw [owned_insert, h.owned_ne hk]

/-- **A range nobody owns is added.** -/
theorem Apart.add (h : Apart t) (hk : t.get? k = none) (hfree : ∀ b, Holds r b → ¬ Owned t b) :
    Apart (t.insert k r) ∧ ∀ b, Owned (t.insert k r) b ↔ Holds r b ∨ Owned t b := by
  have hothers : ∀ b, (∃ k' x, k' ≠ k ∧ t.get? k' = some x ∧ Holds x b) ↔ Owned t b := fun b => by
    constructor
    · rintro ⟨k', x, -, h1, h2⟩
      exact ⟨k', x, h1, h2⟩
    · rintro ⟨k', x, h1, h2⟩
      refine ⟨k', x, ?_, h1, h2⟩
      rintro rfl
      exact nomatch hk.symm.trans h1
  refine ⟨h.insert fun b hb hother => hfree b hb ((hothers b).mp hother), fun b => ?_⟩
  rw [owned_insert, hothers]

end Tidefs.Ranges
