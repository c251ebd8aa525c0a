/-
# Where extents come from

Every extent after an operation is a piece of one that was there before, or of one the
operation brings with it: offset and length change, kind, locator, checksum and the
rest do not. So a property of extents that does not depend on where they lie, once it
holds of what is brought in, holds of all extents after the operation (`Kept`).
-/
import Tidefs.ExtentMap.Pieces

namespace Tidefs.ExtentMap

open Word Spans Spans.HasSpan ExtentMapEntryV2 List

/-- The property does not depend on where the extent lies. -/
def Fixed (Q : ExtentMapEntryV2 → Prop) : Prop :=
  ∀ e offset length, Q e → Q { e with logicalOffset := offset, length := length }

/-- The extents are pieces of those before and of the new ones. -/
def Kept (es new es' : List ExtentMapEntryV2) : Prop :=
  ∀ ⦃Q⦄, Fixed Q → (∀ e ∈ es, Q e) → (∀ e ∈ new, Q e) → ∀ e ∈ es', Q e

variable {Q : ExtentMapEntryV2 → Prop} {es new : List ExtentMapEntryV2} {e : ExtentMapEntryV2}

/-! ### Lists of extents -/

theorem within_kept (hQ : Fixed Q) (h : Q e) (start stop : ℕ) : Q (e.within start stop) := hQ e _ _ h

theorem existingFragment_kept (hQ : Fixed Q) (h : Q e) (start stop : ℕ) : ∀ x ∈ existingFragment e start stop, Q x := by
  intro x hx
  unfold existingFragment at hx
  split_ifs at hx
  · exact absurd hx (by simp)
  · rw [mem_singleton.mp hx]
    exact within_kept hQ h start stop

theorem mergeLoop_kept (hQ : Fixed Q) : ∀ {es : List ExtentMapEntryV2} {last : ExtentMapEntryV2}, Q last →
    (∀ e ∈ es, Q e) → ∀ x ∈ mergeLoop last es, Q x
  | [], last, hl, _, x, hx => by
    rw [mem_singleton.mp hx]
    exact hl
  | e :: es, last, hl, hes, x, hx => by
    obtain ⟨he, hes'⟩ := forall_mem_cons.mp hes
    rw [mergeLoop] at hx
    split_ifs at hx
    · exact mergeLoop_kept hQ (hQ last _ _ hl) hes' x hx
    · rcases mem_cons.mp hx with rfl | hx
      · exact hl
      · exact mergeLoop_kept hQ he hes' x hx

theorem mergeAdjacent_kept (hQ : Fixed Q) : ∀ {es : List ExtentMapEntryV2}, (∀ e ∈ es, Q e) →
    ∀ x ∈ mergeAdjacent es, Q x
  | [], h => h
  | _ :: _, h => mergeLoop_kept hQ (forall_mem_cons.mp h).1 (forall_mem_cons.mp h).2

theorem pushBefore_kept (start : ℕ) : ∀ {new : List ExtentMapEntryV2} (covered : ℕ), (∀ n ∈ new, Q n) →
    (∀ x ∈ (pushBefore start new covered).pushed, Q x) ∧ ∀ x ∈ (pushBefore start new covered).rest, Q x
  | [], _, h => ⟨h, h⟩
  | n :: new, covered, h => by
    obtain ⟨hn, hnew⟩ := forall_mem_cons.mp h
    rw [pushBefore]
    split_ifs
    · obtain ⟨h1, h2⟩ := pushBefore_kept start (max covered n.endOffset) hnew
      exact ⟨forall_mem_cons.mpr ⟨hn, h1⟩, h2⟩
    · exact ⟨by simp, h⟩

theorem pushOver_kept (hQ : Fixed Q) (he : Q e) : ∀ {new : List ExtentMapEntryV2} (covered start : ℕ),
    (∀ n ∈ new, Q n) →
    (∀ x ∈ (pushOver e new covered start).pushed, Q x) ∧ ∀ x ∈ (pushOver e new covered start).rest, Q x
  | [], _, start, h => ⟨existingFragment_kept hQ he start _, h⟩
  | n :: new, covered, start, h => by
    obtain ⟨hn, hnew⟩ := forall_mem_cons.mp h
    have hfront := existingFragment_kept hQ he start n.logicalOffset
    rw [pushOver]
    split_ifs
    · exact ⟨forall_mem_append.mpr ⟨hfront, forall_mem_cons.mpr ⟨hn, existingFragment_kept hQ he _ _⟩⟩, hnew⟩
    · obtain ⟨h1, h2⟩ := pushOver_kept hQ he (max covered n.endOffset) (max start n.endOffset) hnew
      exact ⟨forall_mem_append.mpr ⟨hfront, forall_mem_cons.mpr ⟨hn, h1⟩⟩, h2⟩
    · exact ⟨existingFragment_kept hQ he _ _, h⟩

theorem applyInserts_kept (hQ : Fixed Q) : ∀ {es new : List ExtentMapEntryV2} (covered : ℕ), (∀ e ∈ es, Q e) →
    (∀ n ∈ new, Q n) → ∀ x ∈ applyInserts es new covered, Q x
  | [], _, _, _, hnew => hnew
  | e :: es, new, covered, hes, hnew => by
    obtain ⟨he, hes'⟩ := forall_mem_cons.mp hes
    obtain ⟨h1, h2⟩ := pushBefore_kept e.logicalOffset covered hnew
    obtain ⟨h3, h4⟩ := pushOver_kept hQ he (pushBefore e.logicalOffset new covered).coveredUntil
      (max e.logicalOffset (pushBefore e.logicalOffset new covered).coveredUntil) h2
    rw [applyInserts]
    exact forall_mem_append.mpr
      ⟨forall_mem_append.mpr ⟨h1, h3⟩, applyInserts_kept hQ _ hes' h4⟩

theorem sortByOffset_kept (h : ∀ e ∈ es, Q e) : ∀ x ∈ sortByOffset es, Q x := fun x hx =>
  h x ((perm_insertionSort _ _).mem_iff.mp hx)

theorem inserted_kept : Kept es new (inserted es new) := fun _ hQ hes hnew =>
  mergeAdjacent_kept hQ fun x hx => applyInserts_kept hQ 0 hes (sortByOffset_kept hnew) x (mem_of_mem_filter hx)

theorem fragments_kept (a b c d : ExtentMapEntryV2 → ℕ) :
    Kept es [] (es.flatMap fun e => existingFragment e (a e) (b e) ++ existingFragment e (c e) (d e)) := by
  intro Q hQ hes _ x hx
  obtain ⟨e, he, hx⟩ := mem_flatMap.mp hx
  rcases mem_append.mp hx with hx | hx
  · exact existingFragment_kept hQ (hes e he) _ _ x hx
  · exact existingFragment_kept hQ (hes e he) _ _ x hx

theorem truncated_kept (n : ℕ) : Kept es [] (truncated es n) := by
  intro Q hQ hes _ x hx
  obtain ⟨e, he, rfl⟩ := mem_map.mp hx
  have hq := hes e (mem_of_mem_filter he)
  split_ifs
  · exact within_kept hQ hq _ _
  · exact hq

theorem punched_kept (h : Layout es) {offset stop : ℕ} (hos : offset < stop) : Kept es [] (punched es offset stop) := by
  rw [punched_eq h hos]
  exact fragments_kept _ _ _ _

theorem collapsed_kept (h : Layout es) (offset length : ℕ) :
    Kept es [] (mergeAdjacent (collapsed es offset length)) := fun _ hQ hes hnew => by
  rw [collapsed_eq h]
  exact mergeAdjacent_kept hQ (fragments_kept _ _ _ _ hQ hes hnew)

theorem converted_kept {data : ExtentMapEntryV2} (he : e ∈ es) (offset stop : ℕ) :
    Kept es [data] (converted es e data offset stop) := by
  intro Q hQ hes hd
  have hif : ∀ (p : Prop) [Decidable p] (a b : ℕ), ∀ x ∈ (if p then [e.within a b] else []), Q x := by
    intro p _ a b x hx
    split_ifs at hx
    · rw [mem_singleton.mp hx]
      exact within_kept hQ (hes e he) a b
    · exact absurd hx (by simp)
  unfold converted
  exact forall_mem_append.mpr ⟨forall_mem_append.mpr ⟨forall_mem_append.mpr
    ⟨forall_mem_append.mpr ⟨fun x hx => hes x (mem_of_mem_filter hx), hif _ _ _⟩, hd⟩, hif _ _ _⟩,
    fun x hx => hes x (mem_of_mem_filter hx)⟩

end Tidefs.ExtentMap
