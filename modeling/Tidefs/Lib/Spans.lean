/-
# Lists of spans

A span is anything with a lower end, an upper end it does not reach, and a tag. A
list of nonempty spans, each ending before the next starts, tiles part of the line:
it stands for the partial function that maps each point in a span to the span's
tag (`content`).

Most changes of such a list replace each span by pieces of its own, in place. Then
the list tiles as before (`Tiles.flatMap`), and what it stands for changes point by
point (`content_flatMap`).
-/
import Mathlib.Data.List.Basic
import Mathlib.Order.Monotone.Basic

namespace Tidefs.Spans

open List Option

class HasSpan (E : Type*) (T : outParam (Type*)) where
  lo : E → ℕ
  hi : E → ℕ
  tag : E → T

open HasSpan

variable {E : Type*} {T : Type*} [HasSpan E T]

/-- The point is in the span. -/
def Covers (x : E) (b : ℕ) : Prop := lo x ≤ b ∧ b < hi x

instance (x : E) (b : ℕ) : Decidable (Covers x b) := inferInstanceAs (Decidable (_ ∧ _))

/-- The point is in a span with the tag. -/
def Maps (xs : List E) (b : ℕ) (t : T) : Prop := ∃ x ∈ xs, Covers x b ∧ tag x = t

/-- The tag of the first span the point is in. -/
def content (xs : List E) (b : ℕ) : Option T := (xs.find? fun x => Covers x b).map tag

/-- Nonempty spans, each ending before the next starts. -/
structure Tiles (xs : List E) : Prop where
  pos : ∀ x ∈ xs, lo x < hi x
  apart : xs.Pairwise fun x y => hi x ≤ lo y

variable {xs ys : List E} {b c : ℕ}

/-! ### Tiling -/

theorem Tiles.nil : Tiles ([] : List E) := ⟨by simp, .nil⟩

theorem Tiles.append_iff : Tiles (xs ++ ys) ↔ Tiles xs ∧ Tiles ys ∧ ∀ x ∈ xs, ∀ y ∈ ys, hi x ≤ lo y := by
  constructor
  · intro h
    obtain ⟨h1, h2, h3⟩ := pairwise_append.mp h.apart
    exact ⟨⟨fun x hx => h.pos x (mem_append_left _ hx), h1⟩, ⟨fun y hy => h.pos y (mem_append_right _ hy), h2⟩, h3⟩
  · intro ⟨hx, hy, hxy⟩
    exact ⟨forall_mem_append.mpr ⟨hx.pos, hy.pos⟩, pairwise_append.mpr ⟨hx.apart, hy.apart, hxy⟩⟩

theorem Tiles.cons_iff {x : E} : Tiles (x :: xs) ↔ lo x < hi x ∧ Tiles xs ∧ ∀ y ∈ xs, hi x ≤ lo y := by
  constructor
  · intro h
    obtain ⟨h1, h2⟩ := pairwise_cons.mp h.apart
    exact ⟨h.pos x (mem_cons_self ..), ⟨fun y hy => h.pos y (mem_cons_of_mem _ hy), h2⟩, h1⟩
  · intro ⟨hpos, hxs, hx⟩
    exact ⟨forall_mem_cons.mpr ⟨hpos, hxs.pos⟩, pairwise_cons.mpr ⟨hx, hxs.apart⟩⟩

theorem Tiles.filter (h : Tiles xs) (p : E → Bool) : Tiles (xs.filter p) :=
  ⟨fun x hx => h.pos x (mem_of_mem_filter hx), h.apart.filter _⟩

/-- The lower ends ascend. -/
theorem Tiles.ascend (h : Tiles xs) : xs.Pairwise fun x y => lo x < lo y :=
  h.apart.imp_of_mem fun hx _ hxy => Nat.lt_of_lt_of_le (h.pos _ hx) hxy

/-- A point is in one span at most. -/
theorem Tiles.unique (h : Tiles xs) {x y : E} (hx : x ∈ xs) (hy : y ∈ xs) (hxb : Covers x b) (hyb : Covers y b) :
    x = y := by
  induction xs with
  | nil => exact absurd hx (by simp)
  | cons z xs ih =>
    obtain ⟨-, h1, h2⟩ := cons_iff.mp h
    have hlo := And.intro hxb.1 hyb.1
    have hhi := And.intro hxb.2 hyb.2
    rcases mem_cons.mp hx with rfl | hx'
    · rcases mem_cons.mp hy with rfl | hy'
      · rfl
      · exact absurd (h2 y hy') (by omega)
    · rcases mem_cons.mp hy with rfl | hy'
      · exact absurd (h2 x hx') (by omega)
      · exact ih h1 hx' hy'

/-! ### What a list stands for -/

@[simp] theorem not_maps_nil {t : T} : ¬ Maps ([] : List E) b t := by simp [Maps]

theorem maps_cons {x : E} {t : T} : Maps (x :: xs) b t ↔ (Covers x b ∧ tag x = t) ∨ Maps xs b t := by simp [Maps]

theorem maps_append {t : T} : Maps (xs ++ ys) b t ↔ Maps xs b t ∨ Maps ys b t := by
  simp only [Maps, mem_append, or_and_right, exists_or]

theorem content_eq_some (h : Tiles xs) {t : T} : content xs b = some t ↔ Maps xs b t := by
  unfold content Maps
  rw [map_eq_some_iff]
  constructor
  · rintro ⟨x, hx, rfl⟩
    exact ⟨x, mem_of_find?_eq_some hx, by simpa using find?_some hx, rfl⟩
  · rintro ⟨x, hx, hb, rfl⟩
    cases hf : xs.find? fun x => Covers x b with
    | none => exact absurd hb (by simpa using find?_eq_none.mp hf x hx)
    | some y =>
      have hy : Covers y b := by simpa using find?_some hf
      exact ⟨y, rfl, congrArg tag (h.unique (mem_of_find?_eq_some hf) hx hy hb)⟩

theorem content_eq_none : content xs b = none ↔ ∀ x ∈ xs, ¬ Covers x b := by
  simp [content]

@[simp] theorem content_nil : content ([] : List E) b = none := rfl

theorem content_cons (x : E) : content (x :: xs) b = if Covers x b then some (tag x) else content xs b := by
  unfold content
  rw [find?_cons]
  by_cases hx : Covers x b
  · simp [hx]
  · simp [hx]

/-! ### Replacing each span by pieces -/

/-- Pieces that keep to the place of their span, up to a monotone move of the line. -/
theorem Tiles.flatMap (h : Tiles xs) {g : E → List E} {move : ℕ → ℕ} (hmove : Monotone move)
    (hg : ∀ x ∈ xs, Tiles (g x) ∧ ∀ p ∈ g x, move (lo x) ≤ lo p ∧ hi p ≤ move (hi x)) : Tiles (xs.flatMap g) := by
  refine ⟨fun p hp => ?_, pairwise_flatMap.mpr ⟨fun x hx => (hg x hx).1.apart, ?_⟩⟩
  · obtain ⟨x, hx, hp⟩ := mem_flatMap.mp hp
    exact (hg x hx).1.pos p hp
  · refine h.apart.imp_of_mem fun {x y} hx hy hxy p hp q hq => ?_
    calc hi p ≤ move (hi x) := ((hg x hx).2 p hp).2
      _ ≤ move (lo y) := hmove hxy
      _ ≤ lo q := ((hg y hy).2 q hq).1

/-- What the pieces say at `b` is what the spans say at `src b`, changed by `f`. -/
theorem content_flatMap (h : Tiles xs) {g : E → List E} (hg : Tiles (xs.flatMap g)) (src : ℕ → ℕ)
    (f : T → Option T) (hb : ∀ x ∈ xs, ∀ t, Maps (g x) b t ↔ Covers x (src b) ∧ f (tag x) = some t) :
    content (xs.flatMap g) b = (content xs (src b)).bind f := by
  refine ext fun t => ?_
  rw [content_eq_some hg, bind_eq_some_iff]
  constructor
  · intro ⟨p, hp, hpb, hpt⟩
    obtain ⟨x, hx, hp⟩ := mem_flatMap.mp hp
    obtain ⟨h1, h2⟩ := (hb x hx t).mp ⟨p, hp, hpb, hpt⟩
    exact ⟨tag x, (content_eq_some h).mpr ⟨x, hx, h1, rfl⟩, h2⟩
  · intro ⟨s, hs, ht⟩
    obtain ⟨x, hx, h1, rfl⟩ := (content_eq_some h).mp hs
    obtain ⟨p, hp, h2⟩ := (hb x hx t).mpr ⟨h1, ht⟩
    exact ⟨p, mem_flatMap.mpr ⟨x, hx, hp⟩, h2⟩

/-- Different rules for the spans that start before a point and for those after it. -/
theorem flatMap_split {α : Type*} (h : xs.Pairwise fun x y => lo x < lo y) (c : ℕ) (f g : E → List α) :
    (xs.filter fun x => decide (lo x < c)).flatMap f ++ (xs.filter fun x => decide (c ≤ lo x)).flatMap g =
      xs.flatMap fun x => if lo x < c then f x else g x := by
  induction xs with
  | nil => rfl
  | cons x xs ih =>
    obtain ⟨h1, h2⟩ := pairwise_cons.mp h
    by_cases hx : lo x < c
    · rw [filter_cons_of_pos (by simpa using hx), filter_cons_of_neg (by simpa using hx), flatMap_cons,
        flatMap_cons, if_pos hx, append_assoc, ih h2]
    · have hge : ∀ y ∈ x :: xs, c ≤ lo y :=
        forall_mem_cons.mpr ⟨not_lt.mp hx, fun y hy => (not_lt.mp hx).trans (h1 y hy).le⟩
      rw [filter_eq_nil_iff.mpr fun y hy => by simpa using hge y hy,
        filter_eq_self.mpr fun y hy => by simpa using hge y hy, flatMap_nil, nil_append]
      exact flatMap_congr fun y hy => (if_neg (hge y hy).not_gt).symm

/-- Three rules, for the spans before, between and after two points. -/
theorem flatMap_split_between {α : Type*} (h : xs.Pairwise fun x y => lo x < lo y) {c d : ℕ} (hcd : c ≤ d)
    (f g k : E → List α) : (xs.filter fun x => decide (lo x < c)).flatMap f ++
        (xs.filter fun x => decide (c ≤ lo x) && decide (lo x < d)).flatMap g ++
        (xs.filter fun x => decide (d ≤ lo x)).flatMap k =
      xs.flatMap fun x => if lo x < c then f x else if lo x < d then g x else k x := by
  have hmid : (xs.filter fun x => decide (c ≤ lo x) && decide (lo x < d)) =
      (xs.filter fun x => decide (c ≤ lo x)).filter fun x => decide (lo x < d) := by
    rw [List.filter_filter]
    exact filter_congr fun x _ => Bool.and_comm _ _
  have hlast : (xs.filter fun x => decide (d ≤ lo x)) =
      (xs.filter fun x => decide (c ≤ lo x)).filter fun x => decide (d ≤ lo x) := by
    rw [List.filter_filter]
    refine filter_congr fun x _ => ?_
    by_cases hx : d ≤ lo x
    · simp [hx, hcd.trans hx]
    · simp [hx]
  rw [hmid, hlast, append_assoc, flatMap_split (h.filter _), flatMap_split h]

/-! ### Laying one tiling over another -/

/-- The upper tiling, and the lower one where the upper has nothing. -/
theorem content_overlay {out upper lower : List E} (hout : Tiles out) (hu : Tiles upper) (hl : Tiles lower)
    (h : ∀ t, Maps out b t ↔ Maps upper b t ∨ (∀ x ∈ upper, ¬ Covers x b) ∧ Maps lower b t) :
    content out b = (content upper b).or (content lower b) := by
  refine ext fun t => ?_
  rw [content_eq_some hout, h, or_eq_some_iff, content_eq_some hu, content_eq_some hl, content_eq_none]

/-- The order of a tiling does not matter to what it stands for. -/
theorem content_perm (h : Tiles xs) (hp : xs.Perm ys) : content ys b = content xs b := by
  cases hy : content ys b with
  | none =>
    refine (content_eq_none.mpr fun x hx => ?_).symm
    exact content_eq_none.mp hy x (hp.mem_iff.mp hx)
  | some t =>
    obtain ⟨x, hx, rfl⟩ := map_eq_some_iff.mp hy
    refine ((content_eq_some h).mpr ⟨x, hp.mem_iff.mpr (mem_of_find?_eq_some hx), ?_, rfl⟩).symm
    simpa using find?_some hx

end Tidefs.Spans
