/-
# The accounts of an extent map agree

An `ExtentMap` says three times what is in use: by the extents of the inner map, by the
ranges of the ids and by the free regions. The three agree after every call
(`Consistent`), as each call changes them by the same range: an allocation takes a range
that is free, a punched range is taken from the ids that meet it (`punchIds_spec`), and
a free gives back what one id has.

Three things are asked of the calls (`Safe`): in the multi-level tree an allocation ends
at the last byte and does not make the tree too deep, and there are ids left.

The first is needed: the check whether a range is free stops adding at the last byte, and of
the trees the multi-level one takes an extent whose end wraps around. A map gets there with
100000 extents that lie apart (`spread_state`); then an allocation past the last byte hands
out an id, and fails when its range is to be carved out (`allocate_late`).
-/
import Tidefs.ExtentMap.Allocate
import Tidefs.ExtentMap.Space

namespace Tidefs.Userspace

open Word Btree Ordered Ranges Tidefs.ExtentMap Tidefs.ExtentMap.ExtentMapEntryV2 Spans Spans.HasSpan FreeSpaceTracker
open List hiding length

/-! ### Free regions -/

namespace FreeSpaceTracker

/-- Regions with gaps between them, none of which wraps around. -/
structure Tidy (rs : List (ℕ × ℕ)) : Prop where
  gapped : Gapped rs
  bounded : ∀ r ∈ rs, r.1 + r.2 ≤ u64Max

variable {rs : List (ℕ × ℕ)} {r : ℕ × ℕ} {offset stop start length : ℕ}

theorem Tidy.cons_iff : Tidy (r :: rs) ↔ (0 < r.2 ∧ r.1 + r.2 ≤ u64Max) ∧ Tidy rs ∧ ∀ x ∈ rs, r.1 + r.2 < x.1 := by
  constructor
  · rintro ⟨h1, h2⟩
    obtain ⟨h3, h4, h5⟩ := Gapped.cons_iff.mp h1
    obtain ⟨h6, h7⟩ := forall_mem_cons.mp h2
    exact ⟨⟨h3, h6⟩, ⟨h4, h7⟩, h5⟩
  · rintro ⟨⟨h1, h2⟩, ⟨h3, h4⟩, h5⟩
    exact ⟨Gapped.cons_iff.mpr ⟨h1, h3, h5⟩, forall_mem_cons.mpr ⟨h2, h4⟩⟩

theorem tidy_nil : Tidy [] := ⟨⟨by simp, .nil⟩, by simp⟩

theorem tidy_new : Tidy new.regions := Tidy.cons_iff.mpr ⟨⟨by decide, by decide⟩, tidy_nil, by simp⟩

/-- A piece in front of regions, unless it is empty. -/
theorem Tidy.piece (h : Tidy rs) {a b : ℕ} (hb : b ≤ u64Max) (hgap : ∀ x ∈ rs, b < x.1) :
    Tidy ((if a < b then [(a, b - a)] else []) ++ rs) := by
  split_ifs with hab
  · refine Tidy.cons_iff.mpr ⟨⟨?_, ?_⟩, h, fun x hx => ?_⟩
    · exact Nat.sub_pos_of_lt hab
    · omega
    · have := hgap x hx
      omega
  · exact h

theorem holds_sub {a b c : ℕ} (hab : a ≤ b) : Holds (a, b - a) c ↔ a ≤ c ∧ c < b := by
  rw [Holds]
  omega

theorem covered_piece {a b c : ℕ} : Covered ((if a < b then [(a, b - a)] else []) ++ rs) c ↔
    (a ≤ c ∧ c < b) ∨ Covered rs c := by
  split_ifs with hab
  · rw [cons_append, nil_append, covered_cons, holds_sub hab.le]
  · rw [nil_append]
    exact ⟨.inr, fun h => h.resolve_left (by omega)⟩

theorem mem_piece {a b : ℕ} {x : ℕ × ℕ} (hx : x ∈ (if a < b then [(a, b - a)] else []) ++ rs) : x.1 = a ∨ x ∈ rs := by
  split_ifs at hx
  · exact (mem_cons.mp hx).imp_left (congrArg Prod.fst)
  · exact .inr hx

/-- **A range in one region is carved out.** -/
theorem carveLoop_spec (hos : offset < stop) : ∀ {rs : List (ℕ × ℕ)}, Tidy rs →
    (∃ r ∈ rs, r.1 ≤ offset ∧ stop ≤ r.1 + r.2) → ∃ rs', carveLoop offset stop rs = some rs' ∧ Tidy rs' ∧
      (∀ x ∈ rs', ∃ r ∈ rs, r.1 ≤ x.1) ∧ ∀ b, Covered rs' b ↔ Covered rs b ∧ ¬ (offset ≤ b ∧ b < stop)
  | [], _, ⟨_, hr, _⟩ => nomatch hr
  | r :: rs, h, hin => by
    obtain ⟨⟨hpos, hmax⟩, hrs, hgap⟩ := Tidy.cons_iff.mp h
    rw [carveLoop, wrap64_of_le hmax]
    by_cases hhit : r.1 ≤ offset ∧ stop ≤ r.1 + r.2
    · rw [if_pos hhit]
      refine ⟨_, rfl, ?_, fun x hx => ?_, fun b => ?_⟩
      · rw [append_assoc]
        refine Tidy.piece (Tidy.piece hrs hmax hgap) (by omega) fun x hx => ?_
        rcases mem_piece hx with hx | hx
        · omega
        · have := hgap x hx
          omega
      · rw [append_assoc] at hx
        rcases mem_piece hx with hx | hx
        · exact ⟨r, mem_cons_self .., hx.ge⟩
        · rcases mem_piece hx with hx | hx
          · exact ⟨r, mem_cons_self .., by omega⟩
          · exact ⟨x, mem_cons_of_mem r hx, le_rfl⟩
      · have hbehind : Covered rs b → r.1 + r.2 < b := fun ⟨x, hx, hx1, _⟩ => by
          have := hgap x hx
          omega
        rw [append_assoc, covered_piece, covered_piece, covered_cons, Holds]
        constructor
        · rintro (h1 | h1 | h1)
          · omega
          · omega
          · have := hbehind h1
            exact ⟨.inr h1, by omega⟩
        · rintro ⟨h1 | h1, h2⟩
          · omega
          · exact .inr (.inr h1)
    · obtain ⟨y, hy, hyle⟩ := hin
      replace hy := (mem_cons.mp hy).resolve_left fun he => hhit (he ▸ hyle)
      obtain ⟨rs', h1, h2, h3, h4⟩ := carveLoop_spec hos hrs ⟨y, hy, hyle⟩
      rw [if_neg hhit, h1]
      refine ⟨r :: rs', rfl, Tidy.cons_iff.mpr ⟨⟨hpos, hmax⟩, h2, fun x hx => ?_⟩, fun x hx => ?_, fun b => ?_⟩
      · obtain ⟨z, hz, hzle⟩ := h3 x hx
        exact (hgap z hz).trans_le hzle
      · rcases mem_cons.mp hx with rfl | hx
        · exact ⟨x, mem_cons_self .., le_rfl⟩
        · obtain ⟨z, hz, hzle⟩ := h3 x hx
          exact ⟨z, mem_cons_of_mem r hz, hzle⟩
      · have hout : Holds r b → ¬ (offset ≤ b ∧ b < stop) := fun hb => by
          have := hgap y hy
          rw [Holds] at hb
          omega
        rw [covered_cons, covered_cons, h4, or_and_right, and_iff_left_of_imp hout]

variable {t : FreeSpaceTracker}

theorem carve_spec (h : Tidy t.regions) (hv : 0 < length ∧ offset + length ≤ u64Max)
    (hin : ∃ r ∈ t.regions, r.1 ≤ offset ∧ offset + length ≤ r.1 + r.2) :
    ∃ t', t.carve offset length = .ok t' ∧ Tidy t'.regions ∧
      ∀ b, Covered t'.regions b ↔ Covered t.regions b ∧ ¬ Holds (offset, length) b := by
  obtain ⟨rs, h1, h2, -, h3⟩ := carveLoop_spec (show offset < offset + length by omega) h hin
  refine ⟨⟨rs⟩, ?_, h2, h3⟩
  rw [carve, if_neg (by omega), if_neg (by omega), h1]

theorem isFree_iff (h : Tidy t.regions) (hv : offset + length ≤ u64Max) :
    t.isFree offset length = true ↔ ∃ r ∈ t.regions, r.1 ≤ offset ∧ offset + length ≤ r.1 + r.2 := by
  rw [isFree, any_eq_true]
  refine exists_congr fun r => and_congr_right fun hr => ?_
  rw [Bool.and_eq_true, decide_eq_true_eq, decide_eq_true_eq, wrap64_of_le (h.bounded r hr), satAdd, min_eq_left hv]

/-- Once the range is in, the regions behind it stay. -/
theorem releaseLoop_true : ∀ {rs : List (ℕ × ℕ)}, Tidy rs → start ≤ stop → (∀ x ∈ rs, stop < x.1) →
    releaseLoop start stop true rs = rs
  | [], _, _, _ => rfl
  | r :: rs, h, hle, hbehind => by
    obtain ⟨⟨hpos, hmax⟩, hrs, -⟩ := Tidy.cons_iff.mp h
    obtain ⟨hr, hbehind'⟩ := forall_mem_cons.mp hbehind
    rw [releaseLoop, wrap64_of_le hmax, if_neg (by omega), if_pos hr, releaseLoop_true hrs hle hbehind']
    rfl

/-- A range goes in front of the regions. -/
theorem Tidy.put (h : Tidy rs) (hlt : start < stop) (hmax : stop ≤ u64Max) (hgap : ∀ x ∈ rs, stop < x.1) :
    Tidy ((start, stop - start) :: rs) ∧
      (∀ x ∈ (start, stop - start) :: rs, start ≤ x.1 ∨ ∃ r ∈ rs, r.1 ≤ x.1) ∧
      ∀ b, Covered ((start, stop - start) :: rs) b ↔ Covered rs b ∨ start ≤ b ∧ b < stop := by
  refine ⟨?_, forall_mem_cons.mpr ⟨.inl le_rfl, fun x hx => .inr ⟨x, hx, le_rfl⟩⟩, fun b => ?_⟩
  · have htidy := h.piece (a := start) hmax hgap
    rwa [if_pos hlt] at htidy
  · rw [covered_cons, holds_sub hlt.le, or_comm]

/-- **A range is given back**, joined with the regions it meets or touches. -/
theorem releaseLoop_spec : ∀ {rs : List (ℕ × ℕ)} {start stop : ℕ}, Tidy rs → start < stop → stop ≤ u64Max →
    Tidy (releaseLoop start stop false rs) ∧
      (∀ x ∈ releaseLoop start stop false rs, start ≤ x.1 ∨ ∃ r ∈ rs, r.1 ≤ x.1) ∧
      ∀ b, Covered (releaseLoop start stop false rs) b ↔ Covered rs b ∨ start ≤ b ∧ b < stop
  | [], start, stop, _, hlt, hmax => by
    rw [releaseLoop, if_neg Bool.false_ne_true, wrapSub_of_le hlt.le hmax]
    exact tidy_nil.put hlt hmax (by simp)
  | r :: rs, start, stop, h, hlt, hmax => by
    obtain ⟨⟨hpos, hrmax⟩, hrs, hgap⟩ := Tidy.cons_iff.mp h
    rw [releaseLoop, wrap64_of_le hrmax]
    by_cases hbefore : r.1 + r.2 < start
    · obtain ⟨h1, h2, h3⟩ := releaseLoop_spec hrs hlt hmax
      rw [if_pos hbefore]
      refine ⟨Tidy.cons_iff.mpr ⟨⟨hpos, hrmax⟩, h1, fun x hx => ?_⟩, fun x hx => ?_, fun b => ?_⟩
      · rcases h2 x hx with h4 | ⟨y, hy, h4⟩
        · omega
        · exact (hgap y hy).trans_le h4
      · rcases mem_cons.mp hx with rfl | hx
        · exact .inr ⟨x, mem_cons_self .., le_rfl⟩
        · exact (h2 x hx).imp_right fun ⟨y, hy, h4⟩ => ⟨y, mem_cons_of_mem r hy, h4⟩
      · rw [covered_cons, covered_cons, h3, or_assoc]
    · by_cases hbehind : stop < r.1
      · have hall : ∀ x ∈ rs, stop < x.1 := fun x hx => by
          have := hgap x hx
          omega
        rw [if_neg hbefore, if_pos hbehind, if_neg Bool.false_ne_true, wrapSub_of_le hlt.le hmax,
          releaseLoop_true hrs hlt.le hall]
        exact h.put hlt hmax (forall_mem_cons.mpr ⟨hbehind, hall⟩)
      · -- the region is part of what is given back
        obtain ⟨h1, h2, h3⟩ := @releaseLoop_spec rs (min start r.1) (max stop (r.1 + r.2)) hrs (by omega) (by omega)
        rw [if_neg hbefore, if_neg hbehind]
        refine ⟨h1, fun x hx => ?_, fun b => ?_⟩
        · rcases h2 x hx with h4 | ⟨y, hy, h4⟩
          · rcases min_le_iff.mp h4 with h4 | h4
            · exact .inl h4
            · exact .inr ⟨r, mem_cons_self .., h4⟩
          · exact .inr ⟨y, mem_cons_of_mem r hy, h4⟩
        · have hhull : (min start r.1 ≤ b ∧ b < max stop (r.1 + r.2)) ↔ Holds r b ∨ start ≤ b ∧ b < stop := by
            rw [Holds]
            omega
          rw [h3, covered_cons, hhull]
          tauto

theorem release_spec (h : Tidy t.regions) (hv : 0 < length ∧ offset + length ≤ u64Max) :
    Tidy (t.release offset length).regions ∧
      ∀ b, Covered (t.release offset length).regions b ↔ Covered t.regions b ∨ Holds (offset, length) b := by
  obtain ⟨h1, -, h2⟩ := releaseLoop_spec h (show offset < offset + length by omega) hv.2
  rw [release, if_neg (by omega), wrap64_of_le hv.2]
  exact ⟨h1, h2⟩

end FreeSpaceTracker

namespace ExtentMap

open PolymorphicExtentMap OrdMap Prod

variable {P : Params} {s : ExtentMap}

/-! ### What is to hold -/

/-- The ranges of the ids are disjoint and together the mapped bytes; the free regions have
gaps between them and are the other bytes; no id was handed out twice. -/
structure Consistent (s : ExtentMap) : Prop where
  disjoint : Apart s.idToOffset
  union : ∀ b, Owned s.idToOffset b ↔ content s.inner.extents b ≠ none
  regions : Gapped s.freeTracker.regions
  complement : ∀ b, Covered s.freeTracker.regions b ↔ b < u64Max ∧ ¬ Owned s.idToOffset b
  once : s.issued.Nodup

/-- The allocation does not reach past the last byte in the multi-level tree and does not
make it too deep, and ids are left. -/
def Safe (P : Params) (s : ExtentMap) : Call → Prop
  | .allocate offset length => (s.inner.active = .multiLevel → offset + length ≤ u64Max ∧
      (inserted s.inner.extents [newUnwritten offset length 0]).length < deepLimit P) ∧ s.nextExtentId < u64Max
  | .punchRange _ _ => s.nextExtentId < u64Max
  | _ => True

/-- Every call of the run is safe where it is made. -/
def SafeRun (P : Params) : ExtentMap → List Call → Prop
  | _, [] => True
  | s, c :: calls => Safe P s c ∧ ∀ s', s.call P c = some s' → SafeRun P s' calls

/-! ### Ids -/

/-- Ids and their ranges, as the calls leave them. -/
structure Ids (s : ExtentMap) : Prop where
  ranges : ∀ k r, s.idToOffset.get? k = some r → (0 < r.2 ∧ r.1 + r.2 ≤ u64Max) ∧ k < s.nextExtentId
  apart : Apart s.idToOffset
  once : s.issued.Nodup
  below : ∀ k ∈ s.issued, k < s.nextExtentId

theorem Ids.pairwise (h : Ids s) : s.idToOffset.entries.Pairwise fun a a' => ∀ b, Holds a.2 b → ¬ Holds a'.2 b :=
  s.idToOffset.sorted.imp_of_mem fun {a b} ha hb hlt =>
    h.apart a.1 b.1 a.2 b.2 (get?_eq_some.mpr ha) (get?_eq_some.mpr hb) (ne_of_lt hlt)

variable {r : ℕ × ℕ} {k : ExtentId} {length offset : ℕ} {m : PolymorphicExtentMap}

/-- A new id for bytes nobody has. -/
theorem Ids.issue (h : Ids s) (hv : 0 < r.2 ∧ r.1 + r.2 ≤ u64Max) (hleft : s.nextExtentId < u64Max)
    (hfree : ∀ b, Holds r b → ¬ Owned s.idToOffset b) :
    Ids (s.issue r) ∧ ∀ b, Owned (s.issue r).idToOffset b ↔ Holds r b ∨ Owned s.idToOffset b := by
  have hfresh : s.idToOffset.get? s.nextExtentId = none := by
    cases hget : s.idToOffset.get? s.nextExtentId with
    | none => rfl
    | some x => exact absurd (h.ranges _ x hget).2 (lt_irrefl _)
  obtain ⟨h1, h2⟩ := h.apart.add hfresh hfree
  have hnext : wrap64 (s.nextExtentId + 1) = s.nextExtentId + 1 := wrap64_of_le hleft
  refine ⟨⟨fun k x hk => ?_, h1, ?_, ?_⟩, h2⟩
  · show _ ∧ k < wrap64 (s.nextExtentId + 1)
    rw [hnext]
    rw [show (s.issue r).idToOffset = s.idToOffset.insert s.nextExtentId r from rfl, get?_insert] at hk
    split_ifs at hk with heq
    · obtain rfl := Option.some.inj hk
      exact ⟨hv, heq ▸ Nat.lt_succ_self _⟩
    · obtain ⟨h3, h4⟩ := h.ranges k x hk
      exact ⟨h3, Nat.lt_succ_of_lt h4⟩
  · exact nodup_cons.mpr ⟨fun hmem => absurd (h.below _ hmem) (lt_irrefl _), h.once⟩
  · show ∀ k ∈ s.nextExtentId :: s.issued, k < wrap64 (s.nextExtentId + 1)
    rw [hnext]
    exact forall_mem_cons.mpr ⟨Nat.lt_succ_self _, fun k hk => Nat.lt_succ_of_lt (h.below k hk)⟩

theorem Ids.forget (h : Ids s) (hk : s.idToOffset.get? k = some r) :
    Ids (s.forget k) ∧ ∀ b, Owned (s.forget k).idToOffset b ↔ Owned s.idToOffset b ∧ ¬ Holds r b := by
  refine ⟨⟨fun k' x hx => ?_, h.apart.erase k, h.once, h.below⟩, fun b => ?_⟩
  · rw [show (s.forget k).idToOffset = s.idToOffset.erase k from rfl, get?_erase] at hx
    split_ifs at hx
    exact h.ranges k' x hx
  · exact owned_erase.trans (h.apart.owned_ne hk)

/-- A part of the range stays. -/
theorem Ids.cut (h : Ids s) (hk : s.idToOffset.get? k = some r) {start stop : ℕ} (hlt : start < stop)
    (hin : r.1 ≤ start ∧ stop ≤ r.1 + r.2) : Ids (s.setRange k (start, stop - start)) ∧
      (∀ b, Owned (s.setRange k (start, stop - start)).idToOffset b ↔
        (start ≤ b ∧ b < stop) ∨ Owned s.idToOffset b ∧ ¬ Holds r b) ∧
      ∀ k' x, k' ≠ k → s.idToOffset.get? k' = some x →
        (s.setRange k (start, stop - start)).idToOffset.get? k' = some x := by
  obtain ⟨⟨-, hmax⟩, hbelow⟩ := h.ranges k r hk
  have hget : ∀ k', (s.setRange k (start, stop - start)).idToOffset.get? k' =
      if k' = k then some (start, stop - start) else s.idToOffset.get? k' := fun k' => get?_insert ..
  have hholds : ∀ b, Holds (start, stop - start) b ↔ start ≤ b ∧ b < stop := fun b => holds_sub hlt.le
  have hsub : ∀ b, Holds (start, stop - start) b → Holds r b := fun b hb => by
    rw [hholds] at hb
    exact ⟨by omega, by omega⟩
  obtain ⟨h1, h2⟩ := h.apart.shrink hk hsub
  refine ⟨⟨fun k' x hx => ?_, h1, h.once, h.below⟩, fun b => (h2 b).trans (by rw [hholds]), fun k' x hne hx => ?_⟩
  · rw [hget] at hx
    split_ifs at hx with heq
    · obtain rfl := Option.some.inj hx
      exact ⟨⟨Nat.sub_pos_of_lt hlt, by dsimp only; omega⟩, heq ▸ hbelow⟩
    · exact h.ranges k' x hx
  · rw [hget, if_neg hne, hx]

/-- What is kept of a range beside what the others have. -/
theorem owned_without {t : OrdMap ExtentId (ℕ × ℕ)} {b : ℕ} {kept hole : Prop}
    (hown : Holds r b → Owned t b) (hkept : kept ↔ Holds r b ∧ ¬ hole) :
    kept ∨ Owned t b ∧ ¬ Holds r b ↔ Owned t b ∧ ¬ (Holds r b ∧ hole) := by
  rw [hkept]
  tauto

/-- The hole is inside the range, with bytes left on both sides. -/
def Splits (offset stop : ℕ) (r : ℕ × ℕ) : Prop := r.1 < offset ∧ stop < r.1 + r.2

/-- **The hole is taken from one id.** -/
theorem punchId_spec (h : Ids s) {stop : ℕ} (hos : offset < stop)
    (hk : s.idToOffset.get? k = some r) (hmeet : r.1 < stop ∧ offset < r.1 + r.2)
    (hleft : Splits offset stop r → s.nextExtentId < u64Max) : Ids (punchId offset stop s (k, r)) ∧
      (∀ b, Owned (punchId offset stop s (k, r)).idToOffset b ↔
        Owned s.idToOffset b ∧ ¬ (Holds r b ∧ offset ≤ b ∧ b < stop)) ∧
      ((punchId offset stop s (k, r)).inner = s.inner ∧ (punchId offset stop s (k, r)).freeTracker = s.freeTracker) ∧
      (∀ k' x, k' ≠ k → s.idToOffset.get? k' = some x → (punchId offset stop s (k, r)).idToOffset.get? k' = some x) ∧
      (¬ Splits offset stop r → (punchId offset stop s (k, r)).nextExtentId = s.nextExtentId) := by
  obtain ⟨⟨hpos, hmax⟩, hlt⟩ := h.ranges k r hk
  have hown : ∀ b, Holds r b → Owned s.idToOffset b := fun b hb => ⟨k, r, hk, hb⟩
  unfold punchId
  dsimp only
  rw [wrap64_of_le hmax]
  by_cases hfront : offset ≤ r.1
  · by_cases hback : r.1 + r.2 ≤ stop
    · -- nothing is left
      obtain ⟨h1, h2⟩ := h.forget hk
      rw [if_pos ⟨hfront, hback⟩]
      refine ⟨h1, fun b => ?_, ⟨rfl, rfl⟩, fun k' x hne hx => ?_, fun _ => rfl⟩
      · rw [h2, Holds]
        refine and_congr_right fun _ => not_congr ?_
        omega
      · rw [show (s.forget k).idToOffset = s.idToOffset.erase k from rfl, get?_erase, if_neg hne, hx]
    · -- the end is left
      obtain ⟨h1, h2, h3⟩ := h.cut hk (not_le.mp hback) ⟨hmeet.1.le, le_rfl⟩
      rw [if_neg (by omega), if_pos hfront]
      exact ⟨h1, fun b => (h2 b).trans (owned_without (hown b) (by rw [Holds]; omega)), ⟨rfl, rfl⟩, h3, fun _ => rfl⟩
  · obtain ⟨h1, h2, h3⟩ := h.cut hk (not_le.mp hfront) ⟨le_rfl, hmeet.2.le⟩
    by_cases hback : r.1 + r.2 ≤ stop
    · -- the front is left
      rw [if_neg (by omega), if_neg hfront, if_pos hback]
      exact ⟨h1, fun b => (h2 b).trans (owned_without (hown b) (by rw [Holds]; omega)), ⟨rfl, rfl⟩, h3, fun _ => rfl⟩
    · -- both sides are left, the second under a new id
      have hsplit : Splits offset stop r := ⟨by omega, by omega⟩
      obtain ⟨h4, h5⟩ := h1.issue (r := (stop, r.1 + r.2 - stop)) ⟨by dsimp only; omega, by dsimp only; omega⟩
        (hleft hsplit) (fun b hb hO => by
          rw [h2] at hO
          simp only [Holds] at hb hO
          omega)
      rw [if_neg (by omega), if_neg hfront, if_neg hback]
      refine ⟨h4, fun b => ?_, ⟨rfl, rfl⟩, fun k' x hne hx => ?_, fun hn => absurd hsplit hn⟩
      · rw [h5, h2, ← or_assoc]
        exact owned_without (hown b) (by simp only [Holds]; omega)
      · rw [show ((s.setRange k _).issue _).idToOffset = (s.setRange k _).idToOffset.insert s.nextExtentId _ from rfl,
          get?_insert, if_neg (Nat.ne_of_lt (h.ranges k' x hx).2), h3 k' x hne hx]

/-- **The hole is taken from all ids it meets.** -/
theorem punchIds_spec {stop : ℕ} (hos : offset < stop) (affected : List (ExtentId × (ℕ × ℕ))) {s : ExtentMap}
    (h : Ids s) (hmeet : ∀ a ∈ affected, s.idToOffset.get? a.1 = some a.2 ∧ a.2.1 < stop ∧ offset < a.2.1 + a.2.2)
    (hpair : affected.Pairwise fun a b => b.1 ≠ a.1 ∧ ¬ (Splits offset stop a.2 ∧ Splits offset stop b.2))
    (hleft : (∃ a ∈ affected, Splits offset stop a.2) → s.nextExtentId < u64Max) :
    Ids (affected.foldl (punchId offset stop) s) ∧ (∀ b, Owned (affected.foldl (punchId offset stop) s).idToOffset b ↔
        Owned s.idToOffset b ∧ ¬ ((∃ a ∈ affected, Holds a.2 b) ∧ offset ≤ b ∧ b < stop)) ∧
      (affected.foldl (punchId offset stop) s).inner = s.inner ∧
      (affected.foldl (punchId offset stop) s).freeTracker = s.freeTracker := by
  induction affected generalizing s with
  | nil => exact ⟨h, fun b => by simp, rfl, rfl⟩
  | cons a affected ih =>
    obtain ⟨⟨hk, hkmeet⟩, hmeet'⟩ := forall_mem_cons.mp hmeet
    obtain ⟨hhead, htail⟩ := pairwise_cons.mp hpair
    obtain ⟨h1, h2, h3, h4, h5⟩ := punchId_spec h hos hk hkmeet fun hs => hleft ⟨a, mem_cons_self .., hs⟩
    -- if this range was split no other one is
    have hleft' : (∃ a ∈ affected, Splits offset stop a.2) → (punchId offset stop s a).nextExtentId < u64Max := by
      rintro ⟨a', ha, hs⟩
      rw [h5 fun hr => (hhead a' ha).2 ⟨hr, hs⟩]
      exact hleft ⟨a', mem_cons_of_mem _ ha, hs⟩
    obtain ⟨h6, h7, h8, h9⟩ := ih h1
      (fun a' ha => ⟨h4 a'.1 a'.2 (hhead a' ha).1 (hmeet' a' ha).1, (hmeet' a' ha).2⟩) htail hleft'
    refine ⟨h6, fun b => ?_, h8.trans h3.1, h9.trans h3.2⟩
    rw [foldl_cons, h7, h2]
    simp only [mem_cons, exists_eq_or_imp]
    rw [and_assoc, ← not_or, ← or_and_right]

/-! ### The accounts -/

/-- The accounts agree, and each is as its own code needs it. -/
structure Inv (P : Params) (s : ExtentMap) : Prop where
  spaced : Spaced P s.inner
  ids : Ids s
  union : ∀ b, Owned s.idToOffset b ↔ content s.inner.extents b ≠ none
  tidy : FreeSpaceTracker.Tidy s.freeTracker.regions
  complement : ∀ b, Covered s.freeTracker.regions b ↔ b < u64Max ∧ ¬ Owned s.idToOffset b

theorem Inv.consistent (h : Inv P s) : Consistent s :=
  ⟨h.ids.apart, h.union, h.tidy.gapped, h.complement, h.ids.once⟩

theorem inv_new : Inv P (new P) := by
  refine ⟨spaced_new, ⟨(fun k r h => nomatch h), apart_empty, .nil, by simp [new]⟩, fun b => ?_, tidy_new, fun b => ?_⟩
  · exact ⟨fun h => absurd h not_owned_empty, fun h => absurd rfl h⟩
  · have hnot : ¬ Owned (new P).idToOffset b := not_owned_empty
    show Covered [(0, u64Max)] b ↔ _
    rw [covered_cons]
    simp [Covered, Holds, hnot]

/-- Counts and deferred frees are no part of the accounts. -/
theorem Inv.tables (h : Inv P s) (refcounts deferredFrees : OrdMap ExtentId ℕ) :
    Inv P { s with refcounts, deferredFrees } :=
  ⟨h.spaced, ⟨h.ids.ranges, h.ids.apart, h.ids.once, h.ids.below⟩, h.union, h.tidy, h.complement⟩

theorem Inv.owned_lt (h : Inv P s) {b : ℕ} (hb : Owned s.idToOffset b) : b < u64Max := by
  obtain ⟨k, r, hk, h1, h2⟩ := hb
  have := (h.ids.ranges k r hk).1.2
  omega

/-- The inner map moved, with the same bytes. -/
theorem Inv.inner (h : Inv P s) (hm : Spaced P m) (hes : m.extents = s.inner.extents) : Inv P { s with inner := m } :=
  ⟨hm, ⟨h.ids.ranges, h.ids.apart, h.ids.once, h.ids.below⟩, fun b => by rw [hes]; exact h.union b, h.tidy, h.complement⟩

theorem content_unwritten {es : List ExtentMapEntryV2} (h : Layout es)
    (hv : 0 < length ∧ offset + length ≤ u64Max) (b : ℕ) :
    content (inserted es [newUnwritten offset length 0]) b ≠ none ↔ Holds (offset, length) b ∨ content es b ≠ none := by
  rw [(inserted_spec h (insertable_unwritten hv)).2, content_cons]
  by_cases hb : Holds (offset, length) b
  · rw [if_pos (show Covers (newUnwritten offset length 0) b from hb)]
    simp [hb]
  · rw [if_neg (show ¬ Covers (newUnwritten offset length 0) b from hb)]
    simp [hb]

theorem allocate_eq (h0 : length ≠ 0) (hfree : s.freeTracker.isFree offset length = true) {freed : List FreedExtent}
    (h : s.inner.step P (.insertExtent [newUnwritten offset length 0]) = some (m, .ok freed)) :
    s.allocate P offset length = some (match s.freeTracker.carve offset length with
        | .error e => (({ s with inner := m } : ExtentMap).issue (offset, length), .error e)
        | .ok t => ({ ({ s with inner := m } : ExtentMap).issue (offset, length) with freeTracker := t },
          .ok s.nextExtentId)) := by
  rw [allocate, if_neg h0, if_neg (by rw [hfree]; decide), h]
  rfl

theorem allocate_free (hroom : Roomy P) (h : Inv P s) (hv : 0 < length ∧ offset + length ≤ u64Max)
    (hfree : ∃ r ∈ s.freeTracker.regions, r.1 ≤ offset ∧ offset + length ≤ r.1 + r.2)
    (hdeep : s.inner.active = .multiLevel →
      (inserted s.inner.extents [newUnwritten offset length 0]).length < deepLimit P)
    (hleft : s.nextExtentId < u64Max) : ∃ s', s.allocate P offset length = some (s', .ok s.nextExtentId) ∧ Inv P s' ∧
      s'.inner.extents = inserted s.inner.extents [newUnwritten offset length 0] ∧
      s'.nextExtentId = s.nextExtentId + 1 := by
  obtain ⟨m, h1, h2, h3⟩ := insert_spaced hroom h.spaced hv hdeep
  have hisFree := (isFree_iff h.tidy hv.2).mpr hfree
  have hunowned : ∀ b, Holds (offset, length) b → ¬ Owned s.idToOffset b := fun b hb => by
    obtain ⟨r, hr, hr1, hr2⟩ := hfree
    have hb' : offset ≤ b ∧ b < offset + length := hb
    exact ((h.complement b).mp ⟨r, hr, by omega, by omega⟩).2
  have hids : Ids { s with inner := m } := ⟨h.ids.ranges, h.ids.apart, h.ids.once, h.ids.below⟩
  obtain ⟨h4, h5⟩ := hids.issue (r := (offset, length)) hv hleft hunowned
  obtain ⟨t, h6, h7, h8⟩ := carve_spec h.tidy hv hfree
  refine ⟨{ ({ s with inner := m } : ExtentMap).issue (offset, length) with freeTracker := t }, ?_,
    ⟨h2, ⟨h4.ranges, h4.apart, h4.once, h4.below⟩, fun b => ?_, h7, fun b => ?_⟩, h3, wrap64_of_le hleft⟩
  · rw [allocate_eq (by omega) hisFree h1, h6]
  · refine (h5 b).trans ?_
    show _ ↔ content m.extents b ≠ none
    rw [h3, content_unwritten h.spaced.rest.held.layout hv, h.union]
  · refine (h8 b).trans ?_
    rw [h.complement, show Owned ({ ({ s with inner := m } : ExtentMap).issue (offset, length) with
      freeTracker := t } : ExtentMap).idToOffset b ↔ _ from h5 b]
    tauto

/-- **An allocation.** -/
theorem allocate_inv (hroom : Roomy P) (h : Inv P s) (hs : Safe P s (.allocate offset length)) :
    ∃ s' r, s.allocate P offset length = some (s', r) ∧ Inv P s' := by
  obtain ⟨hdeep, hleft⟩ := hs
  by_cases h0 : length = 0
  · exact ⟨s, _, if_pos h0, h⟩
  by_cases hfree : s.freeTracker.isFree offset length = true
  · by_cases hover : u64Max < offset + length
    · obtain ⟨m, h1, h2, h3⟩ := refuse_spaced hroom.1 h.spaced (fun hact => by have := (hdeep hact).1; omega) hover
      rw [allocate, if_neg h0, if_neg (by rw [hfree]; decide), h1]
      exact ⟨{ s with inner := m }, _, rfl, h.inner h2 h3⟩
    · have hv : 0 < length ∧ offset + length ≤ u64Max := ⟨by omega, by omega⟩
      obtain ⟨s', h1, h2, -⟩ := allocate_free hroom h hv ((isFree_iff h.tidy hv.2).mp hfree)
        (fun hact => (hdeep hact).2) hleft
      exact ⟨s', _, h1, h2⟩
  · exact ⟨s, _, (if_neg h0).trans (if_pos (by simpa using hfree)), h⟩

/-- A range taken from the ids, the inner map and given back to the free regions. -/
theorem Inv.punched (h : Inv P s) {s₁ : ExtentMap} (hv : 0 < length ∧ offset + length ≤ u64Max) (hids : Ids s₁)
    (hown : ∀ b, Owned s₁.idToOffset b ↔ Owned s.idToOffset b ∧ ¬ Holds (offset, length) b) (hm : Spaced P m)
    (hbytes : content m.extents = applyOp s.inner.fileSize (content s.inner.extents) (.punchHole offset length)) :
    Inv P { s₁ with inner := m, freeTracker := s.freeTracker.release offset length } := by
  obtain ⟨h1, h2⟩ := release_spec h.tidy hv
  refine ⟨hm, ⟨hids.ranges, hids.apart, hids.once, hids.below⟩, fun b => ?_, h1, fun b => ?_⟩
  · rw [hown, hbytes, h.union]
    show _ ↔ (if offset ≤ b ∧ b < offset + length then none else content s.inner.extents b) ≠ none
    split_ifs with hb
    · simp [Holds, hb]
    · simp [Holds, hb]
  · have hlt : Holds (offset, length) b → b < u64Max := fun hb => by
      have hb' : offset ≤ b ∧ b < offset + length := hb
      omega
    rw [h2, h.complement, hown]
    tauto

/-- **A punched range.** -/
theorem punchRange_inv (hroom : Roomy P) (h : Inv P s) (hleft : s.nextExtentId < u64Max) :
    ∃ s' r, s.punchRange P offset length = some (s', r) ∧ Inv P s' := by
  unfold punchRange
  by_cases hover : u64Max < offset + length
  · exact ⟨s, _, if_pos hover, h⟩
  rw [if_neg hover]
  by_cases h0 : length = 0
  · -- the inner map refuses an empty range
    have hrefused : s.inner.step P (.punchHole offset length) = some (s.inner, .error .invalidRange) := by
      rw [h0]
      generalize s.inner = m
      obtain ⟨_ | _ | _, inline, btree, multiLevel⟩ := m <;> rfl
    rw [hrefused]
    exact ⟨{ s with inner := s.inner }, _, rfl, h⟩
  have hv : 0 < length ∧ offset + length ≤ u64Max := ⟨by omega, by omega⟩
  obtain ⟨m, freed, h1, h2, h3⟩ := punch_spaced hroom h.spaced hv
  generalize haff : (s.idToOffset.entries.filter fun a =>
    decide (a.2.1 < offset + length) && decide (offset < wrap64 (a.2.1 + a.2.2))) = affected
  have hmem : ∀ a, a ∈ affected ↔
      s.idToOffset.get? a.1 = some a.2 ∧ a.2.1 < offset + length ∧ offset < a.2.1 + a.2.2 := fun a => by
    rw [← haff, mem_filter, get?_eq_some, Bool.and_eq_true, decide_eq_true_eq, decide_eq_true_eq]
    refine and_congr_right fun ha => ?_
    rw [wrap64_of_le (h.ids.ranges a.1 a.2 (get?_eq_some.mpr ha)).1.2]
  have hpair : affected.Pairwise fun a b =>
      b.1 ≠ a.1 ∧ ¬ (Splits offset (offset + length) a.2 ∧ Splits offset (offset + length) b.2) := by
    rw [← haff]
    refine (s.idToOffset.sorted.filter _).imp_of_mem fun {a b} ha hb hlt => ⟨ne_of_gt hlt, fun ⟨hsa, hsb⟩ => ?_⟩
    have ha' := ((hmem a).mp (haff ▸ ha)).1
    have hb' := ((hmem b).mp (haff ▸ hb)).1
    exact h.ids.apart a.1 b.1 a.2 b.2 ha' hb' (ne_of_lt hlt) offset ⟨hsa.1.le, by have := hsa.2; omega⟩
      ⟨hsb.1.le, by have := hsb.2; omega⟩
  have hids : Ids { s with inner := m } := ⟨h.ids.ranges, h.ids.apart, h.ids.once, h.ids.below⟩
  obtain ⟨h4, h5, h6, h7⟩ := punchIds_spec (show offset < offset + length by omega) affected hids
    (fun a ha => (hmem a).mp ha) hpair fun _ => hleft
  have hown : ∀ b, Owned (affected.foldl (punchId offset (offset + length)) { s with inner := m }).idToOffset b ↔
      Owned s.idToOffset b ∧ ¬ Holds (offset, length) b := fun b => by
    refine (h5 b).trans (and_congr_right fun ⟨k, r, hk, hb⟩ => not_congr ⟨fun hin => hin.2, fun hin => ⟨?_, hin⟩⟩)
    have hin' : offset ≤ b ∧ b < offset + length := hin
    have hb' : r.1 ≤ b ∧ b < r.1 + r.2 := hb
    exact ⟨(k, r), (hmem (k, r)).mpr ⟨hk, by dsimp only; omega, by dsimp only; omega⟩, hb⟩
  refine ⟨_, .ok (), ?_, h.punched hv h4 hown h2 h3⟩
  dsimp only
  rw [haff, h1]
  show some (_, Except.ok ()) = _
  generalize affected.foldl (punchId offset (offset + length)) { s with inner := m } = s₁ at h6 h7 ⊢
  obtain ⟨inner, freeTracker, _⟩ := s₁
  obtain rfl : inner = m := h6
  obtain rfl : freeTracker = s.freeTracker := h7
  rfl

theorem punchOut_inv (hroom : Roomy P) (h : Inv P s) (hk : s.idToOffset.get? k = some r) :
    ∃ s', (s.forget k).punchOut P r = some (s', .ok ()) ∧ Inv P s' := by
  have hv := (h.ids.ranges k r hk).1
  obtain ⟨h1, h2⟩ := h.ids.forget hk
  obtain ⟨m, freed, h3, h4, h5⟩ := punch_spaced hroom h.spaced hv
  refine ⟨_, ?_, h.punched hv h1 h2 h4 h5⟩
  rw [punchOut, show (s.forget k).inner = s.inner from rfl, h3]
  rfl

theorem extentRelease_inv (h : Inv P s) (k : ExtentId) :
    Inv P (s.extentRelease k).1 ∧ (s.extentRelease k).1.idToOffset = s.idToOffset := by
  unfold extentRelease
  split
  · exact ⟨h, rfl⟩
  · exact ⟨h, rfl⟩
  · exact ⟨h.tables _ _, rfl⟩

theorem extentHold_inv (h : Inv P s) (k : ExtentId) : Inv P (s.extentHold k).1 := by
  unfold extentHold
  split
  · exact h
  · split_ifs
    · exact h
    · exact h.tables _ _

theorem free_inv (hroom : Roomy P) (h : Inv P s) (k : ExtentId) : ∃ s' r, s.free P k = some (s', r) ∧ Inv P s' := by
  unfold free
  cases hk : s.idToOffset.get? k with
  | none => exact ⟨s, _, rfl, h⟩
  | some r =>
    obtain ⟨h1, h2⟩ := extentRelease_inv h k
    generalize s.extentRelease k = released at h1 h2
    obtain ⟨s₁, _ | _ | _⟩ := released
    · exact ⟨s₁, _, rfl, h1⟩
    · exact ⟨_, _, rfl, h1.tables _ _⟩
    · obtain ⟨s', h3, h4⟩ := punchOut_inv hroom h1 (h2.symm ▸ hk)
      exact ⟨s', _, h3, h4⟩

theorem drainId_inv (hroom : Roomy P) (h : Inv P s) (k : ExtentId) (freedCount : ℕ) :
    ∃ s' n, drainId P k s freedCount = some (s', n) ∧ Inv P s' := by
  unfold drainId
  split_ifs
  · cases hk : s.idToOffset.get? k with
    | none => exact ⟨s, _, rfl, h⟩
    | some r =>
      obtain ⟨s', h1, h2⟩ := punchOut_inv hroom h hk
      exact ⟨s', freedCount + 1, by dsimp only; rw [h1]; rfl, h2⟩
  · exact ⟨_, _, rfl, h.tables _ _⟩

theorem drainLoop_inv (hroom : Roomy P) : ∀ (ids : List ExtentId) {s : ExtentMap} (freedCount : ℕ), Inv P s →
    ∃ s' n, drainLoop P ids s freedCount = some (s', n) ∧ Inv P s'
  | [], s, freedCount, h => ⟨s, freedCount, rfl, h⟩
  | k :: ids, s, freedCount, h => by
    obtain ⟨s₁, n, h1, h2⟩ := drainId_inv hroom h k freedCount
    obtain ⟨s', n', h3, h4⟩ := drainLoop_inv hroom ids n h2
    exact ⟨s', n', by rw [drainLoop, h1]; exact h3, h4⟩

/-- Ranges that do not meet are carved one after the other. -/
theorem refreshLoop_spec : ∀ {ranges : List (ℕ × ℕ)} {t : FreeSpaceTracker} {carved : List (ℕ × ℕ)},
    FreeSpaceTracker.Tidy t.regions → (∀ r ∈ ranges, 0 < r.2 ∧ r.1 + r.2 ≤ u64Max) →
    ranges.Pairwise (fun r r' => ∀ b, Holds r b → ¬ Holds r' b) →
    (∀ r ∈ ranges, ∀ b, Holds r b → Covered t.regions b) → (∀ r ∈ ranges, r ∉ carved) →
    FreeSpaceTracker.Tidy (refreshLoop ranges t carved).regions ∧
      ∀ b, Covered (refreshLoop ranges t carved).regions b ↔ Covered t.regions b ∧ ¬ ∃ r ∈ ranges, Holds r b
  | [], t, _, h, _, _, _, _ => ⟨h, fun b => by simp [refreshLoop]⟩
  | r :: ranges, t, carved, h, hv, hpair, hcov, hnew => by
    obtain ⟨hr, hv'⟩ := forall_mem_cons.mp hv
    obtain ⟨hhead, htail⟩ := pairwise_cons.mp hpair
    obtain ⟨hrcov, hcov'⟩ := forall_mem_cons.mp hcov
    obtain ⟨hrnew, hnew'⟩ := forall_mem_cons.mp hnew
    have hin := h.gapped.interval (show r.1 < r.1 + r.2 by omega) fun b h1 h2 => hrcov b ⟨h1, h2⟩
    obtain ⟨t', h1, h2, h3⟩ := carve_spec h hr hin
    have hne : ∀ r' ∈ ranges, r' ≠ r := fun r' hr' heq => by
      subst heq
      exact hhead r' hr' r'.1 ⟨le_rfl, by omega⟩ ⟨le_rfl, by omega⟩
    obtain ⟨h4, h5⟩ := @refreshLoop_spec ranges t' (r :: carved) h2 hv' htail
      (fun r' hr' b hb => (h3 b).mpr ⟨hcov' r' hr' b hb, fun hbr => hhead r' hr' b hbr hb⟩)
      (fun r' hr' hmem => (mem_cons.mp hmem).elim (hne r' hr') (hnew' r' hr'))
    rw [refreshLoop, if_neg hrnew, h1]
    refine ⟨h4, fun b => ?_⟩
    rw [h5, h3]
    simp only [mem_cons, exists_eq_or_imp]
    rw [and_assoc, ← not_or]

theorem refresh_inv (h : Inv P s) : Inv P s.refresh := by
  have hmem : ∀ r, r ∈ s.idToOffset.entries.map snd ↔ ∃ k, s.idToOffset.get? k = some r := fun r => by
    simp [get?_eq_some]
  have hcov : ∀ b, Covered FreeSpaceTracker.new.regions b ↔ b < u64Max := fun b => by
    show Covered [(0, u64Max)] b ↔ _
    rw [covered_cons]
    simp [Covered, Holds]
  obtain ⟨h1, h2⟩ := @refreshLoop_spec (s.idToOffset.entries.map snd) FreeSpaceTracker.new []
    tidy_new
    (fun r hr => by
      obtain ⟨k, hk⟩ := (hmem r).mp hr
      exact (h.ids.ranges k r hk).1)
    (pairwise_map.mpr h.ids.pairwise)
    (fun r hr b hb => by
      obtain ⟨k, hk⟩ := (hmem r).mp hr
      exact (hcov b).mpr (h.owned_lt ⟨k, r, hk, hb⟩))
    (fun r _ => not_mem_nil)
  refine ⟨h.spaced, ⟨h.ids.ranges, h.ids.apart, h.ids.once, h.ids.below⟩, h.union, h1, fun b => ?_⟩
  refine (h2 b).trans ?_
  rw [hcov]
  refine and_congr_right fun _ => not_congr ⟨?_, ?_⟩
  · rintro ⟨r, hr, hb⟩
    obtain ⟨k, hk⟩ := (hmem r).mp hr
    exact ⟨k, r, hk, hb⟩
  · rintro ⟨k, r, hk, hb⟩
    exact ⟨r, (hmem r).mpr ⟨k, hk⟩, hb⟩

/-- **No safe call panics, and each leaves the accounts in agreement.** -/
theorem call_inv (hroom : Roomy P) (h : Inv P s) {c : Call} (hs : Safe P s c) : ∃ s', s.call P c = some s' ∧ Inv P s' := by
  cases c with
  | allocate offset length =>
    obtain ⟨s', r, h1, h2⟩ := allocate_inv hroom h hs
    exact ⟨s', congrArg (Option.map fst) h1, h2⟩
  | punchRange offset length =>
    obtain ⟨s', r, h1, h2⟩ := punchRange_inv hroom h hs
    exact ⟨s', congrArg (Option.map fst) h1, h2⟩
  | free extentId =>
    obtain ⟨s', r, h1, h2⟩ := free_inv hroom h extentId
    exact ⟨s', congrArg (Option.map fst) h1, h2⟩
  | extentHold extentId => exact ⟨_, rfl, extentHold_inv h extentId⟩
  | extentRelease extentId => exact ⟨_, rfl, (extentRelease_inv h extentId).1⟩
  | drainDeferredFrees closedCommitGroup =>
    obtain ⟨s', n, h1, h2⟩ := drainLoop_inv hroom _ 0 h
    exact ⟨s', congrArg (Option.map fst) h1, h2⟩
  | refresh => exact ⟨_, rfl, refresh_inv h⟩

theorem run_inv (hroom : Roomy P) : ∀ (calls : List Call) {s : ExtentMap}, Inv P s → SafeRun P s calls →
    ∃ s', s.run P calls = some s' ∧ Inv P s'
  | [], s, h, _ => ⟨s, rfl, h⟩
  | c :: calls, s, h, hs => by
    obtain ⟨s₁, h1, h2⟩ := call_inv hroom h hs.1
    obtain ⟨s', h3, h4⟩ := run_inv hroom calls h2 (hs.2 s₁ h1)
    refine ⟨s', ?_, h4⟩
    rw [run, foldlM_cons, h1]
    exact h3

/-- **Ids, extents and free regions agree after every safe run.** -/
theorem accounts_agree (blake3 : List UInt8 → Digest) (calls : List Call)
    (h : SafeRun (extentParams blake3) (new (extentParams blake3)) calls) :
    ∃ s, (new (extentParams blake3)).run (extentParams blake3) calls = some s ∧ Consistent s := by
  obtain ⟨s, h1, h2⟩ := run_inv (roomy_extentParams blake3) calls inv_new h
  exact ⟨s, h1, h2.consistent⟩

theorem accounts_agree_punched : ∃ s, (new (extentParams fun _ => 0)).run (extentParams fun _ => 0)
    [.allocate 0 10, .punchRange 3 2] = some s ∧ Consistent s := by
  refine accounts_agree (fun _ => 0) _ ⟨⟨(fun h => nomatch h), by decide⟩, fun s hs => ⟨?_, fun _ _ => trivial⟩⟩
  have hfree : ∃ r ∈ (new (extentParams fun _ => 0)).freeTracker.regions, r.1 ≤ 0 ∧ 0 + 10 ≤ r.1 + r.2 :=
    ⟨(0, u64Max), mem_singleton_self _, by decide⟩
  obtain ⟨s', h1, -, -, h2⟩ := allocate_free (roomy_extentParams fun _ => 0) inv_new
    (show 0 < 10 ∧ 0 + 10 ≤ u64Max by decide) hfree (fun h => nomatch h) (show 1 < u64Max by decide)
  have h3 : s' = s := Option.some.inj ((congrArg (Option.map Prod.fst) h1).symm.trans hs)
  show s.nextExtentId < u64Max
  rw [← h3, h2]
  decide

/-! ## An allocation past the last byte -/

open Option MultiLevelBTreeExtentMap

/-! ### Extents of one byte with a byte between them -/

/-- Every second byte, so many of them. -/
def stripes (k : ℕ) : List ExtentMapEntryV2 := (List.range k).map fun i => newUnwritten (2 * i) 1 0

def spread (k : ℕ) : List Call := (List.range k).map fun i => .allocate (2 * i) 1

variable {k : ℕ}

theorem mem_stripes {x : ExtentMapEntryV2} : x ∈ stripes k ↔ ∃ i < k, newUnwritten (2 * i) 1 0 = x := by
  simp [stripes]

theorem stripes_succ (k : ℕ) : stripes (k + 1) = stripes k ++ [newUnwritten (2 * k) 1 0] := by
  rw [stripes, range_succ, map_append]
  rfl

theorem length_stripes (k : ℕ) : (stripes k).length = k := by
  rw [stripes, length_map, length_range]

theorem layout_stripes (hk : k ≤ v2V3PromotionThreshold) : Layout (stripes k) := by
  have hmax : 2 * v2V3PromotionThreshold + 1 ≤ u64Max := by decide
  refine ⟨⟨fun x hx => ?_, ?_⟩, fun x hx => ?_⟩
  · obtain ⟨i, -, rfl⟩ := mem_stripes.mp hx
    exact Nat.lt_succ_self (2 * i)
  · refine pairwise_map.mpr (pairwise_lt_range.imp fun {i j} hij => ?_)
    show 2 * i + 1 ≤ 2 * j
    omega
  · obtain ⟨i, hi, rfl⟩ := mem_stripes.mp hx
    show 2 * i + 1 ≤ u64Max
    omega

/-- The bytes between the extents and those behind them are free. -/
theorem content_stripes {b : ℕ} (hb : b % 2 = 1 ∨ 2 * k ≤ b) : content (stripes k) b = none := by
  refine content_eq_none.mpr fun x hx hc => ?_
  obtain ⟨i, hi, rfl⟩ := mem_stripes.mp hx
  have hc' : 2 * i ≤ b ∧ b < 2 * i + 1 := hc
  omega

theorem unjoined_stripes (hk : k ≤ v2V3PromotionThreshold) : Unjoined (stripes k) := by
  refine (unjoined_iff (layout_stripes hk)).mpr fun x hx => ?_
  obtain ⟨i, -, rfl⟩ := mem_stripes.mp hx
  show content (stripes k) (2 * i + 1) ≠ _
  rw [content_stripes (Or.inl (by omega))]
  exact fun h => nomatch h

theorem inserted_stripes (hk : k < v2V3PromotionThreshold) :
    inserted (stripes k) [newUnwritten (2 * k) 1 0] = stripes (k + 1) := by
  have hl := layout_stripes (Nat.succ_le_of_lt hk)
  have hu := unjoined_stripes (Nat.succ_le_of_lt hk)
  rw [stripes_succ] at hl hu ⊢
  rw [inserted_append hl, mergeAdjacent_eq hu]

/-- **So many allocations succeed**, one after the other. -/
theorem spread_state (hroom : Roomy P) : ∀ k ≤ v2V3PromotionThreshold, ∃ s, (new P).run P (spread k) = some s ∧
    Inv P s ∧ s.inner.extents = stripes k ∧ s.nextExtentId = k + 1
  | 0, _ => ⟨new P, rfl, inv_new, rfl, rfl⟩
  | k + 1, hk => by
    obtain ⟨s, h1, h2, h3, h4⟩ := spread_state hroom k (Nat.le_of_succ_le hk)
    have hmax : 2 * v2V3PromotionThreshold + 1 ≤ u64Max := by decide
    -- the next byte is not owned, so it lies in a free region
    have hfree : Covered s.freeTracker.regions (2 * k) := by
      refine (h2.complement (2 * k)).mpr ⟨by omega, fun ho => (h2.union (2 * k)).mp ho ?_⟩
      rw [h3]
      exact content_stripes (Or.inr le_rfl)
    obtain ⟨r, hr, hr1, hr2⟩ := hfree
    have hlen : (inserted s.inner.extents [newUnwritten (2 * k) 1 0]).length < deepLimit P := by
      have := hroom.2
      rw [h3, inserted_stripes hk, length_stripes]
      omega
    obtain ⟨s', h5, h6, h7, h8⟩ := allocate_free hroom h2 (show 0 < 1 ∧ 2 * k + 1 ≤ u64Max by omega)
      ⟨r, hr, hr1, hr2⟩ (fun _ => hlen) (h4 ▸ show k + 1 < u64Max by omega)
    refine ⟨s', ?_, h6, ?_, by rw [h8, h4]⟩
    · rw [run, spread, range_succ, map_append, foldlM_append]
      have h1' : ((List.range k).map fun i => Call.allocate (2 * i) 1).foldlM (call P) (new P) = some s := h1
      rw [h1']
      show (call P s (.allocate (2 * k) 1)).bind _ = _
      rw [show call P s (.allocate (2 * k) 1) = some s' from congrArg (Option.map Prod.fst) h5]
      rfl
    · rw [h7, h3, inserted_stripes hk]

/-! ### The extent that wraps around -/

/-- Six bytes before the end of the file. -/
def lateOffset : ℕ := 2 ^ 64 - 6

/-- A length whose end wraps around to the middle of the file. -/
def lateLength : ℕ := 2 ^ 63

/-- Extents in order are made into a tree, wherever they end. -/
theorem rebuild_sorted (hP : P.Valid) (m : MultiLevelBTreeExtentMap) {es : List ExtentMapEntryV2}
    (hs : es.Pairwise fun a b => a.logicalOffset < b.logicalOffset) (hfew : es.length < deepLimit P) :
    ∃ m', rebuild P m es = some m' ∧ checkDepth m' = .ok () ∧
      m'.header.entryCount = es.length := by
  obtain ⟨t, t', h1, h2, h3⟩ := refines_packed hP
    (⟨es.map fun e => (e.logicalOffset, e), pairwise_map.mpr hs⟩ : OrdMap ℕ ExtentMapEntryV2)
  obtain ⟨depth, h4, h5⟩ := h3.depth_le hP
    (show (es.map fun e => (e.logicalOffset, e)).length < 2 * (P.minInternal ^ 5 * P.minLeaf) by
      rw [length_map]
      exact hfew)
  refine ⟨(⟨MapHeader.refresh m.header t' depth es, t'⟩ : MultiLevelBTreeExtentMap).setFileSize
    (max (es.getLast?.elim 0 endOffset) m.fileSize), ?_, if_neg (not_lt.mpr h5), rfl⟩
  have hpacked : BPlusTree.rebuild P (es.map fun e => (e.logicalOffset, e)) = some t := h1
  rw [rebuild, hpacked, bind_some, h2, bind_some, h4, map_some]

/-- The extent goes behind all others: the tree is made from offsets alone. -/
theorem inserted_late (hk : k ≤ v2V3PromotionThreshold) :
    inserted (stripes k) [newUnwritten lateOffset lateLength 0] = stripes k ++ [newUnwritten lateOffset lateLength 0] := by
  set late := newUnwritten lateOffset lateLength 0
  have hmax : 2 * v2V3PromotionThreshold + 1 < lateOffset ∧ 2 * v2V3PromotionThreshold < 2 ^ 63 - 6 := by decide
  have hend : late.endOffset = 2 ^ 63 - 6 := by decide
  have happ : applyInserts (stripes k) [late] 0 = _ :=
    applyInserts_behind (layout_stripes hk) fun e he => by
      obtain ⟨i, hi, rfl⟩ := mem_stripes.mp he
      rw [hend]
      show 2 * i + 1 ≤ lateOffset ∧ 2 * i < 2 ^ 63 - 6
      omega
  have hpos : ∀ e ∈ stripes k ++ [late], decide (0 < e.length) = true := by
    intro e he
    rcases mem_append.mp he with he | he
    · obtain ⟨i, -, rfl⟩ := mem_stripes.mp he
      rfl
    · obtain rfl := mem_singleton.mp he
      decide
  have hu : Unjoined (stripes k ++ [late]) := by
    refine isChain_append.mpr ⟨unjoined_stripes hk, isChain_singleton _, fun x hx y hy hj => ?_⟩
    obtain ⟨i, hi, rfl⟩ := mem_stripes.mp (mem_of_getLast? hx)
    obtain rfl := some.inj hy
    have hmeet := ((joins_iff ((layout_stripes hk).fits _ (mem_stripes.mpr ⟨i, hi, rfl⟩))).mp hj).1
    have hmeet' : 2 * i + 1 = lateOffset := hmeet
    omega
  show mergeAdjacent (retainNonempty (applyInserts (stripes k) [late] 0)) = _
  rw [happ, retainNonempty, filter_eq_self.mpr hpos, mergeAdjacent_eq hu]

/-- **The multi-level tree takes the extent.** -/
theorem insert_late (hroom : Roomy P) {m : PolymorphicExtentMap} (h : Spaced P m)
    (hes : m.extents = stripes v2V3PromotionThreshold) :
    ∃ m', m.step P (.insertExtent [newUnwritten lateOffset lateLength 0]) = some (m', .ok []) := by
  set late := newUnwritten lateOffset lateLength 0
  have hP := hroom.1
  have hact : m.active = .multiLevel := by
    by_contra hne
    exact absurd (h.few hne) (by rw [hes, length_stripes]; exact lt_irrefl _)
  have hheld := h.rest.held
  obtain ⟨_, inline, btree, multiLevel⟩ := m
  obtain rfl := hact
  have hs : Settled P multiLevel := hheld
  have hes' : multiLevel.extents = stripes v2V3PromotionThreshold := hes
  have hsorted : (stripes v2V3PromotionThreshold ++ [late]).Pairwise
      fun a b => a.logicalOffset < b.logicalOffset := by
    have hmax : 2 * v2V3PromotionThreshold < lateOffset := by decide
    refine pairwise_append.mpr ⟨(layout_stripes le_rfl).tiles.ascend, pairwise_singleton _ _, fun x hx y hy => ?_⟩
    obtain ⟨i, hi, rfl⟩ := mem_stripes.mp hx
    obtain rfl := mem_singleton.mp hy
    show 2 * i < lateOffset
    omega
  have hlen : (stripes v2V3PromotionThreshold ++ [late]).length =
      v2V3PromotionThreshold + 1 := by
    rw [length_append, length_stripes, length_singleton]
  obtain ⟨t, h1, h2, h3⟩ := rebuild_sorted hP multiLevel hsorted (by rw [hlen]; have := hroom.2; omega)
  have hins : step P multiLevel (.insertExtent [late]) =
      some (t, .ok []) := by
    have : insertWith P (fun e => e.length == 0) checkDepth multiLevel
        [late] = some (t, .ok ()) := by
      rw [insertWith, if_neg (by simp), if_neg (by decide), if_neg (by decide), insertChecked_eq hP hs.sound, hes',
        inserted_late le_rfl, h1, map_some, h2]
    exact congrArg (Option.map _) this
  have hswitch : checkAndSwitch P (⟨.multiLevel, inline, btree, t⟩ : PolymorphicExtentMap) =
      some (⟨.multiLevel, inline, btree, t⟩, .ok ()) := by
    refine if_neg (not_le.mpr ?_)
    show v3V2DemotionThreshold < t.header.entryCount
    rw [h3, hlen]
    decide
  refine ⟨⟨.multiLevel, inline, btree, t⟩, ?_⟩
  rw [PolymorphicExtentMap.step, @insertActive_eq P _ ⟨.multiLevel, inline, btree, multiLevel⟩ _ rfl]
  show ((step P multiLevel _).map _).bind _ = _
  rw [hins]
  show (checkAndSwitch P (⟨.multiLevel, inline, btree, t⟩ : PolymorphicExtentMap)).map _ = _
  rw [hswitch]
  rfl

/-- **The allocation fails with an id handed out**, and its bytes stay free. -/
theorem allocate_late (hroom : Roomy P) {s : ExtentMap} (h : Inv P s)
    (hes : s.inner.extents = stripes v2V3PromotionThreshold) :
    ∃ s', s.call P (.allocate lateOffset lateLength) = some s' ∧ Owned s'.idToOffset lateOffset ∧
      Covered s'.freeTracker.regions lateOffset := by
  have hmax : 2 * v2V3PromotionThreshold < lateOffset ∧ lateOffset < u64Max := by decide
  have hcov : ∀ b, lateOffset ≤ b → b < u64Max → Covered s.freeTracker.regions b := fun b hb hlt => by
    refine (h.complement b).mpr ⟨hlt, fun ho => (h.union b).mp ho ?_⟩
    rw [hes]
    exact content_stripes (Or.inr (by omega))
  have hfree : s.freeTracker.isFree lateOffset lateLength = true := by
    obtain ⟨r, hr, h1, h2⟩ := h.tidy.gapped.interval hmax.2 hcov
    refine any_eq_true.mpr ⟨r, hr, ?_⟩
    have hsat : satAdd lateOffset lateLength = u64Max := by decide
    rw [hsat, wrap64_of_le (h.tidy.bounded r hr), Bool.and_eq_true, decide_eq_true_eq, decide_eq_true_eq]
    exact ⟨h1, h2⟩
  obtain ⟨m, h1⟩ := insert_late hroom h.spaced hes
  have hcarve : s.freeTracker.carve lateOffset lateLength = .error .invalidRange := by
    rw [FreeSpaceTracker.carve, if_neg (by decide), if_pos (by decide)]
  have hcall : s.allocate P lateOffset lateLength =
      some (({ s with inner := m } : ExtentMap).issue (lateOffset, lateLength), .error .invalidRange) := by
    rw [allocate_eq (by decide) hfree h1, hcarve]
  refine ⟨_, congrArg (Option.map Prod.fst) hcall, ⟨s.nextExtentId, (lateOffset, lateLength), ?_, ?_⟩,
    hcov lateOffset le_rfl hmax.2⟩
  · show (s.idToOffset.insert _ _).get? _ = _
    rw [OrdMap.get?_insert, if_pos rfl]
  · decide

/-- **An allocation past the last byte.** After 100000 allocations of every second byte
one that ends past the last byte fails, but owns bytes that are free. -/
theorem overflow_breaks_accounts : ∃ s, (new (extentParams fun _ => 0)).run (extentParams fun _ => 0)
    (spread v2V3PromotionThreshold ++ [.allocate lateOffset lateLength]) = some s ∧ ¬ Consistent s := by
  have hroom := roomy_extentParams fun _ => 0
  obtain ⟨s, h1, h2, h3, -⟩ := spread_state hroom v2V3PromotionThreshold le_rfl
  obtain ⟨s', h4, h5, h6⟩ := allocate_late hroom h2 h3
  refine ⟨s', ?_, fun hc => ((hc.complement lateOffset).mp h6).2 h5⟩
  rw [run] at h1 ⊢
  rw [foldlM_append, h1]
  show (call _ s (.allocate lateOffset lateLength)).bind _ = _
  rw [h4]
  rfl

end ExtentMap
end Tidefs.Userspace
