/-
# What the free-block bitmap promises

The cached count is the number of free blocks and the hint stays within the
bitmap (`Inv`). A search that succeeds returns as many distinct blocks as were
asked for, all free before and none of them skipped, and takes exactly those
(`Granted`); a contiguous search returns them in cyclic order from one block
(`allocContiguousWhere_spec`, `allocContiguousBestFit_spec`). A contiguous
search that fails changes nothing. A scattered search fails only if fewer
blocks are usable than were asked for, and then all of those are gone
(`allocScatteredWhere_spec`).
-/
import Tidefs.Allocator.Bitmap

namespace Tidefs.Allocator

open Ordered Word Bits List Option Nat

namespace FreeBlockBitmap

def freeSet (bm : FreeBlockBitmap) : Finset ℕ := (Finset.range bm.blockCount).filter fun b => bm.isFree b = true

/-- What every operation keeps. -/
structure Inv (bm : FreeBlockBitmap) : Prop where
  length : bm.words.length = wordCountFor bm.blockCount
  count : bm.freeCount = bm.freeSet.card
  hint : bm.hint ≤ bm.blockCount

theorem isFreeInner_eq (bm : FreeBlockBitmap) (id : ℕ) : bm.isFreeInner id = !bitAt bm.words id := by
  have h := getD_and_mask (by decide) bm.words id
  cases hb : bitAt bm.words id with
  | false => exact beq_iff_eq.mpr (h.mpr hb)
  | true =>
    rw [hb] at h
    exact beq_eq_false_iff_ne.mpr fun he => absurd (h.mp he) (by decide)

variable {bm : FreeBlockBitmap} {id : ℕ}

theorem isFree_iff : bm.isFree id = true ↔ id < bm.blockCount ∧ bm.isFreeInner id = true := by
  unfold isFree
  split_ifs with h
  · simp; omega
  · simp; omega

theorem isFree_iff_bitAt : bm.isFree id = true ↔ id < bm.blockCount ∧ bitAt bm.words id = false := by
  rw [isFree_iff, isFreeInner_eq, Bool.not_eq_true']

theorem mem_freeSet : id ∈ bm.freeSet ↔ bm.isFree id = true := by
  simp only [freeSet, Finset.mem_filter, Finset.mem_range, and_iff_right_iff_imp]
  exact fun h => (isFree_iff.mp h).1

theorem lt_of_mem_freeSet (h : id ∈ bm.freeSet) : id < bm.blockCount :=
  (isFree_iff.mp (mem_freeSet.mp h)).1

theorem word_lt (h : bm.words.length = wordCountFor bm.blockCount)
    (hid : id < bm.blockCount) : id / bitsPerWord < bm.words.length := by
  rw [h, wordCountFor, lt_divCeil_iff (by decide)]
  have := div_mul_le_self id bitsPerWord
  omega

/-! ### One block -/

theorem markUsed_blockCount (bm : FreeBlockBitmap) (id : ℕ) : (bm.markUsed id).blockCount = bm.blockCount := by
  unfold markUsed; split_ifs <;> rfl

theorem markUsed_hint (bm : FreeBlockBitmap) (id : ℕ) : (bm.markUsed id).hint = bm.hint := by
  unfold markUsed; split_ifs <;> rfl

theorem markUsed_of_notMem (h : id ∉ bm.freeSet) : bm.markUsed id = bm := by
  rw [mem_freeSet, isFree_iff_bitAt] at h
  unfold markUsed
  split_ifs with h1 h2
  · rfl
  · exact absurd ⟨not_le.mp h1, (getD_and_mask (by decide) _ _).mp h2⟩ h
  · rfl

theorem markUsed_spec (h : Inv bm) (id : ℕ) :
    Inv (bm.markUsed id) ∧ (bm.markUsed id).freeSet = bm.freeSet.erase id := by
  by_cases hf : id ∈ bm.freeSet
  · obtain ⟨h1, h2⟩ := isFree_iff_bitAt.mp (mem_freeSet.mp hf)
    have hdef : bm.markUsed id = { bm with
        words := bm.words.modify (id / bitsPerWord) (· ||| mask 64 (id % bitsPerWord))
        freeCount := bm.freeCount - 1
        dirty := true } := by
      unfold markUsed
      rw [if_neg (not_le.mpr h1), if_pos ((getD_and_mask (by decide) _ _).mpr h2)]
    have hset : (bm.markUsed id).freeSet = bm.freeSet.erase id := by
      ext x
      rw [Finset.mem_erase, mem_freeSet, mem_freeSet, isFree_iff_bitAt, isFree_iff_bitAt, markUsed_blockCount, hdef]
      rw [bitAt_set (n := 64) (by decide) (word_lt h.length h1), Bool.or_eq_false_iff, decide_eq_false_iff_not]
      tauto
    refine ⟨⟨?_, ?_, ?_⟩, hset⟩
    · rw [markUsed_blockCount, hdef]
      rw [length_modify]
      exact h.length
    · rw [hset, Finset.card_erase_of_mem hf, ← h.count, hdef]
    · rw [markUsed_blockCount, markUsed_hint]
      exact h.hint
  · rw [markUsed_of_notMem hf, Finset.erase_eq_of_notMem hf]
    exact ⟨h, rfl⟩

theorem markFree_blockCount (bm : FreeBlockBitmap) (id : ℕ) : (bm.markFree id).blockCount = bm.blockCount := by
  unfold markFree; split_ifs <;> rfl

theorem markFree_hint (bm : FreeBlockBitmap) (id : ℕ) : (bm.markFree id).hint = bm.hint := by
  unfold markFree; split_ifs <;> rfl

theorem markFree_spec (h : Inv bm) (id : ℕ) : Inv (bm.markFree id) ∧
    (bm.markFree id).freeSet = if id < bm.blockCount then insert id bm.freeSet else bm.freeSet := by
  by_cases h1 : id < bm.blockCount
  · rw [if_pos h1]
    by_cases hb : bitAt bm.words id = false
    · -- the block is free already
      have hf : id ∈ bm.freeSet := mem_freeSet.mpr (isFree_iff_bitAt.mpr ⟨h1, hb⟩)
      have hdef : bm.markFree id = bm := by
        unfold markFree
        rw [if_neg (not_le.mpr h1), if_neg (not_not.mpr ((getD_and_mask (by decide) _ _).mpr hb))]
      rw [hdef, Finset.insert_eq_of_mem hf]
      exact ⟨h, rfl⟩
    · have hf : id ∉ bm.freeSet := fun hf => hb (isFree_iff_bitAt.mp (mem_freeSet.mp hf)).2
      have hdef : bm.markFree id = { bm with
          words := bm.words.modify (id / bitsPerWord) (· &&& ~~~ mask 64 (id % bitsPerWord))
          freeCount := bm.freeCount + 1
          dirty := true } := by
        unfold markFree
        rw [if_neg (not_le.mpr h1), if_pos fun he => hb ((getD_and_mask (by decide) _ _).mp he)]
      have hset : (bm.markFree id).freeSet = insert id bm.freeSet := by
        ext x
        rw [Finset.mem_insert, mem_freeSet, mem_freeSet, isFree_iff_bitAt, isFree_iff_bitAt, markFree_blockCount, hdef]
        rw [bitAt_clear (n := 64) (word_lt h.length h1), Bool.and_eq_false_iff, Bool.not_eq_false', decide_eq_true_iff]
        constructor
        · rintro ⟨h3, h4 | h4⟩
          · exact .inr ⟨h3, h4⟩
          · exact .inl h4
        · rintro (rfl | ⟨h3, h4⟩)
          · exact ⟨h1, .inr rfl⟩
          · exact ⟨h3, .inl h4⟩
      refine ⟨⟨?_, ?_, ?_⟩, hset⟩
      · rw [markFree_blockCount, hdef]
        rw [length_modify]
        exact h.length
      · rw [hset, Finset.card_insert_of_notMem hf, ← h.count, hdef]
      · rw [markFree_blockCount, markFree_hint]
        exact h.hint
  · have hdef : bm.markFree id = bm := by unfold markFree; rw [if_pos (not_lt.mp h1)]
    rw [if_neg h1, hdef]
    exact ⟨h, rfl⟩

theorem foldl_markUsed_spec : ∀ (ids : List ℕ) {bm : FreeBlockBitmap}, Inv bm →
    Inv (ids.foldl markUsed bm) ∧ (ids.foldl markUsed bm).freeSet = bm.freeSet \ ids.toFinset ∧
      (ids.foldl markUsed bm).blockCount = bm.blockCount ∧ (ids.foldl markUsed bm).hint = bm.hint
  | [], _, h => ⟨h, by simp, rfl, rfl⟩
  | id :: ids, bm, h => by
    obtain ⟨h1, h2⟩ := markUsed_spec h id
    obtain ⟨h3, h4, h5, h6⟩ := foldl_markUsed_spec ids h1
    refine ⟨h3, ?_, h5.trans (markUsed_blockCount bm id), h6.trans (markUsed_hint bm id)⟩
    rw [foldl_cons, h4, h2]
    ext x
    simp only [Finset.mem_sdiff, Finset.mem_erase, List.mem_toFinset, List.mem_cons]
    tauto

theorem mem_freed {x id count : ℕ} {ids : List ℕ} {before after : Prop} (h : after ↔ before ∨ x = id ∧ id < count) :
    (after ∨ x ∈ ids ∧ x < count) ↔ before ∨ x ∈ id :: ids ∧ x < count := by
  rw [h, mem_cons]
  grind

theorem freeBlocks_spec : ∀ (ids : List ℕ) {bm : FreeBlockBitmap}, Inv bm →
    Inv (bm.freeBlocks ids) ∧ (bm.freeBlocks ids).blockCount = bm.blockCount ∧
      ∀ x, x ∈ (bm.freeBlocks ids).freeSet ↔ x ∈ bm.freeSet ∨ x ∈ ids ∧ x < bm.blockCount
  | [], _, h => ⟨h, rfl, fun x => by simp [freeBlocks]⟩
  | id :: ids, bm, h => by
    obtain ⟨h1, h2⟩ := markFree_spec h id
    obtain ⟨h3, h4, h5⟩ := freeBlocks_spec ids h1
    refine ⟨h3, h4.trans (markFree_blockCount bm id), fun x => ?_⟩
    show x ∈ ((bm.markFree id).freeBlocks ids).freeSet ↔ _
    rw [h5, h2, markFree_blockCount]
    refine mem_freed ?_
    split_ifs with hid
    · simp [hid, or_comm]
    · simp [hid]

/-! ### What a search returns -/

/-- `need` blocks from `first` on, past the end of the bitmap from block 0 on. -/
def cyclic (total first need : ℕ) : List ℕ := (List.range need).map fun off => (first + off) % total

variable {total need : ℕ}

theorem cyclic_nodup (first : ℕ) (h : need ≤ total) : (cyclic total first need).Nodup := by
  refine List.Nodup.map_on (fun a ha b hb hab => ?_) nodup_range
  rw [mem_range] at ha hb
  have := Nat.ModEq.add_left_cancel' first hab
  rwa [Nat.ModEq, mod_eq_of_lt (by omega), mod_eq_of_lt (by omega)] at this

theorem cyclic_length (total first need : ℕ) : (cyclic total first need).length = need := by simp [cyclic]

variable {first : ℕ}

theorem forall_mem_cyclic {P : ℕ → Prop} :
    (∀ id ∈ cyclic total first need, P id) ↔ ∀ off < need, P ((first + off) % total) := by
  simp [cyclic]

/-- A run that does not reach past the end is its own cyclic run. -/
theorem range'_eq_cyclic (h : first + need ≤ total) : range' first need = cyclic total first need := by
  rw [range'_eq_map_range]
  exact map_congr_left fun i hi => (mod_eq_of_lt (by have := mem_range.mp hi; omega)).symm

/-- The search took the `n` blocks `ids`: they are distinct, were free and not
to be skipped, and nothing else changed. -/
structure Granted (skip : ℕ → Bool) (bm bm' : FreeBlockBitmap) (n : ℕ) (ids : List ℕ) : Prop where
  nodup : ids.Nodup
  length : ids.length = n
  free : ∀ id ∈ ids, id ∈ bm.freeSet
  kept : ∀ id ∈ ids, skip id = false
  inv : Inv bm'
  blockCount : bm'.blockCount = bm.blockCount
  freeSet : bm'.freeSet = bm.freeSet \ ids.toFinset

def usableSet (skip : ℕ → Bool) (bm : FreeBlockBitmap) : Finset ℕ := bm.freeSet.filter fun b => skip b = false

variable {skip : ℕ → Bool}

theorem mem_usableSet : id ∈ usableSet skip bm ↔ id ∈ bm.freeSet ∧ skip id = false := Finset.mem_filter

theorem usable_iff (skip : ℕ → Bool) (hid : id < bm.blockCount) :
    (bm.isFreeInner id && !skip id) = true ↔ id ∈ usableSet skip bm := by
  rw [mem_usableSet, mem_freeSet, isFree_iff, Bool.and_eq_true, Bool.not_eq_true']
  exact and_congr_left fun _ => ⟨fun h => ⟨hid, h⟩, And.right⟩

variable {n : ℕ} {ids : List ℕ}

theorem Granted.le_usable {bm' : FreeBlockBitmap} (h : Granted skip bm bm' n ids) : n ≤ (usableSet skip bm).card := by
  rw [← h.length, ← toFinset_card_of_nodup h.nodup]
  refine Finset.card_le_card fun id hid => ?_
  rw [List.mem_toFinset] at hid
  exact mem_usableSet.mpr ⟨h.free id hid, h.kept id hid⟩

theorem Granted.freeCount {bm' : FreeBlockBitmap}
    (h : Granted skip bm bm' n ids) (hi : Inv bm) : bm'.freeCount + n = bm.freeCount := by
  have hsub : ids.toFinset ⊆ bm.freeSet := fun id hid => h.free id (mem_toFinset.mp hid)
  rw [h.inv.count, hi.count, h.freeSet, ← h.length, ← toFinset_card_of_nodup h.nodup]
  exact Finset.card_sdiff_add_card_eq_card hsub

variable {hint : ℕ}

/-- Any distinct usable blocks can be taken. -/
theorem granted_take (skip : ℕ → Bool) (h : Inv bm)
    (hnd : ids.Nodup) (hus : ∀ id ∈ ids, id ∈ usableSet skip bm) (hh : hint ≤ bm.blockCount) :
    Granted skip bm (bm.take ids hint) ids.length ids := by
  obtain ⟨h1, h2, h3, -⟩ := foldl_markUsed_spec ids h
  exact ⟨hnd, rfl, fun id hid => (mem_usableSet.mp (hus id hid)).1, fun id hid => (mem_usableSet.mp (hus id hid)).2,
    ⟨h1.length, h1.count, hh.trans_eq h3.symm⟩, h3, h2⟩

/-! ### First fit -/

/-- The run under way before position `k`: it ends there, and all of it is usable. -/
def RunAt (usable : ℕ → Bool) (total k : ℕ) : Option ℕ × ℕ → Prop
  | (none, len) => len = 0
  | (some s, len) => (s + len) % total = k % total ∧ ∀ off < len, usable ((s + off) % total) = true

/-- A pass over the positions `k, k + 1, …` modulo the size of the bitmap. -/
theorem searchPass_spec (usable : ℕ → Bool) (need total : ℕ) : ∀ (n k : ℕ) (run : Option ℕ × ℕ),
    RunAt usable total k run → run.2 < need → match searchPass usable need ((range' k n).map (· % total)) run with
    | .inl first => ∀ off < need, usable ((first + off) % total) = true
    | .inr run' => RunAt usable total (k + n) run' ∧ run'.2 < need
  | 0, k, run, h, hlt => ⟨h, hlt⟩
  | n + 1, k, (runStart, runLen), h, hlt => by
    rw [range'_succ, map_cons, searchPass]
    have hnext : k + (n + 1) = k + 1 + n := by omega
    split_ifs with hu hn
    · -- the run, with this block, is as long as asked for
      intro off hoff
      have hlen : off < runLen ∨ off = runLen := by omega
      cases runStart with
      | none =>
        obtain rfl : runLen = 0 := h
        obtain rfl : off = 0 := by omega
        simpa using hu
      | some s =>
        rcases hlen with hlen | rfl
        · exact h.2 off hlen
        · simpa [h.1] using hu
    · rw [hnext]
      refine searchPass_spec usable need total n (k + 1) _ ?_ (by dsimp only; omega)
      cases runStart with
      | none =>
        obtain rfl : runLen = 0 := h
        refine ⟨by simp, fun off hoff => ?_⟩
        obtain rfl : off = 0 := by omega
        simpa using hu
      | some s =>
        obtain ⟨h1, h2⟩ := h
        refine ⟨Nat.ModEq.add_right 1 h1, fun off hoff => ?_⟩
        rcases Nat.lt_succ_iff_lt_or_eq.mp hoff with hoff | rfl
        · exact h2 off hoff
        · simpa [h1] using hu
    · rw [hnext]
      exact searchPass_spec usable need total n (k + 1) (none, 0) rfl (by dsimp only; omega)

variable {usable : ℕ → Bool}

theorem firstFit_spec (hn : 0 < need) (hh : hint ≤ total)
    (h : firstFit usable need hint total = some first) : ∀ off < need, usable ((first + off) % total) = true := by
  -- both passes as one walk around the bitmap
  have hpass0 : (range' hint (total - hint)).map (· % total) = range' hint (total - hint) := by
    refine (map_congr_left fun i hi => ?_).trans (map_id _)
    exact Nat.mod_eq_of_lt (by have := mem_range'_1.mp hi; omega)
  have hpass1 : (range' total hint).map (· % total) = range hint := by
    refine ext_getElem (by simp) fun i h1 _ => ?_
    have hi : i < hint := by simpa using h1
    simp [Nat.mod_eq_of_lt (show i < total by omega)]
  have h0 := searchPass_spec usable need total (total - hint) hint (none, 0) rfl hn
  rw [hpass0, Nat.add_sub_cancel' hh] at h0
  unfold firstFit at h
  cases hs : searchPass usable need (range' hint (total - hint)) (none, 0) with
  | inl x =>
    rw [hs] at h h0
    obtain rfl : x = first := by simpa using h
    exact h0
  | inr run =>
    rw [hs] at h h0
    obtain ⟨h1, h2⟩ := h0
    have hrun : RunAt usable total total (carryOver total run) ∧ (carryOver total run).2 < need := by
      obtain ⟨runStart, runLen⟩ := run
      cases runStart with
      | none => exact ⟨h1, h2⟩
      | some rs =>
        simp only [carryOver]
        split_ifs
        · exact ⟨rfl, hn⟩
        · exact ⟨h1, h2⟩
    have h3 := searchPass_spec usable need total hint total _ hrun.1 hrun.2
    rw [hpass1] at h3
    dsimp only at h
    cases hs1 : searchPass usable need (range hint) (carryOver total run) with
    | inl x =>
      rw [hs1] at h h3
      obtain rfl : x = first := by simpa using h
      exact h3
    | inr run => rw [hs1] at h; simp at h

/-! ### The run across the end, and best fit -/

theorem takeWhile_getElem {usable : ℕ → Bool} {l : List ℕ} {j : ℕ} (h : j < (l.takeWhile usable).length) :
    ∃ hj : j < l.length, usable l[j] = true := by
  have hpre := takeWhile_prefix usable (l := l)
  exact ⟨h.trans_le hpre.length_le, hpre.getElem h ▸ mem_takeWhile_imp (getElem_mem h)⟩

theorem length_takeWhile_range (usable : ℕ → Bool) (total j : ℕ)
    (h : j < ((range total).takeWhile usable).length) : usable j = true ∧ j < total := by
  obtain ⟨hj, hu⟩ := takeWhile_getElem h
  exact ⟨by simpa using hu, by simpa using hj⟩

theorem length_takeWhile_range_reverse (usable : ℕ → Bool) (total j : ℕ)
    (h : j < ((range total).reverse.takeWhile usable).length) : usable (total - 1 - j) = true ∧ j < total := by
  obtain ⟨hj, hu⟩ := takeWhile_getElem h
  exact ⟨by simpa using hu, by simpa using hj⟩

theorem wrapAround_spec (hle : need ≤ total) (h : wrapAround usable need total = some (ids, hint)) :
    hint ≤ total ∧ ∃ first, ids = cyclic total first need ∧ ∀ off < need, usable ((first + off) % total) = true := by
  unfold wrapAround at h
  have hsuf := length_takeWhile_range_reverse usable total
  have hpre := length_takeWhile_range usable total
  generalize ((range total).reverse.takeWhile usable).length = suf at h hsuf
  generalize ((range total).takeWhile usable).length = pre at h hpre
  simp only [ite_none_right_eq_some, Option.some.injEq, Prod.mk.injEq] at h
  obtain ⟨hneed, hids, hhint⟩ := h
  refine ⟨by split_ifs at hhint <;> omega, ?_⟩
  by_cases hs : need ≤ suf
  · -- the end of the bitmap is enough
    rw [if_pos hs, min_eq_left hs] at hids
    refine ⟨total - need, by rw [← hids]; exact range'_eq_cyclic (by omega), fun off hoff => ?_⟩
    rw [mod_eq_of_lt (by omega)]
    have := (hsuf (need - 1 - off) (by omega)).1
    rwa [show total - 1 - (need - 1 - off) = total - need + off by omega] at this
  · have hst : suf ≤ total := by
      by_contra hgt
      have := (hsuf total (by omega)).2
      omega
    rw [if_neg hs, min_eq_right (by omega)] at hids
    refine ⟨total - suf, ?_, fun off hoff => ?_⟩
    · rw [← hids]
      refine ext_getElem (by simp [cyclic]; omega) fun i h1 h2 => ?_
      have hi : i < need := by simpa [cyclic] using h2
      rw [getElem_append]
      split_ifs with h3
      · have h4 : i < total - (total - suf) := by simpa using h3
        simp [cyclic, mod_eq_of_lt (show total - suf + i < total by omega)]
      · have h4 : total - (total - suf) ≤ i := by simpa using h3
        have h5 : total - suf + i = i - suf + total := by omega
        simp only [cyclic, getElem_map, getElem_range, length_range', h5, add_mod_right]
        rw [mod_eq_of_lt (by omega)]
        omega
    · rcases lt_or_ge off suf with h3 | h3
      · rw [mod_eq_of_lt (by omega)]
        have := (hsuf (suf - 1 - off) (by omega)).1
        rwa [show total - 1 - (suf - 1 - off) = total - suf + off by omega] at this
      · rw [show total - suf + off = off - suf + total by omega, add_mod_right, mod_eq_of_lt (by omega)]
        exact (hpre (off - suf) (by omega)).1

theorem bestRun_spec : ∀ (runs : List Run) (best : Option ℕ × ℕ),
    bestRun need runs best = some first → best.1 = some first ∨ ∃ r ∈ runs, r.start = first ∧ need ≤ r.len
  | [], best, h => .inl h
  | r :: runs, (bestStart, bestLen), h => by
    unfold bestRun at h
    split_ifs at h with h1 h2
    · exact .inr ⟨r, mem_cons_self, by simpa using h, h1.1⟩
    · rcases bestRun_spec runs _ h with h3 | ⟨x, hx, h3⟩
      · exact .inr ⟨r, mem_cons_self, by simpa using h3, h1.1⟩
      · exact .inr ⟨x, mem_cons_of_mem _ hx, h3⟩
    · rcases bestRun_spec runs _ h with h3 | ⟨x, hx, h3⟩
      · exact .inl h3
      · exact .inr ⟨x, mem_cons_of_mem _ hx, h3⟩

/-- The run best fit chooses lies in the bitmap and is usable. -/
theorem bestRun_scan (h : bestRun need (scan usable 0 total []) (none, u64Max) = some first) :
    first + need ≤ total ∧ ∀ off < need, usable (first + off) = true := by
  rcases bestRun_spec _ _ h with h1 | ⟨r, hr, rfl, hlen⟩
  · simp at h1
  · rcases scan_valid usable (zero_le total) [] r hr with h1 | ⟨-, h1, h2⟩
    · simp at h1
    · unfold Run.len at hlen
      refine ⟨by omega, fun off hoff => ?_⟩
      have hheld : Held (scan usable 0 total []) (r.start + off) := ⟨r, hr, by constructor <;> omega⟩
      rcases (scan_covers usable (zero_le total) [] _).mp hheld with ⟨x, hx, -⟩ | h3
      · simp at hx
      · exact h3.2.2

theorem granted_cyclic (h : Inv bm) (hle : n ≤ bm.blockCount) (hpos : 0 < bm.blockCount)
    (hhint : hint ≤ bm.blockCount) (husable : ∀ off < n,
      (bm.isFreeInner ((first + off) % bm.blockCount) && !skip ((first + off) % bm.blockCount)) = true) :
    Granted skip bm (bm.take (cyclic bm.blockCount first n) hint) n (cyclic bm.blockCount first n) := by
  have hgranted := granted_take skip h (cyclic_nodup first hle) (forall_mem_cyclic.mpr fun off hoff =>
    (usable_iff _ (mod_lt _ hpos)).mp (husable off hoff)) hhint
  rwa [cyclic_length] at hgranted

/-- A contiguous search takes consecutive usable blocks, or changes nothing. -/
theorem allocContiguousWhere_spec (skip : ℕ → Bool) (h : Inv bm) (n : ℕ) :
    (∃ bm' first, allocContiguousWhere skip bm n = (bm', .ok (cyclic bm.blockCount first n)) ∧ 0 < n ∧
      Granted skip bm bm' n (cyclic bm.blockCount first n)) ∨
    allocContiguousWhere skip bm n = (bm, .error .noSpace) := by
  unfold allocContiguousWhere
  dsimp only
  split_ifs with hguard
  · exact .inr rfl
  have hn : 0 < n := by omega
  have hle : n ≤ bm.blockCount := by omega
  have hpos : 0 < bm.blockCount := by omega
  cases hf : firstFit (fun blk => bm.isFreeInner blk && !skip blk) n bm.hint bm.blockCount with
  | some first =>
    exact .inl ⟨_, first, rfl, hn, granted_cyclic h hle hpos (mod_lt _ hpos).le (firstFit_spec hn h.hint hf)⟩
  | none =>
    cases hw : wrapAround (fun blk => bm.isFreeInner blk && !skip blk) n bm.blockCount with
    | none => exact .inr rfl
    | some p =>
      obtain ⟨ids, hint⟩ := p
      obtain ⟨hh, first, rfl, hus⟩ := wrapAround_spec hle hw
      exact .inl ⟨_, first, rfl, hn, granted_cyclic h hle hpos hh hus⟩

theorem allocContiguousBestFit_spec (h : Inv bm) (n : ℕ) :
    (∃ bm' first, bm.allocContiguousBestFit n = (bm', .ok (cyclic bm.blockCount first n)) ∧ 0 < n ∧
      Granted (fun _ => false) bm bm' n (cyclic bm.blockCount first n)) ∨
    bm.allocContiguousBestFit n = (bm, .error .noSpace) := by
  unfold allocContiguousBestFit
  dsimp only
  split_ifs with hguard
  · exact .inr rfl
  have hn : 0 < n := by omega
  have hle : n ≤ bm.blockCount := by omega
  have hpos : 0 < bm.blockCount := by omega
  have htake : ∀ {first hint}, hint ≤ bm.blockCount →
      (∀ off < n, bm.isFreeInner ((first + off) % bm.blockCount) = true) →
      Granted (fun _ => false) bm (bm.take (cyclic bm.blockCount first n) hint) n (cyclic bm.blockCount first n) :=
    fun hh hus => granted_cyclic h hle hpos hh fun off hoff => by simpa using hus off hoff
  cases hf : bestRun n (scan bm.isFreeInner 0 bm.blockCount []) (none, u64Max) with
  | some first =>
    obtain ⟨h1, h2⟩ := bestRun_scan hf
    dsimp only
    rw [range'_eq_cyclic h1]
    refine .inl ⟨_, first, rfl, hn, htake h1 fun off hoff => ?_⟩
    rw [mod_eq_of_lt (by omega)]
    exact h2 off hoff
  | none =>
    cases hw : wrapAround bm.isFreeInner n bm.blockCount with
    | none => exact .inr rfl
    | some p =>
      obtain ⟨ids, hint⟩ := p
      obtain ⟨hh, first, rfl, hus⟩ := wrapAround_spec hle hw
      exact .inl ⟨_, first, rfl, hn, htake hh hus⟩

theorem allocContiguousAt_spec (h : Inv bm) (start n : ℕ) :
    (∃ bm', bm.allocContiguousAt start n = (bm', .ok (range' start n)) ∧ 0 < n ∧
      Granted (fun _ => false) bm bm' n (range' start n)) ∨
    bm.allocContiguousAt start n = (bm, .error .noSpace) := by
  unfold allocContiguousAt
  dsimp only
  split_ifs with hguard hall
  · exact .inr rfl
  · have hus : ∀ id ∈ range' start n, id ∈ usableSet (fun _ => false) bm := fun id hid => by
      have hlt := mem_range'_1.mp hid
      exact (usable_iff _ (by omega)).mp (by simpa using all_eq_true.mp hall id hid)
    have hg := granted_take (fun _ => false) h nodup_range' hus h.hint
    rw [length_range'] at hg
    -- the hint stays where it was
    have htake : bm.take (range' start n) bm.hint = (range' start n).foldl markUsed bm := by
      have := (foldl_markUsed_spec (range' start n) h).2.2.2
      unfold take
      rw [← this]
    rw [htake] at hg
    exact .inl ⟨_, rfl, by omega, hg⟩
  · exact .inr rfl

/-! ### Scattered blocks -/

/-- A pass takes the usable blocks of its list in order: the first ones that make
up the number, or all of them. -/
theorem scatterPass_spec (skip : ℕ → Bool) (need : ℕ) : ∀ (l : List ℕ) {bm : FreeBlockBitmap} (result : List ℕ),
    Inv bm → l.Nodup → (∀ b ∈ l, b < bm.blockCount) → result.length < need →
    match scatterPass skip need l bm result with
    | .inl (bm', ids) => ∃ taken hint, List.Sublist taken (l.filter fun b => decide (b ∈ usableSet skip bm)) ∧
        ids = result ++ taken ∧ ids.length = need ∧ bm' = bm.take taken hint ∧ hint ≤ bm.blockCount
    | .inr (bm', ids) => bm' = (l.filter fun b => decide (b ∈ usableSet skip bm)).foldl markUsed bm ∧
        ids = result ++ (l.filter fun b => decide (b ∈ usableSet skip bm)) ∧ ids.length < need
  | [], bm, result, _, _, _, hlt => ⟨rfl, by simp, by simpa using hlt⟩
  | b :: l, bm, result, h, hnd, hb, hlt => by
    obtain ⟨hbl, hnd'⟩ := nodup_cons.mp hnd
    have hbb := hb b mem_cons_self
    have hus := usable_iff skip hbb
    rw [scatterPass]
    by_cases hu : b ∈ usableSet skip bm
    · rw [if_pos (hus.mpr hu), filter_cons_of_pos (by simpa using hu)]
      -- marking this block leaves the rest of the list as it was
      have hsame : (l.filter fun x => decide (x ∈ usableSet skip (bm.markUsed b))) =
          l.filter fun x => decide (x ∈ usableSet skip bm) := by
        refine filter_congr fun x hx => decide_eq_decide.mpr ?_
        have hne : x ≠ b := fun he => hbl (he ▸ hx)
        rw [mem_usableSet, mem_usableSet, (markUsed_spec h b).2, Finset.mem_erase]
        simp [hne]
      dsimp only
      rw [length_append, length_singleton]
      by_cases hn : need ≤ result.length + 1
      · rw [if_pos hn]
        refine ⟨[b], _, List.Sublist.cons_cons b (nil_sublist _), rfl, by simp; omega, rfl, ?_⟩
        rw [markUsed_blockCount]
        split_ifs <;> omega
      · rw [if_neg hn]
        have ih := scatterPass_spec skip need l (result ++ [b]) (markUsed_spec h b).1 hnd'
          (fun x hx => by rw [markUsed_blockCount]; exact hb x (mem_cons_of_mem _ hx)) (by simp; omega)
        rw [hsame] at ih
        cases hs : scatterPass skip need l (bm.markUsed b) (result ++ [b]) with
        | inl p =>
          obtain ⟨bm', ids⟩ := p
          rw [hs] at ih
          obtain ⟨taken, hint, h1, h2, h3, h4, h5⟩ := ih
          exact ⟨b :: taken, hint, h1.cons_cons b, by simp [h2], h3, h4, by rwa [markUsed_blockCount] at h5⟩
        | inr p =>
          obtain ⟨bm', ids⟩ := p
          rw [hs] at ih
          obtain ⟨h1, h2, h3⟩ := ih
          exact ⟨h1, by simp [h2], h3⟩
    · rw [if_neg fun hc => hu (hus.mp hc), filter_cons_of_neg (by simpa using hu)]
      exact scatterPass_spec skip need l result h hnd' (fun x hx => hb x (mem_cons_of_mem _ hx)) hlt

/-- Two passes are one pass over both lists. -/
theorem scatterPass_append (skip : ℕ → Bool) (need : ℕ) (l' : List ℕ) : ∀ (l : List ℕ) (bm : FreeBlockBitmap)
    (result : List ℕ), scatterPass skip need (l ++ l') bm result =
      match scatterPass skip need l bm result with
      | .inl p => .inl p
      | .inr (bm, result) => scatterPass skip need l' bm result
  | [], _, _ => rfl
  | b :: l, bm, result => by
    rw [cons_append, scatterPass, scatterPass]
    dsimp only
    split_ifs
    · rfl
    · rfl
    · exact scatterPass_append skip need l' l _ _
    · exact scatterPass_append skip need l' l _ _

/-- A scattered search takes usable blocks if there are enough of them. If there
are not, but there were enough free blocks to start, it fails with all the
usable blocks marked used. -/
theorem allocScatteredWhere_spec (skip : ℕ → Bool) (h : Inv bm) (n : ℕ) :
    (∃ bm' ids, allocScatteredWhere skip bm n = (bm', .ok ids) ∧ 0 < n ∧ Granted skip bm bm' n ids) ∨
    (n = 0 ∨ bm.freeCount < n) ∧ allocScatteredWhere skip bm n = (bm, .error .noSpace) ∨
    0 < n ∧ n ≤ bm.freeCount ∧ (usableSet skip bm).card < n ∧ ∃ ids : List ℕ, ids.toFinset = usableSet skip bm ∧
        allocScatteredWhere skip bm n = (ids.foldl markUsed bm, .error .noSpace) := by
  by_cases hguard : n = 0 ∨ bm.freeCount < n
  · exact .inr (.inl ⟨hguard, if_pos hguard⟩)
  have hn : 0 < n := by omega
  let order := range' bm.hint (bm.blockCount - bm.hint) ++ range bm.hint
  have hdef : allocScatteredWhere skip bm n =
      match scatterPass skip n order bm [] with
      | .inl (bm', ids) => (bm', .ok ids)
      | .inr (bm', _) => (bm', .error .noSpace) := by
    unfold allocScatteredWhere
    rw [if_neg hguard, scatterPass_append]
    dsimp only
    cases scatterPass skip n (range' bm.hint (bm.blockCount - bm.hint)) bm [] <;> rfl
  -- the two passes go over every block once
  have hhint := h.hint
  have hmem (b : ℕ) : b ∈ order ↔ b < bm.blockCount := by
    rw [mem_append, mem_range'_1, mem_range]
    omega
  have hnd : order.Nodup := by
    refine nodup_append.mpr ⟨nodup_range', nodup_range, fun x hx y hy => ?_⟩
    rw [mem_range'_1] at hx
    rw [mem_range] at hy
    omega
  have hspec := scatterPass_spec skip n _ [] h hnd (fun b => (hmem b).mp) hn
  generalize hl : order.filter
    (fun b => decide (b ∈ usableSet skip bm)) = l at hspec
  have hnd' : l.Nodup := hl ▸ hnd.filter _
  have hset : l.toFinset = usableSet skip bm := by
    ext x
    rw [← hl, List.mem_toFinset, List.mem_filter, hmem, decide_eq_true_iff]
    exact and_iff_right_of_imp fun hx => lt_of_mem_freeSet (mem_usableSet.mp hx).1
  rw [hdef]
  cases hs : scatterPass skip n order bm [] with
  | inl p =>
    obtain ⟨bm', ids⟩ := p
    rw [hs] at hspec
    obtain ⟨taken, hint, h2, h3, h4, h5, h6⟩ := hspec
    obtain rfl : ids = taken := by simpa using h3
    have hg := granted_take skip h (h2.nodup hnd')
      (fun id hid => hset ▸ mem_toFinset.mpr (h2.subset hid)) h6
    rw [h4] at hg
    exact .inl ⟨bm', ids, rfl, hn, h5 ▸ hg⟩
  | inr p =>
    obtain ⟨bm', ids⟩ := p
    rw [hs] at hspec
    obtain ⟨h2, rfl, h4⟩ := hspec
    refine .inr (.inr ⟨hn, by omega, ?_, ids, hset, by rw [h2]⟩)
    rw [← hset, toFinset_card_of_nodup hnd']
    exact h4

/-! ### Chains of searches -/

/-- Enough blocks are free, but of those that are not to be skipped there are
some and too few: a scattered search takes them all and fails. -/
def Leaky (skip : ℕ → Bool) (bm : FreeBlockBitmap) (n : ℕ) : Prop :=
  0 < n ∧ n ≤ bm.freeCount ∧ (usableSet skip bm).Nonempty ∧ (usableSet skip bm).card < n

/-- What a chain of searches that ends with a scattered one can do. -/
inductive ChainResult (skip : ℕ → Bool) (bm : FreeBlockBitmap) (n : ℕ) :
    FreeBlockBitmap × Except AllocError (List ℕ) → Prop
  | granted {bm' : FreeBlockBitmap} {ids : List ℕ} : 0 < n → Granted skip bm bm' n ids →
    ChainResult skip bm n (bm', .ok ids)
  | refused : ¬ Leaky skip bm n → ChainResult skip bm n (bm, .error .noSpace)
  | leaked {ids : List ℕ} : Leaky skip bm n → ids.toFinset = usableSet skip bm →
    ChainResult skip bm n (ids.foldl markUsed bm, .error .noSpace)

theorem allocScatteredWhere_result (skip : ℕ → Bool) (h : Inv bm) (n : ℕ) :
    ChainResult skip bm n (allocScatteredWhere skip bm n) := by
  rcases allocScatteredWhere_spec skip h n with ⟨bm', ids, e, h1, h2⟩ | ⟨h1, e⟩ | ⟨h1, h2, h3, ids, h4, e⟩
  · exact e ▸ .granted h1 h2
  · exact e ▸ .refused fun hl => by obtain ⟨h2, h3, -⟩ := hl; omega
  · rw [e]
    by_cases hne : (usableSet skip bm).Nonempty
    · exact .leaked ⟨h1, h2, hne, h3⟩ h4
    · -- nothing was usable, so nothing was marked
      have hempty : ids = [] := by rwa [← h4, Finset.not_nonempty_iff_eq_empty, toFinset_eq_empty_iff] at hne
      subst hempty
      exact .refused fun hl => hne hl.2.2.1

/-- A contiguous search in front of a chain does not change what it can do. -/
theorem ChainResult.orElse (h : Inv bm)
    {second : FreeBlockBitmap → FreeBlockBitmap × Except AllocError (List ℕ)} (h2 : ChainResult skip bm n (second bm)) :
    ChainResult skip bm n (FreeBlockBitmap.orElse (allocContiguousWhere skip bm n) second) := by
  rcases allocContiguousWhere_spec skip h n with ⟨bm', first, e, h3, h4⟩ | e
  · rw [e]; exact .granted h3 h4
  · rw [e]; exact h2

theorem allocAnySkipDevices_result (h : Inv bm) (n blockSize : ℕ)
    (deviceExtents : OrdMap ℕ (DeviceId × ℕ)) (fencedDevices : OrdSet DeviceId) :
    ChainResult (isBlockFencedInner blockSize deviceExtents fencedDevices) bm n
      (bm.allocAnySkipDevices n blockSize deviceExtents fencedDevices) :=
  ChainResult.orElse h (allocScatteredWhere_result _ h n)

theorem allocAny_result (h : Inv bm) (n : ℕ) :
    ChainResult (fun _ => false) bm n (bm.allocAny n) := allocScatteredWhere_result _ h n

theorem alloc_result (h : Inv bm) (n : ℕ) : ChainResult (fun _ => false) bm n (bm.alloc n) := by
  unfold alloc
  rcases allocContiguousWhere_spec (fun _ => false) h n with ⟨bm', first, e, h3, h4⟩ | e
  · rw [allocContiguous, e]; exact .granted h3 h4
  · rw [allocContiguous, e]
    rcases allocContiguousBestFit_spec h n with ⟨bm', first, e', h3, h4⟩ | e'
    · simp only [orElse, e']; exact .granted h3 h4
    · simp only [orElse, e']; exact allocAny_result h n

/-! ### Construction -/

theorem getLsbD_lowMask {rem : ℕ} (h : rem < 64) (i : ℕ) : (lowMask rem).getLsbD i = decide (i < rem) := by
  have hpow : 2 ^ rem < 2 ^ 64 := Nat.pow_lt_pow_right (by decide) h
  have hone : 1 ≤ 2 ^ rem := Nat.one_le_two_pow
  have hshift : (1#64 <<< rem).toNat = 2 ^ rem := by
    rw [BitVec.toNat_shiftLeft, BitVec.toNat_ofNat, Nat.mod_eq_of_lt (show 1 < 2 ^ 64 by decide), Nat.one_shiftLeft,
      Nat.mod_eq_of_lt hpow]
  have hnat : (lowMask rem).toNat = 2 ^ rem - 1 := by
    unfold lowMask
    rw [BitVec.toNat_sub_of_le, hshift]
    · rfl
    · rw [BitVec.le_def, hshift]
      exact hone
  rw [BitVec.getLsbD, hnat, testBit_two_pow_sub_one]

theorem guardTailBits_fields (bm : FreeBlockBitmap) : bm.guardTailBits.blockCount = bm.blockCount ∧
    bm.guardTailBits.hint = bm.hint ∧ bm.guardTailBits.freeCount = bm.freeCount ∧
    bm.guardTailBits.words.length = bm.words.length := by
  unfold guardTailBits
  dsimp only
  split_ifs <;> simp

/-- The guard bits are behind the last block. -/
theorem guardTailBits_bitAt (h : bm.words.length = wordCountFor bm.blockCount) {i : ℕ}
    (hi : i < bm.blockCount) : bitAt bm.guardTailBits.words i = bitAt bm.words i := by
  unfold guardTailBits
  dsimp only
  split_ifs with hr
  · rfl
  · have hlen : i / 64 < bm.words.length := word_lt h hi
    have hlast : bm.words.length - 1 < bm.words.length := by omega
    unfold bitAt
    rw [getD_modify _ _ _ _ hlast]
    split_ifs with hw
    · -- in the last word, the block's bit is below the guard bits
      have hlow : i % 64 < bm.blockCount % 64 := by
        have hword := div_add_mod i 64
        have hblocks := div_add_mod bm.blockCount 64
        have hr' : bm.blockCount % 64 ≠ 0 := hr
        have hup : ¬ divCeil bm.blockCount 64 ≤ bm.blockCount / 64 := by
          rw [divCeil_le_iff (by decide)]
          omega
        have hwords : bm.words.length = divCeil bm.blockCount 64 := h
        omega
      rw [BitVec.getLsbD_or, BitVec.getLsbD_not, getLsbD_lowMask (mod_lt _ (by decide))]
      simp [hlow]
    · rfl

theorem new_spec (blockCount : ℕ) : Inv (new blockCount) ∧ (new blockCount).blockCount = blockCount ∧
    (new blockCount).freeSet = Finset.range blockCount := by
  obtain ⟨h1, h2, h3, h4⟩ := guardTailBits_fields
    { blockCount := blockCount, words := replicate (wordCountFor blockCount) 0#64, hint := 0,
      freeCount := blockCount, dirty := true }
  have hset : (new blockCount).freeSet = Finset.range blockCount := by
    ext x
    rw [mem_freeSet, isFree_iff_bitAt, Finset.mem_range]
    refine ⟨fun h => h.1.trans_eq h1, fun h => ⟨h.trans_eq h1.symm, ?_⟩⟩
    unfold new
    rw [guardTailBits_bitAt (by simp) h]
    simp [bitAt]
  refine ⟨⟨?_, ?_, ?_⟩, h1, hset⟩
  · unfold new; rw [h4, h1]; simp
  · rw [hset, Finset.card_range]; exact h3
  · unfold new; rw [h2]; exact zero_le _

theorem countP_range_mul (p : ℕ → Bool) (w r : ℕ) : ∀ k : ℕ, (range (k * w + r)).countP p =
    ((range k).map fun i => (range w).countP fun j => p (i * w + j)).sum +
      (range r).countP fun j => p (k * w + j)
  | 0 => by simp
  | k + 1 => by
    have hsplit : (k + 1) * w + r = k * w + (w + r) := by ring
    rw [hsplit, countP_range_mul p w (w + r) k, range_succ, map_append, List.sum_append_nat, range_add (n := w),
      countP_append, countP_map]
    have hcomp : ((fun j => p (k * w + j)) ∘ fun x => w + x) = fun j => p ((k + 1) * w + j) := by
      funext j
      simp only [Function.comp_apply]
      congr 1
      ring
    rw [hcomp]
    simp [add_assoc]

theorem countP_range_lt (p : ℕ → Bool) {r w : ℕ} (h : r ≤ w) :
    (range w).countP (fun i => decide (i < r) && p i) = (range r).countP p := by
  obtain ⟨d, rfl⟩ := Nat.exists_eq_add_of_le h
  rw [range_add, countP_append, countP_map]
  have hlow : (range r).countP (fun i => decide (i < r) && p i) = (range r).countP p :=
    countP_congr fun i hi => by simp [mem_range.mp hi]
  have hhigh : (range d).countP ((fun i => decide (i < r) && p i) ∘ fun x => r + x) = 0 :=
    countP_eq_zero.mpr fun i _ => by simp
  rw [hlow, hhigh, add_zero]

theorem card_freeSet (bm : FreeBlockBitmap) :
    bm.freeSet.card = (range bm.blockCount).countP fun i => !bitAt bm.words i := by
  have hset : bm.freeSet = ((List.range bm.blockCount).filter fun i => !bitAt bm.words i).toFinset := by
    ext x
    rw [mem_freeSet, isFree_iff_bitAt, List.mem_toFinset, List.mem_filter, List.mem_range, Bool.not_eq_true']
  rw [hset, toFinset_card_of_nodup (nodup_range.filter _), countP_eq_length_filter]

/-- The count over whole words and the rest of the last one is the number of
clear bits below the block count. -/
theorem countFreeBlocks_eq (h : bm.words.length = wordCountFor bm.blockCount) :
    bm.countFreeBlocks = bm.freeSet.card := by
  have hwords : bm.words.length = divCeil bm.blockCount 64 := h
  have hfull : bm.blockCount / 64 ≤ bm.words.length := by
    by_contra hlt
    have := (divCeil_le_iff (a := bm.blockCount) (b := 64) (c := bm.words.length) (by decide)).mp hwords.ge
    omega
  have hwhole : ((bm.words.take (bm.blockCount / 64)).map fun word => countOnes (~~~ word)).sum =
      ((range (bm.blockCount / 64)).map fun i =>
        (range 64).countP fun j => !bitAt bm.words (i * 64 + j)).sum := by
    congr 1
    refine ext_getElem (by simp [hfull]) fun i h1 h2 => ?_
    have hi : i < bm.blockCount / 64 := by simpa using h2
    have hw : i < bm.words.length := by omega
    simp only [getElem_map, getElem_take, getElem_range, countOnes]
    refine countP_congr fun j hj => ?_
    have hj' := mem_range.mp hj
    have hdiv : (i * 64 + j) / 64 = i := by omega
    have hmod : (i * 64 + j) % 64 = j := by omega
    rw [bitAt, hdiv, hmod, getD_eq_getElem _ _ hw, BitVec.getLsbD_not]
    simp [hj']
  have hsplit : bm.blockCount = bm.blockCount / 64 * 64 + bm.blockCount % 64 := by omega
  rw [card_freeSet, hsplit, countP_range_mul, ← hwhole]
  unfold countFreeBlocks
  dsimp only
  split_ifs with hr
  · have hr' : bm.blockCount % 64 ≠ 0 := hr
    have hlt : bm.blockCount / 64 < bm.words.length := by
      rw [hwords, lt_divCeil_iff (by decide)]
      omega
    rw [getElem?_eq_getElem hlt]
    dsimp only
    congr 1
    -- of the last word, only the bits below the mask count
    have hrem : bm.blockCount % 64 < 64 := mod_lt _ (by decide)
    rw [← countP_range_lt _ hrem.le]
    refine countP_congr fun j hj => ?_
    have hj' := mem_range.mp hj
    have hdiv : (bm.blockCount / 64 * 64 + j) / 64 = bm.blockCount / 64 := by omega
    have hmod : (bm.blockCount / 64 * 64 + j) % 64 = j := by omega
    rw [bitAt, hdiv, hmod, getD_eq_getElem _ _ hlt, BitVec.getLsbD_and, getLsbD_lowMask hrem, BitVec.getLsbD_not,
      decide_eq_true hj', Bool.true_and, Bool.and_comm]
  · have h0 : bm.blockCount % 64 = 0 := not_not.mp hr
    rw [h0]
    simp

/-- A restored bitmap has the blocks free whose bit is clear in a word that is
there. -/
theorem fromWords_spec (blockCount : ℕ) (words : List (BitVec 64)) :
    Inv (fromWords blockCount words) ∧ (fromWords blockCount words).blockCount = blockCount ∧
      ∀ x, x ∈ (fromWords blockCount words).freeSet ↔
        x < blockCount ∧ x / 64 < words.length ∧ bitAt words x = false := by
  have hlen : (words.take (wordCountFor blockCount) ++ replicate
      (wordCountFor blockCount - (words.take (wordCountFor blockCount)).length) (BitVec.allOnes 64)).length =
      wordCountFor blockCount := by
    simp only [length_append, length_take, length_replicate]
    omega
  generalize hws : words.take (wordCountFor blockCount) ++ replicate
    (wordCountFor blockCount - (words.take (wordCountFor blockCount)).length) (BitVec.allOnes 64) = ws at hlen
  let bm : FreeBlockBitmap := ⟨blockCount, ws, 0, 0, false⟩
  have hdef : fromWords blockCount words = { guardTailBits bm with
        freeCount := (guardTailBits bm).countFreeBlocks } := by
    unfold fromWords
    dsimp only
    rw [hws]
  obtain ⟨h1, h2, -, h4⟩ := guardTailBits_fields bm
  have hwords : (guardTailBits bm).words.length =
      wordCountFor (guardTailBits bm).blockCount := by
    rw [h4, h1]; exact hlen
  rw [hdef]
  refine ⟨⟨hwords, countFreeBlocks_eq hwords, ?_⟩, h1, fun x => ?_⟩
  · rw [h2]; exact zero_le _
  · rw [mem_freeSet, isFree_iff_bitAt]
    rw [h1]
    refine and_congr_right fun hx => ?_
    rw [@guardTailBits_bitAt bm hlen _ hx]
    have hxw : x / 64 < wordCountFor blockCount := by
      have := @word_lt bm _ hlen hx
      rwa [hlen] at this
    show (ws.getD _ _).getLsbD _ = false ↔ _
    rw [← hws, getD_eq_getElem?_getD, getElem?_append]
    by_cases hin : x / 64 < words.length
    · rw [if_pos (by rw [length_take]; omega), getElem?_take, if_pos hxw, ← getD_eq_getElem?_getD]
      exact ⟨fun h => ⟨hin, h⟩, And.right⟩
    · -- the missing words are all ones
      rw [if_neg (by rw [length_take]; omega), getElem?_replicate, if_pos (by rw [length_take]; omega)]
      simp only [getD_some, BitVec.getLsbD_allOnes]
      constructor
      · intro h
        have := decide_eq_false_iff_not.mp h
        omega
      · exact fun h => absurd h.1 hin

end FreeBlockBitmap

end Tidefs.Allocator
