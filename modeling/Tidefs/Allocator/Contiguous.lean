/-
# When a contiguous search succeeds

`alloc_contiguous` misses a free run on both sides of the hint (`allocContiguous_misses`).
It finds `n` blocks whenever `n` is at most `largest_contiguous_free` exactly if, with `n`
free blocks in a row, `n` of them lie on one side of the hint or at the two ends
(`allocContiguous_iff`).
-/
import Tidefs.Allocator.BitmapSound

namespace Tidefs.Allocator
namespace FreeBlockBitmap

open List Word

variable {usable : ℕ → Bool} {bm : FreeBlockBitmap} {need n i : ℕ}

/-- The `n` blocks from `i` on are usable. -/
def RunOf (usable : ℕ → Bool) (i n : ℕ) : Prop := ∀ j, i ≤ j → j < i + n → usable j = true

/-- A pass finds a run of the blocks it passes, or one that prolongs the run it begins with. -/
theorem searchPass_found (hneed : 0 < need) : ∀ (k a : ℕ) (rs : Option ℕ) (len : ℕ),
    (searchPass usable need (range' a k) (rs, len)).isLeft = true ↔
      ∃ i m, a ≤ i ∧ i + m ≤ a + k ∧ 0 < m ∧ RunOf usable i m ∧ (need ≤ m ∨ i = a ∧ need ≤ len + m)
  | 0, a, rs, len => by
    simp [searchPass]
    omega
  | k + 1, a, rs, len => by
    rw [range'_succ, searchPass]
    by_cases ha : usable a = true
    · rw [if_pos ha]
      split_ifs with hlen
      · exact iff_of_true rfl ⟨a, 1, by grind [RunOf]⟩
      · rw [searchPass_found hneed k]
        constructor
        · rintro ⟨i, m, h1, h2, h3, h4, h5 | ⟨rfl, h5⟩⟩
          · exact ⟨i, m, by grind⟩
          · -- the run goes on from the block of this step
            exact ⟨a, m + 1, by grind [RunOf]⟩
        · rintro ⟨i, m, h1, h2, h3, h4, h5⟩
          rcases eq_or_lt_of_le h1 with rfl | h1
          · exact ⟨a + 1, m - 1, by grind [RunOf]⟩
          · exact ⟨i, m, by grind⟩
    · rw [if_neg ha, searchPass_found hneed k]
      grind [RunOf]

theorem le_longest_iff : ∀ (l : List ℕ) (rs : Option ℕ) (longest len : ℕ),
    need ≤ (l.foldl (longestStep bm) (longest, len)).1 ↔
      need ≤ longest ∨ (searchPass bm.isFreeInner need l (rs, len)).isLeft = true
  | [], _, _, _ => by simp [searchPass]
  | x :: l, rs, longest, len => by
    rw [foldl_cons, searchPass, longestStep]
    by_cases hx : bm.isFreeInner x = true
    · rw [if_pos hx, if_pos hx, le_longest_iff l (some (rs.getD x)), le_max_iff]
      split_ifs with hlen
      · exact iff_of_true (.inl (.inr hlen)) (.inr rfl)
      · rw [or_iff_left hlen]
    · rw [if_neg hx, if_neg hx]
      exact le_longest_iff l _ _ _

theorem le_length_takeWhile {l : List ℕ} (hn : n ≤ l.length) (h : ∀ x ∈ l.take n, usable x = true) :
    n ≤ (l.takeWhile usable).length := by
  rw [← take_append_drop n l, takeWhile_append_of_pos h, length_append, length_take, min_eq_left hn]
  exact Nat.le_add_right _ _

/-- The free blocks at the end and at the start of the bitmap. -/
def ends (bm : FreeBlockBitmap) : ℕ × ℕ := (((range bm.blockCount).reverse.takeWhile bm.isFreeInner).length,
  ((range bm.blockCount).takeWhile bm.isFreeInner).length)

theorem le_ends (hn : n ≤ bm.blockCount) : (RunOf bm.isFreeInner (bm.blockCount - n) n → n ≤ bm.ends.1) ∧
    (RunOf bm.isFreeInner 0 n → n ≤ bm.ends.2) := by
  constructor
  · refine fun hrun => le_length_takeWhile (by simpa) fun x hx => ?_
    rw [take_reverse, length_range, mem_reverse, range_eq_range', drop_range', mem_range'_1] at hx
    exact hrun x (by omega) (by omega)
  · refine fun hrun => le_length_takeWhile (by simpa) fun x hx => ?_
    rw [take_range, mem_range] at hx
    exact hrun x x.zero_le (by omega)

theorem le_maxRun_iff (hn : 0 < n) : n ≤ ((range bm.blockCount).foldl (longestStep bm) (0, 0)).1 ↔
    ∃ i, i + n ≤ bm.blockCount ∧ RunOf bm.isFreeInner i n := by
  rw [le_longest_iff _ none, or_iff_right hn.not_ge, range_eq_range', searchPass_found hn]
  constructor
  · rintro ⟨i, m, -, h2, -, h4, h5⟩
    exact ⟨i, by grind [RunOf]⟩
  · rintro ⟨i, h1, h2⟩
    exact ⟨i, n, by grind⟩

/-- A search that fails leaves no run but across the hint. -/
theorem firstFit_none {total hint : ℕ} (hneed : 0 < need) (h : firstFit usable need hint total = none)
    (hi : i + need ≤ total) (hrun : RunOf usable i need) : i < hint ∧ hint < i + need := by
  unfold firstFit at h
  by_contra hacross
  have hpass : (searchPass usable need (range' hint (total - hint)) (none, 0)).isLeft = true ∨
      ∀ st, (searchPass usable need (range hint) st).isLeft = true := by
    rcases lt_or_ge i hint with hlt | hge
    · refine .inr fun st => ?_
      rw [range_eq_range']
      exact (searchPass_found hneed _ _ st.1 st.2).mpr ⟨i, need, by grind⟩
    · exact .inl ((searchPass_found hneed _ _ _ _).mpr ⟨i, need, by grind⟩)
  grind

theorem le_largest_iff (hword : bm.blockCount < 2 ^ 32) (hn : 0 < n) : n ≤ bm.largestContiguousFree ↔
    (∃ i, i + n ≤ bm.blockCount ∧ RunOf bm.isFreeInner i n) ∨
    0 < bm.ends.1 ∧ 0 < bm.ends.2 ∧ n ≤ bm.ends.1 + bm.ends.2 ∧ n ≤ bm.blockCount := by
  have hmax : ((range bm.blockCount).foldl (longestStep bm) (0, 0)).1 ≤ bm.blockCount := by
    by_contra hlt
    obtain ⟨i, hi, -⟩ := (le_maxRun_iff bm.blockCount.succ_pos).mp (not_le.mp hlt)
    omega
  rw [← le_maxRun_iff hn]
  unfold largestContiguousFree ends asU32
  dsimp only
  rw [Nat.mod_eq_of_lt (by split_ifs <;> omega)]
  split_ifs <;> omega

theorem search_failed (h : Inv bm) (hn : 0 < n) (hle : n ≤ bm.blockCount) (first : ℕ)
    (hrun : ∀ off < n, bm.isFreeInner ((first + off) % bm.blockCount) = true)
    (he : allocContiguousWhere (fun _ => false) bm n = (bm, .error .noSpace)) :
    firstFit bm.isFreeInner n bm.hint bm.blockCount = none ∧ bm.ends.1 + bm.ends.2 < n := by
  have hg : Granted (fun _ => false) bm _ n _ := granted_cyclic h hle (by omega) h.hint (by simpa using hrun)
  have hcount := hg.freeCount h
  unfold allocContiguousWhere wrapAround at he
  simp only [Bool.not_false, Bool.and_true] at he
  rw [if_neg (by omega)] at he
  unfold ends
  grind

/-- The run under way after a pass is of the last blocks it passed. -/
theorem searchPass_tail {st : Option ℕ × ℕ} : ∀ (k a : ℕ) (rs : Option ℕ) (len : ℕ), len ≤ a →
    RunOf usable (a - len) len → searchPass usable need (range' a k) (rs, len) = .inr st →
    st.2 ≤ a + k ∧ RunOf usable (a + k - st.2) st.2
  | 0, a, rs, len, hlen, hrun, hpass => by
    obtain rfl : (rs, len) = st := Sum.inr.inj hpass
    exact ⟨hlen, hrun⟩
  | k + 1, a, rs, len, hlen, hrun, hpass => by
    rw [range'_succ, searchPass] at hpass
    rw [← Nat.add_assoc, Nat.add_right_comm]
    split_ifs at hpass with ha hneed
    · refine searchPass_tail k (a + 1) _ (len + 1) (by omega) (fun j hj hj' => ?_) hpass
      rcases Nat.lt_or_ge j a with hlt | hge
      · exact hrun j (by omega) (by omega)
      · rwa [show j = a by omega]
    · exact searchPass_tail k (a + 1) none 0 (by omega) (fun j hj hj' => by omega) hpass

/-- Where the search looks: before the hint, from the hint on, and at the two ends together. -/
def Findable (bm : FreeBlockBitmap) (n : ℕ) : Prop :=
  n ≤ bm.blockCount ∧ (n ≤ bm.ends.1 + bm.ends.2 ∨
    ∃ i, i + n ≤ bm.blockCount ∧ RunOf bm.isFreeInner i n ∧ (bm.hint ≤ i ∨ i + n ≤ bm.hint))

theorem findable_of_firstFit (hhint : bm.hint ≤ bm.blockCount) (hn : 0 < n) (hle : n ≤ bm.blockCount)
    (hfit : (firstFit bm.isFreeInner n bm.hint bm.blockCount).isSome = true) : bm.Findable n := by
  refine ⟨hle, ?_⟩
  unfold firstFit at hfit
  cases hpass : searchPass bm.isFreeInner n (range' bm.hint (bm.blockCount - bm.hint)) (none, 0) with
  | inl first =>
    have hfound := (searchPass_found hn _ _ _ _).mp (show (searchPass _ _ _ _).isLeft = true by rw [hpass]; rfl)
    obtain ⟨i, m, h1, h2, -, h4, h5⟩ := hfound
    exact .inr ⟨i, by omega, fun j hj hj' => h4 j hj (by omega), .inl h1⟩
  | inr st =>
    obtain ⟨hst, htail⟩ := searchPass_tail _ _ none 0 (Nat.zero_le _) (fun j _ _ => by omega) hpass
    rw [Nat.add_sub_cancel' hhint] at hst htail
    have hcarry : (carryOver bm.blockCount st).2 ≤ st.2 := by
      obtain ⟨_ | rs, len⟩ := st
      · exact le_rfl
      · simp only [carryOver]
        split_ifs <;> simp
    have hend : st.2 ≤ bm.ends.1 := (le_ends hst).1 htail
    rw [hpass] at hfit
    dsimp only at hfit
    cases hpass₂ : searchPass bm.isFreeInner n (range bm.hint) (carryOver bm.blockCount st) with
    | inr _ =>
      rw [hpass₂] at hfit
      cases hfit
    | inl first =>
      rw [range_eq_range'] at hpass₂
      have hfound := (searchPass_found hn _ _ (carryOver bm.blockCount st).1 (carryOver bm.blockCount st).2).mp
        (show (searchPass _ _ _ (carryOver bm.blockCount st)).isLeft = true by rw [hpass₂]; rfl)
      obtain ⟨i, m, -, h2, -, h4, h5 | ⟨rfl, h5⟩⟩ := hfound
      · exact .inr ⟨i, by omega, fun j hj hj' => h4 j hj (by omega), .inr (by omega)⟩
      · -- the run carried over and the one at the start are the two ends
        have hstart : m ≤ bm.ends.2 := (le_ends (by omega)).2 h4
        exact .inl (by omega)

/-- **The search succeeds exactly where it looks.** -/
theorem allocContiguous_ok_iff (h : Inv bm) (hn : 1 ≤ n) :
    (∃ bm' first, bm.allocContiguous n = (bm', .ok (cyclic bm.blockCount first n)) ∧
      Granted (fun _ => false) bm bm' n (cyclic bm.blockCount first n)) ↔ bm.Findable n := by
  have hfails : ∀ first, n ≤ bm.blockCount → (∀ off < n, bm.isFreeInner ((first + off) % bm.blockCount) = true) →
      allocContiguousWhere (fun _ => false) bm n = (bm, .error .noSpace) → ¬ bm.Findable n := by
    rintro first hle hrun he ⟨-, hsum | ⟨i, hi, hrun', hside⟩⟩
    · exact hsum.not_gt (search_failed h hn hle first hrun he).2
    · have := firstFit_none hn (search_failed h hn hle first hrun he).1 hi hrun'
      omega
  constructor
  · rintro ⟨bm', first, he, -⟩
    unfold allocContiguous allocContiguousWhere at he
    simp only [Bool.not_false, Bool.and_true] at he
    split_ifs at he with hguard
    · cases he
    cases hfit : firstFit bm.isFreeInner n bm.hint bm.blockCount with
    | some _ => exact findable_of_firstFit h.hint hn (by omega) (by rw [hfit]; rfl)
    | none =>
      rw [hfit] at he
      refine ⟨by omega, .inl ?_⟩
      by_contra hsum
      have hwrap : wrapAround bm.isFreeInner n bm.blockCount = none := if_neg hsum
      rw [show (fun blk => bm.isFreeInner blk) = bm.isFreeInner from rfl, hwrap] at he
      cases he
  · intro hfind
    rcases allocContiguousWhere_spec (fun _ => false) h n with ⟨bm', first, he, -, hg⟩ | he
    · exact ⟨bm', first, he, hg⟩
    exfalso
    rcases id hfind with ⟨hle, hsum | ⟨i, hi, hrun, -⟩⟩
    · obtain ⟨-, first, -, hrun⟩ := wrapAround_spec hle (if_pos hsum)
      exact hfails first hle hrun he hfind
    · refine hfails i hle (fun off hoff => ?_) he hfind
      rw [Nat.mod_eq_of_lt (by omega)]
      exact hrun _ (by omega) (by omega)

/-- Consecutive free blocks, across the end or not, are within the longest run. -/
theorem le_largest_of_granted (hword : bm.blockCount < 2 ^ 32) (hn : 0 < n) {bm' : FreeBlockBitmap} {first : ℕ}
    (hle : n ≤ bm.blockCount) (hg : Granted (fun _ => false) bm bm' n (cyclic bm.blockCount first n)) :
    n ≤ bm.largestContiguousFree := by
  refine (le_largest_iff hword hn).mpr ?_
  have hrun : ∀ off < n, bm.isFreeInner ((first % bm.blockCount + off) % bm.blockCount) = true := by
    intro off hoff
    rw [Nat.mod_add_mod]
    exact (isFree_iff.mp (mem_freeSet.mp (forall_mem_cyclic.mp hg.free off hoff))).2
  have hlt : first % bm.blockCount < bm.blockCount := Nat.mod_lt _ (by omega)
  generalize first % bm.blockCount = f at hrun hlt
  have hfrom : ∀ k ≤ n, f + k ≤ bm.blockCount → RunOf bm.isFreeInner f k := fun k hk hin j hj hj' => by
    have hoff := hrun (j - f) (by omega)
    rwa [Nat.add_sub_cancel' hj, Nat.mod_eq_of_lt (by omega)] at hoff
  rcases Nat.lt_or_ge bm.blockCount (f + n) with hwrap | hin
  · have hend := (le_ends (Nat.sub_le _ f)).1 (by rw [Nat.sub_sub_self hlt.le]; exact hfrom _ (by omega) (by omega))
    have hstart := (@le_ends bm (f + n - bm.blockCount) (by omega)).2 fun j _ hj => by
      have hoff := hrun (bm.blockCount - f + j) (by omega)
      rwa [← Nat.add_assoc, Nat.add_sub_cancel' hlt.le, Nat.add_mod_left, Nat.mod_eq_of_lt (by omega)] at hoff
    exact .inr (by omega)
  · exact .inl ⟨f, hin, hfrom n le_rfl hin⟩

/-- A search for `n` blocks takes `n` blocks in a row exactly if the longest run is as long as that, and else changes
nothing. -/
def SearchMeets (bm : FreeBlockBitmap) (n : ℕ) : Prop :=
  if n ≤ bm.largestContiguousFree then
    ∃ bm' first, bm.allocContiguous n = (bm', .ok (cyclic bm.blockCount first n)) ∧
      Granted (fun _ => false) bm bm' n (cyclic bm.blockCount first n) ∧ bm'.freeCount + n = bm.freeCount
  else bm.allocContiguous n = (bm, .error .noSpace)

/-- **When the search and the longest run agree.** For fewer than 2³² blocks: exactly if, wherever `n` blocks in a row
are free, some `n` lie where the search looks; for any number of blocks, if those `n` are counted, and only then. -/
theorem allocContiguous_iff (h : Inv bm) (hn : 1 ≤ n) :
    (bm.SearchMeets n ↔ (bm.Findable n ↔ n ≤ bm.largestContiguousFree)) ∧
      (bm.blockCount < 2 ^ 32 →
        (bm.SearchMeets n ↔ ((∃ i, i + n ≤ bm.blockCount ∧ RunOf bm.isFreeInner i n) → bm.Findable n))) := by
  have hfind := allocContiguous_ok_iff h hn
  have hmeets : bm.SearchMeets n ↔ (bm.Findable n ↔ n ≤ bm.largestContiguousFree) := by
    unfold SearchMeets
    rw [← hfind]
    split_ifs with hlargest
    · rw [iff_true_right hlargest]
      exact exists₂_congr fun bm' first => and_congr_right fun _ => and_iff_left_of_imp fun hg => hg.freeCount h
    · rw [iff_false_right hlargest]
      rcases allocContiguousWhere_spec (fun _ => false) h n with ⟨bm', first, he, -, hg⟩ | he
      · refine iff_of_false (fun hcontra => ?_) (not_not.mpr ⟨bm', first, he, hg⟩)
        cases he.symm.trans hcontra
      · refine iff_of_true he ?_
        rintro ⟨bm', first, hok, -⟩
        cases he.symm.trans hok
  refine ⟨hmeets, fun hword => hmeets.trans ⟨fun hiff hrun => ?_, fun hrun => ⟨fun hf => ?_, fun hlargest => ?_⟩⟩⟩
  · exact hiff.mpr ((le_largest_iff hword hn).mpr (.inl hrun))
  · obtain ⟨bm', first, -, hg⟩ := hfind.mpr hf
    exact le_largest_of_granted hword hn hf.1 hg
  · rcases (le_largest_iff hword hn).mp hlargest with hlinear | ⟨-, -, hsum, hle⟩
    · exact hrun hlinear
    · exact ⟨hle, .inl hsum⟩

/-- Blocks 1, 2 and 3 are free, with the hint at 2. -/
def acrossHint : FreeBlockBitmap := (((new 5).allocContiguous 2).1.markUsed 4).markFree 1

theorem acrossHint_inv : Inv acrossHint := by
  have htaken : Inv ((new 5).allocContiguous 2).1 := by
    obtain ⟨bm', first, he, -, hg⟩ | he := allocContiguousWhere_spec (fun _ => false) (new_spec 5).1 2
    · rw [allocContiguous, he]
      exact hg.inv
    · exact absurd (congrArg (fun r => r.1.hint) he) (by decide)
  exact (markFree_spec (markUsed_spec htaken 4).1 1).1

/-- Two blocks are found from the hint on, three are not, though they are there. -/
theorem allocContiguous_iff_across : acrossHint.SearchMeets 2 ∧ ¬ acrossHint.SearchMeets 3 := by
  refine ⟨((allocContiguous_iff acrossHint_inv (by decide)).2 (by decide)).mpr fun _ => ⟨by decide, .inr ⟨2, by decide, ?_⟩⟩,
    fun hmeets => ?_⟩
  · exact ⟨fun j h1 h2 => by interval_cases j <;> decide, .inl (by decide)⟩
  · have hfree : ∀ j, 1 ≤ j → j < 1 + 3 → acrossHint.isFreeInner j = true := fun j h1 h2 => by
      interval_cases j <;> decide
    obtain ⟨-, hsum | ⟨i, hi, hrun, hside⟩⟩ :=
      ((allocContiguous_iff acrossHint_inv (by decide)).2 (by decide)).mp hmeets ⟨1, by decide, hfree⟩
    · exact absurd hsum (by decide)
    · have hcount : acrossHint.blockCount = 5 := by decide
      have hhint : acrossHint.hint = 2 := by decide
      obtain rfl | rfl : i = 0 ∨ i = 2 := by omega
      · exact absurd (hrun 0 (by decide) (by decide)) (by decide)
      · exact absurd (hrun 4 (by decide) (by decide)) (by decide)

/-- **The run across the hint is missed.** -/
theorem allocContiguous_misses : acrossHint.allocContiguous 3 = (acrossHint, .error .noSpace) ∧
    acrossHint.largestContiguousFree = 3 := by decide

end FreeBlockBitmap
end Tidefs.Allocator
