/-
# The elimination inverts, and any k rows can be inverted

A turn of the elimination is one step of Gauss–Jordan elimination on the entries, as in
the field of bytes a sum is a difference (`eliminate_entry`). So on a regular matrix
every turn finds its pivot, and the result is a left inverse (`invertMatrix_spec`).

Any `k` distinct rows of the encoding matrix are regular (`regular_rows`). An identity
row among them says that its unknown is zero. There are as many other unknowns as
parity rows, and on those the rows are a square Cauchy matrix, whose nodes are distinct
bytes as there are no more than 256 shards.
-/
import Tidefs.Erasure.Code
import Tidefs.Lib.Cauchy
import Tidefs.Lib.GaussJordan

namespace Tidefs.Erasure

open GaussJordan Finset

/-- The entries of a matrix, zero outside. -/
def entry {r c : ℕ} (M : GfMatrix r c) (i j : ℕ) : Gf := if h : i < r ∧ j < c then M[i][j] else 0

section Entries

variable {r c : ℕ} (M : GfMatrix r c) {i j : ℕ}

theorem entry_eq (hi : i < r) (hj : j < c) : entry M i j = M[i][j] := dif_pos ⟨hi, hj⟩

theorem entry_outside (h : ¬ (i < r ∧ j < c)) : entry M i j = 0 := dif_neg h

theorem entry_of_row (hi : i < r) (hj : j < c) {row : Vector Gf c} (h : M[i] = row) :
    entry M i j = row[j] := h ▸ entry_eq M hi hj

theorem entry_ofFn (f : Fin r → Fin c → Gf) (hi : i < r) (hj : j < c) :
    entry (Vector.ofFn fun i => Vector.ofFn (f i)) i j = f ⟨i, hi⟩ ⟨j, hj⟩ := by
  rw [entry_eq _ hi hj, Vector.getElem_ofFn, Vector.getElem_ofFn]

theorem entry_swap {a b : ℕ} (ha : a < r) (hb : b < r) : entry (M.swap a b) = swapRows (entry M) a b := by
  funext i j
  unfold swapRows
  by_cases h : i < r ∧ j < c
  · rw [entry_of_row _ h.1 h.2 (Vector.getElem_swap ha hb h.1)]
    split_ifs
    · rw [entry_eq M hb h.2]
    · rw [entry_eq M ha h.2]
    · rw [entry_eq M h.1 h.2]
  · rw [entry_outside _ h]
    split_ifs <;> rw [entry_outside M (by omega)]

end Entries

/-! ### A turn is a step -/

section Eliminate

variable {n : ℕ} (aug : GfMatrix n (2 * n)) (col : Fin n)

theorem entry_scalePivot : entry (scalePivot aug col) = scaleRow (entry aug) col (entry aug col col)⁻¹ := by
  have hcol := col.isLt
  funext i j
  unfold scalePivot scaleRow
  rw [entry_eq aug hcol (by omega)]
  by_cases h : i < n ∧ j < 2 * n
  · rw [entry_of_row _ h.1 h.2 (Vector.getElem_set hcol h.1)]
    by_cases hi : col.val = i
    · rw [if_pos hi.symm, entry_eq aug hcol h.2]
      simp [hi]
    · rw [if_neg (Ne.symm hi), entry_eq aug h.1 h.2]
      simp [hi]
  · rw [entry_outside _ h]
    split_ifs
    · dsimp only
      rw [entry_outside aug (by omega), zero_mul]
    · rw [entry_outside aug h]

theorem entry_clearOthers : entry (clearOthers aug col) = clearColumn (entry aug) col col := by
  have hcol := col.isLt
  funext i j
  unfold clearOthers clearColumn
  by_cases h : i < n ∧ j < 2 * n
  · by_cases hi : i = col.val
    · rw [if_pos hi, entry_of_row _ h.1 h.2 ((Vector.getElem_ofFn h.1).trans (if_pos (Fin.ext hi))),
        entry_eq aug h.1 h.2]
      rfl
    · have hne : ¬ (⟨i, h.1⟩ : Fin n) = col := fun he => hi (congrArg Fin.val he)
      rw [if_neg hi, Gf.sub_eq_add, entry_eq aug h.1 h.2, entry_eq aug h.1 (by omega), entry_eq aug hcol h.2]
      by_cases hf : aug[i][col.val] = 0
      · rw [hf, zero_mul, add_zero,
          entry_of_row _ h.1 h.2 ((Vector.getElem_ofFn h.1).trans ((if_neg hne).trans (if_pos hf)))]
        rfl
      · rw [entry_of_row _ h.1 h.2 ((Vector.getElem_ofFn h.1).trans ((if_neg hne).trans (if_neg hf))),
          Vector.getElem_zipWith]
        rfl
  · rw [entry_outside _ h]
    split_ifs
    · rw [entry_outside aug h]
    · dsimp only
      rw [entry_outside aug h]
      by_cases hrow : i < n
      · rw [entry_outside aug (i := col.val) (by omega), mul_zero, sub_zero]
      · rw [entry_outside aug (j := col.val) (by omega), zero_mul, sub_zero]

theorem findPivot_spec {pr : Fin n} (h : findPivot aug col = some pr) : col.val ≤ pr.val ∧ entry aug pr col ≠ 0 := by
  have hcol := col.isLt
  have hfound := List.find?_some h
  rw [decide_eq_true_eq] at hfound
  rw [entry_eq aug pr.isLt (by omega)]
  exact ⟨hfound.1, hfound.2⟩

theorem findPivot_isSome {p : ℕ} (hcp : col.val ≤ p) (hp : p < n) (hpc : entry aug p col ≠ 0) :
    ∃ pr, findPivot aug col = some pr := by
  have hcol := col.isLt
  rw [entry_eq aug hp (by omega)] at hpc
  apply Option.isSome_iff_exists.mp
  exact List.find?_isSome.mpr ⟨⟨p, hp⟩, List.mem_finRange _, decide_eq_true ⟨hcp, hpc⟩⟩

/-- **A turn of the elimination is a step of it on the entries.** -/
theorem eliminate_entry {pr : Fin n} (h : findPivot aug col = some pr) :
    ∃ aug', eliminate aug col = some aug' ∧ entry aug' = step (entry aug) col pr := by
  have hpivot : entry (aug.swap col pr) col col = entry aug pr col := by
    rw [entry_swap aug col.isLt pr.isLt, swapRows, if_pos rfl]
  refine ⟨_, by unfold eliminate; rw [h]; rfl, ?_⟩
  rw [entry_clearOthers, entry_scalePivot, hpivot, entry_swap aug col.isLt pr.isLt]
  rfl

end Eliminate

/-! ### The whole elimination -/

variable {n : ℕ}

theorem entry_augmented (mat : GfMatrix n n) {i : ℕ} (hi : i < n) :
    entry (augmented mat) i = augment n (entry mat) i := by
  funext j
  unfold augment
  by_cases hj : j < 2 * n
  · unfold augmented
    rw [entry_ofFn _ hi hj]
    by_cases hjn : j < n
    · rw [dif_pos hjn, if_pos hjn, entry_eq mat hi hjn]
      rfl
    · rw [dif_neg hjn, if_neg hjn, add_comm]
  · rw [entry_outside _ (by omega), if_neg (by omega), if_neg (by omega)]

theorem reduced_augmented (mat : GfMatrix n n) : Reduced n (entry mat) (entry (augmented mat)) 0 := by
  refine ⟨fun S => forall₂_congr fun i hi => ?_, fun j hj => absurd hj (Nat.not_lt_zero j)⟩
  rw [entry_augmented mat hi]

/-- On a regular matrix the turns from column `c` on find their pivots. -/
theorem eliminate_run {A : ℕ → ℕ → Gf} (hA : Regular n A) : ∀ (d c : ℕ) (aug : GfMatrix n (2 * n)),
    c + d = n → Reduced n A (entry aug) c →
    ∃ aug', ((List.finRange n).drop c).foldlM eliminate aug = some aug' ∧ Reduced n A (entry aug') n
  | 0, c, aug, hc, h => by
    have hcn : c = n := hc
    refine ⟨aug, ?_, hcn ▸ h⟩
    rw [List.drop_eq_nil_of_le (by rw [List.length_finRange]; omega)]
    rfl
  | d + 1, c, aug, hc, h => by
    have hcn : c < n := by omega
    obtain ⟨p, hcp, hp, hpc⟩ := exists_pivot h hA hcn
    obtain ⟨pr, hpr⟩ := findPivot_isSome aug ⟨c, hcn⟩ hcp hp hpc
    obtain ⟨hle, hne⟩ := findPivot_spec aug ⟨c, hcn⟩ hpr
    obtain ⟨aug₁, heq, hentry⟩ := eliminate_entry aug ⟨c, hcn⟩ hpr
    have hred : Reduced n A (entry aug₁) (c + 1) := hentry ▸ h.step hle pr.isLt hne
    obtain ⟨aug', hrun, hend⟩ := eliminate_run hA d (c + 1) aug₁ (by omega) hred
    refine ⟨aug', ?_, hend⟩
    rw [List.drop_eq_getElem_cons (by rw [List.length_finRange]; exact hcn), List.foldlM_cons, List.getElem_finRange]
    exact (congrArg (· >>= _) heq).trans hrun

/-- **The elimination gives a regular matrix a left inverse.** -/
theorem invertMatrix_spec {mat : GfMatrix n n} (hmat : Regular n (entry mat)) :
    ∃ inv, invertMatrix mat = some inv ∧ ∀ i < n, ∀ j < n,
      ∑ l ∈ range n, entry inv i l * entry mat l j = if i = j then 1 else 0 := by
  obtain ⟨aug, hrun, hred⟩ := eliminate_run hmat n 0 (augmented mat) (by omega) (reduced_augmented mat)
  refine ⟨_, by unfold invertMatrix; rw [show (List.finRange n).foldlM eliminate _ = some aug from hrun]; rfl,
    fun i hi j hj => ?_⟩
  rw [← hred.inverse hi hj]
  refine sum_congr rfl fun l hl => ?_
  have hl' : l < n := mem_range.mp hl
  rw [entry_ofFn _ hi hl', entry_eq aug hi (by omega)]
  simp only [add_comm n l]
  rfl

/-! ### Any k rows are regular -/

variable {k m : ℕ}

theorem asU8_injOn {a b : ℕ} (ha : a < 256) (hb : b < 256) (h : asU8 a = asU8 b) : a = b := by
  have hbits := congrArg (fun x => x.bits.toNat) h
  simp only [asU8, BitVec.toNat_ofNat] at hbits
  omega

theorem entry_data {i j : ℕ} (hi : i < k) (hj : j < k) :
    entry (buildCauchyEncoding k m) i j = if i = j then 1 else 0 := by
  unfold buildCauchyEncoding
  rw [entry_ofFn _ (by omega) hj]
  exact if_pos hi

theorem entry_parity {i j : ℕ} (hi : i < m) (hj : j < k) :
    entry (buildCauchyEncoding k m) (k + i) j = (asU8 i - asU8 (m + j))⁻¹ := by
  unfold buildCauchyEncoding
  rw [entry_ofFn _ (by omega) hj, if_neg (by simp)]
  simp only [Nat.add_sub_cancel_left, Gf.sub_eq_add]

section Rows

variable {source : ℕ → ℕ}

/-- The unknowns that no identity row among the chosen ones settles. -/
def unsettled (k : ℕ) (source : ℕ → ℕ) : Finset ℕ := (Finset.range k).filter fun j => ∀ o < k, source o ≠ j

/-- The places of the parity rows among the chosen ones. -/
def parityPlaces (k : ℕ) (source : ℕ → ℕ) : Finset ℕ := (Finset.range k).filter fun o => k ≤ source o

/-- The chosen rows leave as many unknowns open as they have parity rows. -/
theorem card_unsettled (hinj : Set.InjOn source (range k)) :
    (unsettled k source).card = (parityPlaces k source).card := by
  let identity := (range k).filter fun o => ¬ k ≤ source o
  have hsettled : unsettled k source = range k \ identity.image source := by
    ext j
    simp only [unsettled, identity, mem_filter, mem_sdiff, mem_image, mem_range]
    refine and_congr_right fun hj => ⟨fun h hex => ?_, fun h o ho he => h ⟨o, ⟨ho, by omega⟩, he⟩⟩
    obtain ⟨o, ⟨ho, -⟩, he⟩ := hex
    exact h o ho he
  have hsub : identity.image source ⊆ range k := by
    intro j hj
    obtain ⟨o, ho, rfl⟩ := mem_image.mp hj
    exact mem_range.mpr (not_le.mp (mem_filter.mp ho).2)
  have himage : (identity.image source).card = identity.card :=
    card_image_of_injOn fun a ha b hb => hinj (mem_filter.mp ha).1 (mem_filter.mp hb).1
  have hsplit : (parityPlaces k source).card + identity.card = k :=
    (card_filter_add_card_filter_not _).trans (card_range k)
  rw [hsettled, card_sdiff_of_subset hsub, himage, card_range]
  omega

/-- An identity row settles its unknown. -/
theorem settled_eq_zero {v : ℕ → Gf}
    (hv : ∀ o < k, ∑ j ∈ range k, entry (buildCauchyEncoding k m) (source o) j * v j = 0)
    {j : ℕ} (hj : j < k) (hopen : j ∉ unsettled k source) : v j = 0 := by
  obtain ⟨o, ho, he⟩ : ∃ o < k, source o = j := by
    by_contra hnone
    exact hopen (mem_filter.mpr ⟨mem_range.mpr hj, fun o ho he => hnone ⟨o, ho, he⟩⟩)
  have hterm : ∀ l ∈ range k, entry (buildCauchyEncoding k m) (source o) l * v l = if j = l then v l else 0 := by
    intro l hl
    rw [he, entry_data hj (mem_range.mp hl), ite_mul, one_mul, zero_mul]
  have hrow := hv o ho
  rwa [sum_congr rfl hterm, sum_ite_eq, if_pos (mem_range.mpr hj)] at hrow

/-- **Any `k` distinct rows are regular.** -/
theorem regular_rows (hkm : k + m ≤ 256) (hlt : ∀ o < k, source o < k + m) (hinj : Set.InjOn source (range k)) :
    Regular k fun o j => entry (buildCauchyEncoding k m) (source o) j := by
  intro v hv j hj
  let nodes := (parityPlaces k source).image fun o => asU8 (source o - k)
  have hplace : ∀ o ∈ parityPlaces k source, o < k ∧ k ≤ source o ∧ source o < k + m := fun o ho => by
    obtain ⟨hmem, hle⟩ := mem_filter.mp ho
    have hk := mem_range.mp hmem
    exact ⟨hk, hle, hlt o hk⟩
  have hopen : ∀ l ∈ unsettled k source, l < k := fun l hl => mem_range.mp (mem_filter.mp hl).1
  have hcard : (unsettled k source).card ≤ nodes.card := by
    rw [card_unsettled hinj]
    refine (card_image_of_injOn fun a ha b hb he => ?_).ge
    obtain ⟨ha1, ha2, ha3⟩ := hplace a ha
    obtain ⟨hb1, hb2, hb3⟩ := hplace b hb
    have hsub := asU8_injOn (by omega) (by omega) he
    exact hinj (mem_coe.mpr (mem_range.mpr ha1)) (mem_coe.mpr (mem_range.mpr hb1))
      (by omega)
  by_cases hmem : j ∈ unsettled k source
  · refine Cauchy.cauchy_eq_zero (y := fun l => asU8 (m + l)) (t := nodes) (fun a ha b hb he => ?_) hcard
      (fun x hx l hl he => ?_) (fun x hx => ?_) hmem
    · -- the columns have distinct nodes
      have ha' := hopen a ha
      have hb' := hopen b hb
      have hsum := asU8_injOn (by omega) (by omega) he
      omega
    · -- a row and a column have distinct nodes
      obtain ⟨o, ho, rfl⟩ := mem_image.mp hx
      obtain ⟨ho1, ho2, ho3⟩ := hplace o ho
      have hl' := hopen l hl
      have hsum := asU8_injOn (by omega) (by omega) he
      omega
    · -- the settled unknowns fall out of the row
      obtain ⟨o, ho, rfl⟩ := mem_image.mp hx
      obtain ⟨ho1, ho2, ho3⟩ := hplace o ho
      have hrow : ∑ l ∈ range k, entry (buildCauchyEncoding k m) (source o) l * v l = 0 := hv o ho1
      rw [← hrow]
      refine (sum_congr rfl fun l hl => ?_).trans (sum_subset (filter_subset _ _) fun l hl hnot => ?_)
      · have hcell := entry_parity (m := m) (show source o - k < m by omega) (hopen l hl)
        rw [Nat.add_sub_cancel' ho2] at hcell
        rw [hcell, mul_comm]
      · rw [settled_eq_zero hv (mem_range.mp hl) hnot, mul_zero]
  · exact settled_eq_zero hv hj hmem

end Rows

end Tidefs.Erasure
