/-
# The field of 256 elements

Bytes as the elements of GF(2^8), as the erasure coder computes with them: addition is
exclusive or, and products and quotients go through a table of the powers of the
generator and one of their exponents. The tables are filled by loops.

Doubling a power, reduced by the polynomial, is linear for exclusive or, and comes
around after 255 steps and not before. So the powers are all the nonzero bytes, the
second table inverts the first, multiplying by a power is doubling as often as its
exponent says, and the bytes are a field. The entry of the first table that is not a
power, the last one, is never read.
-/
import Mathlib.Algebra.Field.Basic
import Mathlib.Data.Finset.Card
import Mathlib.Logic.Function.Iterate

namespace Tidefs.Erasure

open List Function

/-! ### The tables -/

/-- One turn of the loop: the next power, reduced. -/
def expStep (x : BitVec 16) : BitVec 16 :=
  let x := x <<< 1
  if x &&& 0x100#16 ≠ 0 then x ^^^ 0x11D#16 else x

/-- The loop that fills both halves of the table of powers. -/
def expLoop : List ℕ → List (BitVec 8) → BitVec 16 → List (BitVec 8)
  | [], e, _ => e
  | i :: is, e, x => expLoop is ((e.set i (x.setWidth 8)).set (i + 255) (x.setWidth 8)) (expStep x)

def gfExp : List (BitVec 8) := ((expLoop (List.range 255) (List.replicate 510 0) 1).set 255 1).set 509 1

def gfLog : List ℕ := (List.range 255).foldl (fun l i => l.set (gfExp.getD i 0).toNat i) (List.replicate 256 0)

/-! ### Arithmetic -/

def gfMul (a b : BitVec 8) : BitVec 8 :=
  if a = 0 ∨ b = 0 then 0 else gfExp.getD (gfLog.getD a.toNat 0 + gfLog.getD b.toNat 0) 0

/-- Division; by zero it is zero. -/
def gfDiv (a b : BitVec 8) : BitVec 8 :=
  if a = 0 ∨ b = 0 then 0 else gfExp.getD ((gfLog.getD a.toNat 0 + 255 - gfLog.getD b.toNat 0) % 255) 0

def gfInv (a : BitVec 8) : BitVec 8 := gfDiv 1 a

/-! ### Powers of the generator -/

/-- The power the loop comes to after `i` turns. -/
def power (i : ℕ) : BitVec 8 := (expStep^[i] 1).setWidth 8

/-- Doubling, on bytes. -/
def double (a : BitVec 8) : BitVec 8 := (expStep (a.setWidth 16)).setWidth 8

theorem and_bit8 (y : BitVec 16) : y &&& 0x100#16 ≠ 0 ↔ y.getLsbD 8 = true := by
  have hbit : y &&& 0x100#16 = if y.getLsbD 8 then 0x100#16 else 0 := BitVec.and_twoPow y 8
  rw [hbit]
  cases y.getLsbD 8 with
  | true => simp
  | false => simp

theorem xor_cancel_right (x y p : BitVec 16) : x ^^^ p ^^^ (y ^^^ p) = x ^^^ y := by
  rw [BitVec.xor_comm y p, BitVec.xor_assoc, ← BitVec.xor_assoc p p y, BitVec.xor_self, BitVec.zero_xor]

theorem xor_right_comm (x y p : BitVec 16) : x ^^^ y ^^^ p = x ^^^ p ^^^ y := by
  rw [BitVec.xor_assoc, BitVec.xor_comm y p, BitVec.xor_assoc]

/-- The reduction as one exclusive or. -/
theorem expStep_eq (x : BitVec 16) : expStep x = (x <<< 1) ^^^ if (x <<< 1).getLsbD 8 = true then 0x11D#16 else 0 := by
  unfold expStep
  split_ifs with h
  · rw [if_pos ((and_bit8 _).mpr h)]
  · rw [if_neg fun hy => h ((and_bit8 _).mp hy)]
    exact (BitVec.xor_zero).symm

theorem expStep_xor (x y : BitVec 16) : expStep (x ^^^ y) = expStep x ^^^ expStep y := by
  rw [expStep_eq, expStep_eq, expStep_eq, BitVec.shiftLeft_xor_distrib, BitVec.getLsbD_xor]
  generalize x <<< 1 = x
  generalize y <<< 1 = y
  cases x.getLsbD 8 with
  | true =>
    cases y.getLsbD 8 with
    | true => simpa using (xor_cancel_right x y 0x11D#16).symm
    | false => simpa using xor_right_comm x y 0x11D#16
  | false => simp [BitVec.xor_assoc]

theorem double_xor (a b : BitVec 8) : double (a ^^^ b) = double a ^^^ double b := by
  unfold double
  rw [BitVec.setWidth_xor, expStep_xor, BitVec.setWidth_xor]

/-- A check over every byte, run by the kernel. -/
theorem forall_byte {P : BitVec 8 → Prop} (h : ∀ n < 256, P (BitVec.ofNat 8 n)) (a : BitVec 8) : P a := by
  have ha := h a.toNat a.isLt
  rwa [BitVec.ofNat_toNat, BitVec.setWidth_eq] at ha

/-- The reduced word is a byte again. -/
theorem expStep_byte (a : BitVec 8) : (double a).setWidth 16 = expStep (a.setWidth 16) :=
  forall_byte (P := fun a => (double a).setWidth 16 = expStep (a.setWidth 16)) (by decide +kernel) a

variable {a : BitVec 8} {i : ℕ}

theorem eq_zero_of_double : double a = 0 → a = 0 :=
  forall_byte (P := fun a => double a = 0 → a = 0) (by decide +kernel) a

theorem iterate_expStep : ∀ i, expStep^[i] 1 = (double^[i] 1).setWidth 16
  | 0 => by decide
  | i + 1 => by
    rw [iterate_succ_apply', iterate_succ_apply', iterate_expStep i, expStep_byte]

theorem power_eq (i : ℕ) : power i = double^[i] 1 := by
  unfold power
  rw [iterate_expStep]
  exact BitVec.setWidth_setWidth_of_le _ (by decide) |>.trans (BitVec.setWidth_eq _)

theorem power_add (i j : ℕ) : power (i + j) = double^[i] (power j) := by
  rw [power_eq, power_eq, iterate_add_apply]

theorem power_ne_zero (i : ℕ) : power i ≠ 0 := by
  rw [power_eq]
  induction i with
  | zero => decide
  | succ i ih =>
    rw [iterate_succ_apply']
    exact fun h => ih (eq_zero_of_double h)

theorem power_period : power 255 = 1 := by decide +kernel

/-- No power before the period is one. -/
theorem power_ne_one : ∀ d < 255, 0 < d → power d ≠ 1 := by decide +kernel

theorem double_injective : Function.Injective double := by
  intro a b h
  have hxor : double (a ^^^ b) = 0 := by rw [double_xor, h, BitVec.xor_self]; rfl
  exact BitVec.xor_eq_zero_iff.mp (eq_zero_of_double hxor)

theorem power_add_period (i : ℕ) : power (i + 255) = power i := by
  rw [power_add, power_period, power_eq]

/-- Before the period the powers differ. -/
theorem power_injOn : Set.InjOn power (Finset.range 255) := by
  have hlt : ∀ i j, i < j → j < 255 → power i ≠ power j := by
    intro i j hij hj heq
    have hj' : power j = double^[i] (power (j - i)) := by
      rw [← power_add, Nat.add_sub_cancel' (le_of_lt hij)]
    rw [hj', power_eq i] at heq
    exact power_ne_one (j - i) (by omega) (by omega) (double_injective.iterate i heq).symm
  intro i hi j hj heq
  have hi' : i < 255 := Finset.mem_range.mp hi
  have hj' : j < 255 := Finset.mem_range.mp hj
  rcases Nat.lt_trichotomy i j with h | h | h
  · exact absurd heq (hlt i j h hj')
  · exact h
  · exact absurd heq.symm (hlt j i h hi')

/-- **Every byte but zero is a power of the generator**: there are as many of both. -/
theorem exists_power (ha : a ≠ 0) : ∃ i < 255, power i = a := by
  let powers := (Finset.range 255).image fun i => (power i).toNat
  have hsub : powers ⊆ (Finset.range 256).erase 0 := by
    intro n hn
    obtain ⟨i, -, rfl⟩ := Finset.mem_image.mp hn
    refine Finset.mem_erase.mpr ⟨fun h => power_ne_zero i ?_, Finset.mem_range.mpr (power i).isLt⟩
    exact BitVec.eq_of_toNat_eq h
  have hcard : powers.card = 255 := by
    refine (Finset.card_image_of_injOn fun i hi j hj h => ?_).trans (Finset.card_range 255)
    exact power_injOn hi hj (BitVec.eq_of_toNat_eq h)
  have heq : powers = (Finset.range 256).erase 0 := by
    apply Finset.eq_of_subset_of_card_le hsub
    rw [hcard, Finset.card_erase_of_mem (by simp), Finset.card_range]
  have hmem : a.toNat ∈ powers := by
    rw [heq]
    exact Finset.mem_erase.mpr ⟨fun h => ha (BitVec.eq_of_toNat_eq h), Finset.mem_range.mpr a.isLt⟩
  obtain ⟨i, hi, h⟩ := Finset.mem_image.mp hmem
  exact ⟨i, Finset.mem_range.mp hi, BitVec.eq_of_toNat_eq h⟩

/-! ### What the loops leave in the tables -/

theorem getD_set {α : Type*} {l : List α} (hi : i < l.length) (v d : α) (j : ℕ) :
    (l.set i v).getD j d = if i = j then v else l.getD j d := by
  rw [getD_eq_getElem?_getD, getD_eq_getElem?_getD, getElem?_set]
  by_cases h : i = j
  · rw [if_pos h, if_pos h, if_pos hi]
    rfl
  · rw [if_neg h, if_neg h]

theorem expLoop_length : ∀ (is : List ℕ) (e : List (BitVec 8)) (x : BitVec 16), (expLoop is e x).length = e.length
  | [], _, _ => rfl
  | i :: is, e, x => by
    rw [expLoop, expLoop_length is, length_set, length_set]

/-- The loop from turn `s` on writes the powers of its turns into both halves. -/
theorem expLoop_getD : ∀ (n s : ℕ) (e : List (BitVec 8)), e.length = 510 → s + n ≤ 255 → ∀ j,
    (expLoop (range' s n) e (expStep^[s] 1)).getD j 0 = if s ≤ j ∧ j < s + n then power j
      else if s + 255 ≤ j ∧ j < s + n + 255 then power (j - 255) else e.getD j 0
  | 0, s, e, _, _, j => by
    rw [if_neg (by omega), if_neg (by omega)]
    rfl
  | n + 1, s, e, he, hs, j => by
    rw [range'_succ, expLoop, ← iterate_succ_apply' expStep,
      expLoop_getD n (s + 1) _ (by rw [length_set, length_set, he]) (by omega) j,
      getD_set (by rw [length_set, he]; omega), getD_set (by rw [he]; omega)]
    -- the turn itself writes `s` and `s + 255`, the later turns the rest
    by_cases hlo : s = j
    · rw [if_neg (by omega), if_neg (by omega), if_neg (by omega), if_pos hlo, if_pos (by omega), ← hlo]
      rfl
    · by_cases hhi : s + 255 = j
      · rw [if_neg (by omega), if_neg (by omega), if_pos hhi, if_neg (by omega), if_pos (by omega), ← hhi,
          Nat.add_sub_cancel]
        rfl
      · rw [if_neg hlo, if_neg hhi]
        have h1 : (s + 1 ≤ j ∧ j < s + 1 + n) ↔ (s ≤ j ∧ j < s + (n + 1)) := by omega
        have h2 : (s + 1 + 255 ≤ j ∧ j < s + 1 + n + 255) ↔ (s + 255 ≤ j ∧ j < s + (n + 1) + 255) := by omega
        simp only [h1, h2]

/-- **The table of powers holds them, up to the last index that is read.** -/
theorem gfExp_eq (hi : i < 509) : gfExp.getD i 0 = power i := by
  have hlen : (expLoop (range 255) (replicate 510 0) 1).length = 510 := by
    rw [expLoop_length, length_replicate]
  have hloop := expLoop_getD 255 0 (replicate 510 0) (length_replicate ..) (by omega) i
  rw [← range_eq_range'] at hloop
  unfold gfExp
  rw [getD_set (by rw [length_set, hlen]; omega), getD_set (by rw [hlen]; omega), if_neg (by omega)]
  split_ifs with h255
  · rw [← h255, power_period]
  · rw [show (1 : BitVec 16) = expStep^[0] 1 from rfl, hloop]
    by_cases hlo : i < 255
    · rw [if_pos (by omega)]
    · rw [if_neg (by omega), if_pos (by omega), ← power_add_period, Nat.sub_add_cancel (by omega)]

/-- The table of exponents after the first `n` turns. -/
theorem gfLog_loop : ∀ n ≤ 255,
    let l := (range n).foldl (fun l i => l.set (gfExp.getD i 0).toNat i) (replicate 256 0)
    l.length = 256 ∧ ∀ i < n, l.getD (power i).toNat 0 = i
  | 0, _ => ⟨length_replicate .., fun i hi => absurd hi (Nat.not_lt_zero i)⟩
  | n + 1, hn => by
    obtain ⟨hlen, hlog⟩ := gfLog_loop n (by omega)
    rw [range_succ, foldl_append]
    refine ⟨by rw [foldl_cons, foldl_nil, length_set, hlen], fun i hi => ?_⟩
    rw [foldl_cons, foldl_nil, gfExp_eq (by omega), getD_set (by rw [hlen]; exact (power n).isLt)]
    by_cases h : i = n
    · rw [h, if_pos rfl]
    · rw [if_neg fun heq => h ?_]
      · exact hlog i (by omega)
      · exact (power_injOn (Finset.mem_coe.mpr (Finset.mem_range.mpr (by omega)))
          (Finset.mem_coe.mpr (Finset.mem_range.mpr (by omega))) (BitVec.eq_of_toNat_eq heq)).symm

/-- **The table of exponents inverts the table of powers.** -/
theorem gfLog_power (hi : i < 255) : gfLog.getD (power i).toNat 0 = i :=
  (gfLog_loop 255 le_rfl).2 i hi

/-! ### Products and quotients -/

/-- **A product of powers adds their exponents.** -/
theorem gfMul_power (i j : ℕ) : gfMul (power i) (power j) = power (i + j) := by
  obtain ⟨i', hi', hpi⟩ := exists_power (power_ne_zero i)
  obtain ⟨j', hj', hpj⟩ := exists_power (power_ne_zero j)
  unfold gfMul
  rw [if_neg (not_or.mpr ⟨power_ne_zero i, power_ne_zero j⟩), ← hpi, ← hpj, gfLog_power hi', gfLog_power hj',
    gfExp_eq (by omega)]
  calc power (i' + j') = power (i' + j) := by rw [power_add, hpj, ← power_add]
    _ = power (j + i') := by rw [Nat.add_comm]
    _ = power (j + i) := by rw [power_add, hpi, ← power_add]
    _ = power (i + j) := by rw [Nat.add_comm]

theorem gfInv_power (hi : i < 255) : gfInv (power i) = power ((255 - i) % 255) := by
  have hone : gfLog.getD (1 : BitVec 8).toNat 0 = 0 := gfLog_power (i := 0) (by omega)
  unfold gfInv gfDiv
  rw [if_neg (not_or.mpr ⟨by decide, power_ne_zero i⟩), hone, gfLog_power hi, Nat.zero_add,
    gfExp_eq (by have := Nat.mod_lt (255 - i) (show 0 < 255 by omega); omega)]

theorem gfMul_zero_right (a : BitVec 8) : gfMul a 0 = 0 := if_pos (Or.inr rfl)

theorem gfMul_zero_left (a : BitVec 8) : gfMul 0 a = 0 := if_pos (Or.inl rfl)

theorem iterate_double_zero (i : ℕ) : double^[i] 0 = 0 := iterate_fixed (by decide) i

/-- Multiplying by a power doubles as often as its exponent says. -/
theorem gfMul_power_left (i : ℕ) (b : BitVec 8) : gfMul (power i) b = double^[i] b := by
  by_cases hb : b = 0
  · rw [hb, gfMul_zero_right, iterate_double_zero]
  · obtain ⟨j, -, rfl⟩ := exists_power hb
    rw [gfMul_power, power_add]

theorem iterate_double_xor (a b : BitVec 8) : ∀ i, double^[i] (a ^^^ b) = double^[i] a ^^^ double^[i] b
  | 0 => rfl
  | i + 1 => by
    rw [iterate_succ_apply', iterate_double_xor a b i, double_xor, ← iterate_succ_apply' double,
      ← iterate_succ_apply' double]

theorem gfMul_comm (a b : BitVec 8) : gfMul a b = gfMul b a := by
  by_cases ha : a = 0
  · rw [ha, gfMul_zero_left, gfMul_zero_right]
  by_cases hb : b = 0
  · rw [hb, gfMul_zero_left, gfMul_zero_right]
  obtain ⟨i, -, rfl⟩ := exists_power ha
  obtain ⟨j, -, rfl⟩ := exists_power hb
  rw [gfMul_power, gfMul_power, Nat.add_comm]

theorem gfMul_assoc (a b c : BitVec 8) : gfMul (gfMul a b) c = gfMul a (gfMul b c) := by
  by_cases ha : a = 0
  · rw [ha, gfMul_zero_left, gfMul_zero_left, gfMul_zero_left]
  by_cases hb : b = 0
  · rw [hb, gfMul_zero_right, gfMul_zero_left, gfMul_zero_right]
  obtain ⟨i, -, rfl⟩ := exists_power ha
  obtain ⟨j, -, rfl⟩ := exists_power hb
  rw [gfMul_power, gfMul_power_left, gfMul_power_left, gfMul_power_left, iterate_add_apply]

theorem gfMul_xor (a b c : BitVec 8) : gfMul a (b ^^^ c) = gfMul a b ^^^ gfMul a c := by
  by_cases ha : a = 0
  · rw [ha, gfMul_zero_left, gfMul_zero_left, gfMul_zero_left]
    rfl
  · obtain ⟨i, -, rfl⟩ := exists_power ha
    rw [gfMul_power_left, gfMul_power_left, gfMul_power_left, iterate_double_xor]

theorem one_gfMul (a : BitVec 8) : gfMul 1 a = a := gfMul_power_left 0 a

theorem gfInv_zero : gfInv 0 = 0 := by
  unfold gfInv gfDiv
  exact if_pos (Or.inr rfl)

theorem gfMul_gfInv (ha : a ≠ 0) : gfMul a (gfInv a) = 1 := by
  obtain ⟨i, hi, rfl⟩ := exists_power ha
  rw [gfInv_power hi, gfMul_power]
  by_cases h : i = 0
  · rw [h]
    rfl
  · rw [Nat.mod_eq_of_lt (by omega), Nat.add_sub_cancel' (by omega), power_period]

/-! ### The field -/

/-- A byte, with the arithmetic of the field. -/
@[ext]
structure Gf where
  bits : BitVec 8
deriving DecidableEq

namespace Gf

instance : Zero Gf := ⟨⟨0⟩⟩
instance : One Gf := ⟨⟨1⟩⟩
instance : Add Gf := ⟨fun a b => ⟨a.bits ^^^ b.bits⟩⟩
instance : Neg Gf := ⟨id⟩
instance : Mul Gf := ⟨fun a b => ⟨gfMul a.bits b.bits⟩⟩
instance : Inv Gf := ⟨fun a => ⟨gfInv a.bits⟩⟩

/-- In characteristic two a difference is a sum. -/
instance : CommRing Gf where
  add_assoc a b c := Gf.ext (BitVec.xor_assoc ..)
  zero_add a := Gf.ext BitVec.zero_xor
  add_zero a := Gf.ext BitVec.xor_zero
  nsmul := nsmulRec
  add_comm a b := Gf.ext (BitVec.xor_comm ..)
  left_distrib a b c := Gf.ext (gfMul_xor ..)
  right_distrib a b c := by
    apply Gf.ext
    show gfMul (a.bits ^^^ b.bits) c.bits = gfMul a.bits c.bits ^^^ gfMul b.bits c.bits
    rw [gfMul_comm, gfMul_xor, gfMul_comm, gfMul_comm c.bits]
  zero_mul a := Gf.ext (gfMul_zero_left a.bits)
  mul_zero a := Gf.ext (gfMul_zero_right a.bits)
  mul_assoc a b c := Gf.ext (gfMul_assoc ..)
  one_mul a := Gf.ext (one_gfMul a.bits)
  mul_one a := Gf.ext ((gfMul_comm a.bits 1).trans (one_gfMul a.bits))
  zsmul := zsmulRec
  neg_add_cancel a := Gf.ext BitVec.xor_self
  mul_comm a b := Gf.ext (gfMul_comm ..)

instance : Field Gf where
  exists_pair_ne := ⟨0, 1, by decide⟩
  mul_inv_cancel a ha := by
    have hbits : a.bits ≠ 0 := fun h => ha (Gf.ext h)
    exact Gf.ext (show gfMul a.bits (gfInv a.bits) = 1 from gfMul_gfInv hbits)
  inv_zero := Gf.ext gfInv_zero
  nnqsmul := _
  nnqsmul_def _ _ := rfl
  qsmul := _
  qsmul_def _ _ := rfl

/-- Adding is the same as taking away. -/
theorem sub_eq_add (a b : Gf) : a - b = a + b := sub_eq_add_neg a b

end Gf
end Tidefs.Erasure
