/-
# Single bits of a word, and of a list of words

The three ways code handles one bit of a word: test it against a shifted one,
set it, clear it. Each is stated through `BitVec.getLsbD`, and then for the
bits of a list of words, numbered from the first bit of the first word
(`bitAt`).
-/
import Mathlib

namespace Tidefs.Bits

open BitVec

variable {n : ℕ}

/-- The word with only bit `i` set. -/
def mask (n i : ℕ) : BitVec n := 1#n <<< i

theorem getLsbD_mask (i j : ℕ) : (mask n i).getLsbD j = (decide (j < n) && decide (j = i)) := by
  unfold mask
  rw [getLsbD_shiftLeft, getLsbD_one]
  by_cases h : j = i
  · subst h
    by_cases h2 : j < n
    · have : 0 < n := by omega
      simp [h2, this]
    · simp [h2]
  · by_cases h2 : j < i
    · simp [h2, h]
    · have h3 : j - i ≠ 0 := by omega
      simp [h, h3]

variable {w : BitVec n} {i : ℕ}

/-- Bit `i` is clear exactly if the word and the mask share nothing. -/
theorem and_mask_eq_zero (hi : i < n) : w &&& mask n i = 0#n ↔ w.getLsbD i = false := by
  constructor
  · intro h
    simpa only [getLsbD_and, getLsbD_mask, getLsbD_zero, hi, decide_true, Bool.and_true] using congrArg (getLsbD · i) h
  · intro h
    apply eq_of_getLsbD_eq
    intro j hj
    rw [getLsbD_and, getLsbD_mask, getLsbD_zero]
    by_cases he : j = i
    · subst he; rw [h, Bool.false_and]
    · simp only [he, decide_false, Bool.and_false]

theorem getLsbD_or_mask (hi : i < n) (j : ℕ) : (w ||| mask n i).getLsbD j = (w.getLsbD j || decide (j = i)) := by
  rw [getLsbD_or, getLsbD_mask]
  by_cases he : j = i
  · subst he; simp [hi]
  · simp [he]

theorem getLsbD_and_not_mask (j : ℕ) : (w &&& ~~~ mask n i).getLsbD j = (w.getLsbD j && !decide (j = i)) := by
  rw [getLsbD_and, getLsbD_not, getLsbD_mask]
  by_cases hj : j < n
  · simp [hj]
  · simp [getLsbD_of_ge w j (by omega)]

/-! ### Lists of words -/

theorem getD_modify {α : Type*} (l : List α) (f : α → α) (j : ℕ) (d : α) (hi : i < l.length) :
    (l.modify i f).getD j d = if i = j then f (l.getD j d) else l.getD j d := by
  simp only [List.getD_eq_getElem?_getD, List.getElem?_modify]
  by_cases h : i = j
  · subst h; simp [List.getElem?_eq_getElem hi]
  · cases l[j]? <;> simp [h]

def bitAt (ws : List (BitVec n)) (i : ℕ) : Bool := (ws.getD (i / n) 0#n).getLsbD (i % n)

theorem div_mod_inj {j : ℕ} (h1 : i / n = j / n) (h2 : i % n = j % n) : i = j := by
  rw [← Nat.div_add_mod i n, ← Nat.div_add_mod j n, h1, h2]

theorem getD_and_mask (hn : 0 < n) (ws : List (BitVec n)) (i : ℕ) :
    ws.getD (i / n) 0#n &&& mask n (i % n) = 0#n ↔ bitAt ws i = false :=
  and_mask_eq_zero (Nat.mod_lt i hn)

theorem bitAt_set (hn : 0 < n) {ws : List (BitVec n)} (hi : i / n < ws.length) (j : ℕ) :
    bitAt (ws.modify (i / n) (· ||| mask n (i % n))) j = (bitAt ws j || decide (j = i)) := by
  unfold bitAt
  rw [getD_modify _ _ _ _ hi]
  split_ifs with hw
  · rw [getLsbD_or_mask (Nat.mod_lt i hn)]
    congr 1
    exact decide_eq_decide.mpr ⟨fun h => (div_mod_inj hw h.symm).symm, fun h => by rw [h]⟩
  · rw [decide_eq_false fun h => hw (by rw [h]), Bool.or_false]

theorem bitAt_clear {ws : List (BitVec n)} (hi : i / n < ws.length) (j : ℕ) :
    bitAt (ws.modify (i / n) (· &&& ~~~ mask n (i % n))) j = (bitAt ws j && !decide (j = i)) := by
  unfold bitAt
  rw [getD_modify _ _ _ _ hi]
  split_ifs with hw
  · rw [getLsbD_and_not_mask]
    congr 2
    exact decide_eq_decide.mpr ⟨fun h => (div_mod_inj hw h.symm).symm, fun h => by rw [h]⟩
  · rw [decide_eq_false fun h => hw (by rw [h]), Bool.not_false, Bool.and_true]

end Tidefs.Bits
