/-
# The runs the size-class hints find

After a rebuild, the hints of a class are the free runs of that class or a higher one, so
a search finds a run of the class of the length asked for. Such a run may be shorter than
that length: `find_free_run(3)` returns a run of two segments (`findFreeRun_short`). The
search is right exactly if the first free run of the class is long enough
(`free_run_found_iff`).
-/
import Tidefs.SpaceMap.FreeMap

namespace Tidefs.SpaceMap

open Ordered List OrdSet

/-! ### Size classes -/

/-- The first boundary at or below a greater length does not come later. -/
theorem found_mono {a b : ℕ} (hle : a ≤ b) : ∀ {l : List (ℕ × ℕ)}, l.Pairwise (fun p q => q.2 ≤ p.2) →
    ((l.find? fun p => p.1 ≤ a).map Prod.snd).getD 0 ≤ ((l.find? fun p => p.1 ≤ b).map Prod.snd).getD 0
  | [], _ => le_rfl
  | p :: l, h => by
    obtain ⟨hp, hl⟩ := pairwise_cons.mp h
    by_cases ha : p.1 ≤ a
    · simp [ha, ha.trans hle]
    · by_cases hb : p.1 ≤ b
      · cases hf : l.find? fun p => p.1 ≤ a with
        | none => simp [ha, hf]
        | some q => simpa [ha, hb, hf] using hp q (mem_of_find?_eq_some hf)
      · simpa [ha, hb] using found_mono hle hl

theorem sizeClassFor_mono {a b : ℕ} (h : a ≤ b) : sizeClassFor a ≤ sizeClassFor b := found_mono h (by decide)

theorem sizeClassFor_lt (len : ℕ) : sizeClassFor len < sizeClassCount := by
  unfold sizeClassFor
  cases hf : sizeClassBoundaries.zipIdx.reverse.find? fun p => p.1 ≤ len with
  | none => exact Nat.succ_pos 13
  | some p =>
    have hall : ∀ p ∈ sizeClassBoundaries.zipIdx.reverse, p.2 < sizeClassCount := by decide
    exact hall p (mem_of_find?_eq_some hf)

/-! ### Rebuilt hints -/

namespace SizeClassHints

variable {h : SizeClassHints} {cls : ℕ}

theorem foldl_insertRun : ∀ (l : List Run) (h : SizeClassHints),
    (l.foldl (fun h r => h.insertRun r.start r.stop) h).hints[cls]? =
      h.hints[cls]?.map fun s => s.extend (l.filter fun r => cls ≤ sizeClassFor r.len)
  | [], h => by simp [extend]
  | x :: l, h => by
    rw [foldl_cons, foldl_insertRun l, insertRun, getElem?_mapIdx, Option.map_map]
    congr 1
    funext s
    by_cases hcls : cls ≤ sizeClassFor x.len
    · rw [filter_cons_of_pos (by simpa using hcls)]
      exact congrArg (extend · _) (if_pos hcls)
    · rw [filter_cons_of_neg (by simpa using hcls)]
      exact congrArg (extend · _) (if_neg hcls)

/-- The hints of a class are the runs of at least that class. -/
theorem rebuild_hints (freeRuns : OrdSet Run) : (h.rebuild freeRuns).hints[cls]? =
    h.hints[cls]?.map fun _ => empty.extend (freeRuns.toList.filter fun r => cls ≤ sizeClassFor r.len) := by
  rw [rebuild, foldl_insertRun, getElem?_map, Option.map_map]
  rfl

theorem findForSize_eq (h : SizeClassHints) (minLen : ℕ) : h.findForSize minLen = h.findForSizeGe minLen 0 := by
  have hhead : (fun hint : OrdSet Run => hint.toList.head?) = fun hint => hint.toList.find? fun r => 0 ≤ r.start := by
    funext hint
    cases hint.toList <;> simp
  rw [findForSize, findForSizeGe, hhead]

/-- The lowest of the runs that start at the cursor or above and are of the class of `minLen` or a higher one. -/
def FirstOfClass (freeRuns : OrdSet Run) (minLen cursor : ℕ) (r : Run) : Prop :=
  (r ∈ freeRuns ∧ cursor ≤ r.start ∧ sizeClassFor minLen ≤ sizeClassFor r.len) ∧
    ∀ x ∈ freeRuns, cursor ≤ x.start → sizeClassFor minLen ≤ sizeClassFor x.len → r ≤ x

theorem FirstOfClass.unique {freeRuns : OrdSet Run} {minLen cursor : ℕ} {r r' : Run}
    (hr : FirstOfClass freeRuns minLen cursor r) (hr' : FirstOfClass freeRuns minLen cursor r') : r = r' :=
  le_antisymm (hr.2 r' hr'.1.1 hr'.1.2.1 hr'.1.2.2) (hr'.2 r hr.1.1 hr.1.2.1 hr.1.2.2)

theorem find?_le {p : Run → Bool} {r x : Run} : ∀ {l : List Run}, l.Pairwise (· < ·) → l.find? p = some r → x ∈ l →
    p x = true → r ≤ x
  | y :: l, hl, hfind, hx, hp => by
    obtain ⟨hy, hl⟩ := pairwise_cons.mp hl
    rw [find?_cons] at hfind
    cases hpy : p y with
    | true =>
      rw [hpy] at hfind
      obtain rfl := Option.some.inj hfind
      exact (mem_cons.mp hx).elim (fun h => h.ge) fun h => (hy x h).le
    | false =>
      rw [hpy] at hfind
      obtain rfl | hx := mem_cons.mp hx
      · rw [hpy] at hp
        cases hp
      · exact find?_le hl hfind hx hp

/-- **A search finds the first run of the class.** The hints of the class have every run that the higher ones have, so
no other hints are looked at. -/
theorem findForSizeGe_spec (hlen : h.hints.length = sizeClassCount) (freeRuns : OrdSet Run) {minLen : ℕ}
    (hmin : 1 ≤ minLen) (cursor : ℕ) : match (h.rebuild freeRuns).findForSizeGe minLen cursor with
    | some r => FirstOfClass freeRuns minLen cursor r
    | none => ∀ r ∈ freeRuns, cursor ≤ r.start → ¬ sizeClassFor minLen ≤ sizeClassFor r.len := by
  have hclass : (h.rebuild freeRuns).hints[sizeClassFor minLen]? =
      some (empty.extend (freeRuns.toList.filter fun r => sizeClassFor minLen ≤ sizeClassFor r.len)) := by
    rw [rebuild_hints, getElem?_eq_getElem (hlen ▸ sizeClassFor_lt minLen)]
    rfl
  set hint := empty.extend (freeRuns.toList.filter fun r => sizeClassFor minLen ≤ sizeClassFor r.len) with hhint
  have hmem : ∀ r, r ∈ hint ↔ r ∈ freeRuns ∧ sizeClassFor minLen ≤ sizeClassFor r.len := fun r => by
    rw [hhint, mem_extend, or_iff_right (not_mem_empty r), mem_filter, decide_eq_true_eq]
    rfl
  have hdrop : (h.rebuild freeRuns).hints.drop (sizeClassFor minLen) =
      hint :: (h.rebuild freeRuns).hints.drop (sizeClassFor minLen + 1) := drop_eq_getElem?_toList_append ▸ by rw [hclass]; rfl
  rw [findForSizeGe, if_neg (Nat.one_le_iff_ne_zero.mp hmin), hdrop, findSome?_cons]
  cases hfind : hint.toList.find? fun r => cursor ≤ r.start with
  | some r =>
    obtain ⟨hfree, hcls⟩ := (hmem r).mp (mem_of_find?_eq_some hfind)
    have hstart := find?_some (p := fun r : Run => decide (cursor ≤ r.start)) hfind
    exact ⟨⟨hfree, of_decide_eq_true hstart, hcls⟩, fun x hx hxstart hxcls =>
      find?_le hint.sorted hfind ((hmem x).mpr ⟨hx, hxcls⟩) (decide_eq_true hxstart)⟩
  | none =>
    have hnone : ∀ r ∈ freeRuns, cursor ≤ r.start → ¬ sizeClassFor minLen ≤ sizeClassFor r.len := fun r hr hstart hcls =>
      find?_eq_none.mp hfind r ((hmem r).mpr ⟨hr, hcls⟩) (decide_eq_true hstart)
    cases hf : ((h.rebuild freeRuns).hints.drop (sizeClassFor minLen + 1)).findSome? fun hint =>
        hint.toList.find? fun r => cursor ≤ r.start with
    | none => exact hnone
    | some r =>
      obtain ⟨s, hs, hr⟩ := exists_of_findSome?_eq_some hf
      obtain ⟨i, hi⟩ := mem_iff_getElem?.mp hs
      rw [getElem?_drop, rebuild_hints] at hi
      obtain ⟨-, -, rfl⟩ := Option.map_eq_some_iff.mp hi
      obtain ⟨hfree, hcls⟩ := mem_filter.mp
        ((mem_extend.mp (mem_of_find?_eq_some hr)).resolve_left (not_mem_empty r))
      have hstart := find?_some (p := fun r : Run => decide (cursor ≤ r.start)) hr
      exact absurd (le_trans (by omega) (of_decide_eq_true hcls)) (hnone r hfree (of_decide_eq_true hstart))

end SizeClassHints

/-! ### Searches for a free run -/

namespace SegmentFreeMap

/-- The search finds a run that is long enough exactly if there is one. -/
def Finds (runs : Run → Prop) (minLen : ℕ) (found : Option Run) : Prop :=
  (found.isSome = true ↔ ∃ r, runs r ∧ minLen ≤ r.len) ∧ ∀ r, found = some r → runs r ∧ minLen ≤ r.len

variable (fm : SegmentFreeMap)

/-- The first free run of the class is long enough, if there is one. -/
def FirstFits (minLen cursor : ℕ) : Prop := ∀ r, SizeClassHints.FirstOfClass fm.freeRuns minLen cursor r → minLen ≤ r.len

theorem findFreeRunGe_finds_iff (hlen : fm.sizeClassHints.hints.length = sizeClassCount) {minLen : ℕ}
    (hmin : 1 ≤ minLen) (cursor : ℕ) :
    Finds (fun r => r ∈ fm.freeRuns ∧ cursor ≤ r.start) minLen (fm.rebuildHints.findFreeRunGe minLen cursor) ↔
      fm.FirstFits minLen cursor := by
  have hspec := SizeClassHints.findForSizeGe_spec hlen fm.freeRuns hmin cursor
  unfold findFreeRunGe rebuildHints
  cases hf : (fm.sizeClassHints.rebuild fm.freeRuns).findForSizeGe minLen cursor with
  | some r =>
    rw [hf] at hspec
    have hfree := hspec.1
    constructor
    · intro hfinds x hx
      obtain rfl := hx.unique hspec
      exact (hfinds.2 _ rfl).2
    · intro hfits
      refine ⟨iff_of_true rfl ⟨r, ⟨hfree.1, hfree.2.1⟩, hfits r hspec⟩, fun x hx => ?_⟩
      obtain rfl := Option.some.inj hx
      exact ⟨⟨hfree.1, hfree.2.1⟩, hfits r hspec⟩
  | none =>
    rw [hf] at hspec
    refine iff_of_true ⟨iff_of_false (by simp) ?_, nofun⟩ fun r hr => absurd hr.1.2.2 (hspec r hr.1.1 hr.1.2.1)
    rintro ⟨r, ⟨hr, hstart⟩, hfound⟩
    exact hspec r hr hstart (sizeClassFor_mono hfound)

/-- **A free run is found exactly if the first of its class is long enough**, from the start of the map and from the
cursor on; the hints are a vector with a set for each class. -/
theorem free_run_found_iff (hlen : fm.sizeClassHints.hints.length = sizeClassCount) {minLen : ℕ} (hmin : 1 ≤ minLen)
    (cursor : ℕ) :
    Finds (· ∈ fm.freeRuns) minLen (fm.rebuildHints.findFreeRun minLen) ∧
        Finds (fun r => r ∈ fm.freeRuns ∧ cursor ≤ r.start) minLen (fm.rebuildHints.findFreeRunGe minLen cursor) ↔
      fm.FirstFits minLen 0 ∧ fm.FirstFits minLen cursor := by
  refine and_congr ?_ (fm.findFreeRunGe_finds_iff hlen hmin cursor)
  have hzero := fm.findFreeRunGe_finds_iff hlen hmin 0
  simp only [Nat.zero_le, and_true] at hzero
  rwa [findFreeRunGe, ← SizeClassHints.findForSize_eq] at hzero

/-- Two segments at 0 and three at 10. -/
def twoRuns : SegmentFreeMap := { empty 20 with freeRuns := OrdSet.empty.extend [⟨0, 2⟩, ⟨10, 13⟩] }

theorem free_run_found_iff_two :
    Finds (· ∈ twoRuns.freeRuns) 2 (twoRuns.rebuildHints.findFreeRun 2) ∧
      Finds (fun r => r ∈ twoRuns.freeRuns ∧ 5 ≤ r.start) 2 (twoRuns.rebuildHints.findFreeRunGe 2 5) := by
  have hlong : ∀ r ∈ twoRuns.freeRuns, 2 ≤ r.len := by decide
  exact (free_run_found_iff twoRuns rfl (by decide) 5).mpr ⟨fun r hr => hlong r hr.1.1, fun r hr => hlong r hr.1.1⟩

/-- **A run of two segments is returned for three.** -/
theorem findFreeRun_short : twoRuns.rebuildHints.findFreeRun 3 = some ⟨0, 2⟩ ∧
    twoRuns.rebuildHints.findFreeRunGe 3 0 = some ⟨0, 2⟩ := by decide

end SegmentFreeMap

end Tidefs.SpaceMap
