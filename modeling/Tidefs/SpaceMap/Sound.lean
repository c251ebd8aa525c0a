/-
# What the segment free map promises

The runs of a free map are canonical, lie in the pool and add up to the cached
count (`Inv`). Every operation keeps that and changes the set of free segments
by what it names (`step_spec`), so it holds along every sequence of operations
from any valid list of initial runs (`segment_free_map_sound`).
-/
import Tidefs.SpaceMap.FreeMap

namespace Tidefs.SpaceMap

open Ordered Word List OrdSet SegmentFreeMap
open Set hiding insert mem_insert

namespace SegmentFreeMap

/-- What every operation keeps. The last field is the width of `segment_count`. -/
structure Inv (fm : SegmentFreeMap) : Prop where
  canonical : Canonical fm.freeRuns
  bound : ∀ r ∈ fm.freeRuns, r.stop ≤ fm.segmentCount
  cached : fm.cachedFree = total fm.freeRuns
  word : fm.segmentCount ≤ u64Max

/-- The free segments: those inside a run. -/
def freeSet (fm : SegmentFreeMap) : Set ℕ := {s | Covers fm.freeRuns s}

variable {fm : SegmentFreeMap} {seg : ℕ}

theorem Inv.lt_segmentCount (h : Inv fm) {s : ℕ} (hs : s ∈ fm.freeSet) : s < fm.segmentCount := by
  obtain ⟨r, hr, -, h2⟩ := hs
  have := h.bound r hr
  omega

/-- A map with the same runs, count and size keeps the invariant; the hints,
the counters and the dirty groups are free to change. -/
theorem Inv.congr {fm' : SegmentFreeMap} (h : Inv fm) (h1 : fm'.freeRuns = fm.freeRuns)
    (h2 : fm'.segmentCount = fm.segmentCount) (h3 : fm'.cachedFree = fm.cachedFree) : Inv fm' :=
  ⟨h1 ▸ h.canonical, by rw [h1, h2]; exact h.bound, by rw [h3, h1]; exact h.cached, h2 ▸ h.word⟩

theorem freeSet_congr {fm' : SegmentFreeMap} (h : fm'.freeRuns = fm.freeRuns) : fm'.freeSet = fm.freeSet := by
  unfold freeSet; rw [h]

/-! ### The search -/

/-- From the last run that starts at or before `seg` down, the first one decides. -/
theorem isFreeScan_iff : ∀ {l : List Run}, (∀ r ∈ l, r.start < r.stop) →
    l.Pairwise (fun a b => b.stop < a.start) → (∀ r ∈ l, r.start ≤ seg) → (isFreeScan seg l = true ↔ ∃ r ∈ l, seg ∈ r)
  | [], _, _, _ => by simp [isFreeScan]
  | r :: l, hne, hp, hle => by
    unfold isFreeScan
    obtain ⟨hp1, hp2⟩ := pairwise_cons.mp hp
    have h1 := hle r mem_cons_self
    by_cases h2 : seg < r.stop
    · simp only [h1, h2, and_self, ↓reduceIte, true_iff]
      exact ⟨r, mem_cons_self, h1, h2⟩
    · simp only [h2, and_false, ↓reduceIte, not_lt.mp h2, Bool.false_eq_true, false_iff]
      rintro ⟨x, hx, h3, h4⟩
      rcases mem_cons.mp hx with rfl | hx
      · exact h2 h4
      · have := hp1 x hx
        omega

theorem mem_runsUpTo {r : Run} : r ∈ (fm.runsUpTo seg).reverse ↔ r ∈ fm.freeRuns ∧ r.start ≤ seg := by
  simp [runsUpTo, runs, mem_def]

theorem isFree_iff (h : Inv fm) (seg : ℕ) : fm.isFree seg = true ↔ seg ∈ fm.freeSet := by
  have hp : (fm.runsUpTo seg).reverse.Pairwise fun a b => b.stop < a.start :=
    pairwise_reverse.mpr (h.canonical.pairwise.filter _)
  unfold isFree
  rw [isFreeScan_iff (fun r hr => h.canonical.nonempty r (mem_runsUpTo.mp hr).1) hp
    (fun r hr => (mem_runsUpTo.mp hr).2)]
  constructor
  · rintro ⟨r, hr, hs⟩
    exact ⟨r, (mem_runsUpTo.mp hr).1, hs⟩
  · rintro ⟨r, hr, hs⟩
    exact ⟨r, mem_runsUpTo.mpr ⟨hr, hs.1⟩, hs⟩

/-- `find_first_free_ge` returns the least covered number at or above `min`. -/
theorem firstFreeGe_spec (min : ℕ) : ∀ {l : List Run}, (∀ r ∈ l, r.start < r.stop) →
    l.Pairwise (fun a b => a.stop < b.start) → match firstFreeGe min l with
    | some seg => IsLeast {s | (∃ r ∈ l, s ∈ r) ∧ min ≤ s} seg
    | none => ∀ s, (∃ r ∈ l, s ∈ r) → s < min
  | [], _, _ => by simp [firstFreeGe]
  | r :: l, hne, hp => by
    obtain ⟨hp1, hp2⟩ := pairwise_cons.mp hp
    have h0 := hne r mem_cons_self
    have ih := firstFreeGe_spec min (fun x hx => hne x (mem_cons_of_mem _ hx)) hp2
    -- every number of a later run is past this run
    have hlater : ∀ s, (∃ x ∈ l, s ∈ x) → r.stop < s := by
      rintro s ⟨x, hx, h1, h2⟩
      have := hp1 x hx
      omega
    have hmem : ∀ s, (∃ x ∈ r :: l, s ∈ x) ↔ (r.start ≤ s ∧ s < r.stop) ∨ ∃ x ∈ l, s ∈ x := by
      intro s; simp [Run.mem_def]
    unfold firstFreeGe
    by_cases h1 : min ≤ r.start
    · simp only [h1, ↓reduceIte]
      refine ⟨⟨(hmem _).mpr (.inl ⟨le_rfl, h0⟩), h1⟩, fun s hs => ?_⟩
      rcases (hmem s).mp hs.1 with h2 | h2
      · exact h2.1
      · have := hlater s h2; omega
    · by_cases h2 : min < r.stop
      · simp only [h1, h2, ↓reduceIte]
        exact ⟨⟨(hmem _).mpr (.inl ⟨by omega, h2⟩), le_rfl⟩, fun s hs => hs.2⟩
      · simp only [h1, h2, ↓reduceIte]
        cases hf : firstFreeGe min l with
        | none =>
          rw [hf] at ih
          intro s hs
          rcases (hmem s).mp hs with h3 | h3
          · omega
          · exact ih s h3
        | some seg =>
          rw [hf] at ih
          refine ⟨⟨(hmem seg).mpr (.inr ih.1.1), ih.1.2⟩, fun s hs => ?_⟩
          rcases (hmem s).mp hs.1 with h3 | h3
          · have := hs.2; omega
          · exact ih.2 ⟨h3, hs.2⟩

theorem findFirstFreeGe_spec (h : Inv fm) (min : ℕ) : match fm.findFirstFreeGe min with
    | some seg => IsLeast {s | s ∈ fm.freeSet ∧ min ≤ s} seg
    | none => ∀ s ∈ fm.freeSet, s < min :=
  firstFreeGe_spec _ (fun r hr => h.canonical.nonempty r hr) h.canonical.pairwise

/-! ### The updates -/

theorem insertRunMerge_spec (h : Inv fm) {start stop : ℕ} (h1 : start < stop)
    (h2 : stop ≤ fm.segmentCount) : Inv (fm.insertRunMerge start stop) ∧
      (fm.insertRunMerge start stop).freeSet = fm.freeSet ∪ Set.Ico start stop := by
  set l := fm.runs.filter fun r => r.start ≤ stop ∧ start ≤ r.stop with hl
  have hmem : ∀ r, r ∈ l ↔ r ∈ fm.freeRuns ∧ Touches start stop r := by
    intro r; simp [hl, runs, mem_def, Touches]
  have hR' : ∀ r, r ∈ (fm.insertRunMerge start stop).freeRuns ↔
      r = hull start stop l ∨ r ∈ fm.freeRuns ∧ ¬ Touches start stop r := by
    intro r
    simp only [insertRunMerge, mem_insert, mem_eraseAll, ← hl, hmem]
    tauto
  have hc := canonical_hull h.canonical h1 hmem hR'
  refine ⟨⟨hc, fun r hr => ?_, rfl, h.word⟩, ?_⟩
  · show r.stop ≤ fm.segmentCount
    rcases (hR' r).mp hr with rfl | ⟨hr, -⟩
    · rcases (hull_spec l start stop).2.2.2 with h3 | ⟨x, hx, h3⟩
      · omega
      · rw [h3]; exact h.bound x ((hmem x).mp hx).1
    · exact h.bound r hr
  · ext s
    exact covers_hull hmem hR' s

/-- The run that holds a free segment is the one the search finds. -/
theorem find_run (h : Inv fm) {r : Run} (hr : r ∈ fm.freeRuns) (hs : seg ∈ r) :
    (fm.runsUpTo seg).reverse.find? (fun r => r.start ≤ seg ∧ seg < r.stop) = some r := by
  cases hf : (fm.runsUpTo seg).reverse.find? (fun r => r.start ≤ seg ∧ seg < r.stop) with
  | none =>
    have := find?_eq_none.mp hf r (mem_runsUpTo.mpr ⟨hr, hs.1⟩)
    simp only [decide_eq_true_eq] at this
    exact absurd hs this
  | some x =>
    have h1 := find?_some hf
    simp only [decide_eq_true_eq] at h1
    have h2 := (mem_runsUpTo.mp (mem_of_find?_eq_some hf)).1
    rw [h.canonical.eq_of_mem h2 hr h1 hs]

theorem removeFromFreeRuns_used (hs : seg ∉ fm.freeSet) :
    fm.removeFromFreeRuns seg = (fm, .error (.alreadyUsed seg)) := by
  have : (fm.runsUpTo seg).reverse.find? (fun r => r.start ≤ seg ∧ seg < r.stop) = none := by
    rw [find?_eq_none]
    intro r hr hd
    simp only [decide_eq_true_eq] at hd
    exact hs ⟨r, (mem_runsUpTo.mp hr).1, hd⟩
  unfold removeFromFreeRuns
  rw [this]

/-- A free segment leaves the free set, and nothing else does. -/
theorem removeFromFreeRuns_free (h : Inv fm) (hs : seg ∈ fm.freeSet) :
    ∃ fm', fm.removeFromFreeRuns seg = (fm', .ok ()) ∧ Inv fm' ∧ fm'.freeSet = fm.freeSet \ {seg} ∧
      fm'.segmentCount = fm.segmentCount := by
  obtain ⟨r, hr, hsr⟩ := hs
  have hne := h.canonical.nonempty r hr
  obtain ⟨hs1, hs2⟩ := hsr
  have hfind := find_run h hr ⟨hs1, hs2⟩
  set rest := fm.freeRuns.erase r with hrest
  set freeRuns :=
    (if seg = r.start then if r.start + 1 < r.stop then rest.insert ⟨r.start + 1, r.stop⟩ else rest
    else if seg = r.stop - 1 then if r.start < r.stop - 1 then rest.insert ⟨r.start, r.stop - 1⟩ else rest
    else (rest.insert ⟨r.start, seg⟩).insert ⟨seg + 1, r.stop⟩) with hfree
  have heq : fm.removeFromFreeRuns seg =
      ({ fm with freeRuns := freeRuns, cachedFree := fm.cachedFree - 1 }, .ok ()) := by
    unfold removeFromFreeRuns
    rw [hfind]
  have hR' : ∀ x, x ∈ freeRuns ↔ x ∈ punch r seg ∨ x ∈ fm.freeRuns ∧ x ≠ r := by
    intro x
    rw [hfree, mem_punch]
    split_ifs with c1 c2 c3 c4
    · subst c1
      simp only [mem_insert, hrest, mem_erase, lt_irrefl, false_and, false_or, c2, true_and]
    · subst c1
      simp only [hrest, mem_erase, lt_irrefl, false_and, c2, or_self, false_or]
    · have c5 : r.start < seg := by omega
      have c6 : ¬ seg + 1 < r.stop := by omega
      simp only [mem_insert, hrest, mem_erase, ← c3, c5, c6, true_and, false_and, or_false]
    · omega
    · have c5 : r.start < seg := by omega
      have c6 : seg + 1 < r.stop := by omega
      simp only [mem_insert, hrest, mem_erase, c5, c6, true_and]
      tauto
  have htotal := total_punch h.canonical hr ⟨hs1, hs2⟩ hR'
  refine ⟨_, heq, ⟨canonical_punch h.canonical hr ⟨hs1, hs2⟩ hR', fun x hx => ?_, ?_, h.word⟩, ?_, rfl⟩
  · have hb := h.bound r hr
    rcases (hR' x).mp hx with hx | ⟨hx, -⟩
    · rcases mem_punch.mp hx with ⟨-, rfl⟩ | ⟨-, rfl⟩
      · exact le_trans hs2.le hb
      · exact hb
    · exact h.bound x hx
  · show fm.cachedFree - 1 = total freeRuns
    rw [h.cached]; omega
  · ext s
    exact covers_punch h.canonical hr ⟨hs1, hs2⟩ hR' s

theorem Inv.markDirty (h : Inv fm) (seg : ℕ) : Inv (fm.markDirty seg) := h.congr rfl rfl rfl
theorem Inv.rebuildHints (h : Inv fm) : Inv fm.rebuildHints := h.congr rfl rfl rfl
theorem Inv.bumpGeneration (h : Inv fm) : Inv fm.bumpGeneration := h.congr rfl rfl rfl

/-- Runs with a gap between them are left as they are. -/
theorem coalesceLoop_eq : ∀ (l : List Run) (r : Run), (r :: l).Pairwise (fun a b => a.stop < b.start) →
    coalesceLoop r l = r :: l
  | [], _, _ => rfl
  | x :: l, r, hp => by
    obtain ⟨h1, h2⟩ := pairwise_cons.mp hp
    have h3 : r.stop ≠ x.start := (h1 x mem_cons_self).ne
    unfold coalesceLoop
    rw [if_neg h3, coalesceLoop_eq l x h2]

theorem coalesce_freeRuns (h : Inv fm) : fm.coalesce.freeRuns = fm.freeRuns := by
  unfold coalesce
  split
  · rename_i r r' rs hruns
    have hp := h.canonical.pairwise
    simp only [runs] at hruns
    rw [hruns] at hp
    rw [coalesceLoop_eq _ _ hp, ← hruns]
    exact extend_toList fm.freeRuns
  · rfl

theorem coalesce_fields (fm : SegmentFreeMap) : fm.coalesce.segmentCount = fm.segmentCount ∧
    fm.coalesce.cachedFree = fm.cachedFree := by
  unfold coalesce
  split <;> exact ⟨rfl, rfl⟩

theorem Inv.coalesce (h : Inv fm) : Inv fm.coalesce :=
  h.congr (coalesce_freeRuns h) (coalesce_fields fm).1 (coalesce_fields fm).2

theorem foldl_markDirty_fields : ∀ (l : List ℕ) (fm : SegmentFreeMap),
    (l.foldl markDirty fm).freeRuns = fm.freeRuns ∧
    (l.foldl markDirty fm).segmentCount = fm.segmentCount ∧
    (l.foldl markDirty fm).cachedFree = fm.cachedFree
  | [], _ => ⟨rfl, rfl, rfl⟩
  | s :: l, fm => foldl_markDirty_fields l (fm.markDirty s)

/-! ### The constructor -/

theorem empty_inv (n : ℕ) (hn : n ≤ u64Max) : Inv (empty n) :=
  ⟨canonical_empty, fun _ h => absurd h (by simp [empty]), rfl, hn⟩

theorem insertRuns_spec : ∀ (l : List Run) (fm : SegmentFreeMap), Inv fm →
    (∀ r ∈ l, r.start < r.stop ∧ r.stop ≤ fm.segmentCount) →
    ∃ fm', fm.insertRuns l = .ok fm' ∧ Inv fm' ∧ fm'.segmentCount = fm.segmentCount ∧
      fm'.freeSet = fm.freeSet ∪ {s | ∃ r ∈ l, s ∈ r} ∧ fm'.generation = fm.generation ∧
      fm'.segmentGroupSegments = fm.segmentGroupSegments ∧ fm'.dirtySegmentGroups = fm.dirtySegmentGroups
  | [], fm, h, _ => ⟨fm, rfl, h, rfl, by simp, rfl, rfl, rfl⟩
  | r :: l, fm, h, hl => by
    obtain ⟨h1, h2⟩ := hl r mem_cons_self
    obtain ⟨hi, hs⟩ := insertRunMerge_spec h h1 h2
    obtain ⟨fm', e1, e2, e3, e4, e5, e6, e7⟩ := insertRuns_spec l _ hi fun x hx => hl x (mem_cons_of_mem _ hx)
    refine ⟨fm', ?_, e2, e3, ?_, e5, e6, e7⟩
    · unfold insertRuns validateRun
      rw [if_neg (by omega)]
      exact e1
    · rw [e4, hs]
      ext s
      simp only [mem_union, mem_Ico, mem_ofPred_eq, mem_cons, exists_eq_or_imp, Run.mem_def]
      tauto

/-- A free map can be built from any list of valid runs, overlapping or not,
and its free segments are theirs. -/
theorem new_spec {n : ℕ} (hn : n ≤ u64Max) (l : List Run) (hl : ∀ r ∈ l, r.start < r.stop ∧ r.stop ≤ n) :
    ∃ fm, new n l = .ok fm ∧ Inv fm ∧ fm.segmentCount = n ∧ fm.freeSet = {s | ∃ r ∈ l, s ∈ r} ∧
      fm.generation = 1 ∧ fm.segmentGroupSegments = defaultSegmentGroupSegments ∧
      fm.dirtySegmentGroups = OrdSet.empty := by
  obtain ⟨fm, e1, e2, e3, e4, e5, e6, e7⟩ := insertRuns_spec l (empty n) (empty_inv n hn) hl
  have hnew : new n l = .ok { fm.rebuildHints with cachedFree := total fm.freeRuns } := by
    unfold new; rw [e1]
  refine ⟨_, hnew, ⟨e2.canonical, e2.bound, rfl, e2.word⟩, e3, ?_, e5, e6, e7⟩
  show fm.freeSet = _
  rw [e4]
  ext s
  simp [freeSet, Covers, empty]

/-! ### One operation -/

/-- The calls that change the segment map. -/
inductive Op where
  | allocAfter (cursor : ℕ)
  | allocate (minSize cursor : ℕ)
  | addFree (seg : ℕ)
  | removeFree (seg : ℕ)
  | freeRange (start stop : ℕ)
  | coalesce

/-- One call: the map after it, and its result, with the segment an allocation
returns. -/
def step (fm : SegmentFreeMap) : Op → SegmentFreeMap × Except FreeMapError (Option ℕ)
  | .allocAfter cursor => ((fm.allocAfter cursor).1, (fm.allocAfter cursor).2.map some)
  | .allocate minSize cursor => ((fm.allocate minSize cursor).1, (fm.allocate minSize cursor).2.map some)
  | .addFree seg => ((fm.addFree seg).1, (fm.addFree seg).2.map fun _ => none)
  | .removeFree seg => ((fm.removeFree seg).1, (fm.removeFree seg).2.map fun _ => none)
  | .freeRange start stop => ((fm.freeRange start stop).1, (fm.freeRange start stop).2.map fun _ => none)
  | .coalesce => (fm.coalesce, .ok none)

/-- The map after a sequence of calls. -/
def run (fm : SegmentFreeMap) (ops : List Op) : SegmentFreeMap := ops.foldl (fun fm op => (fm.step op).1) fm

/-- What one call does to the free set `F` of a pool of `n` segments. -/
def Effect (n : ℕ) (F : Set ℕ) : Op → Except FreeMapError (Option ℕ) → Set ℕ → Prop
  | .allocAfter cursor, res, F' =>
    (∃ seg, res = .ok (some seg) ∧ F' = F \ {seg} ∧
      (IsLeast {s | s ∈ F ∧ cursor ≤ s} seg ∨ (∀ s ∈ F, s < cursor) ∧ IsLeast F seg)) ∨
    F = ∅ ∧ res = .error .noFreeSegments ∧ F' = F
  | .allocate _ _, res, F' =>
    (∃ seg ∈ F, res = .ok (some seg) ∧ F' = F \ {seg}) ∨ ∃ e, res = .error e ∧ F' = F
  | .addFree seg, res, F' =>
    seg < n ∧ res = .ok none ∧ F' = insert seg F ∨ n ≤ seg ∧ res = .error (.segmentOutOfRange seg) ∧ F' = F
  | .removeFree seg, res, F' =>
    seg ∈ F ∧ res = .ok none ∧ F' = F \ {seg} ∨
    seg ∉ F ∧ res = .error (if n ≤ seg then .segmentOutOfRange seg else .alreadyUsed seg) ∧ F' = F
  | .freeRange start stop, res, F' =>
    (start < stop ∧ stop ≤ n) ∧ res = .ok none ∧ F' = F ∪ Set.Ico start stop ∨
    ¬ (start < stop ∧ stop ≤ n) ∧ res = .error (.invalidRun start stop) ∧ F' = F
  | .coalesce, res, F' => res = .ok none ∧ F' = F

variable (h : Inv fm)
include h

theorem doAllocate_spec (hs : seg ∈ fm.freeSet) :
    ∃ fm', fm.doAllocate seg = (fm', .ok seg) ∧ Inv fm' ∧ fm'.freeSet = fm.freeSet \ {seg} ∧
      fm'.segmentCount = fm.segmentCount := by
  obtain ⟨fm', e1, e2, e3, e4⟩ := removeFromFreeRuns_free h hs
  refine ⟨_, by unfold doAllocate; rw [e1], (e2.markDirty seg).bumpGeneration, e3, e4⟩

theorem allocAfter_spec (cursor : ℕ) : (∃ fm' seg, fm.allocAfter cursor = (fm', .ok seg) ∧ Inv fm' ∧ seg ∈ fm.freeSet ∧
      fm'.freeSet = fm.freeSet \ {seg} ∧ fm'.segmentCount = fm.segmentCount ∧
      (IsLeast {s | s ∈ fm.freeSet ∧ cursor ≤ s} seg ∨ (∀ s ∈ fm.freeSet, s < cursor) ∧ IsLeast fm.freeSet seg)) ∨
    fm.freeSet = ∅ ∧ fm.allocAfter cursor = (fm, .error .noFreeSegments) := by
  unfold allocAfter
  by_cases h0 : fm.segmentCount = 0
  · refine .inr ⟨eq_empty_of_forall_notMem fun s hs => ?_, if_pos h0⟩
    have := h.lt_segmentCount hs
    omega
  rw [if_neg h0]
  have hge := findFirstFreeGe_spec h cursor
  cases hf : fm.findFirstFreeGe cursor with
  | some seg =>
    rw [hf] at hge
    obtain ⟨fm', e1, e2, e3, e4⟩ := doAllocate_spec h hge.1.1
    exact .inl ⟨fm', seg, e1, e2, hge.1.1, e3, e4, .inl hge⟩
  | none =>
    rw [hf] at hge
    have hlow := findFirstFreeGe_spec h 0
    by_cases hc : 0 < cursor
    · simp only [hc, ↓reduceIte]
      cases hf0 : fm.findFirstFreeGe 0 with
      | some seg =>
        -- nothing is free from the cursor on: the least free segment is below it
        rw [hf0] at hlow
        have hleast : IsLeast fm.freeSet seg :=
          ⟨hlow.1.1, fun s hs => hlow.2 ⟨hs, Nat.zero_le s⟩⟩
        have hlt := hge seg hleast.1
        obtain ⟨fm', e1, e2, e3, e4⟩ := doAllocate_spec h hleast.1
        simp only [hlt, ↓reduceIte]
        exact .inl ⟨fm', seg, e1, e2, hleast.1, e3, e4, .inr ⟨hge, hleast⟩⟩
      | none =>
        rw [hf0] at hlow
        exact .inr ⟨eq_empty_of_forall_notMem fun s hs => Nat.not_lt_zero s (hlow s hs), rfl⟩
    · refine .inr ⟨eq_empty_of_forall_notMem fun s hs => ?_, if_neg hc⟩
      have := hge s hs
      omega

theorem allocate_spec (minSize cursor : ℕ) :
    Inv (fm.allocate minSize cursor).1 ∧ (fm.allocate minSize cursor).1.segmentCount = fm.segmentCount ∧
    Effect fm.segmentCount fm.freeSet (.allocate minSize cursor)
      ((fm.allocate minSize cursor).2.map some) (fm.allocate minSize cursor).1.freeSet := by
  unfold allocate
  split_ifs with h0
  · exact ⟨h, rfl, .inr ⟨_, rfl, rfl⟩⟩
  · cases hf : fm.sizeClassHints.findForSizeGe minSize cursor with
    | some run =>
      simp only
      set fm1 : SegmentFreeMap := { fm with sizeClassHitCount := satAdd fm.sizeClassHitCount 1 } with hfm1
      have hi1 : Inv fm1 := h.congr rfl rfl rfl
      by_cases hs : max run.start cursor ∈ fm1.freeSet
      · obtain ⟨fm', e1, e2, e3, e4⟩ := removeFromFreeRuns_free hi1 hs
        rw [e1]
        have hi2 := (e2.rebuildHints.markDirty (max run.start cursor)).bumpGeneration
        refine ⟨hi2.coalesce, (coalesce_fields _).1.trans e4, .inl ⟨_, hs, rfl, ?_⟩⟩
        exact (freeSet_congr (coalesce_freeRuns hi2)).trans e3
      · rw [removeFromFreeRuns_used hs]
        exact ⟨hi1, rfl, .inr ⟨_, rfl, rfl⟩⟩
    | none =>
      simp only
      set fm1 : SegmentFreeMap := { fm with sizeClassMissCount := satAdd fm.sizeClassMissCount 1 } with hfm1
      have hi1 : Inv fm1 := h.congr rfl rfl rfl
      rcases allocAfter_spec hi1 cursor with ⟨fm', seg, e1, e2, e3, e4, e5, -⟩ | ⟨-, e1⟩
      · rw [e1]
        refine ⟨e2.rebuildHints.coalesce, (coalesce_fields _).1.trans e5, .inl ⟨seg, e3, rfl, ?_⟩⟩
        exact (freeSet_congr (coalesce_freeRuns e2.rebuildHints)).trans e4
      · rw [e1]
        exact ⟨hi1, rfl, .inr ⟨_, rfl, rfl⟩⟩

theorem addFree_spec (seg : ℕ) : Inv (fm.addFree seg).1 ∧ (fm.addFree seg).1.segmentCount = fm.segmentCount ∧
    (fm.addFree seg).1.freeSet = (if seg < fm.segmentCount then insert seg fm.freeSet else fm.freeSet) ∧
    (fm.addFree seg).2 = if seg < fm.segmentCount then .ok () else .error (.segmentOutOfRange seg) := by
  unfold addFree
  by_cases h1 : seg < fm.segmentCount
  · simp only [not_le.mpr h1, h1, ↓reduceIte]
    by_cases h2 : fm.isFree seg = true
    · simp only [h2, ↓reduceIte]
      have := (isFree_iff h seg).mp h2
      exact ⟨h, trivial, (insert_eq_of_mem this).symm, trivial⟩
    · simp only [h2, Bool.false_eq_true, ↓reduceIte]
      -- the segment lies below a 64-bit count, so its successor does not saturate
      have hsat : satAdd seg 1 = seg + 1 := by
        have := h.word
        unfold satAdd; omega
      rw [hsat]
      obtain ⟨e1, e2⟩ := insertRunMerge_spec h (Nat.lt_succ_self seg) (by omega : seg + 1 ≤ fm.segmentCount)
      refine ⟨e1.markDirty seg, rfl, ?_, trivial⟩
      show (fm.insertRunMerge seg (seg + 1)).freeSet = _
      rw [e2]
      ext s
      rw [mem_union, mem_Ico, mem_insert_iff, or_comm]
      exact or_congr_left (by omega)
  · simp only [not_lt.mp h1, h1, ↓reduceIte]
    exact ⟨h, trivial, trivial, trivial⟩

theorem removeFree_spec (seg : ℕ) : Inv (fm.removeFree seg).1 ∧ (fm.removeFree seg).1.segmentCount = fm.segmentCount ∧
    (fm.removeFree seg).1.freeSet = fm.freeSet \ {seg} ∧ (seg ∈ fm.freeSet → (fm.removeFree seg).2 = .ok ()) ∧
    (seg ∉ fm.freeSet → (fm.removeFree seg).2 =
      .error (if fm.segmentCount ≤ seg then .segmentOutOfRange seg else .alreadyUsed seg)) := by
  unfold removeFree
  by_cases hs : seg ∈ fm.freeSet
  · have hlt := h.lt_segmentCount hs
    obtain ⟨fm', e1, e2, e3, e4⟩ := removeFromFreeRuns_free h hs
    rw [if_neg (by omega), (isFree_iff h seg).mpr hs, e1]
    exact ⟨e2.markDirty seg, e4, e3, fun _ => rfl, fun hn => absurd hs hn⟩
  · have hfalse : fm.isFree seg = false := by
      cases hc : fm.isFree seg
      · rfl
      · exact absurd ((isFree_iff h seg).mp hc) hs
    have hsame : fm.freeSet = fm.freeSet \ {seg} := (sdiff_singleton_eq_self hs).symm
    rw [hfalse]
    split_ifs with h1 h2
    · exact ⟨h, rfl, hsame, fun hn => absurd hn hs, fun _ => rfl⟩
    · exact ⟨h, rfl, hsame, fun hn => absurd hn hs, fun _ => rfl⟩
    · simp at h2

theorem freeRange_spec (start stop : ℕ) :
    Inv (fm.freeRange start stop).1 ∧ (fm.freeRange start stop).1.segmentCount = fm.segmentCount ∧
    Effect fm.segmentCount fm.freeSet (.freeRange start stop)
      ((fm.freeRange start stop).2.map fun _ => none) (fm.freeRange start stop).1.freeSet := by
  unfold freeRange validateRun
  split_ifs with h1
  · exact ⟨h, rfl, .inr ⟨by omega, rfl, rfl⟩⟩
  · obtain ⟨e1, e2⟩ := @insertRunMerge_spec fm h start stop (by omega) (by omega)
    obtain ⟨f1, f2, f3⟩ := foldl_markDirty_fields (range' start (stop - start))
      (fm.insertRunMerge start stop).rebuildHints
    exact ⟨e1.congr f1 f2 f3, f2, .inl ⟨by omega, rfl, (freeSet_congr f1).trans e2⟩⟩

/-- One call keeps the invariant and the size of the pool, and changes the free
set by exactly the segments it names. -/
theorem step_spec (op : Op) : Inv (fm.step op).1 ∧ (fm.step op).1.segmentCount = fm.segmentCount ∧
      Effect fm.segmentCount fm.freeSet op (fm.step op).2 (fm.step op).1.freeSet := by
  cases op with
  | allocAfter cursor =>
    rcases allocAfter_spec h cursor with ⟨fm', seg, e1, e2, -, e4, e5, e6⟩ | ⟨e1, e2⟩
    · simp only [step, e1]
      exact ⟨e2, e5, .inl ⟨seg, rfl, e4, e6⟩⟩
    · simp only [step, e2]
      exact ⟨h, trivial, .inr ⟨e1, rfl, rfl⟩⟩
  | allocate minSize cursor => exact allocate_spec h minSize cursor
  | addFree seg =>
    obtain ⟨e1, e2, e3, e4⟩ := addFree_spec h seg
    refine ⟨e1, e2, ?_⟩
    simp only [step, Effect, e3, e4]
    by_cases hlt : seg < fm.segmentCount
    · exact .inl ⟨hlt, by rw [if_pos hlt]; rfl, if_pos hlt⟩
    · exact .inr ⟨not_lt.mp hlt, by rw [if_neg hlt]; rfl, if_neg hlt⟩
  | removeFree seg =>
    obtain ⟨e1, e2, e3, e4, e5⟩ := removeFree_spec h seg
    refine ⟨e1, e2, ?_⟩
    by_cases hs : seg ∈ fm.freeSet
    · exact .inl ⟨hs, by simp only [step, e4 hs]; rfl, e3⟩
    · exact .inr ⟨hs, by simp only [step, e5 hs]; rfl, e3.trans (sdiff_singleton_eq_self hs)⟩
  | freeRange start stop => exact freeRange_spec h start stop
  | coalesce =>
    exact ⟨h.coalesce, (coalesce_fields fm).1, rfl, freeSet_congr (coalesce_freeRuns h)⟩

omit h

/-! ### Every sequence of operations -/

theorem run_inv : ∀ (ops : List Op) {fm : SegmentFreeMap}, Inv fm →
    Inv (fm.run ops) ∧ (fm.run ops).segmentCount = fm.segmentCount
  | [], _, h => ⟨h, rfl⟩
  | op :: ops, fm, h => by
    obtain ⟨h1, h2, -⟩ := step_spec h op
    obtain ⟨h3, h4⟩ := run_inv ops h1
    exact ⟨h3, h4.trans h2⟩

/-- What a caller can rely on, of a pool of `n` segments. -/
structure Sound (n : ℕ) (fm : SegmentFreeMap) : Prop where
  segmentCount : fm.segmentCount = n
  /-- Sorted, disjoint and not adjacent. -/
  sorted : fm.runs.Pairwise fun a b => a.stop < b.start
  nonempty : ∀ r ∈ fm.runs, r.start < r.stop
  bound : ∀ r ∈ fm.runs, r.stop ≤ n
  cached : fm.cachedFree = (fm.runs.map fun r => r.stop - r.start).sum
  isFree : ∀ s, fm.isFree s = true ↔ ∃ r ∈ fm.runs, r.start ≤ s ∧ s < r.stop
  /-- Every call changes the free set by the segments it names. -/
  effect : ∀ op, Effect n {s | fm.isFree s = true} op (fm.step op).2 {s | (fm.step op).1.isFree s = true}

theorem setOf_isFree (h : Inv fm) : {s | fm.isFree s = true} = fm.freeSet := by
  ext s
  exact isFree_iff h s

theorem Inv.sound (h : Inv fm) : Sound fm.segmentCount fm where
  segmentCount := rfl
  sorted := h.canonical.pairwise
  nonempty := h.canonical.nonempty
  bound := h.bound
  cached := h.cached
  isFree s := isFree_iff h s
  effect op := by
    obtain ⟨h1, -, h3⟩ := step_spec h op
    rw [setOf_isFree h, setOf_isFree h1]
    exact h3

/-- **The free map is sound along every sequence of operations**, from every
list of valid initial runs, and starts with the segments of those runs free. -/
theorem segment_free_map_sound (n : ℕ) (hn : n ≤ u64Max) (initialFree : List Run)
    (hvalid : ∀ r ∈ initialFree, r.start < r.stop ∧ r.stop ≤ n) : ∃ fm, new n initialFree = .ok fm ∧
      (∀ s, fm.isFree s = true ↔ ∃ r ∈ initialFree, r.start ≤ s ∧ s < r.stop) ∧ ∀ ops, Sound n (fm.run ops) := by
  obtain ⟨fm, e1, e2, e3, e4, -⟩ := new_spec hn initialFree hvalid
  refine ⟨fm, e1, fun s => ?_, fun ops => ?_⟩
  · rw [isFree_iff e2, e4]; rfl
  · obtain ⟨h1, h2⟩ := run_inv ops e2
    have := h1.sound
    rwa [h2, e3] at this

/-- Two overlapping runs and one apart, on a pool of ten. -/
theorem segment_free_map_sound_ten : ∃ fm, new 10 [⟨0, 4⟩, ⟨3, 6⟩, ⟨8, 10⟩] = .ok fm ∧ (∀ s, fm.isFree s = true ↔
      ∃ r ∈ ([⟨0, 4⟩, ⟨3, 6⟩, ⟨8, 10⟩] : List Run), r.start ≤ s ∧ s < r.stop) ∧ ∀ ops, Sound 10 (fm.run ops) :=
  segment_free_map_sound 10 (by decide) [⟨0, 4⟩, ⟨3, 6⟩, ⟨8, 10⟩] (by decide)

end SegmentFreeMap

end Tidefs.SpaceMap
