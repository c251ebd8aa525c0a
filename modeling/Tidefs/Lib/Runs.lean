/-
# Runs of natural numbers

A set of naturals as an ordered set of half-open runs `[start, stop)`. A set
of runs is canonical if no run is empty and no two runs overlap or touch
(`Canonical`); then it is determined by the numbers it covers
(`Canonical.ext`). The two ways to change such a set are here in the terms in
which an ordered set is updated: the runs that touch `[a, b)` give way to
their hull (`canonical_hull`, `covers_hull`), and one run gives way to what is
left of it without one number (`canonical_punch`, `covers_punch`).
-/
import Tidefs.Lib.Ordered

namespace Tidefs.Ordered

open List Nat

/-- The numbers from `start` up to, not including, `stop`. -/
structure Run where
  start : ℕ
  stop : ℕ
deriving DecidableEq, Repr

namespace Run

/-- Runs are ordered by start, then by stop. -/
instance : LinearOrder Run :=
  LinearOrder.lift' (fun r => toLex (r.start, r.stop)) fun a b h => by
    cases a; cases b
    simpa using h

theorem lt_iff {a b : Run} : a < b ↔ a.start < b.start ∨ a.start = b.start ∧ a.stop < b.stop :=
  Prod.Lex.toLex_lt_toLex

instance : Membership ℕ Run := ⟨fun r s => r.start ≤ s ∧ s < r.stop⟩

instance (s : ℕ) (r : Run) : Decidable (s ∈ r) := inferInstanceAs (Decidable (_ ∧ _))

theorem mem_def {s : ℕ} {r : Run} : s ∈ r ↔ r.start ≤ s ∧ s < r.stop := Iff.rfl

def len (r : Run) : ℕ := r.stop - r.start

end Run

/-- The numbers some run of the set holds. -/
def Covers (R : OrdSet Run) (s : ℕ) : Prop := ∃ r ∈ R, s ∈ r

/-- How many numbers the runs hold, counted run by run. -/
def total (R : OrdSet Run) : ℕ := (R.toList.map Run.len).sum

/-- No run is empty, and between two runs there is a gap. -/
structure Canonical (R : OrdSet Run) : Prop where
  nonempty : ∀ r ∈ R, r.start < r.stop
  apart : ∀ r ∈ R, ∀ r' ∈ R, r ≠ r' → r.stop < r'.start ∨ r'.stop < r.start

theorem canonical_empty : Canonical OrdSet.empty :=
  ⟨fun _ h => absurd h (by simp), fun _ h => absurd h (by simp)⟩

variable {R : OrdSet Run} {r : Run} {a : ℕ} (h : Canonical R)
include h

/-- In iteration order, a gap follows every run. -/
theorem Canonical.pairwise : R.toList.Pairwise fun a b => a.stop < b.start := by
  refine R.sorted.imp_of_mem fun {a b} ha hb hlt => ?_
  have h1 := h.nonempty a ha
  have h2 := h.nonempty b hb
  rcases h.apart a ha b hb hlt.ne with h3 | h3
  · exact h3
  · rcases Run.lt_iff.mp hlt with h4 | ⟨h4, -⟩ <;> omega

/-- Two runs of a canonical set that share a number are one. -/
theorem Canonical.eq_of_mem {r' : Run} (hr : r ∈ R) (hr' : r' ∈ R) {s : ℕ} (hs : s ∈ r) (hs' : s ∈ r') : r = r' := by
  by_contra hne
  obtain ⟨h1, h2⟩ := hs
  obtain ⟨h3, h4⟩ := hs'
  rcases h.apart r hr r' hr' hne with h5 | h5 <;> omega

/-- A canonical set covers exactly up to the end of each run. -/
theorem Canonical.not_covers_stop (hr : r ∈ R) : ¬ Covers R r.stop := by
  rintro ⟨r', hr', h1, h2⟩
  by_cases he : r' = r
  · subst he; omega
  · have := h.nonempty r hr
    rcases h.apart r' hr' r hr he with h3 | h3 <;> omega

theorem Canonical.not_covers_pred (hr : r ∈ R) (h0 : 0 < r.start) : ¬ Covers R (r.start - 1) := by
  rintro ⟨r', hr', h1, h2⟩
  by_cases he : r' = r
  · subst he; omega
  · have := h.nonempty r hr
    rcases h.apart r' hr' r hr he with h3 | h3 <;> omega

/-- The runs of a canonical set are the maximal intervals it covers. -/
theorem Canonical.mem_iff (r : Run) : r ∈ R ↔
    r.start < r.stop ∧ (∀ s, r.start ≤ s → s < r.stop → Covers R s) ∧ ¬ Covers R r.stop ∧
      (0 < r.start → ¬ Covers R (r.start - 1)) := by
  constructor
  · intro hr
    exact ⟨h.nonempty r hr, fun s h1 h2 => ⟨r, hr, h1, h2⟩, h.not_covers_stop hr, fun h0 => h.not_covers_pred hr h0⟩
  · rintro ⟨h1, h2, h3, h4⟩
    obtain ⟨r', hr', hs1, hs2⟩ := h2 r.start le_rfl h1
    -- the run that holds the first number starts there and ends with `r`
    have hstart : r'.start = r.start := by
      by_contra hne
      exact h4 (by omega) ⟨r', hr', by omega, by omega⟩
    have hstop : r'.stop = r.stop := by
      rcases lt_trichotomy r'.stop r.stop with hlt | heq | hgt
      · exact absurd (h2 r'.stop (by omega) hlt) (h.not_covers_stop hr')
      · exact heq
      · exact absurd ⟨r', hr', by omega, hgt⟩ h3
    have : r' = r := by cases r; cases r'; simp_all
    exact this ▸ hr'

/-- A canonical set of runs is determined by what it covers. -/
theorem Canonical.ext {R' : OrdSet Run} (h' : Canonical R') (hc : ∀ s, Covers R s ↔ Covers R' s) : R = R' := by
  refine OrdSet.ext_mem fun r => ?_
  rw [h.mem_iff, h'.mem_iff]
  simp only [hc]

omit h

/-! ### A range joins the set -/

def Touches (a b : ℕ) (r : Run) : Prop := r.start ≤ b ∧ a ≤ r.stop

instance (a b : ℕ) : DecidablePred (Touches a b) := fun _ => inferInstanceAs (Decidable (_ ∧ _))

def hull (a b : ℕ) (l : List Run) : Run := l.foldl (fun h r => ⟨min h.start r.start, max h.stop r.stop⟩) ⟨a, b⟩

/-- Both ends: outside of all, and each is the end of one. -/
theorem hull_spec : ∀ (l : List Run) (a b : ℕ), ((hull a b l).start ≤ a ∧ b ≤ (hull a b l).stop) ∧
    (∀ r ∈ l, (hull a b l).start ≤ r.start ∧ r.stop ≤ (hull a b l).stop) ∧
    ((hull a b l).start = a ∨ ∃ r ∈ l, (hull a b l).start = r.start) ∧
    ((hull a b l).stop = b ∨ ∃ r ∈ l, (hull a b l).stop = r.stop)
  | [], a, b => by simp [hull]
  | r :: l, a, b => by
    have e : hull a b (r :: l) = hull (min a r.start) (max b r.stop) l := rfl
    rw [e]
    obtain ⟨⟨h0, h1⟩, h2, h3, h4⟩ := hull_spec l (min a r.start) (max b r.stop)
    refine ⟨⟨h0.trans (min_le_left _ _), (le_max_left _ _).trans h1⟩, forall_mem_cons.mpr
      ⟨⟨h0.trans (min_le_right _ _), (le_max_right _ _).trans h1⟩, h2⟩, ?_, ?_⟩
    · rcases h3 with h3 | ⟨x, hx, h3⟩
      · rcases min_choice a r.start with h5 | h5
        · exact .inl (h3.trans h5)
        · exact .inr ⟨r, mem_cons_self, h3.trans h5⟩
      · exact .inr ⟨x, mem_cons_of_mem _ hx, h3⟩
    · rcases h4 with h4 | ⟨x, hx, h4⟩
      · rcases max_choice b r.stop with h5 | h5
        · exact .inl (h4.trans h5)
        · exact .inr ⟨r, mem_cons_self, h4.trans h5⟩
      · exact .inr ⟨x, mem_cons_of_mem _ hx, h4⟩

section Hull

variable {R R' : OrdSet Run} {a b : ℕ} {l : List Run}

/-- The runs that touch `[a, b)` are replaced by their hull: the set stays canonical. -/
theorem canonical_hull (h : Canonical R) (hab : a < b) (hl : ∀ r, r ∈ l ↔ r ∈ R ∧ Touches a b r)
    (hR' : ∀ r, r ∈ R' ↔ r = hull a b l ∨ r ∈ R ∧ ¬ Touches a b r) : Canonical R' := by
  obtain ⟨⟨s1, t1⟩, hall, s3, t3⟩ := hull_spec l a b
  -- an old run that does not touch the range stays clear of the hull
  have key : ∀ r ∈ R, ¬ Touches a b r → r.stop < (hull a b l).start ∨ (hull a b l).stop < r.start := by
    intro r hr hn
    have hne := h.nonempty r hr
    simp only [Touches, not_and_or, not_le] at hn
    rcases hn with hn | hn
    · right
      rcases t3 with t3 | ⟨x, hx, t3⟩
      · omega
      · obtain ⟨hxR, hx1, hx2⟩ := (hl x).mp hx
        have hxn := h.nonempty x hxR
        rcases h.apart x hxR r hr (by rintro rfl; omega) with h5 | h5 <;> omega
    · left
      rcases s3 with s3 | ⟨x, hx, s3⟩
      · omega
      · obtain ⟨hxR, hx1, hx2⟩ := (hl x).mp hx
        have hxn := h.nonempty x hxR
        rcases h.apart x hxR r hr (by rintro rfl; omega) with h5 | h5 <;> omega
  refine ⟨fun r hr => ?_, fun r hr r' hr' hne => ?_⟩
  · rcases (hR' r).mp hr with rfl | ⟨hr, -⟩
    · omega
    · exact h.nonempty r hr
  · rcases (hR' r).mp hr with rfl | ⟨hr, hn⟩ <;> rcases (hR' r').mp hr' with rfl | ⟨hr', hn'⟩
    · exact absurd rfl hne
    · exact (key r' hr' hn').symm
    · exact key r hr hn
    · exact h.apart r hr r' hr' hne

/-- With the hull in place of the runs that touch it, the set covers `[a, b)` as well. -/
theorem covers_hull (hl : ∀ r, r ∈ l ↔ r ∈ R ∧ Touches a b r)
    (hR' : ∀ r, r ∈ R' ↔ r = hull a b l ∨ r ∈ R ∧ ¬ Touches a b r) (s : ℕ) :
    Covers R' s ↔ Covers R s ∨ a ≤ s ∧ s < b := by
  obtain ⟨⟨s1, t1⟩, hall, s3, t3⟩ := hull_spec l a b
  constructor
  · rintro ⟨r, hr, h1, h2⟩
    rcases (hR' r).mp hr with rfl | ⟨hr, -⟩
    · rcases lt_or_ge s a with hlt | hge
      · -- left of the range only a run that reaches it can have moved the hull
        rcases s3 with s3 | ⟨x, hx, s3⟩
        · omega
        · obtain ⟨hxR, hx1, hx2⟩ := (hl x).mp hx
          exact .inl ⟨x, hxR, by omega, by omega⟩
      · rcases lt_or_ge s b with hlt | hge'
        · exact .inr ⟨hge, hlt⟩
        · rcases t3 with t3 | ⟨x, hx, t3⟩
          · omega
          · obtain ⟨hxR, hx1, hx2⟩ := (hl x).mp hx
            exact .inl ⟨x, hxR, by omega, by omega⟩
    · exact .inl ⟨r, hr, h1, h2⟩
  · rintro (⟨r, hr, h1, h2⟩ | ⟨h1, h2⟩)
    · by_cases ht : Touches a b r
      · have hrl := (hl r).mpr ⟨hr, ht⟩
        have hr' := hall r hrl
        exact ⟨hull a b l, (hR' _).mpr (.inl rfl), by omega, by omega⟩
      · exact ⟨r, (hR' r).mpr (.inr ⟨hr, ht⟩), h1, h2⟩
    · exact ⟨hull a b l, (hR' _).mpr (.inl rfl), by omega, by omega⟩

end Hull

/-! ### A number leaves the set -/

/-- What is left of a run without one of its numbers. -/
def punch (r : Run) (s : ℕ) : List Run :=
  (if r.start < s then [⟨r.start, s⟩] else []) ++ if s + 1 < r.stop then [⟨s + 1, r.stop⟩] else []

theorem mem_punch {x : Run} {s : ℕ} : x ∈ punch r s ↔
    (r.start < s ∧ x = ⟨r.start, s⟩) ∨ (s + 1 < r.stop ∧ x = ⟨s + 1, r.stop⟩) := by
  unfold punch
  split_ifs with h1 h2 h2 <;> simp [h1, h2]

section Punch

variable {R R' : OrdSet Run} {r : Run} {s : ℕ} (hc : Canonical R) (hr : r ∈ R) (hs : s ∈ r)
  (hR' : ∀ x, x ∈ R' ↔ x ∈ punch r s ∨ x ∈ R ∧ x ≠ r)
include hc hr hs hR'

/-- A run gives way to what is left of it: the set stays canonical. -/
theorem canonical_punch : Canonical R' := by
  obtain ⟨hs1, hs2⟩ := hs
  have hcase : ∀ x, x ∈ R' → (x.start < x.stop ∧ r.start ≤ x.start ∧ x.stop ≤ r.stop ∧
      (x.stop = s ∧ x.start = r.start ∨ x.start = s + 1 ∧ x.stop = r.stop)) ∨ x ∈ R ∧ x ≠ r := by
    intro x hx
    rcases (hR' x).mp hx with hx | hx
    · rcases mem_punch.mp hx with ⟨h1, rfl⟩ | ⟨h1, rfl⟩
      · exact .inl ⟨h1, le_rfl, hs2.le, .inl ⟨rfl, rfl⟩⟩
      · exact .inl ⟨h1, le_succ_of_le hs1, le_rfl, .inr ⟨rfl, rfl⟩⟩
    · exact .inr hx
  refine ⟨fun x hx => ?_, fun x hx y hy hne => ?_⟩
  · rcases hcase x hx with h1 | ⟨h1, -⟩
    · exact h1.1
    · exact hc.nonempty x h1
  · rcases hcase x hx with ⟨a1, a2, a3, a4⟩ | ⟨a1, a2⟩ <;> rcases hcase y hy with ⟨b1, b2, b3, b4⟩ | ⟨b1, b2⟩
    · rcases a4 with a4 | a4 <;> rcases b4 with b4 | b4
      · exact absurd (by cases x; cases y; simp_all) hne
      · omega
      · omega
      · exact absurd (by cases x; cases y; simp_all) hne
    · rcases hc.apart r hr y b1 (Ne.symm b2) with h3 | h3 <;> omega
    · rcases hc.apart r hr x a1 (Ne.symm a2) with h3 | h3 <;> omega
    · exact hc.apart x a1 y b1 hne

/-- It covers what it did, but for the number taken out. -/
theorem covers_punch (t : ℕ) : Covers R' t ↔ Covers R t ∧ t ≠ s := by
  constructor
  · rintro ⟨x, hx, h1, h2⟩
    rcases (hR' x).mp hx with hx | ⟨hx, hne⟩
    · obtain ⟨hs1, hs2⟩ := hs
      rcases mem_punch.mp hx with ⟨h3, rfl⟩ | ⟨h3, rfl⟩
      · simp only at h1 h2
        exact ⟨⟨r, hr, by omega, by omega⟩, by omega⟩
      · simp only at h1 h2
        exact ⟨⟨r, hr, by omega, by omega⟩, by omega⟩
    · refine ⟨⟨x, hx, h1, h2⟩, ?_⟩
      rintro rfl
      exact hne (hc.eq_of_mem hx hr ⟨h1, h2⟩ hs)
  · rintro ⟨⟨x, hx, h1, h2⟩, hne⟩
    by_cases he : x = r
    · subst he
      rcases lt_or_gt_of_ne hne with hlt | hgt
      · exact ⟨⟨x.start, s⟩, (hR' _).mpr (.inl (mem_punch.mpr (.inl ⟨by omega, rfl⟩))), h1, hlt⟩
      · exact ⟨⟨s + 1, x.stop⟩, (hR' _).mpr (.inl (mem_punch.mpr (.inr ⟨by omega, rfl⟩))), hgt, h2⟩
    · exact ⟨x, (hR' x).mpr (.inr ⟨hx, he⟩), h1, h2⟩

/-- And it holds one number less. -/
theorem total_punch : total R' + 1 = total R := by
  obtain ⟨hs1, hs2⟩ := hs
  have hnodup (S : OrdSet Run) : S.toList.Nodup := S.sorted.imp fun h => h.ne
  have hperm : R'.toList.Perm (punch r s ++ R.toList.erase r) := by
    rw [perm_ext_iff_of_nodup (hnodup R') (nodup_append'.mpr ⟨?_, (hnodup R).erase r, fun x hx hx' => ?_⟩)]
    · intro x
      rw [mem_append, (hnodup R).mem_erase_iff, and_comm]
      exact hR' x
    · unfold punch
      split_ifs <;> simp; omega
    · obtain ⟨hne, hmem⟩ := (hnodup R).mem_erase_iff.mp hx'
      refine hne (hc.eq_of_mem hmem hr (s := x.start) ⟨le_rfl, hc.nonempty x hmem⟩ ?_)
      rcases mem_punch.mp hx with ⟨h1, rfl⟩ | ⟨h1, rfl⟩
      · exact ⟨le_rfl, hs1.trans_lt hs2⟩
      · exact ⟨hs1.trans s.le_succ, h1⟩
  have hlen : ((punch r s).map Run.len).sum + 1 = r.len := by
    unfold punch
    split_ifs <;> simp [Run.len] <;> omega
  rw [total, total, (hperm.map _).sum_eq, ((perm_cons_erase hr).map _).sum_eq, map_append, List.sum_append_nat, map_cons,
    sum_cons]
  omega

end Punch

/-! ### The runs of a predicate -/

/-- One position of a scan: a run opens at the first position that holds, and
closes at the first that does not. -/
def scanStep (p : ℕ → Bool) (st : Option ℕ × List Run) (i : ℕ) : Option ℕ × List Run :=
  match p i, st.1 with
  | true, none => (some i, st.2)
  | false, some a => (none, st.2 ++ [⟨a, i⟩])
  | _, _ => st

/-- Appends the runs of `p` within `[a, b)`; a run still open at the end closes there. -/
def scan (p : ℕ → Bool) (a b : ℕ) (runs : List Run) : List Run :=
  let st := (List.range' a (b - a)).foldl (scanStep p) (none, runs)
  match st.1 with
  | some s => st.2 ++ [⟨s, b⟩]
  | none => st.2

/-- Some run of the list holds the number. -/
def Held (l : List Run) (s : ℕ) : Prop := ∃ r ∈ l, s ∈ r

theorem held_concat (l : List Run) (r : Run) (s : ℕ) : Held (l ++ [r]) s ↔ Held l s ∨ r.start ≤ s ∧ s < r.stop := by
  simp [Held, or_and_right, exists_or, Run.mem_def]

/-- What a scan holds after the positions `[a, k)`: the closed runs and the open
one are the positions where `p` holds. -/
structure ScanInv (p : ℕ → Bool) (a k : ℕ) (runs : List Run) (st : Option ℕ × List Run) : Prop where
  covers : ∀ s, (Held st.2 s ∨ ∃ o, st.1 = some o ∧ o ≤ s ∧ s < k) ↔ Held runs s ∨ (a ≤ s ∧ s < k ∧ p s = true)
  fresh : ∀ o, st.1 = some o → a ≤ o ∧ o < k
  closed : ∀ r ∈ st.2, r ∈ runs ∨ a ≤ r.start ∧ r.start < r.stop ∧ r.stop ≤ k

theorem ScanInv.closed_succ {p : ℕ → Bool} {k : ℕ} {runs : List Run} {st : Option ℕ × List Run}
    (h : ScanInv p a k runs st) : ∀ r ∈ st.2, r ∈ runs ∨ a ≤ r.start ∧ r.start < r.stop ∧ r.stop ≤ k + 1 :=
  fun r hr => (h.closed r hr).imp_right fun h1 => ⟨h1.1, h1.2.1, h1.2.2.trans (le_succ k)⟩

theorem scanInv_step {p : ℕ → Bool} {k : ℕ} {runs : List Run} {st : Option ℕ × List Run} (hak : a ≤ k)
    (h : ScanInv p a k runs st) : ScanInv p a (k + 1) runs (scanStep p st k) := by
  rcases st with ⟨o, rs⟩
  unfold scanStep
  cases hp : p k with
  | true =>
    cases o with
    | none =>
      -- a run opens
      refine ⟨fun s => ?_, fun x hx => ?_, h.closed_succ⟩
      · have h1 := h.covers s
        simp only [reduceCtorEq, false_and, exists_false, or_false] at h1
        simp only [Option.some.injEq, exists_eq_left']
        grind
      · simp only [Option.some.injEq] at hx; omega
    | some o =>
      -- the open run goes on
      obtain ⟨h3, h4⟩ := h.fresh o rfl
      refine ⟨fun s => ?_, fun x hx => ?_, h.closed_succ⟩
      · have h1 := h.covers s
        simp only [Option.some.injEq, exists_eq_left'] at h1 ⊢
        grind
      · have := h.fresh x hx; omega
  | false =>
    cases o with
    | none =>
      refine ⟨fun s => ?_, fun x hx => by simp at hx, h.closed_succ⟩
      have h1 := h.covers s
      simp only [reduceCtorEq, false_and, exists_false, or_false] at h1 ⊢
      grind
    | some o =>
      -- the open run closes
      obtain ⟨h3, h4⟩ := h.fresh o rfl
      refine ⟨fun s => ?_, fun x hx => by simp at hx, fun r hr => ?_⟩
      · have h1 := h.covers s
        simp only [Option.some.injEq, exists_eq_left'] at h1
        simp only [reduceCtorEq, false_and, exists_false, or_false, held_concat]
        grind
      · rcases mem_append.mp hr with hr | hr
        · exact h.closed_succ r hr
        · simp only [mem_singleton] at hr
          subst hr
          exact .inr ⟨h3, h4, le_succ k⟩

theorem scanInv_foldl (p : ℕ → Bool) (a : ℕ) (runs : List Run) : ∀ (n : ℕ),
    ScanInv p a (a + n) runs ((range' a n).foldl (scanStep p) (none, runs))
  | 0 => ⟨fun s => by simp; omega, fun _ h => by simp at h, fun r hr => .inl hr⟩
  | n + 1 => by
    rw [range'_concat, foldl_append, one_mul]
    exact scanInv_step (le_add_right a n) (scanInv_foldl p a runs n)

/-- The runs a scan appends hold exactly the positions of `[a, b)` where `p` does. -/
theorem scan_covers (p : ℕ → Bool) {b : ℕ} (hab : a ≤ b) (runs : List Run) (s : ℕ) :
    Held (scan p a b runs) s ↔ Held runs s ∨ (a ≤ s ∧ s < b ∧ p s = true) := by
  have h := scanInv_foldl p a runs (b - a)
  rw [Nat.add_sub_cancel' hab] at h
  rw [← h.covers s]
  unfold scan
  rcases hst : (range' a (b - a)).foldl (scanStep p) (none, runs) with ⟨o, rs⟩
  cases o with
  | none => simp
  | some o => simp [held_concat]

/-- And each of them is a non-empty run inside `[a, b)`. -/
theorem scan_valid (p : ℕ → Bool) {b : ℕ} (hab : a ≤ b) (runs : List Run) :
    ∀ r ∈ scan p a b runs, r ∈ runs ∨ a ≤ r.start ∧ r.start < r.stop ∧ r.stop ≤ b := by
  have h := scanInv_foldl p a runs (b - a)
  rw [Nat.add_sub_cancel' hab] at h
  unfold scan
  rcases hst : (range' a (b - a)).foldl (scanStep p) (none, runs) with ⟨o, rs⟩
  rw [hst] at h
  cases o with
  | none => exact h.closed
  | some o =>
    intro r hr
    rcases mem_append.mp hr with hr | hr
    · exact h.closed r hr
    · simp only [mem_singleton] at hr
      subst hr
      obtain ⟨h1, h2⟩ := h.fresh o rfl
      exact .inr ⟨h1, h2, le_rfl⟩

end Tidefs.Ordered
