/-
# Clusters of points on a line

Points are sorted and swept once: a point within reach of the one before it
joins the cluster under way, another starts a new one. The sweep returns the
first point, the last point and the number of points of each cluster, and these
are the maximal stretches in which every point reaches a later one
(`mem_sweep`).
-/
import Mathlib.Data.List.Sort
import Mathlib.Tactic

namespace Tidefs.Clusters

open List

/-- The sweep over the points that are left, with the first point, the last
point and the size of the cluster under way. -/
def sweep (reach : ℕ → ℕ) (first last size : ℕ) : List ℕ → List (ℕ × ℕ × ℕ)
  | [] => [(first, last, size)]
  | x :: points =>
    if x ≤ reach last then sweep reach first x (size + 1) points
    else (first, last, size) :: sweep reach x x 1 points

/-- Every point from `a` up to `b` reaches a later one. -/
def Linked (reach : ℕ → ℕ) (L : List ℕ) (a b : ℕ) : Prop :=
  ∀ c ∈ L, a ≤ c → c < b → ∃ d ∈ L, c < d ∧ d ≤ reach c

/-- A maximal stretch of linked points. -/
structure IsCluster (reach : ℕ → ℕ) (L : List ℕ) (a b : ℕ) : Prop where
  first : a ∈ L
  last : b ∈ L
  le : a ≤ b
  linked : Linked reach L a b
  left : ∀ c ∈ L, c < a → reach c < a
  right : ∀ d ∈ L, b < d → reach b < d

/-- The number of points between two bounds. -/
def countIn (L : List ℕ) (a b : ℕ) : ℕ := L.countP fun c => decide (a ≤ c ∧ c ≤ b)

theorem countIn_append (L L' : List ℕ) (a b : ℕ) : countIn (L ++ L') a b = countIn L a b + countIn L' a b :=
  countP_append

variable {L done : List ℕ} {a b first last size x : ℕ}

theorem countIn_eq_zero (h : ∀ c ∈ L, b < c ∨ c < a) : countIn L a b = 0 := by
  refine countP_eq_zero.mpr fun c hc => ?_
  have := h c hc
  simp only [decide_eq_true_eq]
  omega

theorem countIn_singleton (h1 : a ≤ x) (h2 : x ≤ b) : countIn [x] a b = 1 := by
  simp [countIn, h1, h2]

/-- No stretch of linked points crosses a point that nothing before it reaches. -/
theorem Linked.no_break {reach : ℕ → ℕ} (h : Linked reach L a b) (hx : x ≤ b)
    (hleft : ∀ c ∈ L, c < x → reach c < x) : ∀ {c : ℕ}, c ∈ L → a ≤ c → c < x → False := by
  -- by induction on the distance to the break
  have key : ∀ n c, c ∈ L → a ≤ c → c < x → x - c ≤ n → False := by
    intro n
    induction n with
    | zero => intro c _ _ hcx hn; omega
    | succ n ih =>
      intro c hc hac hcx hn
      obtain ⟨d, hd, hcd, hreach⟩ := h c hc hac (by omega)
      have := hleft c hc hcx
      exact ih d hd (by omega) (by omega) (by omega)
  exact fun {c} hc hac hcx => key _ c hc hac hcx le_rfl

/-- Two clusters that overlap are one. -/
theorem IsCluster.unique {reach : ℕ → ℕ} {a' b' : ℕ} (h : IsCluster reach L a b)
    (h' : IsCluster reach L a' b') (h1 : a ≤ b') (h2 : a' ≤ b) : a = a' ∧ b = b' := by
  have ha : ¬ a < a' := fun hlt => h.linked.no_break h2 h'.left h.first le_rfl hlt
  have ha' : ¬ a' < a := fun hlt => h'.linked.no_break h1 h.left h'.first le_rfl hlt
  have hb : ¬ b < b' := fun hlt => by
    obtain ⟨d, hd, hbd, hreach⟩ := h'.linked b h.last h2 hlt
    have := h.right d hd hbd
    omega
  have hb' : ¬ b' < b := fun hlt => by
    obtain ⟨d, hd, hbd, hreach⟩ := h.linked b' h'.last h1 hlt
    have := h'.right d hd hbd
    omega
  omega

/-! ### The sweep -/

/-- The points swept so far, and the cluster under way among them. -/
structure SweepInv (reach : ℕ → ℕ) (done : List ℕ) (first last size : ℕ) : Prop where
  first_mem : first ∈ done
  last_mem : last ∈ done
  le : first ≤ last
  bound : ∀ c ∈ done, c ≤ last
  linked : Linked reach done first last
  left : ∀ c ∈ done, c < first → reach c < first
  size : size = countIn done first last

variable {reach : ℕ → ℕ}

theorem sweepInv_join (h : SweepInv reach done first last size)
    (hx : last ≤ x) (hr : x ≤ reach last) : SweepInv reach (done ++ [x]) first x (size + 1) := by
  have hle := h.le
  refine ⟨mem_append_left _ h.first_mem, mem_append_right _ (mem_singleton_self x), hle.trans hx, ?_, ?_, ?_, ?_⟩
  · exact forall_mem_append.mpr ⟨fun c hc => (h.bound c hc).trans hx, forall_mem_singleton.mpr le_rfl⟩
  · intro c hc hac hcx
    have hc : c ∈ done := (mem_append.mp hc).resolve_right fun he => by
      have := mem_singleton.mp he
      omega
    by_cases hlt : c < last
    · obtain ⟨d, hd, h1, h2⟩ := h.linked c hc hac hlt
      exact ⟨d, mem_append_left _ hd, h1, h2⟩
    · obtain rfl : c = last := le_antisymm (h.bound c hc) (not_lt.mp hlt)
      exact ⟨x, mem_append_right _ (mem_singleton_self x), hcx, hr⟩
  · intro c hc hcf
    rcases mem_append.mp hc with hc | hc
    · exact h.left c hc hcf
    · have := mem_singleton.mp hc
      omega
  · -- nothing swept lies beyond the last point
    have hsame : countIn done first x = countIn done first last := by
      refine countP_congr fun c hc => ?_
      have := h.bound c hc
      simp only [decide_eq_true_eq]
      omega
    rw [countIn_append, countIn_singleton (hle.trans hx) le_rfl, hsame, h.size]

theorem sweepInv_start (hmono : Monotone reach)
    (h : SweepInv reach done first last size) (hx : last < x) (hr : reach last < x) :
    SweepInv reach (done ++ [x]) x x 1 := by
  have hmem : x ∈ done ++ [x] := mem_append_right _ (mem_singleton_self x)
  refine ⟨hmem, hmem, le_rfl, ?_, fun c _ h1 h2 => absurd h1 (not_le.mpr h2), ?_, ?_⟩
  · exact forall_mem_append.mpr ⟨fun c hc => (h.bound c hc).trans hx.le, forall_mem_singleton.mpr le_rfl⟩
  · intro c hc hcx
    have hc : c ∈ done := (mem_append.mp hc).resolve_right fun he => by
      have := mem_singleton.mp he
      omega
    exact (hmono (h.bound c hc)).trans_lt hr
  · have hzero : countIn done x x = 0 := countIn_eq_zero fun c hc => Or.inr ((h.bound c hc).trans_lt hx)
    rw [countIn_append, countIn_singleton le_rfl le_rfl, hzero]

/-- If what is left is out of reach, the cluster under way is finished. -/
theorem SweepInv.isCluster (h : SweepInv reach done first last size)
    (rest : List ℕ) (hrest : ∀ c ∈ rest, last < c ∧ reach last < c) :
    IsCluster reach (done ++ rest) first last ∧ size = countIn (done ++ rest) first last := by
  refine ⟨⟨mem_append_left _ h.first_mem, mem_append_left _ h.last_mem, h.le, ?_, ?_, ?_⟩, ?_⟩
  · intro c hc hac hcl
    have hc : c ∈ done := (mem_append.mp hc).resolve_right fun he => by
      have := hrest c he
      omega
    obtain ⟨d, hd, h1, h2⟩ := h.linked c hc hac hcl
    exact ⟨d, mem_append_left _ hd, h1, h2⟩
  · intro c hc hcf
    rcases mem_append.mp hc with hc | hc
    · exact h.left c hc hcf
    · have := hrest c hc
      have := h.le
      omega
  · intro d hd hld
    rcases mem_append.mp hd with hd | hd
    · have := h.bound d hd
      omega
    · exact (hrest d hd).2
  · have hzero : countIn rest first last = 0 := countIn_eq_zero fun c hc => Or.inl (hrest c hc).1
    rw [countIn_append, hzero, h.size, Nat.add_zero]

theorem mem_sweep_aux (hmono : Monotone reach) {a b n : ℕ} : ∀ (rest done : List ℕ) {first last size : ℕ},
    SweepInv reach done first last size → (last :: rest).Pairwise (· ≤ ·) → (∀ x ∈ done ++ rest, x ≤ reach x) →
    ((a, b, n) ∈ sweep reach first last size rest ↔
      first ≤ a ∧ IsCluster reach (done ++ rest) a b ∧ n = countIn (done ++ rest) a b)
  | [], done, first, last, size, h, _, _ => by
    obtain ⟨hc, hn⟩ := h.isCluster [] fun c hc => absurd hc (by simp)
    rw [append_nil] at hc hn ⊢
    simp only [sweep, mem_singleton, Prod.mk.injEq]
    constructor
    · intro he
      obtain ⟨rfl, rfl, rfl⟩ := he
      exact ⟨le_rfl, hc, hn⟩
    · intro he
      obtain ⟨h1, h2, h3⟩ := he
      obtain ⟨rfl, rfl⟩ := hc.unique h2 (h1.trans h2.le) (h.bound a h2.first)
      exact ⟨rfl, rfl, h3.trans hn.symm⟩
  | x :: rest, done, first, last, size, h, hs, hreach => by
    rw [pairwise_cons] at hs
    have hlx : last ≤ x := hs.1 x (mem_cons_self ..)
    have happ : done ++ x :: rest = (done ++ [x]) ++ rest := by simp
    rw [sweep]
    split_ifs with hr
    · rw [happ]
      apply mem_sweep_aux hmono rest (done ++ [x]) (sweepInv_join h hlx hr) hs.2
      rwa [← happ]
    · have hlast := hreach last (mem_append_left _ h.last_mem)
      -- the rest is sorted, so all of it is out of reach
      have hfar : ∀ c ∈ x :: rest, last < c ∧ reach last < c := fun c hc => by
        have hxc : x ≤ c := by
          rcases mem_cons.mp hc with rfl | hc
          · exact le_rfl
          · exact rel_of_pairwise_cons hs.2 hc
        omega
      obtain ⟨hcl, hn⟩ := h.isCluster _ hfar
      have ih := mem_sweep_aux hmono (a := a) (b := b) (n := n) rest (done ++ [x])
        (sweepInv_start hmono h (by omega) (by omega)) hs.2 (by rwa [← happ])
      rw [← happ] at ih
      rw [mem_cons, ih]
      simp only [Prod.mk.injEq]
      constructor
      · intro he
        rcases he with ⟨rfl, rfl, rfl⟩ | ⟨h1, h2⟩
        · exact ⟨le_rfl, hcl, hn⟩
        · exact ⟨by have := h.le; omega, h2⟩
      · intro he
        obtain ⟨h1, h2, h3⟩ := he
        by_cases hax : x ≤ a
        · exact Or.inr ⟨hax, h2, h3⟩
        · -- a cluster that starts before the break overlaps the one just finished
          have hmem : a ∈ done := (mem_append.mp h2.first).resolve_right fun hc => by
            rcases mem_cons.mp hc with rfl | hc
            · exact hax le_rfl
            · exact hax (rel_of_pairwise_cons hs.2 hc)
          obtain ⟨rfl, rfl⟩ := hcl.unique h2 (h1.trans h2.le) (h.bound a hmem)
          exact Or.inl ⟨rfl, rfl, h3.trans hn.symm⟩

/-- **The sweep over sorted points returns the clusters, with their sizes.** -/
theorem mem_sweep (hmono : Monotone reach) {points : List ℕ} (hs : (x :: points).Pairwise (· ≤ ·))
    (hreach : ∀ y ∈ x :: points, y ≤ reach y) {n : ℕ} : (a, b, n) ∈ sweep reach x x 1 points ↔
      IsCluster reach (x :: points) a b ∧ n = countIn (x :: points) a b := by
  have hinv : SweepInv reach [x] x x 1 :=
    ⟨by simp, by simp, le_rfl, by simp, fun c _ h1 h2 => absurd h1 (not_le.mpr h2), by simp,
      (countIn_singleton le_rfl le_rfl).symm⟩
  have h := mem_sweep_aux hmono (a := a) (b := b) (n := n) points [x] hinv hs hreach
  rw [h, singleton_append]
  refine and_iff_right_of_imp fun hc => ?_
  rcases mem_cons.mp hc.1.first with rfl | hmem
  · exact le_rfl
  · exact rel_of_pairwise_cons hs hmem

/-- Clusters depend on the points only, not on their order. -/
theorem IsCluster.of_perm {L' : List ℕ} (h : L.Perm L') : IsCluster reach L a b ↔ IsCluster reach L' a b := by
  have key : ∀ {l l' : List ℕ}, (∀ x, x ∈ l ↔ x ∈ l') → IsCluster reach l a b → IsCluster reach l' a b := by
    intro l l' hm hc
    refine ⟨(hm a).mp hc.first, (hm b).mp hc.last, hc.le, ?_, fun c h1 => hc.left c ((hm c).mpr h1),
      fun d h1 => hc.right d ((hm d).mpr h1)⟩
    intro c h1 h2 h3
    obtain ⟨d, hd, h4⟩ := hc.linked c ((hm c).mpr h1) h2 h3
    exact ⟨d, (hm d).mp hd, h4⟩
  exact ⟨key fun x => h.mem_iff, key fun x => h.mem_iff.symm⟩

theorem countIn_perm {L' : List ℕ} (h : L.Perm L') (a b : ℕ) : countIn L a b = countIn L' a b := h.countP_eq _

end Tidefs.Clusters
