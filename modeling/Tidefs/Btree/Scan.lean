/-
# Scanning a range of keys

The lazy iterator behind `range_scan`. It holds the way down to the leaf it reads
as a stack of internal nodes, each with the index of the child it went into. It
starts at the leaf the start bound is routed to, and stops at the first key past
the end bound.

What the iterator has yet to yield, were there no end bound, can be read off its
leaf and its stack (`RangeScan.rest`). Each call of `next` takes the first of that
(`next_cons`), so the scan yields the entries within the bounds, in order.
-/
import Tidefs.Btree.Refine

namespace Tidefs.Btree

open Ordered BTreeNode Option
open List hiding next

variable {K V : Type}

/-- `core::ops::Bound`. -/
inductive Bound (K : Type) where
  | included (k : K)
  | excluded (k : K)
  | unbounded

/-- An internal node and the index of the child the scan is in. -/
abbrev Frame (K V : Type) := BTreeNode K V × ℕ

/-- The entries of a leaf and the position of the next one. -/
abbrev LeafPos (K V : Type) := List (K × V) × ℕ

/-- A scan under way. -/
structure RangeScan (K V : Type) where
  start : Bound K
  stop : Bound K
  stack : List (Frame K V)
  leaf : Option (LeafPos K V)
  exhausted : Bool

namespace RangeScan

/-! ### Walking down -/

mutual

/-- The way to the leftmost leaf below the node. -/
def walkLeft (stack : List (Frame K V)) : BTreeNode K V → Option (List (Frame K V) × LeafPos K V)
  | .leaf entries _ => some (stack, entries, 0)
  | .internal keys children cs => walkLeftFirst ((.internal keys children cs, 0) :: stack) children

def walkLeftFirst (stack : List (Frame K V)) : List (BTreeNode K V) → Option (List (Frame K V) × LeafPos K V)
  | [] => none
  | c :: _ => walkLeft stack c

end

/-- The next leaf: the innermost frame with a child left says where it is. `some none`
is the end of the tree. -/
def nextLeaf : List (Frame K V) → Option (Option (List (Frame K V) × LeafPos K V))
  | [] => some none
  | (.leaf _ _, _) :: stack => nextLeaf stack
  | (.internal keys children cs, i) :: stack =>
    match children[i + 1]? with
    | some child => (walkLeft ((.internal keys children cs, i + 1) :: stack) child).map some
    | none => nextLeaf stack

section Start

variable [LinearOrder K]

/-- Index of the first child that may hold the start key. -/
def firstChild (start : Bound K) (keys : List K) : ℕ :=
  match start with
  | .unbounded => 0
  | .included k | .excluded k =>
    match binarySearchBy (fun separator => compare separator k) keys with
    | .ok i => i + 1
    | .error i => i

/-- Position of the first entry within the start bound. -/
def startIdx (start : Bound K) (entries : List (K × V)) : ℕ :=
  match start with
  | .unbounded => 0
  | .included k =>
    match binarySearchBy (fun e => compare e.1 k) entries with
    | .ok i => i
    | .error i => i
  | .excluded k =>
    match binarySearchBy (fun e => compare e.1 k) entries with
    | .ok i => i + 1
    | .error i => i

mutual

/-- The way to the leaf the start key belongs to. -/
def initWalk (start : Bound K) (stack : List (Frame K V)) : BTreeNode K V → Option (List (Frame K V) × LeafPos K V)
  | .leaf entries _ => some (stack, entries, startIdx start entries)
  | .internal keys children cs =>
    initWalkChild start ((.internal keys children cs, firstChild start keys) :: stack) (firstChild start keys) children

def initWalkChild (start : Bound K) (stack : List (Frame K V)) :
    ℕ → List (BTreeNode K V) → Option (List (Frame K V) × LeafPos K V)
  | _, [] => none
  | 0, c :: _ => initWalk start stack c
  | i + 1, _ :: cs => initWalkChild start stack i cs

end

/-! ### The iterator -/

def new (tree : BPlusTree K V) (start stop : Bound K) : Option (RangeScan K V) :=
  if tree.isEmpty then some ⟨start, stop, [], none, true⟩
  else (initWalk start [] tree.root).map fun r => ⟨start, stop, r.1, some r.2, false⟩

def beforeEnd (stop : Bound K) (key : K) : Bool :=
  match stop with
  | .unbounded => true
  | .included k => key ≤ k
  | .excluded k => key < k

/-- The next entry and the iterator after it. Each turn of the loop goes on to
another leaf; without fuel it would go on. -/
def next : ℕ → RangeScan K V → Option (Option (K × V) × RangeScan K V)
  | 0, _ => none
  | fuel + 1, scan =>
    if scan.exhausted then some (none, scan)
    else
      match scan.leaf.bind fun l => l.1[l.2]?.map fun e => (e, l) with
      | some (e, entries, pos) =>
        if beforeEnd scan.stop e.1 then some (some e, { scan with leaf := some (entries, pos + 1) })
        else some (none, { scan with exhausted := true })
      | none =>
        (nextLeaf scan.stack).bind fun
          | some r => next fuel { scan with stack := r.1, leaf := some r.2 }
          | none => some (none, { scan with stack := [], leaf := none, exhausted := true })

/-- The loop over the iterator: all it yields. -/
def collect (turns : ℕ) : ℕ → RangeScan K V → Option (List (K × V))
  | 0, _ => none
  | fuel + 1, scan =>
    (next turns scan).bind fun
      | (some e, scan') => (collect turns fuel scan').map (e :: ·)
      | (none, _) => some []

end Start

end RangeScan

/-- The entries `range_scan` yields. A call of `next` goes on to no more leaves than
there are, and all calls but the last yield an entry. -/
def BPlusTree.rangeScan [LinearOrder K] (tree : BPlusTree K V) (start stop : Bound K) : Option (List (K × V)) :=
  (RangeScan.new tree start stop).bind (RangeScan.collect (tree.leafCount + 1) (tree.entries.length + 1))

open RangeScan

/-! ### What is left to yield -/

/-- The children of a frame the scan has not been in. -/
def Frame.remaining : Frame K V → List (BTreeNode K V)
  | (.leaf _ _, _) => []
  | (.internal _ children _, i) => children.drop (i + 1)

/-- The entries below the frames of a stack the scan has not been in. -/
def stackRest (stack : List (Frame K V)) : List (K × V) := stack.flatMap fun f => collectChildren f.remaining

/-- All entries from the position of the scan on. -/
def RangeScan.rest (scan : RangeScan K V) : List (K × V) :=
  (scan.leaf.elim [] fun l => l.1.drop l.2) ++ stackRest scan.stack

/-- Every child yet to come is well shaped. -/
def StackGood (P : Params) (stack : List (Frame K V)) : Prop :=
  ∀ f ∈ stack, ∀ c ∈ f.remaining, ∃ h, Good P h false c

variable {P : Params} {stack : List (Frame K V)} {h : ℕ} {n : BTreeNode K V} {scan : RangeScan K V}

theorem StackGood.cons {f : Frame K V} (hf : ∀ c ∈ f.remaining, ∃ h, Good P h false c)
    (h : StackGood P stack) : StackGood P (f :: stack) :=
  forall_mem_cons.mpr ⟨hf, h⟩

theorem StackGood.tail {f : Frame K V} (h : StackGood P (f :: stack)) : StackGood P stack :=
  fun g hg => h g (mem_cons_of_mem _ hg)

theorem stackRest_cons (f : Frame K V) (stack : List (Frame K V)) :
    stackRest (f :: stack) = collectChildren f.remaining ++ stackRest stack := rfl

/-- Walking left goes to the first leaf, and all else of the node comes after it. -/
theorem walkLeft_spec (hP : P.Valid) (hg : Good P h false n)
    (hs : StackGood P stack) : ∃ stack' entries, walkLeft stack n = some (stack', entries, 0) ∧ entries ≠ [] ∧
      StackGood P stack' ∧ entries ++ stackRest stack' = collectAll n ++ stackRest stack := by
  induction h generalizing n stack with
  | zero =>
    have hne := hg.collectAll_ne_nil hP
    cases hg with
    | @leaf _ entries _ _ => exact ⟨stack, entries, rfl, hne, hs, rfl⟩
  | succ h ih =>
    cases hg with
    | @internal _ _ keys children h1 h2 _ _ _ =>
      obtain ⟨c, cs, rfl⟩ := exists_cons_of_two_le h2
      have hframe : StackGood P ((.internal keys (c :: cs) (internalChecksum P (c :: cs)), 0) :: stack) :=
        hs.cons fun d hd => ⟨h, h1 d (mem_cons_of_mem _ hd)⟩
      obtain ⟨stack', entries, h3, h4, h5, h6⟩ := ih (h1 c (mem_cons_self ..)) hframe
      refine ⟨stack', entries, h3, h4, h5, ?_⟩
      rw [h6, stackRest_cons, ← append_assoc]
      rfl

theorem nextLeaf_spec (hP : P.Valid) : ∀ {stack : List (Frame K V)}, StackGood P stack →
    (nextLeaf stack = some none ∧ stackRest stack = []) ∨
    ∃ stack' entries, nextLeaf stack = some (some (stack', entries, 0)) ∧ entries ≠ [] ∧ StackGood P stack' ∧
      entries ++ stackRest stack' = stackRest stack
  | [], _ => Or.inl ⟨rfl, rfl⟩
  | (.leaf _ _, _) :: stack, hs => by
    have ih := nextLeaf_spec hP hs.tail
    exact ih
  | (.internal keys children cs, i) :: stack, hs => by
    rw [nextLeaf]
    have hrem := hs _ (mem_cons_self ..)
    change ∀ c ∈ children.drop (i + 1), _ at hrem
    cases hc : children[i + 1]? with
    | none =>
      have hnil : children.drop (i + 1) = [] := drop_eq_nil_iff.mpr (List.getElem?_eq_none_iff.mp hc)
      have hrest : stackRest ((.internal keys children cs, i) :: stack) = stackRest stack := by
        rw [stackRest_cons, Frame.remaining, hnil]
        rfl
      rw [hrest]
      exact nextLeaf_spec hP hs.tail
    | some c =>
      obtain ⟨hlt, rfl⟩ := List.getElem?_eq_some_iff.mp hc
      have hdrop := drop_eq_getElem_cons hlt
      rw [hdrop] at hrem
      obtain ⟨h, hg⟩ := hrem _ (mem_cons_self ..)
      have hframe : StackGood P ((.internal keys children cs, i + 1) :: stack) :=
        hs.tail.cons fun d hd => hrem d (mem_cons_of_mem _ hd)
      obtain ⟨stack', entries, h3, h4, h5, h6⟩ := walkLeft_spec hP hg hframe
      refine Or.inr ⟨stack', entries, ?_, h4, h5, ?_⟩
      · dsimp only
        rw [h3, map_some]
      · rw [h6, stackRest_cons, stackRest_cons, ← append_assoc]
        show _ = collectChildren (children.drop (i + 1)) ++ _
        rw [hdrop]
        rfl

theorem countLeaves_pos {root : Bool} (hg : Good P h root n) : 1 ≤ countLeaves n := by
  induction h generalizing root n with
  | zero => cases hg; exact le_rfl
  | succ h ih =>
    cases hg with
    | internal h1 h2 _ _ _ =>
      obtain ⟨c, cs, rfl⟩ := exists_cons_of_two_le h2
      exact (ih (h1 c (mem_cons_self ..))).trans (Nat.le_add_right _ _)

variable [LinearOrder K]

/-! ### The calls of `next` -/

theorem next_of_exhausted (h : scan.exhausted = true) (fuel : ℕ) : next (fuel + 1) scan = some (none, scan) := by
  rw [next, if_pos h]

/-- An entry of the leaf at hand comes next, if it is before the end. -/
theorem next_of_leaf (hx : scan.exhausted = false) {entries : List (K × V)} {pos : ℕ}
    (hl : scan.leaf = some (entries, pos)) {e : K × V} (he : entries[pos]? = some e) (fuel : ℕ) : next (fuel + 1) scan =
      if beforeEnd scan.stop e.1 then some (some e, { scan with leaf := some (entries, pos + 1) })
      else some (none, { scan with exhausted := true }) := by
  rw [next, if_neg (by simp [hx]), hl, bind_some, he, map_some]

/-- If the leaf at hand has no more entries, the next leaf is asked. -/
theorem next_of_leaf_end (hx : scan.exhausted = false) (hl : ∀ l, scan.leaf = some l → l.1.drop l.2 = []) (fuel : ℕ) :
    next (fuel + 1) scan = (nextLeaf scan.stack).bind fun
      | some r => next fuel { scan with stack := r.1, leaf := some r.2 }
      | none => some (none, { scan with stack := [], leaf := none, exhausted := true }) := by
  have hend : (scan.leaf.bind fun l => l.1[l.2]?.map fun e => (e, l)) = none := by
    cases hleaf : scan.leaf with
    | none => rfl
    | some l =>
      rw [bind_some, getElem?_eq_none_iff.mpr (drop_eq_nil_iff.mp (hl l hleaf)), map_none]
  rw [next, if_neg (by simp [hx]), hend]

/-- Once nothing is left, `next` says so. -/
theorem next_nil (hP : P.Valid) (hs : StackGood P scan.stack) (hrest : scan.rest = [])
    (fuel : ℕ) : ∃ scan', next (fuel + 1) scan = some (none, scan') := by
  cases hx : scan.exhausted with
  | true => exact ⟨scan, next_of_exhausted hx fuel⟩
  | false =>
    obtain ⟨hleaf, hstack⟩ := append_eq_nil_iff.mp hrest
    rw [next_of_leaf_end hx fun l hl => by rw [hl] at hleaf; exact hleaf]
    rcases nextLeaf_spec hP hs with ⟨h1, -⟩ | ⟨stack, entries, -, h2, -, h4⟩
    · exact ⟨_, by rw [h1, bind_some]⟩
    · rw [hstack] at h4
      exact absurd (append_eq_nil_iff.mp h4).1 h2

/-- **One call of `next` takes the first of what is left**, if it is before the end. -/
theorem next_cons (hP : P.Valid) (hx : scan.exhausted = false) (hs : StackGood P scan.stack)
    {e : K × V} {l : List (K × V)} (hrest : scan.rest = e :: l) (fuel : ℕ) : if beforeEnd scan.stop e.1 then
      ∃ scan', next (fuel + 2) scan = some (some e, scan') ∧ scan'.exhausted = false ∧ scan'.stop = scan.stop ∧
        StackGood P scan'.stack ∧ scan'.rest = l else ∃ scan', next (fuel + 2) scan = some (none, scan') := by
  -- from a leaf that has an entry left
  have hturn : ∀ (s : RangeScan K V) (entries : List (K × V)) (pos fuel : ℕ), s.exhausted = false →
      s.stop = scan.stop → StackGood P s.stack → s.leaf = some (entries, pos) → entries.drop pos ≠ [] →
      s.rest = e :: l → if beforeEnd scan.stop e.1 then
        ∃ scan', next (fuel + 1) s = some (some e, scan') ∧ scan'.exhausted = false ∧ scan'.stop = scan.stop ∧
          StackGood P scan'.stack ∧ scan'.rest = l
      else ∃ scan', next (fuel + 1) s = some (none, scan') := by
    intro s entries pos fuel h1 h2 h3 h4 h5 h6
    have hlt : pos < entries.length := by
      by_contra hle
      exact h5 (drop_eq_nil_iff.mpr (not_lt.mp hle))
    have hdrop := drop_eq_getElem_cons hlt
    rw [rest, h4, elim_some, hdrop, cons_append] at h6
    obtain ⟨he, hl⟩ := List.cons.inj h6
    rw [next_of_leaf h1 h4 (List.getElem?_eq_some_iff.mpr ⟨hlt, he⟩), ← h2]
    split_ifs with hb
    · exact ⟨_, rfl, h1, rfl, h3, hl⟩
    · exact ⟨_, rfl⟩
  by_cases hleaf : ∃ entries pos, scan.leaf = some (entries, pos) ∧ entries.drop pos ≠ []
  · obtain ⟨entries, pos, h1, h2⟩ := hleaf
    exact hturn scan entries pos (fuel + 1) hx rfl hs h1 h2 hrest
  · have hend : ∀ l, scan.leaf = some l → l.1.drop l.2 = [] := fun l hl => by
      by_contra hne
      exact hleaf ⟨l.1, l.2, hl, hne⟩
    have hstack : stackRest scan.stack = e :: l := by
      rw [rest] at hrest
      cases hl : scan.leaf with
      | none => rwa [hl] at hrest
      | some l' =>
        rw [hl, elim_some, hend l' hl] at hrest
        exact hrest
    rcases nextLeaf_spec hP hs with ⟨-, h1⟩ | ⟨stack, entries, h1, h2, h3, h4⟩
    · rw [h1] at hstack
      exact absurd hstack (by simp)
    · rw [next_of_leaf_end hx hend, h1]
      exact hturn ⟨scan.start, scan.stop, stack, some (entries, 0), scan.exhausted⟩ entries 0 fuel hx rfl h3 rfl h2
        (h4.trans hstack)

theorem collect_spec (hP : P.Valid) (turns : ℕ) : ∀ (fuel : ℕ) (scan : RangeScan K V), scan.exhausted = false →
    StackGood P scan.stack → scan.rest.length ≤ fuel →
    collect (turns + 2) (fuel + 1) scan = some (scan.rest.takeWhile fun e => beforeEnd scan.stop e.1)
  | fuel, scan, hx, hs, hlen => by
    cases hrest : scan.rest with
    | nil =>
      obtain ⟨scan', h1⟩ := next_nil hP hs hrest (turns + 1)
      rw [collect, h1]
      rfl
    | cons e l =>
      have hnext := next_cons hP hx hs hrest turns
      split_ifs at hnext with hb
      · obtain ⟨scan', h1, h2, h3, h4, h5⟩ := hnext
        rw [hrest, length_cons] at hlen
        obtain ⟨fuel, rfl⟩ : ∃ f, fuel = f + 1 := ⟨fuel - 1, by omega⟩
        have ih := collect_spec hP turns fuel scan' h2 h4 (by rw [h5]; omega)
        rw [collect, h1, bind_some]
        dsimp only
        rw [ih, h5, h3, takeWhile_cons, if_pos hb, map_some]
      · obtain ⟨scan', h1⟩ := hnext
        rw [collect, h1, takeWhile_cons, if_neg hb, bind_some]

/-! ### The start -/

def afterStart (start : Bound K) (key : K) : Bool :=
  match start with
  | .unbounded => true
  | .included k => k ≤ key
  | .excluded k => k < key

theorem searchSeparator_eq {keys : List K} (h : keys.Pairwise (· < ·)) (k : K) :
    (match binarySearchBy (fun separator => compare separator k) keys with
      | .ok i => i + 1
      | .error i => i) = partitionPoint (fun separator => decide (separator ≤ k)) keys := by
  rcases binarySearchBy_cases (fun separator => compare separator k) keys with
    ⟨A, x, C, rfl, h1, h2, h3⟩ | ⟨A, C, rfl, h1, h2, h3⟩
  · have hA : ∀ a ∈ A, decide (a ≤ k) = true := fun a ha => by simpa using (compare_lt_iff_lt.mp (h2 a ha)).le
    obtain rfl : x = k := compare_eq_iff_eq.mp h3
    have hC : ∀ c ∈ C.head?, decide (c ≤ x) = false := fun c hc => by
      have hxC := (pairwise_cons.mp (pairwise_append.mp h).2.1).1
      simpa using hxC c (mem_of_mem_head? hc)
    rw [h1, partitionPoint, takeWhile_append_of_pos hA, takeWhile_cons_of_pos (by simp)]
    cases C with
    | nil => simp
    | cons c C => simp [hC c rfl]
  · have hA : ∀ a ∈ A, decide (a ≤ k) = true := fun a ha => by simpa using (compare_lt_iff_lt.mp (h2 a ha)).le
    have hC : ∀ c ∈ C.head?, decide (c ≤ k) = false := fun c hc => by
      simpa using compare_gt_iff_gt.mp (h3 c hc)
    rw [h1, partitionPoint, takeWhile_append_of_pos hA]
    cases C with
    | nil => simp
    | cons c C => simp [hC c rfl]

/-- The start bound is routed to a child with nothing in range before it and
everything in range after it. -/
theorem firstChild_cases (hP : P.Valid) {keys : List K} {children : List (BTreeNode K V)}
    (hgood : ∀ c ∈ children, Good P h false c) (h2 : 2 ≤ children.length)
    (hkeys : (children.drop 1).mapM minKey = some keys) (hasc : Ascending (collectChildren children))
    (start : Bound K) : ∃ A c C, children = A ++ c :: C ∧ firstChild start keys = A.length ∧
      (∀ e ∈ collectChildren A, afterStart start e.1 = false) ∧
      ∀ e ∈ collectChildren C, afterStart start e.1 = true := by
  have hsorted : keys.Pairwise (· < ·) := by
    obtain ⟨c, cs, rfl⟩ := exists_cons_of_two_le h2
    exact separators_ascend hP (fun d hd => hgood d (mem_cons_of_mem _ hd))
      (Ascending.append_iff.mp hasc).2.1 (forall₂_of_mapM hkeys)
  have hroute : ∀ k, ∃ A c C, children = A ++ c :: C ∧ firstChild (.included k) keys = A.length ∧
      Below (collectChildren A) k ∧ Above (collectChildren C) k := by
    intro k
    obtain ⟨A, c, C, h3, -, h4, h5⟩ := route_cases hP hgood h2 hkeys hasc k
    exact ⟨A, c, C, h3, (searchSeparator_eq hsorted k).trans h4, h5⟩
  cases start with
  | unbounded =>
    obtain ⟨c, cs, rfl⟩ := exists_cons_of_two_le h2
    exact ⟨[], c, cs, rfl, rfl, by simp, fun _ _ => rfl⟩
  | included k =>
    obtain ⟨A, c, C, h3, h4, hA, hC⟩ := hroute k
    exact ⟨A, c, C, h3, h4, fun e he => decide_eq_false (hA e he).not_ge,
      fun e he => decide_eq_true (hC e he).le⟩
  | excluded k =>
    obtain ⟨A, c, C, h3, h4, hA, hC⟩ := hroute k
    exact ⟨A, c, C, h3, h4, fun e he => decide_eq_false (hA e he).le.not_gt,
      fun e he => decide_eq_true (hC e he)⟩

theorem drop_startIdx {entries : List (K × V)} (hasc : Ascending entries) (start : Bound K) :
    entries.drop (startIdx start entries) = entries.filter fun e => afterStart start e.1 := by
  have hcut : ∀ A C : List (K × V), (∀ e ∈ A, afterStart start e.1 = false) →
      (∀ e ∈ C, afterStart start e.1 = true) → (A ++ C).drop A.length = (A ++ C).filter fun e => afterStart start e.1 := by
    intro A C hA hC
    have hnone : A.filter (fun e => afterStart start e.1) = [] :=
      filter_eq_nil_iff.mpr fun e he => by simp [hA e he]
    rw [drop_left, filter_append, hnone, filter_eq_self.mpr hC, nil_append]
  cases start with
  | unbounded => exact hcut [] entries (by simp) fun _ _ => rfl
  | included k =>
    rw [startIdx]
    rcases searchKey_cases hasc k with ⟨A, v, C, rfl, h1, hA, hC⟩ | ⟨A, C, rfl, h1, hA, hC⟩
    · rw [h1]
      refine hcut A ((k, v) :: C) (fun e he => decide_eq_false (hA e he).not_ge) fun e he => ?_
      rcases mem_cons.mp he with rfl | he
      · simp [afterStart]
      · exact decide_eq_true (hC e he).le
    · rw [h1]
      exact hcut A C (fun e he => decide_eq_false (hA e he).not_ge)
        fun e he => decide_eq_true (hC e he).le
  | excluded k =>
    rw [startIdx]
    rcases searchKey_cases hasc k with ⟨A, v, C, rfl, h1, hA, hC⟩ | ⟨A, C, rfl, h1, hA, hC⟩
    · rw [h1]
      have := hcut (A ++ [(k, v)]) C (fun e he => by
        rcases mem_append.mp he with he | he
        · exact decide_eq_false (hA e he).le.not_gt
        · rw [mem_singleton.mp he]
          simp [afterStart]) fun e he => decide_eq_true (hC e he)
      simpa using this
    · rw [h1]
      exact hcut A C (fun e he => decide_eq_false (hA e he).le.not_gt)
        fun e he => decide_eq_true (hC e he)

theorem initWalkChild_append (start : Bound K) (stack : List (Frame K V)) (c : BTreeNode K V)
    (C : List (BTreeNode K V)) : ∀ A : List (BTreeNode K V),
    initWalkChild start stack A.length (A ++ c :: C) = initWalk start stack c
  | [] => rfl
  | _ :: A => initWalkChild_append start stack c C A

/-- **The walk to the start skips exactly what is before it.** -/
theorem initWalk_spec (hP : P.Valid) (start : Bound K) {root : Bool}
    (hg : Good P h root n) (hasc : Ascending (collectAll n)) (hs : StackGood P stack) :
    ∃ stack' l, initWalk start stack n = some (stack', l) ∧ StackGood P stack' ∧ l.1.drop l.2 ++ stackRest stack' =
        (collectAll n).filter (fun e => afterStart start e.1) ++ stackRest stack := by
  induction h generalizing root n stack with
  | zero =>
    cases hg with
    | @leaf _ entries _ _ =>
      refine ⟨stack, (entries, startIdx start entries), rfl, hs, ?_⟩
      exact congrArg (· ++ stackRest stack) (drop_startIdx hasc start)
  | succ h ih =>
    cases hg with
    | @internal _ _ keys children h1 h2 _ _ h5 =>
      change Ascending (collectChildren children) at hasc
      obtain ⟨A, c, C, rfl, h6, hA, hC⟩ := firstChild_cases hP h1 h2 h5 hasc start
      rw [collectChildren_middle] at hasc
      have hc := (Ascending.append_iff.mp (Ascending.append_iff.mp hasc).2.1).1
      have hdrop : (A ++ c :: C).drop (A.length + 1) = C := by simp
      have hframe : StackGood P ((.internal keys (A ++ c :: C) (internalChecksum P (A ++ c :: C)), A.length) :: stack) := by
        refine hs.cons fun d hd => ?_
        rw [Frame.remaining, hdrop] at hd
        exact ⟨h, h1 d (by simp [hd])⟩
      obtain ⟨stack', l, h7, h8, h9⟩ := ih (h1 c (by simp)) hc hframe
      refine ⟨stack', l, ?_, h8, ?_⟩
      · rw [initWalk, h6, initWalkChild_append, h7]
      · show _ = (collectChildren (A ++ c :: C)).filter _ ++ _
        have hnone : (collectChildren A).filter (fun e => afterStart start e.1) = [] :=
          filter_eq_nil_iff.mpr fun e he => by simp [hA e he]
        rw [h9, stackRest_cons, Frame.remaining, hdrop, collectChildren_middle, filter_append, filter_append,
          hnone, filter_eq_self.mpr hC, nil_append, append_assoc]

/-! ### The whole scan -/

theorem takeWhile_beforeEnd {l : List (K × V)} (h : Ascending l) (stop : Bound K) :
    (l.takeWhile fun e => beforeEnd stop e.1) = l.filter fun e => beforeEnd stop e.1 := by
  induction l with
  | nil => rfl
  | cons e l ih =>
    obtain ⟨h1, h2⟩ := pairwise_cons.mp h
    rw [takeWhile_cons, filter_cons, ih h2]
    split_ifs with hb
    · rfl
    · -- later keys are past the end too
      refine (filter_eq_nil_iff.mpr fun x hx hbx => hb ?_).symm
      have hlt := h1 x hx
      cases stop with
      | unbounded => rfl
      | included k => simpa [beforeEnd] using hlt.le.trans (by simpa [beforeEnd] using hbx)
      | excluded k => simpa [beforeEnd] using hlt.trans (by simpa [beforeEnd] using hbx)

/-- **A scan yields the entries within the bounds, in order.** -/
theorem Refines.rangeScan (hP : P.Valid) {t : BPlusTree K V} {m : OrdMap K V} (h : Refines P t m)
    (start stop : Bound K) :
    t.rangeScan start stop = some (m.entries.filter fun e => afterStart start e.1 && beforeEnd stop e.1) := by
  obtain ⟨⟨height, hg⟩, hentries, hlen⟩ := h
  have hasc : Ascending (collectAll t.root) := show Ascending t.entries from hentries ▸ m.sorted
  unfold BPlusTree.rangeScan new
  by_cases h0 : t.isEmpty = true
  · have hnil : m.entries = [] := by
      rw [← length_eq_zero_iff, ← hlen]
      simpa [BPlusTree.isEmpty] using h0
    rw [if_pos h0, hnil, bind_some, collect, next_of_exhausted rfl, bind_some]
    rfl
  · obtain ⟨stack, l, h1, h2, h3⟩ := initWalk_spec hP start hg hasc
      (show StackGood P [] by intro f hf; simp at hf)
    obtain ⟨turns, hturns⟩ := Nat.exists_eq_add_of_le (countLeaves_pos hg)
    have hrest : (⟨start, stop, stack, some l, false⟩ : RangeScan K V).rest =
        m.entries.filter fun e => afterStart start e.1 := by
      rw [← hentries]
      exact h3.trans (append_nil _)
    have hall := collect_spec hP turns t.entries.length ⟨start, stop, stack, some l, false⟩ rfl h2 (by
      rw [hrest, hentries]
      exact length_filter_le _ _)
    have hcount : t.leafCount + 1 = turns + 2 := by
      show t.root.countLeaves + 1 = _
      omega
    rw [if_neg h0, h1, map_some, bind_some, hcount, hall, hrest]
    rw [takeWhile_beforeEnd (List.Pairwise.filter _ m.sorted), List.filter_filter]
    exact congrArg some (filter_congr fun e _ => Bool.and_comm _ _)

end Tidefs.Btree
