/-
# The shape of a tree

A tree is well shaped if its leaves are at one depth, every node but the root is
at least half full and none is too full, separators are the smallest keys of the
children to their right, and checksums are current (`Good`). In such a tree the
child a key is routed to is the only one that can hold it (`route_cases`), so the
read operations agree with the list of all entries.
-/
import Tidefs.Btree.Tree

namespace Tidefs.Btree

open Ordered Word BTreeNode Option Ascending
open List hiding lookup lookup_cons_self not_le

/-- The fanouts of the tree: a leaf holds an entry, and half an overfull internal
node holds two children. -/
structure Params.Valid (P : Params) : Prop where
  leaf : 1 ≤ P.maxLeaf
  internal : 3 ≤ P.maxInternal

theorem Params.Valid.minLeaf_pos {P : Params} (h : P.Valid) : 1 ≤ P.minLeaf := by
  have := h.leaf
  unfold Params.minLeaf divCeil
  omega

theorem Params.Valid.two_le_minInternal {P : Params} (h : P.Valid) : 2 ≤ P.minInternal := by
  have := h.internal
  unfold Params.minInternal divCeil
  omega

variable {P : Params} {K V : Type}

/-- A well-shaped node of height `h`; the root is exempt from the lower bounds. -/
inductive Good (P : Params) : ℕ → Bool → BTreeNode K V → Prop
  | leaf {root : Bool} {entries : List (K × V)} : entries.length ≤ P.maxLeaf →
    (root = false → P.minLeaf ≤ entries.length) → Good P 0 root (leafOver P entries)
  | internal {h : ℕ} {root : Bool} {keys : List K} {children : List (BTreeNode K V)} :
    (∀ c ∈ children, Good P h false c) → 2 ≤ children.length → children.length ≤ P.maxInternal →
    (root = false → P.minInternal ≤ children.length) → (children.drop 1).mapM minKey = some keys →
    Good P (h + 1) root (.internal keys children (internalChecksum P children))

/-! ### Lists of children -/

@[simp] theorem collectChildren_nil : collectChildren ([] : List (BTreeNode K V)) = [] := rfl

@[simp] theorem collectChildren_cons (c : BTreeNode K V) (cs : List (BTreeNode K V)) :
    collectChildren (c :: cs) = collectAll c ++ collectChildren cs := rfl

theorem collectChildren_append : ∀ A B : List (BTreeNode K V),
    collectChildren (A ++ B) = collectChildren A ++ collectChildren B
  | [], _ => rfl
  | a :: A, B => by simp [collectChildren_append A B]

/-- The parts of the entries around a child. -/
theorem collectChildren_middle (A : List (BTreeNode K V)) (c : BTreeNode K V) (C : List (BTreeNode K V)) :
    collectChildren (A ++ c :: C) = collectChildren A ++ (collectAll c ++ collectChildren C) := by
  rw [collectChildren_append, collectChildren_cons]

theorem maxEntryLast_concat : ∀ (A : List (BTreeNode K V)) (c : BTreeNode K V), maxEntryLast (A ++ [c]) = maxEntry c
  | [], _ => rfl
  | [_], _ => rfl
  | _ :: b :: A, c => maxEntryLast_concat (b :: A) c

theorem forall₂_of_mapM {α β : Type} {f : α → Option β} : ∀ {l : List α} {l' : List β}, l.mapM f = some l' →
    List.Forall₂ (fun a b => f a = some b) l l'
  | [], l', h => by
    obtain rfl : [] = l' := some.inj h
    exact .nil
  | a :: l, l', h => by
    rw [mapM_cons] at h
    obtain ⟨b, hb, h⟩ := bind_eq_some_iff.mp h
    obtain ⟨bs, hbs, h⟩ := bind_eq_some_iff.mp h
    obtain rfl : b :: bs = l' := some.inj h
    exact .cons hb (forall₂_of_mapM hbs)

theorem mapM_of_forall {α β : Type} {f : α → Option β} : ∀ {l : List α}, (∀ a ∈ l, ∃ b, f a = some b) →
    ∃ l', l.mapM f = some l'
  | [], _ => ⟨[], rfl⟩
  | a :: l, h => by
    obtain ⟨b, hb⟩ := h a (mem_cons_self ..)
    obtain ⟨bs, hbs⟩ := mapM_of_forall fun x hx => h x (mem_cons_of_mem _ hx)
    refine ⟨b :: bs, ?_⟩
    rw [mapM_cons, hb, hbs]
    rfl

/-! ### The ends of a well-shaped node -/

/-- A well-shaped internal node has a first and a second child. -/
theorem exists_cons_of_two_le {cs : List (BTreeNode K V)} (h : 2 ≤ cs.length) : ∃ c cs', cs = c :: cs' := by
  cases cs with
  | nil => simp at h
  | cons c cs => exact ⟨c, cs, rfl⟩

variable {h : ℕ} {n : BTreeNode K V} {root : Bool} {children : List (BTreeNode K V)} (hP : P.Valid)
include hP

/-- Only the root can be empty. -/
theorem Good.collectAll_ne_nil (hg : Good P h false n) : collectAll n ≠ [] := by
  induction h generalizing n with
  | zero =>
    cases hg with
    | @leaf _ entries _ h2 =>
      intro he
      have h3 := h2 rfl
      have h4 := hP.minLeaf_pos
      have h5 : entries.length = 0 := length_eq_zero_iff.mpr he
      omega
  | succ h ih =>
    cases hg with
    | internal h1 h2 _ _ _ =>
      obtain ⟨c, cs, rfl⟩ := exists_cons_of_two_le h2
      intro he
      exact ih (h1 c (mem_cons_self ..)) (append_eq_nil_iff.mp he).1

theorem minKey_eq (hg : Good P h root n) : minKey n = (collectAll n).head?.map Prod.fst := by
  induction h generalizing root n with
  | zero => cases hg; rfl
  | succ h ih =>
    cases hg with
    | internal h1 h2 _ _ _ =>
      obtain ⟨c, cs, rfl⟩ := exists_cons_of_two_le h2
      have hc := h1 c (mem_cons_self ..)
      show minKey c = ((collectAll c ++ collectChildren cs).head?).map Prod.fst
      rw [ih hc, head?_append_of_ne_nil _ (hc.collectAll_ne_nil hP)]

theorem maxEntry_eq (hg : Good P h root n) : maxEntry n = (collectAll n).getLast? := by
  induction h generalizing root n with
  | zero => cases hg; rfl
  | succ h ih =>
    cases hg with
    | @internal _ _ _ children h1 h2 _ _ _ =>
      rcases eq_nil_or_concat children with rfl | ⟨cs, c, rfl⟩
      · simp at h2
      · rw [concat_eq_append] at h1 ⊢
        have hc := h1 c (by simp)
        show maxEntryLast (cs ++ [c]) = (collectChildren (cs ++ [c])).getLast?
        rw [maxEntryLast_concat, ih hc, collectChildren_middle, collectChildren_nil, append_nil,
          getLast?_append_of_ne_nil _ (hc.collectAll_ne_nil hP)]

theorem exists_minKey (hg : Good P h false n) : ∃ k, minKey n = some k := by
  cases he : (collectAll n).head? with
  | none => exact absurd (head?_eq_none_iff.mp he) (hg.collectAll_ne_nil hP)
  | some e => exact ⟨e.1, by rw [minKey_eq hP hg, he]; rfl⟩

/-- An internal node can be built over well-shaped children. -/
theorem nodeOver_good (root : Bool)
    (hgood : ∀ c ∈ children, Good P h false c) (h2 : 2 ≤ children.length) (hmax : children.length ≤ P.maxInternal)
    (hmin : root = false → P.minInternal ≤ children.length) :
    ∃ n, nodeOver P children = some n ∧ Good P (h + 1) root n ∧ collectAll n = collectChildren children := by
  obtain ⟨keys, hkeys⟩ := mapM_of_forall (f := minKey) (l := children.drop 1) fun c hc =>
    exists_minKey hP (hgood c (mem_of_mem_drop hc))
  refine ⟨.internal keys children (internalChecksum P children), ?_, .internal hgood h2 hmax hmin hkeys, rfl⟩
  rw [nodeOver, hkeys, map_some]

/-- The separators of more children than fit, which the node gets before it is split. -/
theorem nodeOver_isSome (hgood : ∀ c ∈ children, Good P h false c) : ∃ n, nodeOver P children = some n := by
  obtain ⟨keys, hkeys⟩ := mapM_of_forall (f := minKey) (l := children.drop 1) fun c hc =>
    exists_minKey hP (hgood c (mem_of_mem_drop hc))
  exact ⟨_, by rw [nodeOver, hkeys, map_some]⟩

/-! ### Routing -/

variable [LinearOrder K]

/-- **A key is routed to the only child that can hold it.** The entries of the
children before it are below the key, those of the children after it above. -/
theorem route_cases {keys : List K} (hgood : ∀ c ∈ children, Good P h false c) (h2 : 2 ≤ children.length)
    (hkeys : (children.drop 1).mapM minKey = some keys) (hasc : Ascending (collectChildren children)) (key : K) :
    ∃ A c C, children = A ++ c :: C ∧ childIndex keys key = some A.length ∧
      partitionPoint (fun separator => decide (separator ≤ key)) keys = A.length ∧
      Below (collectChildren A) key ∧ Above (collectChildren C) key := by
  obtain ⟨c₀, cs, rfl⟩ := exists_cons_of_two_le h2
  have hrel := forall₂_of_mapM hkeys
  rw [drop_one, tail_cons] at hrel
  rcases binarySearchBy_cases (fun k => if key < k then Ordering.gt else Ordering.lt) keys with
    ⟨A', x, C', rfl, h3, h4, h5⟩ | ⟨A', C', rfl, h3, h4, h5⟩
  · -- no separator compares equal
    split_ifs at h5
  · have hA' : ∀ k ∈ A', k ≤ key := fun k hk => by
      have := h4 k hk
      by_contra hlt
      rw [if_pos (not_le.mp hlt)] at this
      exact Ordering.noConfusion this
    have hC' : ∀ k ∈ C'.head?, key < k := fun k hk => by
      have := h5 k hk
      by_contra hlt
      rw [if_neg hlt] at this
      exact Ordering.noConfusion this
    have hindex : childIndex (A' ++ C') key = some A'.length := by rw [childIndex, h3]
    have hpoint : partitionPoint (fun separator => decide (separator ≤ key)) (A' ++ C') = A'.length := by
      rw [partitionPoint, takeWhile_append_of_pos fun k hk => by simpa using hA' k hk]
      cases C' with
      | nil => simp
      | cons k C' => simp [hC' k rfl]
    -- the children at the separators up to the key, and those after it
    have hAs := forall₂_take_append _ _ _ hrel
    have hCs := forall₂_drop_append _ _ _ hrel
    have hcut := (take_append_drop A'.length cs).symm
    generalize cs.take A'.length = As at hAs hcut
    generalize cs.drop A'.length = Cs at hCs hcut
    subst hcut
    have habove : Ascending (collectChildren Cs) → Above (collectChildren Cs) key := by
      intro hCsAsc
      cases hCs with
      | nil => exact fun e he => absurd he (by simp)
      | @cons d k ds ks hdk _ =>
        have hd := hgood d (by simp)
        have hfirst : (collectChildren (d :: ds)).head?.map Prod.fst = some k := by
          rw [collectChildren_cons, head?_append_of_ne_nil _ (hd.collectAll_ne_nil hP), ← minKey_eq hP hd, hdk]
        exact above_of_first hCsAsc hfirst (hC' k rfl)
    rcases eq_nil_or_concat As with rfl | ⟨As', c, rfl⟩
    · obtain rfl : A' = [] := forall₂_nil_left_iff.mp hAs
      refine ⟨[], c₀, Cs, rfl, hindex, hpoint, fun e he => absurd he (by simp), habove ?_⟩
      rw [nil_append, collectChildren_cons] at hasc
      exact (append_iff.mp hasc).2.1
    · rw [concat_eq_append] at hAs hgood hasc ⊢
      have hlen := hAs.length_eq
      -- the last separator up to the key is the smallest key of the child
      obtain ⟨k, hk, hck⟩ : ∃ k ∈ A', minKey c = some k := by
        rcases eq_nil_or_concat A' with rfl | ⟨A'', k, rfl⟩
        · simp at hlen
        · rw [concat_eq_append] at hAs hlen ⊢
          have hlast := forall₂_drop_append _ _ _ hAs
          have hlen' : A''.length = As'.length := by simpa using hlen.symm
          rw [hlen', drop_left] at hlast
          exact ⟨k, by simp, (forall₂_cons.mp hlast).1⟩
      have hc := hgood c (by simp)
      have hsplit : c₀ :: (As' ++ [c] ++ Cs) = (c₀ :: As') ++ c :: Cs := by simp
      rw [hsplit, collectChildren_middle] at hasc
      refine ⟨c₀ :: As', c, Cs, hsplit, ?_, ?_, ?_, habove ?_⟩
      · rw [hindex, ← hlen]
        simp
      · rw [hpoint, ← hlen]
        simp
      · have hfirst : (collectAll c ++ collectChildren Cs).head?.map Prod.fst = some k := by
          rw [head?_append_of_ne_nil _ (hc.collectAll_ne_nil hP), ← minKey_eq hP hc, hck]
        exact below_of_first hasc hfirst (hA' k hk)
      · exact (append_iff.mp (append_iff.mp hasc).2.1).2.1

omit hP

/-! ### Reading -/

theorem getInChild_append (key : K) (c : BTreeNode K V) (C : List (BTreeNode K V)) : ∀ A : List (BTreeNode K V),
    getInChild key A.length (A ++ c :: C) = getInNode key c
  | [] => rfl
  | _ :: A => getInChild_append key c C A

/-- `get` finds what the list of all entries has. -/
theorem getInNode_eq (hP : P.Valid) (key : K) (hg : Good P h root n)
    (hasc : Ascending (collectAll n)) : getInNode key n = some (lookup key (collectAll n)) := by
  induction h generalizing root n with
  | zero =>
    cases hg with
    | @leaf _ entries _ _ =>
      rw [leafOver, collectAll] at hasc ⊢
      rw [getInNode]
      rcases searchKey_cases hasc key with ⟨A, v, C, rfl, h1, hA, hC⟩ | ⟨A, C, rfl, h1, hA, hC⟩
      · rw [h1, lookup_append_below hA, lookup_cons_self]
        simp
      · rw [h1, lookup_append_below hA, lookup_eq_none_of_above hC]
  | succ h ih =>
    cases hg with
    | @internal _ _ keys children h1 h2 _ _ h5 =>
      obtain ⟨A, c, C, rfl, h6, -, hA, hC⟩ := route_cases hP h1 h2 h5 hasc key
      rw [collectAll, collectChildren_middle] at hasc ⊢
      have hc := (append_iff.mp (append_iff.mp hasc).2.1).1
      rw [getInNode, h6, bind_some, getInChild_append, ih (h1 c (by simp)) hc, lookup_append_below hA,
        lookup_append_above hC]

theorem floorInChild_append (key : K) (c : BTreeNode K V) (C : List (BTreeNode K V)) : ∀ A : List (BTreeNode K V),
    floorInChild key A.length (A ++ c :: C) = floorEntry key c
  | [] => rfl
  | _ :: A => floorInChild_append key c C A

/-- `floor_entry` finds what the list of all entries has. -/
theorem floorEntry_eq (hP : P.Valid) (key : K) (hg : Good P h root n)
    (hasc : Ascending (collectAll n)) : floorEntry key n = some (floor key (collectAll n)) := by
  induction h generalizing root n with
  | zero =>
    cases hg with
    | @leaf _ entries _ _ =>
      rw [leafOver, collectAll] at hasc ⊢
      rw [floorEntry]
      rcases searchKey_cases hasc key with ⟨A, v, C, rfl, h1, hA, hC⟩ | ⟨A, C, rfl, h1, hA, hC⟩
      · rw [h1, floor_hit v hC]
        simp
      · rw [h1, floor_append, floor_of_above hC, floor_of_below hA, none_or]
        rcases eq_nil_or_concat A with rfl | ⟨A', e, rfl⟩
        · rfl
        · rw [concat_eq_append, length_append]
          simp
  | succ h ih =>
    cases hg with
    | @internal _ _ keys children h1 h2 _ _ h5 =>
      obtain ⟨A, c, C, rfl, h6, -, hA, hC⟩ := route_cases hP h1 h2 h5 hasc key
      rw [collectAll, collectChildren_middle] at hasc ⊢
      have hc := (append_iff.mp (append_iff.mp hasc).2.1).1
      rw [floorEntry, h6, bind_some, floorInChild_append, ih (h1 c (by simp)) hc, bind_some,
        floor_append, floor_append, floor_of_above hC, none_or]
      cases hf : floor key (collectAll c) with
      | some e => rfl
      | none =>
        -- the greatest entry before the child is that of the child to its left
        rw [none_or, floor_of_below hA]
        rcases eq_nil_or_concat A with rfl | ⟨A', d, rfl⟩
        · rfl
        · rw [concat_eq_append] at h1 ⊢
          have hd := h1 d (by simp)
          have hlast : (collectChildren (A' ++ [d])).getLast? = maxEntry d := by
            rw [collectChildren_middle, collectChildren_nil, append_nil,
              getLast?_append_of_ne_nil _ (hd.collectAll_ne_nil hP), maxEntry_eq hP hd]
          rw [hlast]
          simp

end Tidefs.Btree
