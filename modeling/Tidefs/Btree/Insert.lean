/-
# Insertion

An insertion changes one leaf, and splits what overflows on the way back. An
overfull node has one item too many, so its two halves are at least half full:
the smaller one is exactly so. The entries of the node, or of its two halves, are
the entries before with the key bound anew (`insertIntoNode_spec`).
-/
import Tidefs.Btree.Shape

namespace Tidefs.Btree

open Ordered Word BTreeNode Option
open List hiding lookup lookup_cons_self

variable {P : Params} {K V : Type}

/-- One node with the given entries, as full as before, or two that share them. -/
def Splits (P : Params) (h : ℕ) (root : Bool) (entries : List (K × V)) : BTreeNode K V × Option (BTreeNode K V) → Prop
  | (n, none) => Good P h root n ∧ collectAll n = entries
  | (n, some right) => Good P h false n ∧ Good P h false right ∧ collectAll n ++ collectAll right = entries

theorem halves_of_overflow {m n : ℕ} (h : n = m + 1) :
    divCeil m 2 ≤ divCeil n 2 ∧ divCeil n 2 ≤ n ∧ n - divCeil n 2 = divCeil m 2 ∧ (1 ≤ m → divCeil n 2 ≤ m) := by
  unfold divCeil
  omega

variable {root : Bool}

theorem splitLeaf_spec {entries : List (K × V)} (hmax : entries.length ≤ P.maxLeaf + 1)
    (hmin : root = false → P.minLeaf ≤ entries.length) (hP : P.Valid) : Splits P 0 root entries (splitLeaf P entries) := by
  unfold splitLeaf
  split_ifs with hfit
  · exact ⟨.leaf hfit hmin, rfl⟩
  · obtain ⟨h1, h2, h3, h4⟩ := halves_of_overflow (show entries.length = P.maxLeaf + 1 by omega)
    have hleft : (entries.take (divCeil entries.length 2)).length = divCeil entries.length 2 := by
      rw [length_take, min_eq_left h2]
    have hright : (entries.drop (divCeil entries.length 2)).length = divCeil P.maxLeaf 2 := by
      rw [length_drop, h3]
    have hhalf : divCeil P.maxLeaf 2 ≤ P.maxLeaf := h1.trans (h4 hP.leaf)
    refine ⟨.leaf ?_ fun _ => ?_, .leaf ?_ fun _ => ?_, take_append_drop _ _⟩
    · rw [hleft]; exact h4 hP.leaf
    · rw [hleft]; exact h1
    · rw [hright]; exact hhalf
    · rw [hright]; exact le_rfl

theorem splitInternal_spec (hP : P.Valid) {h : ℕ} {children : List (BTreeNode K V)}
    (hgood : ∀ c ∈ children, Good P h false c) (h2 : 2 ≤ children.length)
    (hmax : children.length ≤ P.maxInternal + 1) (hmin : root = false → P.minInternal ≤ children.length) :
    ∃ r, splitInternal P children = some r ∧ Splits P (h + 1) root (collectChildren children) r := by
  unfold splitInternal
  by_cases hfit : children.length ≤ P.maxInternal
  · obtain ⟨n, h3, h4, h5⟩ := nodeOver_good hP root hgood h2 hfit hmin
    refine ⟨(n, none), ?_, h4, h5⟩
    rw [h3, bind_some, if_pos hfit]
  · obtain ⟨n, hn⟩ := nodeOver_isSome hP hgood
    obtain ⟨h3, h4, h5, h6⟩ := halves_of_overflow (show children.length = P.maxInternal + 1 by omega)
    have hmin2 : 2 ≤ divCeil P.maxInternal 2 := hP.two_le_minInternal
    have hpos : 1 ≤ P.maxInternal := by have := hP.internal; omega
    set half := divCeil children.length 2
    have hleft : (children.take half).length = half := by
      rw [length_take, min_eq_left h4]
    have hright : (children.drop half).length = divCeil P.maxInternal 2 := by
      rw [length_drop, h5]
    have h7 := h6 hpos
    have hgoodl : ∀ c ∈ children.take half, Good P h false c :=
      fun c hc => hgood c (mem_of_mem_take hc)
    have hgoodr : ∀ c ∈ children.drop half, Good P h false c :=
      fun c hc => hgood c (mem_of_mem_drop hc)
    obtain ⟨l, hl, hlgood, hlall⟩ := nodeOver_good hP false hgoodl (by omega) (by omega) fun _ => by
      rw [hleft]; exact h3
    obtain ⟨r, hr, hrgood, hrall⟩ := nodeOver_good hP false hgoodr (by omega) (by omega) fun _ => by
      rw [hright]; exact le_rfl
    refine ⟨(l, some r), ?_, hlgood, hrgood, ?_⟩
    · rw [hn, bind_some, if_neg hfit, hl, bind_some, hr, map_some]
    · rw [hlall, hrall, ← collectChildren_append, take_append_drop]

/-- The children after one of them took an entry. -/
theorem splits_children {h : ℕ} {l : List (K × V)} {A C : List (BTreeNode K V)}
    (hgood : ∀ x ∈ A ++ C, Good P h false x) {n : BTreeNode K V} {split : Option (BTreeNode K V)}
    (hs : Splits P h false l (n, split)) : (∀ x ∈ A ++ n :: (split.toList ++ C), Good P h false x) ∧
      collectChildren (A ++ n :: (split.toList ++ C)) = collectChildren A ++ (l ++ collectChildren C) := by
  cases split with
  | none =>
    obtain ⟨h1, rfl⟩ := hs
    refine ⟨fun x hx => ?_, collectChildren_middle A n C⟩
    have hx' : x = n ∨ x ∈ A ++ C := by
      simp only [toList_none, nil_append, mem_append, mem_cons] at hx ⊢
      tauto
    rcases hx' with rfl | hx'
    · exact h1
    · exact hgood x hx'
  | some right =>
    obtain ⟨h1, h2, rfl⟩ := hs
    refine ⟨fun x hx => ?_, ?_⟩
    · have hx' : x = n ∨ x = right ∨ x ∈ A ++ C := by
        simp only [toList_some, singleton_append, mem_append, mem_cons] at hx ⊢
        tauto
      rcases hx' with rfl | rfl | hx'
      · exact h1
      · exact h2
      · exact hgood x hx'
    · rw [toList_some, singleton_append, collectChildren_middle, collectChildren_cons, append_assoc]

variable [LinearOrder K]

theorem insertIntoChild_append (key : K) (value : V) (c : BTreeNode K V) (C : List (BTreeNode K V)) :
    ∀ A : List (BTreeNode K V), insertIntoChild P key value A.length (A ++ c :: C) =
      (insertIntoNode P key value c).map fun r => (A ++ r.1 :: (r.2.2.toList ++ C), r.2.1)
  | [] => rfl
  | a :: A => by
    rw [cons_append, length_cons, insertIntoChild, insertIntoChild_append key value c C A, Option.map_map]
    rfl

/-- **An insertion binds the key, returns the old binding and keeps the shape.** -/
theorem insertIntoNode_spec (hP : P.Valid) (key : K) (value : V) {h : ℕ} {n : BTreeNode K V}
    (hg : Good P h root n) (hasc : Ascending (collectAll n)) :
    ∃ n' split, insertIntoNode P key value n = some (n', lookup key (collectAll n), split) ∧
      Splits P h root (OrdMap.insertList key value (collectAll n)) (n', split) := by
  induction h generalizing root n with
  | zero =>
    cases hg with
    | @leaf _ entries hmax hmin =>
      rw [leafOver, collectAll] at hasc ⊢
      rw [insertIntoNode]
      rcases searchKey_cases hasc key with ⟨A, v, C, rfl, h1, hA, hC⟩ | ⟨A, C, rfl, h1, hA, hC⟩
      · -- the entry is replaced in its place
        have hlen : (A ++ (key, value) :: C).length = (A ++ (key, v) :: C).length := by simp
        refine ⟨leafOver P (A ++ (key, value) :: C), none, ?_, .leaf (hlen ▸ hmax) fun hr => hlen ▸ hmin hr, ?_⟩
        · rw [h1, lookup_append_below hA, lookup_cons_self, leafOver, hlen]
          simp
        · rw [insertList_hit value v hA]
          rfl
      · have hlen : (A ++ (key, value) :: C).length = (A ++ C).length + 1 := by simp; omega
        refine ⟨(splitLeaf P (A ++ (key, value) :: C)).1, (splitLeaf P (A ++ (key, value) :: C)).2, ?_, ?_⟩
        · rw [h1, lookup_append_below hA, lookup_eq_none_of_above hC]
          simp only [insertIdx_length_append]
        · rw [insertList_cut value hA hC]
          exact splitLeaf_spec (by omega) (fun hr => (hmin hr).trans (by omega)) hP
  | succ h ih =>
    cases hg with
    | @internal _ _ keys children h1 h2 hmax hmin hkeys =>
      obtain ⟨A, c, C, rfl, -, h6, hA, hC⟩ := route_cases hP h1 h2 hkeys hasc key
      rw [collectAll, collectChildren_middle] at hasc ⊢
      have hcasc := (Ascending.append_iff.mp (Ascending.append_iff.mp hasc).2.1).1
      obtain ⟨c', split, hc, hs⟩ := ih (h1 c (by simp)) hcasc
      obtain ⟨hgood, hall⟩ := splits_children (A := A) (C := C) (fun x hx => h1 x (by
        rcases mem_append.mp hx with hx | hx <;> simp [hx])) hs
      -- one child more at most
      have hlen : (A ++ c :: C).length ≤ (A ++ c' :: (split.toList ++ C)).length ∧
          (A ++ c' :: (split.toList ++ C)).length ≤ (A ++ c :: C).length + 1 := by
        cases split with
        | none => simp
        | some right => simp; omega
      obtain ⟨r, hr, hrs⟩ := splitInternal_spec hP hgood (h2.trans hlen.1) (hlen.2.trans (by omega))
        fun hroot => (hmin hroot).trans hlen.1
      rw [hall] at hrs
      refine ⟨r.1, r.2, ?_, ?_⟩
      · rw [insertIntoNode, h6, insertIntoChild_append, hc, map_some, bind_some, hr, map_some,
          lookup_append_below hA, lookup_append_above hC]
      · rw [insertList_append_below value hA, insertList_append_above value hC]
        exact hrs

end Tidefs.Btree
