/-
# Ascending association lists

The lists behind `OrdMap`, cut at a key: what lies before the key and what lies
after it does not matter to a lookup, a binding, a removal or a search for the
greatest key at or below. A binary search on such a list finds the cut
(`searchKey_cases`), and positions become the two parts.
-/
import Tidefs.Lib.Ordered

namespace Tidefs.Ordered

open List Option OrdMap

/-! ### Searching a slice -/

section Slice

variable {α : Type*}

/-- `binary_search_by` on a slice sorted for `cmp`: the position of the element
that compares equal, or else the position to insert it at. -/
def binarySearchBy (cmp : α → Ordering) : List α → Except ℕ ℕ
  | [] => .error 0
  | x :: l =>
    match cmp x with
    | .lt =>
      match binarySearchBy cmp l with
      | .ok i => .ok (i + 1)
      | .error i => .error (i + 1)
    | .eq => .ok 0
    | .gt => .error 0

/-- `partition_point` on a slice partitioned by `p`: the number of elements that
satisfy it. -/
def partitionPoint (p : α → Bool) (l : List α) : ℕ := (l.takeWhile p).length

/-- The elements before the position found compare less, and the one there does not. -/
theorem binarySearchBy_cases (cmp : α → Ordering) : ∀ l : List α,
    (∃ A x C, l = A ++ x :: C ∧ binarySearchBy cmp l = .ok A.length ∧ (∀ a ∈ A, cmp a = .lt) ∧ cmp x = .eq) ∨
    ∃ A C, l = A ++ C ∧ binarySearchBy cmp l = .error A.length ∧ (∀ a ∈ A, cmp a = .lt) ∧ ∀ x ∈ C.head?, cmp x = .gt
  | [] => .inr ⟨[], [], rfl, rfl, by simp, by simp⟩
  | x :: l => by
    rw [binarySearchBy]
    cases hx : cmp x with
    | lt =>
      rcases binarySearchBy_cases cmp l with ⟨A, y, C, rfl, h1, h2, h3⟩ | ⟨A, C, rfl, h1, h2, h3⟩
      · exact .inl ⟨x :: A, y, C, rfl, by rw [h1]; rfl, forall_mem_cons.mpr ⟨hx, h2⟩, h3⟩
      · exact .inr ⟨x :: A, C, rfl, by rw [h1]; rfl, forall_mem_cons.mpr ⟨hx, h2⟩, h3⟩
    | eq => exact .inl ⟨[], x, l, rfl, rfl, by simp, hx⟩
    | gt => exact .inr ⟨[], x :: l, rfl, rfl, by simp, by simpa using hx⟩

theorem insertIdx_length_append (x : α) : ∀ A C : List α, (A ++ C).insertIdx A.length x = A ++ x :: C
  | [], C => by simp
  | a :: A, C => by simp [insertIdx_length_append x A C]

theorem set_length_append (x y : α) (A C : List α) : (A ++ y :: C).set A.length x = A ++ x :: C := by
  simp

theorem eraseIdx_length_append (y : α) (A C : List α) : (A ++ y :: C).eraseIdx A.length = A ++ C := by
  rw [eraseIdx_append_of_length_le le_rfl]
  simp

end Slice

/-! ### The list cut at a key -/

variable {κ β : Type*} [LinearOrder κ]

/-- The keys strictly ascend. -/
def Ascending (l : List (κ × β)) : Prop := l.Pairwise fun a b => a.1 < b.1

def Below (l : List (κ × β)) (k : κ) : Prop := ∀ e ∈ l, e.1 < k

def Above (l : List (κ × β)) (k : κ) : Prop := ∀ e ∈ l, k < e.1

def lookup (k : κ) (l : List (κ × β)) : Option β := (l.find? fun e => e.1 = k).map Prod.snd

/-- The list without the key. -/
def eraseList (k : κ) (l : List (κ × β)) : List (κ × β) := l.filter (·.1 ≠ k)

/-- The last entry whose key is at or below `k`. -/
def floor (k : κ) (l : List (κ × β)) : Option (κ × β) := (l.filter (·.1 ≤ k)).getLast?

variable {A B C : List (κ × β)} {k : κ}

theorem Ascending.append_iff : Ascending (A ++ B) ↔
    Ascending A ∧ Ascending B ∧ ∀ a ∈ A, ∀ b ∈ B, a.1 < b.1 := pairwise_append

theorem lookup_eq_none_of_below (h : Below A k) : lookup k A = none := by
  simp only [lookup, map_eq_none_iff, find?_eq_none, decide_eq_true_eq]
  exact fun e he => (h e he).ne

theorem lookup_eq_none_of_above (h : Above A k) : lookup k A = none := by
  simp only [lookup, map_eq_none_iff, find?_eq_none, decide_eq_true_eq]
  exact fun e he => (h e he).ne'

theorem lookup_append : lookup k (A ++ B) = (lookup k A).or (lookup k B) := by
  unfold lookup
  rw [find?_append]
  cases A.find? fun e => e.1 = k with
  | none => simp
  | some e => simp

theorem lookup_append_below (h : Below A k) : lookup k (A ++ B) = lookup k B := by
  rw [lookup_append, lookup_eq_none_of_below h, none_or]

theorem lookup_append_above (h : Above C k) : lookup k (B ++ C) = lookup k B := by
  rw [lookup_append, lookup_eq_none_of_above h, or_none]

theorem lookup_cons_self (v : β) (l : List (κ × β)) : lookup k ((k, v) :: l) = some v := by simp [lookup]

theorem lookup_cons_ne {e : κ × β} (l : List (κ × β)) (h : e.1 ≠ k) : lookup k (e :: l) = lookup k l := by
  simp [lookup, h]

variable {l : List (κ × β)}

theorem lookup_eq_some_iff (h : (l.map Prod.fst).Nodup) {v : β} : lookup k l = some v ↔ (k, v) ∈ l :=
  find?_eq_some_iff h

/-- A key that stands once is found wherever it stands. -/
theorem lookup_perm {l' : List (κ × β)} (h : (l.map Prod.fst).Nodup) (hl : l.Perm l') (k : κ) :
    lookup k l' = lookup k l := by
  refine ext fun v => ?_
  rw [lookup_eq_some_iff h, lookup_eq_some_iff ((hl.map Prod.fst).nodup_iff.mp h), hl.mem_iff]

theorem insertList_append_below (v : β) : ∀ {A : List (κ × β)}, Below A k →
    insertList k v (A ++ B) = A ++ insertList k v B
  | [], _ => rfl
  | a :: A, h => by
    have ha : a.1 < k := h a (mem_cons_self ..)
    have ih := insertList_append_below v (A := A) fun e he => h e (mem_cons_of_mem _ he)
    rw [cons_append, insertList, if_neg (not_lt.mpr ha.le), if_neg ha.ne', ih, cons_append]

theorem insertList_of_above (v : β) (h : Above C k) : insertList k v C = (k, v) :: C := by
  cases C with
  | nil => rfl
  | cons c C => rw [insertList, if_pos (h c (mem_cons_self ..))]

theorem insertList_append_above (v : β) (h : Above C k) : ∀ B : List (κ × β),
    insertList k v (B ++ C) = insertList k v B ++ C
  | [] => insertList_of_above v h
  | b :: B => by
    rw [cons_append, insertList, insertList]
    split_ifs with h1 h2
    · rfl
    · rfl
    · rw [insertList_append_above v h B, cons_append]

/-- A key that is not there goes to the cut. -/
theorem insertList_cut (v : β) (hA : Below A k) (hC : Above C k) :
    insertList k v (A ++ C) = A ++ (k, v) :: C := by
  rw [insertList_append_below v hA, insertList_of_above v hC]

/-- A key that is there gets the new binding. -/
theorem insertList_hit (v w : β) (hA : Below A k) : insertList k v (A ++ (k, w) :: C) = A ++ (k, v) :: C := by
  rw [insertList_append_below v hA, insertList, if_neg (lt_irrefl k), if_pos rfl]

theorem eraseList_append : eraseList k (A ++ B) = eraseList k A ++ eraseList k B := filter_append ..

theorem eraseList_of_lookup_none (h : lookup k A = none) : eraseList k A = A := by
  simp only [lookup, map_eq_none_iff, find?_eq_none, decide_eq_true_eq] at h
  exact filter_eq_self.mpr fun e he => by simpa using h e he

theorem eraseList_hit (v : β) (hA : Below A k) (hC : Above C k) : eraseList k (A ++ (k, v) :: C) = A ++ C := by
  have hcons : eraseList k ((k, v) :: C) = eraseList k C := by simp [eraseList]
  rw [eraseList_append, hcons, eraseList_of_lookup_none (lookup_eq_none_of_below hA),
    eraseList_of_lookup_none (lookup_eq_none_of_above hC)]

theorem floor_append : floor k (A ++ B) = (floor k B).or (floor k A) := by
  unfold floor
  rw [filter_append, getLast?_append]

theorem floor_of_above (h : Above C k) : floor k C = none := by
  have hnil : C.filter (·.1 ≤ k) = [] := filter_eq_nil_iff.mpr fun e he => by simpa using h e he
  rw [floor, hnil, getLast?_nil]

theorem floor_of_below (h : Below A k) : floor k A = A.getLast? := by
  have hall : A.filter (·.1 ≤ k) = A := filter_eq_self.mpr fun e he => by simpa using (h e he).le
  rw [floor, hall]

theorem floor_hit (v : β) (hC : Above C k) : floor k (A ++ (k, v) :: C) = some (k, v) := by
  have hsingle : floor k [(k, v)] = some (k, v) := by simp [floor]
  rw [show A ++ (k, v) :: C = A ++ ([(k, v)] ++ C) by simp, floor_append, floor_append, floor_of_above hC, hsingle]
  rfl

/-- What comes before an entry at or below the key is below it. -/
theorem below_of_first (h : Ascending (A ++ B)) {k' : κ} (hB : B.head?.map Prod.fst = some k') (hk : k' ≤ k) :
    Below A k := by
  obtain ⟨e, he, rfl⟩ := map_eq_some_iff.mp hB
  exact fun a ha => ((Ascending.append_iff.mp h).2.2 a ha e (mem_of_mem_head? he)).trans_le hk

/-- What starts above the key is above it. -/
theorem above_of_first (h : Ascending C) {k' : κ} (hC : C.head?.map Prod.fst = some k') (hk : k < k') : Above C k := by
  obtain ⟨e, he, rfl⟩ := map_eq_some_iff.mp hC
  cases C with
  | nil => simp at he
  | cons c C =>
    obtain rfl : c = e := some.inj he
    exact forall_mem_cons.mpr ⟨hk, fun x hx => hk.trans ((pairwise_cons.mp h).1 x hx)⟩

def searchKey (l : List (κ × β)) (k : κ) : Except ℕ ℕ := binarySearchBy (fun e => compare e.1 k) l

/-- A binary search for a key cuts an ascending list at the key. -/
theorem searchKey_cases (h : Ascending l) (k : κ) :
    (∃ A v C, l = A ++ (k, v) :: C ∧ binarySearchBy (fun e => compare e.1 k) l = .ok A.length ∧ Below A k ∧ Above C k) ∨
    ∃ A C, l = A ++ C ∧ binarySearchBy (fun e => compare e.1 k) l = .error A.length ∧ Below A k ∧ Above C k := by
  rcases binarySearchBy_cases (fun e : κ × β => compare e.1 k) l with ⟨A, x, C, rfl, h1, h2, h3⟩ | ⟨A, C, rfl, h1, h2, h3⟩
  · obtain ⟨a, v⟩ := x
    obtain rfl : a = k := compare_eq_iff_eq.mp h3
    obtain ⟨-, hC, -⟩ := Ascending.append_iff.mp h
    refine .inl ⟨A, v, C, rfl, h1, fun e he => compare_lt_iff_lt.mp (h2 e he), ?_⟩
    exact fun e he => (pairwise_cons.mp hC).1 e he
  · obtain ⟨-, hC, -⟩ := Ascending.append_iff.mp h
    refine .inr ⟨A, C, rfl, h1, fun e he => compare_lt_iff_lt.mp (h2 e he), ?_⟩
    cases C with
    | nil => exact fun e he => absurd he (by simp)
    | cons c C =>
      have hc : k < c.1 := compare_gt_iff_gt.mp (h3 c rfl)
      exact forall_mem_cons.mpr ⟨hc, fun e he => hc.trans ((pairwise_cons.mp hC).1 e he)⟩

theorem perm_insertList (hl : Ascending l) {v : β} (hk : lookup k l = none) :
    (insertList k v l).Perm ((k, v) :: l) := by
  rcases searchKey_cases hl k with ⟨A, w, C, hcut, -, hA, -⟩ | ⟨A, C, hcut, -, hA, hC⟩
  · rw [hcut, lookup_append_below hA, lookup_cons_self] at hk
    exact nomatch hk
  · rw [hcut, insertList_cut v hA hC]
    exact perm_middle

/-- Bindings whose values are computed from them. -/
theorem insertList_map {γ : Type*} (f : κ × β → γ) (k : κ) (v : β) : ∀ l : List (κ × β),
    insertList k (f (k, v)) (l.map fun e => (e.1, f e)) = (insertList k v l).map fun e => (e.1, f e)
  | [] => rfl
  | e :: l => by
    rw [map_cons, insertList, insertList]
    split_ifs
    · rfl
    · rfl
    · rw [map_cons, insertList_map f k v l]

/-- Ascending bindings are determined by which they are. -/
theorem eq_of_ascending_perm {a b : List (κ × β)} (ha : Ascending a) (hb : Ascending b) (h : a.Perm b) : a = b :=
  h.eq_of_pairwise (fun p _ _ _ hpq hqp => absurd (hpq.trans hqp) (lt_irrefl p.1)) ha hb

theorem OrdMap.eq_of_perm {m m' : OrdMap κ β} (h : m.entries.Perm m'.entries) : m = m' := by
  have hentries := eq_of_ascending_perm m.sorted m'.sorted h
  cases m
  cases m'
  simpa using hentries

/-- Maps with the same bindings are one map. -/
theorem OrdMap.ext_get? {m m' : OrdMap κ β} (h : ∀ k, m.get? k = m'.get? k) : m = m' := by
  refine eq_of_perm ((perm_ext_iff_of_nodup (List.Nodup.of_map _ m.keys_nodup)
    (List.Nodup.of_map _ m'.keys_nodup)).mpr fun e => ?_)
  rw [← get?_eq_some, ← get?_eq_some, h]

theorem OrdMap.insert_erase_self (m : OrdMap κ β) (k : κ) (v : β) : (m.erase k).insert k v = m.insert k v := by
  refine ext_get? fun k' => ?_
  rw [get?_insert, get?_insert, get?_erase]
  split_ifs <;> rfl

theorem OrdMap.erase_comm (m : OrdMap κ β) (k k' : κ) : (m.erase k).erase k' = (m.erase k').erase k := by
  refine ext_get? fun x => ?_
  rw [get?_erase, get?_erase, get?_erase, get?_erase]
  split_ifs <;> rfl

end Tidefs.Ordered
