/-
# Ordered sets and maps

A finite set, and a finite map, over a linear order, each kept as the strictly
ascending list of its members: the order in which an ordered collection is
iterated. The order is a field, so a value that is out of order or holds a key
twice cannot be built, and two sets with the same members are equal
(`OrdSet.ext_mem`).
-/
import Mathlib

namespace Tidefs.Ordered

open List Option

/-- A finite set as its strictly ascending list. -/
structure OrdSet (α : Type*) [LinearOrder α] where
  /-- The members, in iteration order. -/
  toList : List α
  sorted : toList.Pairwise (· < ·)

namespace OrdSet

variable {α : Type*} [LinearOrder α]

instance : DecidableEq (OrdSet α) := fun s t =>
  decidable_of_iff (s.toList = t.toList) ⟨fun h => by cases s; cases t; simpa using h, fun h => h ▸ rfl⟩

instance : Membership α (OrdSet α) := ⟨fun s a => a ∈ s.toList⟩

instance (a : α) (s : OrdSet α) : Decidable (a ∈ s) := inferInstanceAs (Decidable (a ∈ s.toList))

variable {a x : α} {s : OrdSet α}

theorem mem_def : a ∈ s ↔ a ∈ s.toList := Iff.rfl

/-- No member. -/
def empty : OrdSet α := ⟨[], List.Pairwise.nil⟩

/-- The list with `a` in its place. -/
def insertList (a : α) : List α → List α
  | [] => [a]
  | b :: l => if a < b then a :: b :: l else if a = b then b :: l else b :: insertList a l

theorem mem_insertList (a x : α) : ∀ l : List α, x ∈ insertList a l ↔ x = a ∨ x ∈ l
  | [] => by simp [insertList]
  | b :: l => by
    unfold insertList
    split_ifs with h1 h2
    · simp
    · subst h2; simp
    · simp only [mem_cons, mem_insertList a x l]
      tauto

theorem insertList_sorted (a : α) : ∀ l : List α, l.Pairwise (· < ·) → (insertList a l).Pairwise (· < ·)
  | [], _ => by simp [insertList]
  | b :: l, h => by
    obtain ⟨hb, hl⟩ := pairwise_cons.mp h
    unfold insertList
    split_ifs with h1 h2
    · exact pairwise_cons.mpr ⟨forall_mem_cons.mpr ⟨h1, fun x hx => h1.trans (hb x hx)⟩, h⟩
    · exact h
    · refine pairwise_cons.mpr ⟨fun x hx => ?_, insertList_sorted a l hl⟩
      rcases (mem_insertList a x l).mp hx with rfl | hx
      · exact lt_of_le_of_ne (not_lt.mp h1) (Ne.symm h2)
      · exact hb x hx

/-- Adds a member; an old one is kept as it is. -/
def insert (a : α) (s : OrdSet α) : OrdSet α := ⟨insertList a s.toList, insertList_sorted a _ s.sorted⟩

/-- Takes a member out. -/
def erase (a : α) (s : OrdSet α) : OrdSet α := ⟨s.toList.filter (· ≠ a), s.sorted.filter _⟩

/-- Adds every element of the list. -/
def extend (s : OrdSet α) (l : List α) : OrdSet α := l.foldl (fun s a => s.insert a) s

/-- Takes every element of the list out. -/
def eraseAll (s : OrdSet α) (l : List α) : OrdSet α := l.foldl (fun s a => s.erase a) s

def isEmpty (s : OrdSet α) : Bool := s.toList.isEmpty

@[simp] theorem not_mem_empty (a : α) : a ∉ (empty : OrdSet α) := by simp [mem_def, empty]

@[simp] theorem mem_insert : x ∈ s.insert a ↔ x = a ∨ x ∈ s :=
  mem_insertList a x s.toList

@[simp] theorem mem_erase : x ∈ s.erase a ↔ x ∈ s ∧ x ≠ a := by
  simp [mem_def, erase]

@[simp] theorem mem_extend : ∀ {l : List α} {s : OrdSet α}, x ∈ s.extend l ↔ x ∈ s ∨ x ∈ l
  | [], s => by simp [extend]
  | a :: l, s => by
    have ih : x ∈ (s.insert a).extend l ↔ x ∈ s.insert a ∨ x ∈ l := mem_extend
    simp only [extend, foldl_cons, mem_cons] at ih ⊢
    rw [ih, mem_insert]
    tauto

@[simp] theorem mem_eraseAll : ∀ {l : List α} {s : OrdSet α}, x ∈ s.eraseAll l ↔ x ∈ s ∧ x ∉ l
  | [], s => by simp [eraseAll]
  | a :: l, s => by
    have ih : x ∈ (s.erase a).eraseAll l ↔ x ∈ s.erase a ∧ x ∉ l := mem_eraseAll
    simp only [eraseAll, foldl_cons, mem_cons] at ih ⊢
    rw [ih, mem_erase]
    tauto

theorem isEmpty_iff : s.isEmpty = true ↔ ∀ a, a ∉ s := by
  simp [isEmpty, mem_def, eq_nil_iff_forall_not_mem]

/-- A set is its members: the ascending list is unique. -/
theorem ext_mem {t : OrdSet α} (h : ∀ a, a ∈ s ↔ a ∈ t) : s = t := by
  obtain ⟨l, hl⟩ := s
  obtain ⟨m, hm⟩ := t
  have hp : l.Perm m :=
    (perm_ext_iff_of_nodup (hl.imp fun h => h.ne) (hm.imp fun h => h.ne)).mpr h
  have : l = m := hp.eq_of_pairwise (fun a b _ _ h1 h2 => absurd h1 (lt_asymm h2)) hl hm
  subst this
  rfl

theorem extend_toList (s : OrdSet α) : empty.extend s.toList = s :=
  ext_mem fun x => by simp [mem_def (s := s)]

theorem insert_of_mem (h : a ∈ s) : s.insert a = s :=
  ext_mem fun x => by
    rw [mem_insert]
    exact or_iff_right_of_imp fun hx => hx ▸ h

theorem erase_of_not_mem (h : a ∉ s) : s.erase a = s :=
  ext_mem fun x => by
    rw [mem_erase]
    exact and_iff_left_of_imp fun hx heq => h (heq ▸ hx)

end OrdSet

/-- A finite map as the list of its bindings, keys strictly ascending. -/
structure OrdMap (κ : Type*) (β : Type*) [LinearOrder κ] where
  /-- The bindings, in iteration order. -/
  entries : List (κ × β)
  sorted : entries.Pairwise fun a b => a.1 < b.1

namespace OrdMap

variable {κ β : Type*} [LinearOrder κ]

def empty : OrdMap κ β := ⟨[], List.Pairwise.nil⟩

/-- The binding of a key, if there is one. -/
def get? (m : OrdMap κ β) (k : κ) : Option β := (m.entries.find? fun e => e.1 = k).map Prod.snd

def contains (m : OrdMap κ β) (k : κ) : Bool := (m.get? k).isSome

def insertList (k : κ) (v : β) : List (κ × β) → List (κ × β)
  | [] => [(k, v)]
  | e :: l => if k < e.1 then (k, v) :: e :: l else if k = e.1 then (k, v) :: l else e :: insertList k v l

theorem mem_insertList (k : κ) (v : β) {x : κ × β} : ∀ {l : List (κ × β)}, x ∈ insertList k v l → x = (k, v) ∨ x ∈ l
  | [], h => by simpa [insertList] using h
  | e :: l, h => by
    unfold insertList at h
    split_ifs at h with h1 h2
    · simpa using h
    · exact (mem_cons.mp h).imp_right (mem_cons_of_mem _)
    · rcases mem_cons.mp h with h | h
      · exact Or.inr (h ▸ mem_cons_self)
      · exact (mem_insertList k v h).imp_right (mem_cons_of_mem _)

theorem insertList_sorted (k : κ) (v : β) : ∀ l : List (κ × β), l.Pairwise (fun a b => a.1 < b.1) →
    (insertList k v l).Pairwise fun a b => a.1 < b.1
  | [], _ => by simp [insertList]
  | e :: l, h => by
    obtain ⟨he, hl⟩ := pairwise_cons.mp h
    unfold insertList
    split_ifs with h1 h2
    · exact pairwise_cons.mpr ⟨forall_mem_cons.mpr ⟨h1, fun x hx => h1.trans (he x hx)⟩, h⟩
    · exact pairwise_cons.mpr ⟨fun x hx => h2 ▸ he x hx, hl⟩
    · refine pairwise_cons.mpr ⟨fun x hx => ?_, insertList_sorted k v l hl⟩
      rcases mem_insertList k v hx with rfl | hx
      · exact lt_of_le_of_ne (not_lt.mp h1) (Ne.symm h2)
      · exact he x hx

/-- Binds a key, in place of its old binding if it has one. -/
def insert (k : κ) (v : β) (m : OrdMap κ β) : OrdMap κ β :=
  ⟨insertList k v m.entries, insertList_sorted k v _ m.sorted⟩

/-- Takes a key out. -/
def erase (k : κ) (m : OrdMap κ β) : OrdMap κ β := ⟨m.entries.filter (·.1 ≠ k), m.sorted.filter _⟩

/-- The binding with the greatest key at or below `x`. -/
def lastLE (m : OrdMap κ β) (x : κ) : Option (κ × β) := (m.entries.filter (·.1 ≤ x)).getLast?

@[simp] theorem get?_empty (k : κ) : (empty : OrdMap κ β).get? k = none := rfl

theorem keys_nodup (m : OrdMap κ β) : (m.entries.map Prod.fst).Nodup :=
  pairwise_map.mpr (m.sorted.imp fun h => h.ne)

variable {m : OrdMap κ β} {k : κ}

/-- With distinct keys, the entry found is the entry given. -/
theorem find?_eq_some_iff {l : List (κ × β)} (h : (l.map Prod.fst).Nodup) {v : β} :
    (l.find? fun e => e.1 = k).map Prod.snd = some v ↔ (k, v) ∈ l := by
  constructor
  · intro hfind
    obtain ⟨e, he, rfl⟩ := map_eq_some_iff.mp hfind
    have hk : e.1 = k := by simpa using find?_some he
    exact hk ▸ mem_of_find?_eq_some he
  · intro hmem
    cases hf : l.find? (fun e => e.1 = k) with
    | none => simpa using find?_eq_none.mp hf _ hmem
    | some e =>
      have hk : e.1 = k := by simpa using find?_some hf
      rw [inj_on_of_nodup_map h (mem_of_find?_eq_some hf) hmem hk]
      rfl

theorem get?_eq_some {v : β} : m.get? k = some v ↔ (k, v) ∈ m.entries := find?_eq_some_iff m.keys_nodup

theorem find?_insertList_self (k : κ) (v : β) : ∀ l : List (κ × β),
    (insertList k v l).find? (fun e => e.1 = k) = some (k, v)
  | [] => by simp [insertList]
  | e :: l => by
    unfold insertList
    split_ifs with h1 h2
    · simp
    · simp
    · simp [Ne.symm h2, find?_insertList_self k v l]

theorem find?_insertList_ne {k' : κ} (v : β) (h : k' ≠ k) : ∀ l : List (κ × β),
    (insertList k v l).find? (fun e => e.1 = k') = l.find? fun e => e.1 = k'
  | [] => by simp [insertList, Ne.symm h]
  | e :: l => by
    unfold insertList
    split_ifs with h1 h2
    · simp [Ne.symm h]
    · simp [Ne.symm h, ← h2]
    · simp [find?_cons, find?_insertList_ne v h l]

theorem get?_insert (m : OrdMap κ β) (k k' : κ) (v : β) :
    (m.insert k v).get? k' = if k' = k then some v else m.get? k' := by
  unfold get? insert
  split_ifs with h
  · subst h; simp [find?_insertList_self]
  · simp [find?_insertList_ne v h]

theorem get?_erase (m : OrdMap κ β) (k k' : κ) : (m.erase k).get? k' = if k' = k then none else m.get? k' := by
  refine ext fun v => ?_
  rw [get?_eq_some]
  split_ifs with h
  · simp [erase, h]
  · simp [erase, h, get?_eq_some]

theorem contains_iff : m.contains k = true ↔ ∃ v, m.get? k = some v := by
  simp [contains, isSome_iff_exists]

theorem sum_insertList (f : β → ℕ) (k : κ) (v : β) : ∀ {l : List (κ × β)},
    l.Pairwise (fun a b => a.1 < b.1) →
      ((insertList k v l).map (f ·.2)).sum + (l.find? (·.1 = k)).elim 0 (f ·.2) = (l.map (f ·.2)).sum + f v
  | [], _ => by simp [insertList]
  | x :: l, h => by
    obtain ⟨hx, hl⟩ := pairwise_cons.mp h
    have ih := sum_insertList f k v hl
    unfold insertList
    split_ifs with h1 h2
    · have hnone : (x :: l).find? (·.1 = k) = none := by
        refine find?_eq_none.mpr fun y hy => ?_
        rcases mem_cons.mp hy with rfl | hy
        · simpa using h1.ne'
        · simpa using (h1.trans (hx y hy)).ne'
      simp only [hnone, elim_none, map_cons, sum_cons]
      omega
    · simp only [find?_cons, h2, decide_true, elim_some, map_cons, sum_cons]
      omega
    · simp only [find?_cons, Ne.symm h2, decide_false, map_cons, sum_cons]
      omega

/-- What a sum over the values becomes when a key is bound: the new value counts in place of the old one. -/
theorem sum_insert (f : β → ℕ) (m : OrdMap κ β) (k : κ) (v : β) :
    ((m.insert k v).entries.map (f ·.2)).sum + (m.get? k).elim 0 f = (m.entries.map (f ·.2)).sum + f v := by
  rw [← sum_insertList f k v m.sorted, get?, elim_map]
  rfl

theorem length_insert (m : OrdMap κ β) (k : κ) (v : β) :
    (m.insert k v).entries.length + (m.get? k).elim 0 (fun _ => 1) = m.entries.length + 1 := by
  simpa using sum_insert (fun _ => 1) m k v

theorem length_insert_le (m : OrdMap κ β) (k : κ) (v : β) : (m.insert k v).entries.length ≤ m.entries.length + 1 :=
  Nat.le.intro (length_insert m k v)

theorem length_insert_le_of_contains (h : m.contains k = true) (v : β) :
    (m.insert k v).entries.length ≤ m.entries.length := by
  obtain ⟨w, hw⟩ := contains_iff.mp h
  have := length_insert m k v
  rw [hw] at this
  exact Nat.le_of_add_le_add_right this.le

theorem length_erase_le (m : OrdMap κ β) (k : κ) : (m.erase k).entries.length ≤ m.entries.length :=
  length_filter_le _ _

/-- `lastLE` is the greatest key at or below `x`. -/
theorem lastLE_eq_some {x : κ} {v : β} : m.lastLE x = some (k, v) ↔
    (k, v) ∈ m.entries ∧ k ≤ x ∧ ∀ e ∈ m.entries, e.1 ≤ x → e.1 ≤ k := by
  unfold lastLE
  have hs : (m.entries.filter (·.1 ≤ x)).Pairwise fun a b => a.1 < b.1 := m.sorted.filter _
  have hmem : ∀ e, e ∈ m.entries.filter (·.1 ≤ x) ↔ e ∈ m.entries ∧ e.1 ≤ x := by simp
  generalize m.entries.filter (·.1 ≤ x) = l at hs hmem
  constructor
  · intro h
    obtain ⟨l', rfl⟩ := getLast?_eq_some_iff.mp h
    obtain ⟨h1, h2⟩ := (hmem (k, v)).mp (by simp)
    refine ⟨h1, h2, fun e he hx => ?_⟩
    rcases mem_append.mp ((hmem e).mpr ⟨he, hx⟩) with h' | h'
    · exact ((pairwise_append.mp hs).2.2 e h' (k, v) (by simp)).le
    · simp only [mem_singleton] at h'; simp [h']
  · rintro ⟨h1, h2, h3⟩
    have hk := (hmem (k, v)).mpr ⟨h1, h2⟩
    rcases eq_nil_or_concat l with rfl | ⟨l', e, rfl⟩
    · simp at hk
    · have he := (hmem e).mp (by simp)
      have hle := h3 e he.1 he.2
      simp only [concat_eq_append] at *
      rcases mem_append.mp hk with h' | h'
      · exact absurd ((pairwise_append.mp hs).2.2 _ h' e (by simp)) (not_lt.mpr hle)
      · simp only [mem_singleton] at h'; simp [h']

end OrdMap

end Tidefs.Ordered
