/-
# Members and their groups

Two maps that describe one relation: from each group to the set of its members,
and from each member back to its group. They are updated separately, group by
group and member by member; they stay in step (`TwoWay`) if new members had no
group before, a group leaves together with its members, and members that leave a
group leave the map back.
-/
import Tidefs.Lib.Ordered

namespace Tidefs.Ordered

variable {κ β : Type*} [LinearOrder κ] [LinearOrder β]

/-- The members of a group, none if it has no entry. -/
def membersOf (groups : OrdMap κ (OrdSet β)) (k : κ) : OrdSet β := (groups.get? k).getD OrdSet.empty

/-- The members join the group, which is made if it was not there. -/
def enroll (k : κ) (members : List β) (groups : OrdMap κ (OrdSet β)) : OrdMap κ (OrdSet β) :=
  groups.insert k ((membersOf groups k).extend members)

/-- Changes the members of a group that has an entry; a group with no member
left is taken out. -/
def updateGroup (k : κ) (f : OrdSet β → OrdSet β) (groups : OrdMap κ (OrdSet β)) : OrdMap κ (OrdSet β) :=
  match groups.get? k with
  | some members => if (f members).isEmpty then groups.erase k else groups.insert k (f members)
  | none => groups

/-- The members get the group. -/
def own (k : κ) (owners : OrdMap β κ) (members : List β) : OrdMap β κ :=
  members.foldl (fun owners b => owners.insert b k) owners

/-- Those of the members that have the group lose it. -/
def disown (k : κ) (owners : OrdMap β κ) (members : List β) : OrdMap β κ :=
  members.foldl (fun owners b => if owners.get? b = some k then owners.erase b else owners) owners

/-! ### What each update does -/

omit [LinearOrder κ] in
theorem get?_own (k : κ) (b : β) : ∀ (members : List β) (owners : OrdMap β κ),
    (own k owners members).get? b = if b ∈ members then some k else owners.get? b
  | [], owners => by simp [own]
  | x :: members, owners => by
    show (own k (owners.insert x k) members).get? b = _
    rw [get?_own k b members, OrdMap.get?_insert]
    by_cases h1 : b ∈ members <;> by_cases h2 : b = x <;> simp [h1, h2]

theorem get?_disown (k : κ) (b : β) : ∀ (members : List β) (owners : OrdMap β κ),
    (disown k owners members).get? b = if b ∈ members ∧ owners.get? b = some k then none else owners.get? b
  | [], owners => by simp [disown]
  | x :: members, owners => by
    show (disown k (if owners.get? x = some k then owners.erase x else owners) members).get? b = _
    rw [get?_disown k b members]
    by_cases hb : b = x
    · subst hb
      split_ifs <;> simp_all [OrdMap.get?_erase]
    · split_ifs <;> simp_all [OrdMap.get?_erase]

theorem mem_membersOf_enroll (groups : OrdMap κ (OrdSet β)) (k k' : κ) (members : List β) (b : β) :
    b ∈ membersOf (enroll k members groups) k' ↔ b ∈ membersOf groups k' ∨ k' = k ∧ b ∈ members := by
  unfold enroll membersOf
  rw [OrdMap.get?_insert]
  by_cases h : k' = k
  · subst h; simp [or_comm]
  · simp [h]

theorem mem_membersOf_erase (groups : OrdMap κ (OrdSet β)) (k k' : κ) (b : β) :
    b ∈ membersOf (groups.erase k) k' ↔ k' ≠ k ∧ b ∈ membersOf groups k' := by
  unfold membersOf
  rw [OrdMap.get?_erase]
  by_cases h : k' = k
  · subst h; simp
  · simp [h]

/-- Members only leave the group: the others keep theirs. -/
theorem mem_membersOf_updateGroup (groups : OrdMap κ (OrdSet β)) (k k' : κ) {f : OrdSet β → OrdSet β} (gone : Set β)
    (hf : ∀ b, b ∈ f (membersOf groups k) ↔ b ∈ membersOf groups k ∧ b ∉ gone) (b : β) :
    b ∈ membersOf (updateGroup k f groups) k' ↔ b ∈ membersOf groups k' ∧ ¬ (k' = k ∧ b ∈ gone) := by
  unfold updateGroup
  cases hg : groups.get? k with
  | none =>
    by_cases h : k' = k
    · subst h; simp [membersOf, hg]
    · simp [h]
  | some members =>
    have hm : membersOf groups k = members := by simp [membersOf, hg]
    rw [hm] at hf
    dsimp only
    split_ifs with he
    · rw [OrdSet.isEmpty_iff] at he
      rw [mem_membersOf_erase]
      by_cases h : k' = k
      · subst h
        have := he b
        rw [hf b] at this
        simp [hm]
        tauto
      · simp [h]
    · by_cases h : k' = k
      · subst h
        have : membersOf (groups.insert k' (f members)) k' = f members := by simp [membersOf, OrdMap.get?_insert]
        rw [this, hf, hm]
        simp
      · have : membersOf (groups.insert k (f members)) k' = membersOf groups k' := by
          simp [membersOf, OrdMap.get?_insert, h]
        rw [this]
        simp [h]

/-! ### The two maps in step -/

/-- The two maps describe the same relation. -/
def TwoWay (groups : OrdMap κ (OrdSet β)) (owners : OrdMap β κ) : Prop :=
  ∀ b k, owners.get? b = some k ↔ b ∈ membersOf groups k

theorem twoWay_empty : TwoWay (OrdMap.empty : OrdMap κ (OrdSet β)) OrdMap.empty := fun b k => by simp [membersOf]

variable {groups : OrdMap κ (OrdSet β)} {owners : OrdMap β κ}

theorem TwoWay.enroll (h : TwoWay groups owners) {k : κ}
    {members : List β} (hnew : ∀ b ∈ members, owners.get? b = none) :
    TwoWay (enroll k members groups) (own k owners members) := fun b k' => by
  rw [get?_own, mem_membersOf_enroll]
  split_ifs with hb
  · rw [← h b k', hnew b hb]
    simp [hb, eq_comm]
  · rw [h b k']
    simp [hb]

theorem TwoWay.retire (h : TwoWay groups owners) (k : κ) :
    TwoWay (groups.erase k) (disown k owners (membersOf groups k).toList) := fun b k' => by
  have hmem : owners.get? b = some k ↔ b ∈ (membersOf groups k).toList := h b k
  rw [get?_disown, mem_membersOf_erase, ← h b k']
  by_cases hb : owners.get? b = some k
  · rw [if_pos ⟨hmem.mp hb, hb⟩, hb]
    simp [eq_comm]
  · rw [if_neg fun hc => hb hc.2]
    constructor
    · exact fun h1 => ⟨fun he => hb (he ▸ h1), h1⟩
    · exact And.right

theorem TwoWay.remove (h : TwoWay groups owners) {k : κ} {f : OrdSet β → OrdSet β} {gone : List β}
    (hf : ∀ b, b ∈ f (membersOf groups k) ↔ b ∈ membersOf groups k ∧ b ∉ gone) :
    TwoWay (updateGroup k f groups) (disown k owners gone) := fun b k' => by
  rw [get?_disown, mem_membersOf_updateGroup groups k k' {b | b ∈ gone} hf, ← h b k']
  simp only [Set.mem_ofPred_eq]
  split_ifs with hb
  · rw [hb.2]
    simp [hb.1, eq_comm]
  · constructor
    · exact fun h1 => ⟨h1, fun hc => hb ⟨hc.2, hc.1 ▸ h1⟩⟩
    · exact And.left

end Tidefs.Ordered
