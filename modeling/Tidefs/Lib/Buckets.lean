/-
# Buckets

A map from hashes to lists holds values in buckets: a value is in the bucket of its hash.
What a map of buckets holds is the list of all of them (`flat`). A value put at the end of
its bucket is one value more (`flat_add`), and values taken out of one bucket leave the
others alone (`flat_filter`).
-/
import Tidefs.Lib.Assoc

namespace Tidefs.Buckets

open Ordered OrdMap
open List hiding lookup lookup_cons_self

variable {κ α : Type*} [LinearOrder κ] {m : OrdMap κ (List α)} {hash : α → κ} {k : κ} {a : α} {b : List α}

/-- All that the buckets hold. -/
def flat (m : OrdMap κ (List α)) : List α := m.entries.flatMap Prod.snd

def bucket (m : OrdMap κ (List α)) (k : κ) : List α := (m.get? k).getD []

/-- Values are in the bucket of their hash. -/
def Keyed (hash : α → κ) (m : OrdMap κ (List α)) : Prop := ∀ e ∈ m.entries, ∀ a ∈ e.2, hash a = e.1

theorem keyed_empty : Keyed hash (empty : OrdMap κ (List α)) := fun _ he => absurd he not_mem_nil

theorem keyed_erase (h : Keyed hash m) (k : κ) : Keyed hash (m.erase k) := fun e he =>
  h e (mem_of_mem_filter he)

theorem keyed_insert (h : Keyed hash m) (hb : ∀ a ∈ b, hash a = k) : Keyed hash (m.insert k b) := by
  intro e he
  rcases mem_insertList k b he with rfl | he
  · exact hb
  · exact h e he

theorem mem_bucket_iff : a ∈ bucket m k ↔ ∃ b, m.get? k = some b ∧ a ∈ b := by
  unfold bucket
  cases m.get? k <;> simp

theorem hash_of_mem_bucket (h : Keyed hash m) (ha : a ∈ bucket m k) : hash a = k := by
  obtain ⟨b, hget, ha⟩ := mem_bucket_iff.mp ha
  exact h (k, b) (get?_eq_some.mp hget) a ha

theorem mem_flat : a ∈ flat m ↔ ∃ k b, m.get? k = some b ∧ a ∈ b := by
  unfold flat
  rw [mem_flatMap]
  constructor
  · rintro ⟨⟨k, b⟩, he, ha⟩
    exact ⟨k, b, get?_eq_some.mpr he, ha⟩
  · rintro ⟨k, b, hget, ha⟩
    exact ⟨(k, b), get?_eq_some.mp hget, ha⟩

/-- **A value** is looked for in the bucket of its hash. -/
theorem mem_bucket (h : Keyed hash m) : a ∈ bucket m (hash a) ↔ a ∈ flat m := by
  rw [mem_bucket_iff, mem_flat]
  constructor
  · rintro ⟨b, hget, ha⟩
    exact ⟨_, b, hget, ha⟩
  · rintro ⟨k, b, hget, ha⟩
    obtain rfl := h (k, b) (get?_eq_some.mp hget) a ha
    exact ⟨b, hget, ha⟩

theorem flat_split (m : OrdMap κ (List α)) (k : κ) : (flat m).Perm (bucket m k ++ flat (m.erase k)) := by
  have hget : m.get? k = lookup k m.entries := rfl
  have herase : (m.erase k).entries = eraseList k m.entries := rfl
  unfold flat bucket
  rw [herase, hget]
  rcases searchKey_cases m.sorted k with ⟨A, v, C, hcut, -, hA, hC⟩ | ⟨A, C, hcut, -, hA, hC⟩
  · rw [hcut, lookup_append_below hA, lookup_cons_self, eraseList_hit v hA hC, flatMap_append, flatMap_cons,
      flatMap_append, Option.getD_some]
    exact perm_append_comm_assoc _ _ _
  · have hnone : lookup k (A ++ C) = none := by rw [lookup_append_below hA, lookup_eq_none_of_above hC]
    rw [hcut, hnone, eraseList_of_lookup_none hnone]
    exact List.Perm.refl _

theorem flat_insert (m : OrdMap κ (List α)) (k : κ) (b : List α) :
    (flat (m.insert k b)).Perm (b ++ flat (m.erase k)) := by
  have hbucket : bucket (m.insert k b) k = b := by
    rw [bucket, get?_insert, if_pos rfl, Option.getD_some]
  have herase : (m.insert k b).erase k = m.erase k := ext_get? fun k' => by
    rw [get?_erase, get?_erase, get?_insert]
    split_ifs <;> rfl
  have hsplit := flat_split (m.insert k b) k
  rwa [hbucket, herase] at hsplit

/-- **One value more.** -/
theorem flat_add (m : OrdMap κ (List α)) (k : κ) (a : α) :
    (flat (m.insert k (bucket m k ++ [a]))).Perm (a :: flat m) := by
  refine (flat_insert m k _).trans ?_
  rw [append_assoc]
  exact perm_middle.trans ((flat_split m k).symm.cons a)

/-- A value of another hash is in another bucket. -/
theorem filter_erase (h : Keyed hash m) {p : α → Bool} (hp : ∀ a ∈ flat m, p a = false → hash a = k) :
    (flat (m.erase k)).filter p = flat (m.erase k) := by
  refine filter_eq_self.mpr fun a ha => ?_
  by_contra hpa
  have hk := hp a ((flat_split m k).mem_iff.mpr (mem_append_right _ ha)) (Bool.not_eq_true _ ▸ hpa)
  obtain ⟨k', b, hget, ha⟩ := mem_flat.mp ha
  have hk' := keyed_erase h k (k', b) (get?_eq_some.mp hget) a ha
  rw [get?_erase, if_pos (hk'.symm.trans hk)] at hget
  exact nomatch hget

/-- **Values taken out of one bucket.** -/
theorem flat_filter (h : Keyed hash m) {p : α → Bool} (hp : ∀ a ∈ flat m, p a = false → hash a = k) :
    ((flat m).filter p).Perm ((bucket m k).filter p ++ flat (m.erase k)) := by
  have hperm := (flat_split m k).filter p
  rwa [filter_append, filter_erase h hp] at hperm

end Tidefs.Buckets
