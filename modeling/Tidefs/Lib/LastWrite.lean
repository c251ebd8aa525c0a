/-
# Logs in which the last write wins

A table of keys and values is filled from a log of writes. A write takes the place of
what stands under its key and otherwise goes to the end, so after a log the table has
for each key the value written last (`get_put`). A key that is always written with one
value has it (`get_replay`).
-/
import Mathlib

namespace Tidefs.LastWrite

open List

variable {κ α : Type*} [DecidableEq κ] {t log : List (κ × α)} {k : κ} {a : α}

def put (k : κ) (a : α) : List (κ × α) → List (κ × α)
  | [] => [(k, a)]
  | e :: t => if e.1 = k then (e.1, a) :: t else e :: put k a t

def replay (t : List (κ × α)) (log : List (κ × α)) : List (κ × α) := log.foldl (fun t e => put e.1 e.2 t) t

/-! ### Lookups -/

/-- What stands under a key. -/
def get (t : List (κ × α)) (k : κ) : Option α := (t.find? fun e => e.1 = k).map Prod.snd

theorem get_put (k k' : κ) (a : α) : ∀ t : List (κ × α), get (put k a t) k' = if k' = k then some a else get t k'
  | [] => by
    by_cases h : k = k' <;> simp [get, put, h, eq_comm]
  | e :: t => by
    have ih := get_put k k' a t
    unfold get at ih ⊢
    unfold put
    by_cases he : e.1 = k
    · rw [if_pos he, find?_cons, find?_cons]
      by_cases h : k' = k
      · simp [he, h]
      · simp [he, h, Ne.symm h]
    · rw [if_neg he, find?_cons, find?_cons]
      by_cases h : e.1 = k'
      · simp [h, show k' ≠ k from fun hk => he (h.trans hk)]
      · simpa [h] using ih

theorem get_replay_of_not_mem (h : k ∉ log.map Prod.fst) : get (replay t log) k = get t k := by
  induction log generalizing t with
  | nil => rfl
  | cons e log ih =>
    rw [map_cons, mem_cons, not_or] at h
    rw [show replay t (e :: log) = replay (put e.1 e.2 t) log from rfl, ih h.2, get_put, if_neg h.1]

/-- **A key that is always written with one value** has it. -/
theorem get_replay (h : ∀ e ∈ log, e.1 = k → e.2 = a) (hk : k ∈ log.map Prod.fst) : get (replay t log) k = some a := by
  induction log generalizing t with
  | nil => exact absurd hk not_mem_nil
  | cons e log ih =>
    obtain ⟨h1, h2⟩ := forall_mem_cons.mp h
    rw [show replay t (e :: log) = replay (put e.1 e.2 t) log from rfl]
    by_cases hlog : k ∈ log.map Prod.fst
    · exact ih h2 hlog
    · have he : k = e.1 := (mem_cons.mp hk).resolve_right hlog
      rw [get_replay_of_not_mem hlog, get_put, if_pos he, h1 he.symm]

/-- A table has as many places as keys that have a value. -/
theorem length_le_of_get {ks : List κ} (hks : ks.Nodup) (h : ∀ k ∈ ks, get t k ≠ none) : ks.length ≤ t.length := by
  have hsub : ks ⊆ t.map Prod.fst := fun k hk => by
    by_contra hno
    refine h k hk (Option.map_eq_none_iff.mpr (find?_eq_none.mpr fun e he heq => hno ?_))
    exact mem_map.mpr ⟨e, he, of_decide_eq_true heq⟩
  calc ks.length ≤ (t.map Prod.fst).length := (hks.subperm hsub).length_le
    _ = t.length := length_map _

end Tidefs.LastWrite
