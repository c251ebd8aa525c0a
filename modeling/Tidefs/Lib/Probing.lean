/-
# Open addressing

Slots in a row are probed from the hash of a key on, around the end, until one answers a
test. A slot is live with a key, or free; some of the free ones are empty and end a search.
In a chained table (`Chained`) no two slots have one key, and no slot between the hash of
a key and its own slot is empty. Then a search that stops at an empty slot or at the key
finds the key if it is there (`probe_present`); to put a new key in the first free slot, to
replace the entry of a key and to free a slot without emptying it all keep the table
chained.
-/
import Mathlib

namespace Tidefs.Probing

open List Option Nat

variable {σ K : Type*}

/-! ### The ring -/

/-- The positions from one on, around the end. -/
def ring (cap start : ℕ) : List ℕ := (List.range cap).map fun j => (start + j) % cap

theorem nodup_ring (cap start : ℕ) : (ring cap start).Nodup := by
  refine List.Nodup.map_on (fun a ha b hb h => ?_) nodup_range
  have hmod : a ≡ b [MOD cap] := Nat.ModEq.add_left_cancel' start h
  exact Nat.ModEq.eq_of_lt_of_lt hmod (mem_range.mp ha) (mem_range.mp hb)

variable {cap i start : ℕ} {slots : List σ} {test : σ → Bool}

theorem mem_ring : i ∈ ring cap start ↔ i < cap := by
  have hsub : ring cap start ⊆ range cap := by
    intro i hi
    obtain ⟨j, hj, rfl⟩ := mem_map.mp hi
    exact mem_range.mpr (mod_lt _ (zero_lt_of_lt (mem_range.mp hj)))
  have hperm : (ring cap start).Perm (range cap) :=
    (subperm_of_subset (nodup_ring cap start) hsub).perm_of_length_le (by simp [ring])
  rw [hperm.mem_iff, mem_range]

theorem ring_not_mem {A B : List ℕ} (h : ring cap start = A ++ i :: B) : i ∉ A := by
  have hnodup := nodup_ring cap start
  rw [h] at hnodup
  exact fun hmem => disjoint_of_nodup_append hnodup hmem (mem_cons_self ..)

/-- What lies before a position is determined. -/
theorem ring_split {A B A' B' : List ℕ} (h : ring cap start = A ++ i :: B)
    (h' : ring cap start = A' ++ i :: B') : A = A' := by
  have htake : ∀ C D : List ℕ, i ∉ C → (C ++ i :: D).takeWhile (· ≠ i) = C := by
    intro C D hC
    have hpass : ∀ c ∈ C, decide (c ≠ i) = true := fun c hc => decide_eq_true fun heq : c = i => hC (heq ▸ hc)
    rw [takeWhile_append_of_pos hpass]
    simp
  rw [← htake A B (ring_not_mem h), ← htake A' B' (ring_not_mem h'), ← h, ← h']

/-! ### Probing -/

/-- The first slot that answers the test, in so many turns from a position on. -/
def probe (slots : List σ) (test : σ → Bool) : ℕ → ℕ → Option ℕ
  | 0, _ => none
  | left + 1, idx =>
    match slots[idx]? with
    | none => none
    | some slot => if test slot then some idx else probe slots test left ((idx + 1) % slots.length)

theorem probe_range (slots : List σ) (test : σ → Bool) (start : ℕ) (hpos : 0 < slots.length) : ∀ left j : ℕ,
    probe slots test left ((start + j) % slots.length) =
      ((range' j left).map fun j => (start + j) % slots.length).find? fun i => (slots[i]?).any test
  | 0, _ => rfl
  | left + 1, j => by
    have hlt : (start + j) % slots.length < slots.length := mod_lt _ hpos
    have hnext : ((start + j) % slots.length + 1) % slots.length = (start + (j + 1)) % slots.length := by
      rw [mod_add_mod, add_assoc]
    rw [probe, range'_succ, map_cons, find?_cons, getElem?_eq_getElem hlt]
    dsimp only [any_some]
    cases test slots[(start + j) % slots.length] with
    | true => rfl
    | false =>
      rw [hnext, probe_range slots test start hpos left (j + 1)]
      rfl

/-- A turn for each slot goes once around the ring. -/
theorem probe_eq_find (hstart : start < slots.length) (test : σ → Bool) :
    probe slots test slots.length start = (ring slots.length start).find? fun i => (slots[i]?).any test := by
  have h := probe_range slots test start (zero_lt_of_lt hstart) slots.length 0
  rwa [add_zero, mod_eq_of_lt hstart, ← range_eq_range'] at h

theorem any_test_iff : (slots[i]?).any test = true ↔ ∃ s, slots[i]? = some s ∧ test s = true := by
  cases slots[i]? with
  | none => simp
  | some s => simp

variable (hstart : start < slots.length)
include hstart

/-- The slot found answers the test, and no slot before it on the ring does. -/
theorem probe_eq_some : probe slots test slots.length start = some i ↔ (∃ s, slots[i]? = some s ∧ test s = true) ∧
      ∃ A B, ring slots.length start = A ++ i :: B ∧ ∀ a ∈ A, ∀ t, slots[a]? = some t → test t = false := by
  rw [probe_eq_find hstart, find?_eq_some_iff_append, any_test_iff]
  refine and_congr_right fun _ => exists_congr fun A => exists_congr fun B => and_congr_right fun _ => ?_
  refine forall₂_congr fun a _ => ?_
  cases slots[a]? with
  | none => simp
  | some t => simp

theorem probe_eq_none : probe slots test slots.length start = none ↔ ∀ s ∈ slots, test s = false := by
  rw [probe_eq_find hstart, find?_eq_none]
  constructor
  · intro h s hs
    obtain ⟨i, hi⟩ := mem_iff_getElem?.mp hs
    have hlt : i < slots.length := (List.getElem?_eq_some_iff.mp hi).1
    have := h i (mem_ring.mpr hlt)
    rw [hi] at this
    simpa using this
  · intro h i _ hany
    obtain ⟨s, hs, htest⟩ := any_test_iff.mp hany
    rw [h s (mem_of_getElem? hs)] at htest
    cases htest

theorem probe_congr {test' : σ → Bool} (h : ∀ s ∈ slots, test s = test' s) :
    probe slots test slots.length start = probe slots test' slots.length start := by
  rw [probe_eq_find hstart, probe_eq_find hstart]
  congr 1
  funext i
  cases hi : slots[i]? with
  | none => rfl
  | some s => exact h s (mem_of_getElem? hi)

/-- The only slot that answers is found from anywhere. -/
theorem probe_only {s : σ} (hs : slots[i]? = some s) (htest : test s = true)
    (honly : ∀ j t, slots[j]? = some t → test t = true → j = i) : probe slots test slots.length start = some i := by
  cases hprobe : probe slots test slots.length start with
  | none =>
    rw [(probe_eq_none hstart).mp hprobe s (mem_of_getElem? hs)] at htest
    cases htest
  | some j =>
    obtain ⟨⟨t, ht, htt⟩, _⟩ := (probe_eq_some hstart).mp hprobe
    rw [honly j t ht htt]

omit hstart

/-! ### Chained tables -/

section Tables

variable (key : σ → Option K) (isEmpty : σ → Bool) (hash : K → ℕ → ℕ)

/-- No two slots have one key, and no slot from the hash of a key to its slot is empty. -/
structure Chained (slots : List σ) : Prop where
  unique : ∀ (i j : ℕ) (s t : σ) (k : K), slots[i]? = some s → slots[j]? = some t → key s = some k →
    key t = some k → i = j
  reach : ∀ (i : ℕ) (s : σ) (k : K), slots[i]? = some s → key s = some k →
    ∀ A B, ring slots.length (hash k slots.length) = A ++ i :: B → ∀ a ∈ A, ∀ t, slots[a]? = some t → isEmpty t = false

def live (slots : List σ) : List σ := slots.filter fun s => (key s).isSome

variable {key isEmpty hash} {slots : List σ} {i : ℕ} {s old : σ} {k : K}

theorem mem_live {x : σ} : x ∈ live key slots ↔ x ∈ slots ∧ ∃ k, key x = some k := by
  rw [live, mem_filter, isSome_iff_exists]

theorem Chained.fresh (h : ∀ s ∈ slots, key s = none) : Chained key isEmpty hash slots := by
  refine ⟨fun i j s t k hs _ hk _ => ?_, fun i s k hs hk => ?_⟩
  · rw [h s (mem_of_getElem? hs)] at hk
    cases hk
  · rw [h s (mem_of_getElem? hs)] at hk
    cases hk

variable {test : σ → Bool}

/-- **A key that is there is found** by a search that also stops at empty slots. -/
theorem probe_present (hc : Chained key isEmpty hash slots) (hstart : hash k slots.length < slots.length)
    (htest : ∀ s ∈ slots, test s = true ↔ isEmpty s = true ∨ key s = some k)
    (hs : slots[i]? = some s) (hk : key s = some k) : probe slots test slots.length (hash k slots.length) = some i := by
  have hlt : i < slots.length := (List.getElem?_eq_some_iff.mp hs).1
  obtain ⟨A, B, hring⟩ := append_of_mem (mem_ring.mpr hlt : i ∈ ring slots.length (hash k slots.length))
  refine (probe_eq_some hstart).mpr ⟨⟨s, hs, (htest s (mem_of_getElem? hs)).mpr (.inr hk)⟩, A, B, hring, ?_⟩
  intro a ha t ht
  rw [Bool.eq_false_iff]
  intro htrue
  rcases (htest t (mem_of_getElem? ht)).mp htrue with hempty | hkey
  · rw [hc.reach i s k hs hk A B hring a ha t ht] at hempty
    cases hempty
  · exact ring_not_mem hring (hc.unique a i t s k ht hs hkey hk ▸ ha)

/-- A key that is not there is not found: the search ends at an empty slot or with the ring. -/
theorem probe_absent (hstart : hash k slots.length < slots.length)
    (htest : ∀ s ∈ slots, test s = true ↔ isEmpty s = true ∨ key s = some k) (habsent : ∀ s ∈ slots, key s ≠ some k) :
    probe slots test slots.length (hash k slots.length) = none ∨
      ∃ i s, probe slots test slots.length (hash k slots.length) = some i ∧ slots[i]? = some s ∧ isEmpty s = true := by
  cases hprobe : probe slots test slots.length (hash k slots.length) with
  | none => exact .inl rfl
  | some i =>
    obtain ⟨⟨s, hs, htrue⟩, _⟩ := (probe_eq_some hstart).mp hprobe
    have hmem := mem_of_getElem? hs
    exact .inr ⟨i, s, rfl, hs, ((htest s hmem).mp htrue).resolve_right (habsent s hmem)⟩

theorem getElem?_set_cases {j : ℕ} {x t : σ} (h : (slots.set i x)[j]? = some t) :
    (j = i ∧ t = x) ∨ (j ≠ i ∧ slots[j]? = some t) := by
  rw [getElem?_set] at h
  split_ifs at h with hj
  · exact .inl ⟨hj.symm, (some.inj h).symm⟩
  · exact .inr ⟨Ne.symm hj, h⟩

/-- A slot is set: its key, if it has one, is in no other slot and is reached. -/
theorem Chained.set (hc : Chained key isEmpty hash slots) (hlive : isEmpty s = false)
    (hunique : ∀ k, key s = some k → ∀ (j : ℕ) t, slots[j]? = some t → key t = some k → j = i)
    (hreach : ∀ k, key s = some k → ∀ A B, ring slots.length (hash k slots.length) = A ++ i :: B →
      ∀ a ∈ A, ∀ t, slots[a]? = some t → isEmpty t = false) : Chained key isEmpty hash (slots.set i s) := by
  refine ⟨fun j j' t t' k' ht ht' hk' hk'' => ?_, fun j t k' ht hk' A B hring a ha u hu => ?_⟩
  · rcases getElem?_set_cases ht with ⟨rfl, rfl⟩ | ⟨_, hslot⟩
    · rcases getElem?_set_cases ht' with ⟨rfl, rfl⟩ | ⟨_, hslot'⟩
      · rfl
      · exact (hunique k' hk' j' t' hslot' hk'').symm
    · rcases getElem?_set_cases ht' with ⟨rfl, rfl⟩ | ⟨_, hslot'⟩
      · exact hunique k' hk'' j t hslot hk'
      · exact hc.unique j j' t t' k' hslot hslot' hk' hk''
  · rw [length_set] at hring
    rcases getElem?_set_cases hu with ⟨rfl, rfl⟩ | ⟨_, hpassed⟩
    · exact hlive
    · rcases getElem?_set_cases ht with ⟨rfl, rfl⟩ | ⟨_, hslot⟩
      · exact hreach k' hk' A B hring a ha u hpassed
      · exact hc.reach j t k' hslot hk' A B hring a ha u hpassed

variable (hc : Chained key isEmpty hash slots)
include hc

/-- **A new key goes into the first free slot.** -/
theorem Chained.put (hstart : hash k slots.length < slots.length)
    (htest : ∀ s ∈ slots, test s = true ↔ key s = none) (hfree : ∀ s, isEmpty s = true → key s = none)
    (hprobe : probe slots test slots.length (hash k slots.length) = some i)
    (habsent : ∀ s ∈ slots, key s ≠ some k) (hs : key s = some k) : Chained key isEmpty hash (slots.set i s) := by
  obtain ⟨⟨old, hold, hfound⟩, A, B, hring, hbefore⟩ := (probe_eq_some hstart).mp hprobe
  have hlive : ∀ t : σ, ∀ k', key t = some k' → isEmpty t = false := by
    intro t k' hk'
    rw [Bool.eq_false_iff]
    intro hempty
    rw [hfree t hempty] at hk'
    cases hk'
  refine hc.set (hlive s k hs) (fun k' hk' j t ht htk => ?_) fun k' hk' A' B' hring' a ha u hu => ?_
  · obtain rfl := some.inj (hs.symm.trans hk')
    exact absurd htk (habsent t (mem_of_getElem? ht))
  · -- the slots before the new entry are those passed over
    obtain rfl := some.inj (hs.symm.trans hk')
    have hA : A' = A := ring_split hring' hring
    rw [hA] at ha
    have hkey := mt (htest u (mem_of_getElem? hu)).mpr (by rw [hbefore a ha u hu]; decide)
    obtain ⟨k', hk'⟩ := ne_none_iff_exists'.mp hkey
    exact hlive u k' hk'

/-- **The entry of a key is replaced.** -/
theorem Chained.replace (hold : slots[i]? = some old) (hk : key old = some k)
    (hs : key s = some k) (hlive : isEmpty s = false) : Chained key isEmpty hash (slots.set i s) := by
  refine hc.set hlive (fun k' hk' j t ht htk => ?_) fun k' hk' => ?_
  · exact hc.unique j i t old k' ht hold htk (hk.trans (hs.symm.trans hk'))
  · exact hc.reach i old k' hold (hk.trans (hs.symm.trans hk'))

/-- **A slot is freed, but not emptied.** -/
theorem Chained.release (hs : key s = none) (hkept : isEmpty s = false) : Chained key isEmpty hash (slots.set i s) :=
  hc.set hkept (fun _ hk => nomatch hs.symm.trans hk) fun _ hk => nomatch hs.symm.trans hk

/-! ### The live entries -/

/-- What a change of one slot does to the live entries. -/
theorem Chained.mem_live_set (hold : slots[i]? = some old) {x : σ} :
    x ∈ live key (slots.set i s) ↔ (x = s ∧ ∃ k, key s = some k) ∨ (x ∈ live key slots ∧ ∀ k, key old = some k → x ≠ old) := by
  rw [mem_live, mem_live]
  constructor
  · rintro ⟨hx, k, hk⟩
    obtain ⟨j, hj⟩ := mem_iff_getElem?.mp hx
    rcases getElem?_set_cases hj with ⟨_, rfl⟩ | ⟨hne, hj⟩
    · exact .inl ⟨rfl, k, hk⟩
    · refine .inr ⟨⟨mem_of_getElem? hj, k, hk⟩, ?_⟩
      rintro k' hk' rfl
      exact hne (hc.unique j i x x k' hj hold hk' hk')
  · rintro (⟨rfl, hk⟩ | ⟨⟨hx, k, hk⟩, hne⟩)
    · exact ⟨mem_set (List.getElem?_eq_some_iff.mp hold).1 x, hk⟩
    · obtain ⟨j, hj⟩ := mem_iff_getElem?.mp hx
      have hji : i ≠ j := by
        rintro rfl
        obtain rfl := some.inj (hj.symm.trans hold)
        exact hne k hk rfl
      exact ⟨mem_of_getElem? ((getElem?_set_ne hji).trans hj), k, hk⟩

/-- No two live entries have one key. -/
theorem Chained.pairwise_live : (live key slots).Pairwise fun a b => key a ≠ key b := by
  have hall : slots.Pairwise fun a b => (∃ k, key a = some k) → key a ≠ key b := by
    rw [pairwise_iff_getElem]
    intro a b ha hb hab hk hkey
    obtain ⟨k, hk⟩ := hk
    exact absurd (hc.unique a b slots[a] slots[b] k (getElem?_eq_getElem ha) (getElem?_eq_getElem hb) hk
      (hkey.symm.trans hk)) hab.ne
  refine (hall.filter _).imp_of_mem fun {a b} ha _ h => ?_
  exact h (mem_live.mp ha).2

theorem Chained.nodup_live : (live key slots).Nodup :=
  hc.pairwise_live.imp fun {_ _} h heq => h (congrArg key heq)

omit hc

/-- Fewer live entries than slots leave a free one. -/
theorem exists_free (h : (live key slots).length < slots.length) : ∃ s ∈ slots, key s = none := by
  by_contra hno
  have hall : live key slots = slots := filter_eq_self.mpr fun s hs =>
    isSome_iff_ne_none.mpr fun hnone => hno ⟨s, hs, hnone⟩
  rw [hall] at h
  exact lt_irrefl _ h

end Tables

end Tidefs.Probing
