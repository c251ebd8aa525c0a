/-
# A stripe is recovered from any k of its shards

Every shard of a stripe, data or parity, is its row of the encoding matrix applied to
the data (`shardOf`, `encode_eq`). The rows that are chosen for a stripe with at most
`m` shards missing are `k` distinct rows of shards that are there, so they have an
inverse, which gives back the data (`recovered`). The rebuilt shards are then computed
as they were when the stripe was written.
-/
import Tidefs.Erasure.Invert

namespace Tidefs.Erasure

open GaussJordan Option
open List hiding Vector

/-! ### Combinations -/

section Combine

variable {n sl : ℕ} (coeffs : Vector Gf n) (blocks : GfMatrix n sl)

theorem addScaled_getElem (p : Vector Gf sl) (c : Gf) (block : Vector Gf sl) {b : ℕ} (hb : b < sl) :
    (addScaled p c block)[b] = p[b] + c * block[b] := by
  unfold addScaled
  by_cases hc : c = 0
  · rw [if_pos hc, hc, zero_mul, add_zero]
  · simp only [if_neg hc, Vector.getElem_zipWith]

theorem combine_loop {b : ℕ} (hb : b < sl) : ∀ (cols : List (Fin n)) (p : Vector Gf sl),
    (cols.foldl (fun p col => addScaled p coeffs[col] blocks[col]) p)[b] =
      p[b] + (cols.map fun col => coeffs[col] * blocks[col][b]).sum
  | [], p => by simp
  | col :: cols, p => by
    rw [foldl_cons, combine_loop hb cols, addScaled_getElem, map_cons, sum_cons, add_assoc]

theorem combine_getElem {b : ℕ} (hb : b < sl) :
    (combine coeffs blocks)[b] = ∑ col : Fin n, coeffs[col] * blocks[col][b] := by
  unfold combine
  rw [combine_loop coeffs blocks hb, Vector.getElem_replicate, zero_add, Fin.sum_univ_def]

end Combine

/-! ### The shards of a stripe -/

section Shards

variable {k m sl : ℕ} (data : GfMatrix k sl)

/-- The bytes of shard `i`. -/
def coded (m : ℕ) (i : Fin (k + m)) : Vector Gf sl := combine ((buildCauchyEncoding k m).get i) data

def shardOf (m : ℕ) (i : Fin (k + m)) : ErasureShard :=
  ⟨i, if i.val < k then .data else .parity, (coded data m i).toList⟩

theorem coded_getElem (i : Fin (k + m)) {b : ℕ} (hb : b < sl) :
    (coded data m i)[b] = ∑ j ∈ Finset.range k, entry (buildCauchyEncoding k m) i j * entry data j b := by
  rw [coded, combine_getElem _ _ hb, Finset.sum_range]
  refine Finset.sum_congr rfl fun j _ => ?_
  rw [entry_eq _ i.isLt j.isLt, entry_eq data j.isLt hb]
  rfl

theorem coded_castAdd (i : Fin k) : coded data m (Fin.castAdd m i) = data.get i := by
  refine Vector.ext fun b hb => ?_
  have hterm : ∀ j ∈ Finset.range k, entry (buildCauchyEncoding k m) i j * entry data j b =
      if i.val = j then entry data j b else 0 := by
    intro j hj
    rw [entry_data i.isLt (Finset.mem_range.mp hj), ite_mul, one_mul, zero_mul]
  rw [coded_getElem data _ hb, Fin.val_castAdd, Finset.sum_congr rfl hterm, Finset.sum_ite_eq,
    if_pos (Finset.mem_range.mpr i.isLt), entry_eq data i.isLt hb]
  rfl

theorem finRange_add (k m : ℕ) :
    finRange (k + m) = (finRange k).map (Fin.castAdd m) ++ (finRange m).map (Fin.natAdd k) := by
  simp only [finRange, map_ofFn]
  exact ofFn_add

theorem written_data : (data.toList.mapIdx fun i d => (⟨i, .data, d.toList⟩ : ErasureShard)) =
    (finRange k).map (shardOf data m ∘ Fin.castAdd m) := by
  refine ext_getElem (by simp) fun i h1 h2 => ?_
  have hi : i < k := by simpa using h2
  have hbytes : data[i] = coded data m (Fin.castAdd m ⟨i, hi⟩) := (coded_castAdd data ⟨i, hi⟩).symm
  simpa [shardOf, hi] using congrArg Vector.toList hbytes

theorem written_parity : ((computeParity m data).toList.mapIdx fun i p => (⟨k + i, .parity, p.toList⟩ : ErasureShard)) =
      (finRange m).map (shardOf data m ∘ Fin.natAdd k) := by
  refine ext_getElem (by simp) fun i h1 h2 => ?_
  simp [shardOf, coded, computeParity]
  rfl

/-- **What is written is every shard in order.** -/
theorem encode_eq {config : StripeConfig} {payload : List Gf} (hk : config.dataShards ≠ 0)
    (hsl : config.shardLen ≠ 0) (hp : payload.length ≤ config.dataCapacity) : encode config payload = some {
      config
      shards := (List.finRange (config.dataShards + config.parityShards)).map
        (shardOf (Vector.ofFn fun i => dataBlock config.shardLen payload i) config.parityShards)
      originalPayloadLen := payload.length } := by
  unfold encode
  rw [if_neg (by omega), finRange_add, List.map_append, List.map_map, List.map_map, ← written_data, ← written_parity]

end Shards

/-! ### The payload in the data shards -/

theorem flatMap_chunks {sl : ℕ} (bytes : List Gf) :
    ∀ k, ((range k).flatMap fun i => (bytes.drop (i * sl)).take sl) = bytes.take (k * sl)
  | 0 => by simp
  | k + 1 => by
    rw [range_succ, flatMap_append, flatMap_chunks bytes k, Nat.succ_mul, take_add]
    simp

def zeroPadded (capacity : ℕ) (payload : List Gf) : List Gf :=
  payload ++ replicate (capacity - payload.length) 0

theorem dataBlock_toList {k sl i : ℕ} {payload : List Gf} (hp : payload.length ≤ k * sl) (hi : i < k) :
    (dataBlock sl payload i).toList = ((zeroPadded (k * sl) payload).drop (i * sl)).take sl := by
  have hfit : i * sl + sl ≤ k * sl := by
    rw [← Nat.succ_mul]
    exact Nat.mul_le_mul_right sl hi
  have hlen : (zeroPadded (k * sl) payload).length = k * sl := by
    simp only [zeroPadded, length_append, length_replicate]
    omega
  refine ext_getElem (by simp only [Vector.length_toList, length_take, length_drop, hlen]; omega)
    fun b h1 h2 => ?_
  have hb : b < sl := by simpa using h1
  simp only [dataBlock, Vector.getElem_toList, Vector.getElem_ofFn, getElem_take, getElem_drop,
    zeroPadded, getElem_append, getElem_replicate]
  by_cases hin : i * sl + b < payload.length
  · rw [if_pos (by omega), dif_pos hin, getD_eq_getElem?_getD, getElem?_eq_getElem hin]
    rfl
  · rw [if_neg (by omega), dif_neg hin]

theorem data_payload {k sl : ℕ} {payload : List Gf} (hp : payload.length ≤ k * sl) :
    (Vector.ofFn fun i : Fin k => dataBlock sl payload i).toList.flatMap Vector.toList =
      zeroPadded (k * sl) payload := by
  have hlen : (zeroPadded (k * sl) payload).length = k * sl := by
    simp only [zeroPadded, length_append, length_replicate]
    omega
  calc (Vector.ofFn fun i : Fin k => dataBlock sl payload i).toList.flatMap Vector.toList
      = (finRange k).flatMap fun i : Fin k => (dataBlock sl payload i).toList := by
        rw [Vector.toList_ofFn, ofFn_eq_map, flatMap_map]
    _ = (finRange k).flatMap fun i : Fin k => ((zeroPadded (k * sl) payload).drop (i * sl)).take sl :=
        flatMap_congr fun i _ => dataBlock_toList hp i.isLt
    _ = (range k).flatMap fun i => ((zeroPadded (k * sl) payload).drop (i * sl)).take sl := by
        rw [← map_coe_finRange_eq_range, flatMap_map]
    _ = zeroPadded (k * sl) payload := by
        rw [flatMap_chunks, take_of_length_le (by omega)]

/-! ### The choice of rows -/

section Select

variable {w : ℕ} (available : Vector (Option ErasureShard) w)

theorem selectRows_eq (k : ℕ) : ∀ (rows sel : List (Fin w)),
    selectRows available k rows sel = sel ++ (rows.filter fun i => (available.get i).isSome).take (k - sel.length)
  | [], sel => by simp [selectRows]
  | i :: rows, sel => by
    have hcons : selectRows available k (i :: rows) sel =
        selectRows available k rows (if (available.get i).isSome ∧ sel.length < k then sel ++ [i] else sel) := rfl
    rw [hcons]
    by_cases hi : (available.get i).isSome = true
    · rw [filter_cons, if_pos hi]
      by_cases hlt : sel.length < k
      · rw [if_pos ⟨hi, hlt⟩, selectRows_eq k rows, append_assoc, length_append, length_singleton,
          show k - sel.length = k - (sel.length + 1) + 1 by omega, take_succ_cons]
        rfl
      · rw [if_neg fun h => hlt h.2, selectRows_eq k rows, show k - sel.length = 0 by omega]
        simp
    · rw [filter_cons, if_neg hi, if_neg fun h => hi h.1, selectRows_eq k rows]

end Select

section Chosen

variable {k m : ℕ} (available : Vector (Option ErasureShard) (k + m))

/-- The chosen rows are distinct rows of shards that are there, and enough of them. -/
theorem chooseRows_spec (hmiss : ((finRange (k + m)).filter fun i => (available.get i).isNone).length ≤ m) :
    k ≤ (chooseRows available).length ∧ (chooseRows available).Nodup ∧ ∀ i ∈ chooseRows available, (available.get i).isSome := by
  let dataRows := ((finRange k).map (Fin.castAdd m)).filter fun i => (available.get i).isSome
  let parityRows := ((finRange m).map (Fin.natAdd k)).filter fun i => (available.get i).isSome
  have hdata : dataRows.length ≤ k := by
    refine (length_filter_le _ _).trans ?_
    rw [length_map, length_finRange]
  have hchosen : chooseRows available = dataRows ++ parityRows.take (k - dataRows.length) := by
    have hfirst : selectRows available k ((finRange k).map (Fin.castAdd m)) [] = dataRows := by
      rw [selectRows_eq, nil_append, length_nil, Nat.sub_zero, take_of_length_le hdata]
    rw [chooseRows, hfirst, selectRows_eq]
  have hpresent : ((finRange (k + m)).filter fun i => (available.get i).isSome) = dataRows ++ parityRows := by
    rw [finRange_add, filter_append]
  have hsub : (chooseRows available).Sublist ((finRange (k + m)).filter fun i => (available.get i).isSome) := by
    rw [hchosen, hpresent]
    exact (take_sublist _ _).append_left dataRows
  refine ⟨?_, hsub.nodup ((nodup_finRange _).filter _), fun i hi => ?_⟩
  · have hcount := length_eq_length_filter_add (l := finRange (k + m)) fun i => (available.get i).isSome
    simp only [not_isSome] at hcount
    rw [hpresent, length_finRange, length_append] at hcount
    rw [hchosen, length_append, length_take]
    omega
  · simpa using of_mem_filter (hsub.subset hi)

end Chosen

/-! ### Recovery -/

section Recover

variable {k m sl : ℕ} (data : GfMatrix k sl) {source : Fin k → Fin (k + m)}

theorem regular_source (hkm : k + m ≤ 256) (hinj : Function.Injective source) :
    Regular k (entry (Vector.ofFn fun o => (buildCauchyEncoding k m)[source o])) := by
  intro v hv
  have hsource : ∀ o (ho : o < k), (if h : o < k then (source ⟨o, h⟩).val else 0) = source ⟨o, ho⟩ :=
    fun o ho => dif_pos ho
  refine @regular_rows k m (fun o => if h : o < k then (source ⟨o, h⟩).val else 0) hkm
    (fun o ho => by rw [hsource o ho]; exact (source ⟨o, ho⟩).isLt) (fun a ha b hb he => ?_) v fun o ho => ?_
  · have ha' : a < k := Finset.mem_range.mp ha
    have hb' : b < k := Finset.mem_range.mp hb
    simp only [hsource a ha', hsource b hb'] at he
    exact congrArg Fin.val (hinj (Fin.ext he))
  · rw [← hv o ho]
    refine Finset.sum_congr rfl fun j hj => ?_
    have hj' : j < k := Finset.mem_range.mp hj
    simp only [hsource o ho]
    rw [entry_eq _ (source ⟨o, ho⟩).isLt hj', entry_of_row _ ho hj' (Vector.getElem_ofFn ho)]
    rfl

variable {inv : GfMatrix k k} (hinv : ∀ i < k, ∀ j < k,
  ∑ l ∈ Finset.range k, entry inv i l * entry (Vector.ofFn fun o => (buildCauchyEncoding k m)[source o]) l j =
    if i = j then 1 else 0)
include hinv

/-- The inverse of the chosen rows gives back the data. -/
theorem recovered {i : ℕ} (hi : i < k) :
    combine inv[i] (Vector.ofFn fun o => coded data m (source o)) = data[i] := by
  refine Vector.ext fun b hb => ?_
  have hsolve := solve hinv (fun j => entry data j b) hi
  rw [entry_eq data hi hb] at hsolve
  rw [combine_getElem _ _ hb, ← hsolve, Finset.sum_range]
  refine Finset.sum_congr rfl fun l _ => ?_
  rw [entry_eq inv hi l.isLt]
  congr 1
  have hrow : (Vector.ofFn fun o => coded data m (source o))[l] = coded data m (source l) := Vector.getElem_ofFn l.isLt
  rw [hrow, coded_getElem data _ hb]
  refine Finset.sum_congr rfl fun j hj => ?_
  have hj' : j < k := Finset.mem_range.mp hj
  rw [entry_eq _ (source l).isLt hj', entry_of_row _ l.isLt hj' (Vector.getElem_ofFn l.isLt)]
  rfl

/-- The data and the missing shards from the inverse of the chosen rows. -/
theorem rebuildMissing_coded (missing : List (Fin (k + m))) :
    rebuildMissing inv (Vector.ofFn fun o => coded data m (source o)) missing k =
      ⟨data.toList.flatMap Vector.toList, missing.map (shardOf data m)⟩ := by
  have hdata : ((inv.toList.take k).map fun coeffs =>
      combine coeffs (Vector.ofFn fun o => coded data m (source o))) = data.toList := by
    refine ext_getElem (by simp) fun i h1 h2 => ?_
    have hi : i < k := by simpa using h2
    simpa using recovered data hinv hi
  have hpadded : (Vector.ofFn fun i : Fin k => data.toList.getD i (Vector.replicate sl 0)) = data := by
    refine Vector.ext fun i hi => ?_
    rw [Vector.getElem_ofFn, getD_eq_getElem?_getD, getElem?_eq_getElem (by simpa using hi)]
    simp
  unfold rebuildMissing
  simp only [hdata, hpadded]
  congr 1
  refine map_congr_left fun idx _ => ?_
  unfold shardOf
  by_cases hidx : idx.val < k
  · have hrow : coded data m idx = data[idx.val] := coded_castAdd data ⟨idx, hidx⟩
    rw [dif_pos hidx, if_pos hidx, hrow]
  · rw [dif_neg hidx, if_neg hidx]
    have hrow : rebuildParity m data ⟨idx.val - k, by omega⟩ = coded data m ⟨k + (idx.val - k), by omega⟩ := rfl
    have hidx' : (⟨k + (idx.val - k), by omega⟩ : Fin (k + m)) = idx := Fin.ext (by simp only; omega)
    rw [hrow, hidx']

omit hinv in
/-- **A stripe with at most `m` shards missing is rebuilt.** -/
theorem reconstructDegraded_coded (hkm : k + m ≤ 256) {available : Vector (Option ErasureShard) (k + m)}
    (hav : ∀ i : Fin (k + m), (available.get i).isSome → available.get i = some (shardOf data m i))
    (hmiss : ((finRange (k + m)).filter fun i => (available.get i).isNone).length ≤ m)
    (missing : List (Fin (k + m))) : reconstructDegraded k m sl available missing k =
      some (some ⟨data.toList.flatMap Vector.toList, missing.map (shardOf data m)⟩) := by
  obtain ⟨hlen, hnodup, hthere⟩ := chooseRows_spec available hmiss
  let source : Fin k → Fin (k + m) := fun o => (chooseRows available).get ⟨o, by omega⟩
  have hinj : Function.Injective source := fun a b he => by
    have hget := nodup_iff_injective_get.mp hnodup he
    exact Fin.ext (Fin.mk.inj hget)
  have hbytes : ∀ o, bytesAt available (source o) = (coded data m (source o)).toList := fun o => by
    have hshard : available[source o] = some (shardOf data m (source o)) := hav _ (hthere _ (get_mem _ _))
    rw [bytesAt, hshard]
    rfl
  have hwidth : ∀ o, (bytesAt available (source o)).length = sl := fun o => by
    rw [hbytes, Vector.length_toList]
  obtain ⟨inv, hinv, hone⟩ := invertMatrix_spec (regular_source hkm hinj)
  have hrhs : (Vector.ofFn fun o : Fin k => (⟨(bytesAt available (source o)).toArray, hwidth o⟩ : Vector Gf sl)) =
      Vector.ofFn fun o => coded data m (source o) := by
    refine congrArg Vector.ofFn (funext fun o => Vector.toList_inj.mp ?_)
    exact hbytes o
  unfold reconstructDegraded
  rw [dif_neg (by omega), dif_pos hwidth, hrhs, hinv, ← rebuildMissing_coded data hone]

end Recover

/-! ### Losing shards -/

/-- The shards that are left when those at the positions `lost` are gone. -/
def lose (lost : Finset ℕ) (shards : List ErasureShard) : List (Option ErasureShard) :=
  shards.mapIdx fun i shard => if i ∈ lost then none else some shard

section Lose

variable {k m sl : ℕ} (data : GfMatrix k sl) (lost : Finset ℕ)

theorem lose_shards : lose lost ((finRange (k + m)).map (shardOf data m)) =
    (finRange (k + m)).map fun i : Fin (k + m) => if i.val ∈ lost then none else some (shardOf data m i) := by
  refine ext_getElem (by simp [lose]) fun i h1 h2 => ?_
  simp [lose]

theorem length_missing_le : ((finRange (k + m)).filter fun i : Fin (k + m) => i.val ∈ lost).length ≤ lost.card := by
  rw [← length_map Fin.val, ← toFinset_card_of_nodup]
  · refine Finset.card_le_card fun n hn => ?_
    obtain ⟨i, hi, rfl⟩ := mem_map.mp (mem_toFinset.mp hn)
    simpa using of_mem_filter hi
  · exact ((nodup_finRange _).filter _).map Fin.val_injective

theorem rebuilt_eq : ((List.finRange (k + m)).filter fun i : Fin (k + m) => i.val ∈ lost).map (shardOf data m) =
    ((List.finRange (k + m)).map (shardOf data m)).filter fun shard => shard.index ∈ lost := by
  rw [List.filter_map]
  rfl

/-- With nothing missing the data shards are joined as they are. -/
theorem joined_eq : (((finRange (k + m)).map fun i => some (shardOf data m i)).take k).flatMap
    (fun shard => (shard.map ErasureShard.bytes).getD []) = data.toList.flatMap Vector.toList := by
  have htake : ((List.finRange (k + m)).map fun i => some (shardOf data m i)).take k =
      (List.finRange k).map fun i => some (shardOf data m (Fin.castAdd m i)) := by
    rw [finRange_add, List.map_append, List.map_map, List.take_left' (by simp)]
    rfl
  have hdata : data.toList = (List.finRange k).map fun i => data[i] := by
    refine ext_getElem (by simp) fun i h1 h2 => ?_
    simp
  rw [htake, hdata, flatMap_map, flatMap_map]
  refine flatMap_congr fun i _ => ?_
  have hrow : coded data m (Fin.castAdd m i) = data[i] := coded_castAdd data i
  rw [← hrow]
  rfl

theorem reconstructSlots_coded (hk : 1 ≤ k) (hkm : k + m ≤ 256) (hcard : lost.card ≤ m)
    {slots : Vector (Option ErasureShard) (k + m)}
    (hslots : ∀ i : Fin (k + m), slots[i] = if i.val ∈ lost then none else some (shardOf data m i)) :
    reconstructSlots k m sl slots k = some (some {
      payload := data.toList.flatMap Vector.toList
      rebuiltShards := ((finRange (k + m)).map (shardOf data m)).filter fun shard => shard.index ∈ lost }) := by
  have hnone : ∀ i : Fin (k + m), slots[i].isNone = decide (i.val ∈ lost) := fun i => by
    rw [hslots i]
    split_ifs with hi <;> simp [hi]
  have hmissing : ((finRange (k + m)).filter fun i => slots[i].isNone) =
      (finRange (k + m)).filter fun i => i.val ∈ lost := filter_congr fun i _ => hnone i
  have hfew : ((finRange (k + m)).filter fun i => slots[i].isNone).length ≤ m := by
    rw [hmissing]
    exact (length_missing_le lost).trans hcard
  have hcount := length_eq_length_filter_add (l := finRange (k + m)) fun i => slots[i].isSome
  simp only [not_isSome, length_finRange] at hcount
  have hav : ∀ i : Fin (k + m), slots[i].isSome → slots[i] = some (shardOf data m i) := fun i hi => by
    have hi' := hnone i
    rw [isNone_eq_false_iff.mpr hi] at hi'
    rw [hslots i, if_neg (of_decide_eq_false hi'.symm)]
  unfold reconstructSlots
  rw [if_neg (by omega), if_neg (by omega)]
  by_cases hall : ((finRange (k + m)).filter fun i => slots[i].isNone) = []
  · have hlist : slots.toList = (finRange (k + m)).map fun i => some (shardOf data m i) := by
      refine ext_getElem (by simp) fun i h1 h2 => ?_
      have hi : i < k + m := by simpa using h2
      have hthere : slots[(⟨i, hi⟩ : Fin (k + m))].isSome := by
        have hnot := filter_eq_nil_iff.mp hall ⟨i, hi⟩ (mem_finRange _)
        exact isSome_iff_ne_none.mpr fun he => hnot (isNone_iff_eq_none.mpr he)
      simpa using hav ⟨i, hi⟩ hthere
    rw [if_pos hall, hlist, joined_eq, ← rebuilt_eq, ← hmissing, hall]
    rfl
  · rw [if_neg hall, if_neg (by omega), reconstructDegraded_coded data hkm hav hfew, hmissing, rebuilt_eq]

end Lose

/-- **Any stripe survives the loss of as many shards as it has parity shards.** What was
written is read back with zeroes up to the capacity, and the rebuilt shards are the lost
ones. -/
theorem reconstruct_encode (config : StripeConfig) (payload : List Gf) (lost : Finset ℕ)
    (hk : 1 ≤ config.dataShards) (hkm : config.dataShards + config.parityShards ≤ 255)
    (hsl : 1 ≤ config.shardLen) (hp : payload.length ≤ config.dataShards * config.shardLen)
    (hcard : lost.card ≤ config.parityShards) : ∃ stripe, encode config payload = some stripe ∧
      stripe.shards.length = config.dataShards + config.parityShards ∧
      (∀ (i : ℕ) (shard : ErasureShard), stripe.shards[i]? = some shard → shard.index = i) ∧
      reconstruct config (lose lost stripe.shards) none = some (some {
        payload := payload ++ replicate (config.dataShards * config.shardLen - payload.length) 0
        rebuiltShards := stripe.shards.filter fun shard => shard.index ∈ lost }) := by
  let data : GfMatrix config.dataShards config.shardLen := Vector.ofFn fun i => dataBlock config.shardLen payload i
  refine ⟨_, encode_eq (by omega) (by omega) hp, by simp, fun i shard h => ?_, ?_⟩
  · obtain ⟨hi, rfl⟩ := List.getElem?_eq_some_iff.mp h
    simp [shardOf]
  · have hw : (lose lost ((List.finRange (config.dataShards + config.parityShards)).map
        (shardOf data config.parityShards))).length = config.stripeWidth := by
      rw [lose_shards, length_map, length_finRange]
      rfl
    unfold reconstruct
    rw [dif_pos hw, getD_none, reconstructSlots_coded data lost hk (by omega) hcard fun i => ?_, data_payload hp]
    · rfl
    · simp [lose, data]

/-- Two data shards and two parity shards, of which one each is lost. -/
theorem reconstruct_encode_pair : ∃ stripe, encode ⟨2, 2, 1⟩ [asU8 7, asU8 9] = some stripe ∧
    stripe.shards.length = 4 ∧ (∀ (i : ℕ) (shard : ErasureShard), stripe.shards[i]? = some shard → shard.index = i) ∧
    reconstruct ⟨2, 2, 1⟩ (lose {0, 2} stripe.shards) none = some (some {
      payload := [asU8 7, asU8 9] ++ replicate 0 0
      rebuiltShards := stripe.shards.filter fun shard => shard.index ∈ ({0, 2} : Finset ℕ) }) :=
  reconstruct_encode ⟨2, 2, 1⟩ [asU8 7, asU8 9] {0, 2} (by decide) (by decide) (by decide) (by decide) (by decide)

end Tidefs.Erasure
