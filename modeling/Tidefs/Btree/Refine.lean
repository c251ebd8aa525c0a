/-
# The tree is a finite map

A well-shaped tree with ascending keys passes its own validation
(`validate_eq_ok`). It stands for the map with the same entries (`Refines`), and
each operation takes a tree that stands for a map to one that stands for the map
after the operation (`step_refines`). So after any operations the tree passes
validation and answers every read as the map does (`btree_refines_map`).
-/
import Tidefs.Btree.Rebuild

namespace Tidefs.Btree

open Ordered Word BTreeNode BPlusTree Option
open List hiding insert lookup lookup_cons_self not_lt

variable {P : Params} {K V : Type}

/-! ### Validation -/

theorem verifyChildren_eq_ok : ∀ {cs : List (BTreeNode K V)}, (∀ c ∈ cs, verifyNodeChecksums P c = .ok ()) →
    verifyChildren P cs = .ok ()
  | [], _ => rfl
  | c :: cs, h => by
    rw [verifyChildren, h c (mem_cons_self ..)]
    exact verifyChildren_eq_ok fun c hc => h c (mem_cons_of_mem _ hc)

variable {h : ℕ} {root : Bool} {n : BTreeNode K V}

theorem verifyNodeChecksums_eq_ok (hg : Good P h root n) : verifyNodeChecksums P n = .ok () := by
  induction h generalizing root n with
  | zero =>
    cases hg
    rw [leafOver, verifyNodeChecksums, if_neg (not_not.mpr rfl)]
  | succ h ih =>
    cases hg with
    | internal h1 _ _ _ _ =>
      rw [verifyNodeChecksums, if_neg (not_not.mpr rfl)]
      exact verifyChildren_eq_ok fun c hc => ih (h1 c hc)

/-- Every separator is the key of an entry to its right. -/
theorem exists_entry_of_separator (hP : P.Valid) : ∀ {cs : List (BTreeNode K V)} {keys : List K},
    (∀ c ∈ cs, Good P h false c) → List.Forall₂ (fun c k => minKey c = some k) cs keys →
    ∀ k ∈ keys, ∃ e ∈ collectChildren cs, e.1 = k
  | [], [], _, .nil, k, hk => absurd hk (by simp)
  | c :: cs, _ :: keys, hgood, .cons hc hs, k, hk => by
    rcases mem_cons.mp hk with rfl | hk
    · rw [minKey_eq hP (hgood c (mem_cons_self ..))] at hc
      obtain ⟨e, he, rfl⟩ := map_eq_some_iff.mp hc
      exact ⟨e, mem_append_left _ (mem_of_mem_head? he), rfl⟩
    · obtain ⟨e, he, rfl⟩ :=
        exists_entry_of_separator hP (fun c hc => hgood c (mem_cons_of_mem _ hc)) hs k hk
      exact ⟨e, mem_append_right _ he, rfl⟩

theorem depth_eq (hg : Good P h root n) : depth n = some (h + 1) := by
  induction h generalizing root n with
  | zero => cases hg; rfl
  | succ h ih =>
    cases hg with
    | internal h1 h2 _ _ _ =>
      obtain ⟨c, cs, rfl⟩ := exists_cons_of_two_le h2
      show (depth c).map (1 + ·) = some (h + 1 + 1)
      rw [ih (h1 c (mem_cons_self ..)), map_some, add_comm]

variable [LinearOrder K]

theorem windowsAscend_of_pairwise : ∀ {l : List K}, l.Pairwise (· < ·) → windowsAscend l = true
  | [], _ => rfl
  | [_], _ => rfl
  | a :: b :: l, h => by
    rw [pairwise_cons] at h
    rw [windowsAscend, windowsAscend_of_pairwise h.2, Bool.and_true, decide_eq_true_eq]
    exact h.1 b (mem_cons_self ..)

theorem separatorsMatch_of_forall₂ : ∀ {cs : List (BTreeNode K V)} {keys : List K},
    List.Forall₂ (fun c k => minKey c = some k) cs keys → separatorsMatch keys cs = some true
  | _, _, .nil => rfl
  | _, _, .cons h hs => by
    rw [separatorsMatch, h, bind_some, if_neg (not_not.mpr rfl), separatorsMatch_of_forall₂ hs]

theorem separators_ascend (hP : P.Valid) : ∀ {cs : List (BTreeNode K V)} {keys : List K},
    (∀ c ∈ cs, Good P h false c) → Ascending (collectChildren cs) →
    List.Forall₂ (fun c k => minKey c = some k) cs keys → keys.Pairwise (· < ·)
  | [], [], _, _, .nil => .nil
  | c :: cs, _ :: keys, hgood, hasc, .cons hc hs => by
    rw [collectChildren_cons] at hasc
    obtain ⟨-, hrest, hlt⟩ := Ascending.append_iff.mp hasc
    have hgood' := fun c hc => hgood c (mem_cons_of_mem _ hc)
    refine pairwise_cons.mpr ⟨fun k hk => ?_, separators_ascend hP hgood' hrest hs⟩
    obtain ⟨e, he, rfl⟩ := exists_entry_of_separator hP hgood' hs k hk
    rw [minKey_eq hP (hgood c (mem_cons_self ..))] at hc
    obtain ⟨e₀, he₀, rfl⟩ := map_eq_some_iff.mp hc
    exact hlt e₀ (mem_of_mem_head? he₀) e he

theorem validateChildren_eq_ok : ∀ {cs : List (BTreeNode K V)}, (∀ c ∈ cs, validateNode P false c = some (.ok ())) →
    validateChildren P cs = some (.ok ())
  | [], _ => rfl
  | c :: cs, h => by
    rw [validateChildren, h c (mem_cons_self ..), bind_some]
    exact validateChildren_eq_ok fun c hc => h c (mem_cons_of_mem _ hc)

theorem ascending_of_mem {c : BTreeNode K V} : ∀ {cs : List (BTreeNode K V)}, c ∈ cs → Ascending (collectChildren cs) →
    Ascending (collectAll c)
  | d :: cs, hc, hasc => by
    obtain ⟨h1, h2, -⟩ := Ascending.append_iff.mp hasc
    rcases mem_cons.mp hc with rfl | hc
    · exact h1
    · exact ascending_of_mem hc h2

theorem not_underfull {size min : ℕ} (h : root = false → min ≤ size) : ¬ (!root && decide (size < min)) = true := by
  cases root with
  | true => simp
  | false => simpa using h rfl

theorem validateNode_eq_ok (hP : P.Valid) (hg : Good P h root n)
    (hasc : Ascending (collectAll n)) : validateNode P root n = some (.ok ()) := by
  induction h generalizing root n with
  | zero =>
    cases hg with
    | @leaf _ entries hmax hmin =>
      have hkeys : windowsAscend (entries.map Prod.fst) = true :=
        windowsAscend_of_pairwise (pairwise_map.mpr hasc)
      rw [leafOver, validateNode, if_neg (not_lt.mpr hmax), if_neg (not_underfull hmin), hkeys]
      rfl
  | succ h ih =>
    cases hg with
    | @internal _ _ keys children h1 h2 hmax hmin hkeys =>
      change Ascending (collectChildren children) at hasc
      have hrel := forall₂_of_mapM hkeys
      have hlen : keys.length = children.length - 1 := by rw [← hrel.length_eq, length_drop]
      have hsep : keys.Pairwise (· < ·) := by
        refine separators_ascend hP (fun c hc => h1 c (mem_of_mem_drop hc)) ?_ hrel
        have hcut := collectChildren_append (children.take 1) (children.drop 1)
        rw [take_append_drop] at hcut
        rw [hcut] at hasc
        exact (Ascending.append_iff.mp hasc).2.1
      rw [validateNode, if_neg (by omega), if_neg (by omega), if_neg (not_underfull hmin), if_neg (not_not.mpr hlen),
        separatorsMatch_of_forall₂ hrel, bind_some, windowsAscend_of_pairwise hsep]
      exact validateChildren_eq_ok fun c hc => ih (h1 c hc) (ascending_of_mem hc hasc)

/-! ### The map a tree stands for -/

/-- The tree is well shaped and has the entries of the map. -/
structure Refines (P : Params) (t : BPlusTree K V) (m : OrdMap K V) : Prop where
  shape : ∃ h, Good P h true t.root
  entries : t.entries = m.entries
  len : t.len = m.entries.length

variable {t : BPlusTree K V} {m : OrdMap K V}

theorem validate_eq_ok (hP : P.Valid) (h : Refines P t m) : t.validate P = some (.ok ()) := by
  obtain ⟨⟨height, hg⟩, hentries, hlen⟩ := h
  have hasc : Ascending (collectAll t.root) := by
    show Ascending t.entries
    rw [hentries]
    exact m.sorted
  unfold validate
  split_ifs with h0
  · have hnil : collectAll t.root = [] := by
      show t.entries = []
      rw [hentries, ← length_eq_zero_iff, ← hlen, h0]
    -- only a leaf can be empty
    generalize t.root = root at hg hnil
    cases hg with
    | leaf _ _ =>
      obtain rfl := hnil
      simp [leafOver]
    | internal h1 h2 _ _ _ =>
      obtain ⟨c, cs, rfl⟩ := exists_cons_of_two_le h2
      exact absurd (append_eq_nil_iff.mp hnil).1 ((h1 c (mem_cons_self ..)).collectAll_ne_nil hP)
  · rw [validateNode_eq_ok hP hg hasc, map_some]
    exact congrArg some (verifyNodeChecksums_eq_ok hg)

theorem Refines.get (hP : P.Valid) (h : Refines P t m) (key : K) : t.get key = some (m.get? key) := by
  obtain ⟨⟨height, hg⟩, hentries, -⟩ := h
  have hread := getInNode_eq hP key hg (show Ascending t.entries from hentries ▸ m.sorted)
  rw [BPlusTree.get, hread]
  show some (lookup key t.entries) = some (m.get? key)
  rw [hentries]
  rfl

theorem Refines.floorEntry (hP : P.Valid) (h : Refines P t m) (key : K) : t.floorEntry key = some (m.lastLE key) := by
  obtain ⟨⟨height, hg⟩, hentries, -⟩ := h
  have hread := floorEntry_eq hP key hg (show Ascending t.entries from hentries ▸ m.sorted)
  rw [BPlusTree.floorEntry, hread]
  show some (floor key t.entries) = some (m.lastLE key)
  rw [hentries]
  rfl

theorem refines_rebuild (hP : P.Valid) (m : OrdMap K V) :
    ∃ t, rebuildCompact P m.entries = some t ∧ Refines P t m := by
  obtain ⟨t, h, h1, h2, h3, h4⟩ := rebuildCompact_spec hP m.entries
  exact ⟨t, h1, ⟨h, h2⟩, h3, h4⟩

/-- Packing the entries of a map and compacting gives a tree that stands for it. -/
theorem refines_packed (hP : P.Valid) (m : OrdMap K V) :
    ∃ t t', rebuild P m.entries = some t ∧ t.compact P = some t' ∧ Refines P t' m := by
  obtain ⟨t, h1, h2, h3⟩ := rebuild_spec hP m.entries
  by_cases h0 : t.isEmpty = true
  · have hnil : m.entries = [] := by
      rw [← length_eq_zero_iff, ← h3]
      simpa [BPlusTree.isEmpty] using h0
    have ht : t = ⟨.leaf [] (leafChecksum P 0), 0⟩ := by
      rw [hnil] at h1
      exact (some.inj h1).symm
    refine ⟨t, t, h1, by rw [compact, if_pos h0], ⟨0, ?_⟩, h2, h3⟩
    rw [ht]
    exact .leaf (Nat.zero_le _) fun h => Bool.noConfusion h
  · obtain ⟨t', h4, h5⟩ := refines_rebuild hP m
    exact ⟨t, t', h1, by rw [compact, if_neg h0, h2, h4], h5⟩

theorem Refines.depth (h : Refines P t m) : ∃ d, t.depth = some d := by
  obtain ⟨⟨height, hg⟩, -, -⟩ := h
  unfold BPlusTree.depth
  by_cases h0 : t.len = 0
  · exact ⟨1, if_pos h0⟩
  · exact ⟨height + 1, by rw [if_neg h0, depth_eq hg]⟩

theorem refines_new : Refines P (new P : BPlusTree K V) OrdMap.empty :=
  ⟨⟨0, .leaf (Nat.zero_le _) fun h => Bool.noConfusion h⟩, rfl, rfl⟩

/-! ### Operations -/

/-- The calls that change a tree. -/
inductive Op (K V : Type) where
  | new
  | insert (key : K) (value : V)
  | delete (key : K)
  | update (key : K) (f : V → V)
  | clear
  | compact

/-- What an operation returns. -/
inductive Reply (V : Type) where
  | previous (value : Option V)
  | found (present : Bool)
  | done

def step (P : Params) (t : BPlusTree K V) : Op K V → Option (BPlusTree K V × Reply V)
  | .new => some (BPlusTree.new P, .done)
  | .insert key value => (t.insert P key value).map fun r => (r.1, .previous r.2)
  | .delete key => (t.delete P key).map fun r => (r.1, .previous r.2)
  | .update key f => (t.update P key f).map fun r => (r.1, .found r.2)
  | .clear => some (BPlusTree.clear P, .done)
  | .compact => (t.compact P).map fun t' => (t', .done)

/-- The operation on the map. -/
def applyOp (m : OrdMap K V) : Op K V → OrdMap K V
  | .new | .clear => OrdMap.empty
  | .insert key value => m.insert key value
  | .delete key => m.erase key
  | .update key f =>
    match m.get? key with
    | some value => m.insert key (f value)
    | none => m
  | .compact => m

/-- What the operation says about the map before it. -/
def replyOp (m : OrdMap K V) : Op K V → Reply V
  | .insert key _ | .delete key => .previous (m.get? key)
  | .update key _ => .found (m.get? key).isSome
  | .new | .clear | .compact => .done

theorem Refines.insert (hP : P.Valid) (h : Refines P t m) (key : K) (value : V) :
    ∃ t', t.insert P key value = some (t', m.get? key) ∧ Refines P t' (m.insert key value) := by
  obtain ⟨⟨height, hg⟩, hentries, hlen⟩ := h
  have hasc : Ascending (collectAll t.root) := show Ascending t.entries from hentries ▸ m.sorted
  obtain ⟨n, split, h1, h2⟩ := insertIntoNode_spec hP key value hg hasc
  have hall : collectAll t.root = m.entries := hentries
  have hget : lookup key m.entries = m.get? key := rfl
  rw [hall, hget] at h1
  rw [hall] at h2
  -- the count grows exactly if the key had no binding
  have hcount : (if (m.get? key).isNone then t.len + 1 else t.len) = (m.insert key value).entries.length := by
    have hlength := m.length_insert key value
    rw [hlen]
    generalize m.get? key = old at hlength ⊢
    cases old with
    | none => exact hlength.symm
    | some _ => exact (add_right_cancel hlength).symm
  cases split with
  | none =>
    refine ⟨⟨n, _⟩, ?_, ⟨height, h2.1⟩, h2.2, hcount⟩
    rw [BPlusTree.insert, h1]
    rfl
  | some right =>
    obtain ⟨hl, hr, hlr⟩ := h2
    have hgood : ∀ c ∈ [n, right], Good P height false c :=
      forall_mem_cons.mpr ⟨hl, forall_mem_singleton.mpr hr⟩
    have hmax : [n, right].length ≤ P.maxInternal := by
      have := hP.internal
      simp only [length_cons, length_nil]
      omega
    obtain ⟨root, h3, h4, h5⟩ := nodeOver_good hP true hgood le_rfl hmax fun h => Bool.noConfusion h
    refine ⟨⟨root, if (m.get? key).isNone then t.len + 1 else t.len⟩, ?_, ⟨height + 1, h4⟩, ?_, hcount⟩
    · rw [BPlusTree.insert, h1, bind_some]
      dsimp only
      rw [h3, map_some]
    · show collectAll root = _
      rw [h5, collectChildren_cons, collectChildren_cons, collectChildren_nil, append_nil, hlr]
      rfl

theorem Refines.delete (hP : P.Valid) (h : Refines P t m) (key : K) :
    ∃ t', t.delete P key = some (t', m.get? key) ∧ Refines P t' (m.erase key) := by
  have hget : lookup key m.entries = m.get? key := rfl
  have herase : (m.erase key).entries = eraseList key m.entries := rfl
  unfold BPlusTree.delete
  rw [h.entries]
  rcases searchKey_cases m.sorted key with ⟨A, v, C, h3, h4, hA, hC⟩ | ⟨A, C, h3, h4, hA, hC⟩
  · have hentries : (m.erase key).entries = A ++ C := by rw [herase, h3, eraseList_hit v hA hC]
    obtain ⟨t', h5, h6⟩ := refines_rebuild hP (m.erase key)
    refine ⟨t', ?_, h6⟩
    rw [h4, ← hget, h3, lookup_append_below hA, lookup_cons_self]
    dsimp only
    rw [eraseIdx_length_append, ← hentries, h5]
    simp
  · have hnone : lookup key m.entries = none := by
      rw [h3, lookup_append_below hA, lookup_eq_none_of_above hC]
    refine ⟨t, ?_, h.shape, ?_, ?_⟩
    · rw [h4, ← hget, hnone]
    · rw [herase, eraseList_of_lookup_none hnone, h.entries]
    · rw [herase, eraseList_of_lookup_none hnone, h.len]

theorem Refines.update (hP : P.Valid) (h : Refines P t m) (key : K) (f : V → V) :
    ∃ t', t.update P key f = some (t', (m.get? key).isSome) ∧ Refines P t' (applyOp m (.update key f)) := by
  have hget : m.get? key = lookup key m.entries := rfl
  unfold BPlusTree.update
  rw [h.entries, hget]
  rcases searchKey_cases m.sorted key with ⟨A, v, C, h3, h4, hA, hC⟩ | ⟨A, C, h3, h4, hA, hC⟩
  · have hsome : lookup key m.entries = some v := by rw [h3, lookup_append_below hA, lookup_cons_self]
    have hentries : (m.insert key (f v)).entries = A ++ (key, f v) :: C := by
      show OrdMap.insertList key (f v) m.entries = _
      rw [h3, insertList_hit (f v) v hA]
    have happly : applyOp m (.update key f) = m.insert key (f v) := by simp [applyOp, hget, hsome]
    obtain ⟨t', h5, h6⟩ := refines_rebuild hP (m.insert key (f v))
    rw [hsome, happly]
    refine ⟨t', ?_, h6⟩
    rw [h4, h3]
    dsimp only
    rw [getElem?_append_right le_rfl, Nat.sub_self, getElem?_cons_zero, bind_some,
      set_length_append, ← hentries, h5]
    rfl
  · have hnone : lookup key m.entries = none := by
      rw [h3, lookup_append_below hA, lookup_eq_none_of_above hC]
    have happly : applyOp m (.update key f) = m := by simp [applyOp, hget, hnone]
    rw [hnone, happly]
    refine ⟨t, ?_, h⟩
    rw [h4]
    rfl

theorem Refines.compact (hP : P.Valid) (h : Refines P t m) : ∃ t', t.compact P = some t' ∧ Refines P t' m := by
  unfold BPlusTree.compact
  split_ifs with h0
  · exact ⟨t, rfl, h⟩
  · rw [h.entries]
    exact refines_rebuild hP m

/-- No operation panics, and each does to the tree what it does to the map. -/
theorem step_refines (hP : P.Valid) (h : Refines P t m) (op : Op K V) :
    ∃ t', step P t op = some (t', replyOp m op) ∧ Refines P t' (applyOp m op) := by
  cases op with
  | new => exact ⟨_, rfl, refines_new⟩
  | insert key value =>
    obtain ⟨t', h1, h2⟩ := h.insert hP key value
    exact ⟨t', by rw [step, h1]; rfl, h2⟩
  | delete key =>
    obtain ⟨t', h1, h2⟩ := h.delete hP key
    exact ⟨t', by rw [step, h1]; rfl, h2⟩
  | update key f =>
    obtain ⟨t', h1, h2⟩ := h.update hP key f
    exact ⟨t', by rw [step, h1]; rfl, h2⟩
  | clear => exact ⟨_, rfl, refines_new⟩
  | compact =>
    obtain ⟨t', h1, h2⟩ := h.compact hP
    exact ⟨t', by rw [step, h1]; rfl, h2⟩

/-! ### Whole runs -/

/-- The tree after the operations, from the empty one. -/
def run (P : Params) (ops : List (Op K V)) : Option (BPlusTree K V) :=
  ops.foldlM (fun t op => (step P t op).map Prod.fst) (BPlusTree.new P)

/-- The map after the operations. -/
def runMap (ops : List (Op K V)) : OrdMap K V := ops.foldl applyOp OrdMap.empty

theorem foldlM_refines (hP : P.Valid) : ∀ (ops : List (Op K V)) {t : BPlusTree K V} {m : OrdMap K V}, Refines P t m →
    ∃ t', ops.foldlM (fun t op => (step P t op).map Prod.fst) t = some t' ∧ Refines P t' (ops.foldl applyOp m)
  | [], t, _, h => ⟨t, rfl, h⟩
  | op :: ops, t, m, h => by
    obtain ⟨t₁, h1, h2⟩ := step_refines hP h op
    obtain ⟨t', h3, h4⟩ := foldlM_refines hP ops h2
    refine ⟨t', ?_, h4⟩
    rw [foldlM_cons, h1]
    exact h3

/-- **The tree refines a finite map.** After any operations it passes validation,
its entries are those of the map in ascending order, every read returns what the
map returns, and the next operation says of the key what the map says. -/
theorem btree_refines_map (P : Params) (hP : P.Valid) (ops : List (Op K V)) :
    ∃ t, run P ops = some t ∧ t.validate P = some (.ok ()) ∧
      t.entries = (runMap ops).entries ∧ t.entries.Pairwise (fun a b => a.1 < b.1) ∧
      t.len = (runMap ops).entries.length ∧
      (∀ key, t.get key = some ((runMap ops).get? key) ∧ t.containsKey key = some ((runMap ops).contains key) ∧
        t.floorEntry key = some ((runMap ops).lastLE key)) ∧
      ∀ op, ∃ t', step P t op = some (t', replyOp (runMap ops) op) := by
  obtain ⟨t, h1, h2⟩ := foldlM_refines hP ops (refines_new (P := P))
  refine ⟨t, h1, validate_eq_ok hP h2, h2.entries, ?_, h2.len, fun key => ⟨h2.get hP key, ?_, h2.floorEntry hP key⟩, ?_⟩
  · rw [h2.entries]
    exact (ops.foldl applyOp OrdMap.empty).sorted
  · rw [BPlusTree.containsKey, h2.get hP key]
    rfl
  · intro op
    obtain ⟨t', h3, -⟩ := step_refines hP h2 op
    exact ⟨t', h3⟩

/-- Leaves of one entry and internal nodes of three children, over a hash that
says nothing. -/
def smallest : Params := ⟨1, 3, fun _ => Vector.replicate 32 0⟩

/-- Ten keys in no order, then one taken out. -/
theorem btree_refines_map_smallest : smallest.Valid ∧
    ∃ t, run smallest (([5, 3, 8, 1, 9, 2, 7, 4, 6, 0].map fun k => Op.insert k (10 * k)) ++ [.delete 5]) = some t ∧
      t.validate smallest = some (.ok ()) ∧ t.len = 9 ∧ t.get 5 = some none ∧
      t.floorEntry 5 = some (some ((4 : ℕ), 40)) := by
  have hP : smallest.Valid := ⟨by decide, by decide⟩
  obtain ⟨t, h1, h2, -, -, h5, h6, -⟩ := btree_refines_map smallest hP
    (([5, 3, 8, 1, 9, 2, 7, 4, 6, 0].map fun k => Op.insert k (10 * k)) ++ [.delete 5])
  refine ⟨hP, t, h1, h2, h5.trans (by decide), ?_, ?_⟩
  · rw [(h6 5).1]
    decide
  · rw [(h6 5).2.2]
    decide

/-- `update` returns whether the key was there, so what it returns does not tell
the binding: the two trees bind key 1 to different values. -/
theorem update_hides_previous : ¬ ∃ decode : Bool → Option ℕ, ∀ (ops : List (Op ℕ ℕ)) (t t' : BPlusTree ℕ ℕ)
    (present : Bool), run smallest ops = some t → t.update smallest 1 id = some (t', present) →
    t.get 1 = some (decode present) := by
  rintro ⟨decode, h⟩
  have hP : smallest.Valid := ⟨by decide, by decide⟩
  have key : ∀ v : ℕ, decode true = some v := by
    intro v
    obtain ⟨t, h1, h2⟩ := foldlM_refines hP [Op.insert 1 v] (refines_new (P := smallest))
    have hget : (List.foldl applyOp OrdMap.empty [Op.insert 1 v]).get? 1 = some v := by
      simp [applyOp, OrdMap.get?_insert]
    obtain ⟨t', h3, -⟩ := h2.update hP 1 id
    rw [hget] at h3
    have := h _ t t' true h1 h3
    rw [h2.get hP 1, hget] at this
    exact (Option.some.inj this).symm
  have h0 := key 0
  rw [key 1] at h0
  simp at h0

end Tidefs.Btree
