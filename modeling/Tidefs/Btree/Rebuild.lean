/-
# Rebuilding the tree

More items than one node holds are dealt out to as few nodes as can hold them,
and then no node is less than half full: with `q` nodes of at most `m` items,
`q ≥ 2`, there are more than `(q - 1) m` items, and a `q`-th part of that is at
least half of `m`. So the loop that gives up nodes never runs (`shrinkParts_eq`),
each level of the tree is well shaped, and each has fewer nodes than the one
below, which ends the loop over the levels (`levelLoop_spec`).
-/
import Tidefs.Btree.Insert

namespace Tidefs.Btree

open Ordered Word BTreeNode List Option BPlusTree Nat

/-! ### Dealing out -/

section Arithmetic

variable {n m : ℕ} (hm : 1 ≤ m)
include hm

theorem two_le_parts (hn : m < n) : 2 ≤ divCeil n m := by
  have : 1 < divCeil n m := (lt_divCeil_iff hm).mpr (by omega)
  omega

/-- An even share is at least half of the maximum. -/
theorem half_le_share (hn : m < n) : divCeil m 2 ≤ n / divCeil n m := by
  have hq := two_le_parts hm hn
  have hlow : (divCeil n m - 1) * m < n := (lt_divCeil_iff hm).mp (by omega)
  have hhalf : 2 * divCeil m 2 ≤ m + 1 := by unfold divCeil; omega
  rw [Nat.le_div_iff_mul_le (by omega)]
  obtain ⟨r, hr⟩ := Nat.exists_eq_add_of_le hq
  obtain ⟨k, rfl⟩ := Nat.exists_eq_add_of_le hm
  rw [hr] at hlow ⊢
  have hsub : 2 + r - 1 = r + 1 := by omega
  rw [hsub] at hlow
  calc divCeil (1 + k) 2 * (2 + r) ≤ (r + 1) * (1 + k) + 1 := by nlinarith
    _ ≤ n := hlow

/-- An even share is at most the maximum, and less if one of the parts gets more. -/
theorem share_le (hn : m < n) : n / divCeil n m ≤ m ∧ (0 < n % divCeil n m → n / divCeil n m + 1 ≤ m) := by
  have hq := two_le_parts hm hn
  have hup : n ≤ divCeil n m * m := (divCeil_le_iff hm).mp le_rfl
  have hdiv := Nat.div_add_mod n (divCeil n m)
  constructor
  · exact Nat.div_le_of_le_mul hup
  · intro hrem
    have hlt : divCeil n m * (n / divCeil n m) < divCeil n m * m := by omega
    exact Nat.lt_of_mul_lt_mul_left hlt

theorem shrinkParts_eq (hn : m < n) : shrinkParts n (divCeil m 2) (divCeil n m) = divCeil n m := by
  have hq := two_le_parts hm hn
  have hshare := half_le_share hm hn
  obtain ⟨k, hk⟩ := Nat.exists_eq_add_of_le' (show 1 ≤ divCeil n m by omega)
  rw [hk] at hshare ⊢
  have hceil : n / (k + 1) ≤ divCeil n (k + 1) := Nat.div_le_div_right (by omega)
  rw [shrinkParts, if_neg (by omega)]

omit hm

theorem sum_sizes (base remainder : ℕ) : ∀ p : ℕ,
    ((range p).map fun i => if i < remainder then base + 1 else base).sum = p * base + min p remainder
  | 0 => by simp
  | p + 1 => by
    rw [range_succ, map_append, List.sum_append_nat, sum_sizes base remainder p, succ_mul]
    simp only [map_cons, map_nil, sum_cons, sum_nil]
    split_ifs with h <;> omega

end Arithmetic

section Deal

variable {α β : Type}

/-- The loop cuts consecutive pieces of the sizes it asks for. -/
theorem dealLoop_spec (make : List α → Option β) (items : List α) (base remainder : ℕ) : ∀ (is : List ℕ) (offset : ℕ),
    offset + (is.map fun i => if i < remainder then base + 1 else base).sum ≤ items.length → ∃ chunks : List (List α),
      chunks.flatten = (items.drop offset).take (is.map fun i => if i < remainder then base + 1 else base).sum ∧
      chunks.map length = is.map (fun i => if i < remainder then base + 1 else base) ∧
      dealLoop make items base remainder is offset = chunks.mapM make
  | [], offset, _ => ⟨[], by simp, rfl, rfl⟩
  | i :: is, offset, h => by
    rw [map_cons, sum_cons] at h ⊢
    rw [dealLoop]
    generalize (if i < remainder then base + 1 else base) = size at h ⊢
    obtain ⟨chunks, h1, h2, h3⟩ := dealLoop_spec make items base remainder is (offset + size) (by omega)
    refine ⟨(items.drop offset).take size :: chunks, ?_, ?_, ?_⟩
    · rw [flatten_cons, h1, ← drop_drop, take_add]
    · rw [map_cons, h2, length_take, length_drop, min_eq_left (by omega)]
    · rw [slice, if_pos (by omega), bind_some, h3, mapM_cons]
      refine congrArg _ (funext fun node => ?_)
      cases chunks.mapM make <;> rfl

/-- The sizes of the parts of more items than the maximum. -/
theorem sizes_spec {m n : ℕ} (hm : 1 ≤ m) (hn : m < n) :
    ((range (divCeil n m)).map fun i => if i < n % divCeil n m then n / divCeil n m + 1 else n / divCeil n m).sum = n ∧
      ∀ i, divCeil m 2 ≤ (if i < n % divCeil n m then n / divCeil n m + 1 else n / divCeil n m) ∧
        (if i < n % divCeil n m then n / divCeil n m + 1 else n / divCeil n m) ≤ m := by
  have hq := two_le_parts hm hn
  obtain ⟨hshare, hmore⟩ := share_le hm hn
  have hhalf := half_le_share hm hn
  have hmod := mod_lt n (show 0 < divCeil n m by omega)
  refine ⟨?_, fun i => ?_⟩
  · rw [sum_sizes, min_eq_right hmod.le, div_add_mod]
  · split_ifs with hlt
    · have := hmore (by omega)
      omega
    · omega

/-- **More items than the maximum are dealt out into pieces at least half full.** -/
theorem deal_spec {m : ℕ} (hm : 1 ≤ m) (make : List α → Option β) {items : List α} (hn : m < items.length) :
    ∃ chunks : List (List α), chunks.flatten = items ∧ chunks.length = divCeil items.length m ∧
      (∀ c ∈ chunks, divCeil m 2 ≤ c.length ∧ c.length ≤ m) ∧ deal m (divCeil m 2) make items = chunks.mapM make := by
  obtain ⟨hsum, hsize⟩ := sizes_spec hm hn
  unfold deal
  rw [if_neg (by omega)]
  dsimp only
  rw [shrinkParts_eq hm hn]
  generalize divCeil items.length m = q at *
  obtain ⟨chunks, h1, h2, h3⟩ := dealLoop_spec make items (items.length / q) (items.length % q) (range q) 0
    (by rw [hsum, zero_add])
  rw [hsum, drop_zero, take_length] at h1
  refine ⟨chunks, h1, ?_, fun c hc => ?_, h3⟩
  · have hlen := congrArg length h2
    simpa using hlen
  · have hmem : c.length ∈ (range q).map fun i =>
        if i < items.length % q then items.length / q + 1 else items.length / q := by
      rw [← h2]
      exact mem_map_of_mem hc
    obtain ⟨i, -, hi⟩ := mem_map.mp hmem
    rw [← hi]
    exact hsize i

end Deal

/-! ### Levels -/

variable {P : Params} {K V : Type}

/-- The nodes of one level, from left to right: one root, or several that are
full enough. -/
structure Level (P : Params) (h : ℕ) (entries : List (K × V)) (nodes : List (BTreeNode K V)) : Prop where
  all : collectChildren nodes = entries
  shape : (∃ n, nodes = [n] ∧ Good P h true n) ∨ 2 ≤ nodes.length ∧ ∀ n ∈ nodes, Good P h false n

/-- A level made chunk by chunk: what holds of each node, and the entries of all. -/
theorem mapM_level {α : Type} (Q : BTreeNode K V → Prop) (make : List α → Option (BTreeNode K V))
    (read : List α → List (K × V)) (happ : ∀ A B, read (A ++ B) = read A ++ read B) (hnil : read [] = []) :
    ∀ {chunks : List (List α)}, (∀ c ∈ chunks, ∃ n, make c = some n ∧ Q n ∧ collectAll n = read c) →
    ∃ nodes, chunks.mapM make = some nodes ∧ nodes.length = chunks.length ∧ (∀ n ∈ nodes, Q n) ∧
      collectChildren nodes = read chunks.flatten
  | [], _ => ⟨[], rfl, rfl, by simp, hnil.symm⟩
  | c :: chunks, hmake => by
    obtain ⟨n, h1, h2, h3⟩ := hmake c (mem_cons_self ..)
    obtain ⟨nodes, h4, h5, h6, h7⟩ := mapM_level Q make read happ hnil fun c hc =>
      hmake c (mem_cons_of_mem _ hc)
    refine ⟨n :: nodes, ?_, ?_, ?_, ?_⟩
    · rw [mapM_cons, h1, h4]
      rfl
    · rw [length_cons, h5, length_cons]
    · exact forall_mem_cons.mpr ⟨h2, h6⟩
    · rw [collectChildren_cons, h3, h7, flatten_cons, happ]

theorem buildCompactLeaves_spec (hP : P.Valid) (entries : List (K × V)) :
    ∃ leaves, buildCompactLeaves P entries = some leaves ∧ Level P 0 entries leaves := by
  unfold buildCompactLeaves
  split_ifs with hfit
  · refine ⟨[leafOver P entries], rfl, ?_, .inl ⟨_, rfl, .leaf hfit fun h => Bool.noConfusion h⟩⟩
    rw [collectChildren_cons, collectChildren_nil, append_nil]
    rfl
  · have hn : P.maxLeaf < entries.length := not_le.mp hfit
    obtain ⟨chunks, h1, h2, h3, h4⟩ := deal_spec hP.leaf (fun chunk => some (leafOver P chunk)) hn
    have hmake : ∀ c ∈ chunks, ∃ n, some (leafOver P c) = some n ∧ Good P 0 false n ∧ collectAll n = id c :=
      fun c hc => ⟨_, rfl, .leaf (h3 c hc).2 fun _ => (h3 c hc).1, rfl⟩
    obtain ⟨nodes, h5, h6, h7, h8⟩ :=
      mapM_level _ (fun chunk => some (leafOver P chunk)) id (fun _ _ => rfl) rfl hmake
    refine ⟨nodes, h4.trans h5, h8.trans h1, .inr ⟨?_, h7⟩⟩
    rw [h6, h2]
    exact two_le_parts hP.leaf hn

/-- A group of at least two children becomes a node. -/
theorem groupOver_eq {children : List (BTreeNode K V)} (h : 2 ≤ children.length) :
    groupOver P children = nodeOver P children := by
  unfold groupOver
  split
  · simp at h
  · rfl

variable {entries : List (K × V)}

theorem buildCompactInternalLevel_spec (hP : P.Valid) {h : ℕ} {nodes : List (BTreeNode K V)}
    (hall : collectChildren nodes = entries) (h2 : 2 ≤ nodes.length) (hgood : ∀ n ∈ nodes, Good P h false n) :
    ∃ nodes', buildCompactInternalLevel P nodes = some nodes' ∧ Level P (h + 1) entries nodes' ∧
      nodes'.length < nodes.length := by
  unfold buildCompactInternalLevel
  by_cases hfit : nodes.length ≤ P.maxInternal
  · obtain ⟨n, h3, h4, h5⟩ := nodeOver_good hP true hgood h2 hfit fun h => Bool.noConfusion h
    rw [if_pos hfit, if_neg (by omega), h3, map_some]
    refine ⟨[n], rfl, ⟨?_, .inl ⟨n, rfl, h4⟩⟩, h2⟩
    rw [collectChildren_cons, collectChildren_nil, append_nil, h5, hall]
  · rw [if_neg hfit]
    have hn : P.maxInternal < nodes.length := not_le.mp hfit
    have hm : 1 ≤ P.maxInternal := by have := hP.internal; omega
    obtain ⟨chunks, h3, h4, h5, h6⟩ := deal_spec hm (groupOver P) hn
    have hmake : ∀ c ∈ chunks, ∃ n, groupOver P c = some n ∧ Good P (h + 1) false n ∧
        collectAll n = collectChildren c := by
      intro c hc
      obtain ⟨h7, h8⟩ := h5 c hc
      have hc2 : 2 ≤ c.length := hP.two_le_minInternal.trans h7
      have hcgood : ∀ x ∈ c, Good P h false x := fun x hx => hgood x (h3 ▸ mem_flatten.mpr ⟨c, hc, hx⟩)
      rw [groupOver_eq hc2]
      exact nodeOver_good hP false hcgood hc2 h8 fun _ => h7
    obtain ⟨nodes', h7, h8, h9, h10⟩ := mapM_level _ (groupOver P) collectChildren collectChildren_append rfl hmake
    rw [h3] at h10
    refine ⟨nodes', h6.trans h7, ⟨h10.trans hall, .inr ⟨?_, h9⟩⟩, ?_⟩
    · rw [h8, h4]
      exact two_le_parts hm hn
    · -- fewer parts than items, as each part has two
      have hle : divCeil nodes.length P.maxInternal ≤ nodes.length - 1 := by
        rw [divCeil_le_iff hm]
        have := hP.internal
        calc nodes.length ≤ (nodes.length - 1) * 2 := by omega
          _ ≤ _ := mul_le_mul_left _ (by omega)
      rw [h8, h4]
      omega

/-- **The levels end in one root.** -/
theorem levelLoop_spec (hP : P.Valid) : ∀ (fuel h : ℕ) {nodes : List (BTreeNode K V)},
    Level P h entries nodes → nodes.length ≤ fuel + 1 →
    ∃ h' root, levelLoop P fuel nodes = some [root] ∧ Good P h' true root ∧ collectAll root = entries
  | fuel, h, nodes, ⟨hall, .inl ⟨n, hn, hg⟩⟩, _ => by
    subst hn
    refine ⟨h, n, ?_, hg, ?_⟩
    · cases fuel <;> rfl
    · rw [← hall, collectChildren_cons, collectChildren_nil, append_nil]
  | 0, h, nodes, ⟨_, .inr ⟨h2, _⟩⟩, hlen => absurd h2 (by omega)
  | fuel + 1, h, nodes, ⟨hall, .inr ⟨h2, hgood⟩⟩, hlen => by
    obtain ⟨nodes', h3, h4, h5⟩ := buildCompactInternalLevel_spec hP hall h2 hgood
    obtain ⟨h', root, h6, h7⟩ := levelLoop_spec hP fuel (h + 1) h4 (by omega)
    refine ⟨h', root, ?_, h7⟩
    rw [levelLoop, if_pos (by omega), h3, bind_some, h6]

/-- **A rebuilt tree is well shaped and has the entries it was built from.** -/
theorem rebuildCompact_spec (hP : P.Valid) (entries : List (K × V)) :
    ∃ t h, rebuildCompact P entries = some t ∧ Good P h true t.root ∧ t.entries = entries ∧
      t.len = entries.length := by
  unfold rebuildCompact
  split_ifs with hnil
  · have hentries : entries = [] := isEmpty_iff.mp hnil
    refine ⟨_, 0, rfl, .leaf (zero_le _) fun h => Bool.noConfusion h, ?_, ?_⟩
    · rw [hentries]; rfl
    · rw [hentries]; rfl
  · obtain ⟨leaves, h1, h2⟩ := buildCompactLeaves_spec hP entries
    obtain ⟨h, root, h3, h4, h5⟩ := levelLoop_spec hP leaves.length 0 h2 (le_succ _)
    refine ⟨⟨root, entries.length⟩, h, ?_, h4, h5, rfl⟩
    rw [h1, bind_some, h3, bind_some]
    rfl

/-! ### Packing from the left -/

theorem chunks_spec {α : Type} {size : ℕ} (hs : 1 ≤ size) : ∀ (fuel : ℕ) (items : List α), items.length ≤ fuel →
    (chunks size fuel items).flatten = items ∧ (∀ c ∈ chunks size fuel items, c ≠ []) ∧
      (chunks size fuel items).length ≤ items.length
  | 0, items, h => by
    obtain rfl : items = [] := length_eq_zero_iff.mp (by omega)
    simp [chunks]
  | fuel + 1, items, h => by
    rw [chunks]
    by_cases hnil : items.isEmpty = true
    · obtain rfl : items = [] := isEmpty_iff.mp hnil
      simp
    · have hpos : 1 ≤ items.length := by
        have : items ≠ [] := fun he => hnil (isEmpty_iff.mpr he)
        have := length_pos_iff.mpr this
        omega
      rw [if_neg hnil]
      obtain ⟨h1, h2, h3⟩ := chunks_spec hs fuel (items.drop size) (by rw [length_drop]; omega)
      rw [length_drop] at h3
      refine ⟨?_, ?_, ?_⟩
      · rw [flatten_cons, h1, take_append_drop]
      · intro c hc
        rcases mem_cons.mp hc with rfl | hc
        · intro he
          have := congrArg length he
          rw [length_take, length_nil] at this
          omega
        · exact h2 c hc
      · rw [length_cons]
        omega

/-- Groups of two or more are fewer than their members. -/
theorem length_chunks_lt {α : Type} {size : ℕ} (hs : 2 ≤ size) {items : List α} (h2 : 2 ≤ items.length) :
    (chunks size items.length items).length < items.length := by
  obtain ⟨k, hk⟩ := Nat.exists_eq_add_of_le h2
  have hne : ¬ items.isEmpty = true := by
    rw [List.isEmpty_iff]
    rintro rfl
    simp at h2
  have hfuel : items.length = (k + 1) + 1 := by omega
  have hrest := (chunks_spec (show 1 ≤ size by omega) (k + 1) (items.drop size)
    (by rw [length_drop]; omega)).2.2
  rw [length_drop] at hrest
  rw [show chunks size items.length items = items.take size :: chunks size (k + 1) (items.drop size) by
    rw [hfuel, chunks, if_neg hne], length_cons]
  omega

def Keyed (n : BTreeNode K V) : Prop := ∃ k, minKey n = some k

theorem groupOver_keyed : ∀ {chunk : List (BTreeNode K V)}, chunk ≠ [] → (∀ c ∈ chunk, Keyed c) →
    ∃ n, groupOver P chunk = some n ∧ Keyed n ∧ collectAll n = collectChildren chunk
  | [c], _, hkeyed => ⟨c, rfl, hkeyed c (mem_cons_self ..), by simp⟩
  | c :: d :: cs, _, hkeyed => by
    obtain ⟨keys, hkeys⟩ := mapM_of_forall fun x (hx : x ∈ d :: cs) => hkeyed x (mem_cons_of_mem _ hx)
    refine ⟨.internal keys (c :: d :: cs) (internalChecksum P (c :: d :: cs)), ?_, hkeyed c (mem_cons_self ..), rfl⟩
    show nodeOver P (c :: d :: cs) = _
    rw [nodeOver, drop_one, tail_cons, hkeys, map_some]

theorem chunkLoop_spec (hP : P.Valid) : ∀ (fuel : ℕ) {nodes : List (BTreeNode K V)},
    nodes ≠ [] → (∀ n ∈ nodes, Keyed n) → collectChildren nodes = entries → nodes.length ≤ fuel + 1 →
    ∃ root, chunkLoop P fuel nodes = some [root] ∧ collectAll root = entries
  | fuel, [n], _, _, hall, _ => by
    refine ⟨n, ?_, by simpa using hall⟩
    cases fuel <;> rfl
  | 0, _ :: _ :: _, _, _, _, hlen => absurd hlen (by simp)
  | fuel + 1, c :: d :: cs, _, hkeyed, hall, hlen => by
    have hm := hP.internal
    have h2 : 2 ≤ (c :: d :: cs).length := by simp
    have hlt := length_chunks_lt (show 2 ≤ P.maxInternal by omega) h2
    generalize c :: d :: cs = nodes at hkeyed hall hlen h2 hlt
    obtain ⟨h3, h4, -⟩ := chunks_spec (show 1 ≤ P.maxInternal by omega) nodes.length nodes le_rfl
    obtain ⟨nodes', h5, h6, h7, h8⟩ := mapM_level Keyed (groupOver P) collectChildren collectChildren_append rfl
      fun c hc => groupOver_keyed (h4 c hc) fun x hx => hkeyed x (h3 ▸ mem_flatten.mpr ⟨c, hc, hx⟩)
    rw [h3, hall] at h8
    have hne : nodes' ≠ [] := by
      rintro rfl
      have h9 := length_eq_zero_iff.mp h6.symm
      rw [h9, flatten_nil] at h3
      rw [← h3] at h2
      simp at h2
    obtain ⟨root, h9, h10⟩ := chunkLoop_spec hP fuel hne h7 h8 (by omega)
    refine ⟨root, ?_, h10⟩
    rw [chunkLoop, if_pos (by omega), chunkLevel, if_neg (by omega), h5, bind_some, h9]

/-- The packed tree has the entries it was built from, and nothing more is said of its shape. -/
theorem rebuild_spec (hP : P.Valid) (entries : List (K × V)) :
    ∃ t, rebuild P entries = some t ∧ t.entries = entries ∧ t.len = entries.length := by
  unfold rebuild
  by_cases hnil : entries.isEmpty = true
  · rw [if_pos hnil, isEmpty_iff.mp hnil]
    exact ⟨_, rfl, rfl, rfl⟩
  · have hleaf := hP.leaf
    rw [if_neg hnil, if_neg (by omega)]
    obtain ⟨h1, h2, -⟩ := chunks_spec hP.leaf entries.length entries le_rfl
    obtain ⟨leaves, h3, -, h4, h5⟩ := mapM_level Keyed (fun c => some (leafOver P c)) id (fun _ _ => rfl) rfl
      fun c hc => ⟨_, rfl, by
        obtain ⟨e, c', rfl⟩ := exists_cons_of_ne_nil (h2 c hc)
        exact ⟨e.1, rfl⟩, rfl⟩
    have hmap : some ((chunks P.maxLeaf entries.length entries).map (leafOver P)) = some leaves :=
      mapM_pure.symm.trans h3
    obtain rfl := some.inj hmap
    rw [h1] at h5
    have hne : (chunks P.maxLeaf entries.length entries).map (leafOver P) ≠ [] := by
      intro he
      rw [he] at h5
      exact hnil (isEmpty_iff.mpr h5.symm)
    obtain ⟨root, h6, h7⟩ := chunkLoop_spec hP _ hne h4 h5 (le_succ _)
    refine ⟨⟨root, entries.length⟩, ?_, h7, rfl⟩
    dsimp only
    rw [h6, bind_some]
    rfl

end Tidefs.Btree
