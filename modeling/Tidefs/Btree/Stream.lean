/-
# Building a tree from a stream

The two ways of building a tree from a stream of sorted entries, any of which may fail
to be read. If the length is known, the entries are dealt out evenly. If it is not,
the leaves are filled one after the other, and a last one that is too short shares
evenly with the one before it.

Whatever way, from entries in ascending order a well-shaped tree comes out that has
them (`streamed_spec`, `counted_spec`). How deep it can be follows from how many entries
a well-shaped tree of a height has at least (`Good.entries_le`).
-/
import Tidefs.Btree.Refine

namespace Tidefs.Btree

open Ordered Word BTreeNode List Option Prod Except BPlusTree Nat

/-- `RebuildFromSortedIterError`: the entry was not read, or does not fit in. -/
inductive RebuildFromSortedIterError (E : Type) where
  | source (error : E)
  | tree (error : BTreeError)
deriving DecidableEq

variable (P : Params) {K V E : Type}

/-- The loop over the levels, up to the root. -/
def rootOver (leaves : List (BTreeNode K V)) : Option (BTreeNode K V) :=
  (levelLoop P leaves.length leaves).bind List.head?

/-! ### Unknown length -/

/-- The leaves so far, and the one that is being filled. -/
structure LeafStream (K V : Type) where
  leaves : List (BTreeNode K V)
  leafEntries : List (K × V)
  previousKey : Option K
  actualLen : ℕ

def LeafStream.start : LeafStream K V := ⟨[], [], none, 0⟩

/-- The leaves after the last entry. There is a leaf to share with, or it panics. -/
def LeafStream.finish (s : LeafStream K V) : Option (List (BTreeNode K V)) :=
  if s.leafEntries = [] then some s.leaves
  else if s.leaves = [] ∨ P.minLeaf ≤ s.leafEntries.length then some (s.leaves ++ [leafOver P s.leafEntries])
  else
    match s.leaves.getLast? with
    | some (.leaf previousEntries _) =>
      let entries := previousEntries ++ s.leafEntries
      let leftLen := entries.length / 2
      some (s.leaves.dropLast ++ [leafOver P (entries.take leftLen), leafOver P (entries.drop leftLen)])
    | _ => none

section Read

variable [LinearOrder K]

/-- The check of a key against the one before it. -/
def outOfOrder (previousKey : Option K) (key : K) : Bool := previousKey.any fun prev => key ≤ prev

def LeafStream.push (s : LeafStream K V) (entry : Except E (K × V)) :
    Except (RebuildFromSortedIterError E) (LeafStream K V) :=
  match entry with
  | .error e => .error (.source e)
  | .ok (key, value) =>
    if outOfOrder s.previousKey key then .error (.tree .keyOrderViolation)
    else
      let leafEntries := s.leafEntries ++ [(key, value)]
      let s := { s with previousKey := some key, actualLen := s.actualLen + 1 }
      if leafEntries.length = P.maxLeaf then
        .ok { s with leaves := s.leaves ++ [leafOver P leafEntries], leafEntries := [] }
      else .ok { s with leafEntries }

/-- `try_rebuild_compact_from_sorted_unknown_len_iter`. -/
def BPlusTree.rebuildFromUnknownLen (entries : List (Except E (K × V))) :
    Option (Except (RebuildFromSortedIterError E) (BPlusTree K V)) :=
  match entries.foldlM (LeafStream.push P) LeafStream.start with
  | .error e => some (.error e)
  | .ok s =>
    if s.actualLen = 0 then some (.ok ⟨leafOver P [], 0⟩)
    else (s.finish P).bind fun leaves => (rootOver P leaves).map fun root => .ok ⟨root, s.actualLen⟩

/-! ### Known length -/

/-- Reads the entries of one leaf: them, what is left, and the last key. -/
def readLeaf : ℕ → Option K → List (Except E (K × V)) →
    Except (RebuildFromSortedIterError E) (List (K × V) × List (Except E (K × V)) × Option K)
  | 0, previousKey, rest => .ok ([], rest, previousKey)
  | _ + 1, _, [] => .error (.tree .lengthMismatch)
  | _ + 1, _, .error e :: _ => .error (.source e)
  | size + 1, previousKey, .ok (key, value) :: rest =>
    if outOfOrder previousKey key then .error (.tree .keyOrderViolation)
    else
      match readLeaf size (some key) rest with
      | .error e => .error e
      | .ok (entries, rest, previousKey) => .ok ((key, value) :: entries, rest, previousKey)

/-- Reads leaves of these sizes. -/
def readLeaves : List ℕ → Option K → List (Except E (K × V)) →
    Except (RebuildFromSortedIterError E) (List (BTreeNode K V) × List (Except E (K × V)))
  | [], _, rest => .ok ([], rest)
  | size :: sizes, previousKey, rest =>
    match readLeaf size previousKey rest with
    | .error e => .error e
    | .ok (entries, rest, previousKey) =>
      match readLeaves sizes previousKey rest with
      | .error e => .error e
      | .ok (leaves, rest) => .ok (leafOver P entries :: leaves, rest)

/-- Nothing may be left in the stream. -/
def expectEnd : List (Except E (K × V)) → Except (RebuildFromSortedIterError E) Unit
  | [] => .ok ()
  | .ok _ :: _ => .error (.tree .lengthMismatch)
  | .error e :: _ => .error (.source e)

/-- The sizes of the leaves. -/
def leafSizes (expectedLen : ℕ) : List ℕ :=
  let numLeaves := shrinkParts expectedLen P.minLeaf (divCeil expectedLen P.maxLeaf)
  let base := expectedLen / numLeaves
  let remainder := expectedLen % numLeaves
  (List.range numLeaves).map fun i => if i < remainder then base + 1 else base

/-- `try_rebuild_compact_from_sorted_iter`. -/
def BPlusTree.rebuildFromSized (expectedLen : ℕ) (entries : List (Except E (K × V))) :
    Option (Except (RebuildFromSortedIterError E) (BPlusTree K V)) :=
  if expectedLen = 0 then some ((expectEnd entries).map fun _ => ⟨leafOver P [], 0⟩)
  else if P.maxLeaf = 0 then none
  else
    match readLeaves P (leafSizes P expectedLen) none entries with
    | .error e => some (.error e)
    | .ok (leaves, rest) =>
      match expectEnd rest with
      | .error e => some (.error e)
      | .ok () => (rootOver P leaves).map fun root => .ok ⟨root, expectedLen⟩

end Read

/-! ### Roots -/

variable {P} {h : ℕ} {entries : List (K × V)}

theorem rootOver_spec (hP : P.Valid) {leaves : List (BTreeNode K V)} (hl : Level P h entries leaves) :
    ∃ root h', rootOver P leaves = some root ∧ Good P h' true root ∧ collectAll root = entries := by
  obtain ⟨h', root, h1, h2, h3⟩ := levelLoop_spec hP leaves.length h hl (by omega)
  exact ⟨root, h', by rw [rootOver, h1]; rfl, h2, h3⟩

/-- Leaves within their bounds are a level. -/
theorem leaves_level {leaves : List (BTreeNode K V)} (hall : collectChildren leaves = entries) (hne : leaves ≠ [])
    (hsize : ∀ n ∈ leaves, ∃ es, n = leafOver P es ∧ es.length ≤ P.maxLeaf ∧
      (2 ≤ leaves.length → P.minLeaf ≤ es.length)) : Level P 0 entries leaves := by
  refine ⟨hall, ?_⟩
  by_cases h2 : 2 ≤ leaves.length
  · refine Or.inr ⟨h2, fun n hn => ?_⟩
    obtain ⟨es, rfl, h3, h4⟩ := hsize n hn
    exact .leaf h3 fun _ => h4 h2
  · obtain ⟨n, rfl⟩ := length_eq_one_iff.mp
      (show leaves.length = 1 by have := length_pos_iff.mpr hne; omega)
    obtain ⟨es, rfl, h3, -⟩ := hsize n (mem_singleton_self n)
    exact Or.inl ⟨_, rfl, .leaf h3 fun h => Bool.noConfusion h⟩

/-! ### Streams of unknown length -/

/-- The state of the loop after the entries: full leaves, and the rest in the last. -/
structure Filled (P : Params) (s : LeafStream K V) (entries : List (K × V)) : Prop where
  all : collectChildren s.leaves ++ s.leafEntries = entries
  full : ∀ n ∈ s.leaves, ∃ es, n = leafOver P es ∧ es.length = P.maxLeaf
  short : s.leafEntries.length < P.maxLeaf
  last : s.previousKey = entries.getLast?.map Prod.fst
  len : s.actualLen = entries.length

theorem filled_start (hP : P.Valid) : Filled P (LeafStream.start : LeafStream K V) [] :=
  ⟨rfl, by simp [LeafStream.start], hP.leaf, rfl, rfl⟩

theorem Filled.finish (hP : P.Valid) {s : LeafStream K V} (h : Filled P s entries)
    (hne : entries ≠ []) : ∃ leaves, s.finish P = some leaves ∧ Level P 0 entries leaves := by
  have hmin : P.minLeaf ≤ P.maxLeaf := by
    have := hP.leaf
    unfold Params.minLeaf divCeil
    omega
  have hshort := h.short
  have hfull : ∀ (c : ℕ), ∀ n ∈ s.leaves, ∃ es, n = leafOver P es ∧ es.length ≤ P.maxLeaf ∧
      (2 ≤ c → P.minLeaf ≤ es.length) := fun _ n hn => by
    obtain ⟨es, h1, h2⟩ := h.full n hn
    exact ⟨es, h1, h2.le, fun _ => h2 ▸ hmin⟩
  unfold LeafStream.finish
  by_cases hempty : s.leafEntries = []
  · have hall := h.all
    rw [hempty, append_nil] at hall
    refine ⟨_, if_pos hempty, leaves_level hall (fun hnil => hne ?_) (hfull _)⟩
    rw [← hall, hnil]
    rfl
  · rw [if_neg hempty]
    by_cases hlast : s.leaves = [] ∨ P.minLeaf ≤ s.leafEntries.length
    · refine ⟨_, if_pos hlast, leaves_level ?_ (by simp) (forall_mem_append.mpr ⟨hfull _, fun n hn => ?_⟩)⟩
      · rw [← h.all, collectChildren_append, collectChildren_cons, collectChildren_nil, append_nil]
        rfl
      · refine ⟨_, mem_singleton.mp hn, hshort.le, fun h2 => hlast.resolve_left fun hnil => ?_⟩
        rw [hnil] at h2
        exact absurd h2 (by simp)
    · -- the last leaf is too short, so it shares with the full one before it
      rw [if_neg hlast]
      obtain ⟨hleaves, hfew⟩ := not_or.mp hlast
      rcases eq_nil_or_concat' s.leaves with hnil | ⟨front, last, hfront⟩
      · exact absurd hnil hleaves
      · obtain ⟨es, rfl, hes⟩ := h.full last (by rw [hfront]; simp)
        have hall := h.all
        rw [hfront, collectChildren_append, collectChildren_cons, collectChildren_nil, append_nil] at hall
        rw [hfront] at hfull
        rw [hfront, getLast?_append_of_ne_nil _ (by simp), getLast?_singleton, dropLast_concat]
        have hpos := length_pos_iff.mpr hempty
        have hhalf : 2 * P.minLeaf ≤ P.maxLeaf + 1 := by unfold Params.minLeaf divCeil; omega
        have hlen : (es ++ s.leafEntries).length = P.maxLeaf + s.leafEntries.length := by
          rw [length_append, hes]
        refine ⟨_, rfl, leaves_level ?_ (by simp) (forall_mem_append.mpr
          ⟨(forall_mem_append.mp (hfull _)).1, fun n hn => ?_⟩)⟩
        · rw [collectChildren_append, collectChildren_cons, collectChildren_cons, collectChildren_nil, append_nil]
          show collectChildren front ++ ((es ++ s.leafEntries).take _ ++ (es ++ s.leafEntries).drop _) = entries
          rw [take_append_drop, ← hall, append_assoc]
          rfl
        · simp only [mem_cons, not_mem_nil, or_false] at hn
          rcases hn with rfl | rfl
          · refine ⟨_, rfl, ?_⟩
            rw [length_take, hlen]
            omega
          · refine ⟨_, rfl, ?_⟩
            rw [length_drop, hlen]
            omega

section Streams

variable [LinearOrder K] {entries : List (K × V)}

/-- The check passes the keys that may come next. -/
theorem ascending_concat_iff (h : Ascending entries) {e : K × V} :
    Ascending (entries ++ [e]) ↔ outOfOrder (entries.getLast?.map fst) e.1 = false := by
  rcases eq_nil_or_concat' entries with rfl | ⟨l, a, rfl⟩
  · simp [Ascending, outOfOrder]
  · have hcheck : outOfOrder ((l ++ [a]).getLast?.map fst) e.1 = false ↔ a.1 < e.1 := by simp [outOfOrder]
    rw [hcheck, Ascending.append_iff]
    refine ⟨fun h' => h'.2.2 a (by simp) e (by simp), fun hlt => ⟨h, pairwise_singleton .., fun x hx b hb => ?_⟩⟩
    rw [mem_singleton.mp hb]
    rcases mem_append.mp hx with hx | hx
    · exact ((Ascending.append_iff.mp h).2.2 x hx a (mem_singleton_self a)).trans hlt
    · rwa [mem_singleton.mp hx]

/-- The key that comes next is in order. -/
theorem not_outOfOrder {e : K × V} (h : Ascending (entries ++ [e])) :
    outOfOrder (entries.getLast?.map fst) e.1 = false :=
  (ascending_concat_iff (h.sublist (sublist_append_left _ _))).mp h

theorem Filled.push {s : LeafStream K V} (h : Filled P s entries) {e : K × V} (hasc : Ascending (entries ++ [e])) :
    ∃ s', s.push P (.ok e : Except E (K × V)) = .ok s' ∧ Filled P s' (entries ++ [e]) := by
  obtain ⟨key, value⟩ := e
  have horder := not_outOfOrder hasc
  rw [← h.last] at horder
  have hshort := h.short
  unfold LeafStream.push
  dsimp only
  rw [if_neg (by simp [horder])]
  split_ifs with hfull
  · refine ⟨_, rfl, ?_, forall_mem_append.mpr ⟨h.full, forall_mem_singleton.mpr ⟨_, rfl, hfull⟩⟩,
      by rw [length_nil]; omega, by simp, by simp [h.len]⟩
    rw [← h.all, collectChildren_append, collectChildren_cons]
    simp [leafOver, collectAll]
  · refine ⟨_, rfl, ?_, h.full, ?_, by simp, by simp [h.len]⟩
    · rw [← h.all, append_assoc]
    · rw [length_append, length_singleton] at hfull ⊢
      omega

theorem Filled.pushAll : ∀ (rest : List (K × V)) {s : LeafStream K V} {entries : List (K × V)}, Filled P s entries →
    Ascending (entries ++ rest) →
    ∃ s', (rest.map (ok : K × V → Except E (K × V))).foldlM (LeafStream.push P) s = .ok s' ∧
      Filled P s' (entries ++ rest)
  | [], s, entries, h, _ => ⟨s, rfl, by rwa [append_nil]⟩
  | e :: rest, s, entries, h, hasc => by
    rw [append_cons] at hasc ⊢
    obtain ⟨s₁, h1, h2⟩ := h.push (E := E) (hasc.sublist (sublist_append_left _ rest))
    obtain ⟨s', h3, h4⟩ := Filled.pushAll rest h2 hasc
    refine ⟨s', ?_, h4⟩
    rw [map_cons, foldlM_cons, h1]
    exact h3

/-- **A stream of unknown length gives a tree of its entries.** -/
theorem streamed_spec (hP : P.Valid) (m : OrdMap K V) :
    ∃ t, rebuildFromUnknownLen P (m.entries.map (ok : K × V → Except E (K × V))) = some (.ok t) ∧
      Refines P t m := by
  obtain ⟨s, h1, h2⟩ := Filled.pushAll (E := E) m.entries (filled_start hP) m.sorted
  rw [nil_append] at h2
  unfold rebuildFromUnknownLen
  rw [h1]
  dsimp only
  by_cases h0 : s.actualLen = 0
  · have hnil : m.entries = [] := length_eq_zero_iff.mp (h2.len ▸ h0)
    refine ⟨_, if_pos h0, ⟨0, .leaf (zero_le _) fun h => Bool.noConfusion h⟩, hnil.symm, ?_⟩
    rw [hnil]
    rfl
  · obtain ⟨leaves, h3, h4⟩ := h2.finish hP fun hnil => h0 (by rw [h2.len, hnil]; rfl)
    obtain ⟨root, h', h5, h6, h7⟩ := rootOver_spec hP h4
    refine ⟨⟨root, s.actualLen⟩, ?_, ⟨h', h6⟩, h7, h2.len⟩
    rw [if_neg h0, h3, bind_some, h5, map_some]

/-! ### Streams of known length -/

theorem readLeaf_spec (rest : List (Except E (K × V))) : ∀ (l entries : List (K × V)), Ascending (entries ++ l) →
    readLeaf l.length (entries.getLast?.map fst) (l.map ok ++ rest) =
      .ok (l, rest, (entries ++ l).getLast?.map fst)
  | [], entries, _ => by rw [append_nil]; rfl
  | e :: l, entries, hasc => by
    rw [append_cons] at hasc ⊢
    have horder := not_outOfOrder (hasc.sublist (sublist_append_left _ l))
    have hread := readLeaf_spec rest l (entries ++ [e]) hasc
    rw [getLast?_append_of_ne_nil _ (by simp), getLast?_singleton] at hread
    rw [length_cons, map_cons, cons_append, readLeaf, if_neg (by simp [horder])]
    show (match readLeaf l.length (some e.1) (l.map ok ++ rest) with
      | .error e => error e
      | .ok (entries, rest, previousKey) => ok (e :: entries, rest, previousKey)) = _
    rw [show some e.1 = (some e).map fst from rfl, hread]

theorem readLeaves_spec : ∀ (sizes : List ℕ) (l entries : List (K × V)), Ascending (entries ++ l) →
    sizes.sum = l.length →
    ∃ leaves, readLeaves P sizes (entries.getLast?.map fst) (l.map (ok : K × V → Except E (K × V))) =
        .ok (leaves, []) ∧ collectChildren leaves = l ∧ leaves.length = sizes.length ∧
      ∀ n ∈ leaves, ∃ es, n = leafOver P es ∧ es.length ∈ sizes
  | [], l, entries, _, hsum => by
    obtain rfl : l = [] := length_eq_zero_iff.mp hsum.symm
    exact ⟨[], rfl, rfl, rfl, by simp⟩
  | size :: sizes, l, entries, hasc, hsum => by
    rw [sum_cons] at hsum
    have htake : (l.take size).length = size := by rw [length_take]; omega
    have hasc' : Ascending (entries ++ l.take size ++ l.drop size) := by
      rwa [append_assoc, take_append_drop]
    have hleaf := readLeaf_spec ((l.drop size).map (ok : K × V → Except E (K × V))) (l.take size) entries
      (hasc'.sublist (sublist_append_left _ _))
    obtain ⟨leaves, h1, h2, h3, h4⟩ := readLeaves_spec sizes (l.drop size) (entries ++ l.take size) hasc'
      (by rw [length_drop]; omega)
    rw [htake, ← map_append, take_append_drop] at hleaf
    refine ⟨leafOver P (l.take size) :: leaves, ?_, ?_, by rw [length_cons, h3, length_cons], fun n hn => ?_⟩
    · rw [readLeaves, hleaf]
      dsimp only
      rw [h1]
    · rw [collectChildren_cons, h2]
      exact take_append_drop size l
    · rcases mem_cons.mp hn with rfl | hn
      · exact ⟨_, rfl, htake.symm ▸ mem_cons_self ..⟩
      · obtain ⟨es, h5, h6⟩ := h4 n hn
        exact ⟨es, h5, mem_cons_of_mem _ h6⟩

/-- The sizes of the leaves are within their bounds. -/
theorem leafSizes_spec (hP : P.Valid) {n : ℕ} (hn : 0 < n) :
    (leafSizes P n).sum = n ∧ leafSizes P n ≠ [] ∧ (∀ size ∈ leafSizes P n, size ≤ P.maxLeaf) ∧
      (2 ≤ (leafSizes P n).length → ∀ size ∈ leafSizes P n, P.minLeaf ≤ size) := by
  have hm := hP.leaf
  by_cases hfit : n ≤ P.maxLeaf
  · have hparts : divCeil n P.maxLeaf = 1 := by
      have h1 : divCeil n P.maxLeaf ≤ 1 := (divCeil_le_iff hm).mpr (by omega)
      have h2 : 0 < divCeil n P.maxLeaf := (lt_divCeil_iff hm).mpr (by omega)
      omega
    have hsizes : leafSizes P n = [n] := by
      unfold leafSizes
      rw [hparts]
      simp [shrinkParts, mod_one]
    rw [hsizes]
    simp [hfit]
  · obtain ⟨hsum, hsize⟩ := sizes_spec hm (not_le.mp hfit)
    have hparts := two_le_parts hm (not_le.mp hfit)
    have hshrink : shrinkParts n P.minLeaf (divCeil n P.maxLeaf) = divCeil n P.maxLeaf :=
      shrinkParts_eq hm (not_le.mp hfit)
    unfold leafSizes
    rw [hshrink]
    refine ⟨hsum, fun hnil => ?_, fun size hs => ?_, fun _ size hs => ?_⟩
    · have := congrArg length hnil
      simp at this
      omega
    · obtain ⟨i, -, rfl⟩ := mem_map.mp hs
      exact (hsize i).2
    · obtain ⟨i, -, rfl⟩ := mem_map.mp hs
      exact (hsize i).1

/-- **A stream of known length gives a tree of its entries.** -/
theorem counted_spec (hP : P.Valid) (m : OrdMap K V) :
    ∃ t, rebuildFromSized P m.entries.length (m.entries.map (ok : K × V → Except E (K × V))) =
      some (.ok t) ∧ Refines P t m := by
  unfold rebuildFromSized
  by_cases h0 : m.entries.length = 0
  · have hnil : m.entries = [] := length_eq_zero_iff.mp h0
    refine ⟨⟨leafOver P [], 0⟩, by rw [if_pos h0, hnil]; rfl, ⟨0, .leaf (zero_le _) fun h => Bool.noConfusion h⟩,
      hnil.symm, h0.symm⟩
  · have hm := hP.leaf
    obtain ⟨h1, h2, h3, h4⟩ := leafSizes_spec hP (pos_of_ne_zero h0)
    obtain ⟨leaves, h5, h6, h7, h8⟩ := readLeaves_spec (P := P) (E := E) (leafSizes P m.entries.length) m.entries []
      m.sorted h1
    have hlevel : Level P 0 m.entries leaves := by
      refine leaves_level h6 (fun hnil => h2 ?_) fun n hn => ?_
      · rw [hnil] at h7
        exact length_eq_zero_iff.mp h7.symm
      · obtain ⟨es, h9, h10⟩ := h8 n hn
        exact ⟨es, h9, h3 _ h10, fun hlen => h4 (by omega) _ h10⟩
    obtain ⟨root, h', h9, h10, h11⟩ := rootOver_spec hP hlevel
    refine ⟨⟨root, m.entries.length⟩, ?_, ⟨h', h10⟩, h11, rfl⟩
    have hread : readLeaves P (leafSizes P m.entries.length) none
        (m.entries.map (ok : K × V → Except E (K × V))) = .ok (leaves, []) := h5
    rw [if_neg h0, if_neg (by omega), hread]
    dsimp only [expectEnd]
    rw [h9, map_some]

/-! ### What is refused -/

theorem pushAll_ok : ∀ {stream : List (Except E (K × V))} {s s' : LeafStream K V} {entries : List (K × V)},
    Ascending entries → s.previousKey = entries.getLast?.map fst → stream.foldlM (LeafStream.push P) s = .ok s' →
    ∃ es, stream = es.map .ok ∧ Ascending (entries ++ es)
  | [], _, _, _, hasc, _, _ => ⟨[], rfl, by rwa [append_nil]⟩
  | .error _ :: _, _, _, _, _, _, h => by cases h
  | .ok e :: stream, s, s', entries, hasc, hlast, h => by
    rw [foldlM_cons, LeafStream.push] at h
    dsimp only at h
    cases horder : outOfOrder s.previousKey e.1 with
    | true => rw [if_pos horder] at h; cases h
    | false =>
      have hasc' := (ascending_concat_iff hasc).mpr (hlast ▸ horder)
      rw [if_neg (by simp [horder])] at h
      have hrest : ∃ es, stream = es.map .ok ∧ Ascending (entries ++ [e] ++ es) := by
        split_ifs at h
        · exact pushAll_ok hasc' (by simp) h
        · exact pushAll_ok hasc' (by simp) h
      obtain ⟨es, rfl, h1⟩ := hrest
      exact ⟨e :: es, rfl, by rwa [append_cons]⟩

theorem readLeaf_ok : ∀ {size : ℕ} {stream rest : List (Except E (K × V))} {entries l : List (K × V)} {last : Option K},
    Ascending entries → readLeaf size (entries.getLast?.map fst) stream = .ok (l, rest, last) →
    stream = l.map .ok ++ rest ∧ l.length = size ∧ Ascending (entries ++ l) ∧ last = (entries ++ l).getLast?.map fst
  | 0, _, _, _, _, _, hasc, h => by
    cases h
    exact ⟨rfl, rfl, by rwa [append_nil], by rw [append_nil]⟩
  | _ + 1, [], _, _, _, _, _, h => by cases h
  | _ + 1, .error _ :: _, _, _, _, _, _, h => by cases h
  | size + 1, .ok e :: stream, rest, entries, l, last, hasc, h => by
    rw [readLeaf] at h
    split_ifs at h with horder
    have hasc' := (ascending_concat_iff hasc).mpr (by simpa using horder)
    cases hread : readLeaf size (some e.1) stream with
    | error _ => rw [hread] at h; cases h
    | ok r =>
      obtain ⟨es, rest', last'⟩ := r
      rw [hread] at h
      cases h
      rw [show some e.1 = (entries ++ [e]).getLast?.map fst by simp] at hread
      obtain ⟨rfl, h1, h2, h3⟩ := readLeaf_ok hasc' hread
      rw [append_cons]
      exact ⟨rfl, congrArg succ h1, h2, h3⟩

theorem readLeaves_ok : ∀ {sizes : List ℕ} {stream rest : List (Except E (K × V))} {entries : List (K × V)}
    {leaves : List (BTreeNode K V)}, Ascending entries →
    readLeaves P sizes (entries.getLast?.map fst) stream = .ok (leaves, rest) →
    ∃ es, stream = es.map .ok ++ rest ∧ es.length = sizes.sum ∧ Ascending (entries ++ es)
  | [], _, _, _, _, hasc, h => by
    cases h
    exact ⟨[], rfl, rfl, by rwa [append_nil]⟩
  | size :: sizes, stream, rest, entries, leaves, hasc, h => by
    rw [readLeaves] at h
    cases hread : readLeaf size (entries.getLast?.map fst) stream with
    | error _ => rw [hread] at h; cases h
    | ok r =>
      obtain ⟨l, stream', last⟩ := r
      obtain ⟨rfl, h1, h2, rfl⟩ := readLeaf_ok hasc hread
      rw [hread] at h
      dsimp only at h
      cases hrest : readLeaves P sizes ((entries ++ l).getLast?.map fst) stream' with
      | error _ => rw [hrest] at h; cases h
      | ok r =>
        rw [hrest] at h
        cases h
        obtain ⟨es, rfl, h3, h4⟩ := readLeaves_ok h2 hrest
        refine ⟨l ++ es, ?_, ?_, ?_⟩
        · rw [map_append, append_assoc]
        · rw [length_append, h1, h3, sum_cons]
        · rwa [append_assoc] at h4

/-- `try_rebuild_compact_from_sorted_iter` on a tree: what was built takes its place. -/
def BPlusTree.tryRebuildCompactFromSortedIter (P : Params) (t : BPlusTree K V) (expectedLen : ℕ)
    (entries : List (Except E (K × V))) : Option (BPlusTree K V × Except (RebuildFromSortedIterError E) Unit) :=
  (rebuildFromSized P expectedLen entries).map fun
    | .error e => (t, .error e)
    | .ok built => (built, .ok ())

def BPlusTree.tryRebuildCompactFromSortedUnknownLenIter (P : Params) (t : BPlusTree K V)
    (entries : List (Except E (K × V))) : Option (BPlusTree K V × Except (RebuildFromSortedIterError E) ℕ) :=
  (rebuildFromUnknownLen P entries).map fun
    | .error e => (t, .error e)
    | .ok built => (built, .ok built.len)

/-- What a rebuild of `t` gives: from an admitted stream a valid tree of its entries, from others an error. -/
def Rebuilds {α : Type} (P : Params) (t : BPlusTree K V) (stream : List (Except E (K × V))) (admitted : Prop)
    (result : Option (BPlusTree K V × Except (RebuildFromSortedIterError E) α)) : Prop :=
  (admitted ∧ ∃ t' a, result = some (t', .ok a) ∧ t'.validate P = some (.ok ()) ∧ stream = t'.entries.map .ok) ∨
    ¬ admitted ∧ ∃ e, result = some (t, .error e)

/-- **A stream is taken if it has no error, the announced length and ascending keys; else the tree stays.** -/
theorem rebuild_from_sorted_iff (hP : P.Valid) (t : BPlusTree K V) (n : ℕ) (stream : List (Except E (K × V))) :
    Rebuilds P t stream (∃ es, stream = es.map .ok ∧ es.length = n ∧ Ascending es)
      (t.tryRebuildCompactFromSortedIter P n stream) ∧
    Rebuilds P t stream (∃ es, stream = es.map .ok ∧ Ascending es)
      (t.tryRebuildCompactFromSortedUnknownLenIter P stream) := by
  unfold BPlusTree.tryRebuildCompactFromSortedIter BPlusTree.tryRebuildCompactFromSortedUnknownLenIter
  constructor
  · by_cases hadm : ∃ es, stream = es.map .ok ∧ es.length = n ∧ Ascending es
    · obtain ⟨es, rfl, rfl, hasc⟩ := id hadm
      obtain ⟨t', h1, h2⟩ := counted_spec (E := E) hP ⟨es, hasc⟩
      refine .inl ⟨hadm, t', (), by rw [h1, map_some], validate_eq_ok hP h2, ?_⟩
      rw [h2.entries]
    · refine .inr ⟨hadm, ?_⟩
      unfold BPlusTree.rebuildFromSized
      by_cases h0 : n = 0
      · rw [if_pos h0]
        match stream, hadm with
        | [], hadm => exact absurd ⟨[], rfl, h0.symm, .nil⟩ hadm
        | .ok _ :: _, _ => exact ⟨_, rfl⟩
        | .error _ :: _, _ => exact ⟨_, rfl⟩
      · rw [if_neg h0, if_neg (Nat.ne_of_gt hP.leaf)]
        cases hread : readLeaves P (leafSizes P n) none stream with
        | error e => exact ⟨e, rfl⟩
        | ok r =>
          obtain ⟨leaves, rest⟩ := r
          obtain ⟨es, rfl, h1, h2⟩ := readLeaves_ok (show Ascending ([] : List (K × V)) from .nil) hread
          match rest, hadm with
          | [], hadm =>
            rw [(leafSizes_spec hP (Nat.pos_of_ne_zero h0)).1] at h1
            exact absurd ⟨es, append_nil _, h1, h2⟩ hadm
          | .ok _ :: _, _ => exact ⟨_, rfl⟩
          | .error _ :: _, _ => exact ⟨_, rfl⟩
  · by_cases hadm : ∃ es, stream = es.map .ok ∧ Ascending es
    · obtain ⟨es, rfl, hasc⟩ := id hadm
      obtain ⟨t', h1, h2⟩ := streamed_spec (E := E) hP ⟨es, hasc⟩
      refine .inl ⟨hadm, t', t'.len, by rw [h1, map_some], validate_eq_ok hP h2, ?_⟩
      rw [h2.entries]
    · refine .inr ⟨hadm, ?_⟩
      unfold BPlusTree.rebuildFromUnknownLen
      cases hfold : stream.foldlM (LeafStream.push P) LeafStream.start with
      | error e => exact ⟨e, rfl⟩
      | ok s => exact absurd (pushAll_ok (show Ascending ([] : List (K × V)) from .nil) rfl hfold) hadm

/-- Ten keys with their squares. -/
def squares : List (ℕ × ℕ) := (range 10).map fun k => (k, k * k)

/-- Both rebuild a tree of the ten, and leave the tree as it is if the stream ends in an error. -/
theorem rebuild_from_sorted_iff_ten :
    let t : BPlusTree ℕ ℕ := ⟨leafOver smallest [(3, 4)], 1⟩
    let stream : List (Except Unit (ℕ × ℕ)) := squares.map .ok
    (∃ t', t.tryRebuildCompactFromSortedIter smallest 10 stream = some (t', .ok ()) ∧ t'.entries = squares) ∧
    (∃ t' n, t.tryRebuildCompactFromSortedUnknownLenIter smallest stream = some (t', .ok n) ∧ t'.entries = squares) ∧
    (∃ e, t.tryRebuildCompactFromSortedIter smallest 10 (stream ++ [.error ()]) = some (t, .error e)) ∧
    ∃ e, t.tryRebuildCompactFromSortedUnknownLenIter smallest (stream ++ [.error ()]) = some (t, .error e) := by
  intro t stream
  have hP : smallest.Valid := ⟨by decide, by decide⟩
  have hasc : Ascending squares := by
    unfold Ascending
    decide
  have hread : ∀ {es : List (ℕ × ℕ)}, stream = es.map .ok → es = squares := fun h =>
    (map_injective_iff.mpr (fun _ _ => Except.ok.inj) h).symm
  have hbroken : ∀ es : List (ℕ × ℕ), stream ++ [.error ()] ≠ es.map .ok := fun es h => by
    have hmem : (.error () : Except Unit (ℕ × ℕ)) ∈ es.map .ok := h ▸ mem_append_right _ mem_cons_self
    obtain ⟨_, -, hcontra⟩ := mem_map.mp hmem
    cases hcontra
  obtain ⟨hsized, hunsized⟩ := rebuild_from_sorted_iff hP t 10 stream
  obtain ⟨hsized', hunsized'⟩ := rebuild_from_sorted_iff hP t 10 (stream ++ [.error ()])
  obtain ⟨-, t₁, _, h₁, -, hes₁⟩ := hsized.resolve_right fun h => h.1 ⟨squares, rfl, rfl, hasc⟩
  obtain ⟨-, t₂, n, h₂, -, hes₂⟩ := hunsized.resolve_right fun h => h.1 ⟨squares, rfl, hasc⟩
  exact ⟨⟨t₁, h₁, hread hes₁⟩, ⟨t₂, n, h₂, hread hes₂⟩, (hsized'.resolve_left fun h => hbroken _ h.1.choose_spec.1).2,
    (hunsized'.resolve_left fun h => hbroken _ h.1.choose_spec.1).2⟩

end Streams

/-! ### Depth -/

/-- The entries of children that have at least so many each. -/
theorem mul_le_collectChildren {least : ℕ} : ∀ {children : List (BTreeNode K V)},
    (∀ c ∈ children, least ≤ (collectAll c).length) → children.length * least ≤ (collectChildren children).length
  | [], _ => by simp
  | c :: cs, h => by
    obtain ⟨h1, h2⟩ := forall_mem_cons.mp h
    have := mul_le_collectChildren h2
    rw [collectChildren_cons, length_append, length_cons, succ_mul]
    omega

theorem Good.entries_le_node {n : BTreeNode K V} (hg : Good P h false n) :
    P.minInternal ^ h * P.minLeaf ≤ (collectAll n).length := by
  generalize hroot : false = root at hg
  induction hg with
  | leaf h1 h2 =>
    rw [pow_zero, one_mul]
    exact h2 hroot.symm
  | @internal h _ _ children h1 h2 h3 h4 _ ih =>
    have hall : ∀ c ∈ children, P.minInternal ^ h * P.minLeaf ≤ (collectAll c).length := fun c hc => ih c hc rfl
    calc P.minInternal ^ (h + 1) * P.minLeaf = P.minInternal * (P.minInternal ^ h * P.minLeaf) := by
          rw [pow_succ, mul_comm (P.minInternal ^ h), mul_assoc]
      _ ≤ children.length * (P.minInternal ^ h * P.minLeaf) := mul_le_mul_right _ (h4 hroot.symm)
      _ ≤ _ := mul_le_collectChildren hall

/-- **A tree with an internal root has this many entries at least.** -/
theorem Good.entries_le {root : BTreeNode K V} (hg : Good P (h + 1) true root) :
    2 * (P.minInternal ^ h * P.minLeaf) ≤ (collectAll root).length := by
  cases hg with
  | internal h1 h2 _ _ _ =>
    calc 2 * (P.minInternal ^ h * P.minLeaf) ≤ _ := mul_le_mul_right _ h2
      _ ≤ _ := mul_le_collectChildren fun c hc => (h1 c hc).entries_le_node

/-- A tree with fewer entries is not that deep. -/
theorem Refines.depth_le [LinearOrder K] (hP : P.Valid) {t : BPlusTree K V} {m : OrdMap K V} (h : Refines P t m) {d : ℕ}
    (hfew : m.entries.length < 2 * (P.minInternal ^ d * P.minLeaf)) : ∃ depth, t.depth = some depth ∧ depth ≤ d + 1 := by
  obtain ⟨⟨height, hg⟩, hentries, hlen⟩ := h
  unfold BPlusTree.depth
  by_cases h0 : t.len = 0
  · exact ⟨1, if_pos h0, by omega⟩
  · refine ⟨height + 1, by rw [if_neg h0, depth_eq hg], ?_⟩
    by_contra hdeep
    obtain ⟨k, rfl⟩ : ∃ k, height = d + 1 + k := ⟨height - (d + 1), by omega⟩
    have hle := Good.entries_le (show Good P (d + k + 1) true t.root by rwa [show d + k + 1 = d + 1 + k by omega])
    have hmin := hP.two_le_minInternal
    have hmono : P.minInternal ^ d * P.minLeaf ≤ P.minInternal ^ (d + k) * P.minLeaf :=
      Nat.mul_le_mul_right _ (Nat.pow_le_pow_right (by omega) (by omega))
    have hcount : (collectAll t.root).length = m.entries.length := congrArg length hentries
    omega

end Tidefs.Btree
