/-
# The polymorphic directory index

A small directory is a list of entries in insertion order. A large one is a B+tree of
buckets keyed by the hash of the name, with a second tree keyed by the name for listings.
Thresholds with hysteresis decide which form is used, and every operation ends with that
choice.

Both forms hold the bindings of one map from names to targets (`Holds`). The inner
operations follow the map, except that taking out a name that is not there, while another
name of the same hash is, still counts one entry less.
-/
import Tidefs.Btree.Refine
import Tidefs.DirIndex.Format
import Tidefs.Lib.Buckets

namespace Tidefs
namespace DirIndex

open Btree Buckets Ordered Word List Option OrdMap

/-- Inode, generation and kind of a name. -/
abbrev Target := ℕ × ℕ × ℕ

structure DirMicroEntry where
  nameLen : ℕ
  inodeId : ℕ
  generation : ℕ
  kind : ℕ
  name : Name
deriving DecidableEq

structure DirBtreeLeafEntry where
  nameHash : ℕ
  nameLen : ℕ
  inodeId : ℕ
  generation : ℕ
  kind : ℕ
  name : Name
deriving DecidableEq

structure DatasetDirPolicy where
  dirMicroMaxEntries : ℕ
  dirMicroMaxNameBytes : ℕ
  dirBtreeDownshiftEntries : ℕ
  dirBtreeDownshiftNameBytes : ℕ

def DatasetDirPolicy.shouldUseBtree (policy : DatasetDirPolicy) (count nameBytes : ℕ) : Bool :=
  policy.dirMicroMaxEntries < count ∨ policy.dirMicroMaxNameBytes < nameBytes

def DatasetDirPolicy.shouldUseMicroFromBtree (policy : DatasetDirPolicy) (count nameBytes : ℕ) : Bool :=
  count ≤ policy.dirBtreeDownshiftEntries ∧ nameBytes ≤ policy.dirBtreeDownshiftNameBytes

structure DirMicroListV1 where
  entryCount : ℕ
  totalNameBytes : ℕ
  entries : List DirMicroEntry

structure DirBtreeRuntimeState where
  entryCount : ℕ
  totalNameBytes : ℕ

/-- The two forms of a directory: a list, or two trees. -/
inductive DirStorage where
  | microList (list : DirMicroListV1)
  | btree (root : DirBtreeRuntimeState)

def DirStorage.entryCount : DirStorage → ℕ
  | microList list => list.entryCount
  | btree root => root.entryCount

abbrev DirHashTree := BPlusTree ℕ (List DirBtreeLeafEntry)

abbrev DirNameTree := OrdMap Name DirBtreeLeafEntry

/-- A directory in the form its size calls for. -/
structure DirIndex where
  storage : DirStorage
  policy : DatasetDirPolicy
  btree : Option DirHashTree
  nameBtree : Option DirNameTree
  directoryVersion : ℕ
  dirty : Bool

def fnvOffset : ℕ := 0xcbf29ce484222325

def fnvPrime : ℕ := 0x100000001b3

/-- FNV-1a on 64 bits. -/
def nameHash (name : Name) : ℕ :=
  name.foldl (fun hash byte => wrap64 ((hash ^^^ byte.toNat) * fnvPrime)) fnvOffset

def dirEntryFromBtreeLeaf (entry : DirBtreeLeafEntry) : DirMicroEntry :=
  ⟨entry.nameLen, entry.inodeId, entry.generation, entry.kind, entry.name⟩

/-- The entry of the other form; a name length that does not fit is cut to the greatest. -/
def btreeLeafFromDirEntry (entry : DirMicroEntry) : DirBtreeLeafEntry :=
  ⟨nameHash entry.name, if entry.nameLen < 2 ^ 16 then entry.nameLen else 2 ^ 16 - 1, entry.inodeId, entry.generation,
    entry.kind, entry.name⟩

/-- The trees' node sizes, and the digest of their nodes. -/
def dirParams (blake3 : List UInt8 → Digest) : Params := ⟨128, 128, blake3⟩

variable (H : List UInt8 → Digest)

/-- A leaf at the end of the bucket of its hash, and under its name. -/
def addLeaf (tree : DirHashTree) (nameTree : DirNameTree) (leaf : DirBtreeLeafEntry) :
    Option (DirHashTree × DirNameTree) := do
  let found ← tree.containsKey leaf.nameHash
  let tree ←
    if found then (tree.update (dirParams H) leaf.nameHash (· ++ [leaf])).map Prod.fst
    else (tree.insert (dirParams H) leaf.nameHash [leaf]).map Prod.fst
  some (tree, nameTree.insert leaf.name leaf)

/-- A bucket put back without the name; it goes when it is empty. -/
def retainBucket (tree : DirHashTree) (name : Name) (bucket : List DirBtreeLeafEntry) : Option DirHashTree :=
  let bucket := bucket.filter (·.name ≠ name)
  if bucket.isEmpty then (tree.delete (dirParams H) (nameHash name)).map Prod.fst
  else (tree.insert (dirParams H) (nameHash name) bucket).map Prod.fst

namespace DirIndex

def new (policy : DatasetDirPolicy) : DirIndex := ⟨.microList ⟨0, 0, []⟩, policy, none, none, 0, true⟩

variable (x : DirIndex)

def len : ℕ := x.storage.entryCount

/-- It panics where the trees are missing. -/
def lookup (name : Name) : Option (Option DirMicroEntry) :=
  match x.storage with
  | .microList list => some (list.entries.find? (·.name = name))
  | .btree _ => do
    let tree ← x.btree
    let bucket ← tree.get (nameHash name)
    some ((bucket.bind fun bucket => bucket.find? (·.name = name)).map dirEntryFromBtreeLeaf)

def insertInner (name : Name) (target : Target) : Option DirIndex :=
  match x.storage with
  | .microList list =>
    some { x with storage := .microList ⟨wrap64 (list.entryCount + 1), wrap64 (list.totalNameBytes + name.length),
      list.entries ++ [⟨name.length % 2 ^ 32, target.1, target.2.1, target.2.2, name⟩]⟩ }
  | .btree root => do
    let tree ← x.btree
    let nameTree ← x.nameBtree
    let (tree, nameTree) ← addLeaf H tree nameTree
      ⟨nameHash name, name.length % 2 ^ 16, target.1, target.2.1, target.2.2, name⟩
    some { x with
      storage := .btree ⟨wrap64 (root.entryCount + 1), wrap64 (root.totalNameBytes + name.length)⟩
      btree := some tree
      nameBtree := some nameTree }

/-- In the list the first entry of the name goes. In the trees the counters go down when
there is a bucket for the hash, whether or not the name is in it. -/
def deleteInner (name : Name) : Option DirIndex :=
  match x.storage with
  | .microList list =>
    if list.entries.any (·.name = name) then
      some { x with storage := .microList ⟨wrapSub list.entryCount 1, wrapSub list.totalNameBytes name.length,
        list.entries.eraseP (·.name = name)⟩ }
    else some x
  | .btree root => do
    let tree ← x.btree
    match ← tree.get (nameHash name) with
    | none => some x
    | some bucket =>
      let tree ← retainBucket H tree name bucket
      some { x with
        storage := .btree ⟨wrapSub root.entryCount 1, wrapSub root.totalNameBytes name.length⟩
        btree := some tree
        nameBtree := x.nameBtree.map (·.erase name) }

def list (x : DirIndex) : Option (List DirMicroEntry) :=
  match x.storage with
  | .microList list => some (list.entries.mergeSort fun a b => a.name ≤ b.name)
  | .btree _ => x.nameBtree.map fun nameTree => nameTree.entries.map fun e => dirEntryFromBtreeLeaf e.2

def promoteToBtree (list : DirMicroListV1) : Option DirIndex := do
  let (tree, nameTree) ← list.entries.foldlM (fun trees e => addLeaf H trees.1 trees.2 (btreeLeafFromDirEntry e))
    (BPlusTree.new (dirParams H), OrdMap.empty)
  some { x with
    storage := .btree ⟨wrap64 list.entries.length, wrap64 (list.entries.map (·.name.length)).sum⟩
    btree := some tree
    nameBtree := some nameTree }

def demoteToMicro : DirIndex :=
  match x.btree with
  | none => x
  | some tree =>
    let entries := (tree.entries.flatMap Prod.snd).map dirEntryFromBtreeLeaf
    { x with
      storage := .microList ⟨wrap64 entries.length, wrap64 (entries.map (·.name.length)).sum, entries⟩
      btree := none
      nameBtree := none }

def checkAndSwitch : Option DirIndex :=
  match x.storage with
  | .microList list =>
    if x.policy.shouldUseBtree list.entryCount list.totalNameBytes then x.promoteToBtree H list else some x
  | .btree root =>
    if x.policy.shouldUseMicroFromBtree root.entryCount root.totalNameBytes then some x.demoteToMicro else some x

end DirIndex

open DirIndex

/-! ### The map a directory stands for -/

/-- A binding as an entry of the list. -/
def micro (e : Name × Target) : DirMicroEntry := ⟨e.1.length, e.2.1, e.2.2.1, e.2.2.2, e.1⟩

def leaf (e : Name × Target) : DirBtreeLeafEntry := ⟨nameHash e.1, e.1.length, e.2.1, e.2.2.1, e.2.2.2, e.1⟩

/-- Both trees hold the bindings of the map, and no bucket is empty. -/
structure TreesHold (tree : DirHashTree) (nameTree : DirNameTree) (m : OrdMap Name Target) : Prop where
  buckets : ∃ mh, Refines (dirParams H) tree mh ∧ Keyed (·.nameHash) mh ∧ (∀ e ∈ mh.entries, e.2 ≠ []) ∧
    (flat mh).Perm (m.entries.map leaf)
  names : nameTree.entries = m.entries.map fun e => (e.1, leaf e)

/-- The directory holds the map, in the one form or the other. -/
inductive Holds (x : DirIndex) (m : OrdMap Name Target) : Prop where
  | micro {list : DirMicroListV1} (storage : x.storage = .microList list)
      (count : list.entryCount = wrap64 m.entries.length) (entries : list.entries.Perm (m.entries.map micro))
      (short : ∀ e ∈ m.entries, e.1.length < 2 ^ 16)
  | btree {root : DirBtreeRuntimeState} {tree : DirHashTree} {nameTree : DirNameTree} (storage : x.storage = .btree root)
      (count : root.entryCount = wrap64 m.entries.length) (hash : x.btree = some tree)
      (names : x.nameBtree = some nameTree) (trees : TreesHold H tree nameTree m)
      (short : ∀ e ∈ m.entries, e.1.length < 2 ^ 16)

variable {H} {x : DirIndex} {m : OrdMap Name Target} {name : Name} {target : Target} {tree : DirHashTree}
  {nameTree : DirNameTree}

theorem Holds.short (h : Holds H x m) : ∀ e ∈ m.entries, e.1.length < 2 ^ 16 := by
  cases h with
  | micro _ _ _ short => exact short
  | btree _ _ _ _ _ short => exact short

theorem Holds.len (h : Holds H x m) : x.len = wrap64 m.entries.length := by
  cases h with
  | micro storage count _ _ =>
    rw [DirIndex.len, storage]
    exact count
  | btree storage count _ _ _ _ =>
    rw [DirIndex.len, storage]
    exact count

theorem dirParams_valid : (dirParams H).Valid := ⟨show 1 ≤ 128 by decide, show 3 ≤ 128 by decide⟩

variable {e : Name × Target}

theorem btreeLeafFromDirEntry_micro (h : e.1.length < 2 ^ 16) : btreeLeafFromDirEntry (micro e) = leaf e := by
  rw [btreeLeafFromDirEntry, if_pos (show (micro e).nameLen < 2 ^ 16 from h)]
  rfl

theorem eq_of_get? {m : OrdMap Name Target} (he : e ∈ m.entries) : m.get? e.1 = some e.2 :=
  get?_eq_some.mpr he

variable {α : Type}

/-- A search by name in entries that stand for bindings. -/
theorem find?_bindings (f : Name × Target → α) (nameOf : α → Name) (hname : ∀ e, nameOf (f e) = e.1)
    {l : List α} (hfrom : ∀ a ∈ l, ∃ e ∈ m.entries, a = f e) (hhas : ∀ t, (name, t) ∈ m.entries → f (name, t) ∈ l) :
    l.find? (fun a => nameOf a = name) = (m.get? name).map fun t => f (name, t) := by
  cases hfind : l.find? (fun a => nameOf a = name) with
  | some a =>
    have hn := find?_some hfind
    obtain ⟨e, he, rfl⟩ := hfrom a (mem_of_find?_eq_some hfind)
    have hen : e.1 = name := (hname e).symm.trans (of_decide_eq_true hn)
    subst hen
    rw [eq_of_get? he]
    rfl
  | none =>
    cases hget : m.get? name with
    | none => rfl
    | some t =>
      have hmem := hhas t (get?_eq_some.mp hget)
      exact absurd (decide_eq_true (hname (name, t))) (find?_eq_none.mp hfind _ hmem)

theorem mem_bindings {f : Name × Target → α} {l : List α} (h : l.Perm (m.entries.map f)) {a : α}
    (ha : a ∈ l) : ∃ e ∈ m.entries, a = f e := by
  obtain ⟨e, he, rfl⟩ := mem_map.mp (h.mem_iff.mp ha)
  exact ⟨e, he, rfl⟩

/-! ### The trees -/

/-- **A lookup** in the bucket of the name's hash finds the binding. -/
theorem TreesHold.lookup (h : TreesHold H tree nameTree m) (name : Name) :
    ∃ bucket, tree.get (nameHash name) = some bucket ∧
      ((bucket.bind fun bucket => bucket.find? (·.name = name)).map dirEntryFromBtreeLeaf) =
        (m.get? name).map fun t => micro (name, t) := by
  obtain ⟨mh, href, hkeyed, -, hperm⟩ := h.buckets
  refine ⟨_, href.get dirParams_valid (nameHash name), ?_⟩
  have hfind : ((mh.get? (nameHash name)).bind fun bucket => bucket.find? (·.name = name)) =
      (bucket mh (nameHash name)).find? (·.name = name) := by
    unfold bucket
    cases mh.get? (nameHash name) <;> rfl
  have hbindings := @find?_bindings m name _ leaf (·.name) (fun _ => rfl) (bucket mh (nameHash name))
    (fun a ha => by
      have hhash := hash_of_mem_bucket hkeyed ha
      rw [← hhash] at ha
      exact mem_bindings hperm ((mem_bucket hkeyed).mp ha))
    (fun t ht => (@mem_bucket _ _ _ mh (·.nameHash) (leaf (name, t)) hkeyed).mpr
      (hperm.mem_iff.mpr (mem_map_of_mem ht)))
  rw [hfind, hbindings, Option.map_map]
  rfl

/-- **A new binding** goes into both trees. -/
theorem addLeaf_spec (h : TreesHold H tree nameTree m) (hnew : m.get? name = none) :
    ∃ tree' nameTree', addLeaf H tree nameTree (leaf (name, target)) = some (tree', nameTree') ∧
      TreesHold H tree' nameTree' (m.insert name target) := by
  obtain ⟨mh, href, hkeyed, hne, hperm⟩ := h.buckets
  have hfound : tree.containsKey (nameHash name) = some (mh.get? (nameHash name)).isSome := by
    rw [BPlusTree.containsKey, href.get dirParams_valid]
    rfl
  have hbucket : ∀ b, bucket mh (nameHash name) = b → Keyed (·.nameHash) (mh.insert (nameHash name)
      (b ++ [leaf (name, target)])) := fun b hb => keyed_insert hkeyed
    (forall_mem_append.mpr ⟨fun a ha => hash_of_mem_bucket hkeyed (hb ▸ ha), forall_mem_singleton.mpr rfl⟩)
  have hholds : ∀ tree', Refines (dirParams H) tree' (mh.insert (nameHash name)
      (bucket mh (nameHash name) ++ [leaf (name, target)])) →
      TreesHold H tree' (nameTree.insert name (leaf (name, target))) (m.insert name target) := fun tree' href' => by
    refine ⟨⟨_, href', hbucket _ rfl, fun e he => ?_, ?_⟩, ?_⟩
    · rcases mem_insertList _ _ he with rfl | he
      · exact append_ne_nil_of_right_ne_nil _ (cons_ne_nil _ _)
      · exact hne e he
    · refine (flat_add mh _ _).trans ((hperm.cons _).trans ?_)
      exact ((perm_insertList m.sorted hnew).map leaf).symm
    · show insertList name _ nameTree.entries = _
      rw [h.names]
      exact insertList_map leaf name target m.entries
  show ∃ tree' nameTree', (tree.containsKey (nameHash name) >>= _) = _ ∧ _
  rw [hfound, bind_eq_bind, bind_some]
  cases hget : mh.get? (nameHash name) with
  | none =>
    obtain ⟨tree', h1, h2⟩ := href.insert dirParams_valid (nameHash name) [leaf (name, target)]
    refine ⟨tree', _, ?_, hholds tree' ?_⟩
    · rw [isSome_none, if_neg Bool.false_ne_true]
      show (Option.map Prod.fst (tree.insert (dirParams H) (nameHash name) [leaf (name, target)]) >>= _) = _
      rw [h1]
      rfl
    · rw [bucket, hget]
      exact h2
  | some b =>
    obtain ⟨tree', h1, h2⟩ := href.update dirParams_valid (nameHash name) (· ++ [leaf (name, target)])
    refine ⟨tree', _, ?_, hholds tree' ?_⟩
    · rw [isSome_some, if_pos rfl]
      show (Option.map Prod.fst (tree.update (dirParams H) (nameHash name) (· ++ [leaf (name, target)])) >>= _) = _
      rw [h1]
      rfl
    · rw [bucket, hget]
      have happly : applyOp mh (.update (nameHash name) (· ++ [leaf (name, target)])) =
          mh.insert (nameHash name) (b ++ [leaf (name, target)]) := by
        simp [applyOp, hget]
      rw [happly] at h2
      exact h2

theorem filter_bindings (f : Name × Target → α) (nameOf : α → Name) (hname : ∀ e, nameOf (f e) = e.1)
    (m : OrdMap Name Target) (name : Name) :
    (m.entries.map f).filter (fun a => decide (nameOf a ≠ name)) = (m.erase name).entries.map f := by
  rw [List.filter_map]
  refine congrArg (List.map f) (filter_congr fun e _ => decide_eq_decide.mpr ?_)
  rw [hname]

variable {b : List DirBtreeLeafEntry}

/-- **A binding taken out** of the trees: its bucket shrinks or goes. -/
theorem removeLeaf_spec (h : TreesHold H tree nameTree m) (hb : tree.get (nameHash name) = some (some b)) :
    ∃ tree', retainBucket H tree name b = some tree' ∧ TreesHold H tree' (nameTree.erase name) (m.erase name) := by
  obtain ⟨mh, href, hkeyed, hne, hperm⟩ := h.buckets
  rw [href.get dirParams_valid] at hb
  have hget : mh.get? (nameHash name) = some b := some.inj hb
  have hbucket : bucket mh (nameHash name) = b := by rw [bucket, hget]; rfl
  have hnames : (nameTree.erase name).entries = (m.erase name).entries.map fun e => (e.1, leaf e) := by
    show nameTree.entries.filter _ = _
    rw [h.names, List.filter_map]
    rfl
  -- the leaves that stay
  have hstay : ((bucket mh (nameHash name)).filter (·.name ≠ name) ++ flat (mh.erase (nameHash name))).Perm
      ((m.erase name).entries.map leaf) := by
    refine (@flat_filter _ _ _ mh (·.nameHash) (nameHash name) hkeyed (fun l => decide (l.name ≠ name)) ?_).symm.trans ?_
    · intro l hl hname
      obtain ⟨e, -, rfl⟩ := mem_bindings hperm hl
      rw [show name = e.1 from (not_not.mp (of_decide_eq_false hname)).symm]
      rfl
    · rw [← filter_bindings leaf (·.name) (fun _ => rfl)]
      exact hperm.filter _
  rw [hbucket] at hstay
  unfold retainBucket
  by_cases hempty : (b.filter (·.name ≠ name)).isEmpty = true
  · obtain ⟨tree', h1, h2⟩ := href.delete dirParams_valid (nameHash name)
    rw [if_pos hempty, h1]
    refine ⟨tree', rfl, ⟨_, h2, keyed_erase hkeyed _, fun e he => hne e (mem_of_mem_filter he), ?_⟩, hnames⟩
    rw [isEmpty_iff.mp hempty] at hstay
    exact hstay
  · obtain ⟨tree', h1, h2⟩ := href.insert dirParams_valid (nameHash name) (b.filter (·.name ≠ name))
    rw [if_neg hempty, h1]
    refine ⟨tree', rfl, ⟨_, h2, keyed_insert hkeyed fun a ha => ?_, fun e he => ?_, ?_⟩, hnames⟩
    · exact hash_of_mem_bucket hkeyed (by rw [hbucket]; exact mem_of_mem_filter ha)
    · rcases mem_insertList _ _ he with rfl | he
      · exact fun hnil => hempty (isEmpty_iff.mpr hnil)
      · exact hne e he
    · exact (flat_insert mh _ _).trans hstay

/-! ### The inner operations -/

/-- **A lookup** is that of the map. -/
theorem lookup_spec (h : Holds H x m) (name : Name) :
    x.lookup name = some ((m.get? name).map fun t => micro (name, t)) := by
  unfold DirIndex.lookup
  cases h with
  | @micro list storage count entries short =>
    rw [storage]
    refine congrArg some (find?_bindings micro (·.name) (fun _ => rfl) (fun a ha => mem_bindings entries ha) fun t ht => ?_)
    exact entries.mem_iff.mpr (mem_map_of_mem ht)
  | @btree root tree nameTree storage count hash names trees short =>
    obtain ⟨bucket, h1, h2⟩ := trees.lookup name
    rw [storage]
    rw [hash, bind_eq_bind, bind_some, h1, bind_eq_bind, bind_some, h2]

theorem length_insert (hnew : m.get? name = none) : (m.insert name target).entries.length = m.entries.length + 1 :=
  (perm_insertList m.sorted hnew).length_eq

theorem wrap64_succ (n : ℕ) : wrap64 (wrap64 n + 1) = wrap64 (n + 1) := Nat.mod_add_mod n (2 ^ 64) 1

theorem wrapSub_succ (n : ℕ) : wrapSub (wrap64 (n + 1)) 1 = wrap64 n := by
  unfold wrapSub wrap64
  omega

theorem short_insert (h : ∀ e ∈ m.entries, e.1.length < 2 ^ 16) (hname : name.length < 2 ^ 16) :
    ∀ e ∈ (m.insert name target).entries, e.1.length < 2 ^ 16 := by
  intro e he
  rcases mem_insertList _ _ he with rfl | he
  · exact hname
  · exact h e he

/-- **An insertion** of a new name. -/
theorem insertInner_spec (h : Holds H x m) (hnew : m.get? name = none) (hname : name.length < 2 ^ 16) :
    ∃ y, x.insertInner H name target = some y ∧ Holds H y (m.insert name target) := by
  have hlen := @length_insert m name target hnew
  unfold insertInner
  cases h with
  | @micro list storage count entries short =>
    rw [storage]
    refine ⟨_, rfl, .micro rfl ?_ ?_ (short_insert short hname)⟩
    · rw [count, wrap64_succ, hlen]
    · have hmod : name.length % 2 ^ 32 = name.length := Nat.mod_eq_of_lt (by omega)
      rw [hmod]
      refine (perm_append_singleton _ _).trans ((entries.cons _).trans ?_)
      exact ((perm_insertList m.sorted hnew).map micro).symm
  | @btree root tree nameTree storage count hash names trees short =>
    obtain ⟨tree', nameTree', h1, h2⟩ := @addLeaf_spec H m name target tree nameTree trees hnew
    have hmod : name.length % 2 ^ 16 = name.length := Nat.mod_eq_of_lt hname
    rw [storage]
    dsimp only
    rw [hash, names, hmod, bind_eq_bind, bind_some, bind_eq_bind, bind_some]
    rw [show addLeaf H tree nameTree ⟨nameHash name, name.length, target.1, target.2.1, target.2.2, name⟩ = _ from h1]
    refine ⟨_, rfl, .btree rfl ?_ rfl rfl h2 (short_insert short hname)⟩
    rw [count, wrap64_succ, hlen]

/-- The name is there, or no name of its hash is. -/
def NoCollision (m : OrdMap Name Target) (name : Name) : Prop :=
  m.get? name = none → ∀ e ∈ m.entries, nameHash e.1 ≠ nameHash name

theorem erase_absent (h : m.get? name = none) : m.erase name = m := by
  have hentries : (m.erase name).entries = m.entries := eraseList_of_lookup_none h
  cases m
  simpa [erase] using hentries

theorem perm_erase (h : m.get? name = some target) : m.entries.Perm ((name, target) :: (m.erase name).entries) := by
  have hback : (m.erase name).insert name target = m := by
    refine ext_get? fun n => ?_
    rw [get?_insert, get?_erase]
    split_ifs with hn
    · rw [hn, h]
    · rfl
  have hnone : (m.erase name).get? name = none := by rw [get?_erase, if_pos rfl]
  exact congrArg entries hback ▸ perm_insertList (m.erase name).sorted hnone

/-- The first entry of a name is the only one. -/
theorem eraseP_bindings {l : List DirMicroEntry} (h : l.Perm (m.entries.map micro)) (hget : m.get? name = some target) :
    (l.eraseP (·.name = name)).Perm ((m.erase name).entries.map micro) := by
  have hentries := h.trans ((perm_erase hget).map micro)
  obtain ⟨a, A, C, -, ha, hl, herase⟩ := @exists_of_eraseP _ (·.name = name) _ _
    (hentries.mem_iff.mpr mem_cons_self) (decide_eq_true rfl)
  obtain ⟨e, he, rfl⟩ := mem_bindings h (hl ▸ mem_append_right A mem_cons_self)
  obtain rfl : e.1 = name := of_decide_eq_true ha
  obtain rfl : e.2 = target := some.inj ((eq_of_get? he).symm.trans hget)
  rw [herase]
  exact (perm_middle.symm.trans (hl ▸ hentries)).cons_inv

/-- A bucket for the hash of a name is there for the name, or for one that collides. -/
theorem TreesHold.bucket_some (h : TreesHold H tree nameTree m) (hcollision : NoCollision m name)
    (hb : tree.get (nameHash name) = some (some b)) : ∃ t, m.get? name = some t := by
  obtain ⟨mh, href, hkeyed, hne, hperm⟩ := h.buckets
  rw [href.get dirParams_valid] at hb
  have hmem := get?_eq_some.mp (some.inj hb)
  obtain ⟨l, hl⟩ := exists_mem_of_ne_nil b (hne _ hmem)
  obtain ⟨e, he, rfl⟩ := mem_bindings hperm (mem_flat.mpr ⟨_, b, get?_eq_some.mpr hmem, hl⟩)
  cases hget : m.get? name with
  | some t => exact ⟨t, rfl⟩
  | none => exact absurd (hkeyed _ hmem _ hl) (hcollision hget e he)

/-- **A removal**, unless it is of an absent name whose hash is that of another. -/
theorem deleteInner_spec (h : Holds H x m) (hcollision : NoCollision m name) :
    ∃ y, x.deleteInner H name = some y ∧ Holds H y (m.erase name) := by
  have hshort : ∀ e ∈ (m.erase name).entries, e.1.length < 2 ^ 16 := fun e he => h.short e (mem_of_mem_filter he)
  have hholds := h
  unfold deleteInner
  cases h with
  | @micro list storage count entries short =>
    rw [storage]
    dsimp only
    split_ifs with hany
    · obtain ⟨d, hd, hname⟩ := any_eq_true.mp hany
      obtain ⟨e, he, rfl⟩ := mem_bindings entries hd
      have hget : m.get? name = some e.2 := (of_decide_eq_true hname : e.1 = name) ▸ eq_of_get? he
      refine ⟨_, rfl, .micro rfl ?_ (eraseP_bindings entries hget) hshort⟩
      rw [count, (perm_erase hget).length_eq, length_cons, wrapSub_succ]
    · have hget : m.get? name = none := by
        cases hget : m.get? name with
        | none => rfl
        | some t =>
          refine absurd (any_eq_true.mpr ⟨micro (name, t), ?_, decide_eq_true rfl⟩) hany
          exact entries.mem_iff.mpr (mem_map_of_mem (get?_eq_some.mp hget))
      rw [erase_absent hget]
      exact ⟨x, rfl, hholds⟩
  | @btree root tree nameTree storage count hash names trees short =>
    obtain ⟨bucket, hget, hlookup⟩ := trees.lookup name
    rw [storage]
    dsimp only
    rw [hash, bind_eq_bind, bind_some, hget, bind_eq_bind, bind_some]
    cases bucket with
    | none =>
      have habsent : m.get? name = none := map_eq_none_iff.mp hlookup.symm
      rw [erase_absent habsent]
      exact ⟨x, rfl, hholds⟩
    | some b =>
      obtain ⟨t, ht⟩ := trees.bucket_some hcollision hget
      obtain ⟨tree', h1, h2⟩ := removeLeaf_spec trees hget
      dsimp only
      rw [h1, names, bind_some]
      refine ⟨_, rfl, .btree rfl ?_ rfl rfl h2 hshort⟩
      show wrapSub root.entryCount 1 = _
      rw [count, (perm_erase ht).length_eq, length_cons, wrapSub_succ]

/-! ### Switching -/

/-- The binding an entry of the list stands for. -/
def bindingOf (d : DirMicroEntry) : Name × Target := (d.name, d.inodeId, d.generation, d.kind)

theorem treesHold_new : TreesHold H (BPlusTree.new (dirParams H)) empty empty :=
  ⟨⟨empty, refines_new, keyed_empty, fun _ he => absurd he not_mem_nil, List.Perm.refl _⟩, rfl⟩

/-- Bindings put into the trees one after the other. -/
theorem foldlM_addLeaf : ∀ {es : List (Name × Target)} {m : OrdMap Name Target} {tree : DirHashTree}
    {nameTree : DirNameTree}, TreesHold H tree nameTree m → ((m.entries ++ es).map Prod.fst).Nodup →
    (∀ e ∈ es, e.1.length < 2 ^ 16) → ∃ tree' nameTree' m',
      (es.map micro).foldlM (fun trees e => addLeaf H trees.1 trees.2 (btreeLeafFromDirEntry e)) (tree, nameTree) =
        some (tree', nameTree') ∧ TreesHold H tree' nameTree' m' ∧ m'.entries.Perm (m.entries ++ es)
  | [], m, tree, nameTree, h, _, _ => ⟨tree, nameTree, m, rfl, h, by rw [append_nil]⟩
  | e :: es, m, tree, nameTree, h, hnodup, hshort => by
    obtain ⟨he, hes⟩ := forall_mem_cons.mp hshort
    have hnew : m.get? e.1 = none := by
      cases hget : m.get? e.1 with
      | none => rfl
      | some t =>
        rw [map_append, nodup_append] at hnodup
        exact absurd rfl (hnodup.2.2 e.1 (mem_map.mpr ⟨_, get?_eq_some.mp hget, rfl⟩) e.1
          (mem_cons_self ..))
    obtain ⟨tree1, nameTree1, h1, h2⟩ := @addLeaf_spec H m e.1 e.2 tree nameTree h hnew
    have hperm : ((m.insert e.1 e.2).entries ++ es).Perm (m.entries ++ e :: es) :=
      ((perm_insertList m.sorted hnew).append_right es).trans perm_middle.symm
    obtain ⟨tree2, nameTree2, m2, h3, h4, h5⟩ := foldlM_addLeaf h2 ((hperm.map Prod.fst).nodup_iff.mpr hnodup) hes
    refine ⟨tree2, nameTree2, m2, ?_, h4, h5.trans hperm⟩
    rw [map_cons, foldlM_cons]
    rw [btreeLeafFromDirEntry_micro he, show addLeaf H tree nameTree (leaf e) = _ from h1]
    exact h3

theorem promote_spec {list : DirMicroListV1} (h : list.entries.Perm (m.entries.map micro))
    (hshort : ∀ e ∈ m.entries, e.1.length < 2 ^ 16) : ∃ y, x.promoteToBtree H list = some y ∧ Holds H y m := by
  have hes : (list.entries.map bindingOf).Perm m.entries := by
    have hmap := h.map bindingOf
    rwa [List.map_map, show bindingOf ∘ micro = id from rfl, List.map_id] at hmap
  have hback : (list.entries.map bindingOf).map micro = list.entries := by
    rw [List.map_map]
    refine (map_congr_left fun d hd => ?_).trans (List.map_id _)
    obtain ⟨e, -, rfl⟩ := mem_bindings h hd
    rfl
  obtain ⟨tree, nameTree, m', h1, h2, h3⟩ := @foldlM_addLeaf H (list.entries.map bindingOf) empty _ _ treesHold_new
    ((hes.map Prod.fst).nodup_iff.mpr m.keys_nodup) fun e he => hshort e (hes.mem_iff.mp he)
  obtain rfl : m' = m := eq_of_perm (h3.trans hes)
  rw [hback] at h1
  unfold promoteToBtree
  rw [h1]
  refine ⟨_, rfl, .btree rfl ?_ rfl rfl h2 hshort⟩
  rw [h.length_eq, length_map]

theorem demote_spec (hash : x.btree = some tree) (trees : TreesHold H tree nameTree m)
    (hshort : ∀ e ∈ m.entries, e.1.length < 2 ^ 16) : Holds H x.demoteToMicro m := by
  unfold demoteToMicro
  obtain ⟨mh, href, hkeyed, hne, hperm⟩ := trees.buckets
  rw [hash]
  have hentries : ((tree.entries.flatMap Prod.snd).map dirEntryFromBtreeLeaf).Perm (m.entries.map micro) := by
    rw [href.entries]
    have hmap := hperm.map dirEntryFromBtreeLeaf
    rw [List.map_map] at hmap
    exact hmap
  refine .micro rfl ?_ hentries hshort
  rw [hentries.length_eq, length_map]

/-- **The choice of the form** does not change the map. -/
theorem checkAndSwitch_spec (h : Holds H x m) : ∃ y, x.checkAndSwitch H = some y ∧ Holds H y m := by
  have hholds := h
  unfold checkAndSwitch
  cases h with
  | @micro list storage count entries short =>
    rw [storage]
    dsimp only
    split_ifs
    · exact promote_spec entries short
    · exact ⟨x, rfl, hholds⟩
  | @btree root tree nameTree storage count hash names trees short =>
    rw [storage]
    dsimp only
    split_ifs
    · exact ⟨_, rfl, demote_spec hash trees short⟩
    · exact ⟨x, rfl, hholds⟩

/-! ### Listings -/

/-- **A listing** is the map in the order of its names. -/
theorem list_spec (h : Holds H x m) : x.list = some (m.entries.map micro) := by
  unfold list
  cases h with
  | @micro list storage count entries short =>
    rw [storage]
    refine congrArg some ?_
    have hperm : (list.entries.mergeSort fun a b => a.name ≤ b.name).Perm (m.entries.map micro) :=
      (mergeSort_perm _ _).trans entries
    have hsorted := @pairwise_mergeSort DirMicroEntry (fun a b => a.name ≤ b.name)
      (fun a b c hab hbc => decide_eq_true ((of_decide_eq_true hab).trans (of_decide_eq_true hbc)))
      (fun a b => by simpa using le_total a.name b.name) list.entries
    have hmap : (m.entries.map micro).Pairwise fun a b => decide (a.name ≤ b.name) = true :=
      pairwise_map.mpr (m.sorted.imp fun hlt => decide_eq_true hlt.le)
    refine hperm.eq_of_pairwise (fun p q hp hq hpq hqp => ?_) hsorted hmap
    obtain ⟨e, he, rfl⟩ := mem_bindings hperm hp
    obtain ⟨e', he', rfl⟩ := mem_map.mp hq
    have hname : e.1 = e'.1 := le_antisymm (of_decide_eq_true hpq) (of_decide_eq_true hqp)
    rw [inj_on_of_nodup_map m.keys_nodup he he' hname]
  | @btree root tree nameTree storage count hash names trees short =>
    rw [storage]
    rw [names, Option.map_some, trees.names, List.map_map]
    rfl

end DirIndex
end Tidefs
