/-
# Operations on directories

Insertions, removals, renames, and moves and exchanges between two directories, as
sequences of the inner operations with a choice of the form at the end.

Every directory behaves as a finite map from names to targets (`directories_are_maps`),
whatever the thresholds and the hashes of the names, as long as `replace` is not called
for an absent name whose hash is that of a name that is there. Then the removal it begins
with counts an entry less and the insertion one more, and the directory has one entry
more than it says (`replace_loses_count`).
-/
import Tidefs.DirIndex.Polymorphic

namespace Tidefs
namespace DirIndex

open Btree Ordered Word List Option DirIndex OrdMap

/-- What an operation answers: an error, or the entry it tells of if there is one. -/
abbrev Reply := Except DirIndexError (Option DirMicroEntry)

/-- What a rename does where the new name exists. -/
inductive SwapMode where
  | rename
  | noReplace
  | exchange
deriving DecidableEq

/-- The computation returns, and what it returns is as `Q` says. -/
abbrev Returns {α : Type} (o : Option α) (Q : α → Prop) : Prop := ∃ a, o = some a ∧ Q a

theorem Returns.bind {α β : Type} {o : Option α} {f : α → Option β} {Q : α → Prop} {R : β → Prop}
    (h : Returns o Q) (hf : ∀ a, Q a → Returns (f a) R) : Returns (o >>= f) R := by
  obtain ⟨a, rfl, ha⟩ := h
  exact hf a ha

open Returns

def DirMicroEntry.target (e : DirMicroEntry) : Target := (e.inodeId, e.generation, e.kind)

variable (H : List UInt8 → Digest)

namespace DirIndex

variable (x : DirIndex)

def contains (name : Name) : Option Bool := (x.lookup name).map Option.isSome

/-- The end of every operation that changed the directory. -/
def settle : Option DirIndex :=
  ({ x with directoryVersion := wrap64 (x.directoryVersion + 1), dirty := true }).checkAndSwitch H

def insert (name : Name) (target : Target) : Option (DirIndex × Reply) := do
  match ← x.contains name with
  | true => some (x, .error .entryAlreadyExists)
  | false =>
    let x ← x.insertInner H name target
    let x ← x.settle H
    some (x, .ok none)

def rename (oldName newName : Name) : Option (DirIndex × Reply) := do
  match ← x.lookup oldName with
  | none => some (x, .error .entryNotFound)
  | some entry =>
    if oldName = newName then some (x, .ok none)
    else
      match ← x.contains newName with
      | true => some (x, .error .entryAlreadyExists)
      | false =>
        let x ← x.deleteInner H oldName
        let x ← x.insertInner H newName entry.target
        let x ← x.settle H
        some (x, .ok none)

/-- The entry goes if it is there. -/
def deleteExisting (name : Name) (found : Option DirMicroEntry) : Option DirIndex :=
  if found.isSome then x.deleteInner H name else some x

def renameOverwrite (oldName newName : Name) : Option (DirIndex × Reply) := do
  match ← x.lookup oldName with
  | none => some (x, .error .entryNotFound)
  | some entry =>
    if oldName = newName then some (x, .ok none)
    else do
      let overwritten ← x.lookup newName
      let x ← x.deleteExisting H newName overwritten
      let x ← x.deleteInner H oldName
      let x ← x.insertInner H newName entry.target
      let x ← x.settle H
      some (x, .ok overwritten)

variable (src : DirIndex)

def moveEntryTo (srcName : Name) (dst : DirIndex) (dstName : Name) : Option (DirIndex × DirIndex × Reply) := do
  match ← src.lookup srcName with
  | none => some (src, dst, .error .entryNotFound)
  | some entry =>
    let overwritten ← dst.lookup dstName
    let dst ← dst.deleteExisting H dstName overwritten
    let src ← src.deleteInner H srcName
    let dst ← dst.insertInner H dstName entry.target
    let src ← src.settle H
    let dst ← dst.settle H
    some (src, dst, .ok overwritten)

/-- `RENAME_EXCHANGE`: names stay, targets cross. -/
def exchange (srcName : Name) (dst : DirIndex) (dstName : Name) : Option (DirIndex × DirIndex × Reply) := do
  match ← src.lookup srcName with
  | none => some (src, dst, .error .entryNotFound)
  | some srcEntry =>
    match ← dst.lookup dstName with
    | none => some (src, dst, .error .entryNotFound)
    | some dstEntry =>
      let src ← src.deleteInner H srcName
      let dst ← dst.deleteInner H dstName
      let src ← src.insertInner H srcName dstEntry.target
      let dst ← dst.insertInner H dstName srcEntry.target
      let src ← src.settle H
      let dst ← dst.settle H
      some (src, dst, .ok none)

/-- `RENAME_NOREPLACE`: the destination is looked at first. -/
def moveNoReplace (srcName : Name) (dst : DirIndex) (dstName : Name) : Option (DirIndex × DirIndex × Reply) := do
  match ← dst.contains dstName with
  | true => some (src, dst, .error .entryAlreadyExists)
  | false =>
    match ← src.lookup srcName with
    | none => some (src, dst, .error .entryNotFound)
    | some entry =>
      let src ← src.deleteInner H srcName
      let dst ← dst.insertInner H dstName entry.target
      let src ← src.settle H
      let dst ← dst.settle H
      some (src, dst, .ok none)

def atomicSwap (srcName : Name) (dst : DirIndex) (dstName : Name) : SwapMode → Option (DirIndex × DirIndex × Reply)
  | .exchange => src.exchange H srcName dst dstName
  | .noReplace => src.moveNoReplace H srcName dst dstName
  | .rename => src.moveEntryTo H srcName dst dstName

def replace (name : Name) (target : Target) : Option (DirIndex × Reply) := do
  let x ← x.deleteInner H name
  let x ← x.insertInner H name target
  let x ← x.settle H
  some (x, .ok none)

def remove (name : Name) : Option (DirIndex × Option DirMicroEntry) := do
  match ← x.lookup name with
  | none => some (x, none)
  | some entry =>
    let x ← x.deleteInner H name
    let x ← x.settle H
    some (x, some entry)

def delete (name : Name) : Option (DirIndex × Reply) :=
  (x.remove H name).map fun r => (r.1, if r.2.isSome then .ok none else .error .entryNotFound)

end DirIndex

/-! ### Maps -/

abbrev NameMap := OrdMap Name Target

def NameMap.entry (m : NameMap) (name : Name) : Option DirMicroEntry := (m.get? name).map fun t => micro (name, t)

/-- The calls that change the directories of a file system. -/
inductive Op where
  | insert (dir : ℕ) (name : Name) (target : Target)
  | delete (dir : ℕ) (name : Name)
  | remove (dir : ℕ) (name : Name)
  | replace (dir : ℕ) (name : Name) (target : Target)
  | rename (dir : ℕ) (oldName newName : Name)
  | renameOverwrite (dir : ℕ) (oldName newName : Name)
  | moveEntryTo (src : ℕ) (srcName : Name) (dst : ℕ) (dstName : Name)
  | atomicSwap (src : ℕ) (srcName : Name) (dst : ℕ) (dstName : Name) (mode : SwapMode)

/-- One directory changed. -/
def on (w : ℕ → DirIndex) (dir : ℕ) (r : Option (DirIndex × Reply)) : Option ((ℕ → DirIndex) × Reply) :=
  r.map fun r => (Function.update w dir r.1, r.2)

/-- Two directories changed. -/
def onBoth (w : ℕ → DirIndex) (src dst : ℕ) (r : Option (DirIndex × DirIndex × Reply)) :
    Option ((ℕ → DirIndex) × Reply) :=
  r.map fun r => (Function.update (Function.update w src r.1) dst r.2.1, r.2.2)

def step (w : ℕ → DirIndex) : Op → Option ((ℕ → DirIndex) × Reply)
  | .insert dir name target => on w dir ((w dir).insert H name target)
  | .delete dir name => on w dir ((w dir).delete H name)
  | .remove dir name => on w dir (((w dir).remove H name).map fun r => (r.1, .ok r.2))
  | .replace dir name target => on w dir ((w dir).replace H name target)
  | .rename dir oldName newName => on w dir ((w dir).rename H oldName newName)
  | .renameOverwrite dir oldName newName => on w dir ((w dir).renameOverwrite H oldName newName)
  | .moveEntryTo src srcName dst dstName => onBoth w src dst ((w src).moveEntryTo H srcName (w dst) dstName)
  | .atomicSwap src srcName dst dstName mode => onBoth w src dst ((w src).atomicSwap H srcName (w dst) dstName mode)

/-- A move between maps. -/
def specMove (src : NameMap) (srcName : Name) (dst : NameMap) (dstName : Name) : NameMap × NameMap × Reply :=
  match src.get? srcName with
  | none => (src, dst, .error .entryNotFound)
  | some t => (src.erase srcName, dst.insert dstName t, .ok (dst.entry dstName))

def specSwap (src : NameMap) (srcName : Name) (dst : NameMap) (dstName : Name) : SwapMode → NameMap × NameMap × Reply
  | .exchange =>
    match src.get? srcName, dst.get? dstName with
    | some t, some t' => (src.insert srcName t', dst.insert dstName t, .ok none)
    | _, _ => (src, dst, .error .entryNotFound)
  | .noReplace =>
    if dst.contains dstName then (src, dst, .error .entryAlreadyExists)
    else
      match src.get? srcName with
      | none => (src, dst, .error .entryNotFound)
      | some t => (src.erase srcName, dst.insert dstName t, .ok none)
  | .rename => specMove src srcName dst dstName

def specInsert (m : NameMap) (name : Name) (target : Target) : NameMap × Reply :=
  if m.contains name then (m, .error .entryAlreadyExists) else (m.insert name target, .ok none)

def specRename (m : NameMap) (oldName newName : Name) : NameMap × Reply :=
  match m.get? oldName with
  | none => (m, .error .entryNotFound)
  | some t =>
    if oldName = newName then (m, .ok none)
    else if m.contains newName then (m, .error .entryAlreadyExists)
    else ((m.erase oldName).insert newName t, .ok none)

def specRenameOverwrite (m : NameMap) (oldName newName : Name) : NameMap × Reply :=
  match m.get? oldName with
  | none => (m, .error .entryNotFound)
  | some t =>
    if oldName = newName then (m, .ok none)
    else ((m.erase oldName).insert newName t, .ok (m.entry newName))

/-- What the operations do to the maps, and what they answer. -/
def specStep (ms : ℕ → NameMap) : Op → (ℕ → NameMap) × Reply
  | .insert dir name target =>
    (Function.update ms dir (specInsert (ms dir) name target).1, (specInsert (ms dir) name target).2)
  | .delete dir name =>
    (Function.update ms dir ((ms dir).erase name), if (ms dir).contains name then .ok none else .error .entryNotFound)
  | .remove dir name => (Function.update ms dir ((ms dir).erase name), .ok ((ms dir).entry name))
  | .replace dir name target => (Function.update ms dir ((ms dir).insert name target), .ok none)
  | .rename dir oldName newName =>
    (Function.update ms dir (specRename (ms dir) oldName newName).1, (specRename (ms dir) oldName newName).2)
  | .renameOverwrite dir oldName newName =>
    (Function.update ms dir (specRenameOverwrite (ms dir) oldName newName).1,
      (specRenameOverwrite (ms dir) oldName newName).2)
  | .moveEntryTo src srcName dst dstName =>
    let r := specMove (ms src) srcName (ms dst) dstName
    (Function.update (Function.update ms src r.1) dst r.2.1, r.2.2)
  | .atomicSwap src srcName dst dstName mode =>
    let r := specSwap (ms src) srcName (ms dst) dstName mode
    (Function.update (Function.update ms src r.1) dst r.2.1, r.2.2)

/-- Names are short, and two directories are two. -/
def Op.Valid : Op → Prop
  | insert _ name _ | replace _ name _ => name.length < 2 ^ 16
  | delete _ _ | remove _ _ => True
  | rename _ _ newName | renameOverwrite _ _ newName => newName.length < 2 ^ 16
  | moveEntryTo src _ dst dstName | atomicSwap src _ dst dstName _ => src ≠ dst ∧ dstName.length < 2 ^ 16

/-- An absent name is not replaced while another has its hash. -/
def Safe (ms : ℕ → NameMap) : Op → Prop
  | .replace dir name _ => NoCollision (ms dir) name
  | _ => True

def SafeRun : (ℕ → NameMap) → List Op → Prop
  | _, [] => True
  | ms, op :: ops => Safe ms op ∧ SafeRun (specStep ms op).1 ops

/-- The directories after the operations, with the answers. -/
def run : (ℕ → DirIndex) → List Op → Option ((ℕ → DirIndex) × List Reply)
  | w, [] => some (w, [])
  | w, op :: ops => do
    let (w, reply) ← step H w op
    let (w, replies) ← run w ops
    some (w, reply :: replies)

def specRun : (ℕ → NameMap) → List Op → (ℕ → NameMap) × List Reply
  | ms, [] => (ms, [])
  | ms, op :: ops =>
    ((specRun (specStep ms op).1 ops).1, (specStep ms op).2 :: (specRun (specStep ms op).1 ops).2)

/-- What can be seen of a directory is what the map has. -/
structure Behaves (x : DirIndex) (m : NameMap) : Prop where
  lookup : ∀ name, x.lookup name = some (m.entry name)
  list : x.list = some (m.entries.map micro)
  len : m.entries.length < 2 ^ 64 → x.len = m.entries.length
  trees : ∀ root, x.storage = .btree root → ∃ tree nameTree, x.btree = some tree ∧ x.nameBtree = some nameTree ∧
    (tree.entries.flatMap Prod.snd).Perm (nameTree.entries.map Prod.snd)

/-! ### Operations on one directory -/

variable {H} {x y : DirIndex} {m m' : NameMap} {name oldName newName srcName dstName : Name} {target : Target}

theorem settle_spec (h : Holds H x m) : ∃ y, x.settle H = some y ∧ Holds H y m := by
  refine checkAndSwitch_spec ?_
  cases h with
  | micro storage count entries short => exact .micro storage count entries short
  | btree storage count hash names trees short => exact .btree storage count hash names trees short

theorem contains_spec (h : Holds H x m) (name : Name) : x.contains name = some (m.contains name) := by
  rw [DirIndex.contains, lookup_spec h, map_some, isSome_map]
  rfl

theorem contains_eq_false : m.contains name = false ↔ m.get? name = none := by
  rw [OrdMap.contains, isSome_eq_false_iff, isNone_iff_eq_none]

theorem noCollision_of_some {t : Target} (h : m.get? name = some t) : NoCollision m name := fun hnone =>
  nomatch hnone.symm.trans h

theorem get?_erase_self (m : NameMap) (name : Name) : (m.erase name).get? name = none := by
  rw [get?_erase, if_pos rfl]

/-- A directory and an answer are as the map and the answer of the specification. -/
abbrev Does (H : List UInt8 → Digest) (spec : NameMap × Reply) (r : DirIndex × Reply) : Prop :=
  r.2 = spec.2 ∧ Holds H r.1 spec.1

abbrev DoesBoth (H : List UInt8 → Digest) (spec : NameMap × NameMap × Reply) (r : DirIndex × DirIndex × Reply) : Prop :=
  r.2.2 = spec.2.2 ∧ Holds H r.1 spec.1 ∧ Holds H r.2.1 spec.2.1

variable (h : Holds H x m)
include h

theorem insert_refines (hname : name.length < 2 ^ 16) :
    Returns (x.insert H name target) (Does H (specInsert m name target)) := by
  unfold DirIndex.insert specInsert
  rw [contains_spec h, bind_eq_bind, bind_some]
  cases hc : m.contains name with
  | true => exact ⟨_, rfl, rfl, h⟩
  | false =>
    exact bind (insertInner_spec h (contains_eq_false.mp hc) hname) fun y hy =>
      bind (settle_spec hy) fun z hz => ⟨_, rfl, rfl, hz⟩

theorem remove_refines (name : Name) :
    Returns (x.remove H name) fun r => r.2 = m.entry name ∧ Holds H r.1 (m.erase name) := by
  unfold remove NameMap.entry
  rw [lookup_spec h, bind_eq_bind, bind_some]
  cases hget : m.get? name with
  | none => exact ⟨_, rfl, rfl, (erase_absent hget).symm ▸ h⟩
  | some t =>
    exact bind (deleteInner_spec h (noCollision_of_some hget)) fun y hy =>
      bind (settle_spec hy) fun z hz => ⟨_, rfl, rfl, hz⟩

theorem replace_refines (hc : NoCollision m name) (hname : name.length < 2 ^ 16) :
    Returns (x.replace H name target) (Does H (m.insert name target, .ok none)) := by
  refine bind (deleteInner_spec h hc) fun y hy => ?_
  refine bind (insertInner_spec hy (get?_erase_self m name) hname) fun z hz => ?_
  rw [insert_erase_self] at hz
  exact bind (settle_spec hz) fun w hw => ⟨_, rfl, rfl, hw⟩

omit h

/-- The name an entry moves to is free after the old one went. -/
theorem get?_erase_of_none (hnew : m.get? newName = none) (oldName : Name) : (m.erase oldName).get? newName = none := by
  rw [get?_erase, hnew, ite_self]

theorem rename_refines (h : Holds H x m) (oldName : Name) (hname : newName.length < 2 ^ 16) :
    Returns (x.rename H oldName newName) (Does H (specRename m oldName newName)) := by
  unfold rename specRename
  rw [lookup_spec h, bind_eq_bind, bind_some]
  cases hget : m.get? oldName with
  | none => exact ⟨_, rfl, rfl, h⟩
  | some t =>
    dsimp only [map_some]
    by_cases hsame : oldName = newName
    · rw [if_pos hsame, if_pos hsame]
      exact ⟨_, rfl, rfl, h⟩
    · rw [if_neg hsame, if_neg hsame, contains_spec h, bind_eq_bind, bind_some]
      cases hc : m.contains newName with
      | true => exact ⟨_, rfl, rfl, h⟩
      | false =>
        refine bind (deleteInner_spec h (noCollision_of_some hget)) fun y hy => ?_
        have hnone := get?_erase_of_none (contains_eq_false.mp hc) oldName
        refine bind (insertInner_spec hy hnone hname) fun z hz => ?_
        exact bind (settle_spec hz) fun w hw => ⟨_, rfl, rfl, hw⟩

theorem deleteExisting_spec (h : Holds H x m) (name : Name) :
    Returns (x.deleteExisting H name (m.entry name)) (Holds H · (m.erase name)) := by
  unfold deleteExisting NameMap.entry
  cases hget : m.get? name with
  | none => exact ⟨x, rfl, (erase_absent hget).symm ▸ h⟩
  | some t => exact deleteInner_spec h (noCollision_of_some hget)

theorem renameOverwrite_refines (h : Holds H x m) (oldName : Name) (hname : newName.length < 2 ^ 16) :
    Returns (x.renameOverwrite H oldName newName) (Does H (specRenameOverwrite m oldName newName)) := by
  unfold renameOverwrite specRenameOverwrite
  rw [lookup_spec h, bind_eq_bind, bind_some]
  cases hget : m.get? oldName with
  | none => exact ⟨_, rfl, rfl, h⟩
  | some t =>
    dsimp only [map_some]
    split_ifs with hsame
    · exact ⟨_, rfl, rfl, h⟩
    · rw [lookup_spec h, bind_some]
      have hold : (m.erase newName).get? oldName = some t := by rw [get?_erase, if_neg hsame, hget]
      have hfree := get?_erase_of_none (get?_erase_self m newName) oldName
      refine bind (deleteExisting_spec h newName) fun y hy => ?_
      refine bind (deleteInner_spec hy (noCollision_of_some hold)) fun z hz => ?_
      refine bind (insertInner_spec hz hfree hname) fun w hw => ?_
      rw [OrdMap.erase_comm, OrdMap.insert_erase_self] at hw
      exact bind (settle_spec hw) fun v hv => ⟨_, rfl, rfl, hv⟩

/-! ### Operations on two directories -/

variable (hx : Holds H x m) (hy : Holds H y m')
include hx hy

theorem moveEntryTo_refines (srcName : Name) (hname : dstName.length < 2 ^ 16) :
    Returns (x.moveEntryTo H srcName y dstName) (DoesBoth H (specMove m srcName m' dstName)) := by
  unfold moveEntryTo specMove
  rw [lookup_spec hx, bind_eq_bind, bind_some]
  cases hget : m.get? srcName with
  | none => exact ⟨_, rfl, rfl, hx, hy⟩
  | some t =>
    dsimp only [map_some]
    rw [lookup_spec hy, bind_some]
    refine bind (deleteExisting_spec hy dstName) fun y₀ hy₀ => ?_
    refine bind (deleteInner_spec hx (noCollision_of_some hget)) fun x₁ hx₁ => ?_
    refine bind (insertInner_spec hy₀ (get?_erase_self m' dstName) hname) fun y₁ hy₁ => ?_
    rw [insert_erase_self] at hy₁
    exact bind (settle_spec hx₁) fun x₂ hx₂ => bind (settle_spec hy₁) fun y₂ hy₂ =>
      ⟨_, rfl, rfl, hx₂, hy₂⟩

theorem moveNoReplace_refines (srcName : Name) (hname : dstName.length < 2 ^ 16) :
    Returns (x.moveNoReplace H srcName y dstName) (DoesBoth H (specSwap m srcName m' dstName .noReplace)) := by
  unfold moveNoReplace specSwap
  rw [contains_spec hy, bind_eq_bind, bind_some]
  cases hc : m'.contains dstName with
  | true => exact ⟨_, rfl, rfl, hx, hy⟩
  | false =>
    rw [lookup_spec hx, bind_eq_bind, bind_some, if_neg Bool.false_ne_true]
    cases hget : m.get? srcName with
    | none => exact ⟨_, rfl, rfl, hx, hy⟩
    | some t =>
      refine bind (deleteInner_spec hx (noCollision_of_some hget)) fun x₁ hx₁ => ?_
      refine bind (insertInner_spec hy (contains_eq_false.mp hc) hname) fun y₁ hy₁ => ?_
      exact bind (settle_spec hx₁) fun x₂ hx₂ => bind (settle_spec hy₁) fun y₂ hy₂ =>
        ⟨_, rfl, rfl, hx₂, hy₂⟩

theorem exchange_refines (srcName : Name) (dstName : Name) :
    Returns (x.exchange H srcName y dstName) (DoesBoth H (specSwap m srcName m' dstName .exchange)) := by
  unfold exchange specSwap
  rw [lookup_spec hx, bind_eq_bind, bind_some]
  cases hget : m.get? srcName with
  | none => exact ⟨_, rfl, rfl, hx, hy⟩
  | some t =>
    dsimp only [map_some]
    rw [lookup_spec hy, bind_some]
    cases hget' : m'.get? dstName with
    | none => exact ⟨_, rfl, rfl, hx, hy⟩
    | some t' =>
      -- both names are there, so neither is too long to be put back
      have hshort := hx.short _ (get?_eq_some.mp hget)
      have hshort' := hy.short _ (get?_eq_some.mp hget')
      refine bind (deleteInner_spec hx (noCollision_of_some hget)) fun x₁ hx₁ => ?_
      refine bind (deleteInner_spec hy (noCollision_of_some hget')) fun y₁ hy₁ => ?_
      refine bind (insertInner_spec hx₁ (get?_erase_self m srcName) hshort) fun x₂ hx₂ => ?_
      refine bind (insertInner_spec hy₁ (get?_erase_self m' dstName) hshort') fun y₂ hy₂ => ?_
      rw [insert_erase_self] at hx₂ hy₂
      exact bind (settle_spec hx₂) fun x₃ hx₃ => bind (settle_spec hy₂) fun y₃ hy₃ =>
        ⟨_, rfl, rfl, hx₃, hy₃⟩

theorem atomicSwap_refines (srcName : Name) (hname : dstName.length < 2 ^ 16) (mode : SwapMode) :
    Returns (x.atomicSwap H srcName y dstName mode) (DoesBoth H (specSwap m srcName m' dstName mode)) := by
  cases mode with
  | rename => exact moveEntryTo_refines hx hy srcName hname
  | noReplace => exact moveNoReplace_refines hx hy srcName hname
  | exchange => exact exchange_refines hx hy srcName dstName

omit hx hy

/-! ### Runs -/

variable {w : ℕ → DirIndex} {ms : ℕ → NameMap} (hw : ∀ d, Holds H (w d) (ms d))
include hw

theorem holds_update {dir : ℕ} (h : Holds H x m) :
    ∀ d, Holds H (Function.update w dir x d) (Function.update ms dir m d) := fun d => by
  by_cases hd : d = dir
  · subst hd
    rw [Function.update_self, Function.update_self]
    exact h
  · rw [Function.update_of_ne hd, Function.update_of_ne hd]
    exact hw d

theorem on_spec {dir : ℕ} {r : Option (DirIndex × Reply)} {spec : NameMap × Reply} (h : Returns r (Does H spec)) :
    ∃ w', on w dir r = some (w', spec.2) ∧ ∀ d, Holds H (w' d) (Function.update ms dir spec.1 d) := by
  obtain ⟨⟨y, _⟩, rfl, rfl, hy⟩ := h
  exact ⟨_, rfl, holds_update hw hy⟩

theorem onBoth_spec {src dst : ℕ} {r : Option (DirIndex × DirIndex × Reply)} {spec : NameMap × NameMap × Reply}
    (h : Returns r (DoesBoth H spec)) : ∃ w', onBoth w src dst r = some (w', spec.2.2) ∧
      ∀ d, Holds H (w' d) (Function.update (Function.update ms src spec.1) dst spec.2.1 d) := by
  obtain ⟨⟨x, y, _⟩, rfl, rfl, hx, hy⟩ := h
  exact ⟨_, rfl, holds_update (holds_update hw hx) hy⟩

/-- **One operation** does to the directories what it does to the maps. -/
theorem step_spec {op : Op} (hvalid : op.Valid) (hsafe : Safe ms op) :
    ∃ w', step H w op = some (w', (specStep ms op).2) ∧ ∀ d, Holds H (w' d) ((specStep ms op).1 d) := by
  cases op with
  | insert dir name target => exact on_spec hw (insert_refines (hw dir) hvalid)
  | delete dir name =>
    obtain ⟨⟨y, _⟩, h1, rfl, h2⟩ := remove_refines (hw dir) name
    refine @on_spec H w ms hw dir _ (_, _) ⟨_, congrArg (Option.map _) h1, ?_, h2⟩
    dsimp only
    rw [NameMap.entry, isSome_map]
    rfl
  | remove dir name =>
    obtain ⟨⟨y, _⟩, h1, rfl, h2⟩ := remove_refines (hw dir) name
    exact @on_spec H w ms hw dir _ (_, _) ⟨_, congrArg (Option.map _) h1, rfl, h2⟩
  | replace dir name target => exact on_spec hw (replace_refines (hw dir) hsafe hvalid)
  | rename dir oldName newName => exact on_spec hw (rename_refines (hw dir) oldName hvalid)
  | renameOverwrite dir oldName newName => exact on_spec hw (renameOverwrite_refines (hw dir) oldName hvalid)
  | moveEntryTo src srcName dst dstName =>
    exact onBoth_spec hw (moveEntryTo_refines (hw src) (hw dst) srcName hvalid.2)
  | atomicSwap src srcName dst dstName mode =>
    exact onBoth_spec hw (atomicSwap_refines (hw src) (hw dst) srcName hvalid.2 mode)

omit hw

theorem run_spec : ∀ (ops : List Op) {w : ℕ → DirIndex} {ms : ℕ → NameMap}, (∀ d, Holds H (w d) (ms d)) →
    (∀ op ∈ ops, op.Valid) → SafeRun ms ops →
    ∃ w', run H w ops = some (w', (specRun ms ops).2) ∧ ∀ d, Holds H (w' d) ((specRun ms ops).1 d)
  | [], w, _, hw, _, _ => ⟨w, rfl, hw⟩
  | op :: ops, w, ms, hw, hvalid, hsafe => by
    obtain ⟨w₁, h1, h2⟩ := step_spec hw (hvalid op mem_cons_self) hsafe.1
    obtain ⟨w₂, h3, h4⟩ := run_spec ops h2 (fun o ho => hvalid o (mem_cons_of_mem _ ho)) hsafe.2
    refine ⟨w₂, ?_, h4⟩
    rw [run, h1, bind_eq_bind, bind_some]
    dsimp only
    rw [h3]
    rfl

theorem Holds.behaves (h : Holds H x m) : Behaves x m := by
  refine ⟨lookup_spec h, list_spec h, fun hlen => h.len.trans (Nat.mod_eq_of_lt hlen), fun root hroot => ?_⟩
  cases h with
  | micro storage _ _ _ => exact nomatch storage.symm.trans hroot
  | btree _ _ hash names trees _ =>
    obtain ⟨mh, href, -, -, hperm⟩ := trees.buckets
    refine ⟨_, _, hash, names, ?_⟩
    rw [href.entries, trees.names, List.map_map]
    exact hperm

theorem holds_new (policy : DatasetDirPolicy) : Holds H (new policy) empty :=
  .micro rfl rfl (List.Perm.refl _) fun _ he => absurd he not_mem_nil

/-- **Directories are maps.** Whatever the thresholds and the hashes, operations on new
directories answer as on maps, and in the end lookups, listings and sizes are the maps' and
the two trees have the same leaves, if no absent name is replaced whose hash is taken. -/
theorem directories_are_maps (H : List UInt8 → Digest) (policy : ℕ → DatasetDirPolicy) (ops : List Op)
    (hvalid : ∀ op ∈ ops, op.Valid) (hsafe : SafeRun (fun _ => OrdMap.empty) ops) :
    ∃ w, run H (fun d => DirIndex.new (policy d)) ops = some (w, (specRun (fun _ => OrdMap.empty) ops).2) ∧
      ∀ d, Behaves (w d) ((specRun (fun _ => OrdMap.empty) ops).1 d) := by
  obtain ⟨w, h1, h2⟩ := @run_spec H ops _ (fun _ => OrdMap.empty) (fun d => holds_new (policy d)) hvalid hsafe
  exact ⟨w, h1, fun d => (h2 d).behaves⟩

/-- An empty directory only is a list. -/
def alwaysTrees : DatasetDirPolicy := ⟨0, 0, 0, 0⟩

/-- `8yn0iYCKYHlIj4-BwPqk` -/
def nameA : Name := [56, 121, 110, 48, 105, 89, 67, 75, 89, 72, 108, 73, 106, 52, 45, 66, 119, 80, 113, 107]

/-- `GReLUrM4wMqfg9yzV3KQ` -/
def nameB : Name := [71, 82, 101, 76, 85, 114, 77, 52, 119, 77, 113, 102, 103, 57, 121, 122, 86, 51, 75, 81]

/-- Two names of one hash in the trees, and one of them moved to another directory over
a third name. -/
theorem directories_are_maps_collision : ∃ w, run (fun _ => default) (fun _ => DirIndex.new alwaysTrees)
        [.insert 0 nameA (1, 1, 1), .insert 0 nameB (2, 1, 1), .replace 1 nameA (3, 1, 1),
          .moveEntryTo 0 nameB 1 nameA] =
      some (w, [.ok none, .ok none, .ok none, .ok (some (micro (nameA, (3, 1, 1))))]) ∧
      Behaves (w 0) (OrdMap.empty.insert nameA (1, 1, 1)) := by
  obtain ⟨w, h1, h2⟩ := directories_are_maps (fun _ => default) (fun _ => alwaysTrees)
    [.insert 0 nameA (1, 1, 1), .insert 0 nameB (2, 1, 1), .replace 1 nameA (3, 1, 1), .moveEntryTo 0 nameB 1 nameA]
    (by simp [Op.Valid, nameA, nameB])
    ⟨trivial, trivial, fun _ e he => absurd he not_mem_nil, trivial, trivial⟩
  refine ⟨w, h1.trans ?_, ?_⟩
  · rfl
  · exact h2 0

/-- With one name in the trees, another of the same hash is replaced: the directory lists
two entries and says that it has one. -/
theorem replace_loses_count : ∃ w replies, run (fun _ => default) (fun _ => DirIndex.new alwaysTrees)
        [.insert 0 nameA (1, 1, 1), .replace 0 nameB (2, 1, 1)] = some (w, replies) ∧
      (w 0).list = some [micro (nameA, (1, 1, 1)), micro (nameB, (2, 1, 1))] ∧ (w 0).len = 1 := by
  refine ⟨_, _, rfl, ?_, ?_⟩
  · rfl
  · rfl

end DirIndex
end Tidefs
