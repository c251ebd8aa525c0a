/-
# Persistent extended attributes

The value of an attribute is an object of its own, under a key made of the owner, the
namespace and the name as text. Which attributes an owner has is written into a directory
object, under the names' bytes.

Names are bytes, but the text in the key is what remains of them after lenient decoding:
two names that are no text can share a value object (`names_share_value`). As long as no
two names used for one owner and namespace have the same text, the two kinds of objects
move together and the store is a map from owner, namespace and name (`run_agrees`).
-/
import Tidefs.Lib.Ordered
import Tidefs.Lib.Utf8

namespace Tidefs.PersistentXattr

open Ordered Codec Function OrdSet PersistentXattr Nat
open OrdMap hiding empty
open List hiding Vector after count drop get set

/-- Version evidence for the inode incarnation that owns an attribute. -/
structure XattrOwner where
  inode : ℕ
  generation : ℕ
deriving DecidableEq

/-- The errors of extended attributes. -/
inductive PersistentXattrError where
  | invalidOwner
  | invalidName
  | nameTooLong
  | valueTooLarge
  | invalidNamespace
  | attrNotFound
  | attrExists
  | invalidFlags
  | inodeXattrLimit
  | internal (msg : String)
deriving DecidableEq

def xattrCreate : UInt32 := 1

def xattrReplace : UInt32 := 2

def maxXattrCount : ℕ := 256

def maxXattrValueLen : ℕ := 64 * 1024

def maxXattrNameLen : ℕ := 255

def maxNamespaceLen : ℕ := 64

/-! ### Keys -/

def colon : UInt8 := 0x3A

/-- `__xattr:` -/
def xattrKeyStart : Bytes := [0x5F, 0x5F, 0x78, 0x61, 0x74, 0x74, 0x72, 0x3A]

/-- `__xattr_dir:` -/
def xattrDirStart : Bytes := [0x5F, 0x5F, 0x78, 0x61, 0x74, 0x74, 0x72, 0x5F, 0x64, 0x69, 0x72, 0x3A]

/-- A number as decimal text. -/
def decimal (n : ℕ) : Bytes :=
  if n = 0 then [0x30] else (Nat.digits 10 n).reverse.map fun d => UInt8.ofNat (0x30 + d)

def ownerText (owner : XattrOwner) (behind : Bytes) : Bytes :=
  decimal owner.inode ++ colon :: (decimal owner.generation ++ behind)

/-- The key of a value: the name's bytes go through lenient decoding. -/
def xattrValueKey (owner : XattrOwner) (ns name : Bytes) : Bytes :=
  xattrKeyStart ++ ownerText owner (colon :: (ns ++ colon :: Utf8.lossy name))

def xattrDirKey (owner : XattrOwner) : Bytes := xattrDirStart ++ ownerText owner []

/-- An attribute's name in the directory: the name's bytes are kept. -/
def xattrFullNameBytes (ns name : Bytes) : Bytes := ns ++ colon :: name

def splitFullName (full : Bytes) : Option (Bytes × Bytes) := do
  let colonPos ← full.findIdx? (· = colon)
  let ns := full.take colonPos
  if Utf8.valid ns then some (ns, full.drop (colonPos + 1)) else none

/-! ### Validation -/

/-- `user`, `system`, `security`, `trusted` -/
def namespaces : List Bytes :=
  [[0x75, 0x73, 0x65, 0x72], [0x73, 0x79, 0x73, 0x74, 0x65, 0x6D], [0x73, 0x65, 0x63, 0x75, 0x72, 0x69, 0x74, 0x79],
    [0x74, 0x72, 0x75, 0x73, 0x74, 0x65, 0x64]]

def validateOwner (owner : XattrOwner) : Except PersistentXattrError Unit :=
  if owner.inode = 0 ∨ owner.generation = 0 then .error .invalidOwner else .ok ()

def validateNamespace (ns : Bytes) : Except PersistentXattrError Unit :=
  if ns = [] ∨ colon ∈ ns then .error .invalidNamespace
  else if maxNamespaceLen < ns.length then .error .invalidNamespace
  else if ns ∈ namespaces then .ok () else .error .invalidNamespace

def validateName (name : Bytes) : Except PersistentXattrError Unit :=
  if name = [] ∨ 0 ∈ name then .error .invalidName
  else if maxXattrNameLen < name.length then .error .nameTooLong
  else .ok ()

/-- The three checks that every call on an attribute begins with. -/
def validate (owner : XattrOwner) (ns name : Bytes) : Except PersistentXattrError Unit := do
  validateOwner owner
  validateNamespace ns
  validateName name

/-- The checks of `set` that look only at its arguments. -/
def validateSet (value : Bytes) (flags : UInt32) : Except PersistentXattrError Unit :=
  if maxXattrValueLen < value.length then .error .valueTooLarge
  else if flags &&& ~~~ (xattrCreate ||| xattrReplace) ≠ 0 ∨ flags = xattrCreate ||| xattrReplace then
    .error .invalidFlags
  else .ok ()

/-- The checks of `set` against what the owner has: whether the attribute is there, and how many there are. -/
def checkPresence (flags : UInt32) (present : Bool) (count : ℕ) : Except PersistentXattrError Unit :=
  if flags = xattrCreate then
    if present then .error .attrExists else if maxXattrCount ≤ count then .error .inodeXattrLimit else .ok ()
  else if flags = xattrReplace then if !present then .error .attrNotFound else .ok ()
  else if !present && maxXattrCount ≤ count then .error .inodeXattrLimit
  else .ok ()

/-! ### The directory object -/

section Directory

variable (digest : Bytes → Vector UInt8 32)

/-- "XDIR" -/
def xattrDirMagic : Bytes := [0x58, 0x44, 0x49, 0x52]

def xattrDirFormatVersion : UInt8 := 2

def xattrDirMinBlobLen : ℕ := 4 + 1 + 4 + 32

def encodeDirName (name : Bytes) : Bytes := toLe 2 name.length ++ name

def encodeDirPayload (dir : OrdSet Bytes) : Bytes := toLe 4 dir.toList.length ++ dir.toList.flatMap encodeDirName

def encodeDirContent (dir : OrdSet Bytes) : Bytes := xattrDirMagic ++ xattrDirFormatVersion :: encodeDirPayload dir

def encodeDir (dir : OrdSet Bytes) : Bytes := encodeDirContent dir ++ (digest (encodeDirContent dir)).toList

def readDirName : Reader Unit Bytes := do
  let nameLen ← readLe () 2
  readExact () nameLen

def readDirPayload : Reader Unit (OrdSet Bytes) := do
  let count ← readLe () 4
  let names ← repeatRead readDirName count
  pure (OrdSet.empty.extend names)

/-- What stands behind the last name is not looked at. -/
def decodeDirPayload (data : Bytes) : Option (OrdSet Bytes) :=
  match readDirPayload data with
  | .ok (dir, _) => some dir
  | .error () => none

def decodeDirV2 (data : Bytes) : Option (OrdSet Bytes) :=
  if data[4]? ≠ some xattrDirFormatVersion then none
  else
    let contentEnd := data.length - 32
    if (digest (data.take contentEnd)).toList ≠ data.drop contentEnd then none
    else decodeDirPayload ((data.take contentEnd).drop 5)

def decodeDir (data : Bytes) : Option (OrdSet Bytes) :=
  if data.length < xattrDirMinBlobLen ∨ data.take 4 ≠ xattrDirMagic then none else decodeDirV2 digest data

/-! ### The store -/

/-- The object store: named keys and the bytes under them. -/
abbrev Store := OrdMap Bytes Bytes

def readDir (store : Store) (owner : XattrOwner) : Except PersistentXattrError (OrdSet Bytes) :=
  match store.get? (xattrDirKey owner) with
  | none => .ok OrdSet.empty
  | some blob =>
    match decodeDir digest blob with
    | some dir => .ok dir
    | none => .error (.internal "corrupt xattr directory blob")

/-- An empty directory has no object. -/
def writeDir (store : Store) (owner : XattrOwner) (dir : OrdSet Bytes) : Store :=
  if dir.isEmpty then store.erase (xattrDirKey owner) else store.insert (xattrDirKey owner) (encodeDir digest dir)

/-- The value object alone answers. -/
def get (store : Store) (owner : XattrOwner) (ns name : Bytes) : Except PersistentXattrError (Option Bytes) := do
  validate owner ns name
  pure (store.get? (xattrValueKey owner ns name))

def set (store : Store) (owner : XattrOwner) (ns name value : Bytes) (flags : UInt32) :
    Except PersistentXattrError Store := do
  validate owner ns name
  validateSet value flags
  let dir ← readDir digest store owner
  let fullName := xattrFullNameBytes ns name
  checkPresence flags (decide (fullName ∈ dir)) dir.toList.length
  let store := store.insert (xattrValueKey owner ns name) value
  pure (writeDir digest store owner (dir.insert fullName))

def list (store : Store) (owner : XattrOwner) : Except PersistentXattrError (List (Bytes × Bytes)) := do
  validateOwner owner
  let dir ← readDir digest store owner
  pure (dir.toList.filterMap splitFullName)

/-- The store afterwards, and whether the attribute was there. -/
def remove (store : Store) (owner : XattrOwner) (ns name : Bytes) : Except PersistentXattrError (Bool × Store) := do
  validate owner ns name
  let dir ← readDir digest store owner
  let fullName := xattrFullNameBytes ns name
  if fullName ∈ dir then
    let store := store.erase (xattrValueKey owner ns name)
    pure (true, writeDir digest store owner (dir.erase fullName))
  else pure (false, store)

end Directory

/-! ### Calls -/

/-- An attribute of an owner. -/
structure Attr where
  owner : XattrOwner
  ns : Bytes
  name : Bytes
deriving DecidableEq

/-- The calls on extended attributes. -/
inductive Call where
  | get (a : Attr)
  | set (a : Attr) (value : Bytes) (flags : UInt32)
  | list (owner : XattrOwner)
  | remove (a : Attr)
deriving DecidableEq

/-- What a call returns. -/
inductive Outcome where
  | value (r : Except PersistentXattrError (Option Bytes))
  | done (r : Except PersistentXattrError Unit)
  | names (r : Except PersistentXattrError (List (Bytes × Bytes)))
  | removed (r : Except PersistentXattrError Bool)
deriving DecidableEq

/-- What a call that can fail leaves behind: on an error, what was there. -/
def outcome {σ α : Type} (before : σ) : Except PersistentXattrError (α × σ) → Except PersistentXattrError α × σ
  | .ok (a, after) => (.ok a, after)
  | .error e => (.error e, before)

def step (digest : Bytes → Vector UInt8 32) (store : Store) : Call → Outcome × Store
  | .get a => (.value (get store a.owner a.ns a.name), store)
  | .set a value flags =>
    let r := outcome store ((set digest store a.owner a.ns a.name value flags).map (() , ·))
    (.done r.1, r.2)
  | .list owner => (.names (list digest store owner), store)
  | .remove a =>
    let r := outcome store (remove digest store a.owner a.ns a.name)
    (.removed r.1, r.2)

def run (digest : Bytes → Vector UInt8 32) (store : Store) : List Call → List Outcome × Store
  | [] => ([], store)
  | call :: calls =>
    let (o, store) := step digest store call
    let (os, store) := run digest store calls
    (o :: os, store)

/-! ### The map it is for -/

/-- For each owner, the values of its attributes by namespace and name. -/
abbrev XattrMap := XattrOwner → OrdMap (Bytes ×ₗ Bytes) Bytes

namespace XattrMap

def empty : XattrMap := fun _ => OrdMap.empty

variable (m : XattrMap)

def at? (a : Attr) : Option Bytes := (m a.owner).get? (toLex (a.ns, a.name))

def put (a : Attr) (value : Bytes) : XattrMap :=
  Function.update m a.owner ((m a.owner).insert (toLex (a.ns, a.name)) value)

def drop (a : Attr) : XattrMap :=
  Function.update m a.owner ((m a.owner).erase (toLex (a.ns, a.name)))

def get (a : Attr) : Except PersistentXattrError (Option Bytes) := do
  validate a.owner a.ns a.name
  pure (m.at? a)

def set (a : Attr) (value : Bytes) (flags : UInt32) : Except PersistentXattrError XattrMap := do
  validate a.owner a.ns a.name
  validateSet value flags
  checkPresence flags (m.at? a).isSome (m a.owner).entries.length
  pure (m.put a value)

def list (owner : XattrOwner) : Except PersistentXattrError (List (Bytes × Bytes)) := do
  validateOwner owner
  pure ((m owner).entries.map fun e => ofLex e.1)

def remove (a : Attr) : Except PersistentXattrError (Bool × XattrMap) := do
  validate a.owner a.ns a.name
  if (m.at? a).isSome then pure (true, m.drop a) else pure (false, m)

def step : Call → Outcome × XattrMap
  | .get a => (.value (m.get a), m)
  | .set a value flags =>
    let r := outcome m ((m.set a value flags).map (() , ·))
    (.done r.1, r.2)
  | .list owner => (.names (m.list owner), m)
  | .remove a =>
    let r := outcome m (m.remove a)
    (.removed r.1, r.2)

def run (m : XattrMap) : List Call → List Outcome × XattrMap
  | [] => ([], m)
  | call :: calls =>
    let (o, m) := m.step call
    let (os, m) := run m calls
    (o :: os, m)

end XattrMap

/-- The same answer; a listing up to its order. -/
def Outcome.Agrees : Outcome → Outcome → Prop
  | .names (.ok l), .names (.ok l') => l.Perm l'
  | o, o' => o = o'

/-! ### Names that are told apart -/

def Call.attrs : Call → List Attr
  | .get a => [a]
  | .set a _ _ => [a]
  | .list _ => []
  | .remove a => [a]

/-- No two names used for one owner and namespace have the same text. -/
def Apart (used : List Attr) : Prop := ∀ a ∈ used, ∀ b ∈ used,
  a.owner = b.owner → a.ns = b.ns → Utf8.lossy a.name = Utf8.lossy b.name → a = b

instance (used : List Attr) : Decidable (Apart used) :=
  inferInstanceAs (Decidable (∀ a ∈ used, ∀ b ∈ used,
    a.owner = b.owner → a.ns = b.ns → Utf8.lossy a.name = Utf8.lossy b.name → a = b))

/-! ### Keys of different attributes differ -/

theorem field_injective {a a' b b' : Bytes} (ha : colon ∉ a) (ha' : colon ∉ a')
    (h : a ++ colon :: b = a' ++ colon :: b') : a = a' ∧ b = b' := by
  have hfield : ∀ {l r : Bytes}, colon ∉ l → (l ++ colon :: r).takeWhile (· != colon) = l := fun {l r} hl => by
    rw [takeWhile_append_of_pos fun x hx => by simpa using ne_of_mem_of_not_mem hx hl]
    simp
  obtain rfl : a = a' := by rw [← hfield ha, h, hfield ha']
  exact ⟨rfl, (cons_inj_right colon).mp (append_cancel_left h)⟩

theorem toNat_digit {d : ℕ} (h : d < 10) : (UInt8.ofNat (0x30 + d)).toNat = 0x30 + d := by
  rw [UInt8.toNat_ofNat']
  exact mod_eq_of_lt (by omega)

theorem ofDigits_decimal (n : ℕ) : ofDigits 10 ((decimal n).reverse.map fun b => b.toNat - 0x30) = n := by
  unfold decimal
  by_cases hn : n = 0
  · subst hn
    rfl
  · rw [if_neg hn, ← map_reverse, reverse_reverse, map_map]
    have hdigits : (digits 10 n).map ((fun b : UInt8 => b.toNat - 0x30) ∘ fun d => UInt8.ofNat (0x30 + d)) =
        digits 10 n := by
      refine (map_congr_left fun d hd => ?_).trans (map_id _)
      show (UInt8.ofNat (0x30 + d)).toNat - 0x30 = d
      rw [toNat_digit (digits_lt_base (by decide) hd)]
      omega
    rw [hdigits, ofDigits_digits]

theorem decimal_injective : Function.Injective decimal := by
  intro n m h
  rw [← ofDigits_decimal n, h, ofDigits_decimal m]

theorem colon_not_mem_decimal (n : ℕ) : colon ∉ decimal n := by
  unfold decimal
  split_ifs with hn
  · decide
  · intro h
    obtain ⟨d, hd, heq⟩ := mem_map.mp h
    have hlt : d < 10 := digits_lt_base (by decide) (mem_reverse.mp hd)
    have hnat : 0x30 + d = 0x3A := (toNat_digit hlt).symm.trans (congrArg UInt8.toNat heq)
    omega

variable {o o' : XattrOwner}

theorem ownerText_injective {b b' : Bytes}
    (h : ownerText o (colon :: b) = ownerText o' (colon :: b')) : o = o' ∧ b = b' := by
  obtain ⟨hinode, hrest⟩ := field_injective (colon_not_mem_decimal _) (colon_not_mem_decimal _) h
  obtain ⟨hgeneration, hbehind⟩ := field_injective (colon_not_mem_decimal _) (colon_not_mem_decimal _) hrest
  exact ⟨congrArg₂ XattrOwner.mk (decimal_injective hinode) (decimal_injective hgeneration), hbehind⟩

theorem xattrDirKey_injective : Function.Injective xattrDirKey := by
  intro o o' h
  have howner : ownerText o [] = ownerText o' [] := append_cancel_left h
  have hcolon : ownerText o [colon] = ownerText o' [colon] := by
    have hext : ∀ o : XattrOwner, ownerText o [colon] = ownerText o [] ++ [colon] := by
      intro o
      simp [ownerText]
    rw [hext, hext, howner]
  exact (ownerText_injective hcolon).1

variable {name name' ns ns' : Bytes}

/-- **The owner, the namespace and the name's text make the key.** -/
theorem xattrValueKey_injective (hns : colon ∉ ns) (hns' : colon ∉ ns')
    (h : xattrValueKey o ns name = xattrValueKey o' ns' name') :
    o = o' ∧ ns = ns' ∧ Utf8.lossy name = Utf8.lossy name' := by
  obtain ⟨rfl, hrest⟩ := ownerText_injective (append_cancel_left h)
  obtain ⟨rfl, htext⟩ := field_injective hns hns' hrest
  exact ⟨rfl, rfl, htext⟩

theorem xattrValueKey_ne_xattrDirKey (o o' : XattrOwner) (ns name : Bytes) : xattrValueKey o ns name ≠ xattrDirKey o' := by
  intro h
  -- the eighth byte tells the two kinds of keys apart
  have hbyte := congrArg (·[7]?) h
  simp [xattrValueKey, xattrDirKey, xattrKeyStart, xattrDirStart] at hbyte

/-! ### Accepted arguments -/

def Attr.Valid (a : Attr) : Prop := validate a.owner a.ns a.name = .ok ()

instance (a : Attr) : Decidable a.Valid := inferInstanceAs (Decidable (validate a.owner a.ns a.name = .ok ()))

theorem mem_namespaces (h : ns ∈ namespaces) : colon ∉ ns ∧ ns.length ≤ 8 ∧ Utf8.valid ns = true := by
  revert ns
  decide

namespace Attr

variable {a : Attr} (h : a.Valid)
include h

theorem Valid.ns_mem : a.ns ∈ namespaces := by
  obtain ⟨_, -, hrest⟩ := bind_eq_ok h
  obtain ⟨_, hns, -⟩ := bind_eq_ok hrest
  unfold validateNamespace at hns
  split_ifs at hns with h1 h2 h3
  exact h3

theorem Valid.length_name : a.name.length ≤ maxXattrNameLen := by
  obtain ⟨_, -, hrest⟩ := bind_eq_ok h
  obtain ⟨_, -, hname⟩ := bind_eq_ok hrest
  unfold validateName at hname
  split_ifs at hname with h1 h2
  exact Nat.le_of_not_lt h2

theorem Valid.length_fullName : (xattrFullNameBytes a.ns a.name).length < 256 ^ 2 := by
  have hns : a.ns.length ≤ 8 := (mem_namespaces h.ns_mem).2.1
  have hname : a.name.length ≤ 255 := h.length_name
  calc (xattrFullNameBytes a.ns a.name).length = a.ns.length + (a.name.length + 1) := by
        rw [xattrFullNameBytes, length_append, length_cons]
    _ ≤ 8 + (255 + 1) := by omega
    _ < 256 ^ 2 := by decide

theorem Valid.colon_not_mem : colon ∉ a.ns := (mem_namespaces h.ns_mem).1

end Attr

variable {flags : UInt32}

theorem checkPresence_ok {present : Bool} {count : ℕ} (h : checkPresence flags present count = .ok ()) :
    present = true ∨ count < maxXattrCount := by
  unfold checkPresence at h
  cases present with
  | true => exact .inl rfl
  | false =>
    right
    split_ifs at h with h1 h2 h3 h4 h5 <;> simp_all

theorem xattrFullNameBytes_injective (hns : colon ∉ ns) (hns' : colon ∉ ns')
    (h : xattrFullNameBytes ns name = xattrFullNameBytes ns' name') : ns = ns' ∧ name = name' :=
  field_injective hns hns' h

theorem splitFullName_fullName (h : ns ∈ namespaces) (name : Bytes) :
    splitFullName (xattrFullNameBytes ns name) = some (ns, name) := by
  obtain ⟨hcolon, -, hutf8⟩ := mem_namespaces h
  have hpos : (xattrFullNameBytes ns name).findIdx? (· = colon) = some ns.length := by
    have hnone : ns.findIdx? (· = colon) = none := by
      rw [findIdx?_eq_none_iff]
      intro b hb
      exact decide_eq_false fun heq => hcolon (heq ▸ hb)
    rw [xattrFullNameBytes, findIdx?_append, hnone]
    simp [findIdx?_cons]
  have htake : (xattrFullNameBytes ns name).take ns.length = ns := take_left
  have hdrop : (xattrFullNameBytes ns name).drop (ns.length + 1) = name := by
    rw [xattrFullNameBytes, ← drop_drop, drop_left, drop_one, tail_cons]
  rw [splitFullName, hpos, Option.bind_eq_bind, Option.bind_some, htake, hdrop, if_pos hutf8]

/-! ### The directory object is read back -/

section Directory

variable (digest : Bytes → Vector UInt8 32)

theorem reads_dirName {name : Bytes} (h : name.length < 256 ^ 2) : Reads readDirName (encodeDirName name) name :=
  Reads.bind (reads_le () h) (reads_exact () rfl)

variable {dir : OrdSet Bytes}

theorem reads_dirPayload (hcount : dir.toList.length < 256 ^ 4)
    (hname : ∀ name ∈ dir, name.length < 256 ^ 2) : Reads readDirPayload (encodeDirPayload dir) dir := by
  have hnames := Reads.many fun name hmem => reads_dirName (hname name hmem)
  have hset := hnames.map empty.extend
  rw [extend_toList] at hset
  exact Reads.bind (reads_le () hcount) hset

/-- **The directory object holds the directory.** -/
theorem decodeDir_encodeDir (hcount : dir.toList.length < 256 ^ 4)
    (hname : ∀ name ∈ dir, name.length < 256 ^ 2) : decodeDir digest (encodeDir digest dir) = some dir := by
  let content := encodeDirContent dir
  have hdigest : (digest content).toList.length = 32 := by simp
  have hpayload : 4 ≤ (encodeDirPayload dir).length := by
    rw [encodeDirPayload, length_append, length_toLe]
    exact le_add_right _ _
  have hcontent : content.length = 5 + (encodeDirPayload dir).length := by
    simp only [content, encodeDirContent, xattrDirMagic, length_append, length_cons, length_nil]
    omega
  have hlen : (encodeDir digest dir).length = content.length + 32 := by
    rw [encodeDir, length_append, hdigest]
  have hend : (encodeDir digest dir).length - 32 = content.length := by omega
  have htake : (encodeDir digest dir).take content.length = content := take_left
  have hdrop : (encodeDir digest dir).drop content.length = (digest content).toList :=
    drop_left
  rw [decodeDir, if_neg, decodeDirV2, if_neg]
  · dsimp only
    rw [hend, htake, hdrop, if_neg (by simp)]
    show decodeDirPayload (encodeDirPayload dir) = some dir
    rw [decodeDirPayload, (reads_dirPayload hcount hname).self]
  · simp [encodeDir, encodeDirContent, xattrDirMagic]
  · rintro (hshort | hmagic)
    · rw [hlen, hcontent, xattrDirMinBlobLen] at hshort
      omega
    · exact hmagic rfl

/-- A directory of attributes that fits: it is read back from what is written. -/
theorem readDir_writeDir (store : Store) (owner : XattrOwner) (hcount : dir.toList.length < 256 ^ 4)
    (hname : ∀ name ∈ dir, name.length < 256 ^ 2) : readDir digest (writeDir digest store owner dir) owner = .ok dir := by
  unfold readDir writeDir
  split_ifs with hempty
  · rw [get?_erase, if_pos rfl]
    have hdir : empty = dir := ext_mem fun a =>
      iff_of_false (not_mem_empty a) (isEmpty_iff.mp hempty a)
    rw [hdir]
  · rw [get?_insert, if_pos rfl]
    dsimp only
    rw [decodeDir_encodeDir digest hcount hname]

/-- Only the owner's directory object is written. -/
theorem get?_writeDir (store : Store) (owner : XattrOwner) (dir : OrdSet Bytes) {key : Bytes}
    (h : key ≠ xattrDirKey owner) : (writeDir digest store owner dir).get? key = store.get? key := by
  unfold writeDir
  split_ifs
  · rw [get?_erase, if_neg h]
  · rw [get?_insert, if_neg h]

theorem readDir_congr {store store' : Store} {owner : XattrOwner}
    (h : store.get? (xattrDirKey owner) = store'.get? (xattrDirKey owner)) :
    readDir digest store owner = readDir digest store' owner := by
  unfold readDir
  rw [h]

end Directory

/-! ### The store refines the map -/

namespace XattrMap

variable (m : XattrMap) (a b : Attr)

theorem key_inj {a b : Attr} (howner : b.owner = a.owner) : toLex (b.ns, b.name) = toLex (a.ns, a.name) ↔ b = a := by
  cases a
  cases b
  subst howner
  simp

theorem at?_put (value : Bytes) : (m.put a value).at? b = if b = a then some value else m.at? b := by
  unfold at? put
  by_cases howner : b.owner = a.owner
  · rw [howner, update_self, get?_insert]
    simp only [key_inj howner]
  · rw [update_of_ne howner, if_neg fun h => howner (congrArg Attr.owner h)]

theorem at?_drop : (m.drop a).at? b = if b = a then none else m.at? b := by
  unfold at? drop
  by_cases howner : b.owner = a.owner
  · rw [howner, update_self, get?_erase]
    simp only [key_inj howner]
  · rw [update_of_ne howner, if_neg fun h => howner (congrArg Attr.owner h)]

/-- The names of an owner's attributes as a directory has them. -/
def fullNames (owner : XattrOwner) : List Bytes :=
  (m owner).entries.map fun e => xattrFullNameBytes (ofLex e.1).1 (ofLex e.1).2

theorem mem_fullNames {m : XattrMap} {owner : XattrOwner} {full : Bytes} : full ∈ m.fullNames owner ↔
    ∃ ns name value, m.at? ⟨owner, ns, name⟩ = some value ∧ full = xattrFullNameBytes ns name := by
  unfold fullNames
  rw [mem_map]
  constructor
  · rintro ⟨⟨key, value⟩, hmem, rfl⟩
    exact ⟨(ofLex key).1, (ofLex key).2, value, get?_eq_some.mpr hmem, rfl⟩
  · rintro ⟨ns, name, value, hat, rfl⟩
    exact ⟨(toLex (ns, name), value), get?_eq_some.mp hat, rfl⟩

end XattrMap

section Refinement

variable (digest : Bytes → Vector UInt8 32) (used : List Attr)

/-- The store holds the map: each value under its key, and in each directory the names of the owner. -/
structure Refines (store : Store) (m : XattrMap) : Prop where
  known : ∀ a value, m.at? a = some value → a ∈ used ∧ a.Valid
  count : ∀ owner, (m owner).entries.length ≤ maxXattrCount
  value : ∀ a ∈ used, a.Valid → store.get? (xattrValueKey a.owner a.ns a.name) = m.at? a
  dir : ∀ owner, ∃ dir, readDir digest store owner = .ok dir ∧ ∀ full, full ∈ dir ↔ full ∈ m.fullNames owner

variable {digest used} {store : Store} {m : XattrMap}

theorem refines_empty : Refines digest used OrdMap.empty XattrMap.empty where
  known a value h := by cases h
  count owner := zero_le _
  value a _ _ := rfl
  dir owner := ⟨empty, rfl, fun full => iff_of_false (not_mem_empty full) (not_mem_nil)⟩

namespace Refines

variable (h : Refines digest used store m)
include h

theorem fullNames_nodup (owner : XattrOwner) : (m.fullNames owner).Nodup := by
  refine List.Nodup.map_on ?_ (List.Nodup.of_map _ (m owner).keys_nodup)
  rintro ⟨key, value⟩ hmem ⟨key', value'⟩ hmem' heq
  have hvalid := (h.known ⟨owner, (ofLex key).1, (ofLex key).2⟩ value (get?_eq_some.mpr hmem)).2
  have hvalid' := (h.known ⟨owner, (ofLex key').1, (ofLex key').2⟩ value' (get?_eq_some.mpr hmem')).2
  obtain ⟨hns, hname⟩ := xattrFullNameBytes_injective hvalid.colon_not_mem hvalid'.colon_not_mem heq
  have hkey : key = key' := ofLex_inj.mp (Prod.ext hns hname)
  exact inj_on_of_nodup_map (m owner).keys_nodup hmem hmem' hkey

variable {owner : XattrOwner} {dir : OrdSet Bytes} (hdir : ∀ full, full ∈ dir ↔ full ∈ m.fullNames owner)
include hdir

theorem perm : dir.toList.Perm (m.fullNames owner) :=
  (perm_ext_iff_of_nodup (dir.sorted.imp fun h => h.ne) (h.fullNames_nodup owner)).mpr hdir

theorem length_dir : dir.toList.length = (m owner).entries.length := by
  rw [(h.perm hdir).length_eq, XattrMap.fullNames, length_map]

omit hdir

/-- The directory has the name when the map has the attribute. -/
theorem mem_dir {a : Attr} (ha : a.Valid) (hdir : ∀ full, full ∈ dir ↔ full ∈ m.fullNames a.owner) :
    xattrFullNameBytes a.ns a.name ∈ dir ↔ (m.at? a).isSome = true := by
  rw [hdir, XattrMap.mem_fullNames, Option.isSome_iff_exists]
  constructor
  · rintro ⟨ns, name, value, hat, hfull⟩
    have hvalid := (h.known _ _ hat).2
    obtain ⟨rfl, rfl⟩ := xattrFullNameBytes_injective ha.colon_not_mem hvalid.colon_not_mem hfull
    exact ⟨value, hat⟩
  · rintro ⟨value, hat⟩
    exact ⟨a.ns, a.name, value, hat, rfl⟩

omit h

/-- A directory whose names are those of a map of few valid attributes is read back. -/
theorem readDir_written (store : Store) {m : XattrMap} (hknown : ∀ a value, m.at? a = some value → a ∈ used ∧ a.Valid)
    (hdir : ∀ full, full ∈ dir ↔ full ∈ m.fullNames owner) (hcount : (m owner).entries.length ≤ maxXattrCount) :
    readDir digest (writeDir digest store owner dir) owner = .ok dir := by
  apply readDir_writeDir
  · have hnodup : dir.toList.Nodup := dir.sorted.imp fun h => h.ne
    calc dir.toList.length ≤ (m.fullNames owner).length :=
          (subperm_of_subset hnodup fun full => (hdir full).mp).length_le
      _ = (m owner).entries.length := length_map _
      _ ≤ maxXattrCount := hcount
      _ < 256 ^ 4 := by decide
  · intro full hfull
    obtain ⟨ns, name, value, hat, rfl⟩ := XattrMap.mem_fullNames.mp ((hdir full).mp hfull)
    exact (hknown _ _ hat).2.length_fullName

/-- **What one write to an attribute keeps.** The value object and the directory have moved as the map has. -/
theorem of_write (h : Refines digest used store m) (hapart : Apart used) {a : Attr} (hused : a ∈ used) (ha : a.Valid)
    {store' : Store} {m' : XattrMap} {value : Option Bytes}
    (hself : store'.get? (xattrValueKey a.owner a.ns a.name) = value)
    (hother : ∀ key ≠ xattrValueKey a.owner a.ns a.name, store'.get? key = store.get? key)
    (hat : ∀ b, m'.at? b = if b = a then value else m.at? b) (howner : ∀ o ≠ a.owner, m' o = m o)
    (hcount : (m' a.owner).entries.length ≤ maxXattrCount)
    (hnames : ∀ full, full ∈ dir ↔ if full = xattrFullNameBytes a.ns a.name then value.isSome = true
      else full ∈ m.fullNames a.owner) : Refines digest used (writeDir digest store' a.owner dir) m' := by
  have hknown : ∀ b v, m'.at? b = some v → b ∈ used ∧ b.Valid := by
    intro b v hb
    rw [hat] at hb
    by_cases hba : b = a
    · exact hba ▸ ⟨hused, ha⟩
    · rw [if_neg hba] at hb
      exact h.known b v hb
  have hdir : ∀ full, full ∈ dir ↔ full ∈ m'.fullNames a.owner := by
    intro full
    rw [hnames, XattrMap.mem_fullNames, XattrMap.mem_fullNames, Option.isSome_iff_exists]
    split_ifs with hfull
    · subst hfull
      constructor
      · rintro ⟨v, rfl⟩
        exact ⟨a.ns, a.name, v, (hat a).trans (if_pos rfl), rfl⟩
      · rintro ⟨ns, name, v, hv, hfull⟩
        obtain ⟨rfl, rfl⟩ := xattrFullNameBytes_injective ha.colon_not_mem (hknown _ _ hv).2.colon_not_mem hfull
        exact ⟨v, ((hat a).symm.trans hv).symm ▸ (if_pos rfl).symm⟩
    · refine exists_congr fun ns => exists_congr fun name => exists_congr fun v => and_congr_left fun hname => ?_
      rw [hat, if_neg fun hba => hfull (by rw [hname, ← hba])]
  refine ⟨hknown, fun o => ?_, fun b hb hvalid => ?_, fun o => ?_⟩
  · by_cases ho : o = a.owner
    · exact ho ▸ hcount
    · exact howner o ho ▸ h.count o
  · rw [get?_writeDir digest _ _ _ (xattrValueKey_ne_xattrDirKey _ _ _ _), hat]
    split_ifs with hba
    · rw [hba, hself]
    · rw [hother, h.value b hb hvalid]
      -- the keys are those of different attributes that are told apart
      intro hkey
      obtain ⟨ho, hns, htext⟩ := xattrValueKey_injective hvalid.colon_not_mem ha.colon_not_mem hkey
      exact hba (hapart b hb a hused ho hns htext)
  · by_cases ho : o = a.owner
    · subst ho
      exact ⟨dir, readDir_written store' hknown hdir hcount, hdir⟩
    · obtain ⟨dir', hread, hmem⟩ := h.dir o
      refine ⟨dir', ?_, fun full => ?_⟩
      · rw [← hread]
        apply readDir_congr
        have hkey : xattrDirKey o ≠ xattrDirKey a.owner := fun hk => ho (xattrDirKey_injective hk)
        rw [get?_writeDir digest _ _ _ hkey, hother _ (xattrValueKey_ne_xattrDirKey _ _ _ _).symm]
      · rw [hmem, XattrMap.fullNames, XattrMap.fullNames, howner o ho]

end Refines

/-! ### Calls and runs -/

namespace Refines

variable {a : Attr} {dir : OrdSet Bytes} (h : Refines digest used store m)
include h

theorem put (hapart : Apart used) (hused : a ∈ used) (ha : a.Valid)
    (hdir : ∀ full, full ∈ dir ↔ full ∈ m.fullNames a.owner) (value : Bytes)
    (hroom : (m.at? a).isSome = true ∨ (m a.owner).entries.length < maxXattrCount) :
    Refines digest used (writeDir digest (store.insert (xattrValueKey a.owner a.ns a.name) value) a.owner
      (dir.insert (xattrFullNameBytes a.ns a.name))) (m.put a value) := by
  have hnames : ∀ full, full ∈ dir.insert (xattrFullNameBytes a.ns a.name) ↔
      if full = xattrFullNameBytes a.ns a.name then (some value).isSome = true else full ∈ m.fullNames a.owner := by
    intro full
    rw [mem_insert, hdir]
    split_ifs with hfull
    · exact iff_of_true (.inl hfull) rfl
    · exact or_iff_right hfull
  have hcount : ((m.put a value) a.owner).entries.length ≤ maxXattrCount := by
    rw [XattrMap.put, update_self]
    rcases hroom with hpresent | hfew
    · exact (length_insert_le_of_contains hpresent value).trans (h.count a.owner)
    · exact (length_insert_le _ _ value).trans hfew
  exact h.of_write hapart hused ha (by rw [get?_insert, if_pos rfl])
    (fun key hkey => by rw [get?_insert, if_neg hkey]) (fun b => m.at?_put a b value)
    (fun o ho => update_of_ne ho _ _) hcount hnames

theorem drop (hapart : Apart used) (hused : a ∈ used) (ha : a.Valid)
    (hdir : ∀ full, full ∈ dir ↔ full ∈ m.fullNames a.owner) :
    Refines digest used (writeDir digest (store.erase (xattrValueKey a.owner a.ns a.name)) a.owner
      (dir.erase (xattrFullNameBytes a.ns a.name))) (m.drop a) := by
  have hnames : ∀ full, full ∈ dir.erase (xattrFullNameBytes a.ns a.name) ↔
      if full = xattrFullNameBytes a.ns a.name then (none : Option Bytes).isSome = true
      else full ∈ m.fullNames a.owner := by
    intro full
    rw [mem_erase, hdir]
    split_ifs with hfull
    · exact iff_of_false (fun hmem => hmem.2 hfull) Bool.false_ne_true
    · exact and_iff_left hfull
  have hcount : ((m.drop a) a.owner).entries.length ≤ maxXattrCount := by
    rw [XattrMap.drop, update_self]
    exact (length_erase_le _ _).trans (h.count a.owner)
  exact h.of_write hapart hused ha (by rw [get?_erase, if_pos rfl])
    (fun key hkey => by rw [get?_erase, if_neg hkey]) (fun b => m.at?_drop a b)
    (fun o ho => update_of_ne ho _ _) hcount hnames

theorem get (hused : a ∈ used) :
    PersistentXattr.get store a.owner a.ns a.name = m.get a := by
  unfold PersistentXattr.get XattrMap.get
  cases hvalid : validate a.owner a.ns a.name with
  | error e => rfl
  | ok u => exact congrArg Except.ok (h.value a hused hvalid)

/-- `set` answers as the map does and leaves the store with its new value. -/
theorem set (hapart : Apart used) (hused : a ∈ used) (value : Bytes)
    (flags : UInt32) :
    (∃ e, set digest store a.owner a.ns a.name value flags = .error e ∧ m.set a value flags = .error e) ∨
    ∃ store' m', PersistentXattr.set digest store a.owner a.ns a.name value flags = .ok store' ∧
      m.set a value flags = .ok m' ∧ Refines digest used store' m' := by
  unfold PersistentXattr.set XattrMap.set
  cases hvalid : validate a.owner a.ns a.name with
  | error e => exact .inl ⟨e, rfl, rfl⟩
  | ok u =>
  cases hset : validateSet value flags with
  | error e => exact .inl ⟨e, rfl, rfl⟩
  | ok u =>
  obtain ⟨dir, hread, hdir⟩ := h.dir a.owner
  have hpresent : decide (xattrFullNameBytes a.ns a.name ∈ dir) = (m.at? a).isSome := by
    rw [Bool.eq_iff_iff, decide_eq_true_iff]
    exact h.mem_dir hvalid hdir
  rw [hread]
  simp only [bind, Except.bind]
  rw [hpresent, h.length_dir hdir]
  cases hcheck : checkPresence flags (m.at? a).isSome (m a.owner).entries.length with
  | error e => exact .inl ⟨e, rfl, rfl⟩
  | ok u => exact .inr ⟨_, _, rfl, rfl, h.put hapart hused hvalid hdir value (checkPresence_ok hcheck)⟩

theorem remove (hapart : Apart used) (hused : a ∈ used) :
    (∃ e, remove digest store a.owner a.ns a.name = .error e ∧ m.remove a = .error e) ∨
    ∃ was store' m', PersistentXattr.remove digest store a.owner a.ns a.name = .ok (was, store') ∧
      m.remove a = .ok (was, m') ∧ Refines digest used store' m' := by
  unfold PersistentXattr.remove XattrMap.remove
  cases hvalid : validate a.owner a.ns a.name with
  | error e => exact .inl ⟨e, rfl, rfl⟩
  | ok u =>
  obtain ⟨dir, hread, hdir⟩ := h.dir a.owner
  right
  rw [hread]
  simp only [bind, Except.bind]
  by_cases hmem : xattrFullNameBytes a.ns a.name ∈ dir
  · rw [if_pos hmem, if_pos ((h.mem_dir hvalid hdir).mp hmem)]
    exact ⟨true, _, _, rfl, rfl, h.drop hapart hused hvalid hdir⟩
  · rw [if_neg hmem, if_neg fun hsome => hmem ((h.mem_dir hvalid hdir).mpr hsome)]
    exact ⟨false, store, m, rfl, rfl, h⟩

/-- A listing has the present attributes of the owner, each once. -/
theorem list (owner : XattrOwner) :
    Outcome.Agrees (.names (PersistentXattr.list digest store owner)) (.names (m.list owner)) := by
  unfold PersistentXattr.list XattrMap.list
  cases validateOwner owner with
  | error e => rfl
  | ok u =>
  obtain ⟨dir, hread, hdir⟩ := h.dir owner
  rw [hread]
  have hsplit : (m.fullNames owner).filterMap splitFullName = (m owner).entries.map fun e => ofLex e.1 := by
    rw [XattrMap.fullNames, filterMap_map, ← filterMap_eq_map]
    refine filterMap_congr fun e he => ?_
    have hvalid := (h.known ⟨owner, (ofLex e.1).1, (ofLex e.1).2⟩ e.2 (get?_eq_some.mpr he)).2
    exact splitFullName_fullName hvalid.ns_mem _
  rw [← hsplit]
  exact (h.perm hdir).filterMap splitFullName

/-- **One call.** -/
theorem step (hapart : Apart used) {call : Call} (hused : ∀ a ∈ call.attrs, a ∈ used) :
    (step digest store call).1.Agrees (m.step call).1 ∧
      Refines digest used (step digest store call).2 (m.step call).2 := by
  cases call with
  | get a =>
    refine ⟨?_, h⟩
    exact congrArg Outcome.value (h.get (hused a mem_cons_self))
  | list owner => exact ⟨h.list owner, h⟩
  | set a value flags =>
    unfold PersistentXattr.step XattrMap.step
    obtain ⟨e, hs, hm⟩ | ⟨store', m', hs, hm, h'⟩ := h.set hapart (hused a mem_cons_self) value flags
    · simp only [hs, hm]
      exact ⟨rfl, h⟩
    · simp only [hs, hm]
      exact ⟨rfl, h'⟩
  | remove a =>
    unfold PersistentXattr.step XattrMap.step
    obtain ⟨e, hs, hm⟩ | ⟨was, store', m', hs, hm, h'⟩ := h.remove hapart (hused a mem_cons_self)
    · simp only [hs, hm]
      exact ⟨rfl, h⟩
    · simp only [hs, hm]
      exact ⟨rfl, h'⟩

omit h in
theorem run (hapart : Apart used) : ∀ {calls : List Call} {store : Store} {m : XattrMap},
    Refines digest used store m → (∀ a ∈ calls.flatMap Call.attrs, a ∈ used) →
    List.Forall₂ Outcome.Agrees (run digest store calls).1 (m.run calls).1
  | [], _, _, _, _ => List.Forall₂.nil
  | call :: calls, store, m, h, hused => by
    rw [flatMap_cons] at hused
    obtain ⟨hagrees, hnext⟩ := h.step hapart fun a ha => hused a (mem_append_left _ ha)
    exact List.Forall₂.cons hagrees (run hapart hnext fun a ha => hused a (mem_append_right _ ha))

end Refines

end Refinement

/-- **A map from owner, namespace and name.** Whatever the calls, every answer is the map's, as long as the names used
for one owner and namespace have different texts. -/
theorem run_agrees (digest : Bytes → Vector UInt8 32) (calls : List Call) (hapart : Apart (calls.flatMap Call.attrs)) :
    List.Forall₂ Outcome.Agrees (run digest OrdMap.empty calls).1 (XattrMap.empty.run calls).1 :=
  Refines.run hapart refines_empty fun _ ha => ha

def userAttr (name : Bytes) : Attr := ⟨⟨1, 1⟩, [0x75, 0x73, 0x65, 0x72], name⟩

/-- Two names, one of which is no text: set, replaced, listed and removed. -/
def twoNames : List Call :=
  [.set (userAttr [0x80]) [1] 0, .set (userAttr [0x61]) [2] xattrCreate, .set (userAttr [0x80]) [3] xattrReplace,
    .list ⟨1, 1⟩, .remove (userAttr [0x61]), .get (userAttr [0x80]), .get (userAttr [0x61])]

theorem run_agrees_twoNames : Apart (twoNames.flatMap Call.attrs) ∧ ∀ digest : Bytes → Vector UInt8 32,
    List.Forall₂ Outcome.Agrees (run digest OrdMap.empty twoNames).1 (XattrMap.empty.run twoNames).1 :=
  ⟨by decide, fun digest => run_agrees digest twoNames (by decide)⟩

/-! ### Names with one text -/

theorem set_eq_ok {digest : Bytes → Vector UInt8 32} {store : Store} {a : Attr} {value : Bytes}
    {dir : OrdSet Bytes} (hvalid : a.Valid) (hset : validateSet value flags = .ok ())
    (hread : readDir digest store a.owner = .ok dir)
    (hcheck : checkPresence flags (decide (xattrFullNameBytes a.ns a.name ∈ dir)) dir.toList.length = .ok ()) :
    set digest store a.owner a.ns a.name value flags =
      .ok (writeDir digest (store.insert (xattrValueKey a.owner a.ns a.name) value) a.owner
        (dir.insert (xattrFullNameBytes a.ns a.name))) := by
  unfold Attr.Valid at hvalid
  simp only [set, hvalid, hset, hread, hcheck, bind, Except.bind, pure, Except.pure]

/-- Of two attributes of one owner with one key, the first is read with the value of the second. -/
theorem run_of_shared_key (digest : Bytes → Vector UInt8 32) {owner : XattrOwner} {va vb : Bytes}
    (ha : Attr.Valid ⟨owner, ns, name⟩) (hb : Attr.Valid ⟨owner, ns', name'⟩)
    (hkey : xattrValueKey owner ns name = xattrValueKey owner ns' name')
    (hva : validateSet va 0 = .ok ()) (hvb : validateSet vb 0 = .ok ()) :
    (run digest OrdMap.empty [.set ⟨owner, ns, name⟩ va 0, .set ⟨owner, ns', name'⟩ vb 0, .get ⟨owner, ns, name⟩]).1 =
      [.done (.ok ()), .done (.ok ()), .value (.ok (some vb))] := by
  have hfirst := set_eq_ok ha hva (rfl : readDir digest OrdMap.empty owner = .ok empty) rfl
  have hread : readDir digest (writeDir digest (OrdMap.empty.insert (xattrValueKey owner ns name) va) owner
      (empty.insert (xattrFullNameBytes ns name))) owner =
      .ok (empty.insert (xattrFullNameBytes ns name)) := by
    apply readDir_writeDir
    · show 1 < 256 ^ 4
      decide
    · rintro full (hfull : full ∈ [xattrFullNameBytes ns name])
      rw [mem_singleton.mp hfull]
      exact ha.length_fullName
  have hcheck : ∀ present, checkPresence 0 present 1 = .ok () := by decide
  have hsecond := set_eq_ok hb hvb hread (hcheck _)
  unfold Attr.Valid at ha
  simp only [run, step, hfirst, hsecond, Except.map, outcome, get, ha, bind, Except.bind, pure, Except.pure]
  rw [get?_writeDir digest _ _ _ (xattrValueKey_ne_xattrDirKey _ _ _ _), OrdMap.get?_insert, if_pos hkey]

/-- Both names are no text: they have the replacement character in the key. -/
def sharing : List Call := [.set (userAttr [0x80]) [1] 0, .set (userAttr [0x81]) [2] 0, .get (userAttr [0x80])]

/-- **Two accepted names, one value.** The attribute set first is read with the value of the other. -/
theorem names_share_value : (∀ a ∈ sharing.flatMap Call.attrs, a.Valid) ∧ ∀ digest : Bytes → Vector UInt8 32,
    (run digest OrdMap.empty sharing).1 = [.done (.ok ()), .done (.ok ()), .value (.ok (some [2]))] ∧
      (XattrMap.empty.run sharing).1 = [.done (.ok ()), .done (.ok ()), .value (.ok (some [1]))] :=
  ⟨by decide, fun digest => ⟨run_of_shared_key digest (by decide) (by decide) (by decide) (by decide) (by decide),
    by decide⟩⟩

end Tidefs.PersistentXattr
