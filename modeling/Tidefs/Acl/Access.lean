/-
# Access decisions

A request for read, write or execute access is decided by the access list if there is one
and by the mode bits otherwise. The list's planner picks the caller's class and its
permissions; for the group class, where several entries may match, the request is checked
against each of them on its own.

`Grants` is the rule of POSIX.1e over the entries of the list. The decision is that rule
(`access_is_posix`): the planner's union of group entries never decides, the mode plays no
part, and of the caller's groups only which they are.
-/
import Tidefs.Acl.Structure

namespace Tidefs
namespace PosixAcl

/-- The class of entries that decides for a caller. -/
inductive PosixAclPermissionClass where
  | owner
  | namedUser
  | groupClass
  | other
deriving DecidableEq

structure PosixAclPermissionPlan where
  permissionClass : PosixAclPermissionClass
  rawPerm : ℕ
  maskPerm : Option ℕ
  effectivePerm : ℕ
deriving DecidableEq

def PosixAclPermissionPlan.new (permissionClass : PosixAclPermissionClass) (rawPerm : ℕ) (maskPerm : Option ℕ) :
    PosixAclPermissionPlan :=
  let rawPerm := rawPerm &&& 0x7
  let maskPerm := maskPerm.map (· &&& 0x7)
  ⟨permissionClass, rawPerm, maskPerm, maskPerm.elim rawPerm (rawPerm &&& ·)⟩

def inGroup (callerGid : ℕ) (callerGroups : List ℕ) (gid : ℕ) : Bool := callerGid = gid ∨ callerGroups.contains gid

/-- Plan POSIX access ACL evaluation for a specific caller. -/
def planPosixAclAccessForCaller (acl : List PosixAclEntry) (fileUid fileGid callerUid callerGid : ℕ)
    (callerGroups : List ℕ) (modeFallback : ℕ) : PosixAclPermissionPlan :=
  let maskPerm := (findEntry acl aclMask).map (·.perm &&& 0x7)
  if callerUid = fileUid then
    match findEntry acl aclUserObj with
    | some owner => .new .owner (owner.perm &&& 0x7) none
    | none => .new .owner ((modeFallback >>> 6) &&& 0x7) none
  else
    match (acl.filter (·.tag = aclUser)).find? (·.id = callerUid) with
    | some entry => .new .namedUser (entry.perm &&& 0x7) maskPerm
    | none =>
      let inOwningGroup := inGroup callerGid callerGroups fileGid
      let matchesNamedGroup := (acl.filter (·.tag = aclGroup)).any fun e => inGroup callerGid callerGroups e.id
      if inOwningGroup ∨ matchesNamedGroup then
        let perm :=
          if inOwningGroup then
            match findEntry acl aclGroupObj with
            | some groupObj => groupObj.perm &&& 0x7
            | none => (modeFallback >>> 3) &&& 0x7
          else 0
        let perm := (acl.filter (·.tag = aclGroup)).foldl
          (fun perm e => if inGroup callerGid callerGroups e.id then perm ||| (e.perm &&& 0x7) else perm) perm
        .new .groupClass (perm &&& 0x7) maskPerm
      else
        match findEntry acl aclOther with
        | some other => .new .other (other.perm &&& 0x7) none
        | none => .new .other (modeFallback &&& 0x7) none

/-- Access rights requested by a caller. -/
structure AccessMask where
  bits : ℕ
deriving DecidableEq

def AccessMask.new (bits : ℕ) : AccessMask := ⟨bits &&& 0x7⟩

structure PosixAclAccessDecision where
  plan : PosixAclPermissionPlan
  requested : AccessMask
  allowed : Bool
deriving DecidableEq

def groupClassEntryAllows (entryPerm : ℕ) (maskPerm : Option ℕ) (requested : AccessMask) : Bool :=
  ((entryPerm &&& 0x7) &&& maskPerm.getD 0x7) &&& requested.bits = requested.bits

/-- The loop over the named groups: the first that allows the request ends it. -/
def namedGroupsAllow (callerGid : ℕ) (callerGroups : List ℕ) (maskPerm : Option ℕ) (requested : AccessMask) :
    Bool → List PosixAclEntry → Option Bool
  | matched, [] => if matched then some false else none
  | matched, e :: acl =>
    if inGroup callerGid callerGroups e.id then
      if groupClassEntryAllows e.perm maskPerm requested then some true
      else namedGroupsAllow callerGid callerGroups maskPerm requested true acl
    else namedGroupsAllow callerGid callerGroups maskPerm requested matched acl

def groupClassRequestAllowed (acl : List PosixAclEntry) (fileGid callerGid : ℕ) (callerGroups : List ℕ)
    (modeFallback : ℕ) (requested : AccessMask) : Option Bool :=
  let maskPerm := (findEntry acl aclMask).map (·.perm &&& 0x7)
  let named := fun matched =>
    namedGroupsAllow callerGid callerGroups maskPerm requested matched (acl.filter (·.tag = aclGroup))
  if inGroup callerGid callerGroups fileGid then
    let groupObjPerm := ((findEntry acl aclGroupObj).map (·.perm)).getD ((modeFallback >>> 3) &&& 0x7)
    if groupClassEntryAllows groupObjPerm maskPerm requested then some true else named true
  else named false

def decideValidatedPosixAclAccess (acl : List PosixAclEntry) (fileUid fileGid callerUid callerGid : ℕ)
    (callerGroups : List ℕ) (modeFallback : ℕ) (requested : AccessMask) :
    Except PosixAclStructureError PosixAclAccessDecision := do
  validatePosixAclAccessStructure acl
  let plan := planPosixAclAccessForCaller acl fileUid fileGid callerUid callerGid callerGroups modeFallback
  let allowed :=
    if plan.permissionClass = .groupClass then
      (groupClassRequestAllowed acl fileGid callerGid callerGroups modeFallback requested).getD false
    else plan.effectivePerm &&& requested.bits = requested.bits
  .ok ⟨plan, requested, allowed⟩

/-- Build the minimal access ACL that represents the mode. -/
def minimalAccessAclFromMode (mode : ℕ) : List PosixAclEntry :=
  [⟨aclUserObj, (mode >>> 6) &&& 0x7, 0⟩, ⟨aclGroupObj, (mode >>> 3) &&& 0x7, 0⟩, ⟨aclOther, mode &&& 0x7, 0⟩]

end PosixAcl

namespace Permission

open PosixAcl

structure MountIdentity where
  datasetId : List UInt8
  mountEpoch : ℕ
deriving DecidableEq

def MountIdentity.isValid (m : MountIdentity) : Bool := 0 < m.mountEpoch

/-- An identity that the mount cannot map. -/
inductive MountIdentityError where
  | invalidMountIdentity
deriving DecidableEq

/-- A mask with other bits. -/
inductive AccessRequestError where
  | invalidMask (requested invalidBits : ℕ)
deriving DecidableEq

/-- Why a check gives no answer. -/
inductive PermissionAccessError where
  | invalidRequest (source : AccessRequestError)
  | invalidMountIdentity (source : MountIdentityError)
  | invalidAcl (source : PosixAclStructureError)
deriving DecidableEq

/-- What decided a check. -/
inductive PermissionAccessAuthority where
  | existence
  | rootOverride (effectivePerm : ℕ)
  | modeBits (effectivePerm : ℕ)
  | posixAcl (decision : PosixAclAccessDecision)
deriving DecidableEq

structure PermissionAccessDecision where
  mountIdentity : MountIdentity
  requested : ℕ
  allowed : Bool
  authority : PermissionAccessAuthority
deriving DecidableEq

structure InodeAttr where
  uid : ℕ
  gid : ℕ
  mode : ℕ

def sIfmt : ℕ := 0o170000
def sIfreg : ℕ := 0o100000
/-- `S_IXUSR | S_IXGRP | S_IXOTH` -/
def executeBits : ℕ := 0o111

def accessRead : ℕ := 0x04
def accessWrite : ℕ := 0x02
def accessExecute : ℕ := 0x01
def accessNone : ℕ := 0
/-- The bits of a byte outside `ACCESS_VALID_MASK`. -/
def accessInvalidMask : ℕ := 0xF8

def validateMountIdentity (m : MountIdentity) : Except MountIdentityError Unit :=
  if m.isValid then .ok () else .error .invalidMountIdentity

def validateAccessRequest (requested : ℕ) : Except AccessRequestError Unit :=
  if requested &&& accessInvalidMask = 0 then .ok ()
  else .error (.invalidMask requested (requested &&& accessInvalidMask))

def modePermissionBits (mode : ℕ) (attrs : InodeAttr) (uid gid : ℕ) (groups : List ℕ) : ℕ :=
  if uid = attrs.uid then (mode >>> 6) &&& 0x7
  else if inGroup gid groups attrs.gid then (mode >>> 3) &&& 0x7
  else mode &&& 0x7

def rootOverridePermBits (attrs : InodeAttr) : ℕ :=
  let perm := accessRead ||| accessWrite
  if attrs.mode &&& sIfmt ≠ sIfreg ∨ attrs.mode &&& executeBits ≠ 0 then perm ||| accessExecute else perm

/-- Plan a validated discretionary access decision. -/
def planPermissionAccess (attrs : InodeAttr) (acl : Option (List PosixAclEntry)) (uid gid : ℕ) (groups : List ℕ)
    (requested : ℕ) (mountIdentity : MountIdentity) : Except PermissionAccessError PermissionAccessDecision := do
  (validateMountIdentity mountIdentity).mapError .invalidMountIdentity
  (validateAccessRequest requested).mapError .invalidRequest
  if requested = accessNone then .ok ⟨mountIdentity, requested, true, .existence⟩
  else if uid = 0 then
    let effectivePerm := rootOverridePermBits attrs
    .ok ⟨mountIdentity, requested, effectivePerm &&& requested = requested, .rootOverride effectivePerm⟩
  else if (acl.getD []).isEmpty then
    let effectivePerm := modePermissionBits attrs.mode attrs uid gid groups
    .ok ⟨mountIdentity, requested, effectivePerm &&& requested = requested, .modeBits effectivePerm⟩
  else do
    let decision ← (decideValidatedPosixAclAccess (acl.getD []) attrs.uid attrs.gid uid gid groups attrs.mode
      (.new requested)).mapError .invalidAcl
    .ok ⟨mountIdentity, requested, decision.allowed, .posixAcl decision⟩

end Permission

namespace PosixAcl

/-! ### The rule -/

/-- One of the three bits of a mask. -/
inductive Right where
  | read
  | write
  | execute

/-- The right's bit in a permission. -/
def Right.bit : Right → ℕ
  | read => 2
  | write => 1
  | execute => 0

def Holds (perm requested : ℕ) : Prop := ∀ right : Right, requested.testBit right.bit → perm.testBit right.bit

/-- The same below the mask. -/
def HoldsMasked (acl : List PosixAclEntry) (perm requested : ℕ) : Prop :=
  Holds perm requested ∧ ∀ mask ∈ acl, mask.tag = aclMask → Holds mask.perm requested

/-- The entries of the group class that are about the caller. -/
def MatchesGroup (fileGid callerGid : ℕ) (callerGroups : List ℕ) (e : PosixAclEntry) : Prop :=
  e.tag = aclGroupObj ∧ (callerGid = fileGid ∨ fileGid ∈ callerGroups) ∨
  e.tag = aclGroup ∧ (callerGid = e.id ∨ e.id ∈ callerGroups)

/-- The access rule of POSIX.1e: the owner's entry; else the entry of the named user below
the mask; else an entry of the group class that has all of the request below the mask;
else, where nothing matched, the entry of others. -/
def Grants (acl : List PosixAclEntry) (fileUid fileGid callerUid callerGid : ℕ) (callerGroups : List ℕ)
    (requested : ℕ) : Prop :=
  (callerUid = fileUid ∧ ∃ e ∈ acl, e.tag = aclUserObj ∧ Holds e.perm requested) ∨
  (callerUid ≠ fileUid ∧ ∃ e ∈ acl, (e.tag = aclUser ∧ e.id = callerUid) ∧ HoldsMasked acl e.perm requested) ∨
  (callerUid ≠ fileUid ∧ (∀ e ∈ acl, ¬ (e.tag = aclUser ∧ e.id = callerUid)) ∧
    ∃ e ∈ acl, MatchesGroup fileGid callerGid callerGroups e ∧ HoldsMasked acl e.perm requested) ∨
  (callerUid ≠ fileUid ∧ (∀ e ∈ acl, ¬ (e.tag = aclUser ∧ e.id = callerUid)) ∧
    (∀ e ∈ acl, ¬ MatchesGroup fileGid callerGid callerGroups e) ∧ ∃ e ∈ acl, e.tag = aclOther ∧ Holds e.perm requested)

/-! ### Bits -/

variable {acl : List PosixAclEntry} {fileUid fileGid callerUid callerGid mode r : ℕ} {callerGroups : List ℕ}

theorem testBit_seven (right : Right) : (0x7).testBit right.bit = true := by
  cases right <;> rfl

theorem Right.of_lt : ∀ {i : ℕ}, i < 3 → ∃ right : Right, right.bit = i
  | 0, _ => ⟨.execute, rfl⟩
  | 1, _ => ⟨.write, rfl⟩
  | 2, _ => ⟨.read, rfl⟩

/-- **The bits of a request** are among those of a permission when the permission holds
what is requested. -/
theorem allows_iff {perm : ℕ} (hr : r < 8) : perm &&& r = r ↔ Holds perm r := by
  constructor
  · intro h right hbit
    rw [← h, Nat.testBit_and, Bool.and_eq_true] at hbit
    exact hbit.1
  · intro h
    refine Nat.eq_of_testBit_eq fun i => ?_
    rw [Nat.testBit_and]
    cases hi : r.testBit i with
    | false => exact Bool.and_false _
    | true =>
      have hlt : i < 3 := by
        by_contra hge
        have hpow : 2 ^ 3 ≤ 2 ^ i := Nat.pow_le_pow_right Nat.two_pos (Nat.le_of_not_lt hge)
        rw [Nat.testBit_lt_two_pow (lt_of_lt_of_le hr hpow)] at hi
        exact nomatch hi
      obtain ⟨right, rfl⟩ := Right.of_lt hlt
      rw [h right hi, Bool.and_true]

theorem holds_land {a b : ℕ} : Holds (a &&& b) r ↔ Holds a r ∧ Holds b r := by
  unfold Holds
  simp only [Nat.testBit_and, Bool.and_eq_true]
  exact ⟨fun h => ⟨fun x hx => (h x hx).1, fun x hx => (h x hx).2⟩, fun h x hx => ⟨h.1 x hx, h.2 x hx⟩⟩

theorem holds_seven {a : ℕ} : Holds (a &&& 0x7) r ↔ Holds a r :=
  holds_land.trans (and_iff_left fun right _ => testBit_seven right)

theorem land_seven (hr : r < 8) : r &&& 0x7 = r := by
  rw [show (0x7 : ℕ) = 2 ^ 3 - 1 from rfl, Nat.and_two_pow_sub_one_eq_mod]
  exact Nat.mod_eq_of_lt hr

/-! ### The mask and the classes -/

theorem new_permissionClass (c : PosixAclPermissionClass) (rawPerm : ℕ) (maskPerm : Option ℕ) :
    (PosixAclPermissionPlan.new c rawPerm maskPerm).permissionClass = c := rfl

theorem holds_mask (hacl : WellFormed acl) : Holds (((findEntry acl aclMask).map (·.perm &&& 0x7)).getD 0x7) r ↔
      ∀ mask ∈ acl, mask.tag = aclMask → Holds mask.perm r := by
  cases hfind : findEntry acl aclMask with
  | none =>
    refine iff_of_true (fun right _ => testBit_seven right) fun mask hmem htag => ?_
    rw [(findEntry_eq_some hacl.mask).mpr ⟨hmem, htag⟩] at hfind
    exact nomatch hfind
  | some m =>
    obtain ⟨hm, htag⟩ := (findEntry_eq_some hacl.mask).mp hfind
    refine holds_seven.trans ⟨fun h mask hmem ht => ?_, fun h => h m hm htag⟩
    rw [(findEntry_eq_some hacl.mask).mpr ⟨hmem, ht⟩] at hfind
    rw [Option.some.inj hfind]
    exact h

theorem holds_unmasked {c : PosixAclPermissionClass} {perm : ℕ} :
    Holds (PosixAclPermissionPlan.new c (perm &&& 0x7) none).effectivePerm r ↔ Holds perm r :=
  holds_seven.trans holds_seven

theorem holds_masked (hacl : WellFormed acl) {c : PosixAclPermissionClass} {perm : ℕ} :
    Holds (PosixAclPermissionPlan.new c (perm &&& 0x7)
      ((findEntry acl aclMask).map (·.perm &&& 0x7))).effectivePerm r ↔ HoldsMasked acl perm r := by
  unfold HoldsMasked
  rw [← holds_mask hacl]
  cases findEntry acl aclMask with
  | none => exact holds_unmasked.trans (and_iff_left fun right _ => testBit_seven right).symm
  | some m => exact holds_land.trans (and_congr (@holds_unmasked r c perm) holds_seven)

theorem groupClassEntryAllows_iff (hacl : WellFormed acl) {perm : ℕ} (hr : r < 8) :
    groupClassEntryAllows perm ((findEntry acl aclMask).map (·.perm &&& 0x7)) ⟨r⟩ = true ↔ HoldsMasked acl perm r := by
  unfold groupClassEntryAllows HoldsMasked
  rw [decide_eq_true_eq, allows_iff hr, holds_land, holds_seven, holds_mask hacl]

theorem inGroup_iff {gid : ℕ} : inGroup callerGid callerGroups gid = true ↔ callerGid = gid ∨ gid ∈ callerGroups := by
  simp only [inGroup, List.contains_iff_mem, decide_eq_true_eq]

/-! ### The group class -/

/-- A request is allowed when one of the named groups of the caller allows it. -/
theorem namedGroupsAllow_iff {maskPerm : Option ℕ} {requested : AccessMask} :
    ∀ {l : List PosixAclEntry} {matched : Bool},
      namedGroupsAllow callerGid callerGroups maskPerm requested matched l = some true ↔
        ∃ e ∈ l, inGroup callerGid callerGroups e.id = true ∧ groupClassEntryAllows e.perm maskPerm requested = true
  | [], matched => by cases matched <;> simp [namedGroupsAllow]
  | e :: l, matched => by
    have ih := fun m => @namedGroupsAllow_iff maskPerm requested l m
    unfold namedGroupsAllow
    rw [List.exists_mem_cons_iff]
    split_ifs with h1 h2
    · exact iff_of_true rfl (.inl ⟨h1, h2⟩)
    · rw [ih]
      exact (or_iff_right fun h => h2 h.2).symm
    · rw [ih]
      exact (or_iff_right fun h => h1 h.1).symm

/-- An entry that is the only one of its kind decides for its kind. -/
theorem exists_findEntry_iff {tag : ℕ} (h : tagCount acl tag = 1) {o : PosixAclEntry} (ho : findEntry acl tag = some o)
    {p : PosixAclEntry → Prop} : (∃ e ∈ acl, e.tag = tag ∧ p e) ↔ p o := by
  obtain ⟨hmem, htag⟩ := (findEntry_eq_some (le_of_eq h)).mp ho
  refine ⟨?_, fun hp => ⟨o, hmem, htag, hp⟩⟩
  rintro ⟨e, he, hetag, hp⟩
  rw [Option.some.inj (ho.symm.trans ((findEntry_eq_some (le_of_eq h)).mpr ⟨he, hetag⟩))]
  exact hp

/-- **The group class** allows a request when one of the entries about the caller does. -/
theorem groupClassRequestAllowed_iff (hacl : WellFormed acl) (hr : r < 8) :
    groupClassRequestAllowed acl fileGid callerGid callerGroups mode ⟨r⟩ = some true ↔
      ∃ e ∈ acl, MatchesGroup fileGid callerGid callerGroups e ∧ HoldsMasked acl e.perm r := by
  obtain ⟨o, ho⟩ := exists_findEntry hacl.groupObj
  have hnamed : (∃ e ∈ acl.filter fun x => decide (x.tag = aclGroup), inGroup callerGid callerGroups e.id = true ∧
      groupClassEntryAllows e.perm ((findEntry acl aclMask).map (·.perm &&& 0x7)) ⟨r⟩ = true) ↔
      ∃ e ∈ acl, (e.tag = aclGroup ∧ (callerGid = e.id ∨ e.id ∈ callerGroups)) ∧ HoldsMasked acl e.perm r := by
    simp only [List.mem_filter, decide_eq_true_eq, inGroup_iff, groupClassEntryAllows_iff hacl hr, and_assoc]
  have hobj : (∃ e ∈ acl, (e.tag = aclGroupObj ∧ (callerGid = fileGid ∨ fileGid ∈ callerGroups)) ∧
      HoldsMasked acl e.perm r) ↔ (callerGid = fileGid ∨ fileGid ∈ callerGroups) ∧ HoldsMasked acl o.perm r := by
    simp only [and_assoc]
    exact exists_findEntry_iff hacl.groupObj ho
  have hsplit : (∃ e ∈ acl, MatchesGroup fileGid callerGid callerGroups e ∧ HoldsMasked acl e.perm r) ↔
      (callerGid = fileGid ∨ fileGid ∈ callerGroups) ∧ HoldsMasked acl o.perm r ∨
      ∃ e ∈ acl, (e.tag = aclGroup ∧ (callerGid = e.id ∨ e.id ∈ callerGroups)) ∧ HoldsMasked acl e.perm r := by
    rw [← hobj, ← exists_or]
    refine exists_congr fun e => ?_
    rw [← and_or_left, ← or_and_right]
    rfl
  rw [hsplit, ← hnamed]
  unfold groupClassRequestAllowed
  dsimp only
  rw [ho]
  split_ifs with h1 h2
  · exact iff_of_true rfl (.inl ⟨inGroup_iff.mp h1, (groupClassEntryAllows_iff hacl hr).mp h2⟩)
  · rw [namedGroupsAllow_iff]
    exact (or_iff_right fun h => h2 ((groupClassEntryAllows_iff hacl hr).mpr h.2)).symm
  · rw [namedGroupsAllow_iff]
    exact (or_iff_right fun h => h1 (inGroup_iff.mpr h.1)).symm

/-- The caller is in the group class when an entry of it is about the caller. -/
theorem groupClass_iff (hacl : WellFormed acl) : (inGroup callerGid callerGroups fileGid = true ∨
      ((acl.filter fun x => decide (x.tag = aclGroup)).any fun e => inGroup callerGid callerGroups e.id) = true) ↔
      ∃ e ∈ acl, MatchesGroup fileGid callerGid callerGroups e := by
  obtain ⟨o, ho⟩ := exists_findEntry hacl.groupObj
  simp only [MatchesGroup, and_or_left, exists_or, exists_findEntry_iff hacl.groupObj ho, List.any_eq_true,
    List.mem_filter, decide_eq_true_eq, inGroup_iff, and_assoc]

/-! ### The decision -/

/-- **The decision** is that of the rule. -/
theorem decide_iff (hacl : validatePosixAclAccessStructure acl = .ok ()) (hr : r < 8) :
    ∃ d, decideValidatedPosixAclAccess acl fileUid fileGid callerUid callerGid callerGroups mode ⟨r⟩ = .ok d ∧
      (d.allowed = true ↔ Grants acl fileUid fileGid callerUid callerGid callerGroups r) := by
  have hwf := wellFormed_of_validate hacl
  refine ⟨_, by unfold decideValidatedPosixAclAccess; rw [hacl]; rfl, ?_⟩
  unfold Grants planPosixAclAccessForCaller
  obtain ⟨owner, howner⟩ := exists_findEntry hwf.userObj
  obtain ⟨other, hother⟩ := exists_findEntry hwf.other
  rw [exists_findEntry_iff hwf.userObj howner, exists_findEntry_iff hwf.other hother, howner, hother]
  by_cases howns : callerUid = fileUid
  · rw [if_pos howns, if_neg (fun h => nomatch h), decide_eq_true_eq, allows_iff hr, holds_unmasked]
    simp only [howns, ne_eq, not_true_eq_false, false_and, or_false, true_and]
  · rw [if_neg howns]
    simp only [howns, ne_eq, not_false_eq_true, false_and, false_or, true_and]
    cases hnamed : (acl.filter fun x => decide (x.tag = aclUser)).find? (·.id = callerUid) with
    | some entry =>
      have hid := List.find?_some hnamed
      obtain ⟨hmem, htag⟩ := List.mem_filter.mp (List.mem_of_find?_eq_some hnamed)
      replace htag := of_decide_eq_true htag
      have hentry : entry.tag = aclUser ∧ entry.id = callerUid := ⟨htag, of_decide_eq_true hid⟩
      rw [if_neg (fun h => nomatch h), decide_eq_true_eq, allows_iff hr, holds_masked hwf]
      constructor
      · intro h
        exact .inl ⟨entry, hmem, hentry, h⟩
      · rintro (⟨e, he, ⟨hetag, heid⟩, h⟩ | ⟨hno, _⟩ | ⟨hno, _⟩)
        · rw [hwf.named entry hmem e he (.inl htag) (htag.trans hetag.symm) (hentry.2.trans heid.symm)]
          exact h
        · exact absurd hentry (hno entry hmem)
        · exact absurd hentry (hno entry hmem)
    | none =>
      have hno : ∀ e ∈ acl, ¬ (e.tag = aclUser ∧ e.id = callerUid) := by
        intro e he ⟨htag, hid⟩
        exact List.find?_eq_none.mp hnamed e (List.mem_filter.mpr ⟨he, decide_eq_true htag⟩) (decide_eq_true hid)
      have hnone : ¬ ∃ e ∈ acl, (e.tag = aclUser ∧ e.id = callerUid) ∧ HoldsMasked acl e.perm r :=
        fun ⟨e, he, hname, _⟩ => hno e he hname
      rw [or_iff_right hnone, and_iff_right hno, and_iff_right hno]
      by_cases hgroup : inGroup callerGid callerGroups fileGid = true ∨
          ((acl.filter fun x => decide (x.tag = aclGroup)).any fun e => inGroup callerGid callerGroups e.id) = true
      · obtain ⟨e, he, hmatch⟩ := (groupClass_iff hwf).mp hgroup
        rw [if_pos hgroup, new_permissionClass, if_pos rfl, or_iff_left fun h => h.1 e he hmatch,
          ← @groupClassRequestAllowed_iff _ fileGid callerGid mode _ callerGroups hwf hr]
        cases groupClassRequestAllowed acl fileGid callerGid callerGroups mode ⟨r⟩ <;> simp
      · have hout : ∀ e ∈ acl, ¬ MatchesGroup fileGid callerGid callerGroups e :=
          fun e he hmatch => hgroup ((groupClass_iff hwf).mpr ⟨e, he, hmatch⟩)
        rw [if_neg hgroup, if_neg (fun h => nomatch h), decide_eq_true_eq, allows_iff hr, holds_unmasked,
          or_iff_right fun ⟨e, he, hmatch, _⟩ => hout e he hmatch, and_iff_right hout]

end PosixAcl

namespace Permission

open PosixAcl List

variable {attrs : InodeAttr} {acl : List PosixAclEntry} {uid gid r : ℕ} {groups : List ℕ} {mount : MountIdentity}

theorem validateAccessRequest_ok (hr : r < 8) : validateAccessRequest r = .ok () := by
  have h : ∀ n < 8, n &&& accessInvalidMask = 0 := by decide
  exact if_pos (h r hr)

/-- A request by someone who is not root, past the checks of its form. -/
theorem planPermissionAccess_eq {a : Option (List PosixAclEntry)} (hmount : mount.isValid = true) (huid : uid ≠ 0)
    (hr : 1 ≤ r ∧ r ≤ 7) : planPermissionAccess attrs a uid gid groups r mount = if (a.getD []).isEmpty then
        .ok ⟨mount, r, modePermissionBits attrs.mode attrs uid gid groups &&& r = r,
          .modeBits (modePermissionBits attrs.mode attrs uid gid groups)⟩
      else (decideValidatedPosixAclAccess (a.getD []) attrs.uid attrs.gid uid gid groups attrs.mode
        ⟨r⟩).mapError .invalidAcl >>= fun decision => .ok ⟨mount, r, decision.allowed, .posixAcl decision⟩ := by
  have h0 : r ≠ accessNone := by
    unfold accessNone
    omega
  have hlt : r < 8 := by omega
  unfold planPermissionAccess
  rw [validateMountIdentity, if_pos hmount, validateAccessRequest_ok hlt, AccessMask.new, land_seven hlt]
  show (if _ then _ else _) = _
  rw [if_neg h0, if_neg huid]

/-- Nothing is decided for a mount that was never committed. -/
theorem planPermissionAccess_refused {a : Option (List PosixAclEntry)} (hmount : mount.isValid = false) :
    planPermissionAccess attrs a uid gid groups r mount = .error (.invalidMountIdentity .invalidMountIdentity) := by
  unfold planPermissionAccess
  rw [validateMountIdentity, if_neg (by rw [hmount]; exact Bool.false_ne_true)]
  rfl

theorem plan_grants (hacl : validatePosixAclAccessStructure acl = .ok ()) (hmount : mount.isValid = true)
    (huid : uid ≠ 0) (hr : 1 ≤ r ∧ r ≤ 7) : ∃ d, planPermissionAccess attrs (some acl) uid gid groups r mount = .ok d ∧
      (d.allowed = true ↔ Grants acl attrs.uid attrs.gid uid gid groups r) := by
  have hne : ¬ acl.isEmpty = true := by
    intro h
    have hcount := (wellFormed_of_validate hacl).userObj
    rw [isEmpty_iff.mp h] at hcount
    exact nomatch hcount
  obtain ⟨d, hd, hiff⟩ := @decide_iff acl attrs.uid attrs.gid uid gid attrs.mode r groups hacl (by omega)
  refine ⟨⟨mount, r, d.allowed, .posixAcl d⟩, ?_, hiff⟩
  rw [planPermissionAccess_eq hmount huid hr, Option.getD_some, if_neg hne, hd]
  rfl

/-- The rule asks which groups the caller is in, and no more. -/
theorem grants_congr {fileUid fileGid : ℕ} {groups' : List ℕ} (h : ∀ g, g ∈ groups' ↔ g ∈ groups) :
    Grants acl fileUid fileGid uid gid groups' r ↔ Grants acl fileUid fileGid uid gid groups r := by
  unfold Grants MatchesGroup
  simp only [h]

theorem validate_minimal (m : ℕ) : validatePosixAclAccessStructure (minimalAccessAclFromMode m) = .ok () := by
  have hperm : ∀ n, ¬ 0x7 < n &&& 0x7 := fun n => not_lt.mpr Nat.and_le_right
  have hscan : Tally.scan (minimalAccessAclFromMode m) = .ok ⟨1, 1, 0, 1, false, some 5⟩ := by
    simp only [Tally.scan, minimalAccessAclFromMode, foldlM_cons, foldlM_nil, Tally.entry, hperm, if_false]
    rfl
  unfold validatePosixAclAccessStructure
  rw [hscan]
  rfl

/-- The least access list of a mode grants what the mode does. -/
theorem grants_minimal (m : ℕ) : Grants (minimalAccessAclFromMode m) attrs.uid attrs.gid uid gid groups r ↔
      Holds (modePermissionBits m attrs uid gid groups) r := by
  have htags : aclGroupObj ≠ aclUserObj ∧ aclOther ≠ aclUserObj ∧ aclUserObj ≠ aclUser ∧ aclGroupObj ≠ aclUser ∧
      aclOther ≠ aclUser ∧ aclUserObj ≠ aclGroupObj ∧ aclOther ≠ aclGroupObj ∧ aclUserObj ≠ aclGroup ∧
      aclGroupObj ≠ aclGroup ∧ aclOther ≠ aclGroup ∧ aclUserObj ≠ aclMask ∧ aclGroupObj ≠ aclMask ∧
      aclOther ≠ aclMask ∧ aclUserObj ≠ aclOther ∧ aclGroupObj ≠ aclOther := by decide
  unfold modePermissionBits
  split_ifs with h1 h2
  · simp [Grants, minimalAccessAclFromMode, h1, htags]
  · rw [inGroup_iff] at h2
    simp [Grants, MatchesGroup, HoldsMasked, minimalAccessAclFromMode, h1, h2, htags]
  · rw [inGroup_iff] at h2
    simp [Grants, MatchesGroup, HoldsMasked, minimalAccessAclFromMode, h1, h2, htags]

/-- The least access list of a mode, and no access list. -/
theorem minimal_access (m : ℕ) (hmount : mount.isValid = true) (huid : uid ≠ 0) (hr : 1 ≤ r ∧ r ≤ 7) :
    (planPermissionAccess attrs (some (minimalAccessAclFromMode m)) uid gid groups r mount).map (·.allowed) =
      (planPermissionAccess { attrs with mode := m } none uid gid groups r mount).map (·.allowed) := by
  obtain ⟨d, hd, hiff⟩ := @plan_grants attrs _ uid gid r groups mount (validate_minimal m) hmount huid hr
  rw [hd, planPermissionAccess_eq hmount huid hr, Option.getD_none, if_pos isEmpty_nil]
  show Except.ok d.allowed = Except.ok (decide (modePermissionBits m attrs uid gid groups &&& r = r))
  rw [Bool.eq_iff_iff.mpr (hiff.trans ((grants_minimal m).trans
    ((allows_iff (by omega)).symm.trans decide_eq_true_iff.symm)))]

/-- **Access is that of POSIX.1e.** The decision on a valid access list is that of the
rule; it does not change with the mode, or with the order or number of times the caller's
groups are given; and the least list of a mode decides as the mode does. Only a mount that
was never committed is refused before any of this. -/
theorem access_is_posix (acl : List PosixAclEntry) (hacl : validatePosixAclAccessStructure acl = .ok ())
    (attrs : InodeAttr) (uid gid : ℕ) (huid : uid ≠ 0) (groups : List ℕ) (r : ℕ) (hr : 1 ≤ r ∧ r ≤ 7)
    (mount : MountIdentity) :
    (mount.isValid = true → ∃ d, planPermissionAccess attrs (some acl) uid gid groups r mount = .ok d ∧
      (d.allowed = true ↔ Grants acl attrs.uid attrs.gid uid gid groups r)) ∧
    (mount.isValid = false → ∀ a, planPermissionAccess attrs a uid gid groups r mount =
      .error (.invalidMountIdentity .invalidMountIdentity)) ∧
    (∀ (mode : ℕ) (groups' : List ℕ), (∀ g, g ∈ groups' ↔ g ∈ groups) →
      (planPermissionAccess { attrs with mode } (some acl) uid gid groups' r mount).map (·.allowed) =
        (planPermissionAccess attrs (some acl) uid gid groups r mount).map (·.allowed)) ∧
    ∀ m, (planPermissionAccess attrs (some (minimalAccessAclFromMode m)) uid gid groups r mount).map (·.allowed) =
      (planPermissionAccess { attrs with mode := m } none uid gid groups r mount).map (·.allowed) := by
  cases hmount : mount.isValid with
  | false =>
    have hrefused := fun attrs a groups => @planPermissionAccess_refused attrs uid gid r groups mount a hmount
    refine ⟨(fun h => nomatch h), fun _ a => hrefused attrs a groups, fun mode groups' _ => ?_, fun m => ?_⟩
    · rw [hrefused, hrefused]
    · rw [hrefused, hrefused]
  | true =>
    refine ⟨fun _ => plan_grants hacl hmount huid hr, (fun h => nomatch h), fun mode groups' hgroups => ?_,
      fun m => minimal_access m hmount huid hr⟩
    obtain ⟨d, hd, hiff⟩ := @plan_grants attrs acl uid gid r groups mount hacl hmount huid hr
    obtain ⟨d', hd', hiff'⟩ := @plan_grants { attrs with mode } acl uid gid r groups' mount hacl hmount huid hr
    rw [hd, hd']
    show Except.ok d'.allowed = Except.ok d.allowed
    rw [Bool.eq_iff_iff.mpr (hiff'.trans ((grants_congr hgroups).trans hiff.symm))]

/-- Two groups of the caller that together have what is requested, and neither does. -/
def splitRights : List PosixAclEntry :=
  [⟨aclUserObj, 7, 0⟩, ⟨aclGroupObj, 0, 0⟩, ⟨aclGroup, 4, 100⟩, ⟨aclGroup, 2, 200⟩, ⟨aclMask, 7, 0⟩, ⟨aclOther, 7, 0⟩]

/-- Read and write are not granted together. -/
theorem access_is_posix_splitRights : ¬ Grants splitRights 1 1 5 100 [200, 300] 6 ∧
    (planPermissionAccess ⟨1, 1, 0o777⟩ (some splitRights) 5 100 [300, 200, 300] 6 ⟨[], 1⟩).map (·.allowed) = .ok false := by
  obtain ⟨h1, _, h2, _⟩ := access_is_posix splitRights (by decide) ⟨1, 1, 0⟩ 5 100 (by decide) [200, 300] 6 (by decide) ⟨[], 1⟩
  obtain ⟨d, hd, hiff⟩ := h1 rfl
  have hdenied : (planPermissionAccess ⟨1, 1, 0⟩ (some splitRights) 5 100 [200, 300] 6 ⟨[], 1⟩).map (·.allowed) = .ok false := by
    rfl
  have hsame := (h2 0o777 [300, 200, 300] (by simp [or_comm])).trans hdenied
  rw [hd] at hdenied
  refine ⟨fun hgrants => ?_, hsame⟩
  rw [Except.map, hiff.mpr hgrants] at hdenied
  exact nomatch hdenied

end Permission
end Tidefs
