/-
# The structure of an access ACL

An access list has one entry for the owner, one for the owning group and one for others,
at most one mask, and named users and groups that are named once. One pass over the
entries counts them, and a second looks for names that come twice.

What the check accepts is `WellFormed`: entries that have a tag of their own are found by
it, and named entries by their tag and id.
-/
import Mathlib

namespace Tidefs.PosixAcl

open List Option

def maxAclEntries : ℕ := 32

/-- File owner. -/
def aclUserObj : ℕ := 0x01
/-- Named user. -/
def aclUser : ℕ := 0x02
/-- File owning group. -/
def aclGroupObj : ℕ := 0x04
/-- Named group. -/
def aclGroup : ℕ := 0x08
/-- Maximum permissions for the group class. -/
def aclMask : ℕ := 0x10
/-- Everyone else. -/
def aclOther : ℕ := 0x20

def aclUndefinedId : ℕ := 2 ^ 32 - 1

structure PosixAclEntry where
  tag : ℕ
  perm : ℕ
  id : ℕ
deriving DecidableEq

/-- What makes a list of entries ill-formed. -/
inductive PosixAclStructureError where
  | tooManyEntries
  | invalidTag
  | invalidPerm
  | invalidSpecialEntryId
  | invalidQualifier
  | missingUserObj
  | missingGroupObj
  | missingOther
  | missingMaskForNamedEntries
  | duplicateUserObj
  | duplicateGroupObj
  | duplicateMask
  | duplicateOther
  | duplicateNamedUser
  | duplicateNamedGroup
  | invalidEntryOrder
deriving DecidableEq

def specialAclEntryIdIsValid (id : ℕ) : Bool := id = 0 ∨ id = aclUndefinedId

def namedAclEntryIdIsValid (id : ℕ) : Bool := id ≠ aclUndefinedId

def aclEntryOrderRank (tag : ℕ) : Option ℕ :=
  if tag = aclUserObj then some 0
  else if tag = aclUser then some 1
  else if tag = aclGroupObj then some 2
  else if tag = aclGroup then some 3
  else if tag = aclMask then some 4
  else if tag = aclOther then some 5
  else none

/-- Return the first entry with the given tag, if any. -/
def findEntry (acl : List PosixAclEntry) (tag : ℕ) : Option PosixAclEntry := acl.find? (·.tag = tag)

/-- What the pass over the entries keeps. -/
structure Tally where
  userObjCount : ℕ := 0
  groupObjCount : ℕ := 0
  maskCount : ℕ := 0
  otherCount : ℕ := 0
  hasNamedEntry : Bool := false
  lastOrderRank : Option ℕ := none

namespace Tally

/-- An entry without a name. -/
def special (e : PosixAclEntry) (t : Tally) : Except PosixAclStructureError Tally :=
  if specialAclEntryIdIsValid e.id then .ok t else .error .invalidSpecialEntryId

def named (e : PosixAclEntry) (t : Tally) : Except PosixAclStructureError Tally :=
  if namedAclEntryIdIsValid e.id then .ok { t with hasNamedEntry := true } else .error .invalidQualifier

def count (t : Tally) (e : PosixAclEntry) : Except PosixAclStructureError Tally :=
  if e.tag = aclUserObj then special e { t with userObjCount := t.userObjCount + 1 }
  else if e.tag = aclUser then named e t
  else if e.tag = aclGroupObj then special e { t with groupObjCount := t.groupObjCount + 1 }
  else if e.tag = aclGroup then named e t
  else if e.tag = aclMask then special e { t with maskCount := t.maskCount + 1 }
  -- the tag has a rank, so there is no other case
  else special e { t with otherCount := t.otherCount + 1 }

/-- The body of the loop over the entries. -/
def entry (t : Tally) (e : PosixAclEntry) : Except PosixAclStructureError Tally :=
  if 0x7 < e.perm then .error .invalidPerm
  else
    match aclEntryOrderRank e.tag with
    | none => .error .invalidTag
    | some orderRank =>
      if t.lastOrderRank.any (orderRank < ·) then .error .invalidEntryOrder
      else count { t with lastOrderRank := some orderRank } e

def scan (acl : List PosixAclEntry) : Except PosixAclStructureError Tally := acl.foldlM entry {}

/-- The checks after the loop. -/
def verdict (t : Tally) : Except PosixAclStructureError Unit :=
  if t.userObjCount = 0 then .error .missingUserObj
  else if 1 < t.userObjCount then .error .duplicateUserObj
  else if t.groupObjCount = 0 then .error .missingGroupObj
  else if 1 < t.groupObjCount then .error .duplicateGroupObj
  else if t.otherCount = 0 then .error .missingOther
  else if 1 < t.otherCount then .error .duplicateOther
  else if 1 < t.maskCount then .error .duplicateMask
  else if t.hasNamedEntry ∧ t.maskCount = 0 then .error .missingMaskForNamedEntries
  else .ok ()

end Tally

/-- The search for a name that comes twice. -/
def namedOnce : List PosixAclEntry → Except PosixAclStructureError Unit
  | [] => .ok ()
  | e :: later =>
    if e.tag ≠ aclUser ∧ e.tag ≠ aclGroup then namedOnce later
    else if later.any fun l => l.tag = e.tag ∧ l.id = e.id then
      .error (if e.tag = aclUser then .duplicateNamedUser else .duplicateNamedGroup)
    else namedOnce later

def validatePosixAclAccessStructure (acl : List PosixAclEntry) : Except PosixAclStructureError Unit :=
  if maxAclEntries < acl.length then .error .tooManyEntries
  else do
    let t ← Tally.scan acl
    t.verdict
    namedOnce acl

/-! ### What is accepted -/

def tagCount (acl : List PosixAclEntry) (tag : ℕ) : ℕ := acl.countP (·.tag = tag)

/-- An access list that the access check reads as it is meant. -/
structure WellFormed (acl : List PosixAclEntry) : Prop where
  userObj : tagCount acl aclUserObj = 1
  groupObj : tagCount acl aclGroupObj = 1
  other : tagCount acl aclOther = 1
  mask : tagCount acl aclMask ≤ 1
  named : ∀ a ∈ acl, ∀ b ∈ acl, a.tag = aclUser ∨ a.tag = aclGroup → a.tag = b.tag → a.id = b.id → a = b

variable {acl : List PosixAclEntry} {t t' : Tally} {e : PosixAclEntry}

/-- The counters of a pass are those of the entries it saw. -/
structure Tally.Counts (t t' : Tally) (acl : List PosixAclEntry) : Prop where
  userObj : t'.userObjCount = t.userObjCount + tagCount acl aclUserObj
  groupObj : t'.groupObjCount = t.groupObjCount + tagCount acl aclGroupObj
  mask : t'.maskCount = t.maskCount + tagCount acl aclMask
  other : t'.otherCount = t.otherCount + tagCount acl aclOther

theorem tagCount_cons (e : PosixAclEntry) (acl : List PosixAclEntry) (tag : ℕ) :
    tagCount (e :: acl) tag = tagCount acl tag + if e.tag = tag then 1 else 0 := by
  simp only [tagCount, countP_cons, decide_eq_true_eq]

theorem Tally.of_special (h : special e t = .ok t') : t' = t := by
  unfold special at h
  split_ifs at h
  exact (Except.ok.inj h).symm

theorem Tally.of_named (h : named e t = .ok t') : t' = { t with hasNamedEntry := true } := by
  unfold named at h
  split_ifs at h
  exact (Except.ok.inj h).symm

theorem Tally.count_spec (h : t.count e = .ok t') (hrank : aclEntryOrderRank e.tag ≠ none) : t.Counts t' [e] := by
  unfold count at h
  unfold aclEntryOrderRank at hrank
  split_ifs at h hrank with h1 h2 h3 h4 h5
  all_goals first
    | exact absurd rfl hrank
    | obtain rfl := of_special h
    | obtain rfl := of_named h
  all_goals
    constructor <;> simp [tagCount, *, aclUserObj, aclUser, aclGroupObj, aclGroup, aclMask, aclOther]

theorem Tally.Counts.cons {t'' : Tally} (h : t.Counts t' [e]) (h' : t'.Counts t'' acl) : t.Counts t'' (e :: acl) := by
  obtain ⟨a1, a2, a3, a4⟩ := h
  obtain ⟨b1, b2, b3, b4⟩ := h'
  simp only [tagCount_cons, show ∀ tag, tagCount [] tag = 0 from fun _ => rfl] at a1 a2 a3 a4
  constructor <;> rw [tagCount_cons] <;> omega

theorem Tally.entry_spec (h : t.entry e = .ok t') : t.Counts t' [e] := by
  unfold entry at h
  split_ifs at h with hperm
  split at h
  · exact nomatch h
  · rename_i orderRank hrank
    split_ifs at h
    have hcount := count_spec h (by rw [hrank]; exact some_ne_none _)
    exact ⟨hcount.userObj, hcount.groupObj, hcount.mask, hcount.other⟩

theorem Tally.foldlM_spec : ∀ {acl : List PosixAclEntry} {t t' : Tally}, acl.foldlM entry t = .ok t' → t.Counts t' acl
  | [], t, t', h => by
    obtain rfl := Except.ok.inj (show (.ok t : Except PosixAclStructureError Tally) = .ok t' from h)
    exact ⟨rfl, rfl, rfl, rfl⟩
  | e :: acl, t, t', h => by
    rw [foldlM_cons] at h
    cases hentry : t.entry e with
    | error x =>
      rw [hentry] at h
      exact nomatch h
    | ok t1 =>
      rw [hentry] at h
      exact (entry_spec hentry).cons (foldlM_spec h)

/-- **The pass** counts the entries under their tags. -/
theorem Tally.scan_spec (h : scan acl = .ok t) : t.userObjCount = tagCount acl aclUserObj ∧
    t.groupObjCount = tagCount acl aclGroupObj ∧ t.maskCount = tagCount acl aclMask ∧
    t.otherCount = tagCount acl aclOther := by
  obtain ⟨h1, h2, h3, h4⟩ := foldlM_spec h
  exact ⟨h1.trans (zero_add _), h2.trans (zero_add _), h3.trans (zero_add _), h4.trans (zero_add _)⟩

theorem Tally.of_verdict (h : t.verdict = .ok ()) :
    t.userObjCount = 1 ∧ t.groupObjCount = 1 ∧ t.otherCount = 1 ∧ t.maskCount ≤ 1 := by
  unfold verdict at h
  split_ifs at h
  omega

theorem of_namedOnce : ∀ {acl : List PosixAclEntry}, namedOnce acl = .ok () → ∀ a ∈ acl, ∀ b ∈ acl,
    a.tag = aclUser ∨ a.tag = aclGroup → a.tag = b.tag → a.id = b.id → a = b
  | e :: later, h, a, ha, b, hb, htag, heq, hid => by
    unfold namedOnce at h
    -- an entry that names someone is the last with that name
    have hlast : e.tag = aclUser ∨ e.tag = aclGroup → ∀ l ∈ later, l.tag = e.tag → l.id = e.id → False := by
      intro hnamed l hl h1 h2
      rw [if_neg fun hn => hnamed.elim hn.1 hn.2, if_pos] at h
      · exact nomatch h
      · exact any_eq_true.mpr ⟨l, hl, decide_eq_true ⟨h1, h2⟩⟩
    have hrest : namedOnce later = .ok () := by
      split_ifs at h
      · exact h
      · exact h
    rcases mem_cons.mp ha with ha' | ha' <;> rcases mem_cons.mp hb with hb' | hb'
    · rw [ha', hb']
    · subst ha'
      exact (hlast htag b hb' heq.symm hid.symm).elim
    · subst hb'
      exact (hlast (heq ▸ htag) a ha' heq hid).elim
    · exact of_namedOnce hrest a ha' b hb' htag heq hid

/-- **What the check accepts** is well formed. -/
theorem wellFormed_of_validate (h : validatePosixAclAccessStructure acl = .ok ()) : WellFormed acl := by
  unfold validatePosixAclAccessStructure at h
  split_ifs at h
  cases hscan : Tally.scan acl with
  | error x =>
    rw [hscan] at h
    exact nomatch h
  | ok t =>
    rw [hscan] at h
    cases hverdict : t.verdict with
    | error x =>
      replace h : (t.verdict >>= fun _ => namedOnce acl) = .ok () := h
      rw [hverdict] at h
      exact nomatch h
    | ok u =>
      replace h : (t.verdict >>= fun _ => namedOnce acl) = .ok () := h
      rw [hverdict] at h
      obtain ⟨h1, h2, h3, h4⟩ := Tally.scan_spec hscan
      obtain ⟨g1, g2, g3, g4⟩ := Tally.of_verdict hverdict
      exact ⟨h1 ▸ g1, h2 ▸ g2, h4 ▸ g3, h3 ▸ g4, of_namedOnce h⟩

/-! ### Finding entries -/

/-- The entry with a tag that is there at most once. -/
theorem findEntry_eq_some {tag : ℕ} (h : tagCount acl tag ≤ 1) :
    findEntry acl tag = some e ↔ e ∈ acl ∧ e.tag = tag := by
  constructor
  · intro hfind
    have htag := List.find?_some hfind
    exact ⟨mem_of_find?_eq_some hfind, of_decide_eq_true htag⟩
  · rintro ⟨hmem, htag⟩
    cases hfind : findEntry acl tag with
    | none => exact absurd (decide_eq_true htag) (List.find?_eq_none.mp hfind e hmem)
    | some e' =>
      have hmem' := mem_of_find?_eq_some hfind
      have htag' := List.find?_some hfind
      -- both are in the list of those with the tag, which has one element
      rw [tagCount, countP_eq_length_filter] at h
      have h1 : e ∈ acl.filter fun x => decide (x.tag = tag) := mem_filter.mpr ⟨hmem, decide_eq_true htag⟩
      have h2 : e' ∈ acl.filter fun x => decide (x.tag = tag) := mem_filter.mpr ⟨hmem', htag'⟩
      generalize acl.filter (fun x => decide (x.tag = tag)) = l at h h1 h2
      match l, h, h1, h2 with
      | [x], _, h1, h2 => rw [mem_singleton.mp h1, mem_singleton.mp h2]

theorem exists_findEntry {tag : ℕ} (h : tagCount acl tag = 1) : ∃ e, findEntry acl tag = some e := by
  have hpos : 0 < tagCount acl tag := by omega
  obtain ⟨e, hmem, htag⟩ := countP_pos_iff.mp hpos
  exact ⟨e, (findEntry_eq_some (le_of_eq h)).mpr ⟨hmem, of_decide_eq_true htag⟩⟩

end Tidefs.PosixAcl
