/-
# Checking a tree-backed map

`validate` goes over the extents of a map: they are in order, none could be joined with
the one before it, data lies within the file, and each has a locator exactly if it
holds data; then it compares the counts of the header and checks the tree. Version 2
adds up ends with a check for overflow, version 3 also compares page counts and depth.

`rebuild_from_ordered_entries` makes a map of a stream of extents and checks it. On
extents in order it always gets to the check (`rebuildFromOrderedEntries_spec`), and
the check passes if the extents are joined as far as they can be and have their
locators (`Storable`).
-/
import Tidefs.Btree.Stream
import Tidefs.ExtentMap.Inline
import Tidefs.Lib.Codec

namespace Tidefs.ExtentMap

open Word Btree Ordered Spans Spans.HasSpan ExtentMapEntryV2 MapHeader List Option Except MultiLevelBTreeExtentMap BTreeExtentMap

/-! ### The loop over the extents -/

/-- The check against the extent before, of which the end is given. -/
def checkNext (previous : Option (ℕ × ExtentMapEntryV2)) (e : ExtentMapEntryV2) : Outcome Unit :=
  match previous with
  | none => .ok ()
  | some (prevEnd, prev) =>
    if e.logicalOffset < prevEnd then .error .overlappingExtent
    else if e.logicalOffset = prevEnd ∧ e.extentType = prev.extentType ∧ e.locatorId = prev.locatorId ∧
      e.checksum = prev.checksum then .error .corrupt
    else .ok ()

/-- `checked_add` of the length of an extent that takes up space. -/
def addSpace (total : ℕ) (e : ExtentMapEntryV2) : Outcome ℕ :=
  if e.extentType.consumesSpace then
    if u64Max < total + e.length then .error .corrupt else .ok (total + e.length)
  else .ok total

def checkLocator (e : ExtentMapEntryV2) : Outcome Unit :=
  if e.isUnwritten && e.locatorId ≠ LocatorId.none then .error .corrupt
  else if (e.isData || e.isPendingData) && e.locatorId = LocatorId.none then .error .corrupt
  else .ok ()

/-- The loop of `validate`: the number of the extents and the space they take up. The
versions report an empty extent differently and differ in how its end is computed. -/
def validateLoop (emptyError : ExtentMapError) (endOf : ExtentMapEntryV2 → Outcome ℕ) (fileSize : ℕ) :
    Option (ℕ × ExtentMapEntryV2) → ℕ → ℕ → List ExtentMapEntryV2 → Outcome (ℕ × ℕ)
  | _, count, alloc, [] => .ok (count, alloc)
  | previous, count, alloc, e :: es =>
    if e.length = 0 then .error emptyError
    else do
      let stop ← endOf e
      checkNext previous e
      if fileSize < stop && !e.isUnwritten then .error .corrupt
      else
        let alloc ← addSpace alloc e
        checkLocator e
        validateLoop emptyError endOf fileSize (some (stop, e)) (count + 1) alloc es

variable (P : Params)

/-- The result of the check of the tree, as the maps report it. -/
def treeOutcome : Except BTreeError Unit → Outcome Unit
  | .error _ => .error .corrupt
  | .ok () => .ok ()

def BTreeExtentMap.validate (m : BTreeExtentMap) : Option (Outcome Unit) :=
  (m.scan .unbounded .unbounded).bind fun es =>
    let endOf := fun e : ExtentMapEntryV2 =>
      if u64Max < e.logicalOffset + e.length then .error .corrupt else .ok (e.logicalOffset + e.length)
    match validateLoop .corrupt endOf m.header.fileSize none 0 0 es with
    | .error e => some (.error e)
    | .ok (actualCount, expectedAlloc) =>
      if m.header.entryCount ≠ actualCount then some (.error .corrupt)
      else if m.header.allocBytes ≠ expectedAlloc then some (.error .corrupt)
      else (m.tree.validate P).map treeOutcome

def MultiLevelBTreeExtentMap.validate (m : MultiLevelBTreeExtentMap) : Option (Outcome Unit) :=
  (m.scan .unbounded .unbounded).bind fun es =>
    match validateLoop .invalidRange (fun e => .ok e.endOffset) m.header.fileSize none 0 0 es with
    | .error e => some (.error e)
    | .ok (entryCount, computedAlloc) =>
      if entryCount ≠ m.header.entryCount then some (.error .corrupt)
      else if computedAlloc ≠ m.header.allocBytes then some (.error .corrupt)
      else if (if m.tree.isEmpty then 0 else asU32 m.tree.leafCount) ≠ m.header.leafCount ∨
        (if m.tree.isEmpty then 0 else asU32 m.tree.internalCount) ≠ m.header.internalCount then some (.error .corrupt)
      else
        (m.tree.validate P).map fun r =>
          match treeOutcome r with
          | .error e => .error e
          | .ok () => if maxDepth < m.header.depth then .error .mapFull else .ok ()

/-! ### Maps from ordered entries -/

/-- The stream the tree is built from: each entry once its length was added up and its
end computed. -/
def orderedItems : ℕ → List ExtentMapEntryV2 → List (Outcome (ℕ × ExtentMapEntryV2))
  | _, [] => []
  | alloc, e :: es =>
    match addSpace alloc e with
    | .error err => .error err :: orderedItems alloc es
    | .ok alloc =>
      (if u64Max < e.logicalOffset + e.length then .error .corrupt else .ok (e.logicalOffset, e)) ::
        orderedItems alloc es

variable {H : Type} [MapHeader H]

/-- `rebuild_from_ordered_entries`, with the checks of the version. If the stream was
read to its end the sum of the lengths has not overflowed. -/
def rebuildFromOrderedEntries (check : TreeMap H → Option (Outcome Unit)) (m : TreeMap H)
    (entries : List ExtentMapEntryV2) (sourceFileSize : ℕ) : Option (Outcome (TreeMap H)) :=
  (BPlusTree.rebuildFromUnknownLen P (orderedItems 0 entries)).bind fun
    | .error (.source err) => some (.error err)
    | .error (.tree _) => some (.error .corrupt)
    | .ok tree =>
      tree.depth.bind fun depth =>
        let fileSize := entries.foldl (fun fileSize e => max fileSize (e.logicalOffset + e.length)) sourceFileSize
        let m := (⟨refresh m.header tree depth entries, tree⟩ : TreeMap H).setFileSize fileSize
        (check m).map fun r => r.map fun _ => m

/-- `map_err(|_| ExtentMapError::Corrupt)`. -/
def orCorrupt : Outcome Unit → Outcome Unit
  | .error _ => .error .corrupt
  | .ok () => .ok ()

/-- The checks of version 2 after the rebuild. -/
def BTreeExtentMap.checkRebuilt (m : BTreeExtentMap) : Option (Outcome Unit) :=
  (BTreeExtentMap.validate P m).map orCorrupt

def MultiLevelBTreeExtentMap.checkRebuilt (m : MultiLevelBTreeExtentMap) : Option (Outcome Unit) :=
  match checkDepth m with
  | .error e => some (.error e)
  | .ok () => (MultiLevelBTreeExtentMap.validate P m).map orCorrupt

def BTreeExtentMap.rebuildFromOrderedEntries (m : BTreeExtentMap) (entries : List ExtentMapEntryV2)
    (sourceFileSize : ℕ) : Option (Outcome BTreeExtentMap) :=
  ExtentMap.rebuildFromOrderedEntries P (BTreeExtentMap.checkRebuilt P) m entries sourceFileSize

def MultiLevelBTreeExtentMap.rebuildFromOrderedEntries (m : MultiLevelBTreeExtentMap)
    (entries : List ExtentMapEntryV2) (sourceFileSize : ℕ) : Option (Outcome MultiLevelBTreeExtentMap) :=
  ExtentMap.rebuildFromOrderedEntries P (MultiLevelBTreeExtentMap.checkRebuilt P) m entries sourceFileSize

/-! ### What passes -/

/-- A locator exactly if there is data. -/
def ExtentMapEntryV2.Located (e : ExtentMapEntryV2) : Prop :=
  (e.isUnwritten = true → e.locatorId = LocatorId.none) ∧
    (e.isData = true ∨ e.isPendingData = true → e.locatorId ≠ LocatorId.none)

/-- No extent could be joined with the next. -/
def Unjoined (es : List ExtentMapEntryV2) : Prop := es.IsChain fun a b => ¬ Joins a b

/-- Extents a check lets pass, in a file of the size. -/
structure Storable (fileSize : ℕ) (es : List ExtentMapEntryV2) : Prop where
  layout : Layout es
  unjoined : Unjoined es
  within : Within fileSize es
  located : ∀ e ∈ es, e.Located

/-- The space the extents take up. -/
def spaceOf (es : List ExtentMapEntryV2) : ℕ := ((es.filter fun e => e.extentType.consumesSpace).map (·.length)).sum

theorem spaceOf_cons (e : ExtentMapEntryV2) (es : List ExtentMapEntryV2) :
    spaceOf (e :: es) = (if e.extentType.consumesSpace then e.length else 0) + spaceOf es := by
  unfold spaceOf
  rw [filter_cons]
  split_ifs
  · rfl
  · exact (zero_add _).symm

variable {P} {es : List ExtentMapEntryV2} {m m' : TreeMap H}

/-- Extents in order take up no more space than there is from where they start. -/
theorem space_le : ∀ {es : List ExtentMapEntryV2} {a : ℕ}, Layout es → (∀ e ∈ es, a ≤ lo e) → a ≤ u64Max →
    a + spaceOf es ≤ u64Max
  | [], _, _, _, ha => ha
  | e :: es, a, h, hlo, _ => by
    obtain ⟨-, hfit, hes, hapart⟩ := Layout.cons_iff.mp h
    have hrec := @space_le es (hi e) hes hapart hfit
    have hle := hlo e (mem_cons_self ..)
    rw [spaceOf_cons]
    rw [lo_eq] at hle
    rw [hi_eq] at hrec
    split_ifs <;> omega

theorem allocatedBytes_eq (h : Layout es) : allocatedBytes es = spaceOf es := by
  have hle := space_le h (fun _ _ => Nat.zero_le _) (Nat.zero_le _)
  rw [Nat.zero_add] at hle
  exact wrap64_of_le hle

variable {e : ExtentMapEntryV2}

theorem addSpace_eq {total : ℕ} (h : total + spaceOf (e :: es) ≤ u64Max) :
    ∃ total', addSpace total e = .ok total' ∧ total' + spaceOf es = total + spaceOf (e :: es) := by
  rw [spaceOf_cons] at h ⊢
  unfold addSpace
  by_cases hc : e.extentType.consumesSpace = true
  · rw [if_pos hc] at h ⊢
    refine ⟨total + e.length, ?_, by rw [if_pos hc, add_assoc]⟩
    rw [if_neg (by omega)]
  · refine ⟨total, if_neg hc, ?_⟩
    rw [if_neg hc, zero_add]

theorem checkLocator_iff : checkLocator e = .ok () ↔ e.Located := by
  unfold checkLocator ExtentMapEntryV2.Located
  split_ifs with h1 h2
  · rw [Bool.and_eq_true, decide_eq_true_eq] at h1
    exact ⟨nofun, fun h => absurd (h.1 h1.1) h1.2⟩
  · rw [Bool.and_eq_true, Bool.or_eq_true, decide_eq_true_eq] at h2
    exact ⟨nofun, fun h => absurd h2.2 (h.2 h2.1)⟩
  · rw [Bool.and_eq_true, decide_eq_true_eq, not_and, not_not] at h1
    rw [Bool.and_eq_true, Bool.or_eq_true, decide_eq_true_eq, not_and] at h2
    exact ⟨fun _ => ⟨h1, h2⟩, fun _ => rfl⟩

variable {previous : Option ExtentMapEntryV2}

theorem checkNext_iff (hl : Layout (previous.toList ++ e :: es)) :
    checkNext (previous.map fun p => (hi p, p)) e = .ok () ↔ ∀ p ∈ previous, ¬ Joins p e := by
  cases previous with
  | none => exact ⟨fun _ _ hp => (nomatch hp), fun _ => rfl⟩
  | some p =>
    obtain ⟨-, hfit, -, hapart⟩ := Layout.cons_iff.mp hl
    have hle := hapart e (mem_cons_self ..)
    have hjoins : (e.logicalOffset = hi p ∧ e.extentType = p.extentType ∧ e.locatorId = p.locatorId ∧
        e.checksum = p.checksum) ↔ Joins p e :=
      ⟨fun ⟨h1, h2, h3, h4⟩ => ⟨(endOffset_eq hfit).trans h1.symm, h2.symm, h3.symm, h4.symm⟩,
        fun ⟨h1, h2, h3, h4⟩ => ⟨h1.symm.trans (endOffset_eq hfit), h2.symm, h3.symm, h4.symm⟩⟩
    simp only [Option.mem_some_iff, forall_eq']
    show (if e.logicalOffset < hi p then _ else if _ then _ else _) = _ ↔ _
    rw [← lo_eq e, if_neg (not_lt.mpr hle), lo_eq, if_congr hjoins rfl rfl]
    split_ifs with h
    · exact ⟨nofun, fun hno => absurd h hno⟩
    · exact ⟨fun _ => h, fun _ => rfl⟩

theorem unjoined_next_iff : Unjoined (previous.toList ++ e :: es) ↔ (∀ p ∈ previous, ¬ Joins p e) ∧ Unjoined (e :: es) := by
  cases previous with
  | none => exact ⟨fun h => ⟨fun _ hp => (nomatch hp), h⟩, And.right⟩
  | some p =>
    simp only [Option.mem_some_iff, forall_eq']
    exact isChain_cons_cons

variable {fileSize : ℕ}

/-- Only space without data lies behind the end of the file. -/
theorem Storable.size_ok (h : Storable fileSize es) (he : e ∈ es) :
    ¬ (decide (fileSize < hi e) && !e.isUnwritten) = true := fun hc => by
  rw [Bool.and_eq_true, decide_eq_true_eq, Bool.not_eq_true'] at hc
  have hu : e.extentType ≠ .unwritten := fun hu => by
    rw [(isUnwritten_iff e).mpr hu] at hc
    exact Bool.noConfusion hc.2
  exact absurd (h.within e he hu) (not_le.mpr hc.1)

theorem Storable.tail
    (h : Storable fileSize (previous.toList ++ e :: es)) : Storable fileSize ((some e).toList ++ es) := by
  have hsuffix : e :: es <:+ previous.toList ++ e :: es := suffix_append ..
  exact ⟨(Layout.append_iff.mp h.layout).2.1, h.unjoined.suffix hsuffix, fun x hx => h.within x (hsuffix.subset hx),
    fun x hx => h.located x (hsuffix.subset hx)⟩

/-- **The loop counts extents that can be stored.** -/
theorem validateLoop_spec {emptyError : ExtentMapError} {endOf : ExtentMapEntryV2 → Outcome ℕ} {fileSize : ℕ}
    (hend : ∀ e, Fits e → endOf e = .ok (hi e)) : ∀ {es : List ExtentMapEntryV2} {previous : Option ExtentMapEntryV2}
    {count alloc : ℕ}, Storable fileSize (previous.toList ++ es) → alloc + spaceOf es ≤ u64Max →
    validateLoop emptyError endOf fileSize (previous.map fun p => (hi p, p)) count alloc es =
      .ok (count + es.length, alloc + spaceOf es)
  | [], _, _, _, _, _ => rfl
  | e :: es, previous, count, alloc, h, hsum => by
    have hmem : e ∈ previous.toList ++ e :: es := by simp
    have hpos := h.layout.tiles.pos e hmem
    have hfit := h.layout.fits e hmem
    have hsize := h.size_ok hmem
    have hrest := h.tail
    obtain ⟨alloc', h1, h2⟩ := addSpace_eq hsum
    have hrec := @validateLoop_spec emptyError endOf fileSize hend es (some e) (count + 1) alloc' hrest (by omega)
    have hlen : ¬ e.length = 0 := by rw [lo_eq, hi_eq] at hpos; omega
    rw [validateLoop, if_neg hlen, hend e hfit, (checkNext_iff h.layout).mpr (unjoined_next_iff.mp h.unjoined).1]
    simp only [bind, Except.bind]
    rw [if_neg hsize, h1]
    simp only
    rw [checkLocator_iff.mpr (h.located e hmem)]
    simp only
    rw [show (some (hi e, e)) = (some e).map fun p => (hi p, p) from rfl, hrec, h2, length_cons]
    congr 2
    omega

/-- **The loop lets no others pass.** -/
theorem validateLoop_passed {emptyError : ExtentMapError} {endOf : ExtentMapEntryV2 → Outcome ℕ} {fileSize : ℕ}
    (hend : ∀ e, Fits e → endOf e = .ok (hi e)) : ∀ {es : List ExtentMapEntryV2} {previous : Option ExtentMapEntryV2}
    {count alloc : ℕ} {r : ℕ × ℕ}, Layout (previous.toList ++ es) →
    validateLoop emptyError endOf fileSize (previous.map fun p => (hi p, p)) count alloc es = .ok r →
    Unjoined (previous.toList ++ es) ∧ ∀ e ∈ es, e.Located
  | [], previous, _, _, _, _, _ => by
    refine ⟨?_, fun _ he => nomatch he⟩
    cases previous with
    | none => exact isChain_nil
    | some p => exact isChain_singleton p
  | e :: es, previous, count, alloc, r, h, hloop => by
    have hfit := h.fits e (by simp)
    rw [validateLoop] at hloop
    split_ifs at hloop
    obtain ⟨stop, hstop, hloop⟩ := Codec.bind_eq_ok hloop
    obtain rfl : hi e = stop := ok.inj ((hend e hfit).symm.trans hstop)
    obtain ⟨⟨⟩, hnext, hloop⟩ := Codec.bind_eq_ok hloop
    split_ifs at hloop
    obtain ⟨alloc', -, hloop⟩ := Codec.bind_eq_ok hloop
    obtain ⟨⟨⟩, hlocator, hloop⟩ := Codec.bind_eq_ok hloop
    obtain ⟨hj, hl⟩ := @validateLoop_passed emptyError endOf fileSize hend es (some e) (count + 1) alloc' r
      (Layout.append_iff.mp h).2.1 hloop
    exact ⟨unjoined_next_iff.mpr ⟨(checkNext_iff h).mp hnext, hj⟩, forall_mem_cons.mpr ⟨checkLocator_iff.mp hlocator, hl⟩⟩

theorem BTreeExtentMap.validate_eq_ok (hP : P.Valid) {m : BTreeExtentMap} (h : Sound P m)
    (hs : Storable m.header.fileSize m.extents) (hc : m.header.entryCount = m.extents.length)
    (ha : m.header.allocBytes = allocatedBytes m.extents) : validate P m = some (.ok ()) := by
  obtain ⟨om, h1, -⟩ := h.refines
  have hspace := space_le hs.layout (fun _ _ => Nat.zero_le _) (Nat.zero_le _)
  have hloop := @validateLoop_spec .corrupt
    (fun e => if u64Max < e.logicalOffset + e.length then .error .corrupt else .ok (e.logicalOffset + e.length))
    m.header.fileSize (fun e he => if_neg (not_lt.mpr he)) m.extents none 0 0 hs hspace
  rw [validate, h.scan_all hP, bind_some]
  dsimp only
  rw [show (none : Option (ℕ × ExtentMapEntryV2)) = none.map fun p => (hi p, p) from rfl, hloop]
  dsimp only
  rw [if_neg (by omega), ha, allocatedBytes_eq hs.layout, if_neg (by omega), Btree.validate_eq_ok hP h1]
  rfl

variable {m : MultiLevelBTreeExtentMap}

theorem MultiLevelBTreeExtentMap.validate_eq_ok (hP : P.Valid) (h : Sound P m)
    (hs : Storable m.header.fileSize m.extents) (hc : m.header.entryCount = m.extents.length)
    (ha : m.header.allocBytes = allocatedBytes m.extents)
    (hleaf : m.header.leafCount = if m.tree.isEmpty then 0 else asU32 m.tree.leafCount)
    (hinternal : m.header.internalCount = if m.tree.isEmpty then 0 else asU32 m.tree.internalCount)
    (hdepth : m.header.depth ≤ maxDepth) : validate P m = some (.ok ()) := by
  obtain ⟨om, h1, -⟩ := h.refines
  have hspace := space_le hs.layout (fun _ _ => Nat.zero_le _) (Nat.zero_le _)
  have hloop := @validateLoop_spec .invalidRange (fun e => .ok e.endOffset) m.header.fileSize
    (fun e he => congrArg ok (endOffset_eq he)) m.extents none 0 0 hs hspace
  rw [validate, h.scan_all hP, bind_some]
  rw [show (none : Option (ℕ × ExtentMapEntryV2)) = none.map fun p => (hi p, p) from rfl, hloop]
  dsimp only
  rw [if_neg (by omega), ha, allocatedBytes_eq hs.layout, if_neg (by omega), hleaf, hinternal, if_neg (by simp),
    Btree.validate_eq_ok hP h1, map_some]
  exact congrArg some (if_neg (not_lt.mpr hdepth))

theorem BTreeExtentMap.passed_of_validate (hP : P.Valid) {m : BTreeExtentMap} (h : Sound P m)
    (hok : validate P m = some (.ok ())) : Unjoined m.extents ∧ ∀ e ∈ m.extents, e.Located := by
  rw [validate, h.scan_all hP, bind_some] at hok
  dsimp only at hok
  split at hok
  · cases hok
  · rename_i hloop
    exact @validateLoop_passed _ _ _ (fun e he => if_neg (not_lt.mpr he)) _ none _ _ _ h.layout hloop

theorem MultiLevelBTreeExtentMap.passed_of_validate (hP : P.Valid) (h : Sound P m)
    (hok : validate P m = some (.ok ())) : Unjoined m.extents ∧ ∀ e ∈ m.extents, e.Located := by
  rw [validate, h.scan_all hP, bind_some] at hok
  split at hok
  · cases hok
  · rename_i hloop
    exact @validateLoop_passed _ _ _ (fun e he => congrArg ok (endOffset_eq he)) _ none _ _ _ h.layout hloop

/-- The check comes to a result on every sound map. -/
theorem BTreeExtentMap.validate_isSome (hP : P.Valid) {m : BTreeExtentMap} (h : Sound P m) :
    ∃ r, validate P m = some r := by
  obtain ⟨om, h1, -⟩ := h.refines
  rw [validate, h.scan_all hP, bind_some, Btree.validate_eq_ok hP h1]
  dsimp only
  split
  · exact ⟨_, rfl⟩
  · split_ifs <;> exact ⟨_, rfl⟩

theorem MultiLevelBTreeExtentMap.validate_isSome (hP : P.Valid) (h : Sound P m) :
    ∃ r, validate P m = some r := by
  obtain ⟨om, h1, -⟩ := h.refines
  rw [validate, h.scan_all hP, bind_some, Btree.validate_eq_ok hP h1]
  split
  · exact ⟨_, rfl⟩
  · split_ifs <;> exact ⟨_, rfl⟩

/-! ### Rebuilding from ordered entries -/

theorem orderedItems_eq : ∀ {es : List ExtentMapEntryV2} {alloc : ℕ}, Layout es → alloc + spaceOf es ≤ u64Max →
    orderedItems alloc es = (es.map fun e => (lo e, e)).map ok
  | [], _, _, _ => rfl
  | e :: es, alloc, h, hsum => by
    obtain ⟨-, hfit, hes, -⟩ := Layout.cons_iff.mp h
    obtain ⟨alloc', h1, h2⟩ := addSpace_eq hsum
    rw [orderedItems, h1]
    dsimp only
    rw [if_neg (not_lt.mpr hfit), orderedItems_eq hes (by omega)]
    rfl

/-- Extents in order, by their offsets. -/
def Layout.keyed (h : Layout es) : OrdMap ℕ ExtentMapEntryV2 :=
  ⟨es.map fun e => (lo e, e), List.pairwise_map.mpr h.tiles.ascend⟩

omit [MapHeader H] in
theorem Layout.extents_of_refines (h : Layout es) {t : BPlusTree ℕ ExtentMapEntryV2} (ht : Refines P t h.keyed)
    (header : H) : (⟨header, t⟩ : TreeMap H).extents = es := by
  show t.entries.map Prod.snd = es
  rw [ht.entries]
  show (es.map _).map Prod.snd = es
  rw [List.map_map]
  exact map_id _

omit [MapHeader H] in
theorem Layout.sound_of_refines (h : Layout es) {t : BPlusTree ℕ ExtentMapEntryV2} (ht : Refines P t h.keyed)
    (header : H) : Sound P (⟨header, t⟩ : TreeMap H) := by
  have hes := h.extents_of_refines ht header
  refine ⟨⟨h.keyed, ht, ?_⟩, hes.symm ▸ h⟩
  rw [hes]
  rfl

/-- **Extents in order are rebuilt up to the check.** -/
theorem rebuildFromOrderedEntries_spec (hP : P.Valid) (h : Layout es) (check : TreeMap H → Option (Outcome Unit))
    (m : TreeMap H) (sourceFileSize : ℕ) : ∃ m' : TreeMap H, ∃ depth,
      rebuildFromOrderedEntries P check m es sourceFileSize = (check m').map (fun r => r.map fun _ => m') ∧
      Sound P m' ∧ m'.extents = es ∧ sourceFileSize ≤ m'.fileSize ∧ (∀ e ∈ es, hi e ≤ m'.fileSize) ∧
      m'.tree.depth = some depth ∧
      m'.header = setFileSize (refresh m.header m'.tree depth es) m'.fileSize := by
  obtain ⟨t, h1, h2⟩ := @streamed_spec P ℕ ExtentMapEntryV2 ExtentMapError _ hP h.keyed
  obtain ⟨depth, hd⟩ := h2.depth
  have hspace := space_le h (fun _ _ => Nat.zero_le _) (Nat.zero_le _)
  obtain ⟨h3, h4⟩ := le_foldl_max hi es sourceFileSize
  refine ⟨(⟨refresh m.header t depth es, t⟩ : TreeMap H).setFileSize
    (es.foldl (fun size e => max size (e.logicalOffset + e.length)) sourceFileSize), depth, ?_,
    h.sound_of_refines h2 _, h.extents_of_refines h2 _, ?_, ?_, hd, ?_⟩
  · rw [rebuildFromOrderedEntries, orderedItems_eq h hspace]
    show (BPlusTree.rebuildFromUnknownLen P (h.keyed.entries.map ok)).bind _ = _
    rw [h1, bind_some]
    dsimp only
    rw [hd, bind_some]
  · rw [fileSize_setFileSize]
    exact h3
  · rw [fileSize_setFileSize]
    exact h4
  · rw [fileSize_setFileSize]
    rfl

/-- The number of extents a tree deeper than the greatest depth has at least. -/
def deepLimit (P : Params) : ℕ := 2 * (P.minInternal ^ 5 * P.minLeaf)

omit [MapHeader H] in
theorem depth_le_of_few (hP : P.Valid) (h : Sound P m) (hfew : m.extents.length < deepLimit P) {depth : ℕ}
    (hd : m.tree.depth = some depth) : depth ≤ maxDepth := by
  obtain ⟨om, h1, h2⟩ := h.refines
  have hlen : om.entries.length < 2 * (P.minInternal ^ 5 * P.minLeaf) := by
    rw [h2, length_map]
    exact hfew
  obtain ⟨d, h3, h4⟩ := h1.depth_le hP hlen
  obtain rfl := some.inj (hd.symm.trans h3)
  exact h4

theorem settled_rebuilt [CountsEntries H] {m : TreeMap H} {depth size : ℕ} (h : Sound P m') (hes : m'.extents = es)
    (hsize : ∀ e ∈ es, hi e ≤ m'.fileSize)
    (hh : m'.header = setFileSize (refresh m.header m'.tree depth es) size) : Settled P m' := by
  refine ⟨h, ?_, fun e he _ => hsize e (hes ▸ he)⟩
  rw [Counted, hh, hes, CountsEntries.entryCount_setFileSize, CountsEntries.entryCount_refresh]

/-- **Extents in order become a map of version 2**, if the check passes, and it passes if
they are joined and have their locators. -/
theorem BTreeExtentMap.rebuilt_spec (hP : P.Valid) (h : Layout es) (m : BTreeExtentMap) (sourceFileSize : ℕ) :
    ∃ r, rebuildFromOrderedEntries P m es sourceFileSize = some r ∧
      (Unjoined es → (∀ e ∈ es, e.Located) → ∃ t, r = .ok t) ∧
      ∀ t, r = .ok t → Settled P t ∧ t.extents = es ∧ Unjoined es ∧ ∀ e ∈ es, e.Located := by
  obtain ⟨t, depth, h1, h2, h3, -, h5, -, h7⟩ := rebuildFromOrderedEntries_spec hP h
    (checkRebuilt P) m sourceFileSize
  obtain ⟨res, hres⟩ := validate_isSome hP h2
  refine ⟨_, h1.trans (by rw [checkRebuilt, hres]; rfl), fun hj hl => ?_, fun t' ht => ?_⟩
  · have hok : validate P t = some (.ok ()) := by
      refine validate_eq_ok hP h2 (h3.symm ▸ ⟨h, hj, fun e he _ => h5 e he, hl⟩) ?_ ?_
      · rw [h7, h3]
        rfl
      · rw [h7, h3]
        rfl
    obtain rfl := some.inj (hres.symm.trans hok)
    exact ⟨t, rfl⟩
  · cases res with
    | error e => exact nomatch ht
    | ok _ =>
      obtain rfl := ok.inj ht
      exact ⟨settled_rebuilt h2 h3 h5 h7, h3, h3 ▸ passed_of_validate hP h2 hres⟩

/-- The same for version 3, if the extents are not so many that the tree gets too deep. -/
theorem MultiLevelBTreeExtentMap.rebuilt_spec (hP : P.Valid) (h : Layout es) (m : MultiLevelBTreeExtentMap)
    (sourceFileSize : ℕ) : ∃ r, rebuildFromOrderedEntries P m es sourceFileSize = some r ∧
      (Unjoined es → (∀ e ∈ es, e.Located) → es.length < deepLimit P → ∃ t, r = .ok t) ∧
      ∀ t, r = .ok t → Settled P t ∧ t.extents = es ∧ Unjoined es ∧ ∀ e ∈ es, e.Located := by
  obtain ⟨t, depth, h1, h2, h3, -, h5, h6, h7⟩ := rebuildFromOrderedEntries_spec hP h
    (checkRebuilt P) m sourceFileSize
  obtain ⟨res, hres⟩ := validate_isSome hP h2
  have hdepth : t.header.depth = depth := by
    rw [h7]
    rfl
  have hcheck : checkRebuilt P t = some (if maxDepth < depth then .error .mapFull else orCorrupt res) := by
    rw [checkRebuilt, checkDepth, hdepth]
    split_ifs
    · rfl
    · rw [hres]
      rfl
  refine ⟨_, h1.trans (by rw [hcheck]; rfl), fun hj hl hfew => ?_, fun t' ht => ?_⟩
  · have hle := depth_le_of_few hP h2 (h3.symm ▸ hfew) h6
    have hok : validate P t = some (.ok ()) := by
      refine validate_eq_ok hP h2 (h3.symm ▸ ⟨h, hj, fun e he _ => h5 e he, hl⟩) ?_ ?_ ?_ ?_
        (hdepth.trans_le hle)
      · rw [h7, h3]
        rfl
      · rw [h7, h3]
        rfl
      · rw [h7]
        rfl
      · rw [h7]
        rfl
    obtain rfl := some.inj (hres.symm.trans hok)
    exact ⟨t, by rw [if_neg (not_lt.mpr hle)]; rfl⟩
  · split_ifs at ht
    · exact nomatch ht
    · cases res with
      | error e => exact nomatch ht
      | ok _ =>
        obtain rfl := ok.inj ht
        exact ⟨settled_rebuilt h2 h3 h5 h7, h3, h3 ▸ passed_of_validate hP h2 hres⟩

end Tidefs.ExtentMap
