/-
# The deduplication table and its scanner

The table has an entry for each content hash: the locators with that content, of which the
first is the canonical one, and the number of consumers. The scanner visits the extents of
the listed inodes in the order of their numbers, a budgeted number at a time. An extent
whose content is in the table under another locator is redirected to the canonical one and
its own locator is freed at once.

The store records a redirect and leaves the extent; what an extent refers to is its own
locator until the last redirect of its range says otherwise (`current`).
-/
import Tidefs.ExtentMap.Inline
import Tidefs.Lib.Codec

namespace Tidefs.Dedup

open Word Ordered Codec ExtentMap List

variable {H : Type*}

/-! ### The table -/

/-- An entry always has a locator. -/
structure DedupEntry (H : Type*) where
  hash : H
  locators : List LocatorId
  refcount : ℕ
  logicalBytes : ℕ
  physicalBytes : ℕ
  located : locators ≠ []

namespace DedupEntry

def new (hash : H) (locator : LocatorId) (logicalBytes physicalBytes : ℕ) : DedupEntry H :=
  ⟨hash, [locator], 1, logicalBytes, physicalBytes, cons_ne_nil _ _⟩

def addConsumer (e : DedupEntry H) (logicalBytes : ℕ) : DedupEntry H :=
  { e with refcount := satAdd e.refcount 1, logicalBytes := satAdd e.logicalBytes logicalBytes }

/-- The entry, and whether that was its last consumer. -/
def removeConsumer (e : DedupEntry H) (logicalBytes : ℕ) : DedupEntry H × Bool :=
  ({ e with refcount := e.refcount - 1, logicalBytes := e.logicalBytes - logicalBytes }, e.refcount - 1 == 0)

def canonicalLocator (e : DedupEntry H) : LocatorId := e.locators.head e.located

def addLocator (e : DedupEntry H) (locator : LocatorId) : DedupEntry H :=
  if locator ∈ e.locators then e
  else { e with locators := e.locators ++ [locator], located := append_ne_nil_of_left_ne_nil e.located _ }

theorem canonicalLocator_addLocator (e : DedupEntry H) (locator : LocatorId) :
    (e.addLocator locator).canonicalLocator = e.canonicalLocator := by
  unfold addLocator
  split_ifs
  · rfl
  · exact head_append_of_ne_nil e.located

theorem refcount_addLocator (e : DedupEntry H) (locator : LocatorId) :
    (e.addLocator locator).refcount = e.refcount := by
  unfold addLocator
  split_ifs <;> rfl

end DedupEntry

/-- Whether a canonical extent has consumers left. -/
inductive RemoveConsumerOutcome where
  | stillAlive
  | canonicalDead (canonicalLocator : LocatorId)
deriving DecidableEq

structure DedupStats where
  uniqueHashes : ℕ
  totalRefcount : ℕ
  logicalBytesTotal : ℕ
  physicalBytesTotal : ℕ
  bytesSaved : ℕ

/-- The canonical extent of each hash. -/
structure DedupTable (H : Type*) [LinearOrder H] where
  entries : OrdMap H (DedupEntry H)
  stats : DedupStats

variable [LinearOrder H]

namespace DedupTable

def new : DedupTable H := ⟨.empty, 0, 0, 0, 0, 0⟩

def lookup (t : DedupTable H) (hash : H) : Option (DedupEntry H) := t.entries.get? hash

/-- A hash that is there already keeps its entry. -/
def insert (t : DedupTable H) (hash : H) (locator : LocatorId) (logicalBytes physicalBytes : ℕ) :
    DedupTable H × Except (DedupEntry H) Unit :=
  match t.lookup hash with
  | some e => (t, .error e)
  | none =>
    (⟨t.entries.insert hash (.new hash locator logicalBytes physicalBytes), { t.stats with
        uniqueHashes := satAdd t.stats.uniqueHashes 1
        totalRefcount := satAdd t.stats.totalRefcount 1
        logicalBytesTotal := satAdd t.stats.logicalBytesTotal logicalBytes
        physicalBytesTotal := satAdd t.stats.physicalBytesTotal physicalBytes }⟩, .ok ())

def addConsumer (t : DedupTable H) (hash : H) (duplicateLocator : LocatorId) (logicalBytes : ℕ) :
    DedupTable H × Option LocatorId :=
  match t.lookup hash with
  | none => (t, none)
  | some e =>
    let entry := (e.addConsumer logicalBytes).addLocator duplicateLocator
    (⟨t.entries.insert hash entry, { t.stats with
        totalRefcount := satAdd t.stats.totalRefcount 1
        logicalBytesTotal := satAdd t.stats.logicalBytesTotal logicalBytes
        bytesSaved := satAdd t.stats.bytesSaved logicalBytes }⟩, some entry.canonicalLocator)

def removeConsumer (t : DedupTable H) (hash : H) (logicalBytes : ℕ) : DedupTable H × RemoveConsumerOutcome :=
  match t.lookup hash with
  | none => (t, .stillAlive)
  | some e =>
    if (e.removeConsumer logicalBytes).2 then
      (⟨t.entries.erase hash, { t.stats with
          uniqueHashes := t.stats.uniqueHashes - 1
          bytesSaved := t.stats.bytesSaved - logicalBytes }⟩, .canonicalDead e.canonicalLocator)
    else
      (⟨t.entries.insert hash (e.removeConsumer logicalBytes).1, { t.stats with
          totalRefcount := t.stats.totalRefcount - 1
          logicalBytesTotal := t.stats.logicalBytesTotal - logicalBytes }⟩, .stillAlive)

def removeConsumers (hash : H) : DedupTable H → List ℕ → List RemoveConsumerOutcome
  | _, [] => []
  | t, bytes :: rest => (t.removeConsumer hash bytes).2 :: removeConsumers hash (t.removeConsumer hash bytes).1 rest

/-- **The canonical locator is dead with its last consumer, and not before.** -/
theorem removeConsumers_outcomes {hash : H} : ∀ {n : ℕ} {t : DedupTable H} {e : DedupEntry H} {sizes : List ℕ},
    t.lookup hash = some e → e.refcount = n + 1 → sizes.length = n + 1 →
      t.removeConsumers hash sizes = List.replicate n .stillAlive ++ [.canonicalDead e.canonicalLocator]
  | n, t, e, [], _, _, hsizes => by cases hsizes
  | 0, t, e, [bytes], he, hcount, _ => by
    have hlast : (e.removeConsumer bytes).2 = true := by simp [DedupEntry.removeConsumer, hcount]
    simp [removeConsumers, removeConsumer, he, hlast]
  | 0, t, e, _ :: _ :: _, _, _, hsizes => by simp at hsizes
  | n + 1, t, e, bytes :: rest, he, hcount, hsizes => by
    have hmore : (e.removeConsumer bytes).2 = false := by simp [DedupEntry.removeConsumer, hcount]
    have hstep : t.removeConsumer hash bytes = (⟨t.entries.insert hash (e.removeConsumer bytes).1, { t.stats with
          totalRefcount := t.stats.totalRefcount - 1
          logicalBytesTotal := t.stats.logicalBytesTotal - bytes }⟩, .stillAlive) := by
      unfold removeConsumer
      rw [he]
      dsimp only
      rw [hmore]
      rfl
    have hnext : (t.removeConsumer hash bytes).1.lookup hash = some (e.removeConsumer bytes).1 := by
      rw [hstep]
      exact (OrdMap.get?_insert _ _ _ _).trans (if_pos rfl)
    have hrefcount : (e.removeConsumer bytes).1.refcount = n + 1 := by simp [DedupEntry.removeConsumer, hcount]
    have hrest : rest.length = n + 1 := by simpa using hsizes
    rw [removeConsumers, removeConsumers_outcomes hnext hrefcount hrest, hstep]
    rfl

end DedupTable

/-! ### What the scanner works on -/

/-- A redirect of the extent at a range of an inode. -/
structure Update where
  ino : ℕ
  logicalOffset : ℕ
  length : ℕ
  newLocator : LocatorId
deriving DecidableEq

/-- An inode without extents reads as an empty list. -/
structure ExtentStore where
  inodes : List ℕ
  extents : ℕ → List ExtentMapEntryV2
  updatedLocators : List Update

namespace ExtentStore

def listInodes (store : ExtentStore) : List ℕ := store.inodes

def getExtents (store : ExtentStore) (ino : ℕ) : List ExtentMapEntryV2 := store.extents ino

def updateExtentLocator (store : ExtentStore) (ino logicalOffset length : ℕ) (newLocator : LocatorId) : ExtentStore :=
  { store with updatedLocators := store.updatedLocators ++ [⟨ino, logicalOffset, length, newLocator⟩] }

end ExtentStore

structure PayloadReader where
  payloads : OrdMap LocatorId (List UInt8)

def PayloadReader.readPayload (reader : PayloadReader) (locator : LocatorId) : Option (List UInt8) :=
  reader.payloads.get? locator

structure ExtentFreer where
  freed : List LocatorId

def ExtentFreer.freeExtent (freer : ExtentFreer) (locator : LocatorId) : ExtentFreer := ⟨freer.freed ++ [locator]⟩

structure DedupScannerStats where
  extentsScanned : ℕ
  duplicatesFound : ℕ
  bytesSaved : ℕ
  inodesScanned : ℕ

/-- What the visit of an extent may change. -/
structure Scan (H : Type*) [LinearOrder H] where
  ddt : DedupTable H
  extentStore : ExtentStore
  extentFreer : Option ExtentFreer
  scannerStats : DedupScannerStats

def dedupEligible (e : ExtentMapEntryV2) : Bool := e.flags &&& 1 != 0

def setDedupEligible (e : ExtentMapEntryV2) (eligible : Bool) : ExtentMapEntryV2 :=
  { e with flags := if eligible then e.flags ||| 1 else e.flags &&& ~~~1 }

def makeDataExtent (logicalOffset length : ℕ) (locatorId : LocatorId) (eligible : Bool) (checksum : Btree.Digest) :
    ExtentMapEntryV2 :=
  setDedupEligible (.newData logicalOffset length locatorId checksum 1) eligible

def processOneExtent (hash : List UInt8 → H) (reader : PayloadReader) (c : Scan H) (ino : ℕ)
    (entry : ExtentMapEntryV2) : Scan H :=
  let c := { c with
    scannerStats := { c.scannerStats with extentsScanned := satAdd c.scannerStats.extentsScanned 1 } }
  if !entry.isData || !dedupEligible entry || entry.locatorId = LocatorId.none then c
  else
    let locator := entry.locatorId
    match reader.readPayload locator with
    | none => c
    | some payload =>
      let h := hash payload
      match c.ddt.lookup h with
      | some existing =>
        let canonical := existing.canonicalLocator
        if canonical = locator then c
        else
          ⟨(c.ddt.addConsumer h locator entry.length).1,
            c.extentStore.updateExtentLocator ino entry.logicalOffset entry.length canonical,
            c.extentFreer.map (·.freeExtent locator), { c.scannerStats with
              duplicatesFound := satAdd c.scannerStats.duplicatesFound 1
              bytesSaved := satAdd c.scannerStats.bytesSaved entry.length }⟩
      | none => { c with ddt := (c.ddt.insert h locator entry.length entry.length).1 }

/-! ### The scanner -/

/-- A scan over the inodes, with its cursor. -/
structure DedupScanner (H : Type*) [LinearOrder H] extends Scan H where
  jobId : ℕ
  payloadReader : PayloadReader
  inodeList : List ℕ
  inodeIndex : ℕ
  extentIndex : ℕ
  completed : Bool

/-- A step of a job that is complete. -/
inductive JobError where
  | jobAlreadyComplete (jobId : ℕ)

/-- The fields of a checkpoint that a step fills in. -/
structure Checkpoint where
  jobId : ℕ
  cursorState : List UInt8
  itemsProcessed : ℕ

structure StepResult where
  checkpoint : Checkpoint
  isComplete : Bool

def encodeCursor (inodeIndex extentIndex : ℕ) : List UInt8 := toLe 8 inodeIndex ++ toLe 8 extentIndex

namespace DedupScanner

variable (hash : List UInt8 → H)

def new (ddt : DedupTable H) (extentStore : ExtentStore) (payloadReader : PayloadReader)
    (extentFreer : Option ExtentFreer) : DedupScanner H :=
  { ddt, extentStore, extentFreer, scannerStats := ⟨0, 0, 0, 0⟩, jobId := 0, payloadReader
    inodeList := extentStore.listInodes.mergeSort (· ≤ ·)
    inodeIndex := 0, extentIndex := 0, completed := false }

/-- The loop over the extents of an inode, from the cursor on, with the number of extents visited. -/
def scanExtents (ino : ℕ) (extents : List ExtentMapEntryV2) (maxItems : ℕ) :
    ℕ → ℕ → DedupScanner H → DedupScanner H × ℕ
  | 0, processed, s => (s, processed)
  | left + 1, processed, s =>
    if processed < maxItems then
      match extents[s.extentIndex]? with
      | none => (s, processed)
      | some entry =>
        scanExtents ino extents maxItems left (processed + 1)
          { s with
            toScan := processOneExtent hash s.payloadReader s.toScan ino entry
            extentIndex := s.extentIndex + 1 }
    else (s, processed)

/-- The cursor moves to the next inode. -/
def nextInode (s : DedupScanner H) : DedupScanner H :=
  { s with
    extentIndex := 0
    inodeIndex := s.inodeIndex + 1
    scannerStats := { s.scannerStats with inodesScanned := satAdd s.scannerStats.inodesScanned 1 } }

/-- The loop over the inodes. -/
def scanInodes (maxItems : ℕ) : ℕ → ℕ → DedupScanner H → DedupScanner H × ℕ
  | 0, processed, s => (s, processed)
  | left + 1, processed, s =>
    if processed < maxItems then
      match s.inodeList[s.inodeIndex]? with
      | none => (s, processed)
      | some ino =>
        let extents := s.extentStore.getExtents ino
        let r := scanExtents hash ino extents maxItems extents.length processed s
        scanInodes maxItems left r.2 (if extents.length ≤ r.1.extentIndex then r.1.nextInode else r.1)
    else (s, processed)

/-- A budget of no items is no limit. -/
def itemLimit (maxItems : ℕ) : ℕ := if 0 < maxItems then maxItems else u64Max

def step (s : DedupScanner H) (maxItems : ℕ) : DedupScanner H × Except JobError StepResult :=
  if s.completed then (s, .error (.jobAlreadyComplete s.jobId))
  else
    let r := (scanInodes hash (itemLimit maxItems) (s.inodeList.length + 1) 0 s).1
    let isComplete := decide (r.inodeList.length ≤ r.inodeIndex)
    ({ r with completed := isComplete },
      .ok ⟨⟨r.jobId, encodeCursor r.inodeIndex r.extentIndex, r.scannerStats.extentsScanned⟩, isComplete⟩)

/-- Steps with the budgets given. -/
def run (s : DedupScanner H) (budgets : List ℕ) : DedupScanner H :=
  budgets.foldl (fun s maxItems => (s.step hash maxItems).1) s

/-- The loop over the extents leaves the list of inodes and the place in it. -/
theorem scanExtents_frame (ino maxItems : ℕ) (extents : List ExtentMapEntryV2) : ∀ (left processed : ℕ)
    (s : DedupScanner H), (scanExtents hash ino extents maxItems left processed s).1.inodeList = s.inodeList ∧
      (scanExtents hash ino extents maxItems left processed s).1.inodeIndex = s.inodeIndex
  | 0, _, _ => ⟨rfl, rfl⟩
  | left + 1, processed, s => by
    rw [scanExtents]
    split_ifs
    · cases extents[s.extentIndex]? with
      | none => exact ⟨rfl, rfl⟩
      | some entry => exact scanExtents_frame ino maxItems extents left (processed + 1) _
    · exact ⟨rfl, rfl⟩

theorem scanExtents_ends (ino maxItems : ℕ) (extents : List ExtentMapEntryV2) : ∀ (left processed : ℕ)
    (s : DedupScanner H), extents.length ≤ s.extentIndex + left →
    maxItems ≤ (scanExtents hash ino extents maxItems left processed s).2 ∨
      extents.length ≤ (scanExtents hash ino extents maxItems left processed s).1.extentIndex
  | 0, _, _, hleft => .inr hleft
  | left + 1, processed, s, hleft => by
    rw [scanExtents]
    split_ifs with hbudget
    · cases hentry : extents[s.extentIndex]? with
      | none => exact .inr (List.getElem?_eq_none_iff.mp hentry)
      | some entry => exact scanExtents_ends ino maxItems extents left (processed + 1) _ (by dsimp only; omega)
    · exact .inl (not_lt.mp hbudget)

/-- **The loop over the inodes ends** with the inodes or with the budget, never for want of turns. -/
theorem scanInodes_ends {maxItems : ℕ} : ∀ (left processed : ℕ) (s : DedupScanner H),
    s.inodeList.length < s.inodeIndex + left ∨ maxItems ≤ processed →
    maxItems ≤ (scanInodes hash maxItems left processed s).2 ∨
      (scanInodes hash maxItems left processed s).1.inodeList.length ≤
        (scanInodes hash maxItems left processed s).1.inodeIndex
  | 0, _, _, hleft => hleft.elim (fun h => .inr h.le) .inl
  | left + 1, processed, s, hleft => by
    rw [scanInodes]
    split_ifs with hbudget
    · cases hino : s.inodeList[s.inodeIndex]? with
      | none => exact .inr (List.getElem?_eq_none_iff.mp hino)
      | some ino =>
        obtain ⟨hlist, hindex⟩ := scanExtents_frame hash ino maxItems (s.extentStore.getExtents ino)
          (s.extentStore.getExtents ino).length processed s
        have hends := scanExtents_ends hash ino maxItems (s.extentStore.getExtents ino)
          (s.extentStore.getExtents ino).length processed s (Nat.le_add_left _ _)
        apply scanInodes_ends
        by_cases hfull : (s.extentStore.getExtents ino).length ≤
            (scanExtents hash ino (s.extentStore.getExtents ino) maxItems (s.extentStore.getExtents ino).length
              processed s).1.extentIndex
        · rw [if_pos hfull]
          refine .inl ?_
          simp only [nextInode, hlist, hindex]
          omega
        · exact .inr (hends.resolve_right hfull)
    · exact .inl (not_lt.mp hbudget)

end DedupScanner

/-! ### What an extent refers to -/

/-- An extent with its inode. -/
abbrev Extent := ℕ × ExtentMapEntryV2

/-- The redirect is one of this extent. -/
def Update.Redirects (u : Update) (x : Extent) : Prop :=
  u.ino = x.1 ∧ u.logicalOffset = x.2.logicalOffset ∧ u.length = x.2.length

instance (u : Update) (x : Extent) : Decidable (u.Redirects x) := inferInstanceAs (Decidable (_ ∧ _))

def current (updates : List Update) (x : Extent) : LocatorId :=
  updates.foldl (fun locator u => if u.Redirects x then u.newLocator else locator) x.2.locatorId

theorem current_append (updates : List Update) (u : Update) (x : Extent) :
    current (updates ++ [u]) x = if u.Redirects x then u.newLocator else current updates x := by
  unfold current
  rw [foldl_append]
  rfl

/-- A data extent that may be deduplicated. -/
def Eligible (e : ExtentMapEntryV2) : Prop :=
  e.isData = true ∧ dedupEligible e = true ∧ e.locatorId ≠ LocatorId.none

instance (e : ExtentMapEntryV2) : Decidable (Eligible e) := inferInstanceAs (Decidable (_ ∧ _))

/-- The hash under which the visit of an extent looks, if it comes to that. -/
def contentHash (hash : List UInt8 → H) (reader : PayloadReader) (e : ExtentMapEntryV2) : Option H :=
  if Eligible e then (reader.readPayload e.locatorId).map hash else none

omit [LinearOrder H] in
theorem contentHash_eq_some {hash : List UInt8 → H} {reader : PayloadReader} {e : ExtentMapEntryV2} {h : H} :
    contentHash hash reader e = some h ↔
      Eligible e ∧ ∃ payload, reader.readPayload e.locatorId = some payload ∧ hash payload = h := by
  unfold contentHash
  split_ifs with heligible
  · simp [heligible]
  · simp [heligible]

/-- **The visit of an extent**: it is passed over, or known under its own locator, or a duplicate, or new. -/
theorem processOneExtent_cases (hash : List UInt8 → H) (reader : PayloadReader) (c : Scan H) (x : Extent) :
    ∃ c', processOneExtent hash reader c x.1 x.2 = c' ∧
      ((contentHash hash reader x.2 = none ∧ c'.ddt = c.ddt ∧ c'.extentStore = c.extentStore ∧
          c'.extentFreer = c.extentFreer) ∨ ∃ h, contentHash hash reader x.2 = some h ∧
          ((∃ e, c.ddt.lookup h = some e ∧ e.canonicalLocator = x.2.locatorId ∧ c'.ddt = c.ddt ∧
              c'.extentStore = c.extentStore ∧ c'.extentFreer = c.extentFreer) ∨
            (∃ e, c.ddt.lookup h = some e ∧ e.canonicalLocator ≠ x.2.locatorId ∧
              c'.ddt = (c.ddt.addConsumer h x.2.locatorId x.2.length).1 ∧
              c'.extentStore = c.extentStore.updateExtentLocator x.1 x.2.logicalOffset x.2.length e.canonicalLocator ∧
              c'.extentFreer = c.extentFreer.map (·.freeExtent x.2.locatorId)) ∨
            (c.ddt.lookup h = none ∧ c'.ddt = (c.ddt.insert h x.2.locatorId x.2.length x.2.length).1 ∧
              c'.extentStore = c.extentStore ∧ c'.extentFreer = c.extentFreer))) := by
  refine ⟨_, rfl, ?_⟩
  unfold processOneExtent contentHash
  have hpass : (!x.2.isData || !dedupEligible x.2 || decide (x.2.locatorId = LocatorId.none)) = true ↔
      ¬ Eligible x.2 := by
    unfold Eligible
    cases x.2.isData <;> cases dedupEligible x.2 <;> simp
  by_cases heligible : Eligible x.2
  · rw [if_pos heligible, if_neg fun h => hpass.mp h heligible]
    dsimp only
    cases hread : reader.readPayload x.2.locatorId with
    | none => exact .inl ⟨rfl, rfl, rfl, rfl⟩
    | some payload =>
      refine .inr ⟨hash payload, rfl, ?_⟩
      dsimp only
      cases hlookup : c.ddt.lookup (hash payload) with
      | none => exact .inr (.inr ⟨rfl, rfl, rfl, rfl⟩)
      | some e =>
        dsimp only
        split_ifs with hcanonical
        · exact .inl ⟨e, rfl, hcanonical, rfl, rfl, rfl⟩
        · exact .inr (.inl ⟨e, rfl, hcanonical, rfl, rfl, rfl⟩)
  · rw [if_neg heligible, if_pos (hpass.mpr heligible)]
    exact .inl ⟨rfl, rfl, rfl, rfl⟩

end Tidefs.Dedup
