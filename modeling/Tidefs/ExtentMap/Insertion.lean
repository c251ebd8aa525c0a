/-
# Insertions into the polymorphic map

An insertion of extents that neither overlap nor wrap around, or an allocation of a
valid range, is to succeed in whatever representation is active, and lookups are to
return afterwards what they return from a `BTreeExtentMap` (`insertion_refines_btree`).

Up to the number of extents at which the multi-level tree could get too deep, that holds
exactly where there is room (`Room`): in the inline form, if the insertion is not moved to
the tree first, each of the new extents leaves at most six; and extents that are due to be
moved between the trees afterwards have their locators and no neighbours to be joined.
Without room in the inline form the call fails, though the tree would have taken it
(`full_inline_refuses`).
-/
import Tidefs.ExtentMap.Switch

namespace Tidefs.ExtentMap

open Word Btree Spans Spans.HasSpan ExtentMapEntryV2 Option BTreeExtentMap InlineExtentMap ExtentMap

namespace Op

/-- The extents an operation puts into the map. -/
def newEntries : Op → List ExtentMapEntryV2
  | .insertExtent entries => entries
  | .fallocate offset length _ => [newUnwritten offset length 0]
  | _ => []

/-- An insertion of extents that do not overlap, or an allocation of a valid range. -/
def Inserts : Op → Prop
  | .insertExtent entries => Insertable entries
  | .fallocate offset length _ => 0 < length ∧ offset + length ≤ u64Max
  | _ => False

theorem Inserts.insertable : ∀ {op : Op}, op.Inserts → Insertable op.newEntries
  | .insertExtent _, h => h
  | .fallocate .., h => insertable_unwritten h

theorem Inserts.fits : ∀ {op : Op}, op.Inserts → op.Fits
  | .insertExtent entries, h => (show Insertable entries from h).fits
  | .fallocate .., _ => trivial

end Op

/-! ### The trees -/

section Trees

variable {P : Params} {H : Type} [MapHeader H] [CountsEntries H] {t : TreeMap H} {op : Op}

/-- An allocation does what the insertion of its extent does. -/
theorem stepWith_inserts {insertExtent : TreeMap H → List ExtentMapEntryV2 → Option (TreeMap H × Outcome Unit)}
    {collapseRange : TreeMap H → ℕ → ℕ → Option (TreeMap H × Reply)} (hop : op.Inserts)
    (hins : ∃ t', insertExtent t op.newEntries = some (t', .ok ()) ∧ Receives t op.newEntries t') :
    ∃ t', stepWith P insertExtent collapseRange t op = some (t', .ok []) ∧ Receives t op.newEntries t' := by
  obtain ⟨t', h1, h2⟩ := hins
  cases op with
  | insertExtent entries =>
    refine ⟨t', ?_, h2⟩
    rw [stepWith, show insertExtent t entries = some (t', .ok ()) from h1]
    rfl
  | fallocate offset length keepSize =>
    have hv : 0 < length ∧ offset + length ≤ u64Max := hop
    obtain ⟨hnil, -⟩ | ⟨hne, hes, hcount⟩ := h2
    · cases hnil
    refine ⟨t'.setFileSize (if keepSize then t.fileSize else max t'.fileSize (offset + length)), ?_,
      .inr ⟨hne, hes, (CountsEntries.entryCount_setFileSize ..).trans hcount⟩⟩
    rw [stepWith, fallocateWith, if_neg (by omega), if_neg (by omega),
      show insertExtent t [newUnwritten offset length 0] = some (t', .ok ()) from h1]
    rfl
  | truncate | punchHole | zeroRange | collapseRange | convertUnwrittenToData => exact hop.elim

end Trees

/-! ### The inline form -/

/-- **The inline form** takes the extents exactly if each leaves at most six. -/
theorem InlineExtentMap.inserts_cases {i : InlineExtentMap} (h : i.Ready) {op : Op} (hop : op.Inserts) :
    (FitsInline i.entries (sortByOffset op.newEntries) ∧ ∃ i', i.step op = (i', .ok [])) ∨
      ¬ FitsInline i.entries (sortByOffset op.newEntries) ∧ ∃ i' e, i.step op = (i', .error e) := by
  cases op with
  | insertExtent entries =>
    rw [InlineExtentMap.step, InlineExtentMap.insertExtent]
    split_ifs with hempty
    · rw [show entries = [] from List.isEmpty_iff.mp hempty]
      exact .inl ⟨trivial, i, rfl⟩
    · rcases stageInsert_spec h.layout entries with ⟨⟨-, hfits⟩, i', h1, -⟩ | ⟨hno, err, h1⟩
      · rw [h1]
        exact .inl ⟨hfits, i', rfl⟩
      · rw [h1]
        exact .inr ⟨fun hfits => hno ⟨hop, hfits⟩, i, err, rfl⟩
  | fallocate offset length keepSize =>
    have hv : 0 < length ∧ offset + length ≤ u64Max := hop
    have hpos : lo (newUnwritten offset length 0) < hi (newUnwritten offset length 0) :=
      show offset < offset + length by omega
    rw [InlineExtentMap.step, InlineExtentMap.fallocate, if_neg (by omega), if_neg (by omega),
      insertSingle_eq h.layout hpos hv.2]
    by_cases hlen : extentMapV1MaxEntries < (inserted i.entries [newUnwritten offset length 0]).length
    · rw [if_pos hlen]
      exact .inr ⟨fun hfits => absurd hfits.1 (not_le.mpr hlen), i, .mapFull, rfl⟩
    · rw [if_neg hlen]
      exact .inl ⟨⟨not_lt.mp hlen, trivial⟩, _, rfl⟩
  | truncate | punchHole | zeroRange | collapseRange | convertUnwrittenToData => exact hop.elim

namespace PolymorphicExtentMap

variable {P : Params} {m : PolymorphicExtentMap} {op : Op}

/-! ### Reachable maps -/

/-- The maps the public operations lead to from an empty one, if no inserted entry wraps
around. -/
inductive Reachable (P : Params) : PolymorphicExtentMap → Prop
  | withRepr (repr : ExtentMapRepr) : Reachable P (withRepr P repr)
  | step {m : PolymorphicExtentMap} {op : Op} {r : PolymorphicExtentMap × Reply} (h : Reachable P m) (hop : op.Fits)
    (hr : m.step P op = some r) : Reachable P r.1
  | checkAndSwitch {m : PolymorphicExtentMap} {r : PolymorphicExtentMap × Outcome Unit} (h : Reachable P m)
    (hr : m.checkAndSwitch P = some r) : Reachable P r.1
  | defrag {m : PolymorphicExtentMap} {r : PolymorphicExtentMap × (ℕ × ℕ)} (h : Reachable P m)
    (hr : m.defrag P = some r) : Reachable P r.1

variable (hP : P.Valid)
include hP

/-- **No operation panics, and each leaves a map at rest.** -/
theorem Reachable.atRest (h : Reachable P m) : AtRest P m := by
  induction h with
  | withRepr repr =>
    cases repr with
    | inline =>
      refine ⟨⟨Layout.nil, Nat.zero_le _, ?_⟩, fun _ => Nat.zero_le _⟩
      exact fun e he => nomatch (show e ∈ [] from he)
    | btree => exact atRest_of_active (settled_new ExtentMapV2.new) (by simp [PolymorphicExtentMap.withRepr])
    | multiLevel => exact atRest_of_active (settled_new ExtentMapV3.new) (by simp [PolymorphicExtentMap.withRepr])
  | step _ hop hr ih =>
    obtain ⟨m', r, h1, h2, -⟩ := step_spec hP ih hop
    obtain rfl := some.inj (hr.symm.trans h1)
    exact h2
  | checkAndSwitch _ hr ih =>
    obtain ⟨m', r, h1, h2, -⟩ := checkAndSwitch_spec hP ih.held
    obtain rfl := some.inj (hr.symm.trans h1)
    exact h2
  | defrag _ hr ih =>
    obtain ⟨m', r, h1, h2, -⟩ := defrag_spec hP ih
    obtain rfl := some.inj (hr.symm.trans h1)
    exact h2

/-! ### Lookups -/

/-- A lookup as a mapping of bytes. -/
def bytesOf (r : Option (Outcome (List ExtentMapEntryV2))) : Option (Outcome ByteMap) := r.map fun o => o.map content

/-- Lookups in both maps return the same bytes, or the same error. -/
def SameLookups (m : PolymorphicExtentMap) (t : BTreeExtentMap) : Prop :=
  ∀ offset length, bytesOf (m.lookupRange offset length) = bytesOf (ExtentMap.lookupRange t offset length)

theorem lookupRange_eq (h : Held P m) (offset length : ℕ) : m.lookupRange offset length =
    if 0 < length ∧ offset + length ≤ u64Max then some (.ok (clipped m.extents offset (offset + length)))
    else some (.error .invalidRange) := by
  split_ifs with hv
  · obtain ⟨_ | _ | _, inline, btree, multiLevel⟩ := m
    · exact congrArg some (InlineExtentMap.lookupRange_spec (show inline.Ready from h).layout hv.1 hv.2)
    · exact lookupRange_spec hP (show Settled P btree from h).sound hv.1 hv.2
    · exact lookupRange_spec hP (show Settled P multiLevel from h).sound hv.1 hv.2
  · obtain ⟨_ | _ | _, inline, btree, multiLevel⟩ := m
    · exact congrArg some (invalid_range hv _ _)
    · exact invalid_range hv _ _
    · exact invalid_range hv _ _

/-- **Lookups show the mapping of the bytes and nothing else.** -/
theorem sameLookups_iff (h : Held P m) {t : BTreeExtentMap} (ht : Sound P t) :
    SameLookups m t ↔ content m.extents = content t.extents := by
  constructor
  · intro hs
    have hall := hs 0 u64Max
    rw [lookupRange_eq hP h, if_pos ⟨by decide, by decide⟩, lookupRange_spec hP ht (by decide) (by decide),
      zero_add, clipped_all h.layout, clipped_all ht.layout] at hall
    exact Except.ok.inj (some.inj hall)
  · intro hs offset length
    rw [lookupRange_eq hP h]
    by_cases hv : 0 < length ∧ offset + length ≤ u64Max
    · have hle := Nat.le_add_right offset length
      rw [if_pos hv, lookupRange_spec hP ht hv.1 hv.2]
      refine congrArg (fun c => some (Except.ok c)) (funext fun b => ?_)
      rw [(clipped_spec h.layout hle).2.2, (clipped_spec ht.layout hle).2.2, hs]
    · rw [if_neg hv, ExtentMap.lookupRange, invalid_range hv]

/-! ### Room -/

/-- The extents are moved to the tree before the operation. -/
def promotesFirst (m : PolymorphicExtentMap) : Op → Bool
  | .insertExtent entries => m.promotesBefore entries
  | _ => false

/-- The extents an insertion leaves in a tree. -/
def afterInsertion (m : PolymorphicExtentMap) (op : Op) : List ExtentMapEntryV2 :=
  let es := if m.promotesFirst op then inserted [] m.inline.entries else m.extents
  if op.newEntries = [] then es else inserted es op.newEntries

/-- The extents an insertion leaves are to be moved from one tree to the other. -/
def DueAfter (m : PolymorphicExtentMap) (op : Op) : Prop :=
  let count := if op.newEntries = [] then m.entryCount else (m.afterInsertion op).length
  match m.active with
  | .inline => m.promotesFirst op = true ∧ v2V3PromotionThreshold ≤ count
  | .btree => v2V3PromotionThreshold ≤ count
  | .multiLevel => count ≤ v3V2DemotionThreshold ∧ hasUnwrittenOrHoles (m.afterInsertion op) = false

/-- The insertion runs into no limit of a representation. -/
structure Room (m : PolymorphicExtentMap) (op : Op) : Prop where
  inline : m.active = .inline → m.promotesFirst op = false → FitsInline m.inline.entries (sortByOffset op.newEntries)
  move : m.DueAfter op → Movable (m.afterInsertion op)

/-- The map an insertion takes place in: the map itself, or the tree its extents were moved to. -/
def Prepared (m : PolymorphicExtentMap) (op : Op) (m₁ : PolymorphicExtentMap) : Prop :=
  m₁ = m ∧ m.promotesFirst op = false ∨ op.newEntries ≠ [] ∧ m.active = .inline ∧ m₁.active = .btree ∧
    m.promotesFirst op = true ∧ m₁.extents = inserted [] m.inline.entries

/-- What an insertion makes of a tree. -/
structure Received (m₁ : PolymorphicExtentMap) (op : Op) (m' : PolymorphicExtentMap) : Prop where
  active : m'.active = m₁.active
  same : op.newEntries = [] → m' = m₁
  merged : op.newEntries ≠ [] → m'.extents = inserted m₁.extents op.newEntries ∧ m'.entryCount = m'.extents.length

omit hP in
theorem due_iff : m.Due ↔ match m.active with
    | .inline => False
    | .btree => v2V3PromotionThreshold ≤ m.entryCount
    | .multiLevel => m.entryCount ≤ v3V2DemotionThreshold ∧ hasUnwrittenOrHoles m.extents = false := by
  obtain ⟨_ | _ | _, inline, btree, multiLevel⟩ := m
  · exact Iff.rfl
  · exact Iff.rfl
  · exact Iff.rfl

/-- The trees take every insertion, up to the depth of the multi-level one. -/
theorem onActive_tree (h : AtRest P m) (hop : op.Inserts) (hact : m.active ≠ .inline)
    (hfew : op.newEntries ≠ [] → (inserted m.extents op.newEntries).length < deepLimit P) :
    ∃ m', m.onActive (InlineExtentMap.step · op) (BTreeExtentMap.step P · op) (MultiLevelBTreeExtentMap.step P · op) =
        some (m', .ok []) ∧ Received m op m' := by
  have hh := h.held
  obtain ⟨_ | _ | _, inline, btree, multiLevel⟩ := m
  · exact absurd rfl hact
  · obtain ⟨t', h1, h2⟩ := @stepWith_inserts P _ _ _ btree op (BTreeExtentMap.insertExtent P) (collapseRange P) hop
      (insertExtent_ok hP (show Settled P btree from hh).sound hop.insertable)
    refine ⟨⟨.btree, inline, t', multiLevel⟩, congrArg (Option.map _) h1, ?_⟩
    rcases h2 with ⟨h2, rfl⟩ | ⟨h2, h3, h4⟩
    · exact ⟨rfl, fun _ => rfl, fun hne => absurd h2 hne⟩
    · exact ⟨rfl, fun hnil => absurd hnil h2, fun _ => ⟨h3, h4.trans (congrArg List.length h3.symm)⟩⟩
  · obtain ⟨t', h1, h2⟩ := @stepWith_inserts P _ _ _ multiLevel op (MultiLevelBTreeExtentMap.insertExtent P)
      (MultiLevelBTreeExtentMap.collapseRange P) hop
      (MultiLevelBTreeExtentMap.insertExtent_ok hP (show Settled P multiLevel from hh).sound hop.insertable hfew)
    refine ⟨⟨.multiLevel, inline, btree, t'⟩, congrArg (Option.map _) h1, ?_⟩
    rcases h2 with ⟨h2, rfl⟩ | ⟨h2, h3, h4⟩
    · exact ⟨rfl, fun _ => rfl, fun hne => absurd h2 hne⟩
    · exact ⟨rfl, fun hnil => absurd hnil h2, fun _ => ⟨h3, h4.trans (congrArg List.length h3.symm)⟩⟩

omit hP in
/-- What a tree is after the insertion says whether its extents are due to be moved. -/
theorem Received.due_iff {m₁ m' : PolymorphicExtentMap} (h : Received m₁ op m') (hactive : m₁.active ≠ .inline)
    (hm : Prepared m op m₁) : m'.extents = m.afterInsertion op ∧ (m'.Due ↔ m.DueAfter op) := by
  have hbase : (if m.promotesFirst op then inserted [] m.inline.entries else m.extents) = m₁.extents := by
    rcases hm with ⟨rfl, hfirst⟩ | ⟨-, -, -, hfirst, hes⟩
    · rw [hfirst, if_neg Bool.false_ne_true]
    · rw [if_pos hfirst, hes]
  have hcount : (if op.newEntries = [] then m.entryCount else m'.extents.length) = m'.entryCount ∧
      m.afterInsertion op = m'.extents := by
    rw [afterInsertion, hbase]
    by_cases hnil : op.newEntries = []
    · obtain ⟨rfl, -⟩ := hm.resolve_right fun hm => hm.1 hnil
      rw [if_pos hnil, if_pos hnil, h.same hnil]
      exact ⟨rfl, rfl⟩
    · rw [if_neg hnil, if_neg hnil]
      exact ⟨(h.merged hnil).2.symm, (h.merged hnil).1.symm⟩
  refine ⟨hcount.2.symm, PolymorphicExtentMap.due_iff.trans ?_⟩
  rw [DueAfter, hcount.2, hcount.1, h.active]
  rcases hm with ⟨rfl, -⟩ | ⟨-, hinline, hbtree, hfirst, -⟩
  · cases hact : m₁.active with
    | inline => exact absurd hact hactive
    | btree | multiLevel => exact Iff.rfl
  · rw [hinline, hbtree]
    exact (and_iff_right hfirst).symm

/-- **An insertion before the representation is checked** fails exactly if the inline form does not take it. -/
theorem stepActive_cases (h : AtRest P m) (hop : op.Inserts) (hfew : (m.afterInsertion op).length < deepLimit P) :
    ((m.active = .inline ∧ m.promotesFirst op = false ∧ ¬ FitsInline m.inline.entries (sortByOffset op.newEntries)) ∧
      ∃ m' e, m.stepActive P op = some (m', .error e)) ∨
    (m.active = .inline → m.promotesFirst op = false → FitsInline m.inline.entries (sortByOffset op.newEntries)) ∧
      ∃ m', m.stepActive P op = some (m', .ok []) ∧ (m'.Due ↔ m.DueAfter op) ∧
        (m'.Due → m'.extents = m.afterInsertion op) := by
  -- where the operation takes place, and what it does there
  obtain ⟨m₁, h1, h2, hm⟩ : ∃ m₁, m.stepActive P op = m₁.onActive (InlineExtentMap.step · op)
      (BTreeExtentMap.step P · op) (MultiLevelBTreeExtentMap.step P · op) ∧ AtRest P m₁ ∧ Prepared m op m₁ := by
    cases op with
    | insertExtent entries =>
      obtain ⟨m₁, h1, h2, -, h3⟩ := ready_spec hP h entries
      refine ⟨m₁, insertActive_eq h1, h2, ?_⟩
      rcases h3 with ⟨hp, h4, h5⟩ | ⟨hp, rfl⟩
      · obtain ⟨hact, hmany⟩ := Bool.and_eq_true_iff.mp hp
        refine .inr ⟨fun hnil => ?_, of_decide_eq_true hact, h4, hp, h5⟩
        -- an empty batch is not estimated to overflow
        rw [show entries = [] from hnil] at hmany
        have := of_decide_eq_true ((Bool.or_eq_true_iff.mp hmany).resolve_left Bool.false_ne_true)
        have := h.few (of_decide_eq_true hact)
        simp only [List.length_nil] at *
        omega
      · exact .inl ⟨rfl, hp⟩
    | fallocate => exact ⟨m, rfl, h, .inl ⟨rfl, rfl⟩⟩
    | truncate | punchHole | zeroRange | collapseRange | convertUnwrittenToData => exact hop.elim
  rw [h1]
  by_cases hact : m₁.active = .inline
  · obtain ⟨rfl, hfirst⟩ := hm.resolve_right fun hm => by
      rw [hm.2.2.1] at hact
      cases hact
    obtain ⟨_, inline, btree, multiLevel⟩ := m₁
    obtain rfl : _ = ExtentMapRepr.inline := hact
    rcases InlineExtentMap.inserts_cases (show inline.Ready from h2.held) hop with ⟨hfits, i', h3⟩ | ⟨hno, i', e, h3⟩
    · refine .inr ⟨fun _ _ => hfits, ⟨.inline, i', btree, multiLevel⟩, ?_, ⟨fun hd => hd.elim, fun hd => ?_⟩,
        fun hd => hd.elim⟩
      · show some ((⟨.inline, (inline.step op).1, btree, multiLevel⟩ : PolymorphicExtentMap), (inline.step op).2) = _
        rw [h3]
      · exact absurd (hfirst.symm.trans hd.1) Bool.false_ne_true
    · refine .inl ⟨⟨rfl, hfirst, hno⟩, ⟨.inline, i', btree, multiLevel⟩, e, ?_⟩
      show some ((⟨.inline, (inline.step op).1, btree, multiLevel⟩ : PolymorphicExtentMap), (inline.step op).2) = _
      rw [h3]
  · obtain ⟨m', h3, h4⟩ := onActive_tree hP h2 hop hact fun hne => by
      rcases hm with ⟨rfl, hfirst⟩ | ⟨-, -, -, hfirst, hes⟩
      · rwa [afterInsertion, hfirst, if_neg hne] at hfew
      · rwa [afterInsertion, hfirst, if_neg hne, if_pos rfl, ← hes] at hfew
    obtain ⟨h6, h7⟩ := h4.due_iff hact hm
    refine .inr ⟨fun hinline hfirst => ?_, m', h3, h7, fun _ => h6⟩
    rcases hm with ⟨rfl, -⟩ | ⟨-, -, -, hfirst', -⟩
    · exact absurd hinline hact
    · exact absurd (hfirst.symm.trans hfirst') Bool.false_ne_true

/-- **An insertion succeeds exactly with room.** -/
theorem insertion_succeeds_iff (h : AtRest P m) (hop : op.Inserts) (hfew : (m.afterInsertion op).length < deepLimit P) :
    (∃ m', m.step P op = some (m', .ok [])) ↔ Room m op := by
  rcases stepActive_cases hP h hop hfew with ⟨⟨hact, hfirst, hno⟩, m₁, e, h1⟩ | ⟨hfits, m₁, h1, hdue, hes⟩
  · refine iff_of_false ?_ fun hroom => hno (hroom.inline hact hfirst)
    rintro ⟨m', h2⟩
    rw [step, h1, bind_some] at h2
    cases h2
  · obtain ⟨m₂, r₂, h2, hheld, -⟩ := stepActive_spec hP h hop.fits
    obtain ⟨rfl, rfl⟩ := Prod.mk.inj (some.inj (h1.symm.trans h2))
    obtain ⟨m', r, h3, -, -, h4, -⟩ := checkAndSwitch_spec hP hheld
    have hok : r = .ok () ↔ (m.DueAfter op → Movable (m.afterInsertion op)) := by
      rw [h4 fun hd => (hes hd).symm ▸ hfew, ← hdue]
      exact forall_congr' fun hd => by rw [hes hd]
    have hstep : m.step P op = some (m', r.map fun _ => []) := by
      rw [step, h1, bind_some]
      dsimp only
      rw [h3]
      rfl
    rw [hstep]
    constructor
    · rintro ⟨m'', h5⟩
      refine ⟨hfits, hok.mp ?_⟩
      cases r with
      | error e => cases h5
      | ok u => rfl
    · intro hroom
      rw [hok.mpr hroom.move]
      exact ⟨m', rfl⟩

/-- A version 2 map that operations lead to. -/
def TreeReachable (P : Params) (t : BTreeExtentMap) : Prop :=
  ∃ ops calls, (∀ op ∈ ops, op.Fits) ∧ runWith (BTreeExtentMap.step P) (BTreeExtentMap.new P) ops = some (t, calls)

theorem TreeReachable.sound {t : BTreeExtentMap} (h : TreeReachable P t) : Sound P t := by
  obtain ⟨ops, calls, hops, h1⟩ := h
  obtain ⟨t', calls', h2, h3, -⟩ :=
    runWith_spec (fun h _ hop => step_change hP h hop) ops (sound_new ExtentMapV2.new) hops
  obtain ⟨rfl, -⟩ := Prod.mk.inj (some.inj (h1.symm.trans h2))
  exact h3

omit hP

/-- **Insertions show the bytes a `BTreeExtentMap` shows**, exactly with room: on every reachable map an insertion of
extents that do not overlap or wrap around succeeds, and a tree map with the same lookups has the same lookups after
the same call. -/
theorem insertion_refines_btree_iff (blake3 : List UInt8 → Digest) {m : PolymorphicExtentMap}
    (hm : Reachable (extentParams blake3) m) {t : BTreeExtentMap} (ht : TreeReachable (extentParams blake3) t)
    (hsame : SameLookups m t) {op : Op} (hop : op.Inserts)
    (hfew : (m.afterInsertion op).length < deepLimit (extentParams blake3)) :
    (∃ m' t', m.step (extentParams blake3) op = some (m', .ok []) ∧
      BTreeExtentMap.step (extentParams blake3) t op = some (t', .ok []) ∧ SameLookups m' t') ↔ Room m op := by
  have hP := extentParams_valid blake3
  have hrest := hm.atRest hP
  have hsound := ht.sound hP
  rw [← insertion_succeeds_iff hP hrest hop hfew]
  refine ⟨fun ⟨m', t', h, _⟩ => ⟨m', h⟩, fun ⟨m', h1⟩ => ?_⟩
  obtain ⟨m'', r, h2, h3, h4, -⟩ := step_spec hP hrest hop.fits
  obtain ⟨rfl, rfl⟩ := Prod.mk.inj (some.inj (h1.symm.trans h2))
  obtain ⟨t', h5, -⟩ := @stepWith_inserts _ _ _ _ t op (BTreeExtentMap.insertExtent (extentParams blake3))
    (ExtentMap.collapseRange (extentParams blake3)) hop (insertExtent_ok hP hsound hop.insertable)
  obtain ⟨⟨t'', r⟩, h6, h7⟩ := step_change hP hsound hop.fits
  obtain ⟨rfl, rfl⟩ := Prod.mk.inj (some.inj (h5.symm.trans h6))
  refine ⟨m', t', h1, h5, (sameLookups_iff hP h3.held h7.sound).mpr ?_⟩
  have hbytes := (sameLookups_iff hP hrest.held hsound).mp hsame
  obtain ⟨hacc, hsize⟩ : Accepts t op ∧ ∀ a b bytes, applyOp a bytes op = applyOp b bytes op := by
    cases op with
    | insertExtent | fallocate => exact ⟨hop, fun _ _ _ => rfl⟩
    | truncate | punchHole | zeroRange | collapseRange | convertUnwrittenToData => exact hop.elim
  rcases h4 with ⟨-, h8⟩ | ⟨⟨e, h8⟩, -⟩
  · rw [h8, h7.content_eq hacc, hbytes]
    exact hsize ..
  · exact nomatch h8

/-- A first insertion leaves maps with the same lookups. -/
theorem sameLookups_after (hP : P.Valid) {es : List ExtentMapEntryV2} (hes : Insertable es) {m : PolymorphicExtentMap}
    (h1 : (new P).step P (.insertExtent es) = some (m, .ok [])) :
    Reachable P m ∧ ∃ t, TreeReachable P t ∧ SameLookups m t := by
  have hfits : (Op.insertExtent es).Fits := hes.fits
  obtain ⟨⟨t, r⟩, h3, h4⟩ := step_change hP (sound_new ExtentMapV2.new) hfits
  have ht : TreeReachable P t := by
    refine ⟨[.insertExtent es], [⟨.insertExtent es, 0, r⟩], by simpa using hfits, ?_⟩
    rw [runWith, show BTreeExtentMap.step P (BTreeExtentMap.new P) (.insertExtent es) = some (t, r) from h3]
    rfl
  obtain ⟨m'', r', h5, h6, h7, -⟩ := step_spec hP (Reachable.atRest hP (.withRepr .inline)) hfits
  obtain ⟨rfl, rfl⟩ := Prod.mk.inj (some.inj (h1.symm.trans h5))
  have hbytes : content m.extents = content t.extents := by
    rcases h7 with ⟨-, h8⟩ | ⟨⟨e, h8⟩, -⟩
    · exact h8.trans (h4.content_eq hes).symm
    · cases h8
  exact ⟨.step (.withRepr .inline) hfits h1, t, ht, (sameLookups_iff hP h6.held h4.sound).mpr hbytes⟩

/-- Extents of 50 bytes, apart from each other. -/
def scattered (n : ℕ) : List ExtentMapEntryV2 :=
  (List.range n).map fun i => newData (100 * i) 50 (i + 1) (Vector.replicate 32 1) 1

/-- Five extents in the inline form have room for a sixth. -/
theorem insertion_refines_btree_iff_five : ∃ m t, SameLookups m t ∧ m.extents.length = 5 ∧ ∃ m' t',
    m.step (extentParams fun _ => Vector.replicate 32 0) (.insertExtent [newData 1000 10 9 (Vector.replicate 32 1) 1]) =
      some (m', .ok []) ∧ BTreeExtentMap.step (extentParams fun _ => Vector.replicate 32 0) t
        (.insertExtent [newData 1000 10 9 (Vector.replicate 32 1) 1]) = some (t', .ok []) ∧ SameLookups m' t' := by
  obtain ⟨m, hfive⟩ : ∃ m, (new (extentParams fun _ => Vector.replicate 32 0)).step
      (extentParams fun _ => Vector.replicate 32 0) (.insertExtent (scattered 5)) = some (m, .ok []) ∧
      m.active = .inline ∧ m.inline.entries = scattered 5 ∧ m.inline.header.entryCount = 5 := ⟨_, rfl, rfl, rfl, rfl⟩
  obtain ⟨hstep, hact, hes, hcount⟩ := hfive
  obtain ⟨hm, t, ht, hsame⟩ := sameLookups_after (extentParams_valid _) ⟨by decide, by decide, by decide⟩ hstep
  have hfive : m.extents = scattered 5 := by rw [extents, hact]; exact hes
  have hfirst : m.promotesFirst (.insertExtent [newData 1000 10 9 (Vector.replicate 32 1) 1]) = false := by
    rw [promotesFirst, promotesBefore, hact, hcount]
    decide
  have hnew : Op.Inserts (.insertExtent [newData 1000 10 9 (Vector.replicate 32 1) 1]) :=
    show Insertable _ from ⟨by decide, by decide, by decide⟩
  refine ⟨m, t, hsame, by rw [hfive]; rfl, (insertion_refines_btree_iff _ hm ht hsame hnew ?_).mpr
    ⟨fun _ _ => by rw [hes]; decide, fun hdue => ?_⟩⟩
  · rw [afterInsertion, hfirst, hfive, if_neg Bool.false_ne_true]
    decide
  · rw [DueAfter, hact, hfirst] at hdue
    exact absurd hdue.1 Bool.false_ne_true

/-! ### Without room -/

/-- Operations lead to a map that refuses the insertion, while a tree with the same
lookups takes it. -/
def RefusesWhatTreeTakes (P : Params) (op : Op) : Prop :=
  op.Inserts ∧ ∃ m t, Reachable P m ∧ TreeReachable P t ∧ SameLookups m t ∧
    (∃ m', m.step P op = some (m', .error .mapFull)) ∧ ∃ t', BTreeExtentMap.step P t op = some (t', .ok [])

theorem refuses_after (hP : P.Valid) {es : List ExtentMapEntryV2} (hes : Insertable es) {m : PolymorphicExtentMap}
    (h1 : (new P).step P (.insertExtent es) = some (m, .ok [])) (hop : op.Inserts) {m' : PolymorphicExtentMap}
    (h2 : m.step P op = some (m', .error .mapFull)) : RefusesWhatTreeTakes P op := by
  obtain ⟨hm, t, ht, hsame⟩ := sameLookups_after hP hes h1
  obtain ⟨t', h8, -⟩ := @stepWith_inserts P _ _ _ t op (BTreeExtentMap.insertExtent P) (collapseRange P) hop
    (insertExtent_ok hP (ht.sound hP) hop.insertable)
  exact ⟨hop, m, t, hm, ht, hsame, ⟨m', h2⟩, t', h8⟩

/-- **Six extents and an allocation, or five and one inside the first, do not fit.** -/
theorem full_inline_refuses :
    RefusesWhatTreeTakes (extentParams fun _ => Vector.replicate 32 0) (.fallocate 1000 10 false) ∧
      RefusesWhatTreeTakes (extentParams fun _ => Vector.replicate 32 0)
        (.insertExtent [newData 10 10 9 (Vector.replicate 32 1) 1]) := by
  have hP := extentParams_valid fun _ => Vector.replicate 32 0
  constructor
  · exact refuses_after hP (show Insertable (scattered 6) from ⟨by decide, by decide, by decide⟩) rfl
      ⟨by decide, by decide⟩ rfl
  · exact refuses_after hP (show Insertable (scattered 5) from ⟨by decide, by decide, by decide⟩) rfl
      ⟨by decide, by decide, by decide⟩ rfl

end PolymorphicExtentMap

end Tidefs.ExtentMap
