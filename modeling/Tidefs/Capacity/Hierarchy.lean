/-
# The usage of a quota hierarchy

Usage is charged to a dataset and all its ancestors, but only those that have a quota at
that time keep a counter. Beside the hierarchy runs the account of what each dataset was
charged and not yet credited; the counter of a dataset is to be the account of its subtree.

It is, as long as a quota is given only to a dataset whose subtree holds nothing, and no
subtree holds more than 64 bits (`usage_is_subtree`). A quota given later starts from zero
(`late_quota_forgets`).
-/
import Tidefs.Capacity.Accounting

namespace Tidefs.Capacity

open Word List Option

/-! ### The walk to the root -/

namespace Forest

variable (F : Forest)

theorem mem_chain_iff {x id : DatasetId} :
    x ∈ F.chain id ↔ x = id ∨ ∃ parent, F.parentOf id = some parent ∧ x ∈ F.chain parent := by
  rw [chain]
  split
  next h => simp [h]
  next parent h => simp [h]

theorem isAncestor : ∀ {id x : DatasetId}, x ∈ F.chain id →
    Relation.ReflTransGen (fun parent child => F.parentOf child = some parent) x id := by
  intro id
  induction id using F.acyclic.induction with
  | _ id ih =>
    intro x hx
    rcases F.mem_chain_iff.mp hx with rfl | ⟨parent, hparent, hx⟩
    · exact .refl
    · exact (ih parent hparent hx).tail hparent

/-- A dataset is met once. -/
theorem chain_nodup (id : DatasetId) : (F.chain id).Nodup := by
  induction id using F.acyclic.induction with
  | _ id ih =>
    rw [chain]
    split
    · exact nodup_singleton _
    next parent h =>
      refine nodup_cons.mpr ⟨fun hmem => ?_, ih parent h⟩
      have hcycle : Relation.TransGen (fun parent child => F.parentOf child = some parent) id id :=
        Relation.TransGen.tail' (F.isAncestor hmem) h
      exact F.acyclic.transGen.irrefl.irrefl id hcycle

end Forest

/-! ### Quotas and usage -/

def DatasetQuotaConfig.isActive (c : DatasetQuotaConfig) : Bool :=
  0 < c.hardLimitBytes || 0 < c.softLimitBytes || 0 < c.hardLimitInodes || 0 < c.softLimitInodes ||
    0 < c.reservationBytes

namespace DatasetQuotaHierarchy

def new : DatasetQuotaHierarchy := ⟨[]⟩

variable (q : DatasetQuotaHierarchy)

def insert (id : DatasetId) (entry : DatasetQuotaEntry) : DatasetQuotaHierarchy :=
  ⟨(id, entry) :: q.entries.filter fun e => e.1 ≠ id⟩

def removeQuota (id : DatasetId) : DatasetQuotaHierarchy :=
  ⟨q.entries.filter fun e => e.1 ≠ id⟩

def setQuota (id : DatasetId) (config : DatasetQuotaConfig) : DatasetQuotaHierarchy :=
  if config.isActive then
    let usage := ((q.get? id).map fun e => (e.bytesUsed, e.inodesUsed)).getD (0, 0)
    q.insert id ⟨config, usage.1, usage.2⟩
  else q.removeQuota id

/-- `get_mut` and an assignment. -/
def modify (f : DatasetQuotaEntry → DatasetQuotaEntry) (q : DatasetQuotaHierarchy) (id : DatasetId) :
    DatasetQuotaHierarchy :=
  ⟨q.entries.map fun e => if e.1 = id then (e.1, f e.2) else e⟩

def chargeEntry (deltaBytes deltaInodes : ℕ) (e : DatasetQuotaEntry) : DatasetQuotaEntry :=
  { e with bytesUsed := satAdd e.bytesUsed deltaBytes, inodesUsed := satAdd e.inodesUsed deltaInodes }

def creditEntry (deltaBytes deltaInodes : ℕ) (e : DatasetQuotaEntry) : DatasetQuotaEntry :=
  { e with bytesUsed := e.bytesUsed - deltaBytes, inodesUsed := e.inodesUsed - deltaInodes }

def chargeBytes (F : Forest) (id : DatasetId) (deltaBytes deltaInodes : ℕ) : DatasetQuotaHierarchy :=
  if deltaBytes = 0 ∧ deltaInodes = 0 then q else (F.chain id).foldl (modify (chargeEntry deltaBytes deltaInodes)) q

def creditBytes (F : Forest) (id : DatasetId) (deltaBytes deltaInodes : ℕ) : DatasetQuotaHierarchy :=
  if deltaBytes = 0 ∧ deltaInodes = 0 then q else (F.chain id).foldl (modify (creditEntry deltaBytes deltaInodes)) q

variable {q : DatasetQuotaHierarchy}

theorem get?_removeQuota (id x : DatasetId) : (q.removeQuota id).get? x = if x = id then none else q.get? x := by
  unfold get? removeQuota
  rw [find?_filter]
  split_ifs with hx
  · subst hx
    rw [find?_eq_none.mpr, map_none]
    intro e _
    simp
  · congr 2
    funext e
    by_cases he : e.1 = x
    · simp [he, hx]
    · simp [he]

theorem get?_insert (id x : DatasetId) (entry : DatasetQuotaEntry) :
    (q.insert id entry).get? x = if x = id then some entry else q.get? x := by
  have hrest := get?_removeQuota (q := q) id x
  unfold get? insert
  rw [find?_cons]
  split_ifs at hrest ⊢ with hx
  · simp [hx]
  · rw [decide_eq_false (Ne.symm hx)]
    exact hrest

theorem get?_modify (f : DatasetQuotaEntry → DatasetQuotaEntry) (id x : DatasetId) :
    (modify f q id).get? x = if x = id then (q.get? x).map f else q.get? x := by
  unfold get? modify
  rw [find?_map]
  have hkey : ((fun e : DatasetId × DatasetQuotaEntry => decide (e.1 = x)) ∘
      fun e => if e.1 = id then (e.1, f e.2) else e) = fun e => decide (e.1 = x) := by
    funext e
    simp only [Function.comp_apply]
    split_ifs <;> rfl
  rw [hkey]
  cases hfind : q.entries.find? fun e => decide (e.1 = x) with
  | none => simp
  | some e =>
    have he : e.1 = x := by simpa using find?_some hfind
    subst he
    simp only [map_some]
    split_ifs <;> rfl

theorem get?_foldl_modify (f : DatasetQuotaEntry → DatasetQuotaEntry) (x : DatasetId) :
    ∀ (chain : List DatasetId) (q : DatasetQuotaHierarchy), chain.Nodup →
      (chain.foldl (modify f) q).get? x = if x ∈ chain then (q.get? x).map f else q.get? x
  | [], _, _ => by simp
  | id :: chain, q, hnd => by
    obtain ⟨hid, hnd⟩ := nodup_cons.mp hnd
    rw [foldl_cons, get?_foldl_modify f x chain _ hnd, get?_modify]
    by_cases hx : x = id
    · subst hx
      rw [if_neg hid, if_pos rfl, if_pos (mem_cons_self ..)]
    · simp only [mem_cons, hx, false_or, if_false]

/-- **The walk of a charge or a credit.** The datasets above are changed, once each, and no others. -/
theorem get?_walk (F : Forest) (f : DatasetQuotaEntry → DatasetQuotaEntry) (id x : DatasetId) :
    ((F.chain id).foldl (modify f) q).get? x = if x ∈ F.chain id then (q.get? x).map f else q.get? x :=
  get?_foldl_modify f x _ q (F.chain_nodup id)

/-! ### What a check that allows has seen -/

/-- Every dataset above has room for the change. -/
theorem mem_chain_passes {F : Forest} {id x : DatasetId} {deltaBytes deltaInodes poolFree : ℕ}
    (hallowed : q.checkDelta F id deltaBytes deltaInodes poolFree = .allowed) (hx : x ∈ F.chain id)
    {e : DatasetQuotaEntry} (he : q.get? x = some e) :
    (0 < e.config.hardLimitBytes → satAdd e.bytesUsed deltaBytes ≤ e.config.hardLimitBytes) ∧
      (0 < e.config.hardLimitInodes → 0 < deltaInodes →
        satAdd e.inodesUsed deltaInodes ≤ e.config.hardLimitInodes) := by
  have hnone := (checkDelta_allowed_iff.mp hallowed).2 x hx
  unfold checkEntry at hnone
  rw [he, bind_some] at hnone
  split_ifs at hnone with hbytes hinodes
  exact ⟨fun hpos => not_lt.mp fun hover => hbytes ⟨hpos, hover⟩,
    fun hpos hdelta => not_lt.mp fun hover => hinodes ⟨⟨hpos, hdelta⟩, hover⟩⟩

end DatasetQuotaHierarchy

/-! ### The account -/

namespace Hierarchy

open DatasetQuotaHierarchy Finsupp

/-- What the datasets were charged and not yet credited. -/
abbrev Account := DatasetId →₀ ℕ

variable (F : Forest)

/-- The account of a dataset and all below it. -/
noncomputable def subtree (account : Account) (x : DatasetId) : ℕ :=
  account.sum fun id n => if x ∈ F.chain id then n else 0

theorem subtree_zero (x : DatasetId) : subtree F 0 x = 0 := sum_zero_index

theorem subtree_add (account : Account) (id x : DatasetId) (n : ℕ) :
    subtree F (account + single id n) x = subtree F account x + if x ∈ F.chain id then n else 0 := by
  unfold subtree
  rw [sum_add_index', sum_single_index]
  · simp
  · intro y
    simp
  · intro y a b
    split_ifs <;> rfl

variable {id x : DatasetId} {q : DatasetQuotaHierarchy} {e : DatasetQuotaEntry}

theorem subtree_sub {account : Account} {n : ℕ} (hn : n ≤ account id) (x : DatasetId) :
    subtree F account x = subtree F (account - single id n) x + if x ∈ F.chain id then n else 0 := by
  rw [← subtree_add, tsub_add_cancel_of_le (single_le_iff.mpr hn)]

/-! ### Histories -/

structure History where
  quotas : DatasetQuotaHierarchy
  bytes : Account
  inodes : Account

/-- The calls that change the quotas or their usage. -/
inductive Op where
  | setQuota (id : DatasetId) (config : DatasetQuotaConfig)
  | removeQuota (id : DatasetId)
  | charge (id : DatasetId) (deltaBytes deltaInodes poolFree : ℕ)
  | credit (id : DatasetId) (deltaBytes deltaInodes : ℕ)

noncomputable def start : History := ⟨.new, 0, 0⟩

open Classical in
/-- A charge follows a check that allows it; what is credited was charged before. -/
noncomputable def step (h : History) : Op → History
  | .setQuota id config => { h with quotas := h.quotas.setQuota id config }
  | .removeQuota id => { h with quotas := h.quotas.removeQuota id }
  | .charge id deltaBytes deltaInodes poolFree =>
    if h.quotas.checkDelta F id deltaBytes deltaInodes poolFree = .allowed then
      ⟨h.quotas.chargeBytes F id deltaBytes deltaInodes, h.bytes + Finsupp.single id deltaBytes,
        h.inodes + Finsupp.single id deltaInodes⟩
    else h
  | .credit id deltaBytes deltaInodes =>
    if deltaBytes ≤ h.bytes id ∧ deltaInodes ≤ h.inodes id then
      ⟨h.quotas.creditBytes F id deltaBytes deltaInodes, h.bytes - Finsupp.single id deltaBytes,
        h.inodes - Finsupp.single id deltaInodes⟩
    else h

noncomputable def run (ops : List Op) : History := ops.foldl (step F) start

/-- A first quota is given to a dataset whose subtree holds nothing; what a subtree with a quota holds has 64 bits. -/
def Careful (h : History) : Op → Prop
  | .setQuota id config => config.isActive = true → h.quotas.get? id = none →
      subtree F h.bytes id = 0 ∧ subtree F h.inodes id = 0
  | .removeQuota _ => True
  | .charge id deltaBytes deltaInodes _ => ∀ x ∈ F.chain id, h.quotas.get? x ≠ none →
      subtree F h.bytes x + deltaBytes ≤ u64Max ∧ subtree F h.inodes x + deltaInodes ≤ u64Max
  | .credit _ _ _ => True

/-- The limits of a dataset are not set below what its subtree holds. -/
def KeepsLimit (x : DatasetId) (h : History) : Op → Prop
  | .setQuota id config => id = x → (0 < config.hardLimitBytes → subtree F h.bytes x ≤ config.hardLimitBytes) ∧
        (0 < config.hardLimitInodes → subtree F h.inodes x ≤ config.hardLimitInodes)
  | _ => True

/-- A condition on every call of a run. -/
def Along (P : History → Op → Prop) : History → List Op → Prop
  | _, [] => True
  | h, op :: ops => P h op ∧ Along P (step F h op) ops

/-- The counters of every quota are the account of its subtree. -/
def Tracks (h : History) : Prop :=
  ∀ x e, h.quotas.get? x = some e → e.bytesUsed = subtree F h.bytes x ∧ e.inodesUsed = subtree F h.inodes x

def Within (x : DatasetId) (h : History) : Prop :=
  ∀ e, h.quotas.get? x = some e → (0 < e.config.hardLimitBytes → e.bytesUsed ≤ e.config.hardLimitBytes) ∧
      (0 < e.config.hardLimitInodes → e.inodesUsed ≤ e.config.hardLimitInodes)

variable {F} {deltaBytes deltaInodes : ℕ}

/-- What a changed entry was before, and what was added to the account of its subtree. -/
theorem get?_charge (he : (q.chargeBytes F id deltaBytes deltaInodes).get? x = some e) :
    ∃ e₀, q.get? x = some e₀ ∧ e.config = e₀.config ∧ (x ∈ F.chain id → e.bytesUsed = satAdd e₀.bytesUsed deltaBytes ∧
        e.inodesUsed = satAdd e₀.inodesUsed deltaInodes ∨ deltaBytes = 0 ∧ deltaInodes = 0 ∧ e = e₀) ∧
      (x ∉ F.chain id → e = e₀) := by
  unfold chargeBytes at he
  split_ifs at he with hzero
  · exact ⟨e, he, rfl, fun _ => .inr ⟨hzero.1, hzero.2, rfl⟩, fun _ => rfl⟩
  · rw [get?_walk] at he
    split_ifs at he with hx
    · obtain ⟨e₀, he₀, rfl⟩ := map_eq_some_iff.mp he
      exact ⟨e₀, he₀, rfl, fun _ => .inl ⟨rfl, rfl⟩, fun h => absurd hx h⟩
    · exact ⟨e, he, rfl, fun h => absurd h hx, fun _ => rfl⟩

theorem get?_credit (he : (q.creditBytes F id deltaBytes deltaInodes).get? x = some e) :
    ∃ e₀, q.get? x = some e₀ ∧ e.config = e₀.config ∧
      e.bytesUsed = e₀.bytesUsed - (if x ∈ F.chain id then deltaBytes else 0) ∧
      e.inodesUsed = e₀.inodesUsed - (if x ∈ F.chain id then deltaInodes else 0) := by
  unfold creditBytes at he
  split_ifs at he with hzero
  · obtain ⟨rfl, rfl⟩ := hzero
    exact ⟨e, he, rfl, by simp, by simp⟩
  · rw [get?_walk] at he
    split_ifs at he with hx
    · obtain ⟨e₀, he₀, rfl⟩ := map_eq_some_iff.mp he
      exact ⟨e₀, he₀, rfl, by rw [if_pos hx]; rfl, by rw [if_pos hx]; rfl⟩
    · exact ⟨e, he, rfl, by simp [hx], by simp [hx]⟩

/-- The entry a quota leaves behind: the new configuration over the old usage, or the entry that was there. -/
theorem get?_setQuota {config : DatasetQuotaConfig} (he : (q.setQuota id config).get? x = some e) :
    (x ≠ id ∧ q.get? x = some e) ∨ (x = id ∧ e.config = config ∧ config.isActive = true ∧
      ((q.get? id = none ∧ e.bytesUsed = 0 ∧ e.inodesUsed = 0) ∨
        ∃ e₀, q.get? id = some e₀ ∧ e.bytesUsed = e₀.bytesUsed ∧ e.inodesUsed = e₀.inodesUsed)) := by
  unfold setQuota at he
  split_ifs at he with hactive
  · rw [get?_insert] at he
    split_ifs at he with hx
    · refine .inr ⟨hx, ?_⟩
      obtain rfl := some.inj he
      refine ⟨rfl, hactive, ?_⟩
      cases hget : q.get? id with
      | none => exact .inl ⟨rfl, rfl, rfl⟩
      | some e₀ => exact .inr ⟨e₀, rfl, rfl, rfl⟩
    · exact .inl ⟨hx, he⟩
  · rw [get?_removeQuota] at he
    split_ifs at he with hx
    exact .inl ⟨hx, he⟩

variable {h : History}

/-- **A careful call keeps every counter equal to the account of its subtree.** -/
theorem step_tracks (ht : Tracks F h) : ∀ op, Careful F h op → Tracks F (step F h op)
  | .setQuota id config, hop => by
    intro x e he
    rcases get?_setQuota he with ⟨-, he⟩ | ⟨rfl, rfl, hactive, ⟨hnone, hb, hi⟩ | ⟨e₀, he₀, hb, hi⟩⟩
    · exact ht x e he
    · obtain ⟨h1, h2⟩ := hop hactive hnone
      exact ⟨hb.trans h1.symm, hi.trans h2.symm⟩
    · rw [hb, hi]
      exact ht x e₀ he₀
  | .removeQuota id, _ => by
    intro x e he
    simp only [step] at he
    rw [get?_removeQuota] at he
    split_ifs at he
    exact ht x e he
  | .charge id deltaBytes deltaInodes poolFree, hop => by
    simp only [step]
    split_ifs with hallowed
    · intro x e he
      obtain ⟨e₀, he₀, -, hmem, hnot⟩ := get?_charge he
      obtain ⟨hb, hi⟩ := ht x e₀ he₀
      rw [subtree_add, subtree_add]
      by_cases hx : x ∈ F.chain id
      · obtain ⟨hfitB, hfitI⟩ := hop x hx (by rw [he₀]; simp)
        rw [if_pos hx, if_pos hx]
        rcases hmem hx with ⟨h1, h2⟩ | ⟨rfl, rfl, rfl⟩
        · rw [h1, h2, hb, hi]
          exact ⟨min_eq_left hfitB, min_eq_left hfitI⟩
        · exact ⟨hb, hi⟩
      · rw [if_neg hx, if_neg hx, hnot hx]
        exact ⟨hb, hi⟩
    · exact ht
  | .credit id deltaBytes deltaInodes, _ => by
    simp only [step]
    split_ifs with hcharged
    · intro x e he
      obtain ⟨e₀, he₀, -, hb, hi⟩ := get?_credit he
      obtain ⟨hb₀, hi₀⟩ := ht x e₀ he₀
      have h1 := subtree_sub F hcharged.1 x
      have h2 := subtree_sub F hcharged.2 x
      show e.bytesUsed = subtree F (h.bytes - _) x ∧ e.inodesUsed = subtree F (h.inodes - _) x
      omega
    · exact ht

/-- **A call that does not lower the limits of a dataset keeps it within them.** -/
theorem step_within (ht : Tracks F h) (hw : Within x h) : ∀ op, KeepsLimit F x h op → Within x (step F h op)
  | .setQuota id config, hop => by
    intro e he
    rcases get?_setQuota he with ⟨-, he⟩ | ⟨rfl, rfl, -, ⟨-, hb, hi⟩ | ⟨e₀, he₀, hb, hi⟩⟩
    · exact hw e he
    · rw [hb, hi]
      exact ⟨fun _ => Nat.zero_le _, fun _ => Nat.zero_le _⟩
    · obtain ⟨hb₀, hi₀⟩ := ht x e₀ he₀
      rw [hb, hi, hb₀, hi₀]
      exact hop rfl
  | .removeQuota id, _ => by
    intro e he
    simp only [step] at he
    rw [get?_removeQuota] at he
    split_ifs at he
    exact hw e he
  | .charge id deltaBytes deltaInodes poolFree, _ => by
    simp only [step]
    split_ifs with hallowed
    · intro e he
      obtain ⟨e₀, he₀, hconfig, hmem, hnot⟩ := get?_charge he
      by_cases hx : x ∈ F.chain id
      · obtain ⟨hroomB, hroomI⟩ := mem_chain_passes hallowed hx he₀
        rw [hconfig]
        rcases hmem hx with ⟨h1, h2⟩ | ⟨-, -, rfl⟩
        · rw [h1, h2]
          refine ⟨hroomB, fun hpos => ?_⟩
          by_cases hdelta : 0 < deltaInodes
          · exact hroomI hpos hdelta
          · obtain rfl : deltaInodes = 0 := by omega
            exact (min_le_left _ _).trans ((hw e₀ he₀).2 hpos)
        · exact hw e he₀
      · rw [hnot hx]
        exact hw e₀ he₀
    · exact hw
  | .credit id deltaBytes deltaInodes, _ => by
    simp only [step]
    split_ifs with hcharged
    · intro e he
      obtain ⟨e₀, he₀, hconfig, hb, hi⟩ := get?_credit he
      obtain ⟨hwB, hwI⟩ := hw e₀ he₀
      rw [hconfig, hb, hi]
      exact ⟨fun hpos => (Nat.sub_le _ _).trans (hwB hpos), fun hpos => (Nat.sub_le _ _).trans (hwI hpos)⟩
    · exact hw

theorem run_tracks : ∀ (ops : List Op) {h : History}, Tracks F h → Along F (Careful F) h ops →
    Tracks F (ops.foldl (step F) h)
  | [], _, ht, _ => ht
  | op :: ops, _, ht, hrun => run_tracks ops (step_tracks ht op hrun.1) hrun.2

theorem run_within : ∀ (ops : List Op) {h : History}, Tracks F h → Within x h →
    Along F (Careful F) h ops → Along F (KeepsLimit F x) h ops → Within x (ops.foldl (step F) h)
  | [], _, _, hw, _, _ => hw
  | op :: ops, _, ht, hw, hrun, hkeeps =>
    run_within ops (step_tracks ht op hrun.1) (step_within ht hw op hkeeps.1) hrun.2 hkeeps.2

/-- **Usage is what the subtree holds.** In a careful run every quota counts what its subtree was charged and not yet
credited, and a dataset whose limits were not set below that stays within them. -/
theorem usage_is_subtree (F : Forest) (ops : List Op) (hrun : Along F (Careful F) start ops) :
    (∀ x e, (run F ops).quotas.get? x = some e →
        e.bytesUsed = subtree F (run F ops).bytes x ∧ e.inodesUsed = subtree F (run F ops).inodes x) ∧
      ∀ x, Along F (KeepsLimit F x) start ops → ∀ e, (run F ops).quotas.get? x = some e →
        (0 < e.config.hardLimitBytes → e.bytesUsed ≤ e.config.hardLimitBytes) ∧
          (0 < e.config.hardLimitInodes → e.inodesUsed ≤ e.config.hardLimitInodes) := by
  have htracks : Tracks F start := fun x e he => by cases he
  refine ⟨run_tracks ops htracks hrun, fun x hkeeps => ?_⟩
  exact run_within ops htracks (fun e he => by cases he) hrun hkeeps

def zeroId : DatasetId := Vector.replicate 16 0

def oneId : DatasetId := Vector.replicate 16 1

/-- A hard limit of a hundred bytes. -/
def hundred : DatasetQuotaConfig := ⟨100, 0, 0, 0, 0⟩

/-- A hard limit of fifty bytes and of four inodes. -/
def fifty : DatasetQuotaConfig := ⟨50, 0, 4, 0, 0⟩

/-- A dataset with one child. -/
def family : Forest where
  parentOf := fun id => if id = oneId then some zeroId else none
  acyclic := by
    have hroot : ∀ x, x ≠ oneId → Acc (fun parent child => (if child = oneId then some zeroId else none) = some parent) x :=
      fun x hx => ⟨x, fun y hy => by simp [hx] at hy⟩
    refine ⟨fun x => ⟨x, fun y hy => ?_⟩⟩
    split_ifs at hy
    obtain rfl := some.inj hy
    exact hroot zeroId (by decide)

theorem family_chain_zero : family.chain zeroId = [zeroId] := by
  rw [Forest.chain]
  rfl

theorem family_chain_one : family.chain oneId = [oneId, zeroId] := by
  rw [Forest.chain]
  show oneId :: family.chain zeroId = _
  rw [family_chain_zero]

/-- The parent is charged what the child is, and is credited with it; a charge above the child's limit is refused. -/
def familyCalls : List Op :=
  [.setQuota zeroId hundred, .setQuota oneId fifty, .charge oneId 30 1 1000, .charge zeroId 20 1 1000,
    .charge oneId 25 1 1000, .credit oneId 10 0]

/-- The two quotas with what they count. -/
def booked (parentBytes parentInodes childBytes childInodes : ℕ) : DatasetQuotaHierarchy :=
  ⟨[(oneId, ⟨fifty, childBytes, childInodes⟩), (zeroId, ⟨hundred, parentBytes, parentInodes⟩)]⟩

theorem step_child : step family ⟨booked 0 0 0 0, 0, 0⟩ (.charge oneId 30 1 1000) =
    ⟨booked 30 1 30 1, 0 + Finsupp.single oneId 30, 0 + Finsupp.single oneId 1⟩ := by
  have hallowed : (booked 0 0 0 0).checkDelta family oneId 30 1 1000 = .allowed := by
    rw [checkDelta, family_chain_one]
    decide
  simp only [step, if_pos hallowed]
  rw [chargeBytes, if_neg (by decide), family_chain_one]
  rfl

theorem step_parent (bytes inodes : DatasetId →₀ ℕ) :
    step family ⟨booked 30 1 30 1, bytes, inodes⟩ (.charge zeroId 20 1 1000) =
      ⟨booked 50 2 30 1, bytes + Finsupp.single zeroId 20, inodes + Finsupp.single zeroId 1⟩ := by
  have hallowed : (booked 30 1 30 1).checkDelta family zeroId 20 1 1000 = .allowed := by
    rw [checkDelta, family_chain_zero]
    decide
  simp only [step, if_pos hallowed]
  rw [chargeBytes, if_neg (by decide), family_chain_zero]
  rfl

theorem step_refused (bytes inodes : DatasetId →₀ ℕ) :
    step family ⟨booked 50 2 30 1, bytes, inodes⟩ (.charge oneId 25 1 1000) = ⟨booked 50 2 30 1, bytes, inodes⟩ := by
  have hrefused : (booked 50 2 30 1).checkDelta family oneId 25 1 1000 ≠ .allowed := by
    rw [checkDelta, family_chain_one]
    decide
  simp only [step, if_neg hrefused]

theorem usage_is_subtree_family :
    (run family familyCalls).quotas.get? zeroId = some ⟨hundred, 40, 2⟩ ∧
      (run family familyCalls).quotas.get? oneId = some ⟨fifty, 20, 1⟩ ∧
      subtree family (run family familyCalls).bytes zeroId = 40 ∧
      subtree family (run family familyCalls).bytes oneId = 20 := by
  have hroom : ∀ x (a b c : ℕ), a + b + c ≤ 1000 →
      subtree family (0 + Finsupp.single oneId a + Finsupp.single zeroId b) x + c ≤ u64Max := by
    intro x a b c hle
    rw [subtree_add, subtree_add, subtree_zero]
    unfold u64Max
    split_ifs <;> omega
  have hstart : (step family (step family start (.setQuota zeroId hundred)) (.setQuota oneId fifty)) =
      ⟨booked 0 0 0 0, 0, 0⟩ := rfl
  have hcareful : Along family (Careful family) start familyCalls := by
    refine ⟨fun _ _ => ⟨subtree_zero _ _, subtree_zero _ _⟩, fun _ _ => ⟨subtree_zero _ _, subtree_zero _ _⟩, ?_⟩
    rw [hstart]
    refine ⟨fun x _ _ => ?_, ?_⟩
    · rw [subtree_zero]
      decide
    rw [step_child]
    refine ⟨fun x _ _ => ?_, ?_⟩
    · rw [subtree_add, subtree_add, subtree_zero]
      unfold u64Max
      split_ifs <;> decide
    rw [step_parent]
    refine ⟨fun x _ _ => ⟨hroom x 30 20 25 (by decide), hroom x 1 1 1 (by decide)⟩, ?_⟩
    exact ⟨trivial, trivial⟩
  have hend : (run family familyCalls).quotas = booked 40 2 20 1 := by
    simp only [run, familyCalls, foldl_cons, foldl_nil]
    rw [hstart, step_child, step_parent, step_refused]
    simp only [step]
    rw [if_pos (by simp [oneId, zeroId])]
    show (booked 50 2 30 1).creditBytes family oneId 10 0 = _
    rw [creditBytes, if_neg (by decide), family_chain_one]
    rfl
  have h := usage_is_subtree family _ hcareful
  have hzero : (run family familyCalls).quotas.get? zeroId = some ⟨hundred, 40, 2⟩ := by
    rw [hend]
    rfl
  have hone : (run family familyCalls).quotas.get? oneId = some ⟨fifty, 20, 1⟩ := by
    rw [hend]
    rfl
  exact ⟨hzero, hone, (h.1 _ _ hzero).1.symm, (h.1 _ _ hone).1.symm⟩

/-- One dataset without a parent. -/
def lone : Forest where
  parentOf := fun _ => none
  acyclic := acyclic_of_no_parents

theorem lone_chain (x : DatasetId) : lone.chain x = [x] := by
  rw [Forest.chain]
  rfl

/-- A quota given to a dataset that was charged before counts from zero. -/
theorem late_quota_forgets :
    (run lone [.charge zeroId 60 0 1000, .setQuota zeroId hundred]).quotas.get? zeroId = some ⟨hundred, 0, 0⟩ ∧
      subtree lone (run lone [.charge zeroId 60 0 1000, .setQuota zeroId hundred]).bytes zeroId = 60 := by
  have hallowed : new.checkDelta lone zeroId 60 0 1000 = .allowed := by
    rw [checkDelta, lone_chain]
    decide
  simp only [run, foldl_cons, foldl_nil, step, start, if_pos hallowed]
  constructor
  · rw [chargeBytes, if_neg (by decide), lone_chain]
    rfl
  · rw [subtree_add, subtree_zero, lone_chain]
    simp

end Hierarchy

end Tidefs.Capacity
