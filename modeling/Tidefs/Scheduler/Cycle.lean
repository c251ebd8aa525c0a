/-
# One cycle of the background scheduler

The services that have work are ticked by priority, each with an equal share of the budget
that is left when its priority is reached, and what a tick reports is taken off. A limit of
zero means no limit, and a share is never below one, so a limit that has been used up no
longer binds: two services can use two items of a budget of one (`runCycle_exceeds`). A cycle
keeps to a limit, whatever the services do with what they are given, exactly if the budget
has no other limit or all services are of one priority and no more than the limit
(`runCycle_within_iff`).

Jobs become services through two adapters. The reports of the fallible one add up to what
the job did; those of the other do so only until the job has done something
(`consumed_eq_progress`).

The services are a parameter: whatever they share is one state, which each call may change.
The wall clock is left out.
-/
import Tidefs.Lib.Word

namespace Tidefs.Scheduler

open Word List Nat

structure ServiceBudget where
  maxItems : ℕ
  maxBytes : ℕ
  maxMs : ℕ
deriving Inhabited

namespace ServiceBudget

def isBounded (b : ServiceBudget) : Bool := 0 < b.maxItems || 0 < b.maxBytes || 0 < b.maxMs

/-- One limit of a fraction; no limit stays none. -/
def fractionOf (limit numerator denominator : ℕ) : ℕ :=
  if limit = 0 then 0 else max (limit * numerator / denominator) 1

def fraction (b : ServiceBudget) (numerator denominator : ℕ) : ServiceBudget :=
  if denominator = 0 then b
  else ⟨fractionOf b.maxItems numerator denominator, fractionOf b.maxBytes numerator denominator,
    fractionOf b.maxMs numerator denominator⟩

def subtractConsumed (b : ServiceBudget) (items bytes _ms : ℕ) : ServiceBudget :=
  { b with maxItems := if 0 < b.maxItems then b.maxItems - items else b.maxItems,
           maxBytes := if 0 < b.maxBytes then b.maxBytes - bytes else b.maxBytes }

theorem sub_of_pos (limit used : ℕ) : (if 0 < limit then limit - used else limit) = limit - used := by
  split_ifs with h
  · rfl
  · omega

end ServiceBudget

/-- The priorities, the most urgent first. -/
inductive ServicePriority where
  | critical
  | latencySensitive
  | throughput
  | bestEffort
  | opportunistic
deriving DecidableEq

def ServicePriority.all : List ServicePriority :=
  [.critical, .latencySensitive, .throughput, .bestEffort, .opportunistic]

/-- What one tick of a service did. -/
structure TickReport where
  processed : ℕ
  skipped : ℕ
  errors : ℕ
  itemsConsumed : ℕ
  bytesConsumed : ℕ
  hasMore : Bool

structure CycleReport where
  perService : List (String × TickReport) := []
  remainingBudget : ServiceBudget := ⟨0, 0, 0⟩
  servicesRan : ℕ := 0
  servicesSkipped : ℕ := 0
  budgetExhausted : Bool := false
  totalProcessed : ℕ := 0
  totalSkipped : ℕ := 0
  totalErrors : ℕ := 0
  preempted : Bool := false

/-- The registered services, by index, and what they do to the state they share. -/
structure Services (σ E : Type) where
  count : ℕ
  name : ℕ → String
  priority : σ → ℕ → ServicePriority
  hasWork : σ → ℕ → Bool
  tick : σ → ℕ → ServiceBudget → σ × Except E TickReport
  /-- `record_dispatched_tick`, given whether the work is completed: whether it failed. -/
  record : σ → ℕ → Bool → σ × Bool
  /-- The preempt flag. -/
  preempted : σ → Bool

/-- The state of a cycle under way. -/
structure Cycle (σ : Type) where
  world : σ
  remaining : ServiceBudget
  report : CycleReport
  lastIndex : ℕ

/-- How the loops go on after a tick. -/
inductive Flow where
  | next
  | stop
  | leave

variable {σ E : Type} (S : Services σ E) (globalBudget : ServiceBudget)

def Cycle.exhausted (c : Cycle σ) : Bool :=
  globalBudget.isBounded && c.remaining.maxItems == 0 && c.remaining.maxBytes == 0 && c.remaining.maxMs == 0

def Cycle.setExhausted (c : Cycle σ) : Cycle σ := { c with report := { c.report with budgetExhausted := true } }

/-- What the cycle does with the answer of a tick. -/
def Cycle.account (c : Cycle σ) (idx : ℕ) : σ × Except E TickReport → Cycle σ
  | (world, .ok tickReport) =>
    let (world', failed) := S.record world idx (!tickReport.hasMore || !S.hasWork world idx)
    let tickReport := if failed then { tickReport with errors := satAdd tickReport.errors 1 } else tickReport
    { world := world'
      remaining := c.remaining.subtractConsumed tickReport.itemsConsumed tickReport.bytesConsumed 0
      report := { c.report with
        perService := c.report.perService ++ [(S.name idx, tickReport)]
        servicesRan := c.report.servicesRan + 1
        totalProcessed := wrap64 (c.report.totalProcessed + tickReport.processed)
        totalSkipped := wrap64 (c.report.totalSkipped + tickReport.skipped)
        totalErrors := wrap64 (c.report.totalErrors + tickReport.errors) }
      lastIndex := idx }
  | (world, .error _) =>
    { c with world, report := { c.report with servicesSkipped := c.report.servicesSkipped + 1 } }

def Cycle.dispatch (share : ServiceBudget) (c : Cycle σ) (idx : ℕ) : Cycle σ × Flow :=
  if c.exhausted globalBudget then (c.setExhausted, .stop)
  else
    let c := c.account S idx (S.tick c.world idx share)
    if S.preempted c.world then ({ c with report := { c.report with preempted := true } }, .leave)
    else if c.exhausted globalBudget then (c.setExhausted, .stop)
    else (c, .next)

/-- The services of one priority in turn; whether the cycle is left at once. -/
def Cycle.dispatchAll (share : ServiceBudget) : List ℕ → Cycle σ → Cycle σ × Bool
  | [], c => (c, false)
  | idx :: rest, c =>
    match c.dispatch S globalBudget share idx with
    | (c, .next) => dispatchAll share rest c
    | (c, .stop) => (c, false)
    | (c, .leave) => (c, true)

def Cycle.indices (c : Cycle σ) (stage : ServicePriority) : List ℕ :=
  (List.range S.count).filter fun i => S.priority c.world i == stage && S.hasWork c.world i

/-- From the first service that is not before the last one ticked, around. -/
def Cycle.order (c : Cycle σ) (indices : List ℕ) : List ℕ :=
  let startPos := (indices.findIdx? (c.lastIndex ≤ ·)).getD 0
  (List.range indices.length).map fun offset => indices.getD ((startPos + offset) % indices.length) 0

def Cycle.stage (c : Cycle σ) (stage : ServicePriority) : Cycle σ × Bool :=
  let indices := c.indices S stage
  if indices.isEmpty then (c, false)
  else c.dispatchAll S globalBudget (c.remaining.fraction 1 indices.length) (c.order indices)

def Cycle.stages : List ServicePriority → Cycle σ → Cycle σ
  | [], c => c
  | stage :: rest, c =>
    let out := c.stage S globalBudget stage
    if out.2 || out.1.report.budgetExhausted then out.1 else stages rest out.1

def start (world : σ) : Cycle σ := ⟨world, globalBudget, {}, 0⟩

def runCycle (world : σ) : CycleReport :=
  let c := (start globalBudget world).stages S globalBudget ServicePriority.all
  { c.report with remainingBudget := c.remaining }

/-! ### What is used -/

/-- The two limits that a report says something is used of. -/
inductive Dimension where
  | items
  | bytes

namespace Dimension

def limit : Dimension → ServiceBudget → ℕ
  | items, b => b.maxItems
  | bytes, b => b.maxBytes

def other : Dimension → ServiceBudget → ℕ
  | items, b => b.maxBytes
  | bytes, b => b.maxItems

def used : Dimension → TickReport → ℕ
  | items, r => r.itemsConsumed
  | bytes, r => r.bytesConsumed

def total (D : Dimension) (report : CycleReport) : ℕ := (report.perService.map fun e => D.used e.2).sum

variable (D : Dimension)

theorem limit_fraction (b : ServiceBudget) {n : ℕ} (hn : 0 < n) :
    D.limit (b.fraction 1 n) = ServiceBudget.fractionOf (D.limit b) 1 n := by
  cases D <;> rw [ServiceBudget.fraction, if_neg hn.ne'] <;> rfl

theorem limit_subtract (b : ServiceBudget) (r : TickReport) :
    D.limit (b.subtractConsumed r.itemsConsumed r.bytesConsumed 0) = D.limit b - D.used r := by
  cases D <;> exact ServiceBudget.sub_of_pos _ _

theorem other_subtract_le (b : ServiceBudget) (r : TickReport) :
    D.other (b.subtractConsumed r.itemsConsumed r.bytesConsumed 0) ≤ D.other b := by
  cases D <;> exact (ServiceBudget.sub_of_pos _ _).trans_le (Nat.sub_le _ _)

theorem used_errors (r : TickReport) (failed : Bool) :
    D.used (if failed then { r with errors := satAdd r.errors 1 } else r) = D.used r := by
  cases D <;> cases failed <;> rfl

end Dimension

/-- No service reports more than a limit it is ticked with. -/
def Modest (D : Dimension) : Prop :=
  ∀ world i b r, (S.tick world i b).2 = .ok r → D.limit b ≠ 0 → D.used r ≤ D.limit b

/-- So many services are registered, with these priorities. -/
structure Registered (count : ℕ) (priority : ℕ → ServicePriority) : Prop where
  count : S.count = count
  priority : ∀ world i, S.priority world i = priority i

variable {S globalBudget} {D : Dimension} {c : Cycle σ} {total : ℕ}

/-! ### Cycles within their limit -/

/-- What is used and what is left are the limit. -/
def Within (D : Dimension) (total : ℕ) (c : Cycle σ) : Prop := D.total c.report + D.limit c.remaining = total

/-- There is no other limit, so that the cycle ends when this one is used up. -/
def Sole (D : Dimension) (c : Cycle σ) : Prop := D.other c.remaining = 0 ∧ c.remaining.maxMs = 0

theorem Sole.account (h : Sole D c) (idx : ℕ) (answer : σ × Except E TickReport) : Sole D (c.account S idx answer) := by
  obtain ⟨world, e | r⟩ := answer
  · exact h
  · refine ⟨Nat.le_zero.mp ?_, h.2⟩
    exact (D.other_subtract_le _ _).trans h.1.le

theorem Sole.exhausted (h : Sole D c) (hbudget : D.limit globalBudget ≠ 0) (hspent : D.limit c.remaining = 0) :
    c.exhausted globalBudget = true := by
  have hpos := Nat.pos_of_ne_zero hbudget
  cases D <;> simp_all [Sole, Cycle.exhausted, ServiceBudget.isBounded, Dimension.limit, Dimension.other]

theorem Within.account (h : Within D total c) {share : ServiceBudget} (hS : Modest S D) (hshare : D.limit share ≠ 0)
    (hle : D.limit share ≤ D.limit c.remaining) (idx : ℕ) :
    Within D total (c.account S idx (S.tick c.world idx share)) ∧
      D.limit c.remaining ≤ D.limit (c.account S idx (S.tick c.world idx share)).remaining + D.limit share := by
  have hmodest := hS c.world idx share
  unfold Within Dimension.total at h ⊢
  cases htick : S.tick c.world idx share with
  | mk world answer =>
    rw [htick] at hmodest
    cases answer with
    | error e => exact ⟨h, le_add_right _ _⟩
    | ok r =>
      have hused := hmodest r rfl hshare
      simp only [Cycle.account, D.limit_subtract, map_append, List.sum_append_nat, map_singleton, sum_singleton,
        D.used_errors]
      omega

/-- The ticks of one priority: the shares of those still to come are left, or the share is one and the cycle ends with
the last item. -/
theorem Within.dispatchAll (hS : Modest S D) (hbudget : D.limit globalBudget ≠ 0) {share : ServiceBudget} :
    ∀ (idxs : List ℕ) {c : Cycle σ}, Within D total c →
      D.limit share ≠ 0 ∧ idxs.length * D.limit share ≤ D.limit c.remaining ∨
        Sole D c ∧ (D.limit share = 1 ∨ D.limit c.remaining = 0) →
      Within D total (c.dispatchAll S globalBudget share idxs).1 ∧
        (Sole D c → Sole D (c.dispatchAll S globalBudget share idxs).1)
  | [], _, h, _ => ⟨h, id⟩
  | idx :: rest, c, h, hleft => by
    rw [length_cons, succ_mul] at hleft
    unfold Cycle.dispatchAll Cycle.dispatch
    dsimp only
    by_cases hend : c.exhausted globalBudget = true
    · rw [if_pos hend]
      exact ⟨h, id⟩
    rw [if_neg hend]
    have hleft' : D.limit share ≠ 0 ∧ D.limit share ≤ D.limit c.remaining := by
      rcases hleft with ⟨hne, hle⟩ | ⟨hsole, hone⟩
      · exact ⟨hne, by omega⟩
      · have := mt (hsole.exhausted hbudget) hend
        omega
    obtain ⟨haccount, hspent⟩ := h.account hS hleft'.1 hleft'.2 idx
    have hsole' := fun hsole : Sole D c => hsole.account (S := S) idx (S.tick c.world idx share)
    split_ifs
    · exact ⟨haccount, hsole'⟩
    · exact ⟨haccount, hsole'⟩
    · obtain ⟨hrest, hsoleRest⟩ := Within.dispatchAll hS hbudget rest haccount (by
        rcases hleft with ⟨hne, hle⟩ | ⟨hsole, hone⟩
        · exact .inl ⟨hne, by omega⟩
        · exact .inr ⟨hsole' hsole, .inl (by
            have := mt (hsole.exhausted hbudget) hend
            omega)⟩)
      exact ⟨hrest, fun hsole => hsoleRest (hsole' hsole)⟩

theorem Within.stage (h : Within D total c) (hS : Modest S D) (hbudget : D.limit globalBudget ≠ 0)
    {stage : ServicePriority} (hroom : (c.indices S stage).length ≤ D.limit c.remaining ∨ Sole D c) :
    Within D total (c.stage S globalBudget stage).1 ∧ (Sole D c → Sole D (c.stage S globalBudget stage).1) := by
  unfold Cycle.stage
  dsimp only
  split_ifs with hempty
  · exact ⟨h, id⟩
  have hpos : 0 < (c.indices S stage).length := length_pos_iff.mpr fun hnil => hempty (by rw [hnil]; rfl)
  have hlength : (c.order (c.indices S stage)).length = (c.indices S stage).length := by
    rw [Cycle.order, length_map, length_range]
  refine Within.dispatchAll hS hbudget _ h ?_
  rw [hlength, D.limit_fraction _ hpos, ServiceBudget.fractionOf, mul_one]
  rcases Nat.lt_or_ge (D.limit c.remaining) (c.indices S stage).length with hfew | hmany
  · refine .inr ⟨hroom.resolve_left hfew.not_ge, ?_⟩
    rw [Nat.div_eq_of_lt hfew]
    split_ifs with hspent
    · exact .inr hspent
    · exact .inl rfl
  · -- the share is the quotient itself, since that is at least one
    have hone := (one_le_div_iff hpos).mpr hmany
    rw [if_neg (by omega), max_eq_left hone]
    exact .inl ⟨by omega, mul_div_le _ _⟩

theorem Within.stages_sole (hS : Modest S D) (hbudget : D.limit globalBudget ≠ 0) : ∀ (stages : List ServicePriority)
    {c : Cycle σ}, Within D total c → Sole D c → Within D total (c.stages S globalBudget stages)
  | [], _, h, _ => h
  | stage :: rest, c, h, hsole => by
    obtain ⟨hstage, hsole'⟩ := @Within.stage _ _ S globalBudget D c total h hS hbudget stage (.inr hsole)
    rw [Cycle.stages]
    split_ifs
    · exact hstage
    · exact Within.stages_sole hS hbudget rest hstage (hsole' hsole)

theorem Cycle.stage_of_none {stage : ServicePriority} (h : c.indices S stage = []) :
    c.stage S globalBudget stage = (c, false) := by
  rw [Cycle.stage, h]
  rfl

/-- With services of one priority only that priority matters. -/
theorem Within.stages_one (hS : Modest S D) (hbudget : D.limit globalBudget ≠ 0) {only : ServicePriority}
    (honly : ∀ (c : Cycle σ) stage, stage ≠ only → c.indices S stage = []) (hcount : S.count ≤ D.limit globalBudget) :
    ∀ {stages : List ServicePriority} {c : Cycle σ}, stages.Nodup → Within D total c →
      (only ∈ stages → D.limit c.remaining = D.limit globalBudget) → Within D total (c.stages S globalBudget stages)
  | [], _, _, h, _ => h
  | stage :: rest, c, hnodup, h, hfresh => by
    obtain ⟨hnot, hnodup⟩ := nodup_cons.mp hnodup
    rw [Cycle.stages]
    by_cases hstage : stage = only
    · subst hstage
      have hroom : (c.indices S stage).length ≤ D.limit c.remaining := by
        rw [hfresh mem_cons_self]
        exact ((length_filter_le _ _).trans_eq length_range).trans hcount
      obtain ⟨hdone, -⟩ := h.stage hS hbudget (.inl hroom)
      split_ifs
      · exact hdone
      · exact Within.stages_one hS hbudget honly hcount hnodup hdone fun hmem => absurd hmem hnot
    · rw [Cycle.stage_of_none (honly c stage hstage)]
      split_ifs
      · exact h
      · exact Within.stages_one hS hbudget honly hcount hnodup h fun hmem => hfresh (mem_cons_of_mem _ hmem)

/-! ### Services that use what they get -/

/-- A report of so much used of one limit and nothing of the other. -/
def Dimension.report : Dimension → ℕ → TickReport
  | items, n => ⟨0, 0, 0, n, 0, true⟩
  | bytes, n => ⟨0, 0, 0, 0, n, true⟩

/-- What a service uses that uses all it gets, or one without a limit. -/
def Dimension.greed (D : Dimension) (b : ServiceBudget) : ℕ := if D.limit b = 0 then 1 else D.limit b

/-- Services that use all they get; those that `work` have work. -/
def greedy (D : Dimension) (count : ℕ) (priority : ℕ → ServicePriority) (work : ℕ → Bool) : Services Unit Empty where
  count := count
  name _ := "greedy"
  priority _ := priority
  hasWork _ := work
  tick w _ b := (w, .ok (D.report (D.greed b)))
  record w _ _ := (w, false)
  preempted _ := false

section Greedy

variable {count : ℕ} {priority : ℕ → ServicePriority} {work : ℕ → Bool} {c : Cycle Unit}

theorem greedy_modest (D D' : Dimension) : Modest (greedy D count priority work) D' := by
  rintro _ _ b _ ⟨rfl⟩ hb
  cases D <;> cases D' <;> simp_all [Dimension.report, Dimension.used, Dimension.greed]

/-- Some other limit is left, and the cycle does not end. -/
structure Unspent (D : Dimension) (c : Cycle Unit) : Prop where
  left : D.other c.remaining ≠ 0 ∨ c.remaining.maxMs ≠ 0
  going : c.report.budgetExhausted = false

theorem Unspent.exhausted (h : Unspent D c) : c.exhausted globalBudget = false := by
  have := h.left
  cases D <;> simp_all [Cycle.exhausted, Dimension.other] <;> tauto

/-- A tick of a greedy service. -/
theorem greedy_account (share : ServiceBudget) (h : Unspent D c) (idx : ℕ) :
    let c' := c.account (greedy D count priority work) idx ((greedy D count priority work).tick c.world idx share)
    Unspent D c' ∧ D.total c'.report = D.total c.report + D.greed share ∧
      D.limit c'.remaining = D.limit c.remaining - D.greed share := by
  have hleft := h.left
  refine ⟨⟨?_, h.going⟩, ?_, ?_⟩
  · cases D <;> simpa [Cycle.account, greedy, Dimension.report, Dimension.other, ServiceBudget.subtractConsumed] using hleft
  · cases D <;> simp [Cycle.account, greedy, Dimension.report, Dimension.total, Dimension.used]
  · cases D <;> exact ServiceBudget.sub_of_pos _ _

theorem greedy_dispatchAll (share : ServiceBudget) : ∀ (idxs : List ℕ) {c : Cycle Unit}, Unspent D c →
    let out := c.dispatchAll (greedy D count priority work) globalBudget share idxs
    out.2 = false ∧ Unspent D out.1 ∧ D.total out.1.report = D.total c.report + idxs.length * D.greed share ∧
      D.limit out.1.remaining = D.limit c.remaining - idxs.length * D.greed share
  | [], c, h => ⟨rfl, h, by simp [Cycle.dispatchAll], by simp [Cycle.dispatchAll]⟩
  | idx :: rest, c, h => by
    obtain ⟨hgoing, htotal, hlimit⟩ := @greedy_account D count priority work c share h idx
    have hnext : c.dispatch (greedy D count priority work) globalBudget share idx =
        (c.account (greedy D count priority work) idx ((greedy D count priority work).tick c.world idx share), .next) := by
      rw [Cycle.dispatch, if_neg (by rw [h.exhausted]; decide)]
      dsimp only
      rw [if_neg (by simp [greedy]), if_neg (by rw [hgoing.exhausted]; decide)]
    have hrest := greedy_dispatchAll share rest hgoing
    simp only [Cycle.dispatchAll, hnext, length_cons, succ_mul]
    rw [htotal, hlimit] at hrest
    exact ⟨hrest.1, hrest.2.1, by omega, by omega⟩

/-- A priority with services to tick. -/
theorem greedy_stage (h : Unspent D c) {stage : ServicePriority}
    (hwork : 0 < (c.indices (greedy D count priority work) stage).length) :
    let n := (c.indices (greedy D count priority work) stage).length
    let out := c.stage (greedy D count priority work) globalBudget stage
    out.2 = false ∧ Unspent D out.1 ∧
      D.total out.1.report = D.total c.report + n * D.greed (c.remaining.fraction 1 n) ∧
      D.limit out.1.remaining = D.limit c.remaining - n * D.greed (c.remaining.fraction 1 n) := by
  intro n out
  have hlength : (c.order (c.indices (greedy D count priority work) stage)).length = n := by
    rw [Cycle.order, length_map, length_range]
  have hout := @greedy_dispatchAll globalBudget D count priority work (c.remaining.fraction 1 n) (c.order (c.indices (greedy D count priority work) stage)) _ h
  rw [hlength] at hout
  have hstage : out = c.dispatchAll (greedy D count priority work) globalBudget (c.remaining.fraction 1 n)
      (c.order (c.indices (greedy D count priority work) stage)) := by
    refine if_neg fun hempty => ?_
    rw [isEmpty_iff.mp hempty] at hwork
    exact absurd hwork (by decide)
  rw [hstage]
  exact hout

theorem greed_pos (b : ServiceBudget) : 0 < D.greed b := by
  unfold Dimension.greed
  split_ifs <;> omega

/-- What has been used stays used. -/
theorem greedy_stages_le : ∀ (stages : List ServicePriority) {c : Cycle Unit}, Unspent D c →
    D.total c.report ≤ D.total (c.stages (greedy D count priority work) globalBudget stages).report
  | [], _, _ => le_rfl
  | stage :: rest, c, h => by
    rw [Cycle.stages]
    rcases Nat.eq_zero_or_pos (c.indices (greedy D count priority work) stage).length with hnone | hwork
    · rw [Cycle.stage_of_none (length_eq_zero_iff.mp hnone), if_neg (by simp [h.going])]
      exact greedy_stages_le rest h
    · obtain ⟨hfalse, hgoing, htotal, -⟩ := @greedy_stage globalBudget D count priority work c h _ hwork
      rw [if_neg (by simp [hfalse, hgoing.going])]
      exact le_trans (by omega) (greedy_stages_le rest hgoing)

/-- At each priority with work something is used for every service, be there a limit left or not. -/
theorem greedy_stages_add {stage : ServicePriority} {n : ℕ} (hwork : ∀ c : Cycle Unit,
      n ≤ (c.indices (greedy D count priority work) stage).length) : ∀ {stages : List ServicePriority} {c : Cycle Unit},
    stage ∈ stages → Unspent D c →
      D.total c.report + n ≤ D.total (c.stages (greedy D count priority work) globalBudget stages).report
  | s :: rest, c, hmem, h => by
    have hn := hwork c
    rw [Cycle.stages]
    rcases Nat.eq_zero_or_pos (c.indices (greedy D count priority work) s).length with hnone | hsome
    · rw [Cycle.stage_of_none (length_eq_zero_iff.mp hnone), if_neg (by simp [h.going])]
      rcases mem_cons.mp hmem with rfl | hmem
      · rw [show n = 0 by omega]
        exact greedy_stages_le rest h
      · exact greedy_stages_add hwork hmem h
    · obtain ⟨hfalse, hgoing, htotal, -⟩ := @greedy_stage globalBudget D count priority work c h _ hsome
      rw [if_neg (by simp [hfalse, hgoing.going])]
      rcases mem_cons.mp hmem with rfl | hmem
      · have hmore := Nat.le_mul_of_pos_right (c.indices (greedy D count priority work) stage).length
          (greed_pos (D := D) (c.remaining.fraction 1 (c.indices (greedy D count priority work) stage).length))
        exact le_trans (by omega) (greedy_stages_le rest hgoing)
      · exact le_trans (by omega) (greedy_stages_add hwork hmem hgoing)

/-- Of one service that works alone at its priority the limit is used up, and another one goes on. -/
theorem greedy_stages_two {p q : ServicePriority} (hpq : p ≠ q)
    (hone : ∀ (c : Cycle Unit) stage, (c.indices (greedy D count priority work) stage).length ≤ 1)
    (hp : ∀ c : Cycle Unit, 0 < (c.indices (greedy D count priority work) p).length)
    (hq : ∀ c : Cycle Unit, 0 < (c.indices (greedy D count priority work) q).length) :
    ∀ {stages : List ServicePriority} {c : Cycle Unit}, p ∈ stages → q ∈ stages → Unspent D c →
      D.total c.report + D.limit c.remaining <
        D.total (c.stages (greedy D count priority work) globalBudget stages).report
  | s :: rest, c, hpmem, hqmem, h => by
    rw [Cycle.stages]
    rcases Nat.eq_zero_or_pos (c.indices (greedy D count priority work) s).length with hnone | hsome
    · have hps : p ≠ s := fun heq => absurd (hp c) (by rw [heq, hnone]; decide)
      have hqs : q ≠ s := fun heq => absurd (hq c) (by rw [heq, hnone]; decide)
      rw [Cycle.stage_of_none (length_eq_zero_iff.mp hnone), if_neg (by simp [h.going])]
      exact greedy_stages_two hpq hone hp hq ((mem_cons.mp hpmem).resolve_left hps)
        ((mem_cons.mp hqmem).resolve_left hqs) h
    · obtain ⟨hfalse, hgoing, htotal, -⟩ := @greedy_stage globalBudget D count priority work c h _ hsome
      have hn : (c.indices (greedy D count priority work) s).length = 1 := le_antisymm (hone c s) hsome
      rw [hn, one_mul, Dimension.greed, D.limit_fraction _ one_pos, ServiceBudget.fractionOf, mul_one, Nat.div_one]
        at htotal
      rw [if_neg (by simp [hfalse, hgoing.going])]
      have hused : D.total c.report + D.limit c.remaining ≤
          D.total (c.stage (greedy D count priority work) globalBudget s).1.report := by
        split_ifs at htotal <;> omega
      refine lt_of_le_of_lt hused ?_
      rcases eq_or_ne p s with rfl | hps
      · exact greedy_stages_add hq ((mem_cons.mp hqmem).resolve_left hpq.symm) hgoing
      · exact greedy_stages_add hp ((mem_cons.mp hpmem).resolve_left hps) hgoing

end Greedy

/-! ### Exactly when -/

theorem ServicePriority.mem_all (p : ServicePriority) : p ∈ ServicePriority.all := by cases p <;> decide

/-- **Which cycles keep to a limit**, whatever modest services do: exactly those whose budget has this limit only, for
then the cycle ends when it is used up, and those of services of one priority that are no more than the limit. -/
theorem runCycle_within_iff (D : Dimension) (count : ℕ) (priority : ℕ → ServicePriority) (globalBudget : ServiceBudget)
    (hlimit : D.limit globalBudget ≠ 0) :
    (∀ (σ E : Type) (S : Services σ E) (world : σ), Registered S count priority → Modest S .items → Modest S .bytes →
      D.total (runCycle S globalBudget world) ≤ D.limit globalBudget) ↔
    (D.other globalBudget = 0 ∧ globalBudget.maxMs = 0) ∨
      (∀ i < count, ∀ j < count, priority i = priority j) ∧ count ≤ D.limit globalBudget := by
  constructor
  · intro hkeeps
    by_contra hcond
    rw [not_or, not_and_or, not_and] at hcond
    obtain ⟨hother, hone⟩ := hcond
    have hstart : Unspent D (start globalBudget ()) := ⟨hother, rfl⟩
    have hgreedy := fun work => hkeeps Unit Empty (greedy D count priority work) () ⟨rfl, fun _ _ => rfl⟩
      (greedy_modest D .items) (greedy_modest D .bytes)
    by_cases hsame : ∀ i < count, ∀ j < count, priority i = priority j
    · -- more services than the limit, all of one priority
      have hmany : D.limit globalBudget < count := not_le.mp (hone hsame)
      have hwork : ∀ c : Cycle Unit,
          count ≤ (c.indices (greedy D count priority fun _ => true) (priority 0)).length := by
        intro c
        rw [Cycle.indices, filter_eq_self.mpr]
        · exact length_range.ge
        · intro i hi
          simpa [greedy] using hsame i (mem_range.mp hi) 0 (by omega)
      have hused := @greedy_stages_add globalBudget _ _ _ _ _ _ hwork _ _ (ServicePriority.mem_all _) hstart
      exact absurd (hgreedy fun _ => true) (not_le.mpr (lt_of_lt_of_le hmany (le_trans (Nat.le_add_left _ _) hused)))
    · -- two services of different priorities, of which the first uses the limit up
      push Not at hsame
      obtain ⟨i, hi, j, hj, hne⟩ := hsame
      have hmem : ∀ (c : Cycle Unit) p k, k ∈ c.indices (greedy D count priority fun k => k = i || k = j) p ↔
          k < count ∧ priority k = p ∧ (k = i ∨ k = j) := fun c p k => by
        simp [Cycle.indices, greedy]
      have hone : ∀ (c : Cycle Unit) p,
          (c.indices (greedy D count priority fun k => k = i || k = j) p).length ≤ 1 := fun c p => by
        have hnodup : (c.indices (greedy D count priority fun k => k = i || k = j) p).Nodup := nodup_range.filter _
        have hsub : c.indices (greedy D count priority fun k => k = i || k = j) p ⊆
            [if priority i = p then i else j] := by
          intro k hk
          obtain ⟨-, hp, rfl | rfl⟩ := (hmem c p k).mp hk
          · simp [hp]
          · rw [if_neg (fun h => hne (h.trans hp.symm))]
            exact mem_singleton_self _
        exact (hnodup.subperm hsub).length_le
      have hp : ∀ c : Cycle Unit, 0 < (c.indices (greedy D count priority fun k => k = i || k = j) (priority i)).length :=
        fun c => length_pos_of_mem ((hmem c _ i).mpr ⟨hi, rfl, .inl rfl⟩)
      have hq : ∀ c : Cycle Unit, 0 < (c.indices (greedy D count priority fun k => k = i || k = j) (priority j)).length :=
        fun c => length_pos_of_mem ((hmem c _ j).mpr ⟨hj, rfl, .inr rfl⟩)
      have hused := @greedy_stages_two globalBudget _ _ _ _ _ _ hne hone hp hq _ _ (ServicePriority.mem_all _)
        (ServicePriority.mem_all _) hstart
      exact absurd (hgreedy _) (not_le.mpr (lt_of_le_of_lt (Nat.le_add_left _ _) hused))
  · intro hcond σ E S world hreg hitems hbytes
    have hS : Modest S D := by cases D <;> assumption
    have hstart : Within D (D.limit globalBudget) (start globalBudget world) := zero_add _
    refine (Nat.le_add_right _ _).trans (Eq.le (?_ : Within D _ ((start globalBudget world).stages S globalBudget _)))
    rcases hcond with hsole | ⟨hsame, hcount⟩
    · exact hstart.stages_sole hS hlimit _ hsole
    · have honly : ∀ (c : Cycle σ) stage, stage ≠ priority 0 → c.indices S stage = [] := fun c stage hstage => by
        refine filter_eq_nil_iff.mpr fun i hi => ?_
        rw [mem_range, hreg.count] at hi
        rw [hreg.priority, hsame i hi 0 (by omega)]
        simp [Ne.symm hstage]
      exact Within.stages_one hS hlimit honly (hreg.count ▸ hcount) (by decide) hstart fun _ => rfl

/-- Services that use one item and no bytes in each tick. -/
def oneEach (count : ℕ) : Services Unit Empty where
  count := count
  name _ := "one"
  priority _ _ := .critical
  hasWork _ _ := true
  tick w _ _ := (w, .ok ⟨1, 0, 0, 1, 0, true⟩)
  record w _ _ := (w, false)
  preempted _ := false

theorem oneEach_modest (count : ℕ) : Modest (oneEach count) .items ∧ Modest (oneEach count) .bytes := by
  refine ⟨?_, ?_⟩
  · rintro _ _ b _ ⟨rfl⟩ hb
    exact one_le_iff_ne_zero.mpr hb
  · rintro _ _ b _ ⟨rfl⟩ _
    exact zero_le _

/-- Three services and an item for each; and three services and one item, with nothing else limited. -/
theorem runCycle_within_iff_three : Dimension.items.total (runCycle (oneEach 3) ⟨3, 0, 50⟩ ()) ≤ 3 ∧
    Dimension.items.total (runCycle (oneEach 3) ⟨1, 0, 0⟩ ()) ≤ 1 := by
  have hkeeps := fun globalBudget hlimit hcond =>
    (runCycle_within_iff .items 3 (fun _ => .critical) globalBudget hlimit).mpr hcond Unit Empty (oneEach 3) ()
      ⟨rfl, fun _ _ => rfl⟩ (oneEach_modest 3).1 (oneEach_modest 3).2
  exact ⟨hkeeps ⟨3, 0, 50⟩ (by decide) (.inr ⟨fun _ _ _ _ => rfl, by decide⟩), hkeeps ⟨1, 0, 0⟩ (by decide) (.inl ⟨rfl, rfl⟩)⟩

/-- **A limit that is used up no longer binds**: of one item, two are used. -/
theorem runCycle_exceeds :
    ∃ S : Services Unit Empty, Modest S .items ∧ Modest S .bytes ∧ ∃ globalBudget : ServiceBudget,
      globalBudget.maxItems ≠ 0 ∧ globalBudget.maxItems < Dimension.items.total (runCycle S globalBudget ()) :=
  ⟨oneEach 2, (oneEach_modest 2).1, (oneEach_modest 2).2, ⟨1, 0, 50⟩, by decide, by decide⟩

/-! ### Jobs as services -/

/-- The items and the bytes processed so far. -/
abbrev Progress := ℕ × ℕ

def TickReport.consumed (r : TickReport) : Progress := (r.itemsConsumed, r.bytesConsumed)

/-- What a step of a job returns: the progress of its checkpoint, and whether the job is complete. -/
structure StepResult where
  progress : Progress
  isComplete : Bool

/-- The tick of `IncrementalJobAdapter`, on the job and on whether it was complete. -/
def incrementalTick {J : Type} (step : J → ServiceBudget → J × StepResult) (budget : ServiceBudget) :
    J × Bool → (J × Bool) × TickReport
  | (job, true) => ((job, true), ⟨0, 0, 0, 0, 0, false⟩)
  | (job, false) =>
    let (job, s) := step job budget
    ((job, s.isComplete), ⟨s.progress.1, 0, 0, s.progress.1, s.progress.2, !s.isComplete⟩)

structure FallibleJob (J E : Type) where
  step : J → ServiceBudget → J × Except E StepResult
  persistCheckpoint : J → Progress → J × Except E Unit
  complete : J → Except E Unit

structure FallibleIncrementalJobAdapter (J : Type) where
  job : Option J
  lastCheckpoint : Option Progress
  lastItemsReported : ℕ
  lastBytesReported : ℕ

namespace FallibleIncrementalJobAdapter

variable {J E : Type} (F : FallibleJob J E)

def new (job : J) : FallibleIncrementalJobAdapter J := ⟨some job, none, 0, 0⟩

def resumed (job : J) : Option Progress → FallibleIncrementalJobAdapter J
  | none => new job
  | some p => ⟨some job, some p, p.1, p.2⟩

variable (a : FallibleIncrementalJobAdapter J)

def tick (budget : ServiceBudget) : FallibleIncrementalJobAdapter J × Except E TickReport :=
  match a.job with
  | none => (a, .ok ⟨0, 0, 0, 0, 0, false⟩)
  | some job =>
    match F.step job budget with
    | (job, .error e) => ({ a with job }, .error e)
    | (job, .ok s) =>
      match F.persistCheckpoint job s.progress with
      | (job, .error e) => ({ a with job }, .error e)
      | (job, .ok ()) =>
        let items := s.progress.1 - a.lastItemsReported
        let report := ⟨items, 0, 0, items, s.progress.2 - a.lastBytesReported, !s.isComplete⟩
        if s.isComplete then (⟨none, s.progress, s.progress.1, s.progress.2⟩, (F.complete job).map fun _ => report)
        else (⟨job, s.progress, s.progress.1, s.progress.2⟩, .ok report)

def ticks : List ServiceBudget → FallibleIncrementalJobAdapter J →
    FallibleIncrementalJobAdapter J × List (Except E TickReport)
  | [], a => (a, [])
  | budget :: budgets, a => ((ticks budgets (a.tick F budget).1).1,
    (a.tick F budget).2 :: (ticks budgets (a.tick F budget).1).2)

/-- The items and bytes that a tick says were consumed; a failed one says nothing. -/
def consumed : Except E TickReport → Progress
  | .ok r => r.consumed
  | .error _ => 0

def reported : Progress := (a.lastItemsReported, a.lastBytesReported)

/-- What the job has done, or its last checkpoint once it is complete. -/
def progress (done : J → Progress) : Progress := a.job.elim (a.lastCheckpoint.getD 0) done

/-- The progress of checkpoints is what the job has done in all, which never decreases. -/
structure Cumulative (done : J → Progress) : Prop where
  step : ∀ j b, done j ≤ done (F.step j b).1
  progress : ∀ j b s, (F.step j b).2 = .ok s → s.progress = done (F.step j b).1
  persist : ∀ j p, done (F.persistCheckpoint j p).1 = done j

/-- If the next step, its checkpoint or the completion will fail, the step does nothing. -/
def Candid (done : J → Progress) (budget : ServiceBudget) : Prop :=
  ∀ job, a.job = some job → done (F.step job budget).1 = done job ∨
    ∃ s, (F.step job budget).2 = .ok s ∧ (F.persistCheckpoint (F.step job budget).1 s.progress).2 = .ok () ∧
      (s.isComplete = true → F.complete (F.persistCheckpoint (F.step job budget).1 s.progress).1 = .ok ())

def CandidRun (done : J → Progress) : List ServiceBudget → FallibleIncrementalJobAdapter J → Prop
  | [], _ => True
  | budget :: budgets, a => Candid F a done budget ∧ CandidRun done budgets (a.tick F budget).1

variable {F a} {done : J → Progress} (hF : Cumulative F done)
include hF

/-- **A tick reports what the job did in it**, if what was reported before is what it had done. -/
theorem tick_told (h : a.reported = a.progress done) {budget : ServiceBudget} (hcandid : Candid F a done budget) :
    (a.tick F budget).1.reported = (a.tick F budget).1.progress done ∧
      consumed (a.tick F budget).2 + a.reported = (a.tick F budget).1.reported := by
  unfold FallibleIncrementalJobAdapter.tick
  split
  · exact ⟨h, zero_add _⟩
  rename_i job hjob
  have hbefore : a.reported = done job := by rw [h, progress, hjob]; rfl
  have hdone := hF.step job budget
  have hprogress := hF.progress job budget
  have hidle := hcandid job hjob
  split
  · rename_i job' e hstep
    simp only [hstep, reduceCtorEq, false_and, exists_false, or_false] at hidle
    exact ⟨hbefore.trans hidle.symm, zero_add _⟩
  rename_i job' s hstep
  rw [hstep] at hdone hprogress
  have hpersist := hF.persist job' s.progress
  simp only [hstep, Except.ok.injEq, exists_eq_left'] at hidle
  have hs : s.progress = done job' := hprogress s rfl
  split
  · rename_i job'' e hfailed
    rw [hfailed] at hpersist
    simp only [hfailed, reduceCtorEq, false_and, or_false] at hidle
    exact ⟨hbefore.trans (hidle.symm.trans hpersist.symm), zero_add _⟩
  · rename_i job'' hpersisted
    rw [hpersisted] at hpersist
    have hsum : s.progress - a.reported + a.reported = s.progress :=
      tsub_add_cancel_of_le (by rw [hbefore, hs]; exact hdone)
    dsimp only
    split_ifs with hend
    · refine ⟨rfl, ?_⟩
      cases hcomplete : F.complete job'' with
      | ok _ => exact hsum
      | error e =>
        -- the report is lost, and with it nothing
        simp only [hpersisted, hcomplete, hend, reduceCtorEq, forall_const, and_false, or_false] at hidle
        exact (zero_add _).trans (hbefore.trans (hidle.symm.trans hs.symm))
    · exact ⟨hs.trans hpersist.symm, hsum⟩

theorem ticks_told : ∀ (budgets : List ServiceBudget) {a : FallibleIncrementalJobAdapter J},
    a.reported = a.progress done → CandidRun F done budgets a →
      ((a.ticks F budgets).2.map consumed).sum + a.reported = (a.ticks F budgets).1.progress done
  | [], _, h, _ => (zero_add _).trans h
  | budget :: budgets, a, h, hrun => by
    obtain ⟨htold, htick⟩ := tick_told hF h hrun.1
    rw [FallibleIncrementalJobAdapter.ticks, map_cons, sum_cons, add_right_comm, htick, add_comm]
    exact ticks_told budgets htold hrun.2

end FallibleIncrementalJobAdapter

section Incremental

variable {J : Type} (step : J → ServiceBudget → J × StepResult) (done : J → Progress)

def incrementalTicks : List ServiceBudget → J × Bool → (J × Bool) × List TickReport
  | [], s => (s, [])
  | budget :: budgets, s => ((incrementalTicks budgets (incrementalTick step budget s).1).1,
    (incrementalTick step budget s).2 :: (incrementalTicks budgets (incrementalTick step budget s).1).2)

/-- As for a fallible job. -/
structure CumulativeSteps : Prop where
  mono : ∀ j b, done j ≤ done (step j b).1
  progress : ∀ j b, (step j b).2.progress = done (step j b).1

/-- What the job had done before each of its steps. -/
def before : List ServiceBudget → J × Bool → List Progress
  | [], _ => []
  | budget :: budgets, s => (if s.2 then 0 else done s.1) :: before budgets (incrementalTick step budget s).1

variable {step done}

/-- Each tick reports what was done before once more. -/
theorem incrementalTick_sum (h : CumulativeSteps step done) (budget : ServiceBudget) (s : J × Bool) :
    (incrementalTick step budget s).2.consumed + done s.1 =
      done (incrementalTick step budget s).1.1 + if s.2 then 0 else done s.1 := by
  obtain ⟨job, complete⟩ := s
  cases complete with
  | true => exact (zero_add _).trans (add_zero _).symm
  | false =>
    show (step job budget).2.progress + done job = done (step job budget).1 + done job
    rw [h.progress]

theorem incrementalTicks_sum (h : CumulativeSteps step done) : ∀ (budgets : List ServiceBudget) (s : J × Bool),
    ((incrementalTicks step budgets s).2.map TickReport.consumed).sum + done s.1 =
      done (incrementalTicks step budgets s).1.1 + (before step done budgets s).sum
  | [], s => (zero_add _).trans (add_zero _).symm
  | budget :: budgets, s => by
    have htick := incrementalTick_sum h budget s
    have hrest := incrementalTicks_sum h budgets (incrementalTick step budget s).1
    rw [incrementalTicks, before, map_cons, sum_cons, sum_cons, add_right_comm, htick, add_right_comm, add_comm (done _),
      hrest, add_assoc, add_comm (sum _)]

end Incremental

section Adapters

open FallibleIncrementalJobAdapter

variable {J J' E : Type} {F : FallibleJob J E} {done : J → Progress} (hF : Cumulative F done)
  {step : J' → ServiceBudget → J' × StepResult} {done' : J' → Progress} (hstep : CumulativeSteps step done')
include hF hstep

/-- **When the reports of a job add up to its progress.** Those of a fallible job do, new or resumed, if no failing tick
does anything; those of the other adapter exactly if before each of its steps the job had done nothing yet. -/
theorem consumed_eq_progress (budgets : List ServiceBudget) (start : Option Progress) (job : J)
    (hstart : done job = start.getD 0) (job' : J') :
    (CandidRun F done budgets (resumed job start) →
      (((resumed job start).ticks F budgets).2.map consumed).sum + done job =
        ((resumed job start).ticks F budgets).1.progress done) ∧
    (((incrementalTicks step budgets (job', false)).2.map TickReport.consumed).sum + done' job' =
        done' (incrementalTicks step budgets (job', false)).1.1 ↔
      ∀ p ∈ before step done' budgets (job', false), p = 0) := by
  constructor
  · intro hrun
    have hreported : (resumed job start).reported = done job := by
      rw [hstart]
      cases start <;> rfl
    have hprogress : (resumed job start).progress done = done job := by cases start <;> rfl
    have hsum := ticks_told hF budgets (hreported.trans hprogress.symm) hrun
    rwa [hreported] at hsum
  · rw [incrementalTicks_sum hstep, add_eq_left, List.sum_eq_zero_iff]

omit hF hstep

/-- A job that does ten items of a byte each in a step, and fails every second one. -/
def flaky : FallibleJob (ℕ × Bool) Unit where
  step j _ := if j.2 then ((j.1, false), .error ()) else ((j.1 + 10, true), .ok ⟨(j.1 + 10, j.1 + 10), false⟩)
  persistCheckpoint j _ := (j, .ok ())
  complete _ := .ok ()

/-- A job that does ten items in a step and does not fail. -/
def tens (n : ℕ) (_ : ServiceBudget) : ℕ × StepResult := (n + 10, ⟨(n + 10, n + 10), false⟩)

theorem tens_cumulative : CumulativeSteps tens fun n => (n, n) :=
  ⟨fun n _ => Prod.mk_le_mk.mpr ⟨n.le_add_right 10, n.le_add_right 10⟩, fun _ _ => rfl⟩

theorem flaky_cumulative : Cumulative flaky fun j => (j.1, j.1) where
  step j b := by
    unfold flaky
    dsimp only
    split_ifs <;> simp [Prod.mk_le_mk]
  progress j b s h := by
    unfold flaky at h ⊢
    dsimp only at h ⊢
    split_ifs at h ⊢
    cases h
    rfl
  persist _ _ := rfl

/-- A failing tick between two that report is no loss; of the other adapter one tick is reported right, two are not. -/
theorem consumed_eq_progress_three :
    (((resumed (5, false) (some (5, 5))).ticks flaky [⟨0, 0, 0⟩, ⟨0, 0, 0⟩, ⟨0, 0, 0⟩]).2.map consumed).sum + (5, 5) =
      (25, 25) ∧
    ((incrementalTicks tens [⟨0, 0, 0⟩] (0, false)).2.map TickReport.consumed).sum + (0, 0) = (10, 10) ∧
    ((incrementalTicks tens [⟨0, 0, 0⟩, ⟨0, 0, 0⟩] (0, false)).2.map TickReport.consumed).sum + (0, 0) ≠ (20, 20) := by
  have hsums := fun budgets => consumed_eq_progress flaky_cumulative tens_cumulative budgets (some (5, 5)) (5, false) rfl 0
  refine ⟨(hsums _).1 ?_, (hsums [⟨0, 0, 0⟩]).2.mpr (by decide), fun h => absurd ((hsums _).2.mp h) (by decide)⟩
  refine ⟨fun job hjob => .inr ?_, fun job hjob => .inl ?_, fun job hjob => .inr ?_, trivial⟩
  all_goals
    cases hjob
    first
    | exact ⟨_, rfl, rfl, nofun⟩
    | rfl

end Adapters

/-- The other adapter reports the progress itself: of twenty items done in two ticks, ten and then twenty. -/
theorem incrementalTick_reports_totals :
    let step := fun (n : ℕ) (_ : ServiceBudget) => (n + 10, (⟨(n + 10, n + 10), false⟩ : StepResult))
    let (s, first) := incrementalTick step ⟨0, 0, 0⟩ (0, false)
    let (s', second) := incrementalTick step ⟨0, 0, 0⟩ s
    s'.1 = 20 ∧ first.itemsConsumed + second.itemsConsumed = 30 := ⟨rfl, rfl⟩

end Tidefs.Scheduler
