/-
# The segment ledger

Segments are reserved with a token, which gives them back, or without one for critical
writes. The ledger keeps their number only; it is the caller who holds the tokens.

A token carries the generation of the ledger, but nothing ever changes that generation, so
a token that was given back is as good as a live one: giving it back again takes the
segments of somebody else (`released_twice`). As long as that is done only when nothing is
reserved, and 32 bits are enough for the reserved segments, the number is the one of the
tokens still out and of the critical segments (`ledger_counts_segments`).
-/
import Tidefs.Lib.Word

namespace Tidefs.Capacity

open Word List

/-- The greatest 32-bit word. -/
def u32Max : ℕ := 2 ^ 32 - 1

structure ReservationToken where
  id : ℕ
  generation : ℕ
  count : ℕ
deriving DecidableEq

/-- Why segments are not reserved. -/
inductive ReserveLedgerError where
  | invalidSegmentCount
  | insufficientSegments (requested available : ℕ)
deriving DecidableEq

/-- The part of the ledger that counts segments. -/
structure ReserveLedger where
  segmentCapacity : ℕ
  segmentsReserved : ℕ
  nextTokenId : ℕ
  tokenGeneration : ℕ
deriving DecidableEq

namespace ReserveLedger

def new : ReserveLedger := ⟨0, 0, 1, 1⟩

variable (l : ReserveLedger)

def available : ℕ := min (l.segmentCapacity - l.segmentsReserved) u32Max

/-- Saturates at 32 bits. -/
def hold (count : ℕ) : ReserveLedger :=
  { l with segmentsReserved := min (l.segmentsReserved + count) u32Max }

def reserve (count : ℕ) : Except ReserveLedgerError (ReserveLedger × ReservationToken) :=
  if count = 0 then .error .invalidSegmentCount
  else if l.available < count then .error (.insufficientSegments count l.available)
  else .ok ({ l.hold count with nextTokenId := wrap64 (l.nextTokenId + 1) }, ⟨l.nextTokenId, l.tokenGeneration, count⟩)

def release (token : ReservationToken) : ReserveLedger :=
  if token.generation = l.tokenGeneration then { l with segmentsReserved := l.segmentsReserved - token.count } else l

def setCapacity (totalSegments : ℕ) : ReserveLedger := { l with segmentCapacity := totalSegments }

def reserveForCritical (count : ℕ) : ReserveLedger × Bool :=
  if count = 0 then (l, false)
  else if l.segmentCapacity = 0 then (l, false)
  else if l.segmentCapacity < l.segmentsReserved + count then (l, false)
  else (l.hold count, true)

/-! ### One call -/

variable {l l' : ReserveLedger} {count : ℕ}

theorem reserve_ok {token : ReservationToken} (h : l.reserve count = .ok (l', token)) :
    count ≤ l.available ∧ token = ⟨l.nextTokenId, l.tokenGeneration, count⟩ ∧
      l' = { l.hold count with nextTokenId := wrap64 (l.nextTokenId + 1) } := by
  unfold reserve at h
  split_ifs at h with h1 h2
  obtain ⟨rfl, rfl⟩ := Prod.mk.inj (Except.ok.inj h)
  exact ⟨not_lt.mp h2, rfl, rfl⟩

theorem reserve_le_capacity {token : ReservationToken}
    (h : l.reserve count = .ok (l', token)) : l'.segmentsReserved ≤ l'.segmentCapacity := by
  have hcount : count ≠ 0 := by
    rintro rfl
    simp [reserve] at h
  obtain ⟨havail, -, rfl⟩ := reserve_ok h
  unfold available at havail
  show min (l.segmentsReserved + count) u32Max ≤ l.segmentCapacity
  omega

theorem reserveForCritical_ok (h : l.reserveForCritical count = (l', true)) :
    l.segmentsReserved + count ≤ l.segmentCapacity ∧ l' = l.hold count := by
  unfold reserveForCritical at h
  split_ifs at h with h1 h2 h3
  · cases h
  · cases h
  · cases h
  · exact ⟨not_lt.mp h3, (Prod.mk.inj h).1.symm⟩

theorem reserveForCritical_refused (h : l.reserveForCritical count = (l', false)) : l' = l := by
  unfold reserveForCritical at h
  split_ifs at h with h1 h2 h3
  · exact (Prod.mk.inj h).1.symm
  · exact (Prod.mk.inj h).1.symm
  · exact (Prod.mk.inj h).1.symm
  · cases h

theorem reserveForCritical_le_capacity
    (h : l.reserveForCritical count = (l', true)) : l'.segmentsReserved ≤ l'.segmentCapacity := by
  obtain ⟨hfits, rfl⟩ := reserveForCritical_ok h
  exact (min_le_left _ _).trans hfits

end ReserveLedger

open ReserveLedger

/-! ### Histories -/

namespace Ledger

/-- The ledger, every token it issued with whether it was given back, and the critical segments. -/
structure History where
  ledger : ReserveLedger
  tokens : List (ReservationToken × Bool)
  critical : ℕ

/-- A token is given back by its place among those issued. -/
inductive Op where
  | reserve (count : ℕ)
  | release (issued : ℕ)
  | reserveForCritical (count : ℕ)
  | setCapacity (totalSegments : ℕ)

def start : History := ⟨.new, [], 0⟩

def step (h : History) : Op → History
  | .reserve count =>
    match h.ledger.reserve count with
    | .error _ => h
    | .ok (ledger, token) => { h with ledger := ledger, tokens := h.tokens ++ [(token, false)] }
  | .release issued =>
    match h.tokens[issued]? with
    | none => h
    | some (token, _) => { h with ledger := h.ledger.release token, tokens := h.tokens.set issued (token, true) }
  | .reserveForCritical count =>
    match h.ledger.reserveForCritical count with
    | (ledger, true) => { h with ledger := ledger, critical := h.critical + count }
    | (ledger, false) => { h with ledger := ledger }
  | .setCapacity totalSegments => { h with ledger := h.ledger.setCapacity totalSegments }

def run (ops : List Op) : History := ops.foldl step start

/-- The segments of one token: none once it was given back. -/
def out (t : ReservationToken × Bool) : ℕ := if t.2 then 0 else t.1.count

/-- The segments of the tokens still out, and the critical ones. -/
def outstanding (h : History) : ℕ := (h.tokens.map out).sum + h.critical

/-- Reserved segments stay within 32 bits, and a token that was given back is given back again only when nothing is
reserved. -/
def Careful (h : History) : Op → Prop
  | .reserve count => h.ledger.segmentCapacity ≤ u32Max ∨ h.ledger.segmentsReserved + count ≤ u32Max
  | .release issued => ∀ token, h.tokens[issued]? = some (token, true) → h.ledger.segmentsReserved = 0
  | .reserveForCritical count => h.ledger.segmentCapacity ≤ u32Max ∨ h.ledger.segmentsReserved + count ≤ u32Max
  | .setCapacity _ => True

def CarefulRun : History → List Op → Prop
  | _, [] => True
  | h, op :: ops => Careful h op ∧ CarefulRun (step h op) ops

structure Counted (h : History) : Prop where
  reserved : h.ledger.segmentsReserved = outstanding h
  generation : ∀ t ∈ h.tokens, t.1.generation = h.ledger.tokenGeneration

/-! ### What a step keeps -/

theorem sum_out_set {tokens : List (ReservationToken × Bool)} {k : ℕ} {t : ReservationToken × Bool}
    (hk : tokens[k]? = some t) : ((tokens.set k (t.1, true)).map out).sum + out t = (tokens.map out).sum := by
  induction tokens generalizing k with
  | nil => simp at hk
  | cons u tokens ih =>
    cases k with
    | zero =>
      obtain rfl : u = t := by simpa using hk
      simp only [set_cons_zero, map_cons, sum_cons]
      rw [show out (u.1, true) = 0 from rfl]
      omega
    | succ k =>
      have hih := ih (k := k) (by simpa using hk)
      simp only [set_cons_succ, map_cons, sum_cons]
      omega

variable {h : History}

theorem Counted.hold {count : ℕ} (hc : Counted h) (hroom : h.ledger.segmentsReserved + count ≤ u32Max) :
    (h.ledger.hold count).segmentsReserved = outstanding h + count := by
  rw [← hc.reserved]
  exact min_eq_left hroom

variable (hc : Counted h)
include hc

theorem step_reserve (count : ℕ) (hop : Careful h (.reserve count)) : Counted (step h (.reserve count)) := by
  simp only [step]
  split
  · exact hc
  next ledger token heq =>
    obtain ⟨havail, rfl, rfl⟩ := reserve_ok heq
    have hroom : h.ledger.segmentsReserved + count ≤ u32Max := by
      have hcount : count ≠ 0 := by
        rintro rfl
        simp [reserve] at heq
      unfold available at havail
      rcases hop with hcap | hroom
      · omega
      · exact hroom
    constructor
    · show (h.ledger.hold count).segmentsReserved = ((h.tokens ++ [(_, false)]).map out).sum + h.critical
      rw [hc.hold hroom, outstanding, map_append, sum_append]
      simp only [map_cons, map_nil, sum_cons, sum_nil, out]
      simp only [Bool.false_eq_true, if_false]
      omega
    · exact forall_mem_append.mpr ⟨hc.generation, forall_mem_singleton.mpr rfl⟩

theorem step_release (k : ℕ) (hop : Careful h (.release k)) : Counted (step h (.release k)) := by
  simp only [step]
  split
  · exact hc
  next token given heq =>
    have hgen : token.generation = h.ledger.tokenGeneration :=
      hc.generation _ (mem_of_getElem? heq)
    have hledger : h.ledger.release token =
        { h.ledger with segmentsReserved := h.ledger.segmentsReserved - token.count } := by
      rw [release, if_pos hgen]
    have hsum := sum_out_set heq
    have hreserved := hc.reserved
    unfold outstanding at hreserved
    rw [hledger]
    constructor
    · show h.ledger.segmentsReserved - token.count = ((h.tokens.set k (token, true)).map out).sum + h.critical
      cases given with
      | true =>
        have hzero := hop token heq
        simp only [out, if_true] at hsum
        omega
      | false =>
        simp only [out, Bool.false_eq_true, if_false] at hsum
        omega
    · intro t ht
      rcases mem_or_eq_of_mem_set ht with ht | rfl
      · exact hc.generation t ht
      · exact hgen

theorem step_critical (count : ℕ) (hop : Careful h (.reserveForCritical count)) :
    Counted (step h (.reserveForCritical count)) := by
  simp only [step]
  split
  next ledger heq =>
    obtain ⟨hfits, rfl⟩ := reserveForCritical_ok heq
    have hroom : h.ledger.segmentsReserved + count ≤ u32Max := by
      rcases hop with hcap | hroom
      · exact hfits.trans hcap
      · exact hroom
    constructor
    · show (h.ledger.hold count).segmentsReserved = (h.tokens.map out).sum + (h.critical + count)
      rw [hc.hold hroom, outstanding, Nat.add_assoc]
    · exact hc.generation
  next ledger heq =>
    obtain rfl := reserveForCritical_refused heq
    exact hc

/-- **A careful call keeps the count.** -/
theorem step_counted : ∀ op, Careful h op → Counted (step h op)
  | .reserve count, hop => step_reserve hc count hop
  | .release k, hop => step_release hc k hop
  | .reserveForCritical count, hop => step_critical hc count hop
  | .setCapacity _, _ => ⟨hc.reserved, hc.generation⟩

omit hc

theorem run_counted : ∀ (ops : List Op) {h : History}, Counted h → CarefulRun h ops → Counted (ops.foldl step h)
  | [], _, hc, _ => hc
  | op :: ops, _, hc, hrun => run_counted ops (step_counted hc op hrun.1) hrun.2

theorem start_counted : Counted start := ⟨rfl, by simp [start]⟩

theorem CarefulRun.last : ∀ (ops : List Op) {h : History} {op : Op}, CarefulRun h (ops ++ [op]) →
    CarefulRun h ops ∧ Careful (ops.foldl step h) op
  | [], _, _, hrun => ⟨trivial, hrun.1⟩
  | _ :: ops, _, _, hrun =>
    have hlast := CarefulRun.last ops hrun.2
    ⟨⟨hrun.1, hlast.1⟩, hlast.2⟩

/-- **The ledger counts the segments that are out.** After every careful run the reserved segments are those of the
tokens still out and the critical ones; a token given back before is given back without effect; and what is granted
fits the capacity. -/
theorem ledger_counts_segments (ops : List Op) (hrun : CarefulRun start ops) :
    (run ops).ledger.segmentsReserved = outstanding (run ops) ∧
      (∀ k token, CarefulRun start (ops ++ [.release k]) → (run ops).tokens[k]? = some (token, true) →
        (run ops).ledger.release token = (run ops).ledger) ∧
      (∀ count l token, (run ops).ledger.reserve count = .ok (l, token) → l.segmentsReserved ≤ l.segmentCapacity) ∧
      ∀ count l, (run ops).ledger.reserveForCritical count = (l, true) → l.segmentsReserved ≤ l.segmentCapacity := by
  refine ⟨(run_counted ops start_counted hrun).reserved, ?_, ?_, ?_⟩
  · intro k token hagain hk
    have hzero : (run ops).ledger.segmentsReserved = 0 := (CarefulRun.last ops hagain).2 token hk
    rw [ReserveLedger.release]
    split_ifs with hgen
    · rw [hzero, Nat.zero_sub, ← hzero]
    · rfl
  · intro count l token h
    exact ReserveLedger.reserve_le_capacity h
  · intro count l h
    exact ReserveLedger.reserveForCritical_le_capacity h

theorem ledger_counts_segments_three :
    (run [.setCapacity 10, .reserve 2, .reserve 3, .release 0]).ledger.segmentsReserved = 3 := by
  have h := ledger_counts_segments [.setCapacity 10, .reserve 2, .reserve 3, .release 0]
    ⟨trivial, Or.inl (by decide), Or.inl (by decide), ⟨nofun, trivial⟩⟩
  rw [h.1]
  decide

/-- A token given back twice takes the segments of another: three are out, one is counted. -/
theorem released_twice : outstanding (run [.setCapacity 10, .reserve 2, .reserve 3, .release 0, .release 0]) = 3 ∧
      (run [.setCapacity 10, .reserve 2, .reserve 3, .release 0, .release 0]).ledger.segmentsReserved = 1 := by
  decide

end Ledger

end Tidefs.Capacity
