/-
# Sector geometry

The rounding of `AllocatorTopology` in `tidefs-block-allocator`. A sector size of
zero makes the source divide by zero, so the roundings return an option: no
value stands for the panic.
-/
import Tidefs.Lib.Word

namespace Tidefs.Allocator

open Word

structure DeviceTopology where
  logicalSectorSize : ℕ
  physicalSectorSize : ℕ
  optimalIoSize : ℕ
  alignmentOffset : ℕ
  minIoSize : ℕ
deriving DecidableEq

structure AllocatorTopology where
  logicalSectorSize : ℕ
  sectorSize : ℕ
  alignmentOffset : ℕ
  minIoSize : ℕ
deriving DecidableEq

def isPowerOfTwo (n : ℕ) : Bool := n != 0 && n &&& (n - 1) == 0

namespace AllocatorTopology

def default : AllocatorTopology := ⟨512, 512, 0, 0⟩

/-- `From<DeviceTopology>`. -/
def ofDevice (dt : DeviceTopology) : AllocatorTopology where
  logicalSectorSize := dt.logicalSectorSize
  sectorSize := dt.physicalSectorSize
  alignmentOffset := dt.alignmentOffset
  minIoSize := dt.minIoSize

variable (t : AllocatorTopology)

def effectiveMinIoSize : ℕ :=
  if t.minIoSize = 0 ∨ t.minIoSize ≤ t.sectorSize then t.sectorSize else t.minIoSize

/-- `a % b`, which panics if `b` is zero. -/
def modChecked (a b : ℕ) : Option ℕ := if b = 0 then none else some (a % b)

/-- `a.div_ceil(b)`, which panics if `b` is zero. -/
def divCeilChecked (a b : ℕ) : Option ℕ := if b = 0 then none else some (divCeil a b)

def roundUpLogical (byteOffset : ℕ) : Option ℕ :=
  if byteOffset ≤ t.alignmentOffset then some t.alignmentOffset
  else
    (modChecked (byteOffset - t.alignmentOffset) t.logicalSectorSize).map fun rem =>
      if rem = 0 then byteOffset else wrap64 (byteOffset + (t.logicalSectorSize - rem))

def roundDownLogical (byteOffset : ℕ) : Option ℕ :=
  if byteOffset ≤ t.alignmentOffset then some t.alignmentOffset
  else (modChecked (byteOffset - t.alignmentOffset) t.logicalSectorSize).map fun rem => byteOffset - rem

def roundExtentInward (offset length : ℕ) : Option (ℕ × ℕ) :=
  if length = 0 then some (offset, 0)
  else do
    let start ← t.roundUpLogical offset
    let stop ← t.roundDownLogical (satAdd offset length)
    if stop ≤ start then some (offset, 0) else some (start, stop - start)

end AllocatorTopology

/-- A 64-bit word as a double: 53 significant bits, ties to even. -/
def toF64 (n : ℕ) : ℕ :=
  let bits := Nat.size n
  if bits ≤ 53 then n
  else
    let unit := 2 ^ (bits - 53)
    let q := n / unit
    if 2 * (n % unit) < unit ∨ 2 * (n % unit) = unit ∧ q % 2 = 0 then q * unit else (q + 1) * unit

/-- `slack_fraction(requested, aligned) > MAX_ALIGNMENT_SLACK`, which is one half.
Halving a double is exact and the next double above one half is closer to it
than any other quotient, so the rounded quotient is above one half exactly if
twice the dividend is above the divisor. -/
def slackExceedsMax (requested aligned : ℕ) : Bool :=
  if requested = 0 ∨ requested ≤ aligned then false
  else decide (toF64 requested < 2 * toF64 (requested - aligned))

end Tidefs.Allocator
