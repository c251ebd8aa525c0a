/-
# The erasure coder

A stripe has `k` data shards and `m` parity shards of one length. A data shard is a
piece of the payload, the last ones padded with zeroes, and a parity shard is a linear
combination of the data shards, with coefficients from a Cauchy matrix over the field
of bytes. A stripe with missing shards is rebuilt from `k` of those that are there: the
rows they were computed with are inverted by elimination, the inverse gives back the
data shards, and from these the missing ones are computed again.

Matrices and blocks carry their dimensions. A shard that is handed in has whatever
length it has; copying one of the wrong length into a block panics, and the outer
`Option` of `reconstruct` is that panic. Lengths are natural numbers, as a capacity
that leaves the machine word cannot be allocated.
-/
import Tidefs.Erasure.Field
import Mathlib.Data.List.FinRange

namespace Tidefs.Erasure

/-! ### Matrices -/

/-- A `Vec<Vec<u8>>` of `r` rows and `c` columns. -/
abbrev GfMatrix (r c : ℕ) := Vector (Vector Gf c) r

/-- A number as a byte, `as u8`. -/
def asU8 (n : ℕ) : Gf := ⟨BitVec.ofNat 8 n⟩

/-- Identity rows for the data, Cauchy rows for the parity. -/
def buildCauchyEncoding (k m : ℕ) : GfMatrix (k + m) k :=
  Vector.ofFn fun i => Vector.ofFn fun col =>
    if i.val < k then (if i.val = col.val then 1 else 0)
    else
      let x := asU8 (i.val - k)
      let y := asU8 (m + col.val)
      (x + y)⁻¹

section Invert

variable {n : ℕ}

/-- The matrix with the identity to its right. -/
def augmented (mat : GfMatrix n n) : GfMatrix n (2 * n) :=
  Vector.ofFn fun i => Vector.ofFn fun j =>
    if h : j.val < n then mat[i][j.val] else if j.val = i.val + n then 1 else 0

variable (aug : GfMatrix n (2 * n))

/-- `(col..n).find(|&r| aug[r][col] != 0)`. -/
def findPivot (col : Fin n) : Option (Fin n) :=
  have := col.isLt
  (List.finRange n).find? fun r => col ≤ r ∧ aug[r][col.val] ≠ 0

/-- Scales row `col` so that its entry in column `col` is one. -/
def scalePivot (col : Fin n) : GfMatrix n (2 * n) :=
  have := col.isLt
  let invP := (aug[col][col.val])⁻¹
  aug.set col (aug[col].map fun a => a * invP)

/-- Adds row `col` to the others so that their entries in column `col` are zero. -/
def clearOthers (col : Fin n) : GfMatrix n (2 * n) :=
  have := col.isLt
  Vector.ofFn fun row =>
    if row = col then aug[row]
    else
      let f := aug[row][col.val]
      if f = 0 then aug[row] else Vector.zipWith (fun a b => a + f * b) aug[row] aug[col]

/-- One turn of the elimination. -/
def eliminate (col : Fin n) : Option (GfMatrix n (2 * n)) := do
  let pr ← findPivot aug col
  some (clearOthers (scalePivot (aug.swap col pr) col) col)

/-- Gauss–Jordan elimination; none for a singular matrix. -/
def invertMatrix (mat : GfMatrix n n) : Option (GfMatrix n n) := do
  let aug ← (List.finRange n).foldlM eliminate (augmented mat)
  some (Vector.ofFn fun i => Vector.ofFn fun j => aug[i][j.val + n])

end Invert

/-! ### Types -/

/-- What a shard holds. -/
inductive ShardKind
  | data
  | parity
deriving DecidableEq

structure ErasureShard where
  index : ℕ
  kind : ShardKind
  bytes : List Gf
deriving DecidableEq

structure StripeConfig where
  dataShards : ℕ
  parityShards : ℕ
  shardLen : ℕ
deriving DecidableEq

namespace StripeConfig

def stripeWidth (config : StripeConfig) : ℕ := config.dataShards + config.parityShards

def dataCapacity (config : StripeConfig) : ℕ := config.dataShards * config.shardLen

end StripeConfig

/-- A payload cut into shards, with parity. -/
structure EncodedStripe where
  config : StripeConfig
  shards : List ErasureShard
  originalPayloadLen : ℕ
deriving DecidableEq

structure Reconstruction where
  payload : List Gf
  rebuiltShards : List ErasureShard
deriving DecidableEq

/-! ### Encoding -/

/-- Adds a multiple of a block; a zero coefficient is passed by. -/
def addScaled {sl : ℕ} (p : Vector Gf sl) (c : Gf) (block : Vector Gf sl) : Vector Gf sl :=
  if c = 0 then p else Vector.zipWith (fun pb d => pb + c * d) p block

/-- The combination of blocks that a row of coefficients gives. The loop of
`compute_parity`, of `rebuild_parity` and of the recovery of the data. -/
def combine {n sl : ℕ} (coeffs : Vector Gf n) (blocks : GfMatrix n sl) : Vector Gf sl :=
  (List.finRange n).foldl (fun p col => addScaled p coeffs[col] blocks[col]) (Vector.replicate sl 0)

/-- The part of the payload in data shard `i`, padded with zeroes. -/
def dataBlock (sl : ℕ) (payload : List Gf) (i : ℕ) : Vector Gf sl :=
  let start := i * sl
  let stop := max (min payload.length (start + sl)) start
  Vector.ofFn fun b => if start + b.val < stop then payload.getD (start + b.val) 0 else 0

def computeParity {k sl : ℕ} (m : ℕ) (data : GfMatrix k sl) : GfMatrix m sl :=
  let mat := buildCauchyEncoding k m
  Vector.ofFn fun row => combine mat[k + row.val] data

def encode (config : StripeConfig) (payload : List Gf) : Option EncodedStripe :=
  if config.dataShards = 0 ∨ config.shardLen = 0 ∨ config.dataCapacity < payload.length then none
  else
    let ds := config.dataShards
    let data : GfMatrix ds config.shardLen := Vector.ofFn fun i => dataBlock config.shardLen payload i
    let parity := computeParity config.parityShards data
    some {
      config
      shards := (data.toList.mapIdx fun i d => ⟨i, .data, d.toList⟩) ++
        parity.toList.mapIdx fun i p => ⟨ds + i, .parity, p.toList⟩
      originalPayloadLen := payload.length }

/-! ### Reconstruction -/

def rebuildParity {k sl : ℕ} (m : ℕ) (data : GfMatrix k sl) (parityIdx : Fin m) : Vector Gf sl :=
  combine (buildCauchyEncoding k m)[k + parityIdx.val] data

/-- Takes rows whose shard is there, as long as fewer than `k` are taken. -/
def selectRows {w : ℕ} (available : Vector (Option ErasureShard) w) (k : ℕ) (rows sel : List (Fin w)) : List (Fin w) :=
  rows.foldl (fun sel i => if available[i].isSome ∧ sel.length < k then sel ++ [i] else sel) sel

/-- The rows to compute with: data rows first, then parity rows. -/
def chooseRows {k m : ℕ} (available : Vector (Option ErasureShard) (k + m)) : List (Fin (k + m)) :=
  selectRows available k ((List.finRange m).map (Fin.natAdd k))
    (selectRows available k ((List.finRange k).map (Fin.castAdd m)) [])

def bytesAt {w : ℕ} (available : Vector (Option ErasureShard) w) (i : Fin w) : List Gf :=
  (available[i].map ErasureShard.bytes).getD []

/-- The data from the inverse and the bytes of the chosen rows, and from the data the
missing shards. Data shards past `effK` count as zero. -/
def rebuildMissing {k m sl : ℕ} (inv : GfMatrix k k) (rhs : GfMatrix k sl) (missing : List (Fin (k + m)))
    (effK : ℕ) : Reconstruction :=
  let data := (inv.toList.take effK).map fun coeffs => combine coeffs rhs
  let padded : GfMatrix k sl := Vector.ofFn fun i => data.getD i (Vector.replicate sl 0)
  { payload := data.flatMap Vector.toList
    rebuiltShards := missing.map fun idx : Fin (k + m) =>
      if h : idx.val < k then ⟨idx, .data, padded[idx.val].toList⟩
      else ⟨idx, .parity, (rebuildParity m padded ⟨idx.val - k, by omega⟩).toList⟩ }

def reconstructDegraded (k m sl : ℕ) (available : Vector (Option ErasureShard) (k + m)) (missing : List (Fin (k + m)))
    (effK : ℕ) : Option (Option Reconstruction) :=
  if hsel : (chooseRows available).length < k then some none
  else
    let source : Fin k → Fin (k + m) := fun o => (chooseRows available).get ⟨o, by omega⟩
    if hlen : ∀ o, (bytesAt available (source o)).length = sl then
      let rhs : GfMatrix k sl := Vector.ofFn fun o => ⟨(bytesAt available (source o)).toArray, hlen o⟩
      match invertMatrix (Vector.ofFn fun o => (buildCauchyEncoding k m)[source o]) with
      | none => some none
      | some inv => some (some (rebuildMissing inv rhs missing effK))
    else none

/-- The stripe from the shards that are there; `effK` data shards carry payload. -/
def reconstructSlots (k m sl : ℕ) (available : Vector (Option ErasureShard) (k + m)) (effK : ℕ) :
    Option (Option Reconstruction) :=
  let present := (List.finRange (k + m)).filter fun i => available[i].isSome
  let missing := (List.finRange (k + m)).filter fun i => available[i].isNone
  if effK = 0 ∨ k < effK then some none
  else if present.length < effK then some none
  else if missing = [] then
    let payload := (available.toList.take effK).flatMap fun shard => (shard.map ErasureShard.bytes).getD []
    some (some { payload, rebuiltShards := [] })
  else if m < missing.length then some none
  else reconstructDegraded k m sl available missing effK

/-- The payload and the missing shards of a stripe; `effectiveK` says how many data
shards of a last stripe carry payload. -/
def reconstruct (config : StripeConfig) (available : List (Option ErasureShard)) (effectiveK : Option ℕ) :
    Option (Option Reconstruction) :=
  if hw : available.length = config.stripeWidth then
    reconstructSlots config.dataShards config.parityShards config.shardLen ⟨available.toArray, hw⟩
      (effectiveK.getD config.dataShards)
  else some none

end Tidefs.Erasure
