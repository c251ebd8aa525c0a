/-
# Byte formats

Writers give lists of bytes, readers take what they read off the front of a list. That
a reader reads back what a writer wrote, whatever comes behind it, is `Reads`; it goes
through the sequencing of readers, so a format is read back if its fields are
(`Reads.bind`, `Reads.many`).
-/
import Mathlib

namespace Tidefs.Codec

abbrev Bytes := List UInt8

/-- Bytes by their value; byte strings are then in lexicographic order. -/
instance linearOrderByte : LinearOrder UInt8 where
  le_refl := UInt8.le_refl
  le_trans _ _ _ := UInt8.le_trans
  le_antisymm _ _ := UInt8.le_antisymm
  le_total := UInt8.le_total
  lt_iff_le_not_ge a b := by
    rw [UInt8.not_le]
    exact ⟨fun h => ⟨UInt8.le_of_lt h, h⟩, fun h => h.2⟩
  toDecidableLE := inferInstance

/-! ### Little-endian numbers -/

/-- Eight bytes hold the numbers below `2 ^ 64`. -/
instance neZeroWord : NeZero (2 ^ 64) := ⟨by decide⟩

/-- The low bytes of a number, the lowest first. -/
def toLe : ℕ → ℕ → Bytes
  | 0, _ => []
  | width + 1, n => UInt8.ofNat n :: toLe width (n / 256)

def fromLe : Bytes → ℕ
  | [] => 0
  | b :: bs => b.toNat + 256 * fromLe bs

@[simp] theorem length_toLe : ∀ width n : ℕ, (toLe width n).length = width
  | 0, _ => rfl
  | width + 1, n => congrArg Nat.succ (length_toLe width (n / 256))

theorem fromLe_toLe : ∀ {width n : ℕ}, n < 256 ^ width → fromLe (toLe width n) = n
  | 0, n, h => by
    rw [pow_zero, Nat.lt_one_iff] at h
    exact h.symm
  | width + 1, n, h => by
    have hdiv : n / 256 < 256 ^ width := Nat.div_lt_of_lt_mul (by rwa [pow_succ, Nat.mul_comm] at h)
    rw [toLe, fromLe, fromLe_toLe hdiv, UInt8.toNat_ofNat']
    exact Nat.mod_add_div n 256

theorem toLe_mod : ∀ width n : ℕ, toLe width (n % 256 ^ width) = toLe width n
  | 0, _ => rfl
  | width + 1, n => by
    have hdiv : n % 256 ^ (width + 1) / 256 = n / 256 % 256 ^ width := by
      rw [pow_succ', Nat.mod_mul_right_div_self]
    have hbyte : UInt8.ofNat (n % 256 ^ (width + 1)) = UInt8.ofNat n := by
      refine UInt8.toNat_inj.mp ?_
      rw [UInt8.toNat_ofNat', UInt8.toNat_ofNat', pow_succ']
      exact Nat.mod_mul_right_mod n 256 _
    rw [toLe, toLe, hdiv, hbyte, toLe_mod width]

/-! ### Readers -/

variable {E α β : Type}

/-- A reader of the bytes at the front, or an error. -/
abbrev Reader (E α : Type) := StateT Bytes (Except E) α

/-- Fails with the error if there are not that many bytes. -/
def readExact (error : E) (n : ℕ) : Reader E Bytes := fun bytes =>
  if bytes.length < n then .error error else .ok (bytes.take n, bytes.drop n)

def readLe (error : E) (width : ℕ) : Reader E ℕ := do
  let bytes ← readExact error width
  pure (fromLe bytes)

def readVector (error : E) (n : ℕ) : Reader E (Vector UInt8 n) := fun bytes =>
  if h : n ≤ bytes.length then .ok (⟨(bytes.take n).toArray, by simp [h]⟩, bytes.drop n) else .error error

/-- Reads so many values one after the other. -/
def repeatRead (read : Reader E α) : ℕ → Reader E (List α)
  | 0 => pure []
  | n + 1 => do
    let a ← read
    let as ← repeatRead read n
    pure (a :: as)

/-- What a computation that can fail and a next one have returned. -/
theorem bind_eq_ok {x : Except E α} {f : α → Except E β} {b : β} (h : x >>= f = .ok b) :
    ∃ a, x = .ok a ∧ f a = .ok b := by
  cases x with
  | error e => cases h
  | ok a => exact ⟨a, rfl, h⟩

theorem repeatRead_length {read : Reader E α} : ∀ {n : ℕ} {bytes rest : Bytes} {as : List α},
    repeatRead read n bytes = .ok (as, rest) → as.length = n
  | 0, _, _, _, h => by
    cases h
    rfl
  | n + 1, _, _, _, h => by
    obtain ⟨_, -, h⟩ := bind_eq_ok h
    obtain ⟨_, hmore, h⟩ := bind_eq_ok h
    cases h
    rw [List.length_cons, repeatRead_length hmore]

/-! ### Reading back -/

/-- The reader takes these bytes for the value, whatever follows. -/
def Reads (read : Reader E α) (bytes : Bytes) (a : α) : Prop := ∀ rest, read (bytes ++ rest) = .ok (a, rest)

theorem Reads.self {read : Reader E α} {bytes : Bytes} {a : α} (h : Reads read bytes a) : read bytes = .ok (a, []) := by
  have := h []
  rwa [List.append_nil] at this

theorem reads_pure (a : α) : Reads (pure a : Reader E α) [] a := fun _ => rfl

/-- Behind the bytes of a value the next reader goes on with it. -/
theorem Reads.next {read : Reader E α} {bytes : Bytes} {a : α} (h : Reads read bytes a) (next : α → Reader E β)
    (rest : Bytes) : (read >>= next) (bytes ++ rest) = next a rest := by
  show (read (bytes ++ rest) >>= fun p => next p.1 p.2) = _
  rw [h rest]
  rfl

theorem Reads.bind {read : Reader E α} {next : α → Reader E β} {bytes bytes' : Bytes} {a : α} {b : β}
    (h : Reads read bytes a) (h' : Reads (next a) bytes' b) : Reads (read >>= next) (bytes ++ bytes') b := fun rest => by
  show (do let (a, s) ← read (bytes ++ bytes' ++ rest); next a s) = _
  rw [List.append_assoc, h]
  exact h' rest

theorem Reads.map {read : Reader E α} {bytes : Bytes} {a : α} (h : Reads read bytes a) (f : α → β) :
    Reads (read >>= fun a => pure (f a)) bytes (f a) := by
  have hread := @Reads.bind E α β read (fun a => pure (f a)) bytes [] a (f a) h (reads_pure (f a))
  rwa [List.append_nil] at hread

theorem reads_exact (error : E) {bytes : Bytes} {n : ℕ} (h : bytes.length = n) :
    Reads (readExact error n) bytes bytes := fun rest => by
  subst h
  rw [readExact, if_neg (by simp), List.take_left, List.drop_left]

theorem reads_le (error : E) {width n : ℕ} (h : n < 256 ^ width) : Reads (readLe error width) (toLe width n) n := by
  have hread := (reads_exact error (length_toLe width n)).map fromLe
  rwa [fromLe_toLe h] at hread

/-- Of a number that is too great the low bytes are written. -/
theorem reads_le_mod (error : E) (width n : ℕ) : Reads (readLe error width) (toLe width n) (n % 256 ^ width) := by
  rw [← toLe_mod]
  exact reads_le error (Nat.mod_lt _ (Nat.pow_pos (by decide)))

theorem reads_vector (error : E) {n : ℕ} (v : Vector UInt8 n) : Reads (readVector error n) v.toList v := fun rest => by
  have hlen : v.toList.length = n := by simp
  have hle : n ≤ (v.toList ++ rest).length := by simp
  rw [readVector, dif_pos hle]
  have htake : (v.toList ++ rest).take n = v.toList := List.take_left' hlen
  have hdrop : (v.toList ++ rest).drop n = rest := List.drop_left' hlen
  refine congrArg Except.ok (Prod.ext (Vector.toArray_inj.mp ?_) hdrop)
  show ((v.toList ++ rest).take n).toArray = v.toArray
  rw [htake]
  exact Array.toArray_toList

/-- **Values written one after the other are read back.** -/
theorem Reads.many {read : Reader E α} {write : α → Bytes} : ∀ {as : List α}, (∀ a ∈ as, Reads read (write a) a) →
    Reads (repeatRead read as.length) (as.flatMap write) as
  | [], _ => reads_pure []
  | a :: as, h => by
    obtain ⟨ha, has⟩ := List.forall_mem_cons.mp h
    exact Reads.bind ha ((Reads.many has).map (a :: ·))

/-! ### Fields at fixed places -/

/-- So many bytes from a place on. -/
def slice (src : Bytes) (start n : ℕ) : Bytes := (src.drop start).take n

/-- Of fields one after the other, each stands behind the lengths of those before it. -/
theorem slice_flatten {fields : List Bytes} {i start n : ℕ} {f : Bytes} (hget : fields[i]? = some f)
    (hstart : ((fields.take i).map List.length).sum = start) (hn : f.length = n) :
    slice fields.flatten start n = f := by
  obtain ⟨hi, hfield⟩ := List.getElem?_eq_some_iff.mp hget
  have hsplit : fields = fields.take i ++ f :: fields.drop (i + 1) := by
    rw [← hfield, List.getElem_cons_drop, List.take_append_drop]
  have hflat : fields.flatten = (fields.take i).flatten ++ (f ++ (fields.drop (i + 1)).flatten) := by
    rw [← List.flatten_cons, ← List.flatten_append, ← hsplit]
  have hlen : (fields.take i).flatten.length = start := by rw [List.length_flatten, hstart]
  rw [slice, hflat, List.drop_left' hlen, List.take_left' hn]

end Tidefs.Codec
