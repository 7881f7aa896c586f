import DistillFs.Backend.Basic
import DistillFs.Foundation.ByteOrder

/-!
# Checksums

A chunk is named by its checksum: 32 bytes of hash and the method that made them. The databases
store a checksum in a fixed layout of 40 bytes, `CheckSumOnDisk`, in which the method is a byte and
seven bytes are reserved. Tables keyed by it are ordered by these bytes.

The two hash functions are external, and `Hashes` is a pair of them; what a result needs of them it
says itself.

## Main definitions

* `CheckSumMethod`, `CheckSum`, `CheckSumOnDisk` and the conversions between them.
* `Hashes`, `CheckSum.fromData`.

## Main results

* `CheckSumOnDisk.checkSum_ofCheckSum`: a checksum survives the trip through its stored form.
* `CheckSumOnDisk.bytes_injective`: stored forms are equal when their bytes are.
* `CheckSumOnDisk.le_iff_bytes`: stored forms are ordered as their bytes are.
-/

namespace DistillFs

/-- The hash a checksum was made with. -/
inductive CheckSumMethod
  | sha256
  | blake3
  | unknown
  deriving DecidableEq, Repr

/-- The method a stored byte means. -/
def CheckSumMethod.ofByte (b : UInt8) : CheckSumMethod :=
  if b = 0 then .sha256 else if b = 1 then .blake3 else .unknown

/-- The byte a method is stored as. -/
def CheckSumMethod.toByte : CheckSumMethod → UInt8
  | .sha256 => 0
  | .blake3 => 1
  | .unknown => 2

theorem CheckSumMethod.ofByte_toByte (m : CheckSumMethod) : ofByte m.toByte = m := by
  cases m <;> rfl

/-- A checksum. -/
structure CheckSum where
  raw : Vector UInt8 32
  method : CheckSumMethod
  deriving DecidableEq

/-- The checksum of no data, whose method is unknown. -/
def CheckSum.empty : CheckSum := ⟨Vector.replicate 32 0, .unknown⟩

/-- The checksum of some bytes, which have to be 32. -/
def CheckSum.new (raw : List UInt8) (method : CheckSumMethod) : Except IoError CheckSum :=
  if h : raw.length = 32 then .ok ⟨⟨raw.toArray, h⟩, method⟩
  else .error ⟨.invalidInput, "Invalid checksum data len"⟩

theorem CheckSum.new_toList (cs : CheckSum) : CheckSum.new cs.raw.toList cs.method = .ok cs := by
  rw [CheckSum.new, dif_pos (Vector.length_toList)]
  rfl

/-- The hash functions, which are not part of this program. -/
structure Hashes where
  sha256 : List UInt8 → Vector UInt8 32
  blake3 : List UInt8 → Vector UInt8 32

/-- The hash of `data` by a method; an unknown method hashes as blake3. -/
def CheckSum.fromData (H : Hashes) (data : List UInt8) (method : CheckSumMethod) : CheckSum :=
  match method with
  | .sha256 => ⟨H.sha256 data, method⟩
  | .blake3 => ⟨H.blake3 data, method⟩
  | .unknown => ⟨H.blake3 data, method⟩

@[simp] theorem CheckSum.method_fromData (H : Hashes) (data : List UInt8) (m : CheckSumMethod) :
    (fromData H data m).method = m := by
  cases m <;> rfl

/-- A checksum as the databases store it. -/
@[ext] structure CheckSumOnDisk where
  raw : Vector UInt8 32
  method : UInt8
  reserved : Vector UInt8 7
  deriving DecidableEq

namespace CheckSumOnDisk

/-- Whether the method is one of the two hashes. -/
def isValid (cs : CheckSumOnDisk) : Bool := decide (cs.method < 2)

/-- The stored form of a checksum. -/
def ofCheckSum (cs : CheckSum) : CheckSumOnDisk :=
  ⟨cs.raw, cs.method.toByte, Vector.replicate 7 0⟩

/-- The checksum of a stored form. -/
def checkSum (cs : CheckSumOnDisk) : CheckSum := ⟨cs.raw, .ofByte cs.method⟩

@[simp] theorem checkSum_ofCheckSum (cs : CheckSum) : (ofCheckSum cs).checkSum = cs := by
  simp [checkSum, ofCheckSum, CheckSumMethod.ofByte_toByte]

theorem ofCheckSum_injective : Function.Injective ofCheckSum :=
  Function.LeftInverse.injective checkSum_ofCheckSum

theorem isValid_ofCheckSum (cs : CheckSum) :
    (ofCheckSum cs).isValid = decide (cs.method ≠ .unknown) := by
  cases h : cs.method <;> simp [isValid, ofCheckSum, h, CheckSumMethod.toByte]

/-- The stored bytes. -/
def bytes (cs : CheckSumOnDisk) : List UInt8 := cs.raw.toList ++ cs.method :: cs.reserved.toList

theorem bytes_injective : Function.Injective bytes := by
  intro a b h
  have hlen : a.raw.toList.length = b.raw.toList.length := by simp
  obtain ⟨hraw, htail⟩ := List.append_inj h hlen
  obtain ⟨hmethod, hreserved⟩ := List.cons.inj htail
  exact CheckSumOnDisk.ext (Vector.toList_inj.mp hraw) hmethod (Vector.toList_inj.mp hreserved)

/-- The position of a stored form in the order of its bytes. -/
def rank (cs : CheckSumOnDisk) : List ℕ := cs.bytes.map UInt8.toNat

theorem rank_injective : Function.Injective rank :=
  (List.map_injective_iff.mpr fun _ _ => UInt8.toNat_inj.mp).comp bytes_injective

/-- The databases order their keys by the stored bytes. -/
instance : LinearOrder CheckSumOnDisk := LinearOrder.lift' rank rank_injective

theorem lt_iff_bytes {a b : CheckSumOnDisk} : a < b ↔ compare a.bytes b.bytes = .lt :=
  (Foundation.compare_eq_lt_iff a.bytes b.bytes).symm

theorem le_iff_bytes {a b : CheckSumOnDisk} : a ≤ b ↔ (compare a.bytes b.bytes).isLE := by
  rw [le_iff_lt_or_eq, lt_iff_bytes, Ordering.isLE_iff_eq_lt_or_eq_eq,
    Std.LawfulEqOrd.compare_eq_iff_eq, bytes_injective.eq_iff]

end CheckSumOnDisk

end DistillFs
