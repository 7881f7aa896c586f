import Mathlib

/-!
# Big-endian numbers

Numbers as bytes, most significant byte first, as many bytes as asked for.

## Main definitions

* `toBytes`, `ofBytes`.

## Main results

* `ofBytes_toBytes`: the bytes of a number hold it modulo a power of 256.
-/

namespace DistillFs.Foundation

/-- The last `w` bytes of a number, most significant first. -/
def toBytes : ℕ → ℕ → List UInt8
  | 0, _ => []
  | w + 1, n => UInt8.ofNat (n / 256 ^ w) :: toBytes w n

/-- The number some bytes stand for. -/
def ofBytes (bytes : List UInt8) : ℕ := bytes.foldl (fun n b => n * 256 + b.toNat) 0

@[simp] theorem length_toBytes (w n : ℕ) : (toBytes w n).length = w := by
  induction w with
  | zero => rfl
  | succ w ih => rw [toBytes, List.length_cons, ih]

theorem foldl_toBytes (w n acc : ℕ) :
    (toBytes w n).foldl (fun n b => n * 256 + b.toNat) acc = acc * 256 ^ w + n % 256 ^ w := by
  induction w generalizing acc with
  | zero => simp [toBytes, Nat.mod_one]
  | succ w ih =>
    rw [toBytes, List.foldl_cons, ih, Nat.mod_pow_succ, UInt8.toNat_ofNat']
    ring

theorem ofBytes_toBytes (w n : ℕ) : ofBytes (toBytes w n) = n % 256 ^ w := by
  rw [ofBytes, foldl_toBytes, Nat.zero_mul, Nat.zero_add]

end DistillFs.Foundation
