import DistillFs.Foundation.BigEndian

/-!
# The order of bytes

Lists of bytes are compared from the front, each byte as an unsigned number, and a proper prefix
comes first. Fields of fixed width that are written one behind the other are compared field by
field, and big-endian numbers of one width as numbers.

## Main results

* `compare_append`: the first field decides, and the rest where it does not.
* `compare_toBytes`: big-endian numbers are compared as numbers.
-/

namespace DistillFs.Foundation

/-- Fields of one length decide a comparison before what is written behind them. -/
theorem compare_append {a a' : List UInt8} (h : a.length = a'.length) (b b' : List UInt8) :
    compare (a ++ b) (a' ++ b') = (compare a a').then (compare b b') := by
  induction a generalizing a' with
  | nil =>
    obtain rfl : a' = [] := List.length_eq_zero_iff.mp h.symm
    rw [List.nil_append, List.nil_append, Std.LawfulEqOrd.compare_eq_iff_eq.mpr rfl]
    rfl
  | cons x a ih =>
    cases a' with
    | nil => cases h
    | cons x' a' =>
      rw [List.cons_append, List.cons_append, List.compare_cons_cons, List.compare_cons_cons,
        ih (Nat.succ.inj h), Ordering.then_assoc]

theorem compare_byte (a b : UInt8) : compare a b = compare a.toNat b.toNat := by
  change compareOfLessAndEq a b = compareOfLessAndEq a.toNat b.toNat
  simp only [compareOfLessAndEq, UInt8.lt_iff_toNat_lt, UInt8.toNat_inj]

/-- What decides a comparison is not looked behind. -/
theorem then_of_ne {o : Ordering} (h : o ≠ .eq) (o' : Ordering) : o.then o' = o := by
  cases o
  · rfl
  · exact absurd rfl h
  · rfl

/-- Bytes come before others as the lists of their numbers do. -/
theorem compare_eq_lt_iff (a b : List UInt8) :
    compare a b = .lt ↔ a.map UInt8.toNat < b.map UInt8.toNat := by
  induction a generalizing b with
  | nil =>
    cases b with
    | nil => exact iff_of_false nofun (lt_irrefl _)
    | cons y b => exact iff_of_true rfl (List.nil_lt_cons _ _)
  | cons x a ih =>
    cases b with
    | nil => exact iff_of_false nofun (List.not_lt_nil _)
    | cons y b =>
      rw [List.compare_cons_cons, Ordering.then_eq_lt, ih, compare_byte, compare_lt_iff_lt,
        compare_eq_iff_eq, List.map_cons, List.map_cons, List.cons_lt_cons_iff]

/-- Numbers are compared by their quotients, and by their remainders where these are equal. -/
theorem compare_div_mod (m a b : ℕ) :
    compare a b = (compare (a / m) (b / m)).then (compare (a % m) (b % m)) := by
  have ha := Nat.div_add_mod a m
  have hb := Nat.div_add_mod b m
  rcases lt_trichotomy (a / m) (b / m) with hlt | heq | hgt
  · rw [compare_lt_iff_lt.mpr hlt, compare_lt_iff_lt.mpr (Nat.lt_of_div_lt_div hlt)]
    rfl
  · rw [compare_eq_iff_eq.mpr heq, Ordering.then]
    rw [heq] at ha
    rcases lt_trichotomy (a % m) (b % m) with h | h | h
    · rw [compare_lt_iff_lt.mpr h, compare_lt_iff_lt.mpr (by omega)]
    · rw [compare_eq_iff_eq.mpr h, compare_eq_iff_eq.mpr (by omega)]
    · rw [compare_gt_iff_gt.mpr h, compare_gt_iff_gt.mpr (show b < a by omega)]
  · rw [compare_gt_iff_gt.mpr hgt, compare_gt_iff_gt.mpr (Nat.lt_of_div_lt_div hgt)]
    rfl

theorem toBytes_mod (w n : ℕ) : toBytes w (n % 256 ^ w) = toBytes w n := by
  suffices h : ∀ v, w ≤ v → toBytes w (n % 256 ^ v) = toBytes w n from h w le_rfl
  intro v hv
  induction w with
  | zero => rfl
  | succ w ih =>
    rw [toBytes, toBytes, ih (by omega)]
    congr 1
    obtain ⟨d, rfl⟩ := Nat.exists_eq_add_of_le hv
    rw [pow_add, pow_succ, mul_assoc, Nat.mod_mul_right_div_self]
    refine UInt8.toNat_inj.mp ?_
    rw [UInt8.toNat_ofNat', UInt8.toNat_ofNat', Nat.mod_mul_right_mod]

/-- Big-endian numbers of one width are compared as numbers. -/
theorem compare_toBytes {w a b : ℕ} (ha : a < 256 ^ w) (hb : b < 256 ^ w) :
    compare (toBytes w a) (toBytes w b) = compare a b := by
  induction w generalizing a b with
  | zero =>
    rw [pow_zero, Nat.lt_one_iff] at ha hb
    rw [ha, hb]
    rfl
  | succ w ih =>
    have hpos : 0 < 256 ^ w := by positivity
    have hbyte : ∀ {n}, n < 256 ^ (w + 1) → (UInt8.ofNat (n / 256 ^ w)).toNat = n / 256 ^ w := by
      intro n hn
      rw [UInt8.toNat_ofNat', Nat.mod_eq_of_lt]
      exact Nat.div_lt_of_lt_mul hn
    rw [toBytes, toBytes, List.compare_cons_cons, compare_byte, hbyte ha, hbyte hb,
      ← toBytes_mod w a, ← toBytes_mod w b, ih (Nat.mod_lt _ hpos) (Nat.mod_lt _ hpos),
      ← compare_div_mod]

end DistillFs.Foundation
