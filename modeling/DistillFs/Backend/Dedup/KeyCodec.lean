import DistillFs.Backend.Dedup.Index
import DistillFs.Foundation.ByteOrder

/-!
# The key codec of the range index

A key of the index database is written as 48 bytes: the identity, the end of the range, its start,
the numbers big-endian. The database compares these bytes, and a walk starts at an encoded lower
bound. Reading the bytes gives the range back, and the order of the bytes is the one the walk of
`dedup_range` relies on.

The type has an order of its own, `Ord::cmp`. It compares starts the other way round, so it agrees
with the bytes only as long as no two keys of one image end together and start apart.

## Main definitions

* `DedupRange.cmp`, `DedupRange.bytesEncode`, `DedupRange.bytesDecode`.
* `DedupKey`: ranges whose ends are 64-bit numbers.
* `DedupKey.SharesStart`, `DedupKey.iterFrom`.

## Main results

* `DedupKey.le_iff_bytesEncode`: the order of the walk is the order of the bytes.
* `DedupKey.codec_exact`: where the codec keeps the order of the type.
-/

namespace DistillFs

open Foundation

namespace DedupRange

/-- `Ord::cmp`. -/
def cmp (a b : DedupRange) : Ordering :=
  if a.id ≠ b.id then compare a.id.toList b.id.toList
  else if a.stop ≠ b.stop then compare a.stop b.stop
  else compare b.start a.start

/-- The bytes of a key. -/
def bytesEncode (r : DedupRange) : List UInt8 :=
  r.id.toList ++ (toBytes 8 r.stop ++ toBytes 8 r.start)

/-- The key that some bytes stand for. -/
def bytesDecode (bytes : List UInt8) : Except String DedupRange :=
  if h : bytes.length = 48 then
    .ok ⟨⟨(bytes.take 32).toArray, by simp [h]⟩, ofBytes ((bytes.drop 40).take 8),
      ofBytes ((bytes.drop 32).take 8)⟩
  else .error "Invalid DedupRange length"

theorem length_bytesEncode (r : DedupRange) : r.bytesEncode.length = 48 := by
  simp [bytesEncode]

/-- The order of the type, field by field. -/
theorem cmp_eq_then (a b : DedupRange) :
    a.cmp b = (compare a.id.toList b.id.toList).then
      ((compare a.stop b.stop).then (compare b.start a.start)) := by
  unfold cmp
  split_ifs with hid hstop
  · rw [then_of_ne fun h => hid (Vector.toList_inj.mp (Std.LawfulEqOrd.eq_of_compare h))]
  · rw [not_not.mp hid, Std.LawfulEqOrd.compare_eq_iff_eq.mpr rfl, Ordering.eq_then,
      then_of_ne fun h => hstop (compare_eq_iff_eq.mp h)]
  · rw [not_not.mp hid, not_not.mp hstop, Std.LawfulEqOrd.compare_eq_iff_eq.mpr rfl,
      compare_eq_iff_eq.mpr rfl, Ordering.eq_then, Ordering.eq_then]

end DedupRange

/-- A range whose start and end are 64-bit numbers. -/
@[ext] structure DedupKey extends DedupRange where
  start_lt : start < 256 ^ 8
  stop_lt : stop < 256 ^ 8
  deriving DecidableEq

namespace DedupKey

variable (a b : DedupKey)

/-- Keys of one image that end together start together. -/
def SharesStart : Prop := a.id = b.id → a.stop = b.stop → a.start = b.start

/-- The keys of a table that a walk from an encoded lower bound visits. -/
def iterFrom (keys : Finset DedupKey) (bound : DedupKey) : Finset DedupKey :=
  keys.filter fun k => (compare bound.bytesEncode k.bytesEncode).isLE

/-- The bytes of a key give the key back. -/
theorem bytesDecode_bytesEncode : DedupRange.bytesDecode a.bytesEncode = .ok a.toDedupRange := by
  have hid : a.bytesEncode.take 32 = a.id.toList := by
    rw [DedupRange.bytesEncode, List.take_append_of_le_length (by simp), List.take_of_length_le]
    simp
  have hrest : a.bytesEncode.drop 32 = toBytes 8 a.stop ++ toBytes 8 a.start := by
    rw [DedupRange.bytesEncode]
    exact List.drop_left' (by simp)
  have hstop : (a.bytesEncode.drop 32).take 8 = toBytes 8 a.stop := by
    rw [hrest]
    exact List.take_left' (by simp)
  have hstart : (a.bytesEncode.drop 40).take 8 = toBytes 8 a.start := by
    rw [show 40 = 32 + 8 from rfl, ← List.drop_drop, hrest, List.drop_left' (by simp),
      List.take_of_length_le (by simp)]
  rw [DedupRange.bytesDecode, dif_pos (DedupRange.length_bytesEncode _)]
  refine congrArg Except.ok (DedupRange.ext ?_ ?_ ?_)
  · exact Vector.toList_inj.mp hid
  · change ofBytes _ = _
    rw [hstart, ofBytes_toBytes, Nat.mod_eq_of_lt a.start_lt]
  · change ofBytes _ = _
    rw [hstop, ofBytes_toBytes, Nat.mod_eq_of_lt a.stop_lt]

/-- The bytes are compared field by field. -/
theorem compare_bytesEncode :
    compare a.bytesEncode b.bytesEncode = (compare a.id.toList b.id.toList).then
      ((compare a.stop b.stop).then (compare a.start b.start)) := by
  rw [DedupRange.bytesEncode, DedupRange.bytesEncode, compare_append (by simp),
    compare_append (by simp), compare_toBytes a.stop_lt b.stop_lt,
    compare_toBytes a.start_lt b.start_lt]

/-- The walk of `dedup_range` lists the keys in the order of their bytes. -/
theorem le_iff_bytesEncode :
    a.toDedupRange ≤ b.toDedupRange ↔ (compare a.bytesEncode b.bytesEncode).isLE := by
  have hid : a.id.toList.map UInt8.toNat = b.id.toList.map UInt8.toNat ↔
      compare a.id.toList b.id.toList = .eq := by
    rw [(List.map_injective_iff.mpr fun _ _ => UInt8.toNat_inj.mp).eq_iff,
      Std.LawfulEqOrd.compare_eq_iff_eq]
  change DedupRange.rank _ ≤ DedupRange.rank _ ↔ _
  rw [compare_bytesEncode, Ordering.isLE_then_iff_or, Ordering.isLE_then_iff_or,
    Std.isLE_compare, compare_eq_lt_iff, compare_lt_iff_lt, compare_eq_iff_eq, ← hid,
    DedupRange.rank, DedupRange.rank, Prod.Lex.toLex_le_toLex]
  exact or_congr_right (and_congr_right' Prod.Lex.toLex_le_toLex)

/-- The keys that `dedup_range` walks over are those a walk from its encoded lower bound visits. -/
theorem mem_keysFrom_iff {db : IndexDb} {off : ℕ}
    (hoff : a.toDedupRange = .newWithId a.id off 1) :
    b.toDedupRange ∈ db.keysFrom a.id off ↔
      b.toDedupRange ∈ db.keys ∧ (compare a.bytesEncode b.bytesEncode).isLE := by
  rw [IndexDb.keysFrom, Finset.mem_sort, Finset.mem_filter, ← hoff, le_iff_bytesEncode]

/-- Where the bytes and the type may differ, they do. -/
theorem compare_of_apart (hid : a.id = b.id) (hstop : a.stop = b.stop) :
    compare a.bytesEncode b.bytesEncode = compare a.start b.start ∧
      a.cmp b.toDedupRange = compare b.start a.start := by
  rw [compare_bytesEncode, DedupRange.cmp_eq_then, hid, hstop,
    Std.LawfulEqOrd.compare_eq_iff_eq.mpr rfl, compare_eq_iff_eq.mpr rfl]
  exact ⟨rfl, rfl⟩

/-- Keys that share their start are compared alike by the bytes and by the type. -/
theorem SharesStart.compare_eq_cmp {a b : DedupKey} (h : a.SharesStart b) :
    compare a.bytesEncode b.bytesEncode = a.cmp b.toDedupRange := by
  by_cases hid : a.id = b.id
  · by_cases hstop : a.stop = b.stop
    · rw [(compare_of_apart a b hid hstop).1, (compare_of_apart a b hid hstop).2, h hid hstop]
    · have hne : compare a.stop b.stop ≠ .eq := fun heq => hstop (compare_eq_iff_eq.mp heq)
      rw [compare_bytesEncode, DedupRange.cmp_eq_then, then_of_ne hne, then_of_ne hne]
  · have hne : compare a.id.toList b.id.toList ≠ .eq := fun heq =>
      hid (Vector.toList_inj.mp (Std.LawfulEqOrd.eq_of_compare heq))
    rw [compare_bytesEncode, DedupRange.cmp_eq_then, then_of_ne hne, then_of_ne hne]

/-- Keys that do not share their start are on one side of each other by the bytes and on the other
by the type. -/
theorem isLE_compare_iff_of_not_sharesStart {a b : DedupKey} (h : ¬a.SharesStart b) :
    (compare a.bytesEncode b.bytesEncode).isLE ↔ ¬(a.cmp b.toDedupRange).isLE := by
  simp only [SharesStart, Classical.not_imp] at h
  obtain ⟨hid, hstop, hstart⟩ := h
  rw [(compare_of_apart a b hid hstop).1, (compare_of_apart a b hid hstop).2, Std.isLE_compare,
    Std.isLE_compare]
  omega

theorem compare_eq_cmp_iff :
    compare a.bytesEncode b.bytesEncode = a.cmp b.toDedupRange ↔ a.SharesStart b := by
  refine ⟨fun heq => ?_, SharesStart.compare_eq_cmp⟩
  by_contra h
  have hside := isLE_compare_iff_of_not_sharesStart h
  rw [heq] at hside
  exact not_iff_self hside.symm

theorem isLE_compare_iff_isLE_cmp :
    ((compare a.bytesEncode b.bytesEncode).isLE ↔ (a.cmp b.toDedupRange).isLE) ↔
      a.SharesStart b := by
  refine ⟨fun heq => ?_, fun h => by rw [h.compare_eq_cmp]⟩
  by_contra h
  exact not_iff_self ((isLE_compare_iff_of_not_sharesStart h).symm.trans heq)

/-- **The codec of the keys.** Two keys are read back from their bytes, and the bytes are ordered as
the keys are, exactly if they share their start; and a walk visits the keys that are not below its
bound exactly if these share their start with the bound. -/
theorem codec_exact (a b : DedupKey) (keys : Finset DedupKey) (bound : DedupKey) :
    ((compare a.bytesEncode b.bytesEncode = a.cmp b.toDedupRange ∧
        DedupRange.bytesDecode a.bytesEncode = .ok a.toDedupRange) ↔ a.SharesStart b) ∧
      (iterFrom keys bound = keys.filter (fun k => (bound.cmp k.toDedupRange).isLE) ↔
        ∀ k ∈ keys, bound.SharesStart k) := by
  constructor
  · rw [and_iff_left (bytesDecode_bytesEncode a), compare_eq_cmp_iff]
  · rw [iterFrom, Finset.filter_inj']
    exact forall₂_congr fun k _ => isLE_compare_iff_isLE_cmp bound k

/-- Of two ranges of an image that end together, the bytes put the longer one first and the type
puts it last. A walk from the shorter one leaves the longer one out. -/
theorem codec_mismatch :
    let long : DedupKey := ⟨⟨.replicate 32 0, 0, 10⟩, by decide, by decide⟩
    let short : DedupKey := ⟨⟨.replicate 32 0, 5, 10⟩, by decide, by decide⟩
    compare long.bytesEncode short.bytesEncode = .lt ∧ long.cmp short.toDedupRange = .gt ∧
      long ∉ iterFrom {long} short ∧ short.cmp long.toDedupRange = .lt := by
  decide

end DedupKey

end DistillFs
