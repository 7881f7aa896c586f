import Mathlib

/-!
# Files as bytes

A `ByteFile` is a file of some length together with the bytes in it. Reading past the end gives
zeros, and the structure carries that fact, so extending a file reveals zeros and punching a hole
never changes what lies beyond the end.

## Main definitions

* `ByteFile`, `ByteFile.empty`, `ByteFile.ofList`, `ByteFile.setLen`, `ByteFile.write`,
  `ByteFile.punch`, `ByteFile.modify`.
* `ByteFile.slice`: the bytes of a range as a list.
* `ByteFile.AgreeOn`: two files hold the same bytes on a range.

## Main results

* `ByteFile.slice_eq_slice_iff`: equal slices are agreement on the range.
* `ByteFile.take_drop_slice`, `ByteFile.slice_append`: slices of slices and their concatenation.
* `ByteFile.AgreeOn.write`, `ByteFile.agreeOn_write_slice`: what a write keeps and what it sets.
-/

namespace DistillFs.Foundation

/-- A file: its length and its bytes, with zeros past the end. -/
@[ext] structure ByteFile where
  /-- The length of the file. -/
  len : ℕ
  /-- The byte at a position. -/
  byte : ℕ → UInt8
  /-- Past the end there are only zeros. -/
  zero_beyond : ∀ i, len ≤ i → byte i = 0

namespace ByteFile

variable (f g h : ByteFile)

/-- A new file of length zero. -/
def empty : ByteFile := ⟨0, fun _ => 0, fun _ _ => rfl⟩

/-- A file with given bytes. -/
def ofList (bytes : List UInt8) : ByteFile :=
  ⟨bytes.length, fun i => bytes.getD i 0, fun _ h => List.getD_eq_default _ _ h⟩

/-- Truncate the file, or extend it by zeros, to the length `n`. -/
def setLen (n : ℕ) : ByteFile where
  len := n
  byte i := if i < n then f.byte i else 0
  zero_beyond i hi := by simp [Nat.not_lt.mpr hi]

/-- Copy `data` into the file at `off`. Positions past the end are not written. -/
def write (off : ℕ) (data : List UInt8) : ByteFile where
  len := f.len
  byte i := if i < f.len ∧ off ≤ i ∧ i < off + data.length then data.getD (i - off) 0 else f.byte i
  zero_beyond i hi := by
    rw [if_neg (by omega)]
    exact f.zero_beyond i hi

/-- Punch a hole of `n` bytes at `off`, keeping the length. -/
def punch (off n : ℕ) : ByteFile where
  len := f.len
  byte i := if off ≤ i ∧ i < off + n then 0 else f.byte i
  zero_beyond i hi := by
    split_ifs
    · rfl
    · exact f.zero_beyond i hi

/-- Change one byte of the file. A position past the end is left alone. -/
def modify (i : ℕ) (u : UInt8 → UInt8) : ByteFile where
  len := f.len
  byte j := if j = i ∧ i < f.len then u (f.byte j) else f.byte j
  zero_beyond j hj := by
    rw [if_neg (by omega)]
    exact f.zero_beyond j hj

/-- The `n` bytes at `off`. -/
def slice (off n : ℕ) : List UInt8 := (List.range n).map fun i => f.byte (off + i)

/-- Two files hold the same bytes at the positions `a ≤ i < b`. -/
def AgreeOn (a b : ℕ) : Prop := ∀ i, a ≤ i → i < b → f.byte i = g.byte i

/-! ### Lengths and single bytes -/

@[simp] theorem len_empty : empty.len = 0 := rfl

@[simp] theorem byte_empty (i : ℕ) : empty.byte i = 0 := rfl

@[simp] theorem len_setLen (n : ℕ) : (f.setLen n).len = n := rfl

@[simp] theorem len_write (off : ℕ) (data : List UInt8) : (f.write off data).len = f.len := rfl

@[simp] theorem len_punch (off n : ℕ) : (f.punch off n).len = f.len := rfl

@[simp] theorem len_modify (i : ℕ) (u : UInt8 → UInt8) : (f.modify i u).len = f.len := rfl

theorem byte_setLen (n i : ℕ) : (f.setLen n).byte i = if i < n then f.byte i else 0 := rfl

theorem byte_write (off : ℕ) (data : List UInt8) (i : ℕ) :
    (f.write off data).byte i =
      if i < f.len ∧ off ≤ i ∧ i < off + data.length then data.getD (i - off) 0 else f.byte i := rfl

theorem byte_punch (off n i : ℕ) :
    (f.punch off n).byte i = if off ≤ i ∧ i < off + n then 0 else f.byte i := rfl

theorem byte_modify (i : ℕ) (u : UInt8 → UInt8) (j : ℕ) :
    (f.modify i u).byte j = if j = i ∧ i < f.len then u (f.byte j) else f.byte j := rfl

-- The lemmas above are the interface of these operations; unfolding them to compare two files
-- position by position is never what a proof wants.
attribute [irreducible] setLen write punch modify

/-- Setting the length a file already has changes nothing. -/
@[simp] theorem setLen_len : f.setLen f.len = f := by
  ext i
  · exact f.len_setLen _
  · by_cases hi : i < f.len
    · simp [byte_setLen, hi]
    · simp [byte_setLen, hi, f.zero_beyond i (Nat.not_lt.mp hi)]

/-! ### Slices -/

@[simp] theorem length_slice (off n : ℕ) : (f.slice off n).length = n := by simp [slice]

@[simp] theorem slice_zero (off : ℕ) : f.slice off 0 = [] := rfl

theorem getElem_slice {off n i : ℕ} (hi : i < (f.slice off n).length) :
    (f.slice off n)[i] = f.byte (off + i) := by
  simp [slice]

theorem getD_slice {off n i : ℕ} (hi : i < n) : (f.slice off n).getD i 0 = f.byte (off + i) := by
  rw [List.getD_eq_getElem _ _ (by simpa using hi), getElem_slice]

theorem slice_eq_slice_iff {off n : ℕ} :
    f.slice off n = g.slice off n ↔ f.AgreeOn g off (off + n) := by
  constructor
  · intro heq i hi hi'
    have := congrArg (fun l => l.getD (i - off) 0) heq
    simpa only [getD_slice _ (show i - off < n by omega), Nat.add_sub_cancel' hi] using this
  · intro hag
    exact List.map_congr_left fun i hi => hag _ (Nat.le_add_right _ _)
      (Nat.add_lt_add_left (List.mem_range.mp hi) _)

theorem slice_append (off m n : ℕ) :
    f.slice off m ++ f.slice (off + m) n = f.slice off (m + n) := by
  simp only [slice, List.range_add, List.map_append, List.map_map, Function.comp_def, Nat.add_assoc]

/-- The bytes `a ≤ i < a + b` of a slice are the slice that starts `a` bytes later. -/
theorem take_drop_slice {off n a b : ℕ} (hab : a + b ≤ n) :
    ((f.slice off n).drop a).take b = f.slice (off + a) b := by
  have hlen : (((f.slice off n).drop a).take b).length = b := by simp; omega
  refine List.ext_getElem (by simpa using hlen) fun i hi hi' => ?_
  rw [List.getElem_take, List.getElem_drop, getElem_slice, getElem_slice, Nat.add_assoc]

theorem take_slice {off n b : ℕ} (hb : b ≤ n) : (f.slice off n).take b = f.slice off b := by
  simpa using f.take_drop_slice (show 0 + b ≤ n by omega)

/-! ### Agreement of two files -/

variable {f g h}

theorem AgreeOn.refl (a b : ℕ) : f.AgreeOn f a b := fun _ _ _ => rfl

theorem AgreeOn.symm {a b : ℕ} (hfg : f.AgreeOn g a b) : g.AgreeOn f a b :=
  fun i hi hi' => (hfg i hi hi').symm

theorem AgreeOn.trans {a b : ℕ} (hfg : f.AgreeOn g a b) (hgh : g.AgreeOn h a b) :
    f.AgreeOn h a b :=
  fun i hi hi' => (hfg i hi hi').trans (hgh i hi hi')

theorem AgreeOn.mono {a b a' b' : ℕ} (hfg : f.AgreeOn g a b) (ha : a ≤ a') (hb : b' ≤ b) :
    f.AgreeOn g a' b' :=
  fun i hi hi' => hfg i (ha.trans hi) (hi'.trans_le hb)

/-- What a file holds after bytes of another one were written at their own place. -/
theorem byte_write_slice (f g : ByteFile) (off n i : ℕ) :
    (f.write off (g.slice off n)).byte i =
      if i < f.len ∧ off ≤ i ∧ i < off + n then g.byte i else f.byte i := by
  simp only [byte_write, length_slice]
  split_ifs with hw
  · rw [getD_slice _ (by omega), Nat.add_sub_cancel' hw.2.1]
  · rfl

/-- Writing bytes of a file that agrees with `g` at their own place keeps agreement with `g`. -/
theorem AgreeOn.write {a b off n : ℕ} (hfg : f.AgreeOn g a b) (hhg : h.AgreeOn g a b) :
    (f.write off (h.slice off n)).AgreeOn g a b := by
  intro i hi hi'
  rw [byte_write_slice]
  split_ifs with hw
  · exact hhg i hi hi'
  · exact hfg i hi hi'

/-- After the bytes of `g` on a range inside the file are written, the files agree there. -/
theorem agreeOn_write_slice {off n : ℕ} (hn : off + n ≤ f.len) :
    (f.write off (g.slice off n)).AgreeOn g off (off + n) := by
  intro i hi hi'
  rw [byte_write_slice, if_pos (by omega)]

/-- A hole away from a range keeps the agreement on it. -/
theorem AgreeOn.punch {a b off n : ℕ} (hfg : f.AgreeOn g a b) (hd : b ≤ off ∨ off + n ≤ a) :
    (f.punch off n).AgreeOn g a b := by
  intro i hi hi'
  rw [byte_punch, if_neg (by omega)]
  exact hfg i hi hi'

variable (f)

/-- Writing back the bytes of a range that were just read changes nothing. -/
@[simp] theorem write_slice_self (off n : ℕ) : f.write off (f.slice off n) = f := by
  ext i
  · exact f.len_write _ _
  · rw [byte_write_slice, ite_self]

end ByteFile

end DistillFs.Foundation
