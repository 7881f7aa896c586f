import DistillFs.Foundation.Checked

/-!
# The capacity of the chunk database

`parse_chunk_db_size` reads the capacity from the command line: whole bytes, or an integer followed
by a binary unit. Every step of the arithmetic is checked, and the size is accepted as it stands or
not at all. A `usize` has 64 bits.

## Main definitions

* `parseChunkDbSize`, `validateSize`, `parseU64`.
* `chunkDbUnits`, `IsChunkDbSize`: the sizes that are meant.

## Main results

* `parseChunkDbSize_ok_iff`: the parser accepts exactly these.
-/

namespace DistillFs

open Foundation

/-- `char::to_digit(10)`. -/
def toDigit (c : Char) : Option ℕ := if c.isDigit then some (c.toNat - '0'.toNat) else none

/-- The digits of a number after its sign. -/
def parseDigits (n : ℕ) : List Char → Option ℕ
  | [] => some n
  | c :: rest => do
    let n ← checked 64 (n * 10)
    let digit ← toDigit c
    let n ← checked 64 (n + digit)
    parseDigits n rest

/-- `str::parse::<u64>`, without the kinds of its errors. -/
def parseU64 (src : List Char) : Option ℕ :=
  if src = [] ∨ src = ['+'] ∨ src = ['-'] then none
  else if src.head? = some '+' then parseDigits 0 src.tail
  else parseDigits 0 src

def validateSize (pageSize : ℤ) (size : ℕ) : Except String Unit :=
  if ¬0 < pageSize then .error "cannot determine system page size"
  else if ¬1024 * 1024 ≤ size then .error "ChunkDB size must be at least 1MiB"
  else if ¬size ≤ 2 ^ 63 - 1 then .error "ChunkDB size exceeds addressable range"
  else if ¬size % pageSize.toNat = 0 then
    .error s!"ChunkDB size must be a multiple of the system page size ({pageSize} bytes)"
  else .ok ()

/-- The factor of a unit. -/
def unitMultiplier : String → Option ℕ
  | "" | "B" => some 1
  | "KiB" => some (1 <<< 10)
  | "MiB" => some (1 <<< 20)
  | "GiB" => some (1 <<< 30)
  | "TiB" => some (1 <<< 40)
  | _ => none

def parseChunkDbSize (pageSize : ℤ) (value : String) : Except String ℕ :=
  let number := value.toList.takeWhile Char.isDigit
  let unit := String.ofList (value.toList.dropWhile Char.isDigit)
  match unitMultiplier unit with
  | none => .error "use whole bytes or an integer with B, KiB, MiB, GiB, TiB"
  | some multiplier =>
    match ((parseU64 number).bind fun n => checked 64 (n * multiplier)).bind (checked 64) with
    | none => .error "invalid or overflowing ChunkDB size"
    | some size =>
      match validateSize pageSize size with
      | .error err => .error err
      | .ok () => .ok size

/-! ### The sizes that are meant -/

/-- The units, with nothing for bytes. -/
def chunkDbUnits : List (String × ℕ) :=
  [("", 1), ("B", 1), ("KiB", 2 ^ 10), ("MiB", 2 ^ 20), ("GiB", 2 ^ 30), ("TiB", 2 ^ 40)]

/-- The text is a decimal number and a unit, and they make `n` bytes; `n` is at least 1 MiB, fits
into an `isize` and is a multiple of the page size. -/
def IsChunkDbSize (pageSize : ℤ) (value : String) (n : ℕ) : Prop :=
  (∃ digits unit multiplier, value.toList = digits ++ unit.toList ∧ digits ≠ [] ∧
    (∀ c ∈ digits, c.isDigit = true) ∧ (unit, multiplier) ∈ chunkDbUnits ∧
    Nat.ofDigitChars 10 digits 0 * multiplier = n) ∧
  2 ^ 20 ≤ n ∧ n ≤ 2 ^ 63 - 1 ∧ pageSize ∣ n

theorem unitMultiplier_eq_some {unit : String} {multiplier : ℕ} :
    unitMultiplier unit = some multiplier ↔ (unit, multiplier) ∈ chunkDbUnits := by
  constructor
  · intro h
    unfold unitMultiplier at h
    split at h
    · obtain rfl := Option.some.inj h
      decide
    · obtain rfl := Option.some.inj h
      decide
    · obtain rfl := Option.some.inj h
      decide
    · obtain rfl := Option.some.inj h
      decide
    · obtain rfl := Option.some.inj h
      decide
    · obtain rfl := Option.some.inj h
      decide
    · cases h
  · have hall : ∀ u ∈ chunkDbUnits, unitMultiplier u.1 = some u.2 := by decide
    exact hall (unit, multiplier)

theorem pos_of_mem_chunkDbUnits {unit : String} {multiplier : ℕ}
    (h : (unit, multiplier) ∈ chunkDbUnits) : 1 ≤ multiplier := by
  have hall : ∀ u ∈ chunkDbUnits, 1 ≤ u.2 := by decide
  exact hall _ h

/-- No unit begins with a digit. -/
theorem takeWhile_unit {unit : String} {multiplier : ℕ} (h : (unit, multiplier) ∈ chunkDbUnits) :
    unit.toList.takeWhile Char.isDigit = [] ∧
      unit.toList.dropWhile Char.isDigit = unit.toList := by
  have hall : ∀ u ∈ chunkDbUnits, u.1.toList.takeWhile Char.isDigit = [] ∧
      u.1.toList.dropWhile Char.isDigit = u.1.toList := by decide
  exact hall _ h

theorem le_ofDigitChars (digits : List Char) (n : ℕ) : n ≤ Nat.ofDigitChars 10 digits n := by
  induction digits generalizing n with
  | nil => exact le_rfl
  | cons c digits ih =>
    rw [Nat.ofDigitChars_cons]
    exact le_trans (by omega) (ih _)

/-- The digits make their number, if it fits. -/
theorem parseDigits_eq {digits : List Char} (hdigits : ∀ c ∈ digits, c.isDigit = true) {n : ℕ}
    (hn : n < 2 ^ 64) : parseDigits n digits = checked 64 (Nat.ofDigitChars 10 digits n) := by
  induction digits generalizing n with
  | nil => exact (if_pos hn).symm
  | cons c digits ih =>
    have hc : toDigit c = some (c.toNat - '0'.toNat) := if_pos (hdigits c List.mem_cons_self)
    have hle := le_ofDigitChars digits (10 * n + (c.toNat - '0'.toNat))
    rw [parseDigits, hc, Nat.ofDigitChars_cons]
    rcases lt_or_ge (n * 10) (2 ^ 64) with hmul | hmul
    · rw [checked_of_lt hmul]
      change (checked 64 (n * 10 + (c.toNat - '0'.toNat)) >>= _) = _
      rcases lt_or_ge (n * 10 + (c.toNat - '0'.toNat)) (2 ^ 64) with hadd | hadd
      · rw [checked_of_lt hadd, Nat.mul_comm 10 n]
        exact ih (fun d hd => hdigits d (List.mem_cons_of_mem _ hd)) hadd
      · rw [checked_of_le hadd, checked_of_le (by omega)]
        rfl
    · rw [checked_of_le hmul, checked_of_le (by omega)]
      rfl

theorem parseU64_eq {digits : List Char} (hne : digits ≠ [])
    (hdigits : ∀ c ∈ digits, c.isDigit = true) :
    parseU64 digits = checked 64 (Nat.ofDigitChars 10 digits 0) := by
  have hsign : ∀ sign : Char, sign.isDigit = false → sign ∉ digits := fun sign hsign hmem => by
    rw [hdigits sign hmem] at hsign
    cases hsign
  have hplus : digits.head? ≠ some '+' := fun h => hsign '+' rfl (List.mem_of_head? h)
  have hnot : ¬(digits = [] ∨ digits = ['+'] ∨ digits = ['-']) := by
    rintro (h | rfl | rfl)
    · exact hne h
    · exact hplus rfl
    · exact hsign '-' rfl List.mem_cons_self
  rw [parseU64, if_neg hnot, if_neg hplus]
  exact parseDigits_eq hdigits (by decide)

/-- The number times the unit, if this fits; a number that does not fit alone does not fit with a
unit either. -/
theorem size_eq {digits : List Char} (hne : digits ≠ [])
    (hdigits : ∀ c ∈ digits, c.isDigit = true) {multiplier : ℕ} (hmul : 1 ≤ multiplier) :
    ((parseU64 digits).bind fun n => checked 64 (n * multiplier)).bind (checked 64) =
      checked 64 (Nat.ofDigitChars 10 digits 0 * multiplier) := by
  rw [parseU64_eq hne hdigits]
  have hle : Nat.ofDigitChars 10 digits 0 ≤ Nat.ofDigitChars 10 digits 0 * multiplier :=
    Nat.le_mul_of_pos_right _ hmul
  rcases lt_or_ge (Nat.ofDigitChars 10 digits 0) (2 ^ 64) with hnum | hnum
  · rw [checked_of_lt hnum, Option.bind_some]
    rcases lt_or_ge (Nat.ofDigitChars 10 digits 0 * multiplier) (2 ^ 64) with hsize | hsize
    · rw [checked_of_lt hsize, Option.bind_some, checked_of_lt hsize]
    · rw [checked_of_le hsize, Option.bind_none]
  · rw [checked_of_le hnum, checked_of_le (hnum.trans hle)]
    rfl

theorem validateSize_eq_ok {pageSize : ℤ} (hpage : 0 < pageSize) {size : ℕ} :
    validateSize pageSize size = .ok () ↔
      2 ^ 20 ≤ size ∧ size ≤ 2 ^ 63 - 1 ∧ pageSize ∣ (size : ℤ) := by
  have hdvd : size % pageSize.toNat = 0 ↔ pageSize ∣ (size : ℤ) := by
    rw [← Nat.dvd_iff_mod_eq_zero, ← Int.natCast_dvd_natCast, Int.toNat_of_nonneg hpage.le]
  rw [validateSize, if_neg (not_not.mpr hpage), ← hdvd]
  split_ifs with hmin hmax hmod
  · simp
    omega
  · simp
    omega
  · simp
    omega
  · simp
    omega

/-- The three steps of the parser. -/
theorem parseChunkDbSize_eq_ok {pageSize : ℤ} {value : String} {size : ℕ} :
    parseChunkDbSize pageSize value = .ok size ↔ ∃ multiplier,
      unitMultiplier (.ofList (value.toList.dropWhile Char.isDigit)) = some multiplier ∧
      ((parseU64 (value.toList.takeWhile Char.isDigit)).bind fun n =>
        checked 64 (n * multiplier)).bind (checked 64) = some size ∧
      validateSize pageSize size = .ok () := by
  rw [parseChunkDbSize]
  cases hunit : unitMultiplier (.ofList (value.toList.dropWhile Char.isDigit)) with
  | none => simp
  | some multiplier =>
    cases hsize : ((parseU64 (value.toList.takeWhile Char.isDigit)).bind fun n =>
        checked 64 (n * multiplier)).bind (checked 64) with
    | none => simp [hsize]
    | some n =>
      cases hvalid : validateSize pageSize n with
      | error err =>
        simp only [hvalid, hsize, Option.some.injEq, exists_eq_left', reduceCtorEq, false_iff]
        rintro ⟨rfl, h⟩
        rw [hvalid] at h
        cases h
      | ok u =>
        simp only [hvalid, hsize, Option.some.injEq, exists_eq_left', Except.ok.injEq]
        exact ⟨fun h => ⟨h, h ▸ hvalid⟩, fun h => h.1⟩

/-- **The capacity parser.** It accepts exactly the texts of a size, with their number, and answers
anything else with an error. -/
theorem parseChunkDbSize_ok_iff {pageSize : ℤ} (hpage : 0 < pageSize) (value : String) :
    (∀ n, parseChunkDbSize pageSize value = .ok n ↔ IsChunkDbSize pageSize value n) ∧
    ((¬∃ n, IsChunkDbSize pageSize value n) →
      ∃ err, parseChunkDbSize pageSize value = .error err) := by
  have hiff : ∀ n, parseChunkDbSize pageSize value = .ok n ↔ IsChunkDbSize pageSize value n := by
    intro n
    constructor
    · intro h
      obtain ⟨multiplier, hunit, hsize, hvalid⟩ := parseChunkDbSize_eq_ok.mp h
      have hdigits : ∀ c ∈ value.toList.takeWhile Char.isDigit, c.isDigit = true :=
        fun c hc => List.mem_takeWhile_imp hc
      have hne : value.toList.takeWhile Char.isDigit ≠ [] := by
        intro hnil
        rw [hnil] at hsize
        cases hsize
      have hmem := unitMultiplier_eq_some.mp hunit
      rw [size_eq hne hdigits (pos_of_mem_chunkDbUnits hmem)] at hsize
      refine ⟨⟨_, _, multiplier, ?_, hne, hdigits, hmem, (checked_eq_some.mp hsize).2⟩,
        (validateSize_eq_ok hpage).mp hvalid⟩
      rw [String.toList_ofList, List.takeWhile_append_dropWhile]
    · rintro ⟨⟨digits, unit, multiplier, hvalue, hne, hdigits, hmem, rfl⟩, hvalid⟩
      obtain ⟨htake, hdrop⟩ := takeWhile_unit hmem
      have hfits : Nat.ofDigitChars 10 digits 0 * multiplier < 2 ^ 64 :=
        hvalid.2.1.trans_lt (by decide)
      refine parseChunkDbSize_eq_ok.mpr ⟨multiplier, ?_, ?_, (validateSize_eq_ok hpage).mpr hvalid⟩
      · rw [hvalue, List.dropWhile_append_of_pos hdigits, hdrop, String.ofList_toList]
        exact unitMultiplier_eq_some.mpr hmem
      · rw [hvalue, List.takeWhile_append_of_pos hdigits, htake, List.append_nil,
          size_eq hne hdigits (pos_of_mem_chunkDbUnits hmem), checked_of_lt hfits]
  refine ⟨hiff, fun hnone => ?_⟩
  cases h : parseChunkDbSize pageSize value with
  | error err => exact ⟨err, rfl⟩
  | ok n => exact absurd ⟨n, (hiff n).mp h⟩ hnone

/-- A size in a unit. -/
theorem parseChunkDbSize_mebibytes : parseChunkDbSize 4096 "64MiB" = .ok (64 * 2 ^ 20) := by
  have hsize : IsChunkDbSize 4096 "64MiB" (64 * 2 ^ 20) := by
    refine ⟨⟨['6', '4'], "MiB", 2 ^ 20, rfl, List.cons_ne_nil _ _, by simp,
      unitMultiplier_eq_some.mp rfl, ?_⟩, by norm_num⟩
    rw [Nat.ofDigitChars_cons, Nat.ofDigitChars_cons, Nat.ofDigitChars_nil]
    rfl
  exact ((parseChunkDbSize_ok_iff (by decide) "64MiB").1 (64 * 2 ^ 20)).mpr hsize

end DistillFs
