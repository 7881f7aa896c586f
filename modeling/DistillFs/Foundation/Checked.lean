import Mathlib

/-!
# Checked arithmetic

A machine integer of `width` bits holds the numbers below `2 ^ width`. An operation on such integers
is the operation on numbers, if its result is one of them; a subtraction has a result if it is not
negative.

## Main definitions

* `checked`, `checkedSub`.
-/

namespace DistillFs.Foundation

/-- The number, if it fits into `width` bits. -/
def checked (width n : ℕ) : Option ℕ := if n < 2 ^ width then some n else none

/-- The difference, if it is not negative. -/
def checkedSub (m n : ℕ) : Option ℕ := if n ≤ m then some (m - n) else none

variable {width m n : ℕ}

theorem checked_of_lt (h : n < 2 ^ width) : checked width n = some n := if_pos h

theorem checked_of_le (h : 2 ^ width ≤ n) : checked width n = none := if_neg h.not_gt

theorem checked_eq_some : checked width n = some m ↔ n < 2 ^ width ∧ n = m := by
  rw [checked]
  split_ifs with h
  · rw [Option.some.injEq, and_iff_right h]
  · exact ⟨fun heq => (by cases heq), fun heq => absurd heq.1 h⟩

theorem checkedSub_of_le (h : n ≤ m) : checkedSub m n = some (m - n) := if_pos h

end DistillFs.Foundation
