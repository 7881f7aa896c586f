import Mathlib

/-!
# Cutting a list into batches

`batches n l` cuts a list into consecutive pieces of `n` elements, the last of which may be
shorter.

## Main definitions

* `batches`.

## Main results

* `flatten_batches`: the batches together are the list.
-/

namespace DistillFs.Foundation

variable {α : Type*}

/-- The consecutive pieces of `n` elements of a list. -/
def batches (n : ℕ) (l : List α) : List (List α) :=
  (List.range ((l.length + (n - 1)) / n)).map fun i => (l.drop (i * n)).take n

theorem flatten_range_batches (n k : ℕ) (l : List α) :
    ((List.range k).map fun i => (l.drop (i * n)).take n).flatten = l.take (k * n) := by
  induction k with
  | zero => simp
  | succ k ih =>
    rw [List.range_succ, List.map_append, List.flatten_append, ih, List.map_singleton,
      List.flatten_singleton, Nat.succ_mul, List.take_add]

theorem flatten_take_batches {n i : ℕ} {l : List α} (h : i ≤ (batches n l).length) :
    ((batches n l).take i).flatten = l.take (i * n) := by
  rw [batches, List.length_map, List.length_range] at h
  rw [batches, ← List.map_take, List.take_range, Nat.min_eq_left h, flatten_range_batches]

theorem flatten_batches {n : ℕ} (hn : 0 < n) (l : List α) : (batches n l).flatten = l := by
  rw [batches, flatten_range_batches]
  refine List.take_of_length_le ?_
  have hdiv := Nat.div_add_mod (l.length + (n - 1)) n
  have hmod := Nat.mod_lt (l.length + (n - 1)) hn
  rw [Nat.mul_comm] at hdiv
  omega

theorem mem_of_mem_batches {n : ℕ} {l b : List α} {a : α} (hb : b ∈ batches n l) (ha : a ∈ b) :
    a ∈ l := by
  obtain ⟨i, -, rfl⟩ := List.mem_map.mp hb
  exact List.mem_of_mem_drop (List.mem_of_mem_take ha)

/-- Without its `n` least elements a finite set is listed as before, from the element after them. -/
theorem sort_eq_drop [LinearOrder α] {F G : Finset α} {n : ℕ}
    (h : ∀ a, a ∈ G ↔ a ∈ F ∧ a ∉ F.sort.take n) : G.sort = F.sort.drop n := by
  have hnodup : (F.sort.take n ++ F.sort.drop n).Nodup := by
    rw [List.take_append_drop]
    exact F.sort_nodup _
  have hG : G = (F.sort.drop n).toFinset := by
    ext a
    have hF : a ∈ F ↔ a ∈ F.sort.take n ∨ a ∈ F.sort.drop n := by
      rw [← List.mem_append, List.take_append_drop, Finset.mem_sort]
    have hdisj := List.disjoint_of_nodup_append hnodup
    rw [h, hF, List.mem_toFinset]
    constructor
    · rintro ⟨hmem, hout⟩
      exact hmem.resolve_left hout
    · exact fun hmem => ⟨Or.inr hmem, fun hin => hdisj hin hmem⟩
  rw [hG]
  exact (List.toFinset_sort _ hnodup.of_append_right).mpr ((F.pairwise_sort _).drop)

end DistillFs.Foundation
