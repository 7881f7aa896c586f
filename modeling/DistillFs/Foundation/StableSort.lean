import Mathlib

/-!
# A stable sort and the removal of repeated neighbours

A stable sort keeps the elements of a tie in their order. Removing each element that equals the one
before it leaves no duplicate exactly where the copies of each element stand side by side. So after
a sort by a key, a duplicate remains exactly where the list has an element, another one of the same
key behind it, and the first one again.

## Main results

* `filter_mergeSort`: stability, as equality of the elements of a tie.
* `sandwich_sublist_mergeSort`: an element between two copies of another one, after a sort.
* `nodup_destutter_iff`: when removing repeated neighbours leaves no duplicate.
-/

namespace DistillFs.Foundation

open List

variable {α : Type*} {l c : List α} {x y : α}

section Sorting

variable {le : α → α → Bool} (trans : ∀ a b c, le a b → le b c → le a c)
  (total : ∀ a b, le a b || le b a)

include trans total

/-- A sort keeps the elements of a tie as they were. -/
theorem filter_mergeSort {p : α → Bool} (htie : ∀ a b, p a → p b → le a b) (l : List α) :
    (l.mergeSort le).filter p = l.filter p := by
  have hpair : (l.filter p).Pairwise fun a b => le a b = true :=
    List.pairwise_of_forall_mem_list fun a ha b hb =>
      htie a b (List.of_mem_filter ha) (List.of_mem_filter hb)
  have hsub := (sublist_mergeSort trans total hpair filter_sublist).filter p
  rw [List.filter_filter] at hsub
  simp only [Bool.and_self] at hsub
  exact (hsub.eq_of_length ((mergeSort_perm l le).filter p).length_eq.symm).symm

/-- After a sort, an element stands between two copies of another one if they are tied and it stood
there before. -/
theorem sandwich_sublist_mergeSort [DecidableEq α] (l : List α) :
    [x, y, x] <+ l.mergeSort le ↔ (le x y ∧ le y x) ∧ [x, y, x] <+ l := by
  have hrefl : ∀ a, le a a := fun a => by simpa using total a a
  constructor
  · intro h
    have hpair := (pairwise_mergeSort trans total l).sublist h
    have hxy : le x y := List.rel_of_pairwise_cons hpair List.mem_cons_self
    have hyx : le y x := List.rel_of_pairwise_cons hpair.of_cons List.mem_cons_self
    have htie : ∀ a b, decide (a = x ∨ a = y) → decide (b = x ∨ b = y) → le a b := by
      simp only [decide_eq_true_eq]
      rintro a b (rfl | rfl) (rfl | rfl)
      exacts [hrefl _, hxy, hyx, hrefl _]
    have hfilter := h.filter fun a => decide (a = x ∨ a = y)
    rw [filter_mergeSort trans total htie] at hfilter
    refine ⟨⟨hxy, hyx⟩, ?_⟩
    simpa using hfilter.trans filter_sublist
  · rintro ⟨⟨hxy, hyx⟩, h⟩
    refine sublist_mergeSort trans total ?_ h
    simp [hxy, hyx, hrefl]

end Sorting

section Dedup

variable [DecidableEq α]

/-- A list without repeated neighbours that is part of a list is part of what remains of it. -/
theorem sublist_destutter' (l : List α) (a : α) (hc : c.IsChain (· ≠ ·)) (h : c <+ a :: l) :
    c <+ l.destutter' (· ≠ ·) a := by
  induction l generalizing a c with
  | nil => exact h
  | cons b l ih =>
    by_cases hab : a = b
    · subst hab
      rw [destutter'_cons_neg _ fun hne : a ≠ a => hne rfl]
      refine ih a hc ?_
      cases h with
      | cons _ h => exact h
      | cons_cons _ h =>
        rename_i c
        refine Sublist.cons_cons a ?_
        cases h with
        | cons _ h => exact h
        | cons_cons _ h => exact absurd rfl (isChain_cons_cons.mp hc).1
    · rw [destutter'_cons_pos _ hab]
      cases h with
      | cons _ h => exact (ih b hc h).cons a
      | cons_cons _ h => exact (ih b hc.tail h).cons_cons a

theorem sublist_destutter (hc : c.IsChain (· ≠ ·)) (h : c <+ l) :
    c <+ l.destutter (· ≠ ·) := by
  cases l with
  | nil => exact h
  | cons a l => exact sublist_destutter' l a hc h

theorem mem_destutter : x ∈ l.destutter (· ≠ ·) ↔ x ∈ l := by
  refine ⟨fun h => (destutter_sublist _ l).mem h, fun h => ?_⟩
  exact List.singleton_sublist.mp
    (sublist_destutter (isChain_singleton x) (List.singleton_sublist.mpr h))

omit [DecidableEq α] in
/-- Between two copies of an element, a list without repeated neighbours has another one. -/
theorem exists_sandwich (hl : l.IsChain (· ≠ ·)) (h : [x, x] <+ l) :
    ∃ y, x ≠ y ∧ [x, y, x] <+ l := by
  induction l with
  | nil => cases h
  | cons a l ih =>
    cases h with
    | cons _ h =>
      obtain ⟨y, hxy, hsub⟩ := ih hl.tail h
      exact ⟨y, hxy, hsub.cons a⟩
    | cons_cons _ h =>
      cases l with
      | nil => cases h
      | cons b l =>
        have hab := (isChain_cons_cons.mp hl).1
        refine ⟨b, hab, ?_⟩
        have hx := (List.mem_cons.mp (List.singleton_sublist.mp h)).resolve_left hab
        exact ((List.singleton_sublist.mpr hx).cons_cons b).cons_cons x

/-- Removing repeated neighbours leaves no duplicate exactly where no element stands between two
copies of another one. -/
theorem nodup_destutter_iff :
    (l.destutter (· ≠ ·)).Nodup ↔ ∀ x y, x ≠ y → ¬[x, y, x] <+ l := by
  constructor
  · intro hnodup x y hxy hsub
    have hc : [x, y, x].IsChain (· ≠ ·) := by simp [hxy, Ne.symm hxy]
    have h := hnodup.sublist (sublist_destutter hc hsub)
    simp at h
  · intro hno
    rw [List.nodup_iff_sublist]
    intro x hx
    obtain ⟨y, hxy, hsub⟩ := exists_sandwich (isChain_destutter _ l) hx
    exact hno x y hxy (hsub.trans (destutter_sublist _ l))

end Dedup

end DistillFs.Foundation
