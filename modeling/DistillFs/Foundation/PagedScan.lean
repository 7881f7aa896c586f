import Mathlib

/-!
# Paged scans

A set that changes is read in pages: each page lists the least elements above the last one returned,
a fixed number of them at most. A scan ends at the first page that is empty.

What a scan returns is increasing, so nothing is returned twice; and an element that is in the set
at every page is above all that was returned, or among it.

## Main definitions

* `listing`, `above`, `page`, `returned`, `EndedAt`.

## Main results

* `pairwise_returned`: what is returned is increasing.
* `mem_returned_of_endedAt`: a scan that ended has returned what was there all the time.
* `exists_endedAt`: a scan within a finite set ends.
-/

namespace DistillFs.Foundation

variable {α : Type*} [LinearOrder α]

/-- The elements in their order, as a table lists its keys. -/
def listing (s : Finset α) : List α := s.sort

/-- The elements above a cursor. -/
def above (keys : Finset α) (cursor : Option α) : Finset α :=
  keys.filter fun k => ∀ last ∈ cursor, last < k

/-- The first `size` elements above a cursor. -/
def page (keys : Finset α) (cursor : Option α) (size : ℕ) : List α :=
  (above keys cursor).sort.take size

/-- What the first `n` pages of a scan have returned, where `keys i` is the set at page `i`. -/
def returned (keys : ℕ → Finset α) (size : ℕ) : ℕ → List α
  | 0 => []
  | n + 1 => returned keys size n ++ page (keys n) (returned keys size n).getLast? size

/-- Page `n` of a scan is empty. -/
def EndedAt (keys : ℕ → Finset α) (size n : ℕ) : Prop :=
  page (keys n) (returned keys size n).getLast? size = []

variable {keys : ℕ → Finset α} {size n : ℕ} {a : α}

theorem mem_above {s : Finset α} {cursor : Option α} :
    a ∈ (above s cursor).sort ↔ a ∈ s ∧ ∀ last ∈ cursor, last < a :=
  (Finset.mem_sort _).trans Finset.mem_filter

theorem mem_of_mem_page {s : Finset α} {cursor : Option α} (h : a ∈ page s cursor size) :
    a ∈ s ∧ ∀ last ∈ cursor, last < a :=
  mem_above.mp (List.mem_of_mem_take h)

theorem pairwise_page (s : Finset α) (cursor : Option α) (size : ℕ) :
    (page s cursor size).Pairwise (· < ·) :=
  (Finset.sortedLT_sort _).pairwise.sublist (List.take_sublist ..)

/-- An element above the cursor is on the page, or above it. -/
theorem mem_page_or_lt {s : Finset α} {cursor : Option α} (ha : a ∈ s)
    (hcursor : ∀ last ∈ cursor, last < a) :
    a ∈ page s cursor size ∨ ∀ b ∈ page s cursor size, b < a := by
  have hsorted := (Finset.sortedLT_sort (above s cursor)).pairwise
  have hmem := mem_above.mpr ⟨ha, hcursor⟩
  rw [← List.take_append_drop size ((above s cursor).sort (· ≤ ·))] at hsorted hmem
  refine (List.mem_append.mp hmem).imp_right fun hdrop b hb => ?_
  exact (List.pairwise_append.mp hsorted).2.2 b hb a hdrop

theorem page_eq_nil {s : Finset α} {cursor : Option α} (hsize : 0 < size)
    (h : page s cursor size = []) (ha : a ∈ s) : ¬∀ last ∈ cursor, last < a := by
  intro hcursor
  rw [page, List.take_eq_nil_iff] at h
  have hmem := mem_above.mpr ⟨ha, hcursor⟩
  rw [h.resolve_left hsize.ne'] at hmem
  cases hmem

theorem le_getLast {l : List α} (hl : l.Pairwise (· < ·)) (ha : a ∈ l) :
    ∃ last ∈ l.getLast?, a ≤ last := by
  have hne := List.ne_nil_of_mem ha
  refine ⟨l.getLast hne, List.getLast?_eq_some_getLast hne, ?_⟩
  rw [← List.dropLast_append_getLast hne] at ha hl
  rcases List.mem_append.mp ha with hinit | hlast
  · exact ((List.pairwise_append.mp hl).2.2 a hinit _ List.mem_cons_self).le
  · exact (List.mem_singleton.mp hlast).le

/-- What a scan returns is increasing. -/
theorem pairwise_returned (keys : ℕ → Finset α) (size n : ℕ) :
    (returned keys size n).Pairwise (· < ·) := by
  induction n with
  | zero => exact List.Pairwise.nil
  | succ n ih =>
    refine List.pairwise_append.mpr ⟨ih, pairwise_page .., fun a ha b hb => ?_⟩
    obtain ⟨last, hlast, hle⟩ := le_getLast ih ha
    exact hle.trans_lt ((mem_of_mem_page hb).2 last hlast)

theorem exists_of_mem_returned (h : a ∈ returned keys size n) : ∃ i < n, a ∈ keys i := by
  induction n with
  | zero => cases h
  | succ n ih =>
    rcases List.mem_append.mp h with hold | hpage
    · obtain ⟨i, hi, ha⟩ := ih hold
      exact ⟨i, Nat.lt_succ_of_lt hi, ha⟩
    · exact ⟨n, Nat.lt_succ_self n, (mem_of_mem_page hpage).1⟩

/-- What was there at every page so far was returned, or is above the last element returned. -/
theorem mem_returned_or_lt (h : ∀ i < n, a ∈ keys i) :
    a ∈ returned keys size n ∨ ∀ last ∈ (returned keys size n).getLast?, last < a := by
  induction n with
  | zero => exact Or.inr nofun
  | succ n ih =>
    rcases ih fun i hi => h i (Nat.lt_succ_of_lt hi) with hold | hlt
    · exact Or.inl (List.mem_append_left _ hold)
    · refine (mem_page_or_lt (h n (Nat.lt_succ_self n)) hlt).imp (List.mem_append_right _) ?_
      intro hpage last hlast
      rw [returned, List.getLast?_append] at hlast
      cases hp : (page (keys n) (returned keys size n).getLast? size).getLast? with
      | none =>
        rw [hp] at hlast
        exact hlt last hlast
      | some b =>
        rw [hp] at hlast
        obtain rfl := Option.some.inj hlast
        exact hpage _ (List.mem_of_getLast? hp)

/-- A scan that has ended has returned what was there at every page. -/
theorem mem_returned_of_endedAt (hsize : 0 < size) (h : ∀ i ≤ n, a ∈ keys i)
    (hend : EndedAt keys size n) : a ∈ returned keys size n :=
  (mem_returned_or_lt fun i hi => h i hi.le).resolve_right (page_eq_nil hsize hend (h n le_rfl))

/-- A scan within a finite set ends. -/
theorem exists_endedAt {U : Finset α} (hU : ∀ i, keys i ⊆ U) :
    ∃ n ≤ U.card, EndedAt keys size n := by
  by_contra hnone
  push Not at hnone
  have hlen : ∀ n ≤ U.card + 1, n ≤ (returned keys size n).length := by
    intro n hn
    induction n with
    | zero => exact Nat.zero_le _
    | succ n ih =>
      have hpage := List.length_pos_iff.mpr (hnone n (by omega))
      have hle := ih (by omega)
      rw [returned, List.length_append]
      omega
  have hsub : (returned keys size (U.card + 1)).toFinset ⊆ U := fun a ha => by
    obtain ⟨i, -, hi⟩ := exists_of_mem_returned (List.mem_toFinset.mp ha)
    exact hU i hi
  have hcard := Finset.card_le_card hsub
  rw [List.toFinset_card_of_nodup ((pairwise_returned keys size _).imp ne_of_lt)] at hcard
  have hge := hlen (U.card + 1) le_rfl
  omega

end DistillFs.Foundation
