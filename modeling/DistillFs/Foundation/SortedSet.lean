import Mathlib

/-!
# Sorted sets

A finite set of members, each with one integer score. Members are ordered by score, and members of
one score by themselves. That a member has one score is a field of the structure, and adding a
member replaces its score.

## Main definitions

* `SortedSet`, with membership.
* `SortedSet.add`, `SortedSet.rem`, `SortedSet.remRangeByScore`, `SortedSet.remRangeByRank`,
  `SortedSet.rangeByScore`.
* `SortedSet.pos`: the position of an entry in the order of scores and members.
* `SortedSet.trim`: the last members.

## Main results

* `SortedSet.mem_entries_add`, `SortedSet.mem_entries_rem`: what an operation leaves.
* `SortedSet.card_remRangeByRank`, `SortedSet.lt_of_rank_lt_of_le_rank`: the first members go, and
  as many as asked for.
* `SortedSet.card_eq_rank_add`: an entry stands between those before it and those after it.
* `SortedSet.lt_of_notMem_trim`, `SortedSet.mem_trim_of_card_lt`: who goes and who stays.
-/

namespace DistillFs.Foundation

/-- A finite map from members to scores. -/
@[ext] structure SortedSet (α : Type*) where
  entries : Finset (α × ℤ)
  /-- A member has one score. -/
  unique : ∀ p ∈ entries, ∀ q ∈ entries, p.1 = q.1 → p = q

namespace SortedSet

variable {α : Type*}

instance : Membership α (SortedSet α) := ⟨fun s a => ∃ p ∈ s.entries, p.1 = a⟩

instance : EmptyCollection (SortedSet α) := ⟨⟨∅, fun _ h => absurd h (Finset.notMem_empty _)⟩⟩

theorem notMem_empty (a : α) : a ∉ (∅ : SortedSet α) := by
  rintro ⟨p, hp, -⟩
  exact absurd hp (Finset.notMem_empty p)

instance [DecidableEq α] (s : SortedSet α) (a : α) : Decidable (a ∈ s) :=
  inferInstanceAs (Decidable (∃ p ∈ s.entries, p.1 = a))

/-- The number of members. -/
def card (s : SortedSet α) : ℕ := s.entries.card

/-- The members whose entries pass a test. -/
def filter (s : SortedSet α) (keep : α × ℤ → Prop) [DecidablePred keep] : SortedSet α where
  entries := s.entries.filter keep
  unique p hp q hq := s.unique p (Finset.mem_filter.mp hp).1 q (Finset.mem_filter.mp hq).1

/-- Remove the members of score at most `cutoff`. -/
def remRangeByScore (s : SortedSet α) (cutoff : ℤ) : SortedSet α := s.filter fun p => cutoff < p.2

/-- The members of score at least `least`. -/
def rangeByScore [DecidableEq α] (s : SortedSet α) (least : ℤ) : Finset α :=
  (s.entries.filter fun p => least ≤ p.2).image Prod.fst

section Members

variable {s : SortedSet α} {a : α} {p : α × ℤ}

theorem mem_iff : a ∈ s ↔ ∃ score, (a, score) ∈ s.entries := by
  constructor
  · rintro ⟨⟨_, score⟩, hp, rfl⟩
    exact ⟨score, hp⟩
  · rintro ⟨score, hp⟩
    exact ⟨_, hp, rfl⟩

theorem mem_of_mem_entries (hp : p ∈ s.entries) : p.1 ∈ s := ⟨p, hp, rfl⟩

theorem injOn_fst {t : Finset (α × ℤ)} (ht : t ⊆ s.entries) :
    Set.InjOn Prod.fst (t : Set (α × ℤ)) := fun p hp q hq =>
  s.unique p (ht hp) q (ht hq)

@[simp] theorem mem_entries_filter {keep : α × ℤ → Prop} [DecidablePred keep] :
    p ∈ (s.filter keep).entries ↔ p ∈ s.entries ∧ keep p :=
  Finset.mem_filter

theorem mem_entries_remRangeByScore {cutoff : ℤ} :
    p ∈ (s.remRangeByScore cutoff).entries ↔ p ∈ s.entries ∧ cutoff < p.2 :=
  mem_entries_filter

theorem mem_rangeByScore [DecidableEq α] {least : ℤ} :
    a ∈ s.rangeByScore least ↔ ∃ score, (a, score) ∈ s.entries ∧ least ≤ score := by
  simp [rangeByScore]

end Members

variable [LinearOrder α]

/-- Remove a member. -/
def rem (s : SortedSet α) (a : α) : SortedSet α := s.filter fun p => p.1 ≠ a

/-- Add a member with a score, which replaces the one it has. -/
def add (s : SortedSet α) (a : α) (score : ℤ) : SortedSet α where
  entries := insert (a, score) (s.rem a).entries
  unique p hp q hq hpq := by
    rcases Finset.mem_insert.mp hp with rfl | hp <;> rcases Finset.mem_insert.mp hq with rfl | hq
    · rfl
    · exact absurd hpq.symm (Finset.mem_filter.mp hq).2
    · exact absurd hpq (Finset.mem_filter.mp hp).2
    · exact (s.rem a).unique p hp q hq hpq

/-- The position of an entry. -/
def rank (s : SortedSet α) (p : α × ℤ) : ℕ :=
  (s.entries.filter fun q => toLex (q.2, q.1) < toLex (p.2, p.1)).card

/-- Remove the first `n` members. -/
def remRangeByRank (s : SortedSet α) (n : ℕ) : SortedSet α := s.filter fun p => n ≤ s.rank p

/-! ### Members and entries -/

variable {s : SortedSet α} {a : α} {p q : α × ℤ}

theorem mem_entries_rem : p ∈ (s.rem a).entries ↔ p ∈ s.entries ∧ p.1 ≠ a := mem_entries_filter

theorem mem_entries_add {score : ℤ} :
    p ∈ (s.add a score).entries ↔ p = (a, score) ∨ p ∈ s.entries ∧ p.1 ≠ a := by
  rw [add, Finset.mem_insert, mem_entries_rem]

/-! ### Ranks -/

/-- The position of an entry in the order of scores and members. -/
def pos (p : α × ℤ) : ℤ ×ₗ α := toLex (p.2, p.1)

omit [LinearOrder α] in
theorem pos_injective : Function.Injective (pos : α × ℤ → ℤ ×ₗ α) := fun p q h => by
  obtain ⟨hscore, hmember⟩ := Prod.mk.inj (toLex.injective h)
  exact Prod.ext hmember hscore

theorem snd_le_of_pos_lt (h : pos p < pos q) : p.2 ≤ q.2 :=
  (Prod.Lex.toLex_le_toLex.mp h.le).elim le_of_lt fun heq => heq.1.le

theorem rank_lt_rank (hp : p ∈ s.entries) (h : pos p < pos q) : s.rank p < s.rank q := by
  refine Finset.card_lt_card ((Finset.ssubset_iff_of_subset fun r hr => ?_).mpr ⟨p, ?_, ?_⟩)
  · obtain ⟨hr, hlt⟩ := Finset.mem_filter.mp hr
    exact Finset.mem_filter.mpr ⟨hr, lt_trans (b := pos p) hlt h⟩
  · exact Finset.mem_filter.mpr ⟨hp, h⟩
  · exact fun hr => lt_irrefl (pos p) (Finset.mem_filter.mp hr).2

/-- Entries of smaller rank come first. -/
theorem lt_of_rank_lt_of_le_rank {n : ℕ} (hq : q ∈ s.entries) (hlt : s.rank p < n)
    (hle : n ≤ s.rank q) : pos p < pos q := by
  by_contra hge
  rcases (not_lt.mp hge).lt_or_eq with hqp | heq
  · exact absurd (rank_lt_rank hq hqp) (by omega)
  · rw [pos_injective heq] at hle
    omega

/-- An entry stands between those before it and those after it. -/
theorem card_eq_rank_add (hp : p ∈ s.entries) :
    s.card = s.rank p + 1 + (s.entries.filter fun q => pos p < pos q).card := by
  have hle : s.entries.filter (fun q => ¬pos q < pos p) =
      insert p (s.entries.filter fun q => pos p < pos q) := by
    ext q
    rw [Finset.mem_filter, Finset.mem_insert, Finset.mem_filter, not_lt, le_iff_lt_or_eq]
    constructor
    · rintro ⟨hq, hlt | heq⟩
      · exact Or.inr ⟨hq, hlt⟩
      · exact Or.inl (pos_injective heq).symm
    · rintro (rfl | ⟨hq, hlt⟩)
      · exact ⟨hp, Or.inr rfl⟩
      · exact ⟨hq, Or.inl hlt⟩
  have hout : p ∉ s.entries.filter fun q => pos p < pos q := fun hmem =>
    lt_irrefl _ (Finset.mem_filter.mp hmem).2
  have hsplit := Finset.card_filter_add_card_filter_not (s := s.entries) fun q => pos q < pos p
  rw [hle, Finset.card_insert_of_notMem hout] at hsplit
  rw [card, ← hsplit, Nat.add_right_comm, Nat.add_assoc]
  rfl

/-- As many members go as asked for. -/
theorem card_remRangeByRank (n : ℕ) :
    (s.remRangeByRank n).card = s.card - n := by
  have hinj : Set.InjOn s.rank s.entries := fun p hp q hq heq => by
    rcases lt_trichotomy (pos p) (pos q) with hlt | heq' | hgt
    · exact absurd (rank_lt_rank hp hlt) (by omega)
    · exact pos_injective heq'
    · exact absurd (rank_lt_rank hq hgt) (by omega)
  have himage : s.entries.image s.rank = Finset.range s.card := by
    refine Finset.eq_of_subset_of_card_le (fun i hi => ?_) ?_
    · obtain ⟨p, hp, rfl⟩ := Finset.mem_image.mp hi
      rw [Finset.mem_range, card_eq_rank_add hp]
      omega
    · rw [Finset.card_range, Finset.card_image_of_injOn hinj]
      rfl
  have hkept : (s.remRangeByRank n).entries.image s.rank = Finset.Ico n s.card := by
    rw [remRangeByRank, filter, ← Finset.filter_image, himage]
    ext i
    simp [and_comm]
  have hsub : (s.remRangeByRank n).entries ⊆ s.entries := Finset.filter_subset ..
  calc (s.remRangeByRank n).card
      = ((s.remRangeByRank n).entries.image s.rank).card :=
        (Finset.card_image_of_injOn (hinj.mono (Finset.coe_subset.mpr hsub))).symm
    _ = s.card - n := by rw [hkept, Nat.card_Ico]

/-- The last `n` members. -/
def trim (s : SortedSet α) (n : ℕ) : SortedSet α :=
  if n < s.card then s.remRangeByRank (s.card - n) else s

theorem card_trim_le (n : ℕ) : (s.trim n).card ≤ n := by
  unfold trim
  split_ifs with h
  · rw [card_remRangeByRank]
    omega
  · exact not_lt.mp h

theorem mem_of_mem_trim {n : ℕ} (h : p ∈ (s.trim n).entries) : p ∈ s.entries := by
  unfold trim at h
  split_ifs at h
  · exact (mem_entries_filter.mp h).1
  · exact h

/-- The members that go come before those that stay. -/
theorem lt_of_notMem_trim {n : ℕ} (hp : p ∈ s.entries) (hout : p ∉ (s.trim n).entries)
    (hq : q ∈ (s.trim n).entries) : pos p < pos q := by
  unfold trim at hout hq
  split_ifs at hout hq
  · obtain ⟨hq, hle⟩ := mem_entries_filter.mp hq
    refine lt_of_rank_lt_of_le_rank hq (not_le.mp fun h => ?_) hle
    exact hout (mem_entries_filter.mpr ⟨hp, h⟩)
  · exact absurd hp hout

/-- A member with fewer than `n` members behind it stays. -/
theorem mem_trim_of_card_lt {n : ℕ} (hp : p ∈ s.entries)
    (h : (s.entries.filter fun q => pos p < pos q).card < n) : p ∈ (s.trim n).entries := by
  unfold trim
  split_ifs
  · refine mem_entries_filter.mpr ⟨hp, ?_⟩
    rw [card_eq_rank_add hp]
    omega
  · exact hp

theorem notMem_rem (s : SortedSet α) (a : α) : a ∉ s.rem a := by
  rintro ⟨p, hp, hpa⟩
  exact (Finset.mem_filter.mp hp).2 hpa

end SortedSet

end DistillFs.Foundation
