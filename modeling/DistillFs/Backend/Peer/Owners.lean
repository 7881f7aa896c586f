import DistillFs.Backend.Peer.ChunkIndex

/-!
# The owners of a chunk

The owners of a chunk are a sorted set of addresses, each with the time of its registration. The
script of a registration drops the owners that are too old, enters the address with the present
time, and drops the first members until there are not more than the limit. It answers whether the
address is among those that are left.

## Main definitions

* `NewestOwners`: what a registration leaves of a set of owners.

## Main results

* `register_script_newest`: the script keeps the newest live owners.
-/

namespace DistillFs

open Foundation SortedSet

variable {α : Type*} [LinearOrder α] {owners kept : SortedSet α} {addr : α} {now ttl : ℤ}
  {maxOwners : ℕ}

/-- `kept` are the newest of some owners after a registration of `addr`; those of a score at most
`cutoff` are dead. -/
structure NewestOwners (owners : SortedSet α) (addr : α) (now cutoff : ℤ) (maxOwners : ℕ)
    (kept : SortedSet α) : Prop where
  card_le : kept.card ≤ maxOwners
  live : ∀ p ∈ kept.entries, cutoff < p.2
  scores : ∀ p ∈ kept.entries, if p.1 = addr then p.2 = now else p ∈ owners.entries
  /-- The address takes part with its new score. -/
  removed : ∀ p ∈ (owners.add addr now).entries, p.1 ∉ kept →
    p.2 ≤ cutoff ∨ ∀ q ∈ kept.entries, pos p < pos q

/-- The owners that a registration trims. -/
def liveOwners (owners : SortedSet α) (addr : α) (now ttl : ℤ) : SortedSet α :=
  (owners.remRangeByScore (now - ttl)).add addr now

theorem registerScript_fst (owners : SortedSet α) (addr : α) (now ttl : ℤ) (maxOwners : ℕ) :
    (registerScript owners addr now ttl maxOwners).1 =
      (liveOwners owners addr now ttl).trim maxOwners :=
  rfl

theorem registerScript_snd_iff :
    (registerScript owners addr now ttl maxOwners).2 = true ↔
      addr ∈ (registerScript owners addr now ttl maxOwners).1 :=
  decide_eq_true_iff

theorem mem_entries_liveOwners {p : α × ℤ} : p ∈ (liveOwners owners addr now ttl).entries ↔
    p = (addr, now) ∨ (p ∈ owners.entries ∧ now - ttl < p.2) ∧ p.1 ≠ addr := by
  rw [liveOwners, mem_entries_add, mem_entries_remRangeByScore]

/-- The owners other than the address that are live and newer than its registration. -/
def newerOwners (owners : SortedSet α) (addr : α) (now cutoff : ℤ) : Finset (α × ℤ) :=
  owners.entries.filter fun p => p.1 ≠ addr ∧ cutoff < p.2 ∧ pos (addr, now) < pos p

theorem newest_registerScript (httl : 1 ≤ ttl) :
    NewestOwners owners addr now (now - ttl) maxOwners
      (registerScript owners addr now ttl maxOwners).1 := by
  rw [registerScript_fst]
  refine ⟨card_trim_le _, fun p hp => ?_, fun p hp => ?_, fun p hp hout => ?_⟩
  · rcases mem_entries_liveOwners.mp (mem_of_mem_trim hp) with rfl | ⟨⟨-, hlive⟩, -⟩
    · exact sub_lt_self now (by omega)
    · exact hlive
  · rcases mem_entries_liveOwners.mp (mem_of_mem_trim hp) with rfl | ⟨⟨hold, -⟩, hne⟩
    · rw [if_pos rfl]
    · rw [if_neg hne]
      exact hold
  · refine or_iff_not_imp_left.mpr fun hlive q hq => ?_
    refine lt_of_notMem_trim (mem_entries_liveOwners.mpr ?_) (fun h => hout ⟨p, h, rfl⟩) hq
    rcases mem_entries_add.mp hp with heq | ⟨hold, hne⟩
    · exact Or.inl heq
    · exact Or.inr ⟨⟨hold, not_le.mp hlive⟩, hne⟩

/-- The address stays when fewer owners than the limit are newer. -/
theorem mem_registerScript (h : (newerOwners owners addr now (now - ttl)).card < maxOwners) :
    addr ∈ (registerScript owners addr now ttl maxOwners).1 := by
  rw [registerScript_fst]
  have hin : (addr, now) ∈ (liveOwners owners addr now ttl).entries :=
    mem_entries_liveOwners.mpr (Or.inl rfl)
  refine mem_of_mem_entries (mem_trim_of_card_lt hin (lt_of_le_of_lt (Finset.card_le_card ?_) h))
  intro p hp
  obtain ⟨hp, hlt⟩ := Finset.mem_filter.mp hp
  rcases mem_entries_liveOwners.mp hp with rfl | ⟨⟨hold, hlive⟩, hne⟩
  · exact absurd hlt (lt_irrefl _)
  · exact Finset.mem_filter.mpr ⟨hold, hne, hlive, hlt⟩

/-- **The script of a registration.** It keeps the newest live owners, not more than the limit,
with their scores; it answers whether the address is among them, which is so when fewer live owners
than the limit are newer. -/
theorem register_script_newest (httl : 1 ≤ ttl) :
    NewestOwners owners addr now (now - ttl) maxOwners
        (registerScript owners addr now ttl maxOwners).1 ∧
      ((registerScript owners addr now ttl maxOwners).2 = true ↔
        addr ∈ (registerScript owners addr now ttl maxOwners).1) ∧
      ((newerOwners owners addr now (now - ttl)).card < maxOwners →
        (registerScript owners addr now ttl maxOwners).2 = true) :=
  ⟨newest_registerScript httl, registerScript_snd_iff,
    fun h => registerScript_snd_iff.mpr (mem_registerScript h)⟩

/-- A chunk with three owners. -/
def threeOwners : SortedSet ℕ := ((SortedSet.add ∅ 1 50).add 2 60).add 3 70

theorem register_script_newest_threeOwners :
    NewestOwners threeOwners 4 80 (80 - 25) 3 (registerScript threeOwners 4 80 25 3).1 ∧
      (registerScript threeOwners 4 80 25 3).2 = true := by
  obtain ⟨hnewest, -, hkept⟩ := @register_script_newest ℕ _ threeOwners 4 80 25 3
    (by decide)
  exact ⟨hnewest, hkept (by decide)⟩

end DistillFs
