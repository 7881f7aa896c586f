import Mathlib

/-!
# Leases

A store keeps the value of a key for a fixed time after it was written. What the store has at some
time is decided by the last write of each key: the value, if the write was not a removal, and not
longer ago than a lease lasts.

## Main definitions

* `LeaseWrite`, `lastWrite`: writes, and the last one of a key.
* `LeaseStore`, `LeaseStore.write`, `LeaseStore.live`, `LeaseStore.replay`.

## Main results

* `LeaseStore.live_replay_iff`: what a store has after some writes.
-/

namespace DistillFs.Foundation

variable {κ ν : Type*} [DecidableEq κ]

/-- A write of a value under a key, or the removal of the key. -/
structure LeaseWrite (κ ν : Type*) where
  key : κ
  value : Option ν
  time : ℕ

/-- The last write of a key. -/
def lastWrite (k : κ) (log : List (LeaseWrite κ ν)) : Option (LeaseWrite κ ν) :=
  (log.filter fun w => w.key = k).getLast?

theorem lastWrite_concat (k : κ) (log : List (LeaseWrite κ ν)) (w : LeaseWrite κ ν) :
    lastWrite k (log ++ [w]) = if w.key = k then some w else lastWrite k log := by
  rw [lastWrite, List.filter_append]
  split_ifs with h
  · rw [List.filter_cons_of_pos (by simpa using h), List.filter_nil, List.getLast?_concat]
  · rw [List.filter_cons_of_neg (by simpa using h), List.filter_nil, List.append_nil]
    rfl

theorem mem_of_lastWrite {k : κ} {log : List (LeaseWrite κ ν)} {w : LeaseWrite κ ν}
    (h : lastWrite k log = some w) : w ∈ log ∧ w.key = k := by
  have hmem := List.mem_filter.mp (List.mem_of_getLast? h)
  exact ⟨hmem.1, by simpa using hmem.2⟩

/-- A value and the last time at which it is there. -/
structure Lease (ν : Type*) where
  value : ν
  deadline : ℕ

/-- The leases of a store. -/
abbrev LeaseStore (κ ν : Type*) := κ → Option (Lease ν)

namespace LeaseStore

def empty : LeaseStore κ ν := fun _ => none

/-- A write, where a lease lasts for `ttl`. -/
def write (ttl : ℕ) (s : LeaseStore κ ν) (w : LeaseWrite κ ν) : LeaseStore κ ν :=
  Function.update s w.key (w.value.map fun v => ⟨v, w.time + ttl⟩)

/-- The value of a key at some time. -/
def live (s : LeaseStore κ ν) (now : ℕ) (k : κ) : Option ν :=
  ((s k).filter fun lease => decide (now ≤ lease.deadline)).map Lease.value

/-- The store after some writes. -/
def replay (ttl : ℕ) (log : List (LeaseWrite κ ν)) : LeaseStore κ ν := log.foldl (write ttl) empty

theorem replay_concat (ttl : ℕ) (log : List (LeaseWrite κ ν)) (w : LeaseWrite κ ν) :
    replay ttl (log ++ [w]) = (replay ttl log).write ttl w := by
  rw [replay, List.foldl_concat]
  rfl

/-- The lease of a key is made by its last write. -/
theorem replay_eq (ttl : ℕ) (log : List (LeaseWrite κ ν)) (k : κ) :
    replay ttl log k =
      (lastWrite k log).bind fun w => w.value.map fun v => ⟨v, w.time + ttl⟩ := by
  induction log using List.reverseRecOn with
  | nil => rfl
  | append_singleton log w ih =>
    rw [replay_concat, lastWrite_concat, write]
    split_ifs with h
    · subst h
      rw [Function.update_self, Option.bind_some]
    · rw [Function.update_of_ne (Ne.symm h), ih]

/-- A key has the value of its last write, for as long as a lease lasts. -/
theorem live_replay_iff {ttl : ℕ} {log : List (LeaseWrite κ ν)} {now : ℕ} {k : κ} {v : ν} :
    (replay ttl log).live now k = some v ↔
      ∃ w, lastWrite k log = some w ∧ w.value = some v ∧ now ≤ w.time + ttl := by
  rw [live, replay_eq]
  cases lastWrite k log with
  | none => simp
  | some w =>
    cases hvalue : w.value with
    | none => simp [hvalue]
    | some v' =>
      by_cases hnow : now ≤ w.time + ttl
      · simp [hvalue, hnow]
      · simp [hvalue, hnow]

end LeaseStore

end DistillFs.Foundation
