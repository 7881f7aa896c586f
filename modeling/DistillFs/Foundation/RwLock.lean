import Mathlib

/-!
# Reader-writer locks

A lock held by any number of readers or by one writer. That a writer excludes readers is a field of
the structure, so a state with both cannot be written down; taking the lock is an operation that
may be refused.

## Main definitions

* `RwLock`, `RwLock.unlocked`.
* `RwLock.tryRead`, `RwLock.tryWrite`, `RwLock.releaseRead`, `RwLock.releaseWrite`.
* `RwLock.Keeps`: a change of the lock by one thread takes no hold away from the others.
-/

namespace DistillFs.Foundation

/-- The holders of a reader-writer lock. -/
structure RwLock (τ : Type*) where
  /-- The threads that hold it for reading. -/
  readers : Finset τ
  /-- The thread that holds it for writing. -/
  writer : Option τ
  /-- A writer excludes the readers. -/
  exclusive : writer ≠ none → readers = ∅

namespace RwLock

variable {τ : Type*} [DecidableEq τ] {l l' : RwLock τ} {t u : τ}

/-- Nobody holds the lock. -/
def unlocked : RwLock τ := ⟨∅, none, fun _ => rfl⟩

/-- Take the lock for reading, unless a writer has it. -/
def tryRead (l : RwLock τ) (t : τ) : Option (RwLock τ) :=
  if l.writer = none then some ⟨insert t l.readers, none, fun h => absurd rfl h⟩ else none

/-- Take the lock for writing, unless somebody has it. -/
def tryWrite (l : RwLock τ) (t : τ) : Option (RwLock τ) :=
  if l.writer = none ∧ l.readers = ∅ then some ⟨∅, some t, fun _ => rfl⟩ else none

/-- Give a read hold back. -/
def releaseRead (l : RwLock τ) (t : τ) : RwLock τ :=
  ⟨l.readers.erase t, l.writer, fun h => by rw [l.exclusive h, Finset.erase_empty]⟩

/-- Give the write hold back. -/
def releaseWrite (l : RwLock τ) : RwLock τ := ⟨l.readers, none, fun h => absurd rfl h⟩

/-- No thread but `t` loses a hold between `l` and `l'`. -/
structure Keeps (t : τ) (l l' : RwLock τ) : Prop where
  readers : ∀ u, u ≠ t → u ∈ l.readers → u ∈ l'.readers
  writer : ∀ u, u ≠ t → l.writer = some u → l'.writer = some u

omit [DecidableEq τ] in
/-- A reader and a writer never hold the lock together. -/
theorem not_writer_of_mem (h : t ∈ l.readers) : l.writer ≠ some u := by
  intro hw
  have hempty := l.exclusive (by rw [hw]; exact Option.some_ne_none u)
  rw [hempty] at h
  exact absurd h (Finset.notMem_empty t)

theorem mem_of_tryRead (h : l.tryRead t = some l') : t ∈ l'.readers := by
  unfold tryRead at h
  split_ifs at h
  obtain rfl := Option.some.inj h
  exact Finset.mem_insert_self ..

theorem writer_of_tryWrite (h : l.tryWrite t = some l') : l'.writer = some t := by
  unfold tryWrite at h
  split_ifs at h
  obtain rfl := Option.some.inj h
  rfl

omit [DecidableEq τ] in
theorem Keeps.refl (t : τ) (l : RwLock τ) : Keeps t l l := ⟨fun _ _ h => h, fun _ _ h => h⟩

theorem Keeps.tryRead (h : l.tryRead t = some l') : Keeps t l l' := by
  unfold RwLock.tryRead at h
  split_ifs at h with hw
  obtain rfl := Option.some.inj h
  exact ⟨fun u _ hu => Finset.mem_insert_of_mem hu, fun u _ hu => by simp [hw] at hu⟩

theorem Keeps.tryWrite (h : l.tryWrite t = some l') : Keeps t l l' := by
  unfold RwLock.tryWrite at h
  split_ifs at h with hw
  obtain rfl := Option.some.inj h
  exact ⟨fun u _ hu => by simp [hw.2] at hu, fun u _ hu => by simp [hw.1] at hu⟩

theorem Keeps.releaseRead (t : τ) (l : RwLock τ) : Keeps t l (l.releaseRead t) :=
  ⟨fun _ hu h => Finset.mem_erase.mpr ⟨hu, h⟩, fun _ _ h => h⟩

omit [DecidableEq τ] in
theorem Keeps.releaseWrite (h : l.writer = some t) : Keeps t l l.releaseWrite := by
  refine ⟨fun _ _ hu => hu, fun u hu hw => ?_⟩
  rw [h] at hw
  exact absurd (Option.some.inj hw).symm hu

end RwLock

end DistillFs.Foundation
