import DistillFs.Backend.ChunkDb.Writer

/-!
# The two access tables

The table of access times and the index are two views of one relation: a chunk is recorded with a
time exactly when the index has the pair. Every transaction keeps the views together except the
deletion of keys that were read in an earlier transaction. If the access time of a chunk moved in
between, the deletion drops the chunk and its recorded time but looks for the index entry under the
old time, and the new index entry stays.

## Main definitions

* `Store.Mirror`, `Store.Current`.
* `ChunkDb.KeysCurrent`: the condition on executed deletions.

## Main results

* `Store.mirror_deleteKeys_iff`: exactly when a deletion keeps the views together.
* `ChunkDb.access_tables_mirror`: they stay together in runs that delete current keys.
* `ChunkDb.orphaned_index_entry`: a run that leaves an index entry without its chunk.
-/

namespace DistillFs

open Foundation

namespace Store

/-- The index has a pair exactly when the access table records it. -/
def Mirror (s : Store) : Prop := ∀ t cs, (⟨t, cs⟩ : AccessKey) ∈ s.index ↔ s.access cs = some t

/-- The keys name what is recorded: the recorded time of a chunk they name is among them. -/
def Current (s : Store) (keys : List AccessKey) : Prop :=
  ∀ key ∈ keys, ∀ t, s.access key.cs = some t → (⟨t, key.cs⟩ : AccessKey) ∈ keys

variable {s : Store}

theorem mirror_empty : Store.empty.Mirror := fun t cs => by simp [Store.empty]

namespace Mirror

theorem putAll (h : s.Mirror) (chunks : List Chunk) : (s.putAll chunks).Mirror := fun t cs => by
  rw [index_putAll, access_putAll]
  exact h t cs

theorem updateAccess (h : s.Mirror) (cs : CheckSumOnDisk) (now : ℕ) :
    (s.updateAccess cs now).Mirror := by
  intro t k
  by_cases hk : k = cs
  · subst hk
    unfold Store.updateAccess
    split
    · next old hold =>
      split_ifs
      · exact h t k
      · -- the entry under the old time is the only one that goes
        have hmem : (⟨t, k⟩ : AccessKey) ∈ s.index → t = old := fun hmem =>
          Option.some.inj ((hold.symm.trans ((h t k).mp hmem)).symm)
        simp only [Finset.mem_insert, Finset.mem_erase, Function.update_self, Option.some.injEq,
          AccessKey.mk.injEq, and_true, ne_eq]
        constructor
        · rintro (rfl | ⟨hne, hin⟩)
          · rfl
          · exact absurd (hmem hin) hne
        · rintro rfl
          exact Or.inl rfl
    · next hnone =>
      have hout : (⟨t, k⟩ : AccessKey) ∉ s.index := fun hmem => by
        rw [(h t k).mp hmem] at hnone
        cases hnone
      simp only [Finset.mem_insert, hout, or_false, Function.update_self, Option.some.injEq,
        AccessKey.mk.injEq, and_true]
      exact eq_comm
  · rw [mem_index_updateAccess_of_ne hk, access_updateAccess_of_ne hk]
    exact h t k

theorem commitAccessBatch (h : s.Mirror) (batch : List CheckSumOnDisk) (now : ℕ) :
    (s.commitAccessBatch batch now).Mirror := by
  induction batch generalizing s with
  | nil => exact h
  | cons cs rest ih => exact ih (s := s.updateAccess cs now) (h.updateAccess cs now)

/-- Keys of the index are current. -/
theorem current (h : s.Mirror) {keys : List AccessKey} (hkeys : ∀ key ∈ keys, key ∈ s.index) :
    s.Current keys := by
  intro key hkey t ht
  have hrec := (h key.lastAccess key.cs).mp (hkeys key hkey)
  rw [ht, Option.some.injEq] at hrec
  rw [hrec]
  exact hkey

end Mirror

/-- **When a deletion keeps the views together.** The access tables mirror each other after a
deletion if and only if its keys are current. -/
theorem mirror_deleteKeys_iff (h : s.Mirror) (keys : List AccessKey) :
    (s.deleteKeys keys).Mirror ↔ s.Current keys := by
  constructor
  · intro hdel key hkey t ht
    by_contra hout
    have hin : (⟨t, key.cs⟩ : AccessKey) ∈ (s.deleteKeys keys).index :=
      mem_index_deleteKeys.mpr ⟨(h t key.cs).mpr ht, hout⟩
    have hrec := (hdel t key.cs).mp hin
    rw [access_deleteKeys, if_pos ⟨key, hkey, rfl⟩] at hrec
    cases hrec
  · intro hcur t cs
    rw [mem_index_deleteKeys, access_deleteKeys, h t cs]
    split_ifs with hex
    · obtain ⟨key, hkey, rfl⟩ := hex
      simp only [iff_false, not_and, not_not]
      exact hcur key hkey t
    · refine and_iff_left fun hin => hex ⟨_, hin, rfl⟩

theorem Mirror.gcLruDirect (h : s.Mirror) (n : ℕ) : (s.gcLruDirect n).Mirror :=
  (mirror_deleteKeys_iff h _).mpr (h.current fun _ => mem_index_of_mem_scanLru)

end Store

namespace ChunkDb

/-! ### An aged chunk -/

/-- The tables with one chunk, last accessed at time 0. -/
def agedStore : Store where
  data k := if k = .ofCheckSum oneByte then some [7] else none
  access k := if k = .ofCheckSum oneByte then some 0 else none
  index := {⟨0, .ofCheckSum oneByte⟩}

theorem mirror_agedStore : agedStore.Mirror := by
  intro t cs
  simp only [agedStore, Finset.mem_singleton, AccessKey.mk.injEq]
  split_ifs with h
  · simp [h, eq_comm]
  · simp [h]

theorem scanExpired_agedStore : batches gcBatch (agedStore.scanExpired (100 - 50)) =
    [[⟨0, .ofCheckSum oneByte⟩]] := by
  rw [Store.scanExpired, agedStore, Finset.sort_singleton]
  rfl

theorem scanLru_agedStore : agedStore.scanLru gcBatch = [⟨0, .ofCheckSum oneByte⟩] := by
  rw [Store.scanLru, agedStore, Finset.sort_singleton]
  rfl

theorem updateAccess_agedStore :
    (agedStore.updateAccess (.ofCheckSum oneByte) 100).access (.ofCheckSum oneByte) = some 100 ∧
      (⟨100, .ofCheckSum oneByte⟩ : AccessKey) ∈
        (agedStore.updateAccess (.ofCheckSum oneByte) 100).index := by
  simp [Store.updateAccess, agedStore, accessUpdateMinIntervalSecs]

/-- The state a run on the aged chunk starts in. -/
def agedDb : Db Bool where
  queue := ⟨[], [], ∅, false⟩
  store := agedStore
  registered _ := false
  writer := .top
  calls := ∅
  replies _ := none
  history := ⟨[], [], [], [], [], [], [], []⟩

theorem run_agedDb {foreign : Txn → Prop} {start : Store → (CheckSum → Bool) → Prop}
    {ok : Config Bool (Db Bool) ClientPc → Bool ⊕ WriterEvent → Prop}
    (hstart : start agedStore fun _ => false) :
    (program Bool foreign start).toSystem.Reach ok ⟨agedDb, fun u => cond u .idle .idle⟩ :=
  .init ⟨rfl, rfl, rfl, fun _ => rfl, rfl, hstart, fun u => by cases u <;> rfl⟩

/-- A collection of the chunks that were last used before time 50 finds the aged chunk. Then the
chunk is used at time 100, and the writer records that before it starts the deletion. -/
theorem stale_deletion (foreign : Txn → Prop) (start : Store → (CheckSum → Bool) → Prop)
    (hstart : start agedStore fun _ => false) :
    ∃ (d : Db Bool) (loc : Bool → ClientPc) (w : Work Bool) (req : Request Bool),
      (program Bool foreign start).toSystem.Reachable ⟨d, loc⟩ ∧
      d.writer = .delete w req [⟨0, .ofCheckSum oneByte⟩] (some 50) ∧
      d.store.access (.ofCheckSum oneByte) = some 100 ∧
      (⟨100, .ofCheckSum oneByte⟩ : AccessKey) ∈ d.store.index := by
  have h₀ : (program Bool foreign start).toSystem.Reachable _ := run_agedDb hstart
  have h₁ := run_fst (run_fst h₀ trivial (.gcExpired 100 50 rfl)) trivial .scan
  rw [show (agedDb.enter true).store = agedStore from rfl, scanExpired_agedStore] at h₁
  have h₂ := run_snd h₁ trivial (.access oneByte rfl)
  have h₃ := run_writer h₂ (.drain [.ofCheckSum oneByte] rfl
    (by simp [Db.enqueueAccessMany, Db.enter, agedDb])) trivial (by simp)
  have h₄ := run_writer h₃ (.highDone rfl rfl) trivial (by simp)
  have h₅ := run_writer h₄ (.accessStart 100 rfl rfl (by simp)) trivial (by simp)
  have h₆ := run_writer h₅ (.commitAccess rfl) trivial (by simp)
  have h₇ := run_writer h₆ (.accessDone rfl) trivial (by simp)
  have h₈ := run_writer h₇ (.nextTurn rfl rfl) trivial (by simp)
  have h₉ := run_fst h₈ trivial .deleteKeys
  have h₁₀ := run_writer h₉ (.drain [] rfl
    (by simp [Db.submitMedium, Db.goto, Db.withStore, Db.noteCommitted])) trivial (by simp)
  have h₁₁ := run_writer h₁₀ (.highDone rfl rfl) trivial (by simp)
  have h₁₂ := run_writer h₁₁ (.takeDelete rfl rfl rfl) trivial (by simp)
  exact ⟨_, _, _, _, h₁₂, rfl, updateAccess_agedStore.1, updateAccess_agedStore.2⟩

/-! ### The invariant -/

variable {τ : Type*} [DecidableEq τ]

/-- The keys of an executed deletion are current. -/
def KeysCurrent (c : Config τ (Db τ) ClientPc) : τ ⊕ WriterEvent → Prop
  | .inr .delete => ∀ w req keys cutoff, c.shared.writer = .delete w req keys cutoff →
      c.shared.store.Current keys
  | _ => True

/-- **The access tables mirror each other.** In runs in which every deletion finds its keys still
current, the index has a pair if and only if the chunk is recorded with that time. -/
theorem access_tables_mirror {c : Config τ (Db τ) ClientPc}
    (hc : (program τ alone fun s _ => s.Mirror).toSystem.Reach KeysCurrent c) :
    c.shared.store.Mirror := by
  refine store_invariant (P := Store.Mirror) (fun _ _ h => h)
    (fun c e s' h hok hforeign heffect => ?_) hc
  cases heffect with
  | keep => exact h
  | put => exact h.putAll _
  | evict => exact h.gcLruDirect _
  | delete hpc => exact (Store.mirror_deleteKeys_iff h _).mpr (hok _ _ _ _ hpc)
  | commitAccess => exact h.commitAccessBatch _ _
  | foreign txn => exact (hforeign txn rfl).elim

theorem access_tables_mirror_run : ∃ c : Config Bool (Db Bool) ClientPc,
    c.shared.history.deletions.length = 1 ∧ c.shared.store.Mirror := by
  have h₀ : (program Bool alone fun s _ => s.Mirror).toSystem.Reach KeysCurrent _ :=
    run_agedDb mirror_agedStore
  have h₁ := run_fst (run_fst h₀ trivial (.gcExpired 100 50 rfl)) trivial .scan
  rw [show (agedDb.enter true).store = agedStore from rfl, scanExpired_agedStore] at h₁
  have h₂ := run_fst h₁ trivial .deleteKeys
  have h₃ := run_writer h₂ (.drain [] rfl
    (by simp [Db.submitMedium, Db.enter, agedDb])) trivial (by simp)
  have h₄ := run_writer h₃ (.highDone rfl rfl) trivial (by simp)
  have h₅ := run_writer h₄ (.takeDelete rfl rfl rfl) trivial (by simp)
  have h₆ := run_writer h₅ (.delete rfl) (fun w req keys cutoff hpc => by
    obtain ⟨-, -, rfl, -⟩ := WriterPc.delete.inj hpc
    exact mirror_agedStore.current (by simp [agedStore])) (by simp)
  exact ⟨_, rfl, access_tables_mirror h₆⟩

/-- The deletion drops the chunk and its time, and the index keeps the entry under the new time. -/
theorem orphaned_index_entry : ∃ c : Config Bool (Db Bool) ClientPc,
    (program Bool alone fun s _ => s.Mirror).toSystem.Reachable c ∧ ¬c.shared.store.Mirror := by
  obtain ⟨d, loc, w, req, hreach, hpc, -, hindex⟩ :=
    stale_deletion alone (fun s _ => s.Mirror) mirror_agedStore
  refine ⟨_, run_writer hreach (.delete hpc) trivial (by simp), fun hmirror => ?_⟩
  have hin : (⟨100, .ofCheckSum oneByte⟩ : AccessKey) ∈
      (d.store.deleteKeys [⟨0, .ofCheckSum oneByte⟩]).index :=
    Store.mem_index_deleteKeys.mpr ⟨hindex, by simp⟩
  have hrec := (hmirror 100 (.ofCheckSum oneByte)).mp hin
  have hgone : (d.store.deleteKeys [⟨0, .ofCheckSum oneByte⟩]).access (.ofCheckSum oneByte) =
      none := (Store.access_deleteKeys ..).trans (if_pos (by simp))
  exact absurd (hgone.symm.trans hrec) (by simp)

end ChunkDb

end DistillFs
