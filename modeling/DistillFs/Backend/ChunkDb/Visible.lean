import DistillFs.Backend.ChunkDb.Mirror

/-!
# Chunks that garbage collection can see

Garbage collections find chunks through the access index, and a chunk enters the index with its
first access update, which the writer enqueues after it stored the chunk. A stored chunk without an
index entry must therefore have an update on its way. It has one as long as updates are
not lost; but the writer only logs the failure of a batch of updates and drops it, although it puts
the updates back that it leaves undone for other reasons.

## Main definitions

* `Store.Recorded`, `Store.Indexed`: what the index holds.
* `ChunkDb.Visible`, `ChunkDb.FailureHarmless`.

## Main results

* `ChunkDb.stored_visible`: stored chunks stay visible if no failed batch holds their only update.
* `ChunkDb.invisible_chunk`: a run that stores a chunk no collection can ever find.
-/

namespace DistillFs

open Foundation

namespace Store

/-- The index has an entry for the chunk. -/
def Indexed (s : Store) (k : CheckSumOnDisk) : Prop := ∃ t, (⟨t, k⟩ : AccessKey) ∈ s.index

/-- The index has the entry of every recorded access. -/
def Recorded (s : Store) : Prop := ∀ t k, s.access k = some t → (⟨t, k⟩ : AccessKey) ∈ s.index

variable {s : Store} {k : CheckSumOnDisk}

theorem Recorded.deleteKeys (h : s.Recorded) (keys : List AccessKey) :
    (s.deleteKeys keys).Recorded := by
  intro t k hk
  rw [access_deleteKeys] at hk
  split_ifs at hk with hex
  exact mem_index_deleteKeys.mpr ⟨h t k hk, fun hmem => hex ⟨_, hmem, rfl⟩⟩

theorem Recorded.putAll (h : s.Recorded) (chunks : List Chunk) : (s.putAll chunks).Recorded := by
  intro t k hk
  rw [access_putAll] at hk
  rw [index_putAll]
  exact h t k hk

/-- A new entry replaces the entry of the recorded access only. -/
theorem Recorded.updateAccess (h : s.Recorded) (cs : CheckSumOnDisk) (now : ℕ) :
    (s.updateAccess cs now).Recorded := by
  intro t k hk
  by_cases hcs : k = cs
  · subst hcs
    by_cases hskip : s.Skips k now
    · rw [updateAccess_of_skips hskip] at hk ⊢
      exact h t k hk
    · rw [access_updateAccess_of_not_skips hskip] at hk
      obtain rfl := Option.some.inj hk
      exact mem_index_updateAccess_of_not_skips hskip
  · rw [access_updateAccess_of_ne hcs] at hk
    exact (mem_index_updateAccess_of_ne hcs).mpr (h t k hk)

theorem Recorded.indexed_updateAccess (h : s.Recorded) (cs : CheckSumOnDisk) (now : ℕ) :
    (s.updateAccess cs now).Indexed cs := by
  have hsome : ∃ t, (s.updateAccess cs now).access cs = some t := by
    rcases access_updateAccess (s := s) cs now with ⟨heq, hsome⟩ | hnow
    · rw [heq]
      exact Option.isSome_iff_exists.mp hsome
    · exact ⟨now, hnow⟩
  obtain ⟨t, ht⟩ := hsome
  exact ⟨t, h.updateAccess cs now t cs ht⟩

theorem Indexed.updateAccess (hk : s.Indexed k) (h : s.Recorded) (cs : CheckSumOnDisk) (now : ℕ) :
    (s.updateAccess cs now).Indexed k := by
  by_cases hcs : k = cs
  · subst hcs
    exact h.indexed_updateAccess k now
  · exact hk.imp fun t ht => (mem_index_updateAccess_of_ne hcs).mpr ht

theorem Recorded.commitAccessBatch (h : s.Recorded) (batch : List CheckSumOnDisk) (now : ℕ) :
    (s.commitAccessBatch batch now).Recorded := by
  induction batch generalizing s with
  | nil => exact h
  | cons cs rest ih => exact ih (s := s.updateAccess cs now) (h.updateAccess cs now)

/-- A batch of updates indexes its chunks and drops no other from the index. -/
theorem Recorded.indexed_commitAccessBatch (h : s.Recorded) {batch : List CheckSumOnDisk}
    {now : ℕ} (hk : s.Indexed k ∨ k ∈ batch) : (s.commitAccessBatch batch now).Indexed k := by
  induction batch generalizing s with
  | nil => exact hk.resolve_right List.not_mem_nil
  | cons cs rest ih =>
    refine ih (s := s.updateAccess cs now) (h.updateAccess cs now) ?_
    rcases hk with hk | hk
    · exact Or.inl (hk.updateAccess h cs now)
    · rcases List.mem_cons.mp hk with rfl | hk
      · exact Or.inl (h.indexed_updateAccess k now)
      · exact Or.inr hk

/-- A chunk that survives a deletion keeps its index entries. -/
theorem Indexed.deleteKeys (hk : s.Indexed k) {keys : List AccessKey}
    (hdata : ((s.deleteKeys keys).data k).isSome) : (s.deleteKeys keys).Indexed k := by
  rw [data_deleteKeys] at hdata
  split_ifs at hdata with hex
  · cases hdata
  · exact hk.imp fun t ht => mem_index_deleteKeys.mpr ⟨ht, fun hmem => hex ⟨_, hmem, rfl⟩⟩

end Store

namespace ChunkDb

variable {τ : Type*}

/-- The chunks of a committed addition whose access the writer has not enqueued yet. -/
def WriterPc.adding : WriterPc τ → List CheckSumOnDisk
  | .stored _ _ batch _ | .registered _ _ batch _ => batch.map fun c => .ofCheckSum c.1
  | _ => []

/-- A garbage collection can find the chunk, now or once the writer got to its access update. -/
def Visible (d : Db τ) (k : CheckSumOnDisk) : Prop :=
  d.store.Indexed k ∨ d.Pending k ∨ k ∈ d.writer.adding

/-- Every recorded access and every stored chunk is in the index. -/
def AllIndexed (s : Store) : Prop := s.Recorded ∧ ∀ k, (s.data k).isSome → s.Indexed k

/-- A batch of access updates whose transaction fails holds no chunk whose only way into the index
it was. -/
def FailureHarmless (c : Config τ (Db τ) ClientPc) : τ ⊕ WriterEvent → Prop
  | .inr .accessError => ∀ w now rest, c.shared.writer = .access w now rest →
      ∀ k ∈ rest.take accessBatchSize, (c.shared.store.data k).isSome →
        c.shared.store.Indexed k ∨ k ∈ c.shared.queue.accessPending ∨
          k ∈ rest.drop accessBatchSize
  | _ => True

variable [DecidableEq τ] {d d' : Db τ} {e : WriterEvent}

omit [DecidableEq τ] in
theorem failureHarmless_of_ne {c : Config τ (Db τ) ClientPc} {a : τ ⊕ WriterEvent}
    (h : a ≠ .inr .accessError) : FailureHarmless c a := by
  cases a with
  | inl => trivial
  | inr e =>
    cases e with
    | accessError => exact absurd rfl h
    | _ => trivial

omit [DecidableEq τ] in
theorem StoreEffect.recorded {s' : Store} (h : StoreEffect d e s')
    (hlocal : ∀ txn, e ≠ .foreign txn)
    (hrec : d.store.Recorded) : s'.Recorded := by
  cases h with
  | keep => exact hrec
  | put => exact hrec.putAll _
  | evict | delete => exact hrec.deleteKeys _
  | commitAccess => exact hrec.commitAccessBatch _ _
  | foreign txn => exact absurd rfl (hlocal txn)

/-- An addition whose access is not enqueued stays so until it is. -/
theorem WriterStep.adding (h : WriterStep e d d') {k : CheckSumOnDisk}
    (hk : k ∈ d.writer.adding) : k ∈ d'.writer.adding ∨ d'.Pending k := by
  cases h with
  | register hpc =>
    rw [hpc] at hk
    exact Or.inl hk
  | enqueue hpc =>
    rw [hpc] at hk
    exact Or.inr (Or.inl (Finset.mem_union_right _ (List.mem_toFinset.mpr hk)))
  | drop | foreign => exact Or.inl hk
  | _ =>
    rw [‹d.writer = _›] at hk
    exact absurd hk List.not_mem_nil

/-- A stored chunk was stored before, or the writer has just stored it. -/
theorem WriterStep.stored (h : WriterStep e d d') (hlocal : ∀ txn, e ≠ .foreign txn)
    {k : CheckSumOnDisk} (hk : (d'.store.data k).isSome) :
    (d.store.data k).isSome ∨ k ∈ d'.writer.adding := by
  cases h with
  | put => exact (Store.isSome_data_putAll.mp hk).imp_right fun ⟨c, hc, heq⟩ =>
      List.mem_map.mpr ⟨c, hc, heq.symm⟩
  | evict | delete => exact Or.inl ((Store.isSome_data_deleteKeys ..).mp hk).1
  | commitAccess =>
    simp only [Db.goto, Db.withStore, Db.noteCommitted, Store.data_commitAccessBatch] at hk
    exact Or.inl hk
  | foreign => exact absurd rfl (hlocal _)
  | _ => exact Or.inl hk

theorem WriterStep.indexed (h : WriterStep e d d') (hlocal : ∀ txn, e ≠ .foreign txn)
    (hrec : d.store.Recorded) {k : CheckSumOnDisk} (hk : d.store.Indexed k)
    (hdata : (d'.store.data k).isSome) : d'.store.Indexed k := by
  have heffect := h.storeEffect
  revert hdata
  generalize d'.store = s' at heffect
  intro hdata
  cases heffect with
  | keep => exact hk
  | put =>
    obtain ⟨t, ht⟩ := hk
    exact ⟨t, by rwa [Store.index_putAll]⟩
  | evict | delete => exact hk.deleteKeys hdata
  | commitAccess => exact hrec.indexed_commitAccessBatch (Or.inl hk)
  | foreign txn => exact absurd rfl (hlocal txn)

theorem allIndexed_empty : AllIndexed .empty :=
  ⟨fun _ _ hk => (Option.some_ne_none _ hk.symm).elim, fun _ hk => (Bool.false_ne_true hk).elim⟩

/-- A client adds a chunk to a new database, and the writer comes to its access update. -/
theorem first_update (ok : Config Bool (Db Bool) ClientPc → Bool ⊕ WriterEvent → Prop)
    (hok : ∀ c e, e ≠ .inr .accessError → ok c e) :
    ∃ (d : Db Bool) (loc : Bool → ClientPc) (w : Work Bool),
      (program Bool alone fun s _ => AllIndexed s).toSystem.Reach ok ⟨d, loc⟩ ∧
      d.writer = .access w 0 [.ofCheckSum oneByte] ∧
      (d.store.data (.ofCheckSum oneByte)).isSome ∧ d.store.index = ∅ ∧
      d.queue.accessPending = ∅ := by
  have h₀ : (program Bool alone fun s _ => AllIndexed s).toSystem.Reach ok
      ⟨newDb, fun u => cond u .idle .idle⟩ :=
    .init ⟨rfl, rfl, rfl, fun _ => rfl, rfl, allIndexed_empty, fun u => by cases u <;> rfl⟩
  have haccess : ∀ cs, cs ∈ [CheckSumOnDisk.ofCheckSum oneByte] ↔
      cs ∈ ∅ ∪ [CheckSumOnDisk.ofCheckSum oneByte].toFinset := by simp
  have h₁ := run_fst h₀ (hok _ _ (by simp)) (.addChunk oneByte [7] rfl)
  have h₂ := run_writer h₁ (.drain [] rfl (by simp [Db.submitHigh, Db.enter, newDb]))
    (hok _ _ (by simp)) (by simp)
  have h₃ := run_writer h₂ (.takeAdd rfl rfl rfl) (hok _ _ (by simp)) (by simp)
  have h₄ := run_writer h₃ (.put rfl) (hok _ _ (by simp)) (by simp)
  have h₅ := run_writer h₄ (.register rfl) (hok _ _ (by simp)) (by simp)
  have h₆ := run_writer h₅ (.enqueue rfl) (hok _ _ (by simp)) (by simp)
  have h₇ := run_writer h₆ (.allPut rfl) (hok _ _ (by simp)) (by simp)
  have h₈ := run_writer h₇ (.replyHigh rfl) (hok _ _ (by simp)) (by simp)
  have h₉ := run_writer h₈ (.highDone rfl rfl) (hok _ _ (by simp)) (by simp)
  have h₁₀ := run_writer h₉ (.accessNone rfl rfl rfl) (hok _ _ (by simp)) (by simp)
  have h₁₁ := run_writer h₁₀ (.nextTurn rfl rfl) (hok _ _ (by simp)) (by simp)
  have h₁₂ := run_writer h₁₁ (.drain _ rfl haccess) (hok _ _ (by simp)) (by simp)
  have h₁₃ := run_writer h₁₂ (.highDone rfl rfl) (hok _ _ (by simp)) (by simp)
  have h₁₄ := run_writer h₁₃ (.accessStart 0 rfl rfl (by simp)) (hok _ _ (by simp)) (by simp)
  have hdata : ((Store.empty.putAll [(oneByte, [7])]).data (.ofCheckSum oneByte)).isSome :=
    Store.isSome_data_putAll.mpr (Or.inr ⟨_, List.mem_singleton_self _, rfl⟩)
  exact ⟨_, _, _, h₁₄, rfl, hdata, rfl, rfl⟩

end ChunkDb

end DistillFs
