import DistillFs.Backend.ChunkDb.Mirror

/-!
# The index control and the stored chunks

The writer tells the index control of a node about every chunk it stores and about every chunk it
evicts to make room, right after the transaction that did so. Here the only requests are additions,
and no other process uses the database. Then the registered chunks are the stored ones whenever the
writer owes the index control nothing: in particular when it replies to a request, whether the
request succeeded or failed.

## Main definitions

* `CheckSumOnDisk.Plain`: stored forms of checksums.
* `ChunkDb.addingProgram`: clients that only add chunks and use them.
* `Db.told`, `WriterPc.Settled`.

## Main results

* `ChunkDb.registered_eq_stored`: the registered chunks are the stored ones.
-/

namespace DistillFs

open Foundation

/-- The stored form of some checksum. -/
def CheckSumOnDisk.Plain (k : CheckSumOnDisk) : Prop := .ofCheckSum k.checkSum = k

theorem CheckSumOnDisk.plain_ofCheckSum (cs : CheckSum) : (ofCheckSum cs).Plain := by
  rw [Plain, checkSum_ofCheckSum]

theorem CheckSumOnDisk.Plain.eq_ofCheckSum_iff {k : CheckSumOnDisk} (h : k.Plain) {cs : CheckSum} :
    k = .ofCheckSum cs ↔ k.checkSum = cs := by
  constructor
  · rintro rfl
    exact checkSum_ofCheckSum cs
  · rintro rfl
    exact h.symm

/-- All keys of the tables are stored forms of checksums. -/
structure Store.Plain (s : Store) : Prop where
  data : ∀ k, (s.data k).isSome → k.Plain
  index : ∀ key ∈ s.index, key.cs.Plain

namespace Store.Plain

variable {s : Store}

theorem putAll (h : s.Plain) (chunks : List Chunk) : (s.putAll chunks).Plain where
  data k hk := by
    rcases isSome_data_putAll.mp hk with hold | ⟨c, -, rfl⟩
    · exact h.data k hold
    · exact CheckSumOnDisk.plain_ofCheckSum c.1
  index key hkey := by
    rw [index_putAll] at hkey
    exact h.index key hkey

theorem deleteKeys (h : s.Plain) (keys : List AccessKey) : (s.deleteKeys keys).Plain where
  data k hk := by
    rw [data_deleteKeys] at hk
    split_ifs at hk with hex
    · cases hk
    · exact h.data k hk
  index key hkey := h.index key (mem_index_deleteKeys.mp hkey).1

theorem updateAccess (h : s.Plain) {cs : CheckSumOnDisk} (hcs : cs.Plain) (now : ℕ) :
    (s.updateAccess cs now).Plain where
  data k hk := by
    rw [data_updateAccess] at hk
    exact h.data k hk
  index key hkey := by
    by_cases heq : key.cs = cs
    · rw [heq]
      exact hcs
    · exact h.index key ((mem_index_updateAccess_of_ne heq).mp hkey)

theorem commitAccessBatch (h : s.Plain) {batch : List CheckSumOnDisk}
    (hbatch : ∀ k ∈ batch, k.Plain) (now : ℕ) : (s.commitAccessBatch batch now).Plain := by
  induction batch generalizing s with
  | nil => exact h
  | cons cs rest ih =>
    exact ih (s := s.updateAccess cs now) (h.updateAccess (hbatch cs List.mem_cons_self) now)
      fun k hk => hbatch k (List.mem_cons_of_mem _ hk)

end Store.Plain

namespace ChunkDb

variable {τ : Type*}

/-- The client neither collects nor deletes. -/
def ClientPc.Adds : ClientPc → Prop
  | .idle | .waitAdd => True
  | _ => False

/-- The writer has told the index control of everything it committed. -/
def WriterPc.Settled : WriterPc τ → Prop
  | .stored .. | .evicted .. => False
  | _ => True

/-- What the index control holds once the writer has told it of its last commit. -/
def Db.told (d : Db τ) (cs : CheckSum) : Prop :=
  match d.writer with
  | .stored _ _ batch _ => d.registered cs ∨ cs ∈ batch.map Prod.fst
  | .evicted _ _ _ targets => d.registered cs ∧ cs ∉ targets.map fun key => key.cs.checkSum
  | _ => d.registered cs

theorem Db.told_of_settled {d : Db τ} (h : d.writer.Settled) (cs : CheckSum) :
    d.told cs ↔ d.registered cs := by
  unfold told
  split
  · next heq =>
    rw [heq] at h
    exact h.elim
  · next heq =>
    rw [heq] at h
    exact h.elim
  · exact Iff.rfl

/-- The registered chunks are the stored ones, and all keys of the tables are stored forms. -/
def Registered (s : Store) (registered : CheckSum → Bool) : Prop :=
  s.Plain ∧ ∀ cs, registered cs ↔ (s.data (.ofCheckSum cs)).isSome

/-- Clients that add chunks and use them, and no other process. -/
def addingProgram (τ : Type*) [DecidableEq τ] : Program τ WriterEvent (Db τ) ClientPc where
  init := (program τ alone Registered).init
  step t d pc d' pc' := (program τ alone Registered).step t d pc d' pc' ∧ pc'.Adds
  env := (program τ alone Registered).env

variable [DecidableEq τ] {d d' : Db τ} {e : WriterEvent}

/-- No deletion is queued, taken or under way. -/
structure NoDeletions (d : Db τ) : Prop where
  queued : d.queue.medium = []
  taken : d.writer.takenMedium = []
  current : ∀ w req keys cutoff, d.writer ≠ .delete w req keys cutoff

theorem WriterStep.noDeletions (h : WriterStep e d d') (hno : NoDeletions d) : NoDeletions d' := by
  obtain ⟨hqueued, htaken, hcurrent⟩ := hno
  cases h with
  | drop | foreign => exact ⟨hqueued, htaken, hcurrent⟩
  | drain => exact ⟨rfl, hqueued, by simp⟩
  | takeDelete hpc hmedium =>
    rw [hpc, WriterPc.takenMedium, hmedium] at htaken
    cases htaken
  | delete hpc | deleteError hpc => exact absurd hpc (hcurrent _ _ _ _)
  | accessNone | accessStart => exact ⟨hqueued, rfl, by simp [Db.goto]⟩
  | _ =>
    rw [‹d.writer = _›] at htaken
    exact ⟨hqueued, htaken, by simp [Db.goto]⟩

/-- Only stored forms of checksums enter the set of pending accesses. -/
theorem WriterStep.pending_plain (h : WriterStep e d d') (hplain : ∀ k, d.Pending k → k.Plain)
    {k : CheckSumOnDisk} (hk : d'.Pending k) : k.Plain := by
  have hqueue : ∀ k ∈ d.queue.accessPending, k.Plain := fun k hk => hplain k (Or.inl hk)
  have htaken : ∀ k ∈ d.writer.takenAccess, k.Plain := fun k hk => hplain k (Or.inr hk)
  cases h with
  | drop | foreign => exact hplain k hk
  | drain access hpc haccess =>
    rcases hk with hk | hk
    · exact absurd hk (Finset.notMem_empty k)
    · exact hqueue k ((haccess k).mp hk)
  | enqueue hpc =>
    rw [hpc] at htaken
    rcases hk with hk | hk
    · rcases Finset.mem_union.mp hk with hk | hk
      · exact hqueue k hk
      · obtain ⟨c, -, rfl⟩ := List.mem_map.mp (List.mem_toFinset.mp hk)
        exact CheckSumOnDisk.plain_ofCheckSum c.1
    · exact htaken k hk
  | commitAccess hpc | accessError hpc =>
    rw [hpc] at htaken
    rcases hk with hk | hk
    · exact hqueue k hk
    · exact htaken k (List.mem_of_mem_drop hk)
  | enqueueRest hpc =>
    rw [hpc] at htaken
    rcases hk with hk | hk
    · rcases Finset.mem_union.mp hk with hk | hk
      · exact hqueue k hk
      · exact htaken k (List.mem_toFinset.mp hk)
    · exact absurd hk List.not_mem_nil
  | accessNone hpc | accessDone hpc =>
    rcases hk with hk | hk
    · exact hqueue k hk
    · exact absurd hk List.not_mem_nil
  | _ =>
    rw [‹d.writer = _›] at htaken
    exact hk.elim (hqueue k) (htaken k)

/-- The keys of the tables and the pending accesses are stored forms of checksums. -/
structure PlainDb (d : Db τ) : Prop where
  store : d.store.Plain
  pending : ∀ k, d.Pending k → k.Plain

omit [DecidableEq τ] in
theorem StoreEffect.plain {s' : Store} (h : StoreEffect d e s') (hlocal : ∀ txn, e ≠ .foreign txn)
    (hd : PlainDb d) : s'.Plain := by
  cases h with
  | keep => exact hd.store
  | put => exact hd.store.putAll _
  | evict | delete => exact hd.store.deleteKeys _
  | commitAccess hpc =>
    refine hd.store.commitAccessBatch (fun k hk => hd.pending k (Or.inr ?_)) _
    rw [hpc]
    exact List.mem_of_mem_take hk
  | foreign txn => exact absurd rfl (hlocal txn)

/-- What the index control is told follows what is stored. -/
theorem WriterStep.told (h : WriterStep e d d') (hlocal : ∀ txn, e ≠ .foreign txn)
    (hno : NoDeletions d) (hplain : d.store.Plain)
    (htold : ∀ cs, d.told cs ↔ (d.store.data (.ofCheckSum cs)).isSome) (cs : CheckSum) :
    d'.told cs ↔ (d'.store.data (.ofCheckSum cs)).isSome := by
  replace htold := htold cs
  cases h with
  | drop => exact htold
  | foreign => exact absurd rfl (hlocal _)
  | put hpc =>
    rw [Db.told, hpc] at htold
    refine (or_congr htold ?_).trans Store.isSome_data_putAll.symm
    simp [CheckSumOnDisk.ofCheckSum_injective.eq_iff, eq_comm]
  | register hpc =>
    rw [Db.told, hpc] at htold
    refine Iff.trans ?_ htold
    exact (Bool.or_eq_true ..).to_iff.trans (or_congr_right decide_eq_true_iff)
  | evict hpc =>
    rw [Db.told, hpc] at htold
    refine (and_congr htold ?_).trans (Store.isSome_data_deleteKeys _ _).symm
    simp only [List.mem_map, not_exists, not_and]
    exact forall₂_congr fun key hkey => not_congr
      (hplain.index key (Store.mem_index_of_mem_scanLru hkey)).eq_ofCheckSum_iff.symm
  | unregister hpc =>
    rw [Db.told, hpc] at htold
    refine Iff.trans ?_ htold
    refine (Bool.and_eq_true ..).to_iff.trans (and_congr_right' ?_)
    simp
  | delete hpc => exact absurd hpc (hno.current _ _ _ _)
  | commitAccess hpc =>
    rw [Db.told, hpc] at htold
    simpa only [Db.told, Db.goto, Db.withStore, Db.noteCommitted, Store.data_commitAccessBatch]
      using htold
  | _ =>
    rw [Db.told, ‹d.writer = _›] at htold
    exact htold

/-- What holds in every run of clients that add chunks. -/
structure AddingInv (d : Db τ) : Prop where
  noDeletions : NoDeletions d
  plain : PlainDb d
  told : ∀ cs, d.told cs ↔ (d.store.data (.ofCheckSum cs)).isSome

theorem ClientStep.addingInv {t : τ} {pc pc' : ClientPc} (h : ClientStep t d pc d' pc')
    (hpc : pc.Adds) (hpc' : pc'.Adds) (hd : AddingInv d) : AddingInv d' := by
  obtain ⟨⟨hqueued, htaken, hcurrent⟩, ⟨hstore, hpending⟩, htold⟩ := hd
  cases h with
  | access =>
    refine ⟨⟨hqueued, htaken, hcurrent⟩, ⟨hstore, fun k hk => ?_⟩, htold⟩
    rcases hk with hk | hk
    · rcases Finset.mem_union.mp hk with hk | hk
      · exact hpending k (Or.inl hk)
      · rw [List.mem_toFinset, List.mem_singleton] at hk
        rw [hk]
        exact CheckSumOnDisk.plain_ofCheckSum _
    · exact hpending k (Or.inr hk)
  | addChunk | addChunks | added =>
    exact ⟨⟨hqueued, htaken, hcurrent⟩, ⟨hstore, hpending⟩, htold⟩
  | gcExpired | scan | gcLru => exact hpc'.elim
  | deleteKeys | deleted | deleteFailed | gcDone => exact hpc.elim

theorem WriterStep.addingInv (h : WriterStep e d d') (hlocal : ∀ txn, e ≠ .foreign txn)
    (hd : AddingInv d) : AddingInv d' where
  noDeletions := h.noDeletions hd.noDeletions
  plain := ⟨h.storeEffect.plain hlocal hd.plain, fun _ hk => h.pending_plain hd.plain.pending hk⟩
  told := h.told hlocal hd.noDeletions hd.plain.store hd.told

/-- **The registered chunks are the stored ones** whenever the writer has told the index control of
everything it committed, in every run of additions and accesses, with any outcomes of the
transactions. -/
theorem registered_eq_stored {c : Config τ (Db τ) ClientPc}
    (hc : (addingProgram τ).toSystem.Reachable c) (hsettled : c.shared.writer.Settled) :
    CheckSumOnDisk.ofCheckSum '' {cs | c.shared.registered cs} =
      {k | (c.shared.store.data k).isSome} := by
  have hinv : AddingInv c.shared := by
    refine (Program.invariant (P := addingProgram τ) (I := AddingInv) (A := fun _ _ pc => pc.Adds)
      (fun c hinit => ?_)
      (fun c t s' l' h _ hstep => ⟨hstep.1.addingInv (h.2 t) hstep.2 h.1, hstep.2⟩)
      (fun c t u s' l' h _ _ _ => h.2 u)
      (fun c e s' h _ hstep => ⟨hstep.1.addingInv hstep.2 h.1, h.2⟩) hc).1
    obtain ⟨hqueue, hwriter, -, -, -, ⟨hplain, hreg⟩, hidle⟩ := hinit
    refine ⟨⟨⟨?_, ?_, ?_⟩, ⟨hplain, fun k hk => ?_⟩, fun cs => ?_⟩, fun t => ?_⟩
    · rw [hqueue]
    · rw [hwriter]
      rfl
    · simp [hwriter]
    · rw [Db.Pending, hqueue, hwriter] at hk
      rcases hk with hk | hk
      · exact absurd hk (Finset.notMem_empty k)
      · exact absurd hk List.not_mem_nil
    · rw [Db.told, hwriter]
      exact hreg cs
    · rw [hidle t]
      trivial
  ext k
  have hiff := fun cs => (Db.told_of_settled hsettled cs).symm.trans (hinv.told cs)
  constructor
  · rintro ⟨cs, hcs, rfl⟩
    exact (hiff cs).mp hcs
  · intro hk
    have hplain := hinv.plain.store.data k hk
    refine ⟨k.checkSum, (hiff _).mpr ?_, hplain⟩
    rwa [hplain]

theorem registered_agedStore : Registered agedStore fun cs => decide (cs = oneByte) := by
  refine ⟨⟨fun k hk => ?_, fun key hkey => ?_⟩, fun cs => ?_⟩
  · by_cases h : k = .ofCheckSum oneByte
    · rw [h]
      exact CheckSumOnDisk.plain_ofCheckSum _
    · simp [agedStore, h] at hk
  · rw [agedStore, Finset.mem_singleton] at hkey
    rw [hkey]
    exact CheckSumOnDisk.plain_ofCheckSum _
  · by_cases h : cs = oneByte
    · simp [agedStore, h]
    · simp [agedStore, h, CheckSumOnDisk.ofCheckSum_injective.eq_iff]

/-- The aged chunk is evicted to make room for another one. -/
theorem registered_eq_stored_run : ∃ c : Config Bool (Db Bool) ClientPc,
    CheckSumOnDisk.ofCheckSum '' {cs | c.shared.registered cs} =
      {k | (c.shared.store.data k).isSome} ∧
    (c.shared.store.data (.ofCheckSum otherByte)).isSome ∧
    (c.shared.store.data (.ofCheckSum oneByte)) = none := by
  have h₀ : (addingProgram Bool).toSystem.Reachable
      ⟨{ agedDb with registered := fun cs => decide (cs = oneByte) }, fun _ => .idle⟩ :=
    .init ⟨rfl, rfl, rfl, fun _ => rfl, rfl, registered_agedStore, fun _ => rfl⟩
  have henv : ∀ {d d' : Db Bool} {loc : Bool → ClientPc} {e : WriterEvent},
      (addingProgram Bool).toSystem.Reachable ⟨d, loc⟩ → WriterStep e d d' →
      (∀ txn, e ≠ .foreign txn) → (addingProgram Bool).toSystem.Reachable ⟨d', loc⟩ :=
    fun h hstep hlocal => Program.Reach.env h trivial ⟨hstep, fun txn he => absurd he (hlocal txn)⟩
  have h₁ := Program.Reach.thread true h₀ trivial ⟨.addChunk otherByte [8] rfl, trivial⟩ rfl
  have h₂ := henv h₁ (.drain [] rfl (by simp [Db.submitHigh, Db.enter, agedDb])) (by simp)
  have h₃ := henv h₂ (.takeAdd rfl rfl rfl) (by simp)
  have h₄ := henv h₃ (.putMapFull rfl) (by simp)
  have h₅ := henv h₄
    (.evict rfl (mt Store.scanLru_eq_nil_iff.mp (Finset.singleton_ne_empty _))) (by simp)
  have h₆ := henv h₅ (.unregister rfl) (by simp)
  have h₇ := henv h₆ (.put rfl) (by simp)
  have h₈ := henv h₇ (.register rfl) (by simp)
  refine ⟨_, registered_eq_stored h₈ trivial, ?_, ?_⟩
  · exact Store.isSome_data_putAll.mpr (Or.inr ⟨_, List.mem_singleton_self _, rfl⟩)
  · refine Option.not_isSome_iff_eq_none.mp fun hsome => ?_
    rcases Store.isSome_data_putAll.mp hsome with hold | ⟨c, hc, heq⟩
    · refine ((Store.isSome_data_deleteKeys _ _).mp hold).2 ⟨0, .ofCheckSum oneByte⟩ ?_ rfl
      exact scanLru_agedStore ▸ List.mem_singleton_self _
    · rw [List.mem_singleton] at hc
      subst hc
      exact absurd (CheckSumOnDisk.ofCheckSum_injective heq) (by decide)

end ChunkDb

end DistillFs
