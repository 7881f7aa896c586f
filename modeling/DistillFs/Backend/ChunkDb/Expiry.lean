import DistillFs.Backend.ChunkDb.Mirror

/-!
# Expiry and accesses

`gc_expired` collects the chunks that were not used since its cutoff and then asks the writer to
delete them, in requests of at most 128 keys. The requests are executed later, after any other
requests and access updates, and the writer deletes what a request names without looking at the
access time again. A chunk that was used in between goes with the rest.

## Main definitions

* `ChunkDb.Held`: the keys an expiry still holds, from its scan to their deletion.
* `ChunkDb.Undisturbed`: the condition on scans and access updates.

## Main results

* `ChunkDb.no_recent_deletion`: without such updates no chunk used since the cutoff is deleted.
* `ChunkDb.recent_chunk_deleted`: a run in which a chunk used after the cutoff is deleted.
-/

namespace DistillFs

open Foundation

/-- The recorded access of a chunk, if there is one, is before the cutoff. -/
def Store.Older (s : Store) (cutoff : ℕ) (cs : CheckSumOnDisk) : Prop :=
  ∀ t, s.access cs = some t → t < cutoff

theorem Store.Older.deleteKeys {s : Store} {cutoff : ℕ} {cs : CheckSumOnDisk}
    (h : s.Older cutoff cs) (keys : List AccessKey) : (s.deleteKeys keys).Older cutoff cs := by
  intro t ht
  rw [access_deleteKeys] at ht
  split_ifs at ht
  exact h t ht

theorem Store.Older.putAll {s : Store} {cutoff : ℕ} {cs : CheckSumOnDisk}
    (h : s.Older cutoff cs) (chunks : List Chunk) : (s.putAll chunks).Older cutoff cs := by
  intro t ht
  rw [access_putAll] at ht
  exact h t ht

/-- An access update leaves a chunk old if it is itself old or is not recorded. -/
theorem Store.Older.commitAccessBatch {s : Store} {cutoff : ℕ} {cs : CheckSumOnDisk}
    (h : s.Older cutoff cs) {batch : List CheckSumOnDisk} {now : ℕ}
    (hbatch : cs ∈ batch → now < cutoff ∨ s.Skips cs now) :
    (s.commitAccessBatch batch now).Older cutoff cs := by
  intro t ht
  rcases access_commitAccessBatch ht with hold | ⟨rfl, hmem, hno⟩
  · exact h t hold
  · exact (hbatch hmem).resolve_right hno

namespace ChunkDb

variable {τ : Type*}

/-! ### The keys an expiry holds -/

/-- The keys a request deletes for an expiry, each with the cutoff. -/
def WriteOp.expiring : WriteOp → List (ℕ × AccessKey)
  | .deleteKeys keys (some cutoff) => keys.map (cutoff, ·)
  | _ => []

/-- The keys a client has collected for an expiry and not sent yet. -/
def ClientPc.expiring : ClientPc → List (ℕ × AccessKey)
  | .deleting (some cutoff) todo | .waitDelete (some cutoff) todo => todo.flatten.map (cutoff, ·)
  | _ => []

/-- The keys of the deletion the writer is about to commit, if it belongs to an expiry. -/
def WriterPc.expiring : WriterPc τ → List (ℕ × AccessKey)
  | .delete _ _ keys (some cutoff) => keys.map (cutoff, ·)
  | _ => []

theorem WriterPc.expiring_delete (w : Work τ) (req : Request τ) (keys : List AccessKey)
    (cutoff : Option ℕ) :
    (WriterPc.delete w req keys cutoff).expiring = (WriteOp.deleteKeys keys cutoff).expiring := by
  cases cutoff <;> rfl

/-- The keys that were sent for an expiry and are not deleted yet. -/
def Db.expiring (d : Db τ) : List (ℕ × AccessKey) :=
  (d.queue.medium ++ d.writer.takenMedium).flatMap (·.op.expiring) ++ d.writer.expiring

/-- Some expiry still holds the key. -/
def Held (c : Config τ (Db τ) ClientPc) (p : ℕ × AccessKey) : Prop :=
  (∃ t, p ∈ (c.loc t).expiring) ∨ p ∈ c.shared.expiring

/-- The update records no access at or after the cutoff of an expiry that holds the chunk. -/
def Unused (c : Config τ (Db τ) ClientPc) (batch : List CheckSumOnDisk) (now : ℕ) : Prop :=
  ∀ p, Held c p → p.2.cs ∈ batch → now < p.1 ∨ c.shared.store.Skips p.2.cs now

/-- A scan finds only chunks whose recorded access is before its cutoff, and no access update
records a later access of a chunk that an expiry holds. -/
def Undisturbed (c : Config τ (Db τ) ClientPc) : τ ⊕ WriterEvent → Prop
  | .inl t => ∀ cutoff, c.loc t = .scanning cutoff →
      ∀ key ∈ c.shared.store.scanExpired cutoff, c.shared.store.Older cutoff key.cs
  | .inr .commitAccess => ∀ w now rest, c.shared.writer = .access w now rest →
      Unused c (rest.take accessBatchSize) now
  | .inr (.foreign (.commitAccess batch now)) => Unused c batch now
  | _ => True

variable [DecidableEq τ] {d d' : Db τ} {e : WriterEvent}

theorem WriterStep.expiring (h : WriterStep e d d') {p : ℕ × AccessKey} (hp : p ∈ d'.expiring) :
    p ∈ d.expiring := by
  cases h with
  | drop | foreign => exact hp
  | drain access hpc =>
    -- the queue moves to the writer, which held nothing
    rw [Db.expiring, hpc]
    simpa [Db.expiring, WriterPc.takenMedium, WriterPc.expiring] using hp
  | takeDelete hpc hmedium hop =>
    -- the keys move from the request to the writer
    rw [Db.expiring, hpc, WriterPc.takenMedium, hmedium]
    simp only [Db.expiring, Db.goto, Db.executeMedium, WriterPc.takenMedium,
      WriterPc.expiring_delete, List.flatMap_append, List.mem_append, List.flatMap_cons] at hp ⊢
    rw [hop]
    tauto
  | delete hpc | deleteError hpc =>
    rw [Db.expiring, hpc]
    rcases List.mem_append.mp hp with hwait | hnil
    · exact List.mem_append_left _ hwait
    · exact absurd hnil List.not_mem_nil
  | accessNone hpc hmedium | accessStart _ hpc hmedium =>
    rw [Db.expiring, hpc, WriterPc.takenMedium, hmedium]
    exact hp
  | _ =>
    rw [Db.expiring, ‹d.writer = _›]
    exact hp

/-- What a deletion adds to the history. -/
theorem WriterStep.deletions (h : WriterStep e d d') {del : Deletion}
    (hdel : del ∈ d'.history.deletions) :
    del ∈ d.history.deletions ∨ ∃ w req keys, ∃ key ∈ keys,
      d.writer = .delete w req keys del.cutoff ∧ del.recorded = d.store.access key.cs := by
  cases h with
  | delete hpc =>
    rcases List.mem_append.mp hdel with hold | hnew
    · exact Or.inl hold
    · obtain ⟨key, hkey, rfl⟩ := List.mem_map.mp hnew
      exact Or.inr ⟨_, _, _, key, hkey, hpc, rfl⟩
  | _ => exact Or.inl hdel

theorem ClientPc.expiring_deleting (cutoff : Option ℕ) (keys : List AccessKey)
    (rest : List (List AccessKey)) :
    (ClientPc.deleting cutoff (keys :: rest)).expiring =
      (WriteOp.deleteKeys keys cutoff).expiring ++ (ClientPc.waitDelete cutoff rest).expiring := by
  cases cutoff with
  | none => rfl
  | some cutoff => simp [ClientPc.expiring, WriteOp.expiring]

theorem ClientPc.expiring_waitDelete (cutoff : Option ℕ) (rest : List (List AccessKey)) :
    (ClientPc.waitDelete cutoff rest).expiring = (ClientPc.deleting cutoff rest).expiring := by
  cases cutoff <;> rfl

theorem ClientStep.deletions {t : τ} {pc pc' : ClientPc} (h : ClientStep t d pc d' pc') :
    d'.history.deletions = d.history.deletions := by
  cases h <;> rfl

/-- What a client's step does to the keys its expiry holds. -/
theorem ClientStep.expiring {t : τ} {pc pc' : ClientPc} (h : ClientStep t d pc d' pc')
    {p : ℕ × AccessKey} (hp : p ∈ d'.expiring ∨ p ∈ pc'.expiring) :
    (p ∈ d.expiring ∨ p ∈ pc.expiring) ∨
      ∃ cutoff, pc = .scanning cutoff ∧ p.1 = cutoff ∧ p.2 ∈ d.store.scanExpired cutoff := by
  cases h with
  | scan =>
    rcases hp with hp | hp
    · exact Or.inl (Or.inl hp)
    · obtain ⟨key, hkey, rfl⟩ := List.mem_map.mp hp
      obtain ⟨batch, hbatch, hmem⟩ := List.mem_flatten.mp hkey
      exact Or.inr ⟨_, rfl, rfl, mem_of_mem_batches hbatch hmem⟩
  | deleteKeys =>
    rw [ClientPc.expiring_deleting]
    simp only [Db.expiring, Db.submitMedium, List.flatMap_append, List.mem_append,
      List.flatMap_cons, List.flatMap_nil, List.append_nil] at hp ⊢
    tauto
  | deleted =>
    rw [ClientPc.expiring_waitDelete]
    exact Or.inl hp
  | gcLru | deleteFailed | gcDone =>
    exact Or.inl (hp.imp_right fun hp => absurd hp List.not_mem_nil)
  | _ => exact Or.inl hp

omit [DecidableEq τ] in
/-- Transactions keep a chunk old that an expiry holds, if its accesses are not recorded. -/
theorem StoreEffect.older {c : Config τ (Db τ) ClientPc} {s' : Store} {p : ℕ × AccessKey}
    (h : StoreEffect c.shared e s') (hok : Undisturbed c (.inr e)) (hheld : Held c p)
    (hold : c.shared.store.Older p.1 p.2.cs) : s'.Older p.1 p.2.cs := by
  cases h with
  | keep => exact hold
  | put => exact hold.putAll _
  | evict => exact hold.deleteKeys _
  | delete => exact hold.deleteKeys _
  | commitAccess hpc => exact hold.commitAccessBatch (hok _ _ _ hpc p hheld)
  | foreign txn =>
    cases txn with
    | putAll => exact hold.putAll _
    | commitAccess => exact hold.commitAccessBatch (hok p hheld)
    | deleteKeys => exact hold.deleteKeys _

/-- The chunks that an expiry holds are old, and so was every chunk it deleted. -/
structure ExpiryInv (d : Db τ) : Prop where
  older : ∀ p ∈ d.expiring, d.store.Older p.1 p.2.cs
  timely : ∀ del ∈ d.history.deletions, ∀ cutoff t, del.cutoff = some cutoff →
    del.recorded = some t → t < cutoff

/-- **Expiry deletes no chunk used since its cutoff**, in runs in which nothing records a later
access of a chunk between the scan that found it and its deletion. -/
theorem no_recent_deletion {foreign : Txn → Prop} {start : Store → (CheckSum → Bool) → Prop}
    {c : Config τ (Db τ) ClientPc} (hc : (program τ foreign start).toSystem.Reach Undisturbed c) :
    ∀ del ∈ c.shared.history.deletions, ∀ cutoff t, del.cutoff = some cutoff →
      del.recorded = some t → t < cutoff := by
  refine (Program.invariant (I := ExpiryInv)
    (A := fun _ d pc => ∀ p ∈ pc.expiring, d.store.Older p.1 p.2.cs)
    (fun c hinit => ?_) (fun c t s' l' h hok hstep => ?_) (fun c t u s' l' h hok hu hstep => ?_)
    (fun c e s' h hok hstep => ?_) hc).1.timely
  · obtain ⟨hqueue, hwriter, -, -, hhistory, -, hidle⟩ := hinit
    refine ⟨⟨fun p hp => ?_, fun del hdel => ?_⟩, fun t p hp => ?_⟩
    · rw [Db.expiring, hqueue, hwriter] at hp
      exact absurd hp List.not_mem_nil
    · rw [hhistory] at hdel
      exact absurd hdel List.not_mem_nil
    · rw [hidle t] at hp
      exact absurd hp List.not_mem_nil
  · have hold : ∀ p, p ∈ s'.expiring ∨ p ∈ l'.expiring → c.shared.store.Older p.1 p.2.cs := by
      intro p hp
      rcases hstep.expiring hp with (hp' | hp') | ⟨cutoff, hpc, hcutoff, hscan⟩
      · exact h.1.older p hp'
      · exact h.2 t p hp'
      · rw [hcutoff]
        exact hok cutoff hpc p.2 hscan
    refine ⟨⟨fun p hp => ?_, fun del hdel => ?_⟩, fun p hp => ?_⟩
    · rw [hstep.frame.1]
      exact hold p (Or.inl hp)
    · rw [hstep.deletions] at hdel
      exact h.1.timely del hdel
    · rw [hstep.frame.1]
      exact hold p (Or.inr hp)
  · rw [hstep.frame.1]
    exact h.2 u
  · obtain ⟨henv, -⟩ := hstep
    refine ⟨⟨fun p hp => ?_, fun del hdel cutoff t hcutoff ht => ?_⟩, fun u p hp => ?_⟩
    · have hp' := henv.expiring hp
      exact henv.storeEffect.older hok (Or.inr hp') (h.1.older p hp')
    · rcases henv.deletions hdel with hold | ⟨w, req, keys, key, hkey, hpc, hrec⟩
      · exact h.1.timely del hold cutoff t hcutoff ht
      · refine h.1.older (cutoff, key) ?_ t (hrec.symm.trans ht)
        rw [Db.expiring, hpc, hcutoff]
        exact List.mem_append_right _ (List.mem_map.mpr ⟨key, hkey, rfl⟩)
    · exact henv.storeEffect.older hok (Or.inl ⟨u, hp⟩) (h.2 u p hp)

theorem no_recent_deletion_run : ∃ c : Config Bool (Db Bool) ClientPc,
    c.shared.history.deletions.length = 1 ∧
      ∀ del ∈ c.shared.history.deletions, ∀ cutoff t, del.cutoff = some cutoff →
        del.recorded = some t → t < cutoff := by
  have h₀ : (program Bool alone fun _ _ => True).toSystem.Reach Undisturbed _ :=
    run_agedDb trivial
  have hidle : ∀ {d : Db Bool} {loc : Bool → ClientPc} {t : Bool},
      (∀ cutoff, loc t ≠ .scanning cutoff) → Undisturbed ⟨d, loc⟩ (.inl t) :=
    fun h cutoff hpc => absurd hpc (h cutoff)
  have h₁ := run_fst h₀ (hidle (by simp)) (.gcExpired 100 50 rfl)
  have h₂ := run_fst h₁ (fun cutoff hpc key hkey t ht => by
    obtain rfl := ClientPc.scanning.inj hpc
    have hzero : some 0 = some t := (Option.ite_none_right_eq_some.mp ht).2
    obtain rfl := Option.some.inj hzero
    decide) .scan
  rw [show (agedDb.enter true).store = agedStore from rfl, scanExpired_agedStore] at h₂
  have h₃ := run_fst h₂ (hidle (by simp)) .deleteKeys
  have h₄ := run_writer h₃ (.drain [] rfl
    (by simp [Db.submitMedium, Db.enter, agedDb])) trivial (by simp)
  have h₅ := run_writer h₄ (.highDone rfl rfl) trivial (by simp)
  have h₆ := run_writer h₅ (.takeDelete rfl rfl rfl) trivial (by simp)
  have h₇ := run_writer h₆ (.delete rfl) trivial (by simp)
  exact ⟨_, rfl, no_recent_deletion h₇⟩

/-- The access at time 100 was recorded before the deletion of the expiry with cutoff 50. -/
theorem recent_chunk_deleted : ∃ c : Config Bool (Db Bool) ClientPc,
    (program Bool alone fun _ _ => True).toSystem.Reachable c ∧
      ⟨some 50, ⟨0, .ofCheckSum oneByte⟩, some 100⟩ ∈ c.shared.history.deletions ∧
      c.shared.store.data (.ofCheckSum oneByte) = none := by
  obtain ⟨d, loc, w, req, hreach, hpc, haccess, -⟩ :=
    stale_deletion alone (fun _ _ => True) trivial
  refine ⟨_, run_writer hreach (.delete hpc) trivial (by simp), ?_, ?_⟩
  · refine List.mem_append_right _ (List.mem_map.mpr ⟨_, List.mem_singleton_self _, ?_⟩)
    rw [haccess]
  · exact (Store.data_deleteKeys ..).trans (if_pos (by simp))

end ChunkDb

end DistillFs
