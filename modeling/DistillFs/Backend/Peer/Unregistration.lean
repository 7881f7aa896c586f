import DistillFs.Backend.Peer.ChunkIndex

/-!
# Unregistrations

An unregistration looks at nobody else: a pass that has a checksum in hand when its unregistration
returns registers it again (`unregistered_again`). `unregistration_final` says when this cannot
happen. What matters is the work a task has in hand (`IndexPc.work`): the checksums it has read and
may still write.

## Main definitions

* `IndexPc.work`: the checksums a task has in hand.
* `UnregistersAlone`: the condition on runs.
* `FinalInv`: what holds of unregistered checksums.

## Main results

* `unregistration_final`: an unregistered checksum is in neither the tracker nor Redis.
* `unregistered_again`: a run in which a refresh registers a checksum after its unregistration.
-/

namespace DistillFs

open Foundation

/-- The rest of the snapshot a refresh has in hand. -/
def IndexCont.rest : IndexCont → List CheckSum
  | .refresh rest => rest
  | _ => []

/-- The checksums a task has in hand: it has read them, and may register them. -/
def IndexPc.work {α : Type*} : IndexPc α → List CheckSum
  | .register k checksums => checksums ++ k.rest
  | .registering k _ todo retained => todo ++ retained ++ k.rest
  | .refreshing rest => rest
  | .filtering todo candidates => todo ++ candidates
  | .looking k _ todo found => todo ++ found.map Prod.fst ++ k.rest
  | _ => []

/-- The batch that a pass is about to read from the chunk database. -/
def IndexPc.batch {α : Type*} (stored : Finset CheckSumOnDisk) : IndexPc α → List CheckSum
  | .syncing cursor => nextChunkBatch stored cursor indexSyncBatchSize
  | .repairing cursor => nextChunkBatch stored cursor indexRepairBatchSize
  | _ => []

@[simp] theorem IndexPc.work_resume {α : Type*} (k : IndexCont) :
    (k.resume : IndexPc α).work = k.rest := by
  cases k <;> rfl

theorem IndexCont.resume_ne {α : Type*} (k : IndexCont) (checksums todo : List CheckSum) :
    (k.resume : IndexPc α) ≠ .unregistering checksums todo := by
  cases k <;> simp [IndexCont.resume]

section Effects

variable {α : Type*} [LinearOrder α] {addr : α} {ttl : ℕ} {s s' : IndexNode α} {pc pc' : IndexPc α}
  {cs : CheckSum}

/-- A checksum becomes unregistered when its unregistration ends. -/
theorem IndexStep.unregistered_cases (h : IndexStep addr ttl s pc s' pc')
    (hcs : s'.unregistered cs = true) :
    s.unregistered cs = true ∨ ∃ checksums, pc = .unregistering checksums [] ∧ cs ∈ checksums ∧
      cs ∉ s'.tracker ∧ s'.redis = s.redis ∧ pc' = .idle := by
  cases h with
  | registerBatch => exact Or.inl (Bool.and_eq_true_iff.mp hcs).2
  | @unregistered checksums =>
    rcases Bool.or_eq_true_iff.mp hcs with hin | hold
    · have hmem := of_decide_eq_true hin
      exact Or.inr ⟨checksums, rfl, hmem, by simp [hmem], rfl, rfl⟩
    · exact Or.inl hold
  | _ => exact Or.inl hcs

/-- The address comes under a key by the script. -/
theorem IndexStep.mem_redis (h : IndexStep addr ttl s pc s' pc') (hmem : addr ∈ s'.redis cs) :
    addr ∈ s.redis cs ∨ ∃ k now todo retained, pc = .registering k now (cs :: todo) retained := by
  cases h with
  | @script k now cs' todo retained =>
    by_cases hcs : cs = cs'
    · subst hcs
      exact Or.inr ⟨k, now, todo, retained, rfl⟩
    · dsimp only at hmem
      rw [Function.update_of_ne hcs] at hmem
      exact Or.inl hmem
  | @zrem checksums todo cs' =>
    dsimp only at hmem
    by_cases hcs : cs = cs'
    · subst hcs
      rw [Function.update_self] at hmem
      exact absurd hmem (SortedSet.notMem_rem _ _)
    · rw [Function.update_of_ne hcs] at hmem
      exact Or.inl hmem
  | _ => exact Or.inl hmem

theorem mem_of_mem_tracked {found : List (CheckSum × Finset α)} (h : cs ∈ tracked addr found) :
    cs ∈ found.map Prod.fst :=
  List.map_subset _ (List.filter_subset_self _) h

theorem mem_of_mem_missing {found : List (CheckSum × Finset α)} (h : cs ∈ missing addr found) :
    cs ∈ found.map Prod.fst :=
  List.map_subset _ (List.filter_subset_self _) h

/-- A checksum comes into the tracker out of the hands of a task. -/
theorem IndexStep.mem_tracker (h : IndexStep addr ttl s pc s' pc') (hmem : cs ∈ s'.tracker) :
    cs ∈ s.tracker ∨ cs ∈ pc.work := by
  cases h with
  | registered =>
    refine (Finset.mem_union.mp hmem).imp_right fun hr => ?_
    simp [IndexPc.work, List.mem_toFinset.mp hr]
  | looked =>
    refine (Finset.mem_union.mp hmem).imp_right fun hf => ?_
    have hfound := mem_of_mem_tracked (List.mem_toFinset.mp hf)
    simp only [IndexPc.work, List.nil_append]
    exact List.mem_append_left _ hfound
  | unregistered => exact Or.inl (Finset.mem_sdiff.mp hmem).1
  | _ => exact Or.inl hmem

/-- A task gets a checksum from the tracker, from the chunk database, or by a call to register
it. -/
theorem IndexStep.mem_work (h : IndexStep addr ttl s pc s' pc') (hmem : cs ∈ pc'.work) :
    cs ∈ pc.work ∨ cs ∈ s.tracker ∨ cs ∈ pc.batch s.stored ∨ s'.unregistered cs = false := by
  cases h with
  | registerBatch checksums =>
    have hin : cs ∈ checksums := by simpa [IndexPc.work, IndexCont.rest] using hmem
    exact Or.inr (Or.inr (Or.inr (by simp [hin])))
  | registerNone | registered =>
    rw [IndexPc.work_resume] at hmem
    exact Or.inl (List.mem_append_right _ hmem)
  | registerSome => exact Or.inl (by simpa [IndexPc.work] using hmem)
  | @script k now cs' todo retained owners result =>
    left
    simp only [IndexPc.work, List.mem_append, List.mem_cons] at hmem ⊢
    split_ifs at hmem with hresult
    · simp only [List.mem_append, List.mem_singleton] at hmem
      tauto
    · tauto
  | snapshot _ htracker =>
    rw [← htracker]
    exact Or.inr (Or.inl (List.mem_toFinset.mpr hmem))
  | @refreshBatch rest =>
    left
    simp only [IndexPc.work, IndexCont.rest] at hmem
    rwa [List.take_append_drop] at hmem
  | syncBatch hbatch =>
    subst hbatch
    exact Or.inr (Or.inr (Or.inl
      (by simpa [IndexPc.work, IndexPc.batch, IndexCont.rest] using hmem)))
  | repairBatch hbatch =>
    subst hbatch
    exact Or.inr (Or.inr (Or.inl (by simpa [IndexPc.work, IndexPc.batch] using hmem)))
  | @filter cs' todo candidates =>
    left
    simp only [IndexPc.work, List.mem_append, List.mem_cons] at hmem ⊢
    split_ifs at hmem with hin
    · tauto
    · simp only [List.mem_append, List.mem_singleton] at hmem
      tauto
  | filtered => exact Or.inl (by simpa [IndexPc.work, IndexCont.rest] using hmem)
  | look =>
    left
    simp only [IndexPc.work, List.map_append, List.map_cons, List.map_nil, List.mem_append,
      List.mem_cons, List.not_mem_nil, or_false] at hmem ⊢
    tauto
  | looked =>
    left
    simp only [IndexPc.work, List.mem_append] at hmem ⊢
    exact hmem.imp_left fun hin => Or.inr (mem_of_mem_missing hin)
  | _ => cases hmem

/-- An unregistration removes the address under its next key. -/
theorem IndexStep.removed (h : IndexStep addr ttl s pc s' pc') {checksums todo : List CheckSum}
    (hpc' : pc' = .unregistering checksums todo) (hin : cs ∈ checksums) (hnot : cs ∉ todo) :
    addr ∉ s'.redis cs ∨
      ∃ todo', pc = .unregistering checksums todo' ∧ cs ∉ todo' ∧ s'.redis cs = s.redis cs := by
  cases h with
  | registerNone | registered => exact absurd hpc' (IndexCont.resume_ne _ _ _)
  | unregisterBatch =>
    cases hpc'
    exact absurd hin hnot
  | @zrem _ _ cs' =>
    cases hpc'
    by_cases hcs : cs = cs'
    · subst hcs
      left
      dsimp only
      rw [Function.update_self]
      exact SortedSet.notMem_rem _ _
    · exact Or.inr ⟨_, rfl, by simp [hcs, hnot], Function.update_of_ne hcs ..⟩
  | _ => cases hpc'

end Effects

namespace IndexNode

variable {τ : Type*} [DecidableEq τ] {α : Type*} [LinearOrder α] {addr : α} {ttl : ℕ}
  {c : Config τ (IndexNode α) (IndexPc α)} {t : τ} {s' : IndexNode α} {pc' : IndexPc α}

/-- Nobody interferes with an unregistration: no script runs for a checksum between its removal from
Redis and the end of the unregistration; at the end no task has one of its checksums in hand; and
no batch that is read from the chunk database has a checksum that is unregistered. -/
def UnregistersAlone (c : Config τ (IndexNode α) (IndexPc α)) : τ ⊕ Unit → Prop
  | .inl t =>
    (∀ k now cs todo retained, c.loc t = .registering k now (cs :: todo) retained →
      ∀ u checksums todo', c.loc u = .unregistering checksums todo' → cs ∈ checksums → cs ∈ todo') ∧
    (∀ checksums, c.loc t = .unregistering checksums [] →
      ∀ cs ∈ checksums, ∀ u, cs ∉ (c.loc u).work) ∧
    ∀ cs ∈ (c.loc t).batch c.shared.stored, c.shared.unregistered cs = false
  | .inr _ => True

/-- Unregistered checksums are in neither the tracker nor Redis. -/
def Gone (addr : α) (s : IndexNode α) : Prop :=
  ∀ cs, s.unregistered cs = true → cs ∉ s.tracker ∧ addr ∉ s.redis cs

/-- A task has no unregistered checksum in hand; and what its unregistration has removed from Redis
is not there. -/
structure Assertion (addr : α) (s : IndexNode α) (pc : IndexPc α) : Prop where
  work : ∀ cs, s.unregistered cs = true → cs ∉ pc.work
  removed : ∀ checksums todo, pc = .unregistering checksums todo →
    ∀ cs ∈ checksums, cs ∉ todo → addr ∉ s.redis cs

omit [DecidableEq τ] in
/-- A step of a task adds no unregistered checksum to the tracker, to Redis or to its work. -/
theorem own_step (hgone : Gone addr c.shared) (ht : Assertion addr c.shared (c.loc t))
    (hok : UnregistersAlone c (.inl t)) (hstep : IndexStep addr ttl c.shared (c.loc t) s' pc') :
    Gone addr s' ∧ Assertion addr s' pc' := by
  obtain ⟨hscript, -, hbatch⟩ := hok
  have hkeep : ∀ cs, c.shared.unregistered cs = true → cs ∉ s'.tracker ∧ addr ∉ s'.redis cs := by
    intro cs hcs
    refine ⟨fun hmem => ?_, fun hmem => ?_⟩
    · rcases hstep.mem_tracker hmem with hold | hwork
      · exact (hgone cs hcs).1 hold
      · exact ht.work cs hcs hwork
    · rcases hstep.mem_redis hmem with hold | ⟨k, now, todo, retained, hpc⟩
      · exact (hgone cs hcs).2 hold
      · exact ht.work cs hcs (by simp [hpc, IndexPc.work])
  refine ⟨fun cs hcs => ?_, ⟨fun cs hcs hmem => ?_, ?_⟩⟩
  · rcases hstep.unregistered_cases hcs with hold | ⟨checksums, hpc, hin, htracker, hredis, -⟩
    · exact hkeep cs hold
    · rw [hredis]
      exact ⟨htracker, ht.removed checksums [] hpc cs hin (by simp)⟩
  · rcases hstep.unregistered_cases hcs with hold | ⟨-, -, -, -, -, hidle⟩
    · rcases hstep.mem_work hmem with hwork | htracker | hread | hnew
      · exact ht.work cs hold hwork
      · exact (hgone cs hold).1 htracker
      · rw [hbatch cs hread] at hold
        cases hold
      · rw [hcs] at hnew
        cases hnew
    · rw [hidle] at hmem
      cases hmem
  · intro checksums todo hpc' cs hin hnot
    rcases hstep.removed hpc' hin hnot with hgone' | ⟨todo', hpc, hnot', hsame⟩
    · exact hgone'
    · rw [hsame]
      exact ht.removed checksums todo' hpc cs hin hnot'

theorem holds_of_reach (hc : (indexProgram addr ttl τ).toSystem.Reach UnregistersAlone c) :
    Program.Holds (Gone addr) (fun _ => Assertion addr) c := by
  refine Program.invariant (P := indexProgram addr ttl τ) (fun c hinit => ?init)
    (fun c t s' pc' h hok hstep => ?own)
    (fun c t u s' pc' h hok hut hstep => ?other) (fun c e s' h _ hstep => ?env) hc
  case init =>
    obtain ⟨-, hnone, hidle⟩ := hinit
    refine ⟨fun cs hcs => ?_, fun t => ⟨fun cs hcs => ?_, fun checksums todo ht => ?_⟩⟩
    · rw [hnone] at hcs
      cases hcs
    · rw [hnone] at hcs
      cases hcs
    · rw [hidle] at ht
      cases ht
  case own =>
    change IndexStep addr ttl c.shared (c.loc t) s' pc' at hstep
    exact own_step h.1 (h.2 t) hok hstep
  case other =>
    obtain ⟨hscript, hend, -⟩ := hok
    change IndexStep addr ttl c.shared (c.loc t) s' pc' at hstep
    refine ⟨fun cs hcs => ?_, fun checksums todo hu cs hin hnot hmem => ?_⟩
    · rcases hstep.unregistered_cases hcs with hold | ⟨checksums, hpc, hin, -⟩
      · exact (h.2 u).work cs hold
      · exact hend checksums hpc cs hin u
    · rcases hstep.mem_redis hmem with hold | ⟨k, now, todo', retained, hpc⟩
      · exact (h.2 u).removed checksums todo hu cs hin hnot hold
      · exact hnot (hscript k now cs todo' retained hpc u checksums todo hu hin)
  case env =>
    cases hstep with
    | tick | store => exact ⟨h.1, fun t => ⟨(h.2 t).work, (h.2 t).removed⟩⟩
    | expire cs' =>
      have hredis : ∀ cs, addr ∈ Function.update c.shared.redis cs' ∅ cs →
          addr ∈ c.shared.redis cs := by
        intro cs hmem
        by_cases hcs : cs = cs'
        · subst hcs
          rw [Function.update_self] at hmem
          exact absurd hmem (SortedSet.notMem_empty _)
        · rwa [Function.update_of_ne hcs] at hmem
      exact ⟨fun cs hcs => ⟨(h.1 cs hcs).1, fun hmem => (h.1 cs hcs).2 (hredis cs hmem)⟩,
        fun t => ⟨(h.2 t).work, fun checksums todo ht cs hin hnot hmem =>
          (h.2 t).removed checksums todo ht cs hin hnot (hredis cs hmem)⟩⟩

/-- **Unregistration is final, if nobody interferes.** In the runs in which no task registers a
checksum during its unregistration, has it in hand at the end, or reads it from the chunk database
later: a checksum that is unregistered and was not registered again is in neither the tracker nor,
for this node, in Redis. -/
theorem unregistration_final (hc : (indexProgram addr ttl τ).toSystem.Reach UnregistersAlone c)
    (cs : CheckSum) (hcs : c.shared.unregistered cs = true) :
    cs ∉ c.shared.tracker ∧ addr ∉ c.shared.redis cs :=
  (holds_of_reach hc).1 cs hcs

section Runs

variable {ok : Config Bool (IndexNode ℕ) (IndexPc ℕ) → Bool ⊕ Unit → Prop} {s s' : IndexNode ℕ}
  {a b a' b' : IndexPc ℕ}

/-- A node that starts, with nothing in Redis and nothing stored. -/
def newIndexNode : IndexNode ℕ := ⟨fun _ => ∅, ∅, ∅, 0, fun _ => false⟩

private theorem index_start (ok : Config Bool (IndexNode ℕ) (IndexPc ℕ) → Bool ⊕ Unit → Prop) :
    (indexProgram 0 1 Bool).toSystem.Reach ok ⟨newIndexNode, fun t => cond t .idle .idle⟩ :=
  .init ⟨rfl, fun _ => rfl, fun t => by cases t <;> rfl⟩

private theorem index_fst (hc : (indexProgram 0 1 Bool).toSystem.Reach ok ⟨s, fun t => cond t a b⟩)
    (hok : ok ⟨s, fun t => cond t a b⟩ (.inl true)) (h : IndexStep 0 1 s a s' a') :
    (indexProgram 0 1 Bool).toSystem.Reach ok ⟨s', fun t => cond t a' b⟩ :=
  Program.Reach.fst hc hok h

private theorem index_snd (hc : (indexProgram 0 1 Bool).toSystem.Reach ok ⟨s, fun t => cond t a b⟩)
    (hok : ok ⟨s, fun t => cond t a b⟩ (.inl false)) (h : IndexStep 0 1 s b s' b') :
    (indexProgram 0 1 Bool).toSystem.Reach ok ⟨s', fun t => cond t a b'⟩ :=
  Program.Reach.snd hc hok h

/-- The script retains the address. -/
private theorem script_retains {k : IndexCont} {now : ℕ} {cs : CheckSum}
    {todo retained : List CheckSum} {owners : SortedSet ℕ}
    (howners : (registerScript (s.redis cs) 0 now (1 : ℕ) maxChunkOwners).1 = owners)
    (h : (registerScript (s.redis cs) 0 now (1 : ℕ) maxChunkOwners).2 = true) :
    IndexStep 0 1 s (.registering k now (cs :: todo) retained)
      { s with redis := Function.update s.redis cs owners }
      (.registering k now todo (retained ++ [cs])) := by
  have hpair : registerScript (s.redis cs) 0 now (1 : ℕ) maxChunkOwners = (owners, true) :=
    Prod.ext howners h
  exact .script hpair

/-- One task that does not read the chunk database does not disturb itself. -/
private theorem unregistersAlone_solo (hbatch : ∀ stored, a.batch stored = []) :
    UnregistersAlone ⟨s, fun t => cond t a .idle⟩ (.inl true) := by
  refine ⟨fun k now cs todo retained ha u checksums todo' hu => ?_,
    fun checksums ha cs _ u hmem => ?_, fun cs hcs => ?_⟩
  · change a = _ at ha
    cases u with
    | false => cases hu
    | true =>
      subst ha
      cases hu
  · change a = _ at ha
    subst ha
    cases u <;> cases hmem
  · change cs ∈ a.batch s.stored at hcs
    rw [hbatch] at hcs
    cases hcs

/-- A checksum is registered and unregistered. -/
theorem unregistration_final_run : ∃ (c : Config Bool (IndexNode ℕ) (IndexPc ℕ)) (cs : CheckSum),
    c.shared.unregistered cs = true ∧ cs ∉ c.shared.tracker ∧ 0 ∉ c.shared.redis cs := by
  let cs : CheckSum := ⟨Vector.replicate 32 0, .sha256⟩
  have h₀ := index_start UnregistersAlone
  have h₁ := index_fst h₀ (unregistersAlone_solo fun _ => rfl) (.registerBatch [cs])
  have h₂ := index_fst h₁ (unregistersAlone_solo fun _ => rfl) (.registerSome (by simp))
  have h₃ := index_fst h₂ (unregistersAlone_solo fun _ => rfl) (.script rfl)
  have h₄ := index_fst h₃ (unregistersAlone_solo fun _ => rfl) .registered
  have h₅ := index_fst h₄ (unregistersAlone_solo fun _ => rfl) (.unregisterBatch [cs] (by simp))
  have h₆ := index_fst h₅ (unregistersAlone_solo fun _ => rfl) .zrem
  have h₇ := index_fst h₆ (unregistersAlone_solo fun _ => rfl) .unregistered
  obtain ⟨htracker, hredis⟩ := unregistration_final h₇ cs (by decide)
  exact ⟨_, cs, by decide, htracker, hredis⟩

/-- A refresh takes its snapshot with a checksum in it; the checksum is unregistered; and the
refresh registers it again. All tasks have ended, and the checksum is in the tracker and in
Redis. -/
theorem unregistered_again : ∃ (c : Config Bool (IndexNode ℕ) (IndexPc ℕ)) (cs : CheckSum),
    (indexProgram 0 1 Bool).toSystem.Reachable c ∧ (∀ t, c.loc t = .idle) ∧
    c.shared.unregistered cs = true ∧ cs ∈ c.shared.tracker ∧ 0 ∈ c.shared.redis cs := by
  let cs : CheckSum := ⟨Vector.replicate 32 0, .sha256⟩
  have h₀ := index_start fun _ _ => True
  have h₁ := index_fst h₀ trivial (.registerBatch [cs])
  have h₂ := index_fst h₁ trivial (.registerSome (by simp))
  have h₃ := index_fst h₂ trivial (script_retains rfl (by decide))
  have h₄ := index_fst h₃ trivial .registered
  have h₅ := index_fst h₄ trivial (.snapshot (List.nodup_singleton cs) rfl)
  have h₆ := index_snd h₅ trivial (.unregisterBatch [cs] (by simp))
  have h₇ := index_snd h₆ trivial .zrem
  have h₈ := index_snd h₇ trivial .unregistered
  have h₉ := index_fst h₈ trivial (.refreshBatch (by simp))
  have h₁₀ := index_fst h₉ trivial (.registerSome (by simp [redisRegisterBatchSize]))
  have h₁₁ := index_fst h₁₀ trivial (script_retains rfl (by decide))
  have h₁₂ := index_fst h₁₁ trivial .registered
  have h₁₃ := index_fst h₁₂ trivial .refreshed
  refine ⟨_, cs, h₁₃, fun t => ?_, ?_, ?_, ?_⟩
  · cases t <;> rfl
  · decide
  · decide
  · decide

end Runs

end IndexNode

end DistillFs
