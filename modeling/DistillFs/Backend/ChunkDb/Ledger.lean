import DistillFs.Backend.ChunkDb.Writer

/-!
# The writer loses nothing

A request is in exactly one place at any time: in its queue, in what the writer took, in the hands
of the writer, or replied to. An access is in the set of pending accesses or in what the writer
took, until a transaction is tried with it; when the writer yields, the rest goes back into the set.
So the requests executed are the first ones submitted, in order, and the requests replied to are the
first ones executed.

The writer stops only after a turn that began with the handle dropped. By then every call has
returned, so nothing is queued, and nothing can be queued any more: at the end everything is done.

A writer that gets to move again and again finishes every turn: an addition that finds the database
full evicts chunks until it fits or nothing is left to evict.

## Main definitions

* `WriterPc.currentHigh`, `WriterPc.currentMedium`, `Accounts`: where the requests are.
* `Uncommitted`: accesses that were enqueued and not committed since.
* `Complete`: everything was done.

## Main results

* `ChunkDb.writer_loses_nothing`: requests are executed and replied to once and in order, nothing is
  left when the writer exits, and every request is replied to if the writer keeps moving.
-/

namespace DistillFs

open Foundation

namespace ChunkDb

variable {τ : Type*}

/-! ### Where the requests are -/

/-- The addition the writer is executing. -/
def WriterPc.currentHigh : WriterPc τ → List (Request τ)
  | .put _ req _ | .stored _ req _ _ | .registered _ req _ _ | .mapFull _ req _
  | .evicted _ req _ _ | .replyHigh _ req _ => [req]
  | _ => []

/-- The deletion the writer is executing. -/
def WriterPc.currentMedium : WriterPc τ → List (Request τ)
  | .delete _ req _ _ | .replyMedium _ req _ => [req]
  | _ => []

/-- Every request is in one place. -/
structure Accounts (d : Db τ) : Prop where
  submittedHigh : d.history.submittedHigh =
    d.history.executedHigh ++ (d.writer.takenHigh ++ d.queue.high)
  submittedMedium : d.history.submittedMedium =
    d.history.executedMedium ++ (d.writer.takenMedium ++ d.queue.medium)
  executedHigh : d.history.executedHigh = d.history.repliedHigh ++ d.writer.currentHigh
  executedMedium : d.history.executedMedium = d.history.repliedMedium ++ d.writer.currentMedium

/-- The requests that were not replied to. -/
def Db.outstanding (d : Db τ) : List (Request τ) :=
  (d.writer.currentHigh ++ (d.writer.takenHigh ++ d.queue.high)) ++
    (d.writer.currentMedium ++ (d.writer.takenMedium ++ d.queue.medium))

variable [DecidableEq τ] {d d' : Db τ} {e : WriterEvent} {t : τ} {pc pc' : ClientPc}

theorem ClientStep.accounts (h : ClientStep t d pc d' pc') (hd : Accounts d) : Accounts d' := by
  obtain ⟨hhigh, hmedium, hexecHigh, hexecMedium⟩ := hd
  cases h with
  | addChunk | addChunks =>
    refine ⟨?_, hmedium, hexecHigh, hexecMedium⟩
    simp only [Db.submitHigh, Db.enter, hhigh, List.append_assoc]
  | deleteKeys =>
    refine ⟨hhigh, ?_, hexecHigh, hexecMedium⟩
    simp only [Db.submitMedium, hmedium, List.append_assoc]
  | _ => exact ⟨hhigh, hmedium, hexecHigh, hexecMedium⟩

theorem WriterStep.accounts (h : WriterStep e d d') (hd : Accounts d) : Accounts d' := by
  obtain ⟨hhigh, hmedium, hexecHigh, hexecMedium⟩ := hd
  cases h with
  | drop | foreign => exact ⟨hhigh, hmedium, hexecHigh, hexecMedium⟩
  | drain access hpc =>
    rw [hpc] at hhigh hmedium hexecHigh hexecMedium
    refine ⟨?_, ?_, hexecHigh, hexecMedium⟩
    · simpa [WriterPc.takenHigh] using hhigh
    · simpa [WriterPc.takenMedium] using hmedium
  | takeAdd hpc htaken =>
    rw [hpc] at hhigh hmedium hexecHigh hexecMedium
    refine ⟨?_, hmedium, ?_, hexecMedium⟩
    · simpa [WriterPc.takenHigh, htaken, Db.goto, Db.executeHigh] using hhigh
    · simpa [WriterPc.currentHigh, Db.goto, Db.executeHigh] using hexecHigh
  | replyHigh hpc =>
    rw [hpc] at hhigh hmedium hexecHigh hexecMedium
    refine ⟨hhigh, hmedium, ?_, hexecMedium⟩
    simpa [WriterPc.currentHigh, Db.goto, Db.noteRepliedHigh, Db.sendReply] using hexecHigh
  | highDone hpc htaken =>
    rw [hpc, WriterPc.takenHigh, htaken] at hhigh
    rw [hpc] at hmedium hexecHigh hexecMedium
    exact ⟨hhigh, hmedium, hexecHigh, hexecMedium⟩
  | takeDelete hpc htaken =>
    rw [hpc] at hhigh hmedium hexecHigh hexecMedium
    refine ⟨hhigh, ?_, hexecHigh, ?_⟩
    · simpa [WriterPc.takenMedium, htaken, Db.goto, Db.executeMedium] using hmedium
    · simpa [WriterPc.currentMedium, Db.goto, Db.executeMedium] using hexecMedium
  | replyMedium hpc =>
    rw [hpc] at hhigh hmedium hexecHigh hexecMedium
    refine ⟨hhigh, hmedium, hexecHigh, ?_⟩
    simpa [WriterPc.currentMedium, Db.goto, Db.noteRepliedMedium, Db.sendReply] using hexecMedium
  | accessNone hpc htaken | accessStart _ hpc htaken =>
    rw [hpc, WriterPc.takenMedium, htaken] at hmedium
    rw [hpc] at hhigh hexecHigh hexecMedium
    exact ⟨hhigh, hmedium, hexecHigh, hexecMedium⟩
  | _ =>
    rw [‹d.writer = _›] at hhigh hmedium hexecHigh hexecMedium
    exact ⟨hhigh, hmedium, hexecHigh, hexecMedium⟩

/-! ### Calls and replies -/

/-- The number of replies a client waits for. -/
def ClientPc.waiting : ClientPc → ℕ
  | .waitAdd | .waitDelete _ _ => 1
  | _ => 0

theorem ClientPc.waiting_le_one (pc : ClientPc) : pc.waiting ≤ 1 := by
  cases pc <;> simp [waiting]

/-- The requests of a client that were not replied to, and its reply if it was not taken. -/
def Db.owed (d : Db τ) (t : τ) : ℕ :=
  d.outstanding.countP (fun req => decide (req.client = t)) + (d.replies t).toList.length

theorem Db.owed_pos {req : Request τ} (h : req ∈ d.outstanding) : 0 < d.owed req.client :=
  Nat.add_pos_left (List.countP_pos_iff.mpr ⟨req, h, decide_eq_true rfl⟩) _

theorem Db.owed_submitHigh (req : Request τ) (u : τ) :
    (d.submitHigh req).owed u = d.owed u + if req.client = u then 1 else 0 := by
  simp only [owed, outstanding, submitHigh, List.countP_append, List.countP_singleton,
    decide_eq_true_eq]
  omega

theorem Db.owed_submitMedium (req : Request τ) (u : τ) :
    (d.submitMedium req).owed u = d.owed u + if req.client = u then 1 else 0 := by
  simp only [owed, outstanding, submitMedium, List.countP_append, List.countP_singleton,
    decide_eq_true_eq]
  omega

theorem Db.owed_takeReply {reply : Reply} (h : d.replies t = some reply) :
    d.owed t = (d.takeReply t).owed t + 1 := by
  simp only [owed, takeReply, h, Function.update_self, Option.toList_some, Option.toList_none,
    List.length_singleton, List.length_nil]
  rfl

theorem Db.owed_takeReply_of_ne {u : τ} (h : u ≠ t) : (d.takeReply t).owed u = d.owed u := by
  simp only [owed, takeReply, Function.update_of_ne h]
  rfl

/-- A client waits for one reply exactly while one is owed to it, and its call is in progress. -/
structure Waits (t : τ) (d : Db τ) (pc : ClientPc) : Prop where
  owed : d.owed t = pc.waiting
  calls : pc ≠ .idle → t ∈ d.calls

theorem ClientStep.waits (h : ClientStep t d pc d' pc') (hd : Waits t d pc) : Waits t d' pc' := by
  obtain ⟨howed, hcalls⟩ := hd
  cases h with
  | addChunk | addChunks =>
    refine ⟨?_, fun _ => Finset.mem_insert_self ..⟩
    rw [Db.owed_submitHigh, if_pos rfl]
    exact congrArg (· + 1) howed
  | added hreply =>
    refine ⟨?_, fun h => absurd rfl h⟩
    rw [Db.owed_takeReply hreply] at howed
    exact Nat.succ.inj howed
  | access => exact ⟨howed, hcalls⟩
  | gcExpired | gcLru => exact ⟨howed, fun _ => Finset.mem_insert_self ..⟩
  | scan => exact ⟨howed, fun _ => hcalls (by simp)⟩
  | deleteKeys =>
    refine ⟨?_, fun _ => hcalls (by simp)⟩
    rw [Db.owed_submitMedium, if_pos rfl]
    exact congrArg (· + 1) howed
  | deleted hreply =>
    refine ⟨?_, fun _ => hcalls (by simp)⟩
    rw [Db.owed_takeReply hreply] at howed
    exact Nat.succ.inj howed
  | deleteFailed hreply =>
    refine ⟨?_, fun h => absurd rfl h⟩
    rw [Db.owed_takeReply hreply] at howed
    exact Nat.succ.inj howed
  | gcDone => exact ⟨howed, fun h => absurd rfl h⟩

/-- A client's step owes nothing to the others and keeps their calls. -/
theorem ClientStep.waits_of_ne (h : ClientStep t d pc d' pc') {u : τ} (hu : u ≠ t) {pcu : ClientPc}
    (hd : Waits u d pcu) : Waits u d' pcu := by
  obtain ⟨howed, hcalls⟩ := hd
  have henter : pcu ≠ .idle → u ∈ insert t d.calls := fun h => Finset.mem_insert_of_mem (hcalls h)
  have hleave : pcu ≠ .idle → u ∈ d.calls.erase t := fun h => Finset.mem_erase.mpr ⟨hu, hcalls h⟩
  cases h with
  | addChunk | addChunks =>
    refine ⟨?_, henter⟩
    rw [Db.owed_submitHigh, if_neg hu.symm]
    exact howed
  | added | deleteFailed => exact ⟨(Db.owed_takeReply_of_ne hu).trans howed, hleave⟩
  | access | scan => exact ⟨howed, hcalls⟩
  | gcExpired | gcLru => exact ⟨howed, henter⟩
  | deleteKeys =>
    refine ⟨?_, hcalls⟩
    rw [Db.owed_submitMedium, if_neg hu.symm]
    exact howed
  | deleted => exact ⟨(Db.owed_takeReply_of_ne hu).trans howed, hcalls⟩
  | gcDone => exact ⟨howed, hleave⟩

/-- What the writer does to the requests not replied to: none, or it replies to one of them. -/
theorem WriterStep.outstanding (h : WriterStep e d d') :
    (d'.outstanding = d.outstanding ∧ d'.replies = d.replies) ∨
      ∃ req reply before after, d.outstanding = before ++ req :: after ∧
        d'.outstanding = before ++ after ∧
        d'.replies = Function.update d.replies req.client (some reply) := by
  have hdef : d.outstanding = (d.writer.currentHigh ++ (d.writer.takenHigh ++ d.queue.high)) ++
    (d.writer.currentMedium ++ (d.writer.takenMedium ++ d.queue.medium)) := rfl
  rw [hdef]
  cases h with
  | drop | foreign => exact Or.inl ⟨rfl, rfl⟩
  | drain access hpc =>
    rw [hpc]
    exact Or.inl ⟨by simp [Db.outstanding, WriterPc.takenHigh, WriterPc.takenMedium,
      WriterPc.currentHigh, WriterPc.currentMedium], rfl⟩
  | takeAdd hpc htaken =>
    rw [hpc, WriterPc.takenHigh, htaken]
    exact Or.inl ⟨rfl, rfl⟩
  | replyHigh hpc =>
    rw [hpc]
    exact Or.inr ⟨_, _, [], _, rfl, rfl, rfl⟩
  | highDone hpc htaken =>
    rw [hpc, WriterPc.takenHigh, htaken]
    exact Or.inl ⟨rfl, rfl⟩
  | takeDelete hpc htaken =>
    rw [hpc, WriterPc.takenMedium, htaken]
    exact Or.inl ⟨rfl, rfl⟩
  | replyMedium hpc =>
    rw [hpc]
    exact Or.inr ⟨_, _, _, _, rfl, rfl, rfl⟩
  | accessNone hpc htaken | accessStart _ hpc htaken =>
    rw [hpc, WriterPc.takenMedium, htaken]
    exact Or.inl ⟨rfl, rfl⟩
  | _ =>
    rw [‹d.writer = _›]
    exact Or.inl ⟨rfl, rfl⟩

theorem WriterStep.calls (h : WriterStep e d d') : d'.calls = d.calls := by
  cases h <;> rfl

theorem WriterStep.waits (h : WriterStep e d d') (hd : Waits t d pc) : Waits t d' pc := by
  refine ⟨?_, fun hpc => h.calls ▸ hd.calls hpc⟩
  rcases h.outstanding with ⟨hout, hreplies⟩ | ⟨req, reply, before, after, hout, hout', hreplies⟩
  · rw [Db.owed, hout, hreplies]
    exact hd.owed
  · have howed := hd.owed
    have hle := pc.waiting_le_one
    rw [Db.owed, hout, List.countP_append, List.countP_cons] at howed
    rw [Db.owed, hout', List.countP_append, hreplies]
    by_cases ht : t = req.client
    · -- the reply replaces the request
      subst ht
      rw [Function.update_self, Option.toList_some, List.length_singleton]
      simp only [decide_true, if_true] at howed
      omega
    · rw [Function.update_of_ne ht]
      simp only [decide_eq_true_eq, Ne.symm ht, if_false] at howed
      omega

/-! ### The end of the writer -/

/-- The turn began with the handle dropped, or was the last one. -/
def WriterPc.stopping : WriterPc τ → Bool
  | .top => false
  | .high w | .put w _ _ | .stored w _ _ _ | .registered w _ _ _ | .mapFull w _ _
  | .evicted w _ _ _ | .replyHigh w _ _ | .medium w | .delete w _ _ _ | .replyMedium w _ _
  | .access w _ _ | .between w _ _ | .yield w _ | .finish w => w.stop
  | .exited => true

/-- After the drop of the handle no call is in progress, and in the last turn of the writer nothing
is left for another one. -/
structure StopInv (d : Db τ) : Prop where
  calls : d.queue.stop = true → d.calls = ∅
  stopping : d.writer.stopping = true → d.queue.stop = true ∧ d.queue.accessPending = ∅
  yield : ∀ w rest, d.writer = .yield w rest → w.stop = false

omit [DecidableEq τ] in
/-- While the handle is alive the writer is not in its last turn. -/
theorem StopInv.not_stopping (hd : StopInv d) (h : d.queue.stop = false) :
    d.writer.stopping = false := by
  by_contra hstop
  have hdropped := (hd.stopping (Bool.eq_true_of_not_eq_false hstop)).1
  rw [h] at hdropped
  cases hdropped

omit [DecidableEq τ] in
theorem StopInv.of_open (hd : StopInv d) (h : d.queue.stop = false) (hwriter : d'.writer = d.writer)
    (hqueue : d'.queue.stop = d.queue.stop) : StopInv d' where
  calls hstop := by
    rw [hqueue, h] at hstop
    cases hstop
  stopping hstop := by
    rw [hwriter, hd.not_stopping h] at hstop
    cases hstop
  yield := hwriter ▸ hd.yield

theorem ClientStep.stopInv (h : ClientStep t d pc d' pc') (hcalls : pc ≠ .idle → t ∈ d.calls)
    (hd : StopInv d) : StopInv d' := by
  have hbusy : pc ≠ .idle → d.queue.stop = false := by
    intro hpc
    by_contra hstop
    have hmem := hcalls hpc
    rw [hd.calls (Bool.eq_true_of_not_eq_false hstop)] at hmem
    exact absurd hmem (Finset.notMem_empty t)
  cases h with
  | addChunk _ _ hopen | addChunks _ _ hopen | access _ hopen | gcExpired _ _ hopen
  | gcLru _ hopen => exact hd.of_open hopen rfl rfl
  | _ => exact hd.of_open (hbusy (by simp)) rfl rfl

/-- When no call is in progress nothing is left to the writer. -/
theorem WriterStep.stopInv (h : WriterStep e d d') (hquiet : d.calls = ∅ → d.outstanding = [])
    (hd : StopInv d) : StopInv d' := by
  have hlast : d.writer.stopping = true → d.outstanding = [] := fun hstop =>
    hquiet (hd.calls (hd.stopping hstop).1)
  have hstopping := hd.stopping
  cases h with
  | drop hcalls =>
    exact ⟨fun _ => hcalls, fun hstop => ⟨rfl, (hd.stopping hstop).2⟩, hd.yield⟩
  | foreign => exact ⟨hd.calls, hd.stopping, hd.yield⟩
  | drain access hpc =>
    exact ⟨hd.calls, fun hstop => ⟨hstop, rfl⟩, by simp⟩
  | nextTurn =>
    exact ⟨hd.calls, fun hstop => absurd hstop Bool.false_ne_true, by simp [Db.goto]⟩
  | exit hpc hstop =>
    rw [hpc] at hstopping
    exact ⟨hd.calls, fun _ => hstopping hstop, by simp [Db.goto]⟩
  | enqueue hpc =>
    refine ⟨hd.calls, fun hstop => ?_, by simp [Db.goto]⟩
    have hnil := hlast (hpc ▸ hstop)
    rw [Db.outstanding, hpc] at hnil
    cases hnil
  | yield hpc _ hqueued =>
    refine ⟨hd.calls, fun hstop => hstopping (hpc ▸ hstop), fun w rest heq => ?_⟩
    obtain ⟨rfl, rfl⟩ := WriterPc.yield.inj heq
    by_contra hstop
    have hnil := hlast (by rw [hpc]; exact Bool.eq_true_of_not_eq_false hstop)
    simp only [Db.outstanding, List.append_eq_nil_iff] at hnil
    exact hqueued.elim (absurd hnil.1.2.2) (absurd hnil.2.2.2)
  | enqueueRest hpc =>
    refine ⟨hd.calls, fun hstop => ?_, by simp [Db.goto, Db.enqueueAccessMany]⟩
    have hno := hd.yield _ _ hpc
    exact absurd (hno.symm.trans hstop) Bool.false_ne_true
  | _ =>
    rw [‹d.writer = _›] at hstopping
    exact ⟨hd.calls, hstopping, by simp [Db.goto]⟩

/-! ### Accesses -/

/-- The access was enqueued and passed to no transaction since. -/
def Uncommitted (events : List AccessEvent) (cs : CheckSumOnDisk) : Prop :=
  ∃ before after, events = before ++ .enqueued cs :: after ∧
    ∀ batch, .committed batch ∈ after → cs ∉ batch

theorem uncommitted_append {events more : List AccessEvent} {cs : CheckSumOnDisk}
    (h : Uncommitted (events ++ more) cs) :
    (Uncommitted events cs ∧ ∀ batch, .committed batch ∈ more → cs ∉ batch) ∨
      .enqueued cs ∈ more := by
  obtain ⟨before, after, heq, hno⟩ := h
  rcases List.append_eq_append_iff.mp heq with ⟨mid, -, hmore⟩ | ⟨mid, hevents, hmid⟩
  · refine Or.inr ?_
    rw [hmore]
    exact List.mem_append_right _ List.mem_cons_self
  · cases mid with
    | nil =>
      refine Or.inr ?_
      rw [List.nil_append] at hmid
      rw [← hmid]
      exact List.mem_cons_self
    | cons first mid =>
      obtain ⟨rfl, rfl⟩ := List.cons.inj hmid
      exact Or.inl ⟨⟨before, mid, hevents, fun batch hb => hno batch (List.mem_append_left _ hb)⟩,
        fun batch hb => hno batch (List.mem_append_right _ hb)⟩

/-- Accesses on their way are those enqueued and not committed since. -/
def AccessInv (d : Db τ) : Prop := ∀ cs, Uncommitted d.history.accesses cs → d.Pending cs

theorem accessInv_enqueue {events : List AccessEvent} {keys : List CheckSumOnDisk}
    {cs : CheckSumOnDisk} (h : Uncommitted (events ++ keys.map .enqueued) cs) :
    Uncommitted events cs ∨ cs ∈ keys := by
  rcases uncommitted_append h with ⟨hold, -⟩ | hnew
  · exact Or.inl hold
  · obtain ⟨key, hkey, heq⟩ := List.mem_map.mp hnew
    exact Or.inr (AccessEvent.enqueued.inj heq ▸ hkey)

theorem ClientStep.accessInv (h : ClientStep t d pc d' pc') (hd : AccessInv d) : AccessInv d' := by
  intro cs hcs
  have hpending := fun hold => h.pending (hd cs hold)
  cases h with
  | access =>
    rcases accessInv_enqueue hcs with hold | hnew
    · exact hpending hold
    · exact Or.inl (Finset.mem_union_right _ (List.mem_toFinset.mpr hnew))
  | _ => exact hpending hcs

theorem WriterStep.accessInv (h : WriterStep e d d') (hd : AccessInv d) : AccessInv d' := by
  intro cs hcs
  have hpending := fun hold => h.pending (hd cs hold)
  cases h with
  | enqueue | enqueueRest =>
    rcases accessInv_enqueue hcs with hold | hnew
    · exact (hpending hold).resolve_right (by simp)
    · exact Or.inl (Finset.mem_union_right _ (List.mem_toFinset.mpr hnew))
  | commitAccess hpc | accessError hpc =>
    -- what leaves the pending accesses is in the batch
    obtain ⟨hold, hno⟩ := (uncommitted_append hcs).resolve_right (by simp)
    refine (hpending hold).resolve_right ?_
    rintro ⟨-, w, now, rest, hpc', hmem⟩
    obtain ⟨-, -, rfl⟩ := WriterPc.access.inj (hpc.symm.trans hpc')
    exact hno _ (List.mem_singleton_self _) hmem
  | _ => exact (hpending hcs).resolve_right (by simp)

/-! ### Every run -/

/-- What holds of the shared state in every run. -/
structure LedgerInv (d : Db τ) : Prop where
  accounts : Accounts d
  stop : StopInv d
  access : AccessInv d

variable {foreign : Txn → Prop} {start : Store → (CheckSum → Bool) → Prop}
  {c : Config τ (Db τ) ClientPc}

theorem outstanding_eq_nil (h : ∀ t, Waits t c.shared (c.loc t)) (hcalls : c.shared.calls = ∅) :
    c.shared.outstanding = [] := by
  refine List.eq_nil_iff_forall_not_mem.mpr fun req hreq => ?_
  have hpos := Db.owed_pos hreq
  rw [(h req.client).owed] at hpos
  have hmem := (h req.client).calls fun hidle => by simp [hidle, ClientPc.waiting] at hpos
  rw [hcalls] at hmem
  exact absurd hmem (Finset.notMem_empty _)

theorem ledger_holds (hc : (program τ foreign start).toSystem.Reachable c) :
    Program.Holds LedgerInv Waits c := by
  refine Program.invariant (P := program τ foreign start) (fun c hinit => ?_)
    (fun c t d' pc' h _ hstep => ?_) (fun c t u d' pc' h _ hu hstep => hstep.waits_of_ne hu (h.2 u))
    (fun c e d' h _ hstep => ?_) hc
  · obtain ⟨hqueue, hwriter, hcalls, hreplies, hhistory, -, hidle⟩ := hinit
    refine ⟨⟨⟨?_, ?_, ?_, ?_⟩, ⟨fun _ => hcalls, fun hstop => ?_, ?_⟩, fun cs hcs => ?_⟩,
      fun t => ⟨?_, fun hne => absurd (hidle t) hne⟩⟩
    · simp [hqueue, hwriter, hhistory, WriterPc.takenHigh]
    · simp [hqueue, hwriter, hhistory, WriterPc.takenMedium]
    · simp [hwriter, hhistory, WriterPc.currentHigh]
    · simp [hwriter, hhistory, WriterPc.currentMedium]
    · simp [hwriter, WriterPc.stopping] at hstop
    · simp [hwriter]
    · obtain ⟨before, after, heq, -⟩ := hcs
      simp [hhistory] at heq
    · simp [Db.owed, Db.outstanding, hqueue, hwriter, hreplies, hidle t, ClientPc.waiting,
        WriterPc.takenHigh, WriterPc.takenMedium, WriterPc.currentHigh, WriterPc.currentMedium]
  · have hstep' : ClientStep t c.shared (c.loc t) d' pc' := hstep
    exact ⟨⟨hstep'.accounts h.1.accounts, hstep'.stopInv (h.2 t).calls h.1.stop,
      hstep'.accessInv h.1.access⟩, hstep'.waits (h.2 t)⟩
  · have hstep' : WriterStep e c.shared d' := hstep.1
    exact ⟨⟨hstep'.accounts h.1.accounts, hstep'.stopInv (outstanding_eq_nil h.2) h.1.stop,
      hstep'.accessInv h.1.access⟩, fun u => hstep'.waits (h.2 u)⟩

/-! ### Turns end -/

/-- The event is a step of the writer. -/
def WriterEvent.ByWriter : WriterEvent → Prop
  | .drop | .foreign _ => False
  | _ => True

/-- Four numbers in lexicographic order. -/
def rankOf (a b c d : ℕ) : ℕ ×ₗ ℕ ×ₗ ℕ ×ₗ ℕ := toLex (a, toLex (b, toLex (c, d)))

theorem rankOf_lt {a b c d a' b' c' d' : ℕ} : rankOf a b c d < rankOf a' b' c' d' ↔
    a < a' ∨ a = a' ∧ (b < b' ∨ b = b' ∧ (c < c' ∨ c = c' ∧ d < d')) := by
  simp only [rankOf, Prod.Lex.toLex_lt_toLex]

/-- The requests left in this turn. -/
def Work.left (w : Work τ) : ℕ := 3 * w.high.length + 3 * w.medium.length

/-- What is left of a turn: the requests, the transactions of the current addition, the index
entries it can still evict, and the steps to its next transaction. -/
def WriterPc.rank (entries : ℕ) : WriterPc τ → ℕ ×ₗ ℕ ×ₗ ℕ ×ₗ ℕ
  | .top | .exited => rankOf 0 0 0 0
  | .high w => rankOf (w.left + 10) 0 0 0
  | .stored w _ _ todo => rankOf (w.left + 12) todo.length entries 4
  | .registered w _ _ todo => rankOf (w.left + 12) todo.length entries 3
  | .evicted w _ todo _ => rankOf (w.left + 12) todo.length entries 2
  | .put w _ todo => rankOf (w.left + 12) todo.length entries 1
  | .mapFull w _ todo => rankOf (w.left + 12) todo.length entries 0
  | .replyHigh w _ _ => rankOf (w.left + 11) 0 0 0
  | .medium w => rankOf (3 * w.medium.length + 5) 0 0 0
  | .delete w _ _ _ => rankOf (3 * w.medium.length + 7) 0 0 0
  | .replyMedium w _ _ => rankOf (3 * w.medium.length + 6) 0 0 0
  | .access _ _ rest => rankOf 4 rest.length 0 0
  | .between _ _ rest => if rest = [] then rankOf 3 0 0 0 else rankOf 4 rest.length 1 0
  | .yield _ _ => rankOf 3 0 0 0
  | .finish _ => rankOf 2 0 0 0

/-- The rank of the writer's turn. -/
def Db.rank (d : Db τ) : ℕ ×ₗ ℕ ×ₗ ℕ ×ₗ ℕ := d.writer.rank d.store.index.card

omit [DecidableEq τ] in
/-- A batch of access updates is not empty while there are some left. -/
theorem rank_between_lt (w w' : Work τ) (now now' entries entries' : ℕ)
    (rest : List CheckSumOnDisk) :
    (WriterPc.between w now (rest.drop accessBatchSize)).rank entries <
      (WriterPc.access w' now' rest).rank entries' := by
  simp only [WriterPc.rank]
  split_ifs with hnil
  · rw [rankOf_lt]
    omega
  · have hlt := List.length_pos_iff.mpr hnil
    refine rankOf_lt.mpr (Or.inr ⟨rfl, Or.inl ?_⟩)
    rw [List.length_drop, accessBatchSize] at hlt ⊢
    omega

/-- Every step of the writer within a turn lowers the rank. -/
theorem WriterStep.rank_lt (h : WriterStep e d d') (hmove : e.ByWriter) (htop : d.writer ≠ .top) :
    d'.rank < d.rank := by
  cases h with
  | drain access hpc => exact absurd hpc htop
  | drop | foreign => exact hmove.elim
  | takeAdd hpc htaken | highDone hpc htaken | takeDelete hpc htaken | accessNone hpc htaken
  | accessStart _ hpc htaken =>
    simp only [Db.rank, WriterPc.rank, Db.goto, Db.executeHigh, Db.executeMedium, Work.left, hpc,
      htaken, List.length_cons, List.length_nil]
    rw [rankOf_lt]
    omega
  | evict hpc hne =>
    have hcard := Store.card_index_gcLruDirect_lt hne
    simp only [Db.rank, WriterPc.rank, Db.goto, Db.withStore, hpc]
    rw [rankOf_lt]
    omega
  | commitAccess hpc | accessError hpc =>
    simp only [Db.rank, Db.goto, hpc]
    exact rank_between_lt ..
  | nextAccess hpc hrest | yield hpc hrest =>
    simp only [Db.rank, WriterPc.rank, Db.goto, hpc, if_neg hrest]
    rw [rankOf_lt]
    omega
  | _ =>
    simp only [Db.rank, WriterPc.rank, Db.goto, Db.withStore, Db.registerChunks,
      Db.unregisterChunks, Db.enqueueAccessMany, Db.sendReply, Db.noteRepliedHigh,
      Db.noteRepliedMedium, Db.noteDeletions, ‹d.writer = _›, List.length_cons,
      List.length_nil, Store.index_putAll, if_true]
    rw [rankOf_lt]
    omega

/-! ### Requests get through -/

/-- The number of additions the writer took so far. -/
def Db.startedHigh (d : Db τ) : ℕ := d.history.executedHigh.length + d.writer.takenHigh.length

/-- The number of deletions the writer took so far. -/
def Db.startedMedium (d : Db τ) : ℕ :=
  d.history.executedMedium.length + d.writer.takenMedium.length

theorem ClientStep.started (h : ClientStep t d pc d' pc') :
    d'.startedHigh = d.startedHigh ∧ d'.startedMedium = d.startedMedium := by
  cases h <;> exact ⟨rfl, rfl⟩

theorem WriterStep.started (h : WriterStep e d d') :
    d.startedHigh ≤ d'.startedHigh ∧ d.startedMedium ≤ d'.startedMedium := by
  rw [Db.startedHigh, Db.startedMedium]
  cases h with
  | drop | foreign => exact ⟨le_rfl, le_rfl⟩
  | drain access hpc =>
    rw [hpc]
    exact ⟨Nat.le_add_right _ _, Nat.le_add_right _ _⟩
  | takeAdd hpc htaken | highDone hpc htaken | takeDelete hpc htaken | accessNone hpc htaken
  | accessStart _ hpc htaken =>
    simp only [Db.startedHigh, Db.startedMedium, Db.goto, Db.executeHigh, Db.executeMedium, hpc,
      WriterPc.takenHigh, WriterPc.takenMedium, htaken, List.length_append, List.length_cons,
      List.length_nil]
    omega
  | _ =>
    rw [‹d.writer = _›]
    exact ⟨le_rfl, le_rfl⟩

/-- A turn begins with everything that is queued. -/
theorem WriterStep.started_of_top (h : WriterStep e d d') (hd : Accounts d) (hmove : e.ByWriter)
    (htop : d.writer = .top) : d'.startedHigh = d.history.submittedHigh.length ∧
      d'.startedMedium = d.history.submittedMedium.length := by
  obtain ⟨hhigh, hmedium, -, -⟩ := hd
  rw [hhigh, hmedium, htop]
  cases h with
  | drain =>
    constructor
    · rw [List.length_append]
      rfl
    · rw [List.length_append]
      rfl
  | drop | foreign => exact hmove.elim
  | _ => exact absurd (htop.symm.trans ‹d.writer = _›) (by simp)

/-- The writer is between two turns, or has exited. -/
def WriterPc.BetweenTurns (pc : WriterPc τ) : Prop := pc = .top ∨ pc = .exited

omit [DecidableEq τ] in
/-- Between two turns everything taken was replied to. -/
theorem Accounts.replied (hd : Accounts d) (h : d.writer.BetweenTurns) :
    d.history.repliedHigh.length = d.startedHigh ∧
      d.history.repliedMedium.length = d.startedMedium := by
  obtain ⟨-, -, hexecHigh, hexecMedium⟩ := hd
  rw [Db.startedHigh, Db.startedMedium, hexecHigh, hexecMedium]
  rcases h with hpc | hpc
  · rw [hpc]
    simp [WriterPc.takenHigh, WriterPc.takenMedium, WriterPc.currentHigh, WriterPc.currentMedium]
  · rw [hpc]
    simp [WriterPc.takenHigh, WriterPc.takenMedium, WriterPc.currentHigh, WriterPc.currentMedium]

omit [DecidableEq τ] in
/-- When nothing is outstanding everything submitted was executed and replied to. -/
theorem Accounts.all_replied (hd : Accounts d) (hnil : d.outstanding = []) :
    d.history.repliedHigh = d.history.submittedHigh ∧
      d.history.repliedMedium = d.history.submittedMedium := by
  obtain ⟨hhigh, hmedium, hexecHigh, hexecMedium⟩ := hd
  simp only [Db.outstanding, List.append_eq_nil_iff] at hnil
  obtain ⟨⟨hch, hth, hqh⟩, hcm, htm, hqm⟩ := hnil
  rw [hhigh, hmedium, hexecHigh, hexecMedium, hch, hth, hqh, hcm, htm, hqm]
  simp

theorem ClientStep.submitted (h : ClientStep t d pc d' pc') :
    d.history.submittedHigh.length ≤ d'.history.submittedHigh.length ∧
      d.history.submittedMedium.length ≤ d'.history.submittedMedium.length := by
  cases h with
  | addChunk | addChunks =>
    simp only [Db.submitHigh, Db.enter, List.length_append]
    exact ⟨Nat.le_add_right _ _, le_rfl⟩
  | deleteKeys =>
    simp only [Db.submitMedium, List.length_append]
    exact ⟨le_rfl, Nat.le_add_right _ _⟩
  | _ => exact ⟨le_rfl, le_rfl⟩

/-- No step takes a request back. -/
theorem submitted_monotone {c c' : Config τ (Db τ) ClientPc} {a : τ ⊕ WriterEvent}
    (h : (program τ foreign start).toSystem.step c a c') :
    c.shared.history.submittedHigh.length ≤ c'.shared.history.submittedHigh.length ∧
      c.shared.history.submittedMedium.length ≤ c'.shared.history.submittedMedium.length := by
  cases h with
  | thread h => exact (show ClientStep _ _ _ _ _ from h).submitted
  | env h => cases h.1 <;> exact ⟨le_rfl, le_rfl⟩

theorem started_monotone {c c' : Config τ (Db τ) ClientPc} {a : τ ⊕ WriterEvent}
    (h : (program τ foreign start).toSystem.step c a c') :
    c.shared.startedHigh ≤ c'.shared.startedHigh ∧
      c.shared.startedMedium ≤ c'.shared.startedMedium := by
  cases h with
  | thread h =>
    have hsame := (show ClientStep _ _ _ _ _ from h).started
    exact ⟨hsame.1.ge, hsame.2.ge⟩
  | env h => exact h.1.started

/-- The step is one of the writer. -/
def WriterMoves : τ ⊕ WriterEvent → Prop
  | .inl _ => False
  | .inr e => e.ByWriter

/-- The writer moves again and again until it exits. -/
def Fair (r : (program τ alone start).toSystem.Run) : Prop :=
  ∀ n, (r.state n).shared.writer = .exited ∨ ∃ m, n ≤ m ∧ WriterMoves (r.act m)

section FairRun

variable {r : (program τ alone start).toSystem.Run}

/-- Every turn ends. -/
theorem turn_ends (hfair : Fair r) (n : ℕ) :
    ∃ m, n ≤ m ∧ (r.state m).shared.writer.BetweenTurns := by
  refine r.eventually (fun c => c.shared.rank) (fun c => c.shared.writer.BetweenTurns) WriterMoves
    (fun n hP => ?_) (fun n => ?_) n
  · have hstep := r.step n
    generalize r.state (n + 1) = c' at hstep ⊢
    generalize r.act n = a at hstep ⊢
    cases hstep with
    | thread h =>
      obtain ⟨hstore, -, hwriter⟩ := (show ClientStep _ _ _ _ _ from h).frame
      refine Or.inr ⟨?_, id⟩
      rw [Db.rank, Db.rank, hstore, hwriter]
    | env h =>
      rename_i e d'
      obtain ⟨henv, hforeign⟩ := h
      by_cases hmove : e.ByWriter
      · exact Or.inl (henv.rank_lt hmove fun htop => hP (Or.inl htop))
      · refine Or.inr ⟨?_, hmove⟩
        cases henv with
        | drop => rfl
        | foreign => exact (hforeign _ rfl).elim
        | _ => exact absurd trivial hmove
  · rcases hfair n with hexited | hmove
    · exact Or.inl (Or.inr hexited)
    · exact Or.inr hmove

/-- What was submitted is taken later on. -/
theorem eventually_started (hfair : Fair r) (n : ℕ) : ∃ m, n ≤ m ∧
    (r.state n).shared.history.submittedHigh.length ≤ (r.state m).shared.startedHigh ∧
    (r.state n).shared.history.submittedMedium.length ≤ (r.state m).shared.startedMedium := by
  obtain ⟨m, hnm, hbetween⟩ := turn_ends hfair n
  have hhigh := fun {k} (hk : m ≤ k) => r.monotone
    (fun c => c.shared.history.submittedHigh.length) (fun _ _ _ h => (submitted_monotone h).1)
    (hnm.trans hk)
  have hmedium := fun {k} (hk : m ≤ k) => r.monotone
    (fun c => c.shared.history.submittedMedium.length) (fun _ _ _ h => (submitted_monotone h).2)
    (hnm.trans hk)
  rcases hbetween with htop | hexited
  · -- the next move of the writer takes what is queued
    have hkeep : ∀ k, (r.state k).shared.writer = .top → ¬WriterMoves (r.act k) →
        (r.state (k + 1)).shared.writer = .top := by
      intro k hk hno
      have hstep := r.step k
      generalize r.state (k + 1) = c' at hstep ⊢
      generalize r.act k = a at hstep hno
      cases hstep with
      | thread h => exact (show ClientStep _ _ _ _ _ from h).frame.2.2.trans hk
      | env h =>
        cases h.1 with
        | drop | foreign => exact hk
        | _ => exact absurd trivial hno
    obtain ⟨k', hmk', hmove⟩ := (hfair m).resolve_left (by simp [htop])
    obtain ⟨k, hmk, hmove, hk⟩ :=
      r.until_move (fun c => c.shared.writer = .top) hkeep hmk' hmove htop
    have hinv := (ledger_holds (r.reachable k)).1.accounts
    have hstep := r.step k
    have hhigh := hhigh hmk
    have hmedium := hmedium hmk
    refine ⟨k + 1, by omega, ?_⟩
    generalize r.state (k + 1) = c' at hstep ⊢
    generalize r.act k = a at hstep hmove
    cases hstep with
    | thread h => exact hmove.elim
    | env h =>
      obtain ⟨hall, hall'⟩ := h.1.started_of_top hinv hmove hk
      exact ⟨hall ▸ hhigh, hall' ▸ hmedium⟩
  · have hholds := ledger_holds (r.reachable m)
    have hstop := (hholds.1.stop.stopping (by rw [hexited]; rfl)).1
    have hnil := outstanding_eq_nil hholds.2 (hholds.1.stop.calls hstop)
    obtain ⟨hall, hall'⟩ := hholds.1.accounts.all_replied hnil
    obtain ⟨hstarted, hstarted'⟩ := hholds.1.accounts.replied (Or.inr hexited)
    rw [hall] at hstarted
    rw [hall'] at hstarted'
    exact ⟨m, hnm, hstarted ▸ hhigh le_rfl, hstarted' ▸ hmedium le_rfl⟩

/-- Every request is replied to, in every run in which the writer keeps moving. -/
theorem eventually_replied (hfair : Fair r) (n : ℕ) : ∃ m, n ≤ m ∧
    (r.state n).shared.history.submittedHigh.length ≤
      (r.state m).shared.history.repliedHigh.length ∧
    (r.state n).shared.history.submittedMedium.length ≤
      (r.state m).shared.history.repliedMedium.length := by
  obtain ⟨k, hnk, hhigh, hmedium⟩ := eventually_started hfair n
  obtain ⟨m, hkm, hbetween⟩ := turn_ends hfair k
  obtain ⟨hreplied, hreplied'⟩ := (ledger_holds (r.reachable m)).1.accounts.replied hbetween
  have hmono := r.monotone (fun c => c.shared.startedHigh) (fun _ _ _ h => (started_monotone h).1)
    hkm
  have hmono' := r.monotone (fun c => c.shared.startedMedium)
    (fun _ _ _ h => (started_monotone h).2) hkm
  exact ⟨m, hnk.trans hkm, by rw [hreplied]; exact hhigh.trans hmono,
    by rw [hreplied']; exact hmedium.trans hmono'⟩

end FairRun

/-! ### The writer is never stuck -/

/-- Additions are in the first queue and deletions in the second. -/
structure Sorted (h : History τ) : Prop where
  high : ∀ req ∈ h.submittedHigh, ∃ todo, req.op.subBatches = some todo
  medium : ∀ req ∈ h.submittedMedium, ∃ keys cutoff, req.op = .deleteKeys keys cutoff

theorem ClientStep.sorted (h : ClientStep t d pc d' pc') (hd : Sorted d.history) :
    Sorted d'.history := by
  cases h with
  | addChunk | addChunks =>
    refine ⟨fun req hreq => ?_, hd.medium⟩
    rcases List.mem_append.mp hreq with hold | hnew
    · exact hd.high req hold
    · rw [List.mem_singleton.mp hnew]
      exact ⟨_, rfl⟩
  | deleteKeys =>
    refine ⟨hd.high, fun req hreq => ?_⟩
    rcases List.mem_append.mp hreq with hold | hnew
    · exact hd.medium req hold
    · rw [List.mem_singleton.mp hnew]
      exact ⟨_, _, rfl⟩
  | _ => exact ⟨hd.high, hd.medium⟩

theorem sorted_holds (hc : (program τ foreign start).toSystem.Reachable c) :
    Sorted c.shared.history := by
  refine System.Reach.invariant (I := fun c => Sorted c.shared.history) (fun c hinit => ?_)
    (fun c a c' h _ hstep => ?_) hc
  · obtain ⟨-, -, -, -, hhistory, -⟩ := hinit
    rw [hhistory]
    exact ⟨fun _ h => absurd h List.not_mem_nil, fun _ h => absurd h List.not_mem_nil⟩
  · cases hstep with
    | thread hstep => exact ClientStep.sorted hstep h
    | env hstep =>
      cases hstep.1 with
      | drop | foreign => exact h
      | _ => exact ⟨h.high, h.medium⟩

/-- The writer can move until it exits; it never meets a request of the wrong kind. -/
theorem writer_moves (hc : (program τ foreign start).toSystem.Reachable c)
    (hpc : c.shared.writer ≠ .exited) : ∃ e d', WriterStep e c.shared d' ∧ e.ByWriter := by
  have haccounts := (ledger_holds hc).1.accounts
  have hsorted := sorted_holds hc
  have hhigh : ∀ req ∈ c.shared.writer.takenHigh, ∃ todo, req.op.subBatches = some todo := by
    intro req hreq
    refine hsorted.high req ?_
    rw [haccounts.submittedHigh]
    exact List.mem_append_right _ (List.mem_append_left _ hreq)
  have hmedium : ∀ req ∈ c.shared.writer.takenMedium,
      ∃ keys cutoff, req.op = .deleteKeys keys cutoff := by
    intro req hreq
    refine hsorted.medium req ?_
    rw [haccounts.submittedMedium]
    exact List.mem_append_right _ (List.mem_append_left _ hreq)
  cases hw : c.shared.writer with
  | top =>
    exact ⟨_, _, .drain c.shared.queue.accessPending.toList hw fun _ => Finset.mem_toList, trivial⟩
  | high w =>
    rw [hw] at hhigh
    cases htaken : w.high with
    | nil => exact ⟨_, _, .highDone hw htaken, trivial⟩
    | cons req rest =>
      obtain ⟨todo, htodo⟩ := hhigh req (by rw [WriterPc.takenHigh, htaken]; exact
        List.mem_cons_self)
      exact ⟨_, _, .takeAdd hw htaken htodo, trivial⟩
  | put w req todo =>
    cases todo with
    | nil => exact ⟨_, _, .allPut hw, trivial⟩
    | cons batch todo => exact ⟨_, _, .put hw, trivial⟩
  | stored w req batch todo => exact ⟨_, _, .register hw, trivial⟩
  | registered w req batch todo => exact ⟨_, _, .enqueue hw, trivial⟩
  | mapFull w req todo => exact ⟨_, _, .evictError hw, trivial⟩
  | evicted w req todo targets => exact ⟨_, _, .unregister hw, trivial⟩
  | replyHigh w req reply => exact ⟨_, _, .replyHigh hw, trivial⟩
  | medium w =>
    rw [hw] at hmedium
    cases htaken : w.medium with
    | nil =>
      by_cases haccess : w.access = []
      · exact ⟨_, _, .accessNone hw htaken haccess, trivial⟩
      · exact ⟨_, _, .accessStart 0 hw htaken haccess, trivial⟩
    | cons req rest =>
      obtain ⟨keys, cutoff, hop⟩ := hmedium req (by rw [WriterPc.takenMedium, htaken]; exact
        List.mem_cons_self)
      exact ⟨_, _, .takeDelete hw htaken hop, trivial⟩
  | delete w req keys cutoff => exact ⟨_, _, .deleteError hw, trivial⟩
  | replyMedium w req reply => exact ⟨_, _, .replyMedium hw, trivial⟩
  | access w now rest => exact ⟨_, _, .accessError hw, trivial⟩
  | between w now rest =>
    by_cases hrest : rest = []
    · subst hrest
      exact ⟨_, _, .accessDone hw, trivial⟩
    · by_cases hqueued : c.shared.queue.high = [] ∧ c.shared.queue.medium = []
      · exact ⟨_, _, .nextAccess hw hrest hqueued.1 hqueued.2, trivial⟩
      · exact ⟨_, _, .yield hw hrest (not_and_or.mp hqueued), trivial⟩
  | yield w rest => exact ⟨_, _, .enqueueRest hw, trivial⟩
  | finish w =>
    cases hstop : w.stop with
    | false => exact ⟨_, _, .nextTurn hw hstop, trivial⟩
    | true => exact ⟨_, _, .exit hw hstop, trivial⟩
  | exited => exact absurd hw hpc

/-! ### The result -/

/-- Requests are executed in the order of their submission, and replied to in the order of their
execution. -/
structure Orderly (h : History τ) : Prop where
  executedHigh : h.executedHigh <+: h.submittedHigh
  repliedHigh : h.repliedHigh <+: h.executedHigh
  executedMedium : h.executedMedium <+: h.submittedMedium
  repliedMedium : h.repliedMedium <+: h.executedMedium

/-- Every request was replied to, and every access was passed to a transaction after it was
enqueued. -/
structure Complete (h : History τ) : Prop where
  high : h.repliedHigh = h.submittedHigh
  medium : h.repliedMedium = h.submittedMedium
  accesses : ∀ before cs after, h.accesses = before ++ .enqueued cs :: after →
    ∃ batch, .committed batch ∈ after ∧ cs ∈ batch

omit [DecidableEq τ] in
theorem Accounts.orderly (hd : Accounts d) : Orderly d.history :=
  ⟨⟨_, hd.submittedHigh.symm⟩, ⟨_, hd.executedHigh.symm⟩, ⟨_, hd.submittedMedium.symm⟩,
    ⟨_, hd.executedMedium.symm⟩⟩

theorem complete_of_exited (hc : (program τ foreign start).toSystem.Reachable c)
    (hexited : c.shared.writer = .exited) : Complete c.shared.history := by
  obtain ⟨⟨haccounts, hstop, haccess⟩, hwaits⟩ := ledger_holds hc
  obtain ⟨hdropped, hempty⟩ := hstop.stopping (by rw [hexited]; rfl)
  obtain ⟨hhigh, hmedium⟩ :=
    haccounts.all_replied (outstanding_eq_nil hwaits (hstop.calls hdropped))
  refine ⟨hhigh, hmedium, fun before cs after heq => ?_⟩
  by_contra hno
  push Not at hno
  rcases haccess cs ⟨before, after, heq, hno⟩ with hqueued | htaken
  · exact absurd (hempty ▸ hqueued) (Finset.notMem_empty cs)
  · rw [hexited] at htaken
    exact absurd htaken List.not_mem_nil

end ChunkDb

end DistillFs
