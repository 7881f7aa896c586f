import DistillFs.Backend.ChunkDb.Collect

/-!
# Making room

The writer thread stores a chunk, or a batch of chunks, in one transaction. A put that finds the
database full ends the attempt; the writer then evicts the 128 least recently used chunks and tries
again, until the puts succeed, something fails, or there was nothing left to evict. Each eviction
that finds something takes 128 keys from the access index, or the last ones, so the number of
attempts is bounded by the number of these keys.

What the database answers is up to an environment: each attempt may be answered in any way, whether
or not there is room.

## Main definitions

* `PutAnswer`, `Attempt`: what the database answers to an attempt.
* `WriterThread.retryLoop`, `WriterThread.doAddChunk`, `WriterThread.doAddChunksSubBatch`.

## Main results

* `WriterThread.making_room_terminates`: the number of attempts and the result.
* `WriterThread.doAddChunksSubBatch_eq`: the calls of `add_chunks` are among those considered here.
-/

namespace DistillFs

open Foundation

/-- The answer to a put. -/
inductive PutAnswer
  | ok
  | mapFull
  | error (e : IoError)

/-- The answers to one attempt: to the start of the transaction, to its puts, to its commit, and to
the calls of the eviction. -/
structure Attempt where
  start : Option IoError
  put : ℕ → PutAnswer
  commit : Option IoError
  evict : ℕ → Option IoError

/-- The error was an answer of this attempt. -/
def Attempt.Reports (a : Attempt) (e : IoError) : Prop :=
  a.start = some e ∨ (∃ i, a.put i = .error e) ∨ a.commit = some e ∨ ∃ i, a.evict i = some e

/-- The errors of the calls that add chunks. -/
inductive AddError
  | mapFull
  | other (e : IoError)

/-- How a call ended. -/
structure AddOutcome where
  result : Except AddError Unit
  attempts : ℕ
  store : Store

/-- How a call ends that the database answers with `env`: after an attempt for every 128 keys of the
index, and one more; for lack of space only when nothing is left to evict; and with no other error
than one that the database answered. -/
structure AddOutcome.Ends (o : AddOutcome) (env : ℕ → Attempt) (s : Store) : Prop where
  attempts_le : o.attempts ≤ (s.index.card + (gcBatch - 1)) / gcBatch + 1
  emptied : o.result = .error .mapFull → o.store.index = ∅
  reported : ∀ e, o.result = .error (.other e) → ∃ i < o.attempts, (env i).Reports e

namespace WriterThread

/-- An eviction that succeeds takes as many keys from the index as it reports, and it reports as
many as it was asked for or all there are. -/
theorem gcLruDirect_ok {faults : ℕ → Option IoError} {n count : ℕ} {told : List CheckSum}
    {s s' : Store} (h : gcLruDirect faults n s = (.ok count, told, s')) :
    count = min (max n 1) s.index.card ∧ s'.index.card = s.index.card - count := by
  have hperm : s.iter.Perm s.index.sort := List.mergeSort_perm ..
  have hlen : (s.iter.take (max n 1)).length = min (max n 1) s.index.card := by
    rw [List.length_take, hperm.length_eq, Finset.length_sort]
  have hmem : ∀ key ∈ s.iter.take (max n 1), key ∈ s.index := fun key hkey =>
    (Finset.mem_sort _).mp (hperm.mem_iff.mp (List.mem_of_mem_take hkey))
  have hnodup : (s.iter.take (max n 1)).Nodup :=
    (hperm.nodup_iff.mpr (s.index.sort_nodup _)).sublist (List.take_sublist ..)
  unfold gcLruDirect at h
  split at h
  · cases h
  · dsimp only at h
    split_ifs at h with hnil
    · cases h
      rw [hnil, List.length_nil] at hlen
      exact ⟨hlen, (Nat.sub_zero _).symm⟩
    · split at h
      · cases h
      · cases h
        refine ⟨hlen, ?_⟩
        have hindex : (s.deleteKeys (s.iter.take (max n 1))).index =
            s.index \ (s.iter.take (max n 1)).toFinset := by
          ext key
          rw [Store.mem_index_deleteKeys, Finset.mem_sdiff, List.mem_toFinset]
        have hsub : (s.iter.take (max n 1)).toFinset ⊆ s.index := fun key hkey =>
          hmem key (List.mem_toFinset.mp hkey)
        rw [hindex, Finset.card_sdiff_of_subset hsub, List.toFinset_card_of_nodup hnodup]

/-- What the puts of a transaction come to. -/
def putAnswers : List Chunk → (ℕ → PutAnswer) → PutAnswer
  | [], _ => .ok
  | _ :: rest, put =>
    match put 0 with
    | .ok => putAnswers rest fun i => put (i + 1)
    | .mapFull => .mapFull
    | .error e => .error e

/-- The loop of the calls that add chunks. -/
def retryLoop (chunks : List Chunk) (env : ℕ → Attempt) (s : Store) : AddOutcome :=
  match (env 0).start with
  | some e => ⟨.error (.other e), 1, s⟩
  | none =>
    match putAnswers chunks (env 0).put with
    | .error e => ⟨.error (.other e), 1, s⟩
    | .ok =>
      match (env 0).commit with
      | some e => ⟨.error (.other e), 1, s⟩
      | none => ⟨.ok (), 1, s.putAll chunks⟩
    | .mapFull =>
      match _h : gcLruDirect (env 0).evict gcBatch s with
      | (.error e, _, s') => ⟨.error (.other e), 1, s'⟩
      | (.ok removed, _, s') =>
        if _hr : removed = 0 then ⟨.error .mapFull, 1, s'⟩
        else
          let o := retryLoop chunks (fun i => env (i + 1)) s'
          { o with attempts := o.attempts + 1 }
  termination_by s.index.card
  decreasing_by
    obtain ⟨hcount, hcard⟩ := gcLruDirect_ok _h
    omega

/-- `do_add_chunk`. -/
def doAddChunk (cs : CheckSum) (data : List UInt8) : (ℕ → Attempt) → Store → AddOutcome :=
  retryLoop [(cs, data)]

/-- `do_add_chunks_sub_batch`. -/
def doAddChunksSubBatch (batch : List Chunk) : (ℕ → Attempt) → Store → AddOutcome :=
  retryLoop batch

variable {chunks : List Chunk} {env : ℕ → Attempt} {s : Store}

theorem exists_of_putAnswers_error {put : ℕ → PutAnswer} {e : IoError}
    (h : putAnswers chunks put = .error e) : ∃ i, put i = .error e := by
  induction chunks generalizing put with
  | nil => cases h
  | cons c rest ih =>
    rw [putAnswers] at h
    split at h
    · obtain ⟨i, hi⟩ := ih h
      exact ⟨i + 1, hi⟩
    · cases h
    · next e' he' => exact ⟨0, he'.trans h⟩

theorem exists_of_gcLruDirect_error {faults : ℕ → Option IoError} {n : ℕ} {s s' : Store}
    {e : IoError} {told : List CheckSum} (h : gcLruDirect faults n s = (.error e, told, s')) :
    ∃ i, faults i = some e := by
  unfold gcLruDirect at h
  split at h
  · next e' he' =>
    cases h
    exact ⟨0, he'⟩
  · dsimp only at h
    split_ifs at h with hnil
    · cases h
    · split at h
      · next e' he' =>
        cases h
        exact ⟨1, he'⟩
      · cases h

/-- An attempt that is the last one and fails with what the database answered. -/
theorem ends_of_reported {s' : Store} {e : IoError} (h : (env 0).Reports e) :
    (AddOutcome.mk (.error (.other e)) 1 s').Ends env s where
  attempts_le := Nat.le_add_left 1 _
  emptied h := by cases h
  reported e' he' := by
    cases he'
    exact ⟨0, Nat.one_pos, h⟩

theorem retryLoop_ends (chunks : List Chunk) (env : ℕ → Attempt) (s : Store) :
    (retryLoop chunks env s).Ends env s := by
  fun_induction retryLoop chunks env s with
  | case1 env s e hstart => exact ends_of_reported (Or.inl hstart)
  | case2 env s hstart e hput =>
    exact ends_of_reported (Or.inr (Or.inl (exists_of_putAnswers_error hput)))
  | case3 env s hstart hput e hcommit =>
    exact ends_of_reported (Or.inr (Or.inr (Or.inl hcommit)))
  | case4 env s hstart hput hcommit => exact ⟨Nat.le_add_left 1 _, nofun, nofun⟩
  | case5 env s hstart hput e told s' hevict =>
    exact ends_of_reported (Or.inr (Or.inr (Or.inr (exists_of_gcLruDirect_error hevict))))
  | case6 env s hstart hput told s' hevict =>
    obtain ⟨hcount, hcard⟩ := gcLruDirect_ok hevict
    refine ⟨Nat.le_add_left 1 _, fun _ => ?_, nofun⟩
    have hzero : s'.index.card = 0 := by omega
    exact Finset.card_eq_zero.mp hzero
  | case7 env s hstart hput removed told s' hevict hr o ih =>
    obtain ⟨hcount, hcard⟩ := gcLruDirect_ok hevict
    refine ⟨?_, ih.emptied, fun e he => ?_⟩
    · -- the eviction took 128 keys, or all there were
      have hle := ih.attempts_le
      change (retryLoop chunks (fun i => env (i + 1)) s').attempts + 1 ≤ _
      rw [gcBatch] at *
      omega
    · obtain ⟨i, hi, hrep⟩ := ih.reported e he
      exact ⟨i + 1, Nat.succ_lt_succ hi, hrep⟩

/-- **Making room.** Whatever the database answers, the calls that add chunks end: after at most one
attempt for every 128 keys of the access index and one more, with `Ok`, with `MapFull` when nothing
is left to evict, or with an error that the database answered. -/
theorem making_room_terminates (env : ℕ → Attempt) (s : Store) :
    (∀ cs data, (doAddChunk cs data env s).Ends env s) ∧
      ∀ batch, (doAddChunksSubBatch batch env s).Ends env s :=
  ⟨fun cs data => retryLoop_ends [(cs, data)] env s, fun batch => retryLoop_ends batch env s⟩

/-! ### The calls of `add_chunks` -/

/-- The answers in which attempts fail for lack of space at some puts, until one commits. -/
def answers (full : List ℕ) (i : ℕ) : Attempt where
  start := none
  put j := if full[i]? = some j then .mapFull else .ok
  commit := none
  evict _ := none

theorem putAnswers_ok {put : ℕ → PutAnswer} (h : ∀ i, put i = .ok) :
    putAnswers chunks put = .ok := by
  induction chunks generalizing put with
  | nil => rfl
  | cons c rest ih =>
    rw [putAnswers, h 0]
    exact ih fun i => h (i + 1)

theorem putAnswers_mapFull {put : ℕ → PutAnswer} {i : ℕ} (hi : i < chunks.length)
    (hfull : put i = .mapFull) (hbefore : ∀ j < i, put j = .ok) :
    putAnswers chunks put = .mapFull := by
  induction chunks generalizing put i with
  | nil => cases hi
  | cons c rest ih =>
    rw [putAnswers]
    cases i with
    | zero => rw [hfull]
    | succ i =>
      rw [hbefore 0 (Nat.zero_lt_succ i)]
      exact ih (Nat.lt_of_succ_lt_succ hi) hfull fun j hj => hbefore (j + 1) (Nat.succ_lt_succ hj)

/-- The loop after an attempt that made room. -/
theorem retryLoop_of_mapFull {s' : Store} {removed : ℕ} {told : List CheckSum}
    (hstart : (env 0).start = none) (hput : putAnswers chunks (env 0).put = .mapFull)
    (hevict : gcLruDirect (env 0).evict gcBatch s = (.ok removed, told, s')) (hr : removed ≠ 0) :
    retryLoop chunks env s =
      { retryLoop chunks (fun i => env (i + 1)) s' with
        attempts := (retryLoop chunks (fun i => env (i + 1)) s').attempts + 1 } := by
  rw [retryLoop, hstart]
  dsimp only
  rw [hput]
  dsimp only
  split
  · next heq => cases hevict.symm.trans heq
  · next heq =>
    cases hevict.symm.trans heq
    rw [dif_neg hr]

/-- The calls of `add_chunks` are calls for some answers of the database. -/
theorem doAddChunksSubBatch_eq {batch : List Chunk} {full : List ℕ} {s s' : Store}
    (htimes : s.Timed) (h : s.doAddChunksSubBatch batch full = some s') :
    doAddChunksSubBatch batch (answers full) s = ⟨.ok (), full.length + 1, s'⟩ := by
  induction full generalizing s with
  | nil =>
    obtain rfl := Option.some.inj h
    have hput : putAnswers batch (answers [] 0).put = .ok := putAnswers_ok fun _ => rfl
    rw [doAddChunksSubBatch, retryLoop, hput]
    rfl
  | cons i full ih =>
    rw [Store.doAddChunksSubBatch] at h
    split_ifs at h with hfull
    obtain ⟨habsent, hne⟩ := hfull
    have hlt : i < batch.length := by
      by_contra hge
      rw [Store.absentAt, List.getElem?_eq_none (not_lt.mp hge)] at habsent
      cases habsent
    have hput : putAnswers batch (answers (i :: full) 0).put = .mapFull :=
      putAnswers_mapFull hlt (if_pos rfl) fun j hj =>
        if_neg fun heq => hj.ne' (Option.some.inj heq)
    have hevict : gcLruDirect (answers (i :: full) 0).evict gcBatch s =
        (.ok (s.scanLru gcBatch).length, (s.scanLru gcBatch).map fun key => key.cs.checkSum,
          s.gcLruDirect gcBatch) := by
      rw [gcLruDirect, Store.iter_eq_sort htimes]
      exact if_neg hne
    have hremoved : (s.scanLru gcBatch).length ≠ 0 := fun hzero =>
      hne (List.length_eq_zero_iff.mp hzero)
    have hnext : doAddChunksSubBatch batch (fun i' => answers (i :: full) (i' + 1))
        (s.gcLruDirect gcBatch) = ⟨.ok (), full.length + 1, s'⟩ :=
      ih (fun key hkey => htimes key (Store.mem_index_deleteKeys.mp hkey).1) h
    rw [doAddChunksSubBatch] at hnext
    rw [doAddChunksSubBatch, retryLoop_of_mapFull rfl hput hevict hremoved, hnext]
    rfl

end WriterThread

end DistillFs
