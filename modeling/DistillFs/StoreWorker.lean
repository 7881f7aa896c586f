import DistillFs.Foundation.SyncChannel
import DistillFs.ChunkWriters

/-!
# The worker of a nydus image

The reads of a nydus image hand chunks to a worker over a bounded channel; if the channel is full, a
chunk is dropped. The worker waits for a chunk, takes what else there is up to the size of a batch,
and adds the batch to the chunk database. The image drops the sender, and waits for the worker to
come to its end, when it is dropped itself.

A call to `add_chunks` returns, with or without an error, and the worker goes on in either case.

## Main definitions

* `ChunkStoreWorker`, `ChunkStoreWorker.runStep`: the worker, and one step of `run`.
* `storeSystem`: the worker beside the reads of the image and its `Drop`.
* `ChunkStoreWorker.HandsOver`: what the worker does with the chunks that were accepted.

## Main results

* `ChunkStoreWorker.handsOver`: it adds all of them, in order and in batches, and then ends.
* `ChunkStoreWorker.runStep_recv`: it is the worker among the writers of the database.
-/

namespace DistillFs

open Foundation

/-- The room in the channel to the worker of a nydus image. -/
def chunkStoreReqBufSize : ℕ := 4096

structure ChunkStoreRequest where
  checksum : CheckSum
  data : List UInt8

/-- The entry for `add_chunks`. -/
def ChunkStoreRequest.chunk (req : ChunkStoreRequest) : Chunk := (req.checksum, req.data)

/-- Where `run` stands: before `recv`, before the condition of the inner loop, or before the batch
is added. -/
inductive StorePc
  | recv
  | collect
  | process
  | ended
  deriving DecidableEq

/-- The worker, with its end of the channel. -/
structure ChunkStoreWorker where
  rx : SyncChannel ChunkStoreRequest chunkStoreReqBufSize
  pc : StorePc
  batch : List CheckSum
  batchData : List (List UInt8)
  /-- The arguments of the calls to `add_chunks`. -/
  added : List (List Chunk)

namespace ChunkStoreWorker

/-- The worker of an image that is made. -/
def new : ChunkStoreWorker := ⟨.new _ _, .recv, [], [], []⟩

variable (s : ChunkStoreWorker)

/-- Push a request that was received. -/
def push (req : ChunkStoreRequest) (rx : SyncChannel ChunkStoreRequest chunkStoreReqBufSize) :
    ChunkStoreWorker :=
  { s with
    rx := rx
    pc := .collect
    batch := s.batch ++ [req.checksum]
    batchData := s.batchData ++ [req.data] }

/-- Call `add_chunks` with the batch, which is drained. -/
def addChunks : ChunkStoreWorker :=
  { s with
    batch := []
    batchData := []
    added := s.added ++ [s.batch.zip s.batchData] }

/-- A step of `run`; `none` while it is blocked, and after its end. -/
def runStep : Option ChunkStoreWorker :=
  match s.pc with
  | .recv =>
    match s.rx.recv with
    | none => none
    | some (some (req, rx)) => some (s.push req rx)
    -- what is left in the batch after the loop
    | some none => some { (if s.batch.isEmpty then s else s.addChunks) with pc := .ended }
  | .collect =>
    if s.batch.length < chunkStoreBatchSize then
      match s.rx.tryRecv with
      | .ok (req, rx) => some (s.push req rx)
      | .error .empty => some { s with pc := .process }
      | .error .disconnected => some { s with pc := .process }
    else some { s with pc := .process }
  | .process => some { s.addChunks with pc := .recv }
  | .ended => none

end ChunkStoreWorker

/-- What happens: a read of the image hands a chunk over, the image is dropped, or the worker makes
a step. -/
inductive StoreEvent
  | storeChunkBg (req : ChunkStoreRequest)
  | drop
  | run

/-- The steps. The reads of an image are over when it is dropped. -/
inductive StoreStep : ChunkStoreWorker → StoreEvent → ChunkStoreWorker → Prop
  | storeChunkBg {s : ChunkStoreWorker} (req : ChunkStoreRequest) (h : s.rx.connected = true) :
      StoreStep s (.storeChunkBg req) { s with rx := s.rx.trySend req }
  | drop {s : ChunkStoreWorker} (h : s.rx.connected = true) :
      StoreStep s .drop { s with rx := s.rx.disconnect }
  | run {s s' : ChunkStoreWorker} (h : s.runStep = some s') : StoreStep s .run s'

/-- The worker beside the image. -/
def storeSystem : System ChunkStoreWorker StoreEvent where
  init s := s = .new
  step := StoreStep

namespace ChunkStoreWorker

variable (s : ChunkStoreWorker)

/-- The chunks that are accepted and not added. -/
def pending : List Chunk :=
  s.batch.zip s.batchData ++ s.rx.buffer.map ChunkStoreRequest.chunk

/-- What the worker does with the chunks that were accepted. -/
structure HandsOver : Prop where
  /-- They are added in their order, or wait to be added. -/
  added_pending : s.added.flatten ++ s.pending = s.rx.accepted.map ChunkStoreRequest.chunk
  length_mem : ∀ chunks ∈ s.added, 1 ≤ chunks.length ∧ chunks.length ≤ chunkStoreBatchSize
  /-- They are all added when the worker has ended. -/
  added_eq : s.pc = .ended → s.added.flatten = s.rx.accepted.map ChunkStoreRequest.chunk
  /-- The worker ends when the sender is dropped. -/
  ends : s.rx.connected = false → storeSystem.Inevitable (fun s => s.pc = .ended) s

/-! ### What a step does -/

/-- The invariant: the two vectors of the batch go together, and they are empty where the worker
waits for a chunk, but not where it has received one; nothing is left at the end. -/
structure Inv : Prop where
  length_eq : s.batchData.length = s.batch.length
  length_le : s.batch.length ≤ chunkStoreBatchSize
  batch_eq_nil : s.pc = .recv → s.batch = []
  batch_ne_nil : s.pc = .collect ∨ s.pc = .process → s.batch ≠ []
  drained : s.pc = .ended → s.batch = [] ∧ s.rx.buffer = [] ∧ s.rx.connected = false
  added_pending : s.added.flatten ++ s.pending = s.rx.accepted.map ChunkStoreRequest.chunk
  length_mem : ∀ chunks ∈ s.added, 1 ≤ chunks.length ∧ chunks.length ≤ chunkStoreBatchSize

variable {s} {s' : ChunkStoreWorker}

/-- A step of the worker takes a request, closes its batch, adds it, or is the last one. -/
theorem runStep_cases (h : s.runStep = some s') :
    (∃ req rx, s.rx.tryRecv = .ok (req, rx) ∧ s' = s.push req rx ∧
      (s.pc = .recv ∨ s.pc = .collect ∧ s.batch.length < chunkStoreBatchSize)) ∨
    (s.pc = .collect ∧ s' = { s with pc := .process }) ∨
    (s.pc = .process ∧ s' = { s.addChunks with pc := .recv }) ∨
    (s.pc = .recv ∧ s.rx.buffer = [] ∧ s.rx.connected = false ∧
      s' = { (if s.batch.isEmpty then s else s.addChunks) with pc := .ended }) := by
  unfold runStep at h
  cases hpc : s.pc with
  | recv =>
    simp only [hpc] at h
    split at h
    · cases h
    next req rx hrecv =>
      exact Or.inl ⟨req, rx, SyncChannel.recv_eq_value hrecv, (Option.some.inj h).symm, Or.inl rfl⟩
    next hrecv =>
      obtain ⟨hbuffer, hconnected⟩ := SyncChannel.recv_eq_disconnected hrecv
      exact Or.inr (Or.inr (Or.inr ⟨rfl, hbuffer, hconnected, (Option.some.inj h).symm⟩))
  | collect =>
    simp only [hpc] at h
    split_ifs at h with hlt
    · split at h
      next req rx hrecv =>
        exact Or.inl ⟨req, rx, hrecv, (Option.some.inj h).symm, Or.inr ⟨rfl, hlt⟩⟩
      · exact Or.inr (Or.inl ⟨rfl, (Option.some.inj h).symm⟩)
      · exact Or.inr (Or.inl ⟨rfl, (Option.some.inj h).symm⟩)
    · exact Or.inr (Or.inl ⟨rfl, (Option.some.inj h).symm⟩)
  | process =>
    simp only [hpc] at h
    exact Or.inr (Or.inr (Or.inl ⟨rfl, (Option.some.inj h).symm⟩))
  | ended =>
    simp only [hpc] at h
    cases h

/-- A request that was received goes from the channel to the batch. -/
theorem pending_push (hlen : s.batchData.length = s.batch.length) {req : ChunkStoreRequest}
    {rx : SyncChannel ChunkStoreRequest chunkStoreReqBufSize} (h : s.rx.tryRecv = .ok (req, rx)) :
    (s.push req rx).pending = s.pending := by
  obtain ⟨hbuffer, -, -, -⟩ := SyncChannel.tryRecv_ok h
  calc (s.push req rx).pending
      = s.batch.zip s.batchData ++ [req.chunk] ++ rx.buffer.map ChunkStoreRequest.chunk :=
        congrArg (· ++ _) (List.zip_append hlen.symm)
    _ = s.pending := by rw [pending, hbuffer, List.append_assoc]; rfl

theorem Inv.new : Inv .new where
  length_eq := rfl
  length_le := Nat.zero_le _
  batch_eq_nil _ := rfl
  batch_ne_nil h := by rcases h with h | h <;> cases h
  drained h := by cases h
  added_pending := rfl
  length_mem := List.forall_mem_nil _

/-- A chunk that is handed over comes last, if it is accepted. -/
theorem Inv.storeChunkBg (hs : s.Inv) (req : ChunkStoreRequest) (h : s.rx.connected = true) :
    Inv { s with rx := s.rx.trySend req } := by
  have hnot : s.pc ≠ .ended := fun hpc => by
    rw [(hs.drained hpc).2.2] at h
    cases h
  obtain heq | ⟨hbuffer, hreceived, -⟩ := SyncChannel.trySend_cases s.rx req
  · rw [heq]
    exact hs
  · refine ⟨hs.length_eq, hs.length_le, hs.batch_eq_nil, hs.batch_ne_nil,
      fun hpc => absurd hpc hnot, ?_, hs.length_mem⟩
    have hold := hs.added_pending
    rw [← s.rx.fifo, pending] at hold
    rw [← (s.rx.trySend req).fifo, pending, hbuffer, hreceived]
    simp only [List.map_append, ← List.append_assoc] at hold ⊢
    rw [hold]

theorem Inv.push (hs : s.Inv) {req : ChunkStoreRequest}
    {rx : SyncChannel ChunkStoreRequest chunkStoreReqBufSize} (h : s.rx.tryRecv = .ok (req, rx))
    (hroom : s.pc = .recv ∨ s.pc = .collect ∧ s.batch.length < chunkStoreBatchSize) :
    (s.push req rx).Inv where
  length_eq := by
    change (s.batchData ++ _).length = (s.batch ++ _).length
    rw [List.length_append, List.length_append, hs.length_eq]
    rfl
  length_le := by
    change (s.batch ++ _).length ≤ _
    rw [List.length_append, List.length_singleton]
    rcases hroom with hpc | ⟨-, hlt⟩
    · rw [hs.batch_eq_nil hpc]
      decide
    · exact hlt
  batch_eq_nil hpc := by cases hpc
  batch_ne_nil _ := List.append_ne_nil_of_right_ne_nil _ (List.cons_ne_nil _ _)
  drained hpc := by cases hpc
  added_pending := by
    rw [pending_push hs.length_eq h]
    change s.added.flatten ++ _ = rx.accepted.map _
    rw [(SyncChannel.tryRecv_ok h).2.2.1]
    exact hs.added_pending
  length_mem := hs.length_mem

theorem Inv.addChunks (hs : s.Inv) (hpc : s.pc = .process) :
    Inv { s.addChunks with pc := .recv } where
  length_eq := rfl
  length_le := Nat.zero_le _
  batch_eq_nil _ := rfl
  batch_ne_nil h := by rcases h with h | h <;> cases h
  drained h := by cases h
  added_pending := by
    have hold := hs.added_pending
    rw [pending, ← List.append_assoc] at hold
    change (s.added ++ [s.batch.zip s.batchData]).flatten ++ s.rx.buffer.map _ = _
    rw [List.flatten_append, List.flatten_singleton]
    exact hold
  length_mem := by
    refine List.forall_mem_append.mpr ⟨hs.length_mem, ?_⟩
    have hpos := List.length_pos_of_ne_nil (hs.batch_ne_nil (Or.inr hpc))
    rw [List.forall_mem_singleton, List.length_zip, hs.length_eq, min_self]
    exact ⟨hpos, hs.length_le⟩

theorem Inv.runStep (hs : s.Inv) (h : s.runStep = some s') : s'.Inv := by
  obtain ⟨req, rx, hrecv, rfl, hroom⟩ | ⟨hpc, rfl⟩ | ⟨hpc, rfl⟩ | ⟨hpc, hbuffer, hgone, rfl⟩ :=
    runStep_cases h
  · exact hs.push hrecv hroom
  · exact ⟨hs.length_eq, hs.length_le, (fun h => by cases h),
      fun _ => hs.batch_ne_nil (Or.inl hpc), (fun h => by cases h), hs.added_pending,
      hs.length_mem⟩
  · exact hs.addChunks hpc
  · -- nothing is left in the batch
    have hnil := hs.batch_eq_nil hpc
    rw [hnil, List.isEmpty_nil, if_pos rfl]
    exact ⟨hs.length_eq, hs.length_le, fun _ => hnil, (fun h => by rcases h with h | h <;> cases h),
      fun _ => ⟨hnil, hbuffer, hgone⟩, hs.added_pending, hs.length_mem⟩

theorem Inv.step {a : StoreEvent} (hs : s.Inv) (h : StoreStep s a s') : s'.Inv := by
  cases h with
  | storeChunkBg req h => exact hs.storeChunkBg req h
  | drop h =>
    exact ⟨hs.length_eq, hs.length_le, hs.batch_eq_nil, hs.batch_ne_nil,
      fun hpc => ⟨(hs.drained hpc).1, (hs.drained hpc).2.1, rfl⟩, hs.added_pending, hs.length_mem⟩
  | run h => exact hs.runStep h

theorem inv_of_reachable (h : storeSystem.Reachable s) : s.Inv :=
  System.Reach.invariant (fun _ hinit => hinit ▸ Inv.new) (fun _ _ _ hs _ h => hs.step h) h

/-! ### The end of the worker -/

/-- How far the worker is from the end of a round. -/
def pcRank : StorePc → ℕ
  | .recv => 1
  | .collect => 3
  | .process => 2
  | .ended => 0

/-- What is left to do when no more chunks come. -/
def rank (s : ChunkStoreWorker) : ℕ := 3 * s.rx.buffer.length + pcRank s.pc

/-- When the sender is dropped only the worker makes steps, and each leaves less to do. -/
theorem rank_lt_of_step {a : StoreEvent} (hgone : s.rx.connected = false) (h : StoreStep s a s') :
    s'.rx.connected = false ∧ s'.rank < s.rank := by
  cases h with
  | storeChunkBg req h => exact absurd (hgone.symm.trans h) Bool.false_ne_true
  | drop h => exact absurd (hgone.symm.trans h) Bool.false_ne_true
  | run h =>
    unfold rank
    obtain ⟨req, rx, hrecv, rfl, hroom⟩ | ⟨hpc, rfl⟩ | ⟨hpc, rfl⟩ | ⟨hpc, -, -, rfl⟩ :=
      runStep_cases h
    · obtain ⟨hbuffer, -, -, hconnected⟩ := SyncChannel.tryRecv_ok hrecv
      refine ⟨hconnected.trans hgone, ?_⟩
      have hpos : 1 ≤ pcRank s.pc := by
        rcases hroom with hpc | ⟨hpc, -⟩ <;> rw [hpc] <;> decide
      change 3 * rx.buffer.length + 3 < _
      rw [hbuffer, List.length_cons]
      omega
    · rw [hpc]
      exact ⟨hgone, Nat.lt_succ_self _⟩
    · rw [hpc]
      exact ⟨hgone, Nat.lt_succ_self _⟩
    · rw [hpc]
      split_ifs
      · exact ⟨hgone, Nat.lt_succ_self _⟩
      · exact ⟨hgone, Nat.lt_succ_self _⟩

/-- The worker is not blocked when the sender is dropped. -/
theorem runStep_isSome (hgone : s.rx.connected = false) (hpc : s.pc ≠ .ended) :
    ∃ s', s.runStep = some s' := by
  refine Option.ne_none_iff_exists'.mp fun hnone => ?_
  unfold runStep at hnone
  split at hnone
  · split at hnone
    next hrecv =>
      have hconnected := (SyncChannel.recv_eq_none hrecv).2
      exact absurd (hgone.symm.trans hconnected) Bool.false_ne_true
    · cases hnone
    · cases hnone
  · split_ifs at hnone
    split at hnone <;> cases hnone
  · cases hnone
  next hended => exact hpc hended

theorem inevitable_ended (hgone : s.rx.connected = false) :
    storeSystem.Inevitable (fun s => s.pc = .ended) s :=
  System.Inevitable.of_rank (I := fun s => s.rx.connected = false) rank
    (fun _ _ _ hgone h => (rank_lt_of_step hgone h).1)
    (fun _ _ _ hgone h => (rank_lt_of_step hgone h).2)
    (fun s hgone => by
      by_cases hpc : s.pc = .ended
      · exact Or.inl hpc
      · obtain ⟨s', h⟩ := runStep_isSome hgone hpc
        exact Or.inr ⟨.run, s', .run h⟩)
    hgone

/-- **The worker of a nydus image.** In every state that it comes to with the image, the chunks it
has added are the first ones that the channel accepted, in batches of at least one and at most 64,
and the others are pending; they are all added when it has ended. When the sender is dropped, every
run comes to the end of the worker. -/
theorem handsOver (h : storeSystem.Reachable s) : s.HandsOver where
  added_pending := (inv_of_reachable h).added_pending
  length_mem := (inv_of_reachable h).length_mem
  added_eq hpc := by
    obtain ⟨hbatch, hbuffer, -⟩ := (inv_of_reachable h).drained hpc
    have hall := (inv_of_reachable h).added_pending
    rwa [pending, hbatch, hbuffer, List.zip_nil_left, List.map_nil, List.append_nil,
      List.append_nil] at hall
  ends := inevitable_ended

/-- The second chunk comes while the worker collects a batch. -/
theorem handsOver_twoChunks : ∃ s, storeSystem.Reachable s ∧ s.pc = .ended ∧
    s.added.flatten = [(.empty, [1]), (.empty, [2])] := by
  have h₀ : storeSystem.Reachable .new := .init rfl
  have h₁ := h₀.next (.storeChunkBg ⟨.empty, [1]⟩ rfl)
  have h₂ := h₁.next (.run rfl)
  have h₃ := h₂.next (.storeChunkBg ⟨.empty, [2]⟩ rfl)
  have h₄ := h₃.next (.run rfl)
  have h₅ := h₄.next (.run rfl)
  have h₆ := h₅.next (.run rfl)
  have h₇ := h₆.next (.drop rfl)
  have h₈ := h₇.next (.run rfl)
  exact ⟨_, h₈, rfl, (handsOver h₈).added_eq rfl⟩

/-! ### The worker among the writers of the database -/

section Writers

/-- A read hands a chunk to the queue in the model of the reads as it does to the channel, if there
is room in the one when there is in the other. -/
theorem stores_storeChunkBg {ω κ : Type} {I : NydusImage ω κ} {t : NydusState ω}
    (hdb : I.chunkDb.isSome = true) (hqueue : t.stores = s.pending) (req : ChunkStoreRequest)
    (hsend : (I.trySend t.hidden).1 = decide (s.rx.buffer.length < chunkStoreReqBufSize)) :
    (I.storeChunkBg t req.checksum req.data).stores =
      pending { s with rx := s.rx.trySend req } := by
  rw [NydusImage.storeChunkBg, if_pos hdb]
  dsimp only
  rw [hsend, hqueue, pending, pending, SyncChannel.trySend]
  by_cases hroom : s.rx.buffer.length < chunkStoreReqBufSize
  · rw [dif_pos hroom, if_pos (decide_eq_true hroom), List.map_append, ← List.append_assoc]
    rfl
  · rw [dif_neg hroom, if_neg (mt of_decide_eq_true hroom)]

variable {ω κ ι τ ν π : Type} [DecidableEq ι] [DecidableEq ν] {B : ι → Backend ω} {H : Hashes}
  {core : ι → DedupCore} {I : ν → NydusImage ω κ} {faults : Prop}

/-- Among the writers of the database the worker takes a batch from its queue in one step. The queue
are the chunks that are pending, and the step is the one that adds the batch. -/
theorem runStep_recv (hs : s.Inv) (h : s.runStep = some s') {w : ChunkWorld B ν} {n : ν}
    (hqueue : (w.nydus n).stores = s.pending) :
    (s'.added = s.added ∧ s'.pending = s.pending) ∨
    ∃ batch, s'.added = s.added ++ [batch] ∧
      ChunkStep (τ := τ) (π := π) B H core I faults (.store n) w .idle
        (w.withNydus n { w.nydus n with stores := s'.pending }) (.storing batch) := by
  obtain ⟨req, rx, hrecv, rfl, -⟩ | ⟨-, rfl⟩ | ⟨hpc, rfl⟩ | ⟨hpc, -, -, rfl⟩ := runStep_cases h
  · exact Or.inl ⟨rfl, pending_push hs.length_eq hrecv⟩
  · exact Or.inl ⟨rfl, rfl⟩
  · have hlen : (s.batch.zip s.batchData).length = s.batch.length := by
      rw [List.length_zip, hs.length_eq, min_self]
    have hpos := List.length_pos_of_ne_nil (hs.batch_ne_nil (Or.inr hpc))
    have hstep : ChunkStep (τ := τ) (π := π) B H core I faults (.store n) w .idle _ _ :=
      .recv hpos hs.length_le
        (by rw [hqueue, pending, List.length_append, hlen]; exact Nat.le_add_right _ _)
    rw [hqueue, pending, List.take_left' hlen, List.drop_left' hlen] at hstep
    exact Or.inr ⟨s.batch.zip s.batchData, rfl, hstep⟩
  · rw [hs.batch_eq_nil hpc, List.isEmpty_nil, if_pos rfl]
    exact Or.inl ⟨rfl, rfl⟩

end Writers

end ChunkStoreWorker

end DistillFs
