import DistillFs.Backend.ChunkDb.Store
import DistillFs.Foundation.Transition

/-!
# Clients and the writer thread

All writes of one `ChunkDB` handle go through its writer thread. A client puts a request into one
of two queues and waits for the reply on a channel of its own; accesses are collected in a set that
the writer drains as well. The writer takes everything that is queued, executes the additions, then
the deletions, then the access updates, and starts over; between two batches of access updates it
looks for new requests and puts what is left back into the set if there are any.

A garbage collection is a client that reads its keys in a transaction of its own and sends them in
requests that are executed later.

The clients are the threads of a `Program`. The writer and everything outside the process act as its
environment, by the events `WriterEvent`, which also say how the transactions of the database end.
The history records what the results about lost and duplicated work are about; no step reads it.

## Main definitions

* `WriteOp`, `Request`, `Reply`, `WriteQueue`, `Work`, `WriterPc`, `ClientPc`, `History`, `Db`.
* `ClientStep`, `WriterStep`, `ChunkDb.program`.

## Main results

* `ClientStep.frame`, `WriterStep.storeEffect`: who changes the tables, and how.
-/

namespace DistillFs

open Foundation

namespace ChunkDb

/-! ### Requests -/

/-- A write request. A deletion carries the cutoff of the expiry it belongs to, or none for a
collection of the least recently used chunks; the writer does not read it. -/
inductive WriteOp
  | addChunk (cs : CheckSum) (data : List UInt8)
  | addChunksBatch (chunks : List Chunk)
  | deleteKeys (keys : List AccessKey) (cutoff : Option ℕ)

/-- The transactions of an addition, one list of chunks each. -/
def WriteOp.subBatches : WriteOp → Option (List (List Chunk))
  | .addChunk cs data => some [[(cs, data)]]
  | .addChunksBatch chunks => some (batches addChunksBatchSize chunks)
  | .deleteKeys .. => none

/-- A request and the client that waits for its reply. -/
structure Request (τ : Type*) where
  client : τ
  op : WriteOp

/-- The reply to a request. -/
inductive Reply
  | added
  | deleted (removed : ℕ) (checksums : List CheckSum)
  | failed

/-- The queues between the clients and the writer. -/
structure WriteQueue (τ : Type*) where
  /-- Additions. -/
  high : List (Request τ)
  /-- Deletions. -/
  medium : List (Request τ)
  /-- Accesses to record. -/
  accessPending : Finset CheckSumOnDisk
  stop : Bool

/-- What the writer took in one turn and has not started yet. -/
structure Work (τ : Type*) where
  high : List (Request τ)
  medium : List (Request τ)
  access : List CheckSumOnDisk
  stop : Bool

/-- Where the writer stands. During an addition `todo` are the transactions left, of which the
first is tried next; during the access updates `rest` are the checksums left. -/
inductive WriterPc (τ : Type*)
  | top
  | high (w : Work τ)
  | put (w : Work τ) (req : Request τ) (todo : List (List Chunk))
  | stored (w : Work τ) (req : Request τ) (batch : List Chunk) (todo : List (List Chunk))
  | registered (w : Work τ) (req : Request τ) (batch : List Chunk) (todo : List (List Chunk))
  | mapFull (w : Work τ) (req : Request τ) (todo : List (List Chunk))
  | evicted (w : Work τ) (req : Request τ) (todo : List (List Chunk)) (targets : List AccessKey)
  | replyHigh (w : Work τ) (req : Request τ) (reply : Reply)
  | medium (w : Work τ)
  | delete (w : Work τ) (req : Request τ) (keys : List AccessKey) (cutoff : Option ℕ)
  | replyMedium (w : Work τ) (req : Request τ) (reply : Reply)
  | access (w : Work τ) (now : ℕ) (rest : List CheckSumOnDisk)
  | between (w : Work τ) (now : ℕ) (rest : List CheckSumOnDisk)
  | yield (w : Work τ) (rest : List CheckSumOnDisk)
  | finish (w : Work τ)
  | exited

/-- The additions the writer took and has not started. -/
def WriterPc.takenHigh {τ : Type*} : WriterPc τ → List (Request τ)
  | .high w | .put w _ _ | .stored w _ _ _ | .registered w _ _ _ | .mapFull w _ _
  | .evicted w _ _ _ | .replyHigh w _ _ => w.high
  | _ => []

/-- The deletions the writer took and has not started. -/
def WriterPc.takenMedium {τ : Type*} : WriterPc τ → List (Request τ)
  | .high w | .put w _ _ | .stored w _ _ _ | .registered w _ _ _ | .mapFull w _ _
  | .evicted w _ _ _ | .replyHigh w _ _ | .medium w | .delete w _ _ _ | .replyMedium w _ _ =>
      w.medium
  | _ => []

/-- The accesses the writer took and has not passed to a transaction. -/
def WriterPc.takenAccess {τ : Type*} : WriterPc τ → List CheckSumOnDisk
  | .high w | .put w _ _ | .stored w _ _ _ | .registered w _ _ _ | .mapFull w _ _
  | .evicted w _ _ _ | .replyHigh w _ _ | .medium w | .delete w _ _ _ | .replyMedium w _ _ =>
      w.access
  | .access _ _ rest | .between _ _ rest | .yield _ rest => rest
  | _ => []

/-- Where a client stands. A garbage collection keeps its cutoff, which it takes before it reads
its keys, and the key batches it has not sent yet. -/
inductive ClientPc
  | idle
  | waitAdd
  | scanning (cutoff : ℕ)
  | deleting (cutoff : Option ℕ) (todo : List (List AccessKey))
  | waitDelete (cutoff : Option ℕ) (todo : List (List AccessKey))

/-! ### The state -/

/-- An access that was enqueued, or a batch that was passed to `commit_access_batch`. -/
inductive AccessEvent
  | enqueued (cs : CheckSumOnDisk)
  | committed (batch : List CheckSumOnDisk)

/-- A key of a deletion request that was executed, the cutoff of its expiry, and the access time
that was recorded for its chunk at that moment. -/
structure Deletion where
  cutoff : Option ℕ
  key : AccessKey
  recorded : Option ℕ

/-- What happened so far. -/
structure History (τ : Type*) where
  submittedHigh : List (Request τ)
  submittedMedium : List (Request τ)
  executedHigh : List (Request τ)
  executedMedium : List (Request τ)
  repliedHigh : List (Request τ)
  repliedMedium : List (Request τ)
  accesses : List AccessEvent
  deletions : List Deletion

/-- A chunk database of one process: the queues, the tables, the checksums registered with the index
control, the writer, the calls in progress, the replies not taken yet, and the history. -/
structure Db (τ : Type*) where
  queue : WriteQueue τ
  store : Store
  registered : CheckSum → Bool
  writer : WriterPc τ
  calls : Finset τ
  replies : τ → Option Reply
  history : History τ

namespace Db

variable {τ : Type*} [DecidableEq τ] (d : Db τ)

/-- A call on the handle begins. -/
def enter (t : τ) : Db τ := { d with calls := insert t d.calls }

/-- A call on the handle returns. -/
def leave (t : τ) : Db τ := { d with calls := d.calls.erase t }

/-- `submit_high`. -/
def submitHigh (req : Request τ) : Db τ :=
  { d with
    queue := { d.queue with high := d.queue.high ++ [req] }
    history := { d.history with submittedHigh := d.history.submittedHigh ++ [req] } }

/-- `submit_medium`. -/
def submitMedium (req : Request τ) : Db τ :=
  { d with
    queue := { d.queue with medium := d.queue.medium ++ [req] }
    history := { d.history with submittedMedium := d.history.submittedMedium ++ [req] } }

/-- `enqueue_access_many`. -/
def enqueueAccessMany (checksums : List CheckSumOnDisk) : Db τ :=
  { d with
    queue := { d.queue with accessPending := d.queue.accessPending ∪ checksums.toFinset }
    history := { d.history with accesses := d.history.accesses ++ checksums.map .enqueued } }

/-- Receive the reply of a call. -/
def takeReply (t : τ) : Db τ := { d with replies := Function.update d.replies t none }

/-- Send the reply of a call. -/
def sendReply (t : τ) (reply : Reply) : Db τ :=
  { d with replies := Function.update d.replies t (some reply) }

/-- The writer moves on. -/
def goto (pc : WriterPc τ) : Db τ := { d with writer := pc }

/-- The tables change. -/
def withStore (s : Store) : Db τ := { d with store := s }

/-- `register_chunks`. -/
def registerChunks (checksums : List CheckSum) : Db τ :=
  { d with registered := fun cs => d.registered cs || decide (cs ∈ checksums) }

/-- `unregister_chunks`. -/
def unregisterChunks (checksums : List CheckSum) : Db τ :=
  { d with registered := fun cs => d.registered cs && !decide (cs ∈ checksums) }

/-- Record that the writer starts an addition. -/
def executeHigh (req : Request τ) : Db τ :=
  { d with history := { d.history with executedHigh := d.history.executedHigh ++ [req] } }

/-- Record that the writer starts a deletion. -/
def executeMedium (req : Request τ) : Db τ :=
  { d with history := { d.history with executedMedium := d.history.executedMedium ++ [req] } }

/-- Record that an addition was replied to. -/
def noteRepliedHigh (req : Request τ) : Db τ :=
  { d with history := { d.history with repliedHigh := d.history.repliedHigh ++ [req] } }

/-- Record that a deletion was replied to. -/
def noteRepliedMedium (req : Request τ) : Db τ :=
  { d with history := { d.history with repliedMedium := d.history.repliedMedium ++ [req] } }

/-- Record a call of `commit_access_batch`. -/
def noteCommitted (batch : List CheckSumOnDisk) : Db τ :=
  { d with history := { d.history with accesses := d.history.accesses ++ [.committed batch] } }

/-- Record the keys of a deletion with what is recorded for their chunks. -/
def noteDeletions (keys : List AccessKey) (cutoff : Option ℕ) : Db τ :=
  { d with
    history := { d.history with
      deletions := d.history.deletions ++
        keys.map fun key => ⟨cutoff, key, d.store.access key.cs⟩ } }

end Db

/-! ### Clients -/

/-- One step of client `t`. A call starts only while the handle is alive. An access is enqueued by
`touch_chunk` and at the end of a read that hit. -/
inductive ClientStep {τ : Type*} [DecidableEq τ] (t : τ) :
    Db τ → ClientPc → Db τ → ClientPc → Prop
  | addChunk {d} (cs : CheckSum) (data : List UInt8) (hopen : d.queue.stop = false) :
      ClientStep t d .idle ((d.enter t).submitHigh ⟨t, .addChunk cs data⟩) .waitAdd
  | addChunks {d} (chunks : List Chunk) (hne : chunks ≠ []) (hopen : d.queue.stop = false) :
      ClientStep t d .idle ((d.enter t).submitHigh ⟨t, .addChunksBatch chunks⟩) .waitAdd
  | added {d reply} (hreply : d.replies t = some reply) :
      ClientStep t d .waitAdd ((d.takeReply t).leave t) .idle
  | access {d} (cs : CheckSum) (hopen : d.queue.stop = false) :
      ClientStep t d .idle (d.enqueueAccessMany [.ofCheckSum cs]) .idle
  | gcExpired {d} (now timeout : ℕ) (hopen : d.queue.stop = false) :
      ClientStep t d .idle (d.enter t) (.scanning (now - timeout))
  | scan {d cutoff} :
      ClientStep t d (.scanning cutoff) d
        (.deleting (some cutoff) (batches gcBatch (d.store.scanExpired cutoff)))
  | gcLru {d} (maxDelete : ℕ) (hopen : d.queue.stop = false) :
      ClientStep t d .idle (d.enter t)
        (.deleting none
          (if d.store.scanLru maxDelete = [] then [] else [d.store.scanLru maxDelete]))
  | deleteKeys {d cutoff keys rest} :
      ClientStep t d (.deleting cutoff (keys :: rest))
        (d.submitMedium ⟨t, .deleteKeys keys cutoff⟩) (.waitDelete cutoff rest)
  | deleted {d cutoff rest removed checksums}
      (hreply : d.replies t = some (.deleted removed checksums)) :
      ClientStep t d (.waitDelete cutoff rest) (d.takeReply t) (.deleting cutoff rest)
  | deleteFailed {d cutoff rest} (hreply : d.replies t = some .failed) :
      ClientStep t d (.waitDelete cutoff rest) ((d.takeReply t).leave t) .idle
  | gcDone {d cutoff} : ClientStep t d (.deleting cutoff []) (d.leave t) .idle

/-! ### The writer and the outside -/

/-- A transaction that another process commits to the same database. -/
inductive Txn
  | putAll (chunks : List Chunk)
  | commitAccess (batch : List CheckSumOnDisk) (now : ℕ)
  | deleteKeys (keys : List AccessKey)

/-- The tables after a transaction. -/
def Txn.apply : Txn → Store → Store
  | .putAll chunks, s => s.putAll chunks
  | .commitAccess batch now, s => s.commitAccessBatch batch now
  | .deleteKeys keys, s => s.deleteKeys keys

/-- The events of the environment: the steps of the writer with the outcomes of its transactions,
the drop of the handle, and transactions of other processes. -/
inductive WriterEvent
  | drain
  | takeAdd
  | put
  | putMapFull
  | putError
  | register
  | enqueue
  | allPut
  | evict
  | evictNothing
  | evictError
  | unregister
  | replyHigh
  | highDone
  | takeDelete
  | delete
  | deleteError
  | replyMedium
  | accessNone
  | accessStart
  | commitAccess
  | accessError
  | accessDone
  | nextAccess
  | yield
  | enqueueRest
  | nextTurn
  | exit
  | drop
  | foreign (txn : Txn)
  deriving Inhabited

/-- One event of the environment. -/
inductive WriterStep {τ : Type*} [DecidableEq τ] : WriterEvent → Db τ → Db τ → Prop
  -- the lock is held from the wait to the last drain; `access` is the set in some order
  | drain {d} (access : List CheckSumOnDisk) (hpc : d.writer = .top)
      (haccess : ∀ cs, cs ∈ access ↔ cs ∈ d.queue.accessPending) :
      WriterStep .drain d
        { d with
          queue := ⟨[], [], ∅, d.queue.stop⟩
          writer := .high ⟨d.queue.high, d.queue.medium, access, d.queue.stop⟩ }
  | takeAdd {d w req rest todo} (hpc : d.writer = .high w) (hhigh : w.high = req :: rest)
      (hop : req.op.subBatches = some todo) :
      WriterStep .takeAdd d ((d.executeHigh req).goto (.put { w with high := rest } req todo))
  | put {d w req batch todo} (hpc : d.writer = .put w req (batch :: todo)) :
      WriterStep .put d
        ((d.withStore (d.store.putAll batch)).goto (.stored w req batch todo))
  | putMapFull {d w req batch todo} (hpc : d.writer = .put w req (batch :: todo)) :
      WriterStep .putMapFull d (d.goto (.mapFull w req (batch :: todo)))
  | putError {d w req batch todo} (hpc : d.writer = .put w req (batch :: todo)) :
      WriterStep .putError d (d.goto (.replyHigh w req .failed))
  | register {d w req batch todo} (hpc : d.writer = .stored w req batch todo) :
      WriterStep .register d
        ((d.registerChunks (batch.map Prod.fst)).goto (.registered w req batch todo))
  | enqueue {d w req batch todo} (hpc : d.writer = .registered w req batch todo) :
      WriterStep .enqueue d
        ((d.enqueueAccessMany (batch.map fun c => .ofCheckSum c.1)).goto (.put w req todo))
  | allPut {d w req} (hpc : d.writer = .put w req []) :
      WriterStep .allPut d (d.goto (.replyHigh w req .added))
  | evict {d w req todo} (hpc : d.writer = .mapFull w req todo)
      (hne : d.store.scanLru gcBatch ≠ []) :
      WriterStep .evict d
        ((d.withStore (d.store.gcLruDirect gcBatch)).goto
          (.evicted w req todo (d.store.scanLru gcBatch)))
  | evictNothing {d w req todo} (hpc : d.writer = .mapFull w req todo)
      (hnil : d.store.scanLru gcBatch = []) :
      WriterStep .evictNothing d (d.goto (.replyHigh w req .failed))
  | evictError {d w req todo} (hpc : d.writer = .mapFull w req todo) :
      WriterStep .evictError d (d.goto (.replyHigh w req .failed))
  | unregister {d w req todo targets} (hpc : d.writer = .evicted w req todo targets) :
      WriterStep .unregister d
        ((d.unregisterChunks (targets.map fun key => key.cs.checkSum)).goto (.put w req todo))
  | replyHigh {d w req reply} (hpc : d.writer = .replyHigh w req reply) :
      WriterStep .replyHigh d
        (((d.sendReply req.client reply).noteRepliedHigh req).goto (.high w))
  | highDone {d w} (hpc : d.writer = .high w) (hhigh : w.high = []) :
      WriterStep .highDone d (d.goto (.medium w))
  | takeDelete {d w req rest keys cutoff} (hpc : d.writer = .medium w)
      (hmedium : w.medium = req :: rest) (hop : req.op = .deleteKeys keys cutoff) :
      WriterStep .takeDelete d
        ((d.executeMedium req).goto (.delete { w with medium := rest } req keys cutoff))
  | delete {d w req keys cutoff} (hpc : d.writer = .delete w req keys cutoff) :
      WriterStep .delete d
        (((d.noteDeletions keys cutoff).withStore (d.store.deleteKeys keys)).goto
          (.replyMedium w req (.deleted keys.length (keys.map fun key => key.cs.checkSum))))
  | deleteError {d w req keys cutoff} (hpc : d.writer = .delete w req keys cutoff) :
      WriterStep .deleteError d (d.goto (.replyMedium w req .failed))
  | replyMedium {d w req reply} (hpc : d.writer = .replyMedium w req reply) :
      WriterStep .replyMedium d
        (((d.sendReply req.client reply).noteRepliedMedium req).goto (.medium w))
  | accessNone {d w} (hpc : d.writer = .medium w) (hmedium : w.medium = [])
      (haccess : w.access = []) :
      WriterStep .accessNone d (d.goto (.finish w))
  | accessStart {d w} (now : ℕ) (hpc : d.writer = .medium w) (hmedium : w.medium = [])
      (haccess : w.access ≠ []) :
      WriterStep .accessStart d (d.goto (.access w now w.access))
  | commitAccess {d w now rest} (hpc : d.writer = .access w now rest) :
      WriterStep .commitAccess d
        (((d.noteCommitted (rest.take accessBatchSize)).withStore
          (d.store.commitAccessBatch (rest.take accessBatchSize) now)).goto
            (.between w now (rest.drop accessBatchSize)))
  | accessError {d w now rest} (hpc : d.writer = .access w now rest) :
      WriterStep .accessError d
        ((d.noteCommitted (rest.take accessBatchSize)).goto
          (.between w now (rest.drop accessBatchSize)))
  | accessDone {d w now} (hpc : d.writer = .between w now []) :
      WriterStep .accessDone d (d.goto (.finish w))
  | nextAccess {d w now rest} (hpc : d.writer = .between w now rest) (hrest : rest ≠ [])
      (hhigh : d.queue.high = []) (hmedium : d.queue.medium = []) :
      WriterStep .nextAccess d (d.goto (.access w now rest))
  | yield {d w now rest} (hpc : d.writer = .between w now rest) (hrest : rest ≠ [])
      (hqueued : d.queue.high ≠ [] ∨ d.queue.medium ≠ []) :
      WriterStep .yield d (d.goto (.yield w rest))
  | enqueueRest {d w rest} (hpc : d.writer = .yield w rest) :
      WriterStep .enqueueRest d ((d.enqueueAccessMany rest).goto (.finish w))
  | nextTurn {d w} (hpc : d.writer = .finish w) (hstop : w.stop = false) :
      WriterStep .nextTurn d (d.goto .top)
  | exit {d w} (hpc : d.writer = .finish w) (hstop : w.stop = true) :
      WriterStep .exit d (d.goto .exited)
  -- the handle is dropped once no call on it is in progress
  | drop {d} (hcalls : d.calls = ∅) :
      WriterStep .drop d { d with queue := { d.queue with stop := true } }
  | foreign {d txn} : WriterStep (.foreign txn) d (d.withStore (txn.apply d.store))

/-- Any number of clients of one handle, the writer thread, and the transactions of other processes
that satisfy `foreign`. A run starts on tables and registrations that satisfy `start`. -/
def program (τ : Type*) [DecidableEq τ] (foreign : Txn → Prop)
    (start : Store → (CheckSum → Bool) → Prop) : Program τ WriterEvent (Db τ) ClientPc where
  init c := c.shared.queue = ⟨[], [], ∅, false⟩ ∧ c.shared.writer = .top ∧ c.shared.calls = ∅ ∧
    (∀ t, c.shared.replies t = none) ∧ c.shared.history = ⟨[], [], [], [], [], [], [], []⟩ ∧
    start c.shared.store c.shared.registered ∧ ∀ t, c.loc t = .idle
  step t := ClientStep t
  env e d d' := WriterStep e d d' ∧ ∀ txn, e = .foreign txn → foreign txn

/-- No other process uses the database. -/
def alone : Txn → Prop := fun _ => False

/-! ### What clients leave alone -/

variable {τ : Type*} [DecidableEq τ] {t : τ} {d d' : Db τ} {pc pc' : ClientPc}

/-- Clients change neither the tables nor the registrations nor the writer. -/
theorem ClientStep.frame (h : ClientStep t d pc d' pc') :
    d'.store = d.store ∧ d'.registered = d.registered ∧ d'.writer = d.writer := by
  cases h <;> exact ⟨rfl, rfl, rfl⟩

/-! ### What an event does to the tables -/

/-- What an event does to the tables. -/
inductive StoreEffect (d : Db τ) : WriterEvent → Store → Prop
  | keep (e : WriterEvent) : StoreEffect d e d.store
  | put {w req batch todo} (hpc : d.writer = .put w req (batch :: todo)) :
      StoreEffect d .put (d.store.putAll batch)
  | evict {w req todo} (hpc : d.writer = .mapFull w req todo) :
      StoreEffect d .evict (d.store.gcLruDirect gcBatch)
  | delete {w req keys cutoff} (hpc : d.writer = .delete w req keys cutoff) :
      StoreEffect d .delete (d.store.deleteKeys keys)
  | commitAccess {w now rest} (hpc : d.writer = .access w now rest) :
      StoreEffect d .commitAccess (d.store.commitAccessBatch (rest.take accessBatchSize) now)
  | foreign (txn : Txn) : StoreEffect d (.foreign txn) (txn.apply d.store)

theorem WriterStep.storeEffect {e : WriterEvent} (h : WriterStep e d d') :
    StoreEffect d e d'.store := by
  cases h with
  | put hpc => exact .put hpc
  | evict hpc => exact .evict hpc
  | delete hpc => exact .delete hpc
  | commitAccess hpc => exact .commitAccess hpc
  | foreign => exact .foreign _
  | _ => exact .keep _

/-- A property of the tables that every transaction keeps holds in every run. -/
theorem store_invariant {foreign : Txn → Prop} {start : Store → (CheckSum → Bool) → Prop}
    {ok : Config τ (Db τ) ClientPc → τ ⊕ WriterEvent → Prop} {P : Store → Prop}
    (hinit : ∀ s registered, start s registered → P s)
    (hstep : ∀ c e s', P c.shared.store → ok c (.inr e) → (∀ txn, e = .foreign txn → foreign txn) →
      StoreEffect c.shared e s' → P s')
    {c : Config τ (Db τ) ClientPc} (hc : (program τ foreign start).toSystem.Reach ok c) :
    P c.shared.store := by
  refine System.Reach.invariant (I := fun c => P c.shared.store)
    (fun c (hinit' : (program τ foreign start).init c) => hinit _ _ hinit'.2.2.2.2.2.1)
    (fun c a c' hP hok h => ?_) hc
  cases h with
  | thread h =>
    have hframe := (ClientStep.frame h).1
    dsimp only
    rw [hframe]
    exact hP
  | env h => exact hstep c _ _ hP hok h.2 h.1.storeEffect

/-! ### Accesses on their way -/

/-- The access of a chunk was enqueued and has not been passed to a transaction. -/
def Db.Pending (d : Db τ) (cs : CheckSumOnDisk) : Prop :=
  cs ∈ d.queue.accessPending ∨ cs ∈ d.writer.takenAccess

theorem ClientStep.pending (h : ClientStep t d pc d' pc') {cs : CheckSumOnDisk}
    (hcs : d.Pending cs) : d'.Pending cs := by
  cases h with
  | access => exact hcs.imp_left fun hcs => Finset.mem_union_left _ hcs
  | _ => exact hcs

/-- A pending access stays pending until a transaction is tried with it. -/
theorem WriterStep.pending {e : WriterEvent} (h : WriterStep e d d') {cs : CheckSumOnDisk}
    (hcs : d.Pending cs) :
    d'.Pending cs ∨ ((e = .commitAccess ∨ e = .accessError) ∧
      ∃ w now rest, d.writer = .access w now rest ∧ cs ∈ rest.take accessBatchSize) := by
  rw [Db.Pending] at hcs
  cases h with
  | drop | foreign => exact Or.inl hcs
  | drain access hpc haccess =>
    rw [hpc] at hcs
    refine Or.inl (Or.inr ((haccess cs).mpr (hcs.resolve_right List.not_mem_nil)))
  | enqueue hpc =>
    rw [hpc] at hcs
    exact Or.inl (hcs.imp_left fun hcs => Finset.mem_union_left _ hcs)
  | commitAccess hpc | accessError hpc =>
    rename_i w now rest
    rw [hpc] at hcs
    rcases hcs with hqueued | htaken
    · exact Or.inl (Or.inl hqueued)
    · rw [WriterPc.takenAccess, ← List.take_append_drop accessBatchSize rest,
        List.mem_append] at htaken
      exact htaken.symm.imp Or.inr fun hmem => ⟨by simp, w, now, rest, hpc, hmem⟩
  | accessNone hpc _ haccess =>
    rw [hpc, WriterPc.takenAccess, haccess] at hcs
    exact Or.inl hcs
  | enqueueRest hpc =>
    rw [hpc] at hcs
    refine Or.inl (Or.inl (Finset.mem_union.mpr (hcs.imp_right List.mem_toFinset.mpr)))
  | _ =>
    rw [‹d.writer = _›] at hcs
    exact Or.inl hcs

/-! ### Steps of two clients -/

/-- A chunk of one byte. -/
def oneByte : CheckSum := ⟨Vector.replicate 32 0, .blake3⟩

/-- Another chunk of one byte. -/
def otherByte : CheckSum := ⟨Vector.replicate 32 1, .blake3⟩

/-- The state of a new database. -/
def newDb : Db Bool where
  queue := ⟨[], [], ∅, false⟩
  store := .empty
  registered _ := false
  writer := .top
  calls := ∅
  replies _ := none
  history := ⟨[], [], [], [], [], [], [], []⟩

section Run

variable {foreign : Txn → Prop} {start : Store → (CheckSum → Bool) → Prop}
  {ok : Config Bool (Db Bool) ClientPc → Bool ⊕ WriterEvent → Prop} {d d' : Db Bool}
  {a b a' b' : ClientPc}

theorem run_fst (hc : (program Bool foreign start).toSystem.Reach ok ⟨d, fun u => cond u a b⟩)
    (hok : ok ⟨d, fun u => cond u a b⟩ (.inl true)) (h : ClientStep true d a d' a') :
    (program Bool foreign start).toSystem.Reach ok ⟨d', fun u => cond u a' b⟩ :=
  Program.Reach.fst hc hok h

theorem run_snd (hc : (program Bool foreign start).toSystem.Reach ok ⟨d, fun u => cond u a b⟩)
    (hok : ok ⟨d, fun u => cond u a b⟩ (.inl false)) (h : ClientStep false d b d' b') :
    (program Bool foreign start).toSystem.Reach ok ⟨d', fun u => cond u a b'⟩ :=
  Program.Reach.snd hc hok h

theorem run_writer {e : WriterEvent} {loc : Bool → ClientPc}
    (hc : (program Bool foreign start).toSystem.Reach ok ⟨d, loc⟩) (h : WriterStep e d d')
    (hok : ok ⟨d, loc⟩ (.inr e)) (hlocal : ∀ txn, e ≠ .foreign txn) :
    (program Bool foreign start).toSystem.Reach ok ⟨d', loc⟩ :=
  Program.Reach.env hc hok ⟨h, fun txn heq => absurd heq (hlocal txn)⟩

end Run

end ChunkDb

end DistillFs
