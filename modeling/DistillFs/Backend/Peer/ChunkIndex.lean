import DistillFs.Backend.CheckSum
import DistillFs.Foundation.SortedSet
import DistillFs.Foundation.Transition

/-!
# The chunk index

A node advertises its chunks in Redis: under the key of a checksum stands a sorted set of the
addresses of the nodes that have the chunk, scored by the time of their last registration. The node
keeps the checksums it has registered in a tracker of its own, and registers them again before they
grow old.

The operations are not atomic. A registration runs a script for each checksum and then inserts into
the tracker what the scripts retained; an unregistration removes the address under each key and
then removes the checksums from the tracker. Passes in the background work through lists they took
at their start or one batch ago: `refresh_registrations` through a snapshot of the tracker, `sync`
and `repair` through batches of the keys of the chunk database. The commands of a pipeline are
executed one by one, so a pipeline is its commands, and each command, use of the tracker, and read
of the database is a step of its own.

## Main definitions

* `registerScript`: the script of a registration.
* `nextChunkBatch`: a batch of the keys of the chunk database.
* `IndexNode`: the state that the tasks of a node share.
* `IndexPc`, `IndexStep`, `IndexEnv`, `indexProgram`: the tasks.
-/

namespace DistillFs

open Foundation

def redisRegisterBatchSize : ℕ := 1000

def indexSyncBatchSize : ℕ := 1000

def indexRepairBatchSize : ℕ := 256

def maxChunkOwners : ℕ := 3

/-- The script of a registration: it drops owners that are too old, adds the address with the time,
drops the oldest owners beyond the limit, and answers whether the address is still there. -/
def registerScript {α : Type*} [LinearOrder α] (owners : SortedSet α) (addr : α) (now ttl : ℤ)
    (maxOwners : ℕ) : SortedSet α × Bool :=
  let live := (owners.remRangeByScore (now - ttl)).add addr now
  let count := live.card
  let kept := if maxOwners < count then live.remRangeByRank (count - maxOwners) else live
  (kept, decide (addr ∈ kept))

/-- `next_chunk_batch`: the checksums of the first valid keys after the cursor. -/
def nextChunkBatch (keys : Finset CheckSumOnDisk) (cursor : Option CheckSum) (batchSize : ℕ) :
    List CheckSum :=
  let rest := keys.filter fun k => k.isValid ∧ ∀ last ∈ cursor, .ofCheckSum last < k
  (rest.sort.take (max batchSize 1)).map CheckSumOnDisk.checkSum

/-- The state that the tasks of a node share. -/
structure IndexNode (α : Type*) where
  /-- The sorted set under the key of each checksum. -/
  redis : CheckSum → SortedSet α
  /-- The checksums in the tracker, which keeps their stored form. -/
  tracker : Finset CheckSum
  /-- The keys of the chunk database. -/
  stored : Finset CheckSumOnDisk
  /-- The time in seconds. -/
  clock : ℕ
  /-- An unregistration of the checksum has returned, and no registration of it by the chunk
  database has started since. -/
  unregistered : CheckSum → Bool

/-- What a task does after a registration. -/
inductive IndexCont
  | done
  /-- `refresh_registrations` goes on with the rest of its snapshot. -/
  | refresh (rest : List CheckSum)
  /-- `sync` goes on with the batch after the cursor. -/
  | sync (cursor : Option CheckSum)

/-- The program of a task. -/
inductive IndexPc (α : Type*)
  | idle
  /-- It calls `register_many`. -/
  | register (k : IndexCont) (checksums : List CheckSum)
  /-- It runs the script for each checksum of `todo`. -/
  | registering (k : IndexCont) (now : ℕ) (todo retained : List CheckSum)
  | unregistering (checksums todo : List CheckSum)
  | refreshing (rest : List CheckSum)
  /-- It reads the batch after the cursor, in `sync`. -/
  | syncing (cursor : Option CheckSum)
  /-- It reads the batch after the cursor, in `repair`. -/
  | repairing (cursor : Option CheckSum)
  /-- It looks for the checksums of its batch in the tracker. -/
  | filtering (todo candidates : List CheckSum)
  /-- It looks up the owners of each checksum of `todo`. -/
  | looking (k : IndexCont) (cutoff : ℕ) (todo : List CheckSum) (found : List (CheckSum × Finset α))

/-- The program of a task that is back from a registration. -/
def IndexCont.resume {α : Type*} : IndexCont → IndexPc α
  | .done => .idle
  | .refresh rest => .refreshing rest
  | .sync cursor => .syncing cursor

section Steps

variable {α : Type*} [LinearOrder α] (addr : α) (ttl : ℕ)

/-- The checksums that `sync_chunks` found registered. -/
def tracked (found : List (CheckSum × Finset α)) : List CheckSum :=
  (found.filter fun f => addr ∈ f.2).map Prod.fst

/-- The checksums that `sync_chunks` registers. -/
def missing (found : List (CheckSum × Finset α)) : List CheckSum :=
  (found.filter fun f => addr ∉ f.2 ∧ f.2.card < maxChunkOwners).map Prod.fst

/-- The steps of a task. -/
inductive IndexStep : IndexNode α → IndexPc α → IndexNode α → IndexPc α → Prop
  | registerBatch {s : IndexNode α} (checksums : List CheckSum) :
      IndexStep s .idle
        { s with unregistered := fun cs => decide (cs ∉ checksums) && s.unregistered cs }
        (.register .done checksums)
  | registerNone {s : IndexNode α} {k : IndexCont} : IndexStep s (.register k []) s k.resume
  | registerSome {s : IndexNode α} {k : IndexCont} {checksums : List CheckSum}
      (h : checksums ≠ []) :
      IndexStep s (.register k checksums) s (.registering k s.clock checksums [])
  | script {s : IndexNode α} {k : IndexCont} {now : ℕ} {cs : CheckSum}
      {todo retained : List CheckSum} {owners : SortedSet α} {result : Bool}
      (h : registerScript (s.redis cs) addr now ttl maxChunkOwners = (owners, result)) :
      IndexStep s (.registering k now (cs :: todo) retained)
        { s with redis := Function.update s.redis cs owners }
        (.registering k now todo (if result then retained ++ [cs] else retained))
  | registered {s : IndexNode α} {k : IndexCont} {now : ℕ} {retained : List CheckSum} :
      IndexStep s (.registering k now [] retained)
        { s with tracker := s.tracker ∪ retained.toFinset } k.resume
  | unregisterBatch {s : IndexNode α} (checksums : List CheckSum) (h : checksums ≠ []) :
      IndexStep s .idle s (.unregistering checksums checksums)
  | zrem {s : IndexNode α} {checksums todo : List CheckSum} {cs : CheckSum} :
      IndexStep s (.unregistering checksums (cs :: todo))
        { s with redis := Function.update s.redis cs ((s.redis cs).rem addr) }
        (.unregistering checksums todo)
  | unregistered {s : IndexNode α} {checksums : List CheckSum} :
      IndexStep s (.unregistering checksums [])
        { s with
          tracker := s.tracker \ checksums.toFinset
          unregistered := fun cs => decide (cs ∈ checksums) || s.unregistered cs }
        .idle
  /-- The tracker lists its checksums in any order. -/
  | snapshot {s : IndexNode α} {checksums : List CheckSum} (hnodup : checksums.Nodup)
      (h : checksums.toFinset = s.tracker) : IndexStep s .idle s (.refreshing checksums)
  | refreshBatch {s : IndexNode α} {rest : List CheckSum} (h : rest ≠ []) :
      IndexStep s (.refreshing rest) s (.register (.refresh (rest.drop redisRegisterBatchSize))
        (rest.take redisRegisterBatchSize))
  | refreshed {s : IndexNode α} : IndexStep s (.refreshing []) s .idle
  | sync {s : IndexNode α} : IndexStep s .idle s (.syncing none)
  | syncBatch {s : IndexNode α} {cursor : Option CheckSum} {batch : List CheckSum}
      (hbatch : nextChunkBatch s.stored cursor indexSyncBatchSize = batch) (h : batch ≠ []) :
      IndexStep s (.syncing cursor) s (.looking (.sync batch.getLast?) (s.clock - ttl) batch [])
  | synced {s : IndexNode α} {cursor : Option CheckSum}
      (h : nextChunkBatch s.stored cursor indexSyncBatchSize = []) :
      IndexStep s (.syncing cursor) s .idle
  /-- The repair cursor is where the last repair left it. -/
  | repair {s : IndexNode α} (cursor : Option CheckSum) : IndexStep s .idle s (.repairing cursor)
  | repairBatch {s : IndexNode α} {cursor : Option CheckSum} {batch : List CheckSum}
      (hbatch : nextChunkBatch s.stored cursor indexRepairBatchSize = batch) :
      IndexStep s (.repairing cursor) s (.filtering batch [])
  | filter {s : IndexNode α} {cs : CheckSum} {todo candidates : List CheckSum} :
      IndexStep s (.filtering (cs :: todo) candidates) s
        (.filtering todo (if cs ∈ s.tracker then candidates else candidates ++ [cs]))
  | filtered {s : IndexNode α} {candidates : List CheckSum} :
      IndexStep s (.filtering [] candidates) s (.looking .done (s.clock - ttl) candidates [])
  | look {s : IndexNode α} {k : IndexCont} {cutoff : ℕ} {cs : CheckSum} {todo : List CheckSum}
      {found : List (CheckSum × Finset α)} :
      IndexStep s (.looking k cutoff (cs :: todo) found) s
        (.looking k cutoff todo (found ++ [(cs, (s.redis cs).rangeByScore cutoff)]))
  | looked {s : IndexNode α} {k : IndexCont} {cutoff : ℕ} {found : List (CheckSum × Finset α)} :
      IndexStep s (.looking k cutoff [] found)
        { s with tracker := s.tracker ∪ (tracked addr found).toFinset }
        (.register k (missing addr found))

/-- What happens besides the tasks: time passes, keys expire, and the chunk database changes. -/
inductive IndexEnv : IndexNode α → IndexNode α → Prop
  | tick {s : IndexNode α} : IndexEnv s { s with clock := s.clock + 1 }
  | expire {s : IndexNode α} (cs : CheckSum) :
      IndexEnv s { s with redis := Function.update s.redis cs ∅ }
  | store {s : IndexNode α} (stored : Finset CheckSumOnDisk) :
    IndexEnv s { s with stored := stored }

/-- Any number of tasks of a node that starts, with whatever is in Redis. -/
def indexProgram (τ : Type*) [DecidableEq τ] : Program τ Unit (IndexNode α) (IndexPc α) where
  init c := c.shared.tracker = ∅ ∧ (∀ cs, c.shared.unregistered cs = false) ∧ ∀ t, c.loc t = .idle
  step _ := IndexStep addr ttl
  env _ := IndexEnv

end Steps

end DistillFs
