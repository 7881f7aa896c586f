import DistillFs.Backend.Cache.Basic
import DistillFs.Backend.ChunkDb.Store
import DistillFs.Backend.Dedup.Index
import DistillFs.Foundation.Transition

/-!
# The deduplicating reader

A deduplicating reader answers a read from the chunk database where the index has a record, and from
the cache below it elsewhere. A read looks its range up once and then copies segment by segment. Two
workers run beside the readers. The dedup worker hashes a range of the image, stores it as a chunk
and records it in the index. The sync worker stores a recorded chunk again that a reader missed.
Both then go through the chunks of their request and drop the cached copy of those that the index
covers.

Each transaction of a database and each call of the cache is one step of a task. The workers take
any request: the queues that feed them, and the bitmap that keeps readers from sending a request
twice, only restrict which requests they get. A request of the dedup worker never carries a
checksum.

## Main definitions

* `Store.chunkRange`, `Transfer`, `DedupRead`, `Copied`: reads.
* `DedupRequest`, `checkRequest`, `IndexDb.dedupCheckRange`: requests.
* `DedupPc`, `DedupStep`, `DedupEnv`, `dedupProgram`.
-/

namespace DistillFs

open Foundation

/-- `with_chunk_range`: a part of a chunk. -/
def Store.chunkRange (s : Store) (cs : CheckSum) (start len : ℕ) :
    Except IoError (Option (List UInt8)) :=
  match s.getChunk cs with
  | none => .ok none
  | some data =>
    if data.length < start + len then .error ⟨.invalidData, "Chunk range invalid"⟩
    else .ok (some ((data.drop start).take len))

/-- What all tasks of a reader know. -/
structure DedupCore where
  id : Vector UInt8 32
  /-- Whether there is a client that gets chunks from peers. -/
  localChunkClient : Bool

/-- How a read takes its bytes: into a buffer, or to a writer. -/
inductive Transfer
  | fetch
  | fuse (wr : Writer)

/-- Copy a range from the cache: the count or the error, and what the buffer or the writer holds. -/
def Transfer.copyFromBackend {ω : Type} (B : Backend ω) (op : Transfer) (w : ω)
    (c : Cache B.size) (off len : ℕ) (out : List UInt8) :
    (Except IoError ℕ × List UInt8) × Cache B.size × ω :=
  match op with
  | .fetch =>
    match Cache.fetch B w c off len with
    | (.error e, c', w') => ((.error e, out), c', w')
    | (.ok bytes, c', w') => ((.ok bytes.length, out ++ bytes), c', w')
  | .fuse wr => Cache.writeToFuseWriter B w c off len wr out

/-- Copy bytes of a chunk. -/
def Transfer.copyFromChunk (op : Transfer) (data out : List UInt8) :
    Except IoError ℕ × List UInt8 :=
  match op with
  | .fetch => (.ok data.length, out ++ data)
  | .fuse wr => wr.write out data

/-- A call of `fetch` or of `write_to_fuse_writer`. -/
structure DedupRead where
  op : Transfer
  off : ℕ
  /-- The length of the buffer, or the size asked for. -/
  n : ℕ

/-- The length of a read in an image of `size` bytes. -/
def DedupRead.len (r : DedupRead) (size : ℕ) : ℕ := min r.n (size - r.off)

theorem DedupRead.min_len (r : DedupRead) (size : ℕ) :
    min (r.len size) (size - r.off) = r.len size :=
  Nat.min_eq_left (Nat.min_le_right _ _)

/-- How far a read has come. -/
structure Copied where
  pos : ℕ
  wholeOff : ℕ
  /-- The bytes at the front of the buffer, or what the writer holds. -/
  out : List UInt8

/-- A read that copied `n` bytes. -/
def Copied.advance (c : Copied) (n : ℕ) (out : List UInt8) : Copied :=
  ⟨c.pos + n, c.wholeOff + n, out⟩

/-- A request of the dedup worker. -/
structure DedupRequest where
  off : ℕ
  len : ℕ
  method : CheckSumMethod

/-- The checks of `dedup` on its range. -/
def checkRequest (size off len : ℕ) : Except IoError Unit :=
  if size ≤ off then
    .error ⟨.invalidInput, s!"Offset {off} is out of range for backend size {size}"⟩
  else if off % chunkSize ≠ 0 then
    .error ⟨.invalidInput, s!"Offset {off} is not aligned to CHUNK_SIZE ({chunkSize})"⟩
  else if 2 ^ 64 ≤ off + len then
    .error ⟨.invalidInput, s!"Range overflow: off={off}, len={len}"⟩
  else if len % chunkSize ≠ 0 ∧ off + len < size then
    .error ⟨.invalidInput, s!"Length {len} is not aligned to CHUNK_SIZE ({chunkSize})"⟩
  else .ok ()

/-- What a request that passes the checks is like. -/
theorem checkRequest_ok {size off len : ℕ} (h : checkRequest size off len = .ok ()) :
    off < size ∧ off % chunkSize = 0 ∧ (len % chunkSize = 0 ∨ size ≤ off + len) := by
  unfold checkRequest at h
  split_ifs at h with hoff halign _ hlen
  exact ⟨by omega, not_not.mp halign, by omega⟩

/-- Whether a range is one segment with a checksum; it has to be one segment. -/
def IndexDb.dedupCheckRange (db : IndexDb) (id : Vector UInt8 32) (off len : ℕ) :
    Except IoError Bool :=
  match db.dedupRange id off len with
  | [(info, _)] => .ok info.cs.isValid
  | _ => .error ⟨.invalidInput, "Invalid range"⟩

/-- The error of `dedup` for a fetch that ends before the image does. -/
def shortRead (size off len n : ℕ) : IoError :=
  ⟨.unexpectedEof,
    s!"Short read: expected {len} bytes, got {n} bytes at offset {off}, backend size {size}"⟩

/-- The state that the tasks share. -/
structure DedupShared (ω : Type) (size : ℕ) where
  indexDb : IndexDb
  chunkDb : Store
  cache : Cache size
  /-- What decides the answers of the backend. -/
  hidden : ω

namespace DedupShared

variable {ω : Type} {size : ℕ} (s : DedupShared ω size)

/-- Exchange the index database. -/
def withIndexDb (db : IndexDb) : DedupShared ω size := { s with indexDb := db }

/-- Exchange the chunk database. -/
def withChunkDb (db : Store) : DedupShared ω size := { s with chunkDb := db }

/-- Exchange what a call of the cache changes. -/
def withCache (c : Cache size) (w : ω) : DedupShared ω size := { s with cache := c, hidden := w }

end DedupShared

/-- The tasks of a reader. -/
inductive DedupTask (τ : Type*)
  | reader (t : τ)
  | dedupWorker
  | syncWorker
  deriving DecidableEq

/-- Where a task stands. -/
inductive DedupPc
  | idle
  | lookup (r : DedupRead)
  /-- The index told nothing: the read copies its whole range from the cache. -/
  | whole (r : DedupRead)
  | segments (r : DedupRead) (segs : List (DedupInfo × ℕ)) (c : Copied)
  /-- The read looks for the chunk of its next segment, for the second time if `again`. -/
  | chunk (r : DedupRead) (info : DedupInfo) (n : ℕ) (rest : List (DedupInfo × ℕ)) (c : Copied)
    (again : Bool)
  /-- The read copies its next segment from the cache. -/
  | backend (r : DedupRead) (info : DedupInfo) (n : ℕ) (rest : List (DedupInfo × ℕ)) (c : Copied)
  | returned (r : DedupRead) (res : Except IoError ℕ) (out : List UInt8)
  | check (req : DedupRequest)
  | data (req : DedupRequest)
  | add (req : DedupRequest) (buf : List UInt8)
  | record (req : DedupRequest) (n : ℕ) (cs : CheckSum)
  | deduped (req : DedupRequest) (res : Except IoError Unit)
  | sync (info : DedupInfo)
  | verified (info : DedupInfo) (buf : List UInt8)
  /-- A worker goes through the chunks `ids`. -/
  | gc (ids : List ℕ)
  /-- It found the chunk `idx` covered by `segs` and drops its cached copy. -/
  | punch (idx : ℕ) (segs : List (DedupInfo × ℕ)) (ids : List ℕ)

/-- What happens beside the tasks. -/
inductive DedupEvent (size : ℕ)
  | evict (db : Store)
  | addChunk (cs : CheckSum) (data : List UInt8)
  | invalidate (idx : ℕ) (io : PunchIo)
  | otherImage (id : Vector UInt8 32) (off n : ℕ) (cs : CheckSum)
  | remount (cache : Cache size)

section Steps

variable {ω : Type} (B : Backend ω) (H : Hashes) (core : DedupCore) (faults : Prop) {τ : Type*}

/-- The steps of a task. A call of a database can fail if there are `faults`. -/
inductive DedupStep :
    DedupTask τ → DedupShared ω B.size → DedupPc → DedupShared ω B.size → DedupPc → Prop
  | call {s} {u : τ} (r : DedupRead) (hn : r.n ≠ 0) (hoff : r.off < B.size) :
      DedupStep (.reader u) s .idle s (.lookup r)
  | noRead {s} {u : τ} (r : DedupRead) (h : r.n = 0 ∨ B.size ≤ r.off) :
      DedupStep (.reader u) s .idle s (.returned r (.ok 0) [])
  | lookup {t s r segs} (hsegs : s.indexDb.dedupRange core.id r.off (r.len B.size) = segs)
      (h : segs ≠ []) :
      DedupStep t s (.lookup r) s (.segments r segs ⟨0, r.off, []⟩)
  | lookupEmpty {t s r} (h : s.indexDb.dedupRange core.id r.off (r.len B.size) = []) :
      DedupStep t s (.lookup r) s (.whole r)
  | lookupFault {t s r} (hf : faults) : DedupStep t s (.lookup r) s (.whole r)
  | whole {t s r res c' w'}
      (h : r.op.copyFromBackend B s.hidden s.cache r.off (r.len B.size) [] = (res, c', w')) :
      DedupStep t s (.whole r) (s.withCache c' w') (.returned r res.1 res.2)
  | missing {t s r info n rest c} (h : info.cs.isValid = false) :
      DedupStep t s (.segments r ((info, n) :: rest) c) s (.backend r info n rest c)
  | recorded {t s r info n rest c} (h : info.cs.isValid = true) (hoff : info.off ≤ c.wholeOff) :
      DedupStep t s (.segments r ((info, n) :: rest) c) s (.chunk r info n rest c false)
  -- after a short write the position can lie before the record, and the subtraction panics
  | overflow {t s r info n rest c} (h : info.cs.isValid = true) (hoff : c.wholeOff < info.off) :
      DedupStep t s (.segments r ((info, n) :: rest) c) s
        (.returned r (.error ⟨.other, "attempt to subtract with overflow"⟩) c.out)
  | hit {t s r info n rest c again data k out}
      (h : s.chunkDb.chunkRange info.cs.checkSum (c.wholeOff - info.off) n = .ok (some data))
      (hcopy : r.op.copyFromChunk data c.out = (.ok k, out)) :
      DedupStep t s (.chunk r info n rest c again) s (.segments r rest (c.advance k out))
  | hitError {t s r info n rest c again data e out}
      (h : s.chunkDb.chunkRange info.cs.checkSum (c.wholeOff - info.off) n = .ok (some data))
      (hcopy : r.op.copyFromChunk data c.out = (.error e, out)) :
      DedupStep t s (.chunk r info n rest c again) s (.backend r info n rest { c with out := out })
  | chunkError {t s r info n rest c again e}
      (h : s.chunkDb.chunkRange info.cs.checkSum (c.wholeOff - info.off) n = .error e) :
      DedupStep t s (.chunk r info n rest c again) s (.backend r info n rest c)
  | chunkFault {t s r info n rest c again} (hf : faults) :
      DedupStep t s (.chunk r info n rest c again) s (.backend r info n rest c)
  -- the client has tried to get the chunk before the second look
  | miss {t s r info n rest c} (hclient : core.localChunkClient = true)
      (h : s.chunkDb.chunkRange info.cs.checkSum (c.wholeOff - info.off) n = .ok none) :
      DedupStep t s (.chunk r info n rest c false) s (.chunk r info n rest c true)
  | missed {t s r info n rest c again} (hagain : again = true ∨ core.localChunkClient = false)
      (h : s.chunkDb.chunkRange info.cs.checkSum (c.wholeOff - info.off) n = .ok none) :
      DedupStep t s (.chunk r info n rest c again) s (.backend r info n rest c)
  | backendOk {t s r info n rest c k out c' w'}
      (h : r.op.copyFromBackend B s.hidden s.cache c.wholeOff n c.out = ((.ok k, out), c', w')) :
      DedupStep t s (.backend r info n rest c) (s.withCache c' w')
        (.segments r rest (c.advance k out))
  | backendError {t s r info n rest c e out c' w'}
      (h : r.op.copyFromBackend B s.hidden s.cache c.wholeOff n c.out = ((.error e, out), c', w')) :
      DedupStep t s (.backend r info n rest c) (s.withCache c' w') (.returned r (.error e) out)
  | copied {t s r c} : DedupStep t s (.segments r [] c) s (.returned r (.ok c.pos) c.out)
  | readDone {t s r res out} : DedupStep t s (.returned r res out) s .idle
  -- the readers ask for BLAKE3
  | request {s} (req : DedupRequest) (hmethod : req.method ≠ .unknown) :
      DedupStep .dedupWorker s .idle s (.check req)
  | emptyRequest {t s req} (h : req.len = 0) :
      DedupStep t s (.check req) s (.deduped req (.ok ()))
  | badRequest {t s req e} (hlen : req.len ≠ 0)
      (h : checkRequest B.size req.off req.len = .error e) :
      DedupStep t s (.check req) s (.deduped req (.error e))
  | severalSegments {t s req e} (hlen : req.len ≠ 0)
      (hreq : checkRequest B.size req.off req.len = .ok ())
      (h : s.indexDb.dedupCheckRange core.id req.off req.len = .error e) :
      DedupStep t s (.check req) s (.deduped req (.error e))
  | checkFault {t s req} (hf : faults) (e : IoError) :
      DedupStep t s (.check req) s (.deduped req (.error e))
  | duplicated {t s req} (hlen : req.len ≠ 0) (hreq : checkRequest B.size req.off req.len = .ok ())
      (h : s.indexDb.dedupCheckRange core.id req.off req.len = .ok true) :
      DedupStep t s (.check req) s (.deduped req (.ok ()))
  | new {t s req} (hlen : req.len ≠ 0) (hreq : checkRequest B.size req.off req.len = .ok ())
      (h : s.indexDb.dedupCheckRange core.id req.off req.len = .ok false) :
      DedupStep t s (.check req) s (.data req)
  | fetchError {t s req e c' w'}
      (h : Cache.fetch B s.hidden s.cache req.off req.len = (.error e, c', w')) :
      DedupStep t s (.data req) (s.withCache c' w') (.deduped req (.error e))
  | fetchShort {t s req bytes c' w'}
      (h : Cache.fetch B s.hidden s.cache req.off req.len = (.ok bytes, c', w'))
      (hlen : bytes.length ≠ req.len) (hend : req.off + bytes.length ≠ B.size) :
      DedupStep t s (.data req) (s.withCache c' w')
        (.deduped req (.error (shortRead B.size req.off req.len bytes.length)))
  | fetched {t s req bytes c' w'}
      (h : Cache.fetch B s.hidden s.cache req.off req.len = (.ok bytes, c', w'))
      (hlen : bytes.length = req.len ∨ req.off + bytes.length = B.size) :
      DedupStep t s (.data req) (s.withCache c' w') (.add req bytes)
  | added {t s req buf} :
      DedupStep t s (.add req buf)
        (s.withChunkDb (s.chunkDb.getOrPut (.fromData H buf req.method) buf))
        (.record req buf.length (.fromData H buf req.method))
  | addFault {t s req buf} (hf : faults) (e : IoError) :
      DedupStep t s (.add req buf) s (.deduped req (.error e))
  | wasRecorded {t s req n cs} :
      DedupStep t s (.record req n cs)
        (s.withIndexDb (s.indexDb.addLocalDedupInfo core.id req.off n cs)) (.deduped req (.ok ()))
  | recordFault {t s req n cs} (hf : faults) (e : IoError) :
      DedupStep t s (.record req n cs) s (.deduped req (.error e))
  | requestFailed {t s req e} : DedupStep t s (.deduped req (.error e)) s .idle
  | requestEmpty {t s req} (h : req.len = 0) : DedupStep t s (.deduped req (.ok ())) s .idle
  | requestDone {t s req} (h : req.len ≠ 0) :
      DedupStep t s (.deduped req (.ok ())) s (.gc (Cache.chunkIds req.off req.len))
  | syncRequest {s} (info : DedupInfo) : DedupStep .syncWorker s .idle s (.sync info)
  | syncNothing {t s info} (h : info.cs.isValid = false ∨ info.len = 0) :
      DedupStep t s (.sync info) s .idle
  | syncError {t s info e c' w'} (hvalid : info.cs.isValid = true) (hlen : info.len ≠ 0)
      (h : Cache.fetch B s.hidden s.cache info.off info.len = (.error e, c', w')) :
      DedupStep t s (.sync info) (s.withCache c' w') .idle
  | syncMismatch {t s info bytes c' w'} (hvalid : info.cs.isValid = true) (hlen : info.len ≠ 0)
      (h : Cache.fetch B s.hidden s.cache info.off info.len = (.ok bytes, c', w'))
      (hbad : bytes.length ≠ info.len ∨
        .fromData H bytes info.cs.checkSum.method ≠ info.cs.checkSum) :
      DedupStep t s (.sync info) (s.withCache c' w') .idle
  | syncVerified {t s info bytes c' w'} (hvalid : info.cs.isValid = true) (hlen : info.len ≠ 0)
      (h : Cache.fetch B s.hidden s.cache info.off info.len = (.ok bytes, c', w'))
      (hfull : bytes.length = info.len)
      (hcs : .fromData H bytes info.cs.checkSum.method = info.cs.checkSum) :
      DedupStep t s (.sync info) (s.withCache c' w') (.verified info bytes)
  | syncAdded {t s info buf} :
      DedupStep t s (.verified info buf)
        (s.withChunkDb (s.chunkDb.getOrPut info.cs.checkSum buf))
        (.gc (Cache.chunkIds info.off info.len))
  | syncFault {t s info buf} (hf : faults) : DedupStep t s (.verified info buf) s .idle
  | gcDone {t s} : DedupStep t s (.gc []) s .idle
  | gcOutside {t s idx ids} (h : B.size < chunkStart idx) :
      DedupStep t s (.gc (idx :: ids)) s (.gc ids)
  | gcFault {t s idx ids} (hf : faults) : DedupStep t s (.gc (idx :: ids)) s (.gc ids)
  | gcKeep {t s idx ids segs} (hidx : chunkStart idx ≤ B.size)
      (hsegs : s.indexDb.dedupRange core.id (chunkStart idx)
        (chunkEnd B.size idx - chunkStart idx) = segs)
      (h : segs.all (fun seg => seg.1.cs.isValid) = false) :
      DedupStep t s (.gc (idx :: ids)) s (.gc ids)
  | gcCovered {t s idx ids segs} (hidx : chunkStart idx ≤ B.size)
      (hsegs : s.indexDb.dedupRange core.id (chunkStart idx)
        (chunkEnd B.size idx - chunkStart idx) = segs)
      (h : segs.all (fun seg => seg.1.cs.isValid) = true) :
      DedupStep t s (.gc (idx :: ids)) s (.punch idx segs ids)
  | invalidate {t s idx segs ids} (io : PunchIo) :
      DedupStep t s (.punch idx segs ids)
        (s.withCache (Cache.invalidateChunk io s.cache idx).2 s.hidden) (.gc ids)
  -- the process can end at any point; after the next mount all tasks begin anew
  | killed {t s pc} : DedupStep t s pc s .idle

/-- What happens beside the tasks: chunks are evicted, or stored by somebody else; the cached copy
of a chunk is dropped; another image is deduplicated; the image is mounted again. -/
inductive DedupEnv : DedupEvent B.size → DedupShared ω B.size → DedupShared ω B.size → Prop
  | evict {s db} (h : ∀ k, db.data k = s.chunkDb.data k ∨ db.data k = none) :
      DedupEnv (.evict db) s (s.withChunkDb db)
  | addChunk {s} (cs : CheckSum) (data : List UInt8) :
      DedupEnv (.addChunk cs data) s (s.withChunkDb (s.chunkDb.getOrPut cs data))
  | invalidate {s} (idx : ℕ) (io : PunchIo) :
      DedupEnv (.invalidate idx io) s
        (s.withCache (Cache.invalidateChunk io s.cache idx).2 s.hidden)
  | otherImage {s id} (off n : ℕ) (cs : CheckSum) (hid : id ≠ core.id) :
      DedupEnv (.otherImage id off n cs) s
        (s.withIndexDb (s.indexDb.addLocalDedupInfo id off n cs))
  | remount {s} (cache : Cache B.size) :
      DedupEnv (.remount cache) s (s.withCache cache s.hidden)

/-- Any number of readers and the two workers. -/
def dedupProgram (τ : Type*) (start : DedupShared ω B.size → Prop) :
    Program (DedupTask τ) (DedupEvent B.size) (DedupShared ω B.size) DedupPc where
  init c := start c.shared ∧ ∀ t, c.loc t = .idle
  step := DedupStep B H core faults
  env := DedupEnv B core

/-! ### Runs of one reader and the two workers -/

section Runs

variable {B H core faults}

/-- Where one reader and the two workers stand. -/
def DedupPc.crew (r d y : DedupPc) : DedupTask Unit → DedupPc
  | .reader _ => r
  | .dedupWorker => d
  | .syncWorker => y

variable {start : DedupShared ω B.size → Prop} {s s' : DedupShared ω B.size} {r d y pc : DedupPc}
  {ok : Config (DedupTask Unit) (DedupShared ω B.size) DedupPc →
    DedupTask Unit ⊕ DedupEvent B.size → Prop}

theorem crew_init (h : start s) :
    (dedupProgram B H core faults Unit start).toSystem.Reach ok ⟨s, .crew .idle .idle .idle⟩ :=
  .init ⟨h, fun t => by cases t <;> rfl⟩

theorem crew_reader
    (hc : (dedupProgram B H core faults Unit start).toSystem.Reach ok ⟨s, .crew r d y⟩)
    (hok : ok ⟨s, .crew r d y⟩ (.inl (.reader ())))
    (h : DedupStep B H core faults (.reader ()) s r s' pc) :
    (dedupProgram B H core faults Unit start).toSystem.Reach ok ⟨s', .crew pc d y⟩ :=
  Program.Reach.thread (.reader ()) hc hok h (funext fun t => by cases t <;> rfl)

theorem crew_dedup
    (hc : (dedupProgram B H core faults Unit start).toSystem.Reach ok ⟨s, .crew r d y⟩)
    (hok : ok ⟨s, .crew r d y⟩ (.inl .dedupWorker))
    (h : DedupStep (τ := Unit) B H core faults .dedupWorker s d s' pc) :
    (dedupProgram B H core faults Unit start).toSystem.Reach ok ⟨s', .crew r pc y⟩ :=
  Program.Reach.thread .dedupWorker hc hok h (funext fun t => by cases t <;> rfl)

theorem crew_env {e : DedupEvent B.size}
    (hc : (dedupProgram B H core faults Unit start).toSystem.Reach ok ⟨s, .crew r d y⟩)
    (hok : ok ⟨s, .crew r d y⟩ (.inr e)) (h : DedupEnv B core e s s') :
    (dedupProgram B H core faults Unit start).toSystem.Reach ok ⟨s', .crew r d y⟩ :=
  Program.Reach.env hc hok h

end Runs

end Steps

end DistillFs
