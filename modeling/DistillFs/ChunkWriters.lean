import DistillFs.Backend.Dedup.Core
import DistillFs.Image.Nydus

/-!
# The writers of the chunk database

Four parts of the program put chunks into the chunk database. The dedup worker stores what it has
hashed itself. The sync worker and a prefetch from a peer store a chunk under the checksum they were
asked for, after they have hashed its bytes. The reads of a nydus image hand the chunks that they
took from a blob to a worker, under the checksum of the metadata, and nobody hashes them on the way.

The runs here are those of any number of images, nydus images and prefetches over one database. A
transaction of the database is one step. The backends, the blobs and the peers answer what they
want, and chunks can be evicted at any time. What a nydus image finds in the database when it looks
a chunk up is part of its parameters.

## Main definitions

* `Store.ContentAddressed`: what is stored under a checksum has that checksum.
* `NydusImage.HandsOver`: a part of a read hands the bytes of a blob to the worker.
* `ChunkWorld`, `ChunkPc`, `ChunkStep`, `ChunkEnv`, `chunkProgram`.

## Main results

* `ChunkWriters.content_addressed`: the database stays content-addressed while the blobs deliver
  what the metadata says.
* `ChunkWriters.foreign_bytes_stored`: a blob that does not.
-/

namespace DistillFs

open Foundation

/-- The number of chunks that the worker of a nydus image takes at once. -/
def chunkStoreBatchSize : ℕ := 64

/-! ### Content addressing -/

/-- The data of a chunk has the checksum it is stored under. -/
def Store.ContentAddressed (H : Hashes) (s : Store) : Prop :=
  ∀ k data, s.data k = some data → .fromData H data k.checkSum.method = k.checkSum

/-- The data of a chunk has its checksum. -/
def Chunk.Genuine (H : Hashes) (c : Chunk) : Prop := .fromData H c.2 c.1.method = c.1

section Store

variable {H : Hashes} {s s' : Store}

theorem Store.contentAddressed_empty : Store.empty.ContentAddressed H := fun _ _ h => by cases h

/-- A transaction that puts genuine chunks keeps the database content-addressed. -/
theorem Store.ContentAddressed.putAll (hs : s.ContentAddressed H) {chunks : List Chunk}
    (h : ∀ c ∈ chunks, c.Genuine H) : (s.putAll chunks).ContentAddressed H := by
  intro k data hdata
  obtain hold | ⟨c, hc, rfl, rfl⟩ := Store.data_putAll_cases hdata
  · exact hs k data hold
  · rw [CheckSumOnDisk.checkSum_ofCheckSum]
    exact h c hc

theorem Store.ContentAddressed.getOrPut (hs : s.ContentAddressed H) {cs : CheckSum}
    {data : List UInt8} (h : .fromData H data cs.method = cs) :
    (s.getOrPut cs data).ContentAddressed H := by
  change (s.putAll [(cs, data)]).ContentAddressed H
  refine hs.putAll fun c hc => ?_
  rw [List.mem_singleton.mp hc]
  exact h

/-- What an eviction leaves is content-addressed. -/
theorem Store.ContentAddressed.evict (hs : s.ContentAddressed H)
    (h : ∀ k, s'.data k = s.data k ∨ s'.data k = none) : s'.ContentAddressed H :=
  fun k data hdata => hs k data (Store.data_of_evicted h hdata)

end Store

/-! ### What a read of a nydus image hands over -/

namespace NydusImage

variable {ω κ : Type} (I : NydusImage ω κ) (wr : Writer) (s : NydusState ω) (inode : Inode)
  (idx offset remaining : ℕ) (cs : CheckSum) (data : List UInt8)

/-- The part of a read in the chunk `idx` hands `data` to the worker as the chunk `cs`: the database
does not answer in the state `s`, the blob delivers `data` in the state `s₁`, the writer takes its
part of it, and the queue is not full. -/
structure Delivery (chunk : ChunkInfo) (blob : BlobInfo κ) (s₁ s₂ : NydusState ω) : Prop where
  chunkInfo : inode.getChunkInfo (UInt32.ofNat idx) = .ok chunk
  getBlob : I.getBlob chunk.blobIndex = .ok blob
  offset_lt : offset - idx * I.chunkSize < chunk.uncompressedSize
  checksum : checksumFromChunk chunk blob = .ok cs
  missed : I.readFromChunkdb wr s cs (offset - idx * I.chunkSize)
    (min remaining (chunk.uncompressedSize - (offset - idx * I.chunkSize))) = (none, s₁)
  delivered : I.readChunkData s₁ chunk blob = (.ok data, s₂)
  length_eq : data.length = chunk.uncompressedSize
  written : ∃ n, (wr.write s₂.out ((data.drop (offset - idx * I.chunkSize)).take
    (min remaining (chunk.uncompressedSize - (offset - idx * I.chunkSize))))).1 = .ok n
  chunkDb : I.chunkDb.isSome = true
  sent : (I.trySend s₂.hidden).1 = true

/-- The part of a read in the chunk `idx` hands `data` to the worker, with the checksum `cs` that
the metadata has for it. -/
def HandsOver : Prop :=
  ∃ chunk blob s₁ s₂, I.Delivery wr s inode idx offset remaining cs data chunk blob s₁ s₂

variable {I wr s inode idx offset remaining cs data} {s' : NydusState ω} {total : ℕ}

theorem stores_getBlobReader (s : NydusState ω) (blob : BlobInfo κ) :
    (I.getBlobReader s blob).2.stores = s.stores := by
  unfold getBlobReader
  split
  · rfl
  · split <;> rfl

theorem stores_readChunkData (s : NydusState ω) (chunk : ChunkInfo) (blob : BlobInfo κ) :
    (I.readChunkData s chunk blob).2.stores = s.stores := by
  have hreader := stores_getBlobReader (I := I) s blob
  unfold readChunkData
  -- an encrypted chunk, a batch, an empty chunk, and one without compressed bytes
  split
  · rfl
  split
  · rfl
  split
  · rfl
  split
  · rfl
  split
  next e s₁ heq =>
    rw [heq] at hreader
    exact hreader
  next reader s₁ heq =>
    rw [heq] at hreader
    split
    next => exact hreader
    next compressed w hrange =>
      dsimp only
      split
      · split
        · exact hreader
        · exact hreader
      · split
        · exact hreader
        · exact hreader

theorem stores_readFromChunkdb (wr : Writer) (s : NydusState ω) (cs : CheckSum) (start len : ℕ) :
    (I.readFromChunkdb wr s cs start len).2.stores = s.stores := by
  unfold readFromChunkdb
  split
  · rfl
  · split
    · rfl
    · dsimp only
      split
      · rfl
      · split_ifs
        · rfl
        · split <;> rfl

/-- A part of a read hands at most one chunk to the worker. -/
theorem stores_readChunkIntoWriter {r : Except IoError (ℕ × ℕ)}
    (h : I.readChunkIntoWriter wr s inode idx offset remaining total = (r, s')) :
    s'.stores = s.stores ∨ ∃ cs data, s'.stores = s.stores ++ [(cs, data)] ∧
      I.HandsOver wr s inode idx offset remaining cs data := by
  obtain ⟨rfl, -⟩ | ⟨chunk, blob, cs, hinfo, hget, hlt, hcs, hpart⟩ := readChunkIntoWriter_cases h
  · exact .inl rfl
  have hhit := stores_readFromChunkdb (I := I) wr s cs (offset - idx * I.chunkSize)
    (min remaining (chunk.uncompressedSize - (offset - idx * I.chunkSize)))
  have hmiss : ∀ {s₁ s₂ r}, I.readFromChunkdb wr s cs (offset - idx * I.chunkSize)
      (min remaining (chunk.uncompressedSize - (offset - idx * I.chunkSize))) = (none, s₁) →
      I.readChunkData s₁ chunk blob = (r, s₂) → s₂.stores = s.stores := by
    intro s₁ s₂ r hdb hdata
    have hsame := stores_readChunkData (I := I) s₁ chunk blob
    rw [hdb] at hhit
    rw [hdata] at hsame
    exact hsame.trans hhit
  cases hpart with
  | hit hdb =>
    rw [hdb] at hhit
    exact .inl hhit
  | failed hdb hdata | short hdb hdata => exact .inl (hmiss hdb hdata)
  | unwritten hdb hdata =>
    have hstores := hmiss hdb hdata
    exact .inl hstores
  | @written data s₁ s₂ n out hdb hdata hwrite =>
    have hstores := hmiss hdb hdata
    by_cases hwhole : data.length = chunk.uncompressedSize
    · rw [if_pos hwhole, storeChunkBg]
      by_cases hqueue : I.chunkDb.isSome = true ∧ (I.trySend s₂.hidden).1 = true
      · rw [if_pos hqueue.1]
        dsimp only
        rw [if_pos hqueue.2, hstores]
        exact .inr ⟨cs, data, rfl, chunk, blob, s₁, s₂, hinfo, hget, hlt, hcs, hdb, hdata, hwhole,
          ⟨n, congrArg Prod.fst hwrite⟩, hqueue.1, hqueue.2⟩
      · left
        split_ifs with hdedup
        · dsimp only
          rw [if_neg fun hsent => hqueue ⟨hdedup, hsent⟩]
          exact hstores
        · exact hstores
    · rw [if_neg hwhole]
      exact .inl hstores

/-- What a part of a read hands to the worker is at the end of the queue. -/
theorem HandsOver.stores (h : I.HandsOver wr s inode idx offset remaining cs data) :
    (I.readChunkIntoWriter wr s inode idx offset remaining total).2.stores =
      s.stores ++ [(cs, data)] := by
  obtain ⟨chunk, blob, s₁, s₂, h⟩ := h
  obtain ⟨n, hn⟩ := h.written
  have hlt := h.offset_lt
  have hdb := stores_readFromChunkdb (I := I) wr s cs (offset - idx * I.chunkSize)
    (min remaining (chunk.uncompressedSize - (offset - idx * I.chunkSize)))
  have hdata := stores_readChunkData (I := I) s₁ chunk blob
  rw [h.missed] at hdb
  rw [h.delivered] at hdata
  have hlong : ¬data.length < offset - idx * I.chunkSize +
      min remaining (chunk.uncompressedSize - (offset - idx * I.chunkSize)) := by
    rw [h.length_eq]
    omega
  simp only [readChunkIntoWriter, offset_in_chunk, h.chunkInfo, h.getBlob, h.checksum, h.missed,
    h.delivered, if_neg hlt.not_ge, if_neg hlong]
  rcases hwrite : wr.write s₂.out ((data.drop (offset - idx * I.chunkSize)).take
    (min remaining (chunk.uncompressedSize - (offset - idx * I.chunkSize)))) with ⟨e | n', out⟩
  · rw [hwrite] at hn
    cases hn
  · simp only [h.length_eq, if_true, storeChunkBg, h.chunkDb, h.sent]
    exact congrArg (· ++ _) (hdata.trans hdb)

end NydusImage

/-! ### The writers -/

/-- The tasks: the readers and the two workers of an image, the readers of a nydus image and its
worker, and prefetches. -/
inductive ChunkTask (ι τ ν π : Type)
  | dedup (i : ι) (t : DedupTask τ)
  | nydus (n : ν) (t : τ)
  | store (n : ν)
  | prefetch (p : π)
  deriving DecidableEq

/-- Where a task stands. -/
inductive ChunkPc
  | idle
  | dedup (pc : DedupPc)
  /-- A read of a nydus image comes to the chunk `idx`; its writer holds `out`. -/
  | chunk (wr : Writer) (out : List UInt8) (inode : Inode) (idx offset remaining total : ℕ)
  /-- The worker of a nydus image adds the chunks `batch`. -/
  | storing (batch : List Chunk)
  | lookup (cs : CheckSum)
  | fetch (cs : CheckSum)
  | add (cs : CheckSum) (data : List UInt8)

/-- Where a task begins. -/
def ChunkTask.start {ι τ ν π : Type} : ChunkTask ι τ ν π → ChunkPc
  | .dedup _ _ => .dedup .idle
  | _ => .idle

/-- What the tasks share. -/
structure ChunkWorld {ω ι : Type} (B : ι → Backend ω) (ν : Type) where
  chunkDb : Store
  indexDb : IndexDb
  cache : ∀ i, Cache (B i).size
  /-- What decides the answers of the backends. -/
  hidden : ω
  /-- The readers of a nydus image, and the queue of its worker. -/
  nydus : ν → NydusState ω

namespace ChunkWorld

variable {ω ι ν : Type} {B : ι → Backend ω} (s : ChunkWorld B ν)

/-- Exchange the chunk database. -/
def withChunkDb (db : Store) : ChunkWorld B ν := { s with chunkDb := db }

/-- What the tasks of an image share. -/
def dedup (i : ι) : DedupShared ω (B i).size := ⟨s.indexDb, s.chunkDb, s.cache i, s.hidden⟩

variable [DecidableEq ι] [DecidableEq ν]

/-- Exchange what the tasks of an image share. -/
def withDedup (i : ι) (d : DedupShared ω (B i).size) : ChunkWorld B ν :=
  { s with
    chunkDb := d.chunkDb
    indexDb := d.indexDb
    cache := Function.update s.cache i d.cache
    hidden := d.hidden }

/-- Exchange the state of a nydus image. -/
def withNydus (n : ν) (t : NydusState ω) : ChunkWorld B ν :=
  { s with nydus := Function.update s.nydus n t }

end ChunkWorld

/-- What happens beside the tasks. -/
inductive ChunkEvent {ω ι : Type} (B : ι → Backend ω) (ν : Type)
  | evict (db : Store)
  | remount (i : ι) (cache : Cache (B i).size) (w : ω)
  | mount (n : ν) (t : NydusState ω)

section Steps

variable {ω κ ι τ ν π : Type} [DecidableEq ι] [DecidableEq ν] (B : ι → Backend ω) (H : Hashes)
  (core : ι → DedupCore) (I : ν → NydusImage ω κ) (faults : Prop)

/-- The steps of a task. -/
inductive ChunkStep :
    ChunkTask ι τ ν π → ChunkWorld B ν → ChunkPc → ChunkWorld B ν → ChunkPc → Prop
  | dedup {i t s pc d pc'} (h : DedupStep (B i) H (core i) faults t (s.dedup i) pc d pc') :
      ChunkStep (.dedup i t) s (.dedup pc) (s.withDedup i d) (.dedup pc')
  -- the loop of `read` comes to a chunk
  | read {n t s} (wr : Writer) (out : List UInt8) (inode : Inode)
      (idx offset remaining total : ℕ) :
      ChunkStep (.nydus n t) s .idle s (.chunk wr out inode idx offset remaining total)
  | chunk {n t s wr out inode idx offset remaining total r s'}
      (h : (I n).readChunkIntoWriter wr { s.nydus n with out := out } inode idx offset remaining
        total = (r, s')) :
      ChunkStep (.nydus n t) s (.chunk wr out inode idx offset remaining total) (s.withNydus n s')
        .idle
  -- `recv`, and `try_recv` until the queue is empty or the batch is full
  | recv {n s k} (hpos : 0 < k) (hk : k ≤ chunkStoreBatchSize)
      (hlen : k ≤ (s.nydus n).stores.length) :
      ChunkStep (.store n) s .idle
        (s.withNydus n { s.nydus n with stores := (s.nydus n).stores.drop k })
        (.storing ((s.nydus n).stores.take k))
  | subBatch {n s batch} (h : batch ≠ []) :
      ChunkStep (.store n) s (.storing batch)
        (s.withChunkDb (s.chunkDb.putAll (batch.take addChunksBatchSize)))
        (.storing (batch.drop addChunksBatchSize))
  | stored {n s} : ChunkStep (.store n) s (.storing []) s .idle
  | prefetch {p s} (cs : CheckSum) : ChunkStep (.prefetch p) s .idle s (.lookup cs)
  | prefetchHit {p s cs} (h : s.chunkDb.hasChunk cs = true) :
      ChunkStep (.prefetch p) s (.lookup cs) s .idle
  | prefetchMiss {p s cs} (h : s.chunkDb.hasChunk cs = false) :
      ChunkStep (.prefetch p) s (.lookup cs) s (.fetch cs)
  | mismatch {p s cs} (data : List UInt8) (h : .fromData H data cs.method ≠ cs) :
      ChunkStep (.prefetch p) s (.fetch cs) s .idle
  | verified {p s cs} (data : List UInt8) (h : .fromData H data cs.method = cs) :
      ChunkStep (.prefetch p) s (.fetch cs) s (.add cs data)
  | prefetched {p s cs data} :
      ChunkStep (.prefetch p) s (.add cs data) (s.withChunkDb (s.chunkDb.getOrPut cs data)) .idle
  -- a database fails, no peer answers, or the process ends
  | givenUp {t s pc} : ChunkStep t s pc s t.start

/-- What happens beside the tasks: chunks are evicted, or an image is mounted again. The queue of a
nydus image does not outlive it. -/
inductive ChunkEnv : ChunkEvent B ν → ChunkWorld B ν → ChunkWorld B ν → Prop
  | evict {s db} (h : ∀ k, db.data k = s.chunkDb.data k ∨ db.data k = none) :
      ChunkEnv (.evict db) s (s.withChunkDb db)
  | remount {s i} (cache : Cache (B i).size) (w : ω) :
      ChunkEnv (.remount i cache w) s (s.withDedup i ⟨s.indexDb, s.chunkDb, cache, w⟩)
  | mount {s n} (t : NydusState ω) (h : t.stores = []) : ChunkEnv (.mount n t) s (s.withNydus n t)

/-- The writers of the chunk database, from the time when it is made. -/
def chunkProgram (τ π : Type) :
    Program (ChunkTask ι τ ν π) (ChunkEvent B ν) (ChunkWorld B ν) ChunkPc where
  init c :=
    c.shared.chunkDb = .empty ∧ (∀ n, (c.shared.nydus n).stores = []) ∧ ∀ t, c.loc t = t.start
  step := ChunkStep B H core I faults
  env := ChunkEnv B

end Steps

/-! ### Runs -/

section Dedup

variable {ω : Type} {τ : Type*} {B : Backend ω} {H : Hashes} {core : DedupCore} {faults : Prop}
  {s s' : DedupShared ω B.size} {t : DedupTask τ} {pc pc' : DedupPc}

/-- What the two workers of an image put: the dedup worker what it has hashed, and the sync worker
what it has verified. -/
theorem DedupStep.puts (h : DedupStep B H core faults t s pc s' pc') :
    s'.chunkDb = s.chunkDb ∨ ∃ cs data, s'.chunkDb = s.chunkDb.getOrPut cs data ∧
      ((∃ m, cs = .fromData H data m) ∨
        ∃ info, pc = .verified info data ∧ cs = info.cs.checkSum) := by
  cases h with
  | @added t s req buf => exact .inr ⟨_, buf, rfl, .inl ⟨req.method, rfl⟩⟩
  | @syncAdded t s info buf => exact .inr ⟨_, buf, rfl, .inr ⟨info, rfl, rfl⟩⟩
  | _ => exact .inl rfl

theorem DedupStep.genuine (h : DedupStep B H core faults t s pc s' pc') {info : DedupInfo}
    {buf : List UInt8} (hpc : pc' = .verified info buf) :
    .fromData H buf info.cs.checkSum.method = info.cs.checkSum := by
  cases h with
  | syncVerified hvalid hlen hfetch hfull hcs =>
    obtain ⟨rfl, rfl⟩ := DedupPc.verified.inj hpc
    exact hcs
  | _ => cases hpc

end Dedup

namespace ChunkWriters

variable {ω κ ι ν τ π : Type} [DecidableEq ι] [DecidableEq ν] {B : ι → Backend ω} {H : Hashes}
  {core : ι → DedupCore} {I : ν → NydusImage ω κ} {faults : Prop} {s s' : ChunkWorld B ν}
  {t : ChunkTask ι τ ν π} {pc pc' : ChunkPc}

variable (H) in
/-- The chunk database is content-addressed, and so is what the queues hold. -/
structure Inv (s : ChunkWorld B ν) : Prop where
  stored : s.chunkDb.ContentAddressed H
  queued : ∀ n, ∀ c ∈ (s.nydus n).stores, Chunk.Genuine H c

variable (H) in
/-- What a task is about to store is genuine. -/
def Assertion : ChunkPc → Prop
  | .dedup (.verified info buf) => .fromData H buf info.cs.checkSum.method = info.cs.checkSum
  | .storing batch => ∀ c ∈ batch, Chunk.Genuine H c
  | .add cs data => .fromData H data cs.method = cs
  | _ => True

variable (H I) in
/-- The chunks that a task hands to the worker of a nydus image, if it stands at `pc`, are those
that the metadata names. -/
def Delivers (s : ChunkWorld B ν) : ChunkTask ι τ ν π → ChunkPc → Prop
  | .nydus n _, .chunk wr out inode idx offset remaining _ => ∀ cs data,
    (I n).HandsOver wr { s.nydus n with out := out } inode idx offset remaining cs data →
      .fromData H data cs.method = cs
  | _, _ => True

omit [DecidableEq ι] in
theorem Inv.withNydus (hI : Inv H s) {n : ν} {t : NydusState ω}
    (h : ∀ c ∈ t.stores, Chunk.Genuine H c) : Inv H (s.withNydus n t) := by
  refine ⟨hI.stored, fun m c hc => ?_⟩
  change c ∈ (Function.update s.nydus n t m).stores at hc
  rw [Function.update_apply] at hc
  split_ifs at hc with hm
  · exact h c hc
  · exact hI.queued m c hc

/-- A step of a task stores what has its checksum, if the blobs deliver what the metadata names. -/
theorem own_step (hI : Inv H s) (hA : Assertion H pc) (hok : Delivers H I s t pc)
    (h : ChunkStep B H core I faults t s pc s' pc') : Inv H s' ∧ Assertion H pc' := by
  cases h with
  | @dedup i t _ pc d pc' h =>
    refine ⟨⟨?_, hI.queued⟩, ?_⟩
    · change d.chunkDb.ContentAddressed H
      obtain heq | ⟨cs, data, heq, hdata⟩ := h.puts
      · rw [heq]
        exact hI.stored
      · rw [heq]
        refine hI.stored.getOrPut ?_
        obtain ⟨m, rfl⟩ | ⟨info, rfl, rfl⟩ := hdata
        · rw [CheckSum.method_fromData]
        · exact hA
    · cases pc' with
      | verified info buf => exact h.genuine rfl
      | _ => trivial
  | read => exact ⟨hI, trivial⟩
  | @chunk n t _ wr out inode idx offset remaining total r s₁ h =>
    refine ⟨hI.withNydus fun c hc => ?_, trivial⟩
    obtain hsame | ⟨cs, data, hnew, hover⟩ := NydusImage.stores_readChunkIntoWriter h
    · exact hI.queued n c (hsame ▸ hc)
    · rw [hnew] at hc
      obtain hold | hlast := List.mem_append.mp hc
      · exact hI.queued n c hold
      · obtain rfl := List.mem_singleton.mp hlast
        exact hok cs data hover
  | @recv n _ k =>
    exact ⟨hI.withNydus fun c hc => hI.queued n c (List.mem_of_mem_drop hc),
      fun c hc => hI.queued n c (List.mem_of_mem_take hc)⟩
  | subBatch =>
    exact ⟨⟨hI.stored.putAll fun c hc => hA c (List.mem_of_mem_take hc), hI.queued⟩,
      fun c hc => hA c (List.mem_of_mem_drop hc)⟩
  | stored | prefetch | prefetchHit | prefetchMiss | mismatch => exact ⟨hI, trivial⟩
  | verified data h => exact ⟨hI, h⟩
  | prefetched => exact ⟨⟨hI.stored.getOrPut hA, hI.queued⟩, trivial⟩
  | givenUp => exact ⟨hI, by cases t <;> trivial⟩

theorem env_step {e : ChunkEvent B ν} (hI : Inv H s) (h : ChunkEnv B e s s') : Inv H s' := by
  cases h with
  | evict h => exact ⟨hI.stored.evict h, hI.queued⟩
  | remount => exact ⟨hI.stored, hI.queued⟩
  | mount t h => exact hI.withNydus fun c hc => by rw [h] at hc; cases hc

/-- A step of a task keeps what is stored. -/
theorem data_step (h : ChunkStep B H core I faults t s pc s' pc') {k : CheckSumOnDisk}
    {data : List UInt8} (hk : s.chunkDb.data k = some data) : s'.chunkDb.data k = some data := by
  have hput : ∀ cs data', (s.chunkDb.getOrPut cs data').data k = some data := fun cs data' => by
    change (s.chunkDb.putAll [(cs, data')]).data k = some data
    exact Store.data_putAll_of_some hk
  cases h with
  | dedup h =>
    obtain heq | ⟨cs, data', heq, -⟩ := h.puts
    · exact (congrFun (congrArg Store.data heq) k).trans hk
    · exact (congrFun (congrArg Store.data heq) k).trans (hput cs data')
  | subBatch => exact Store.data_putAll_of_some hk
  | prefetched => exact hput _ _
  | _ => exact hk

variable {c : Config (ChunkTask ι τ ν π) (ChunkWorld B ν) ChunkPc} [DecidableEq τ] [DecidableEq π]

variable (H I) in
/-- The steps at which the blobs deliver what the metadata names. -/
def Delivered (c : Config (ChunkTask ι τ ν π) (ChunkWorld B ν) ChunkPc) :
    ChunkTask ι τ ν π ⊕ ChunkEvent B ν → Prop
  | .inl t => Delivers H I c.shared t (c.loc t)
  | .inr _ => True

theorem holds_of_reach
    (hc : (chunkProgram B H core I faults τ π).toSystem.Reach (Delivered H I) c) :
    Program.Holds (Inv H) (fun _ _ => Assertion H) c := by
  refine Program.invariant (fun c hinit => ?_) (fun c t s' pc' hI hok h => ?_)
    (fun c t u s' pc' hI _ _ _ => hI.2 u) (fun c e s' hI _ h => ⟨env_step hI.1 h, hI.2⟩) hc
  · obtain ⟨hempty, hqueues, hstart⟩ := hinit
    refine ⟨⟨hempty ▸ Store.contentAddressed_empty, fun n c hc => ?_⟩, fun t => ?_⟩
    · rw [hqueues n] at hc
      cases hc
    · rw [hstart t]
      cases t <;> trivial
  · exact own_step hI.1 (hI.2 t) hok h

/-- **The chunk database is content-addressed.** In every run in which the bytes that a read of a
nydus image hands to its worker have the checksum of the metadata, every chunk ever stored has the
checksum it is stored under, and no step changes the data of a chunk otherwise than by evicting
it. -/
theorem content_addressed
    (hc : (chunkProgram B H core I faults τ π).toSystem.Reach (Delivered H I) c) :
    c.shared.chunkDb.ContentAddressed H ∧
      ∀ a c', (chunkProgram B H core I faults τ π).toSystem.step c a c' →
        ∀ k data, c.shared.chunkDb.data k = some data →
          c'.shared.chunkDb.data k = some data ∨ c'.shared.chunkDb.data k = none := by
  refine ⟨(holds_of_reach hc).1.stored, fun a c' h k data hk => ?_⟩
  cases h with
  | thread h => exact .inl (data_step h hk)
  | env h =>
    cases h with
    | evict h =>
      obtain heq | hnone := h k
      · exact .inl (heq.trans hk)
      · exact .inr hnone
    | remount | mount => exact .inl hk

/-! ### One chunk of a nydus image -/

section Run

/-- Hashes that look at the first byte. -/
def headHashes : Hashes :=
  ⟨fun data => Vector.replicate 32 (data.headD 0), fun data => Vector.replicate 32 (data.headD 0)⟩

/-- The small image with the bytes `bytes` in its blob, over an empty chunk database. -/
def overBlob (bytes : List UInt8) : NydusImage Unit Unit :=
  { NydusImage.smallImage with
    openReader := fun w _ => (.ok (NydusImage.shortReader (.ofList bytes)), w)
    chunkDb := some fun w => (.ok .empty, w) }

/-- The checksum that the metadata has for the first chunk. -/
def firstChunk : CheckSum := ⟨Vector.replicate 32 1, .blake3⟩

/-- No image but the nydus image. -/
def noImages : Empty → Backend Unit := Empty.elim

/-- Nothing but the nydus image is mounted. -/
def mounted : ChunkWorld noImages Unit :=
  ⟨.empty, .empty, fun i => i.elim, (), fun _ => NydusImage.smallState⟩

/-- Where the reader of the nydus image and its worker stand. -/
def seats (r w : ChunkPc) : ChunkTask Empty Unit Unit Empty → ChunkPc
  | .nydus _ _ => r
  | .store _ => w
  | t => t.start

/-- The reader comes to the first chunk. -/
def atFirstChunk : ChunkPc := .chunk NydusImage.wholeWriter [] NydusImage.twoChunks 0 0 4 0

/-- What the part of the read in the first chunk comes to. -/
def firstRead (bytes : List UInt8) : Except IoError (ℕ × ℕ) × NydusState Unit :=
  (overBlob bytes).readChunkIntoWriter NydusImage.wholeWriter NydusImage.smallState
    NydusImage.twoChunks 0 0 4 0

variable {ok : Config (ChunkTask Empty Unit Unit Empty) (ChunkWorld noImages Unit) ChunkPc →
    ChunkTask Empty Unit Unit Empty ⊕ ChunkEvent noImages Unit → Prop}
  {J : Unit → NydusImage Unit Unit} {s s' : ChunkWorld noImages Unit} {r w pc : ChunkPc}

theorem seats_nydus
    (hc : (chunkProgram noImages headHashes Empty.elim J False Unit Empty).toSystem.Reach ok
      ⟨s, seats r w⟩)
    (hok : ok ⟨s, seats r w⟩ (.inl (.nydus () ())))
    (h : ChunkStep noImages headHashes Empty.elim J False
      (.nydus () () : ChunkTask Empty Unit Unit Empty) s r s' pc) :
    (chunkProgram noImages headHashes Empty.elim J False Unit Empty).toSystem.Reach ok
      ⟨s', seats pc w⟩ :=
  Program.Reach.thread (.nydus () ()) hc hok h (funext fun t => by cases t <;> rfl)

theorem seats_store
    (hc : (chunkProgram noImages headHashes Empty.elim J False Unit Empty).toSystem.Reach ok
      ⟨s, seats r w⟩)
    (hok : ok ⟨s, seats r w⟩ (.inl (.store ())))
    (h : ChunkStep noImages headHashes Empty.elim J False
      (.store () : ChunkTask Empty Unit Unit Empty) s w s' pc) :
    (chunkProgram noImages headHashes Empty.elim J False Unit Empty).toSystem.Reach ok
      ⟨s', seats r pc⟩ :=
  Program.Reach.thread (.store ()) hc hok h (funext fun t => by cases t <;> rfl)

/-- The first chunk is read, handed to the worker, and stored. -/
theorem firstChunk_stored (bytes : List UInt8)
    (ok : Config (ChunkTask Empty Unit Unit Empty) (ChunkWorld noImages Unit) ChunkPc →
      ChunkTask Empty Unit Unit Empty ⊕ ChunkEvent noImages Unit → Prop)
    (hstores : (firstRead bytes).2.stores = [(firstChunk, bytes)])
    (hread : ok ⟨mounted, seats .idle .idle⟩ (.inl (.nydus () ())))
    (hchunk : ok ⟨mounted, seats atFirstChunk .idle⟩ (.inl (.nydus () ())))
    (hstore : ∀ c, ok c (.inl (.store ()))) :
    ∃ c, (chunkProgram noImages headHashes Empty.elim (fun _ : Unit => overBlob bytes) False Unit
        Empty).toSystem.Reach ok c ∧
      c.shared.chunkDb = Store.empty.putAll [(firstChunk, bytes)] := by
  let P := chunkProgram noImages headHashes Empty.elim (fun _ : Unit => overBlob bytes) False Unit
    Empty
  have h₀ : P.toSystem.Reach ok ⟨mounted, seats .idle .idle⟩ :=
    .init ⟨rfl, fun _ => rfl, fun t => by cases t <;> rfl⟩
  have h₁ := seats_nydus h₀ hread (.read NydusImage.wholeWriter [] NydusImage.twoChunks 0 0 4 0)
  have h₂ : P.toSystem.Reach ok ⟨mounted.withNydus () (firstRead bytes).2, seats .idle .idle⟩ :=
    seats_nydus h₁ hchunk (.chunk rfl)
  have hqueue : ((mounted.withNydus () (firstRead bytes).2).nydus ()).stores =
      [(firstChunk, bytes)] := hstores
  have h₃ := seats_store h₂ (hstore _) (.recv one_pos (by decide) (hqueue ▸ le_rfl))
  rw [hqueue] at h₃
  exact ⟨_, seats_store h₃ (hstore _) (.subBatch (by simp)), rfl⟩

/-- A blob that delivers what the metadata says: the chunk is stored under its checksum. -/
theorem content_addressed_run :
    ∃ c : Config (ChunkTask Empty Unit Unit Empty) (ChunkWorld noImages Unit) ChunkPc,
      c.shared.chunkDb.getChunk firstChunk = some [1, 2, 3, 4] ∧
      c.shared.chunkDb.ContentAddressed headHashes := by
  have hstores : (firstRead [1, 2, 3, 4]).2.stores = [(firstChunk, [1, 2, 3, 4])] := by
    decide +kernel
  have hdelivers : Delivers headHashes (fun _ : Unit => overBlob [1, 2, 3, 4]) mounted
      (.nydus () () : ChunkTask Empty Unit Unit Empty) atFirstChunk := by
    intro cs data h
    have hsame : [(cs, data)] = [(firstChunk, [1, 2, 3, 4])] := h.stores.symm.trans hstores
    obtain ⟨rfl, rfl⟩ := Prod.mk.inj (List.singleton_inj.mp hsame)
    decide
  obtain ⟨c, hc, hdb⟩ := firstChunk_stored [1, 2, 3, 4] (Delivered headHashes
    fun _ : Unit => overBlob [1, 2, 3, 4]) hstores trivial hdelivers fun _ => trivial
  refine ⟨c, ?_, (content_addressed hc).1⟩
  rw [hdb]
  decide

/-- A blob that delivers other bytes: they are stored under the checksum of the metadata. -/
theorem foreign_bytes_stored :
    ∃ c, (chunkProgram noImages headHashes Empty.elim
        (fun _ : Unit => overBlob [9, 2, 3, 4]) False Unit Empty).toSystem.Reachable c ∧
      ¬c.shared.chunkDb.ContentAddressed headHashes := by
  obtain ⟨c, hc, hdb⟩ := firstChunk_stored [9, 2, 3, 4] (fun _ _ => True) (by decide +kernel)
    trivial trivial fun _ => trivial
  refine ⟨c, hc, fun h => ?_⟩
  have hsum := h (.ofCheckSum firstChunk) [9, 2, 3, 4] (by rw [hdb]; decide)
  revert hsum
  decide

end Run

end ChunkWriters

end DistillFs
