import DistillFs.Backend.ChunkDb.Store
import DistillFs.Backend.Basic

/-!
# Reading files of a nydus image

The metadata of a nydus image cuts every file into chunks of the chunk size of the superblock, the
last one of a file being shorter. A chunk is somewhere in a blob, compressed or not, or it is a hole
of zeros. A read goes through the chunks of its range. It takes the bytes of a chunk from the chunk
database if that has them, and otherwise from the blob, asking its reader again and again until all
bytes of the chunk have come; then the whole chunk goes to a worker that stores it in the database.

The metadata, the readers of the blobs and the codecs are parameters. The hidden state `ω` decides
what they answer, and which chunks the database has at the time of a read.

## Main definitions

* `ChunkInfo`, `BlobInfo`, `Inode`, `NydusImage`, `NydusState`.
* `NydusImage.readBlobRange`, `NydusImage.readChunkData`, `NydusImage.readChunkIntoWriter`,
  `NydusImage.read`.
* `NydusImage.HoldsFile`: a content in the chunks of an inode.

## Main results

* `NydusImage.read_ok`: a read that succeeds has written the bytes of the file.
* `NydusImage.stores_read`: what goes to the database are chunks of the file.
-/

namespace DistillFs

open Foundation

variable {ω κ : Type}

/-! ### The image -/

/-- A chunk of a file in the metadata. -/
structure ChunkInfo where
  blobIndex : ℕ
  chunkId : List UInt8
  compressedOffset : ℕ
  compressedSize : ℕ
  uncompressedSize : ℕ
  isCompressed : Bool
  isEncrypted : Bool
  isBatch : Bool

inductive DigestAlgorithm
  | blake3
  | sha256

/-- A blob in the metadata. -/
structure BlobInfo (κ : Type) where
  blobId : String
  digester : DigestAlgorithm
  compressor : κ

/-- A file or directory in the metadata. Chunks have numbers of 32 bits. -/
structure Inode where
  isReg : Bool
  size : ℕ
  getChunkInfo : UInt32 → Except IoError ChunkInfo

/-- An image with what it rests on. -/
structure NydusImage (ω κ : Type) where
  rootIno : ℕ
  chunkSize : ℕ
  getExtendedInode : ℕ → Except IoError Inode
  blobs : ℕ → Option (BlobInfo κ)
  /-- The reader of a blob, with the cache and deduplication of the image. -/
  openReader : ω → String → Except IoError (Backend ω) × ω
  /-- The decompressed length, or an error, and the buffer. -/
  decompress : κ → List UInt8 → List UInt8 → Except String ℕ × List UInt8
  /-- A read of the chunk database, which some images do not have. -/
  chunkDb : Option (ω → Except String Store × ω)
  /-- Whether the queue of the worker takes a chunk. -/
  trySend : ω → Bool × ω

/-- The state of an image while it is read. -/
structure NydusState (ω : Type) where
  hidden : ω
  readers : String → Option (Backend ω)
  /-- The bytes that the writer of the read has taken. -/
  out : List UInt8
  /-- The chunks that were handed to the worker. -/
  stores : List (CheckSum × List UInt8)

namespace NydusImage

/-- The inode number of a root directory outside the image. -/
def rootId : ℕ := 1

variable (I : NydusImage ω κ)

def toRafsIno (ino : ℕ) : ℕ := if ino = rootId then I.rootIno else ino

def getBlob (index : ℕ) : Except IoError (BlobInfo κ) :=
  match I.blobs index with
  | some blob => .ok blob
  | none => .error ⟨.notFound, "blob index not found"⟩

/-- The reader of a blob is opened once. -/
def getBlobReader (s : NydusState ω) (blob : BlobInfo κ) :
    Except IoError (Backend ω) × NydusState ω :=
  match s.readers blob.blobId with
  | some reader => (.ok reader, s)
  | none =>
    match I.openReader s.hidden blob.blobId with
    | (.error e, w) => (.error e, { s with hidden := w })
    | (.ok reader, w) =>
      (.ok reader,
        { s with
          hidden := w
          readers := Function.update s.readers blob.blobId (some reader) })

def checksumFromChunk (chunk : ChunkInfo) (blob : BlobInfo κ) : Except IoError CheckSum :=
  let method :=
    match blob.digester with
    | .blake3 => CheckSumMethod.blake3
    | .sha256 => CheckSumMethod.sha256
  CheckSum.new chunk.chunkId method

/-- The loop of `read_blob_range`, with `read` bytes of `buf` filled. -/
def readBlobRangeFrom (reader : Backend ω) (w : ω) (offset : ℕ) (buf : List UInt8) (read : ℕ) :
    Except IoError (List UInt8) × ω :=
  if read < buf.length then
    let answer := reader.fetch w (offset + read) (buf.drop read)
    match answer.1.1 with
    | .error e => (.error e, answer.2)
    | .ok n =>
      if n = 0 then (.error ⟨.unexpectedEof, "short read"⟩, answer.2)
      else readBlobRangeFrom reader answer.2 offset (buf.take read ++ answer.1.2) (read + n)
  else (.ok buf, w)
  termination_by buf.length - read
  decreasing_by
    rw [List.length_append, reader.length_fetch, List.length_take, List.length_drop]
    omega

def readBlobRange (reader : Backend ω) (w : ω) (offset size : ℕ) :
    Except IoError (List UInt8) × ω :=
  readBlobRangeFrom reader w offset (List.replicate size 0) 0

/-- The uncompressed bytes of a chunk. -/
def readChunkData (s : NydusState ω) (chunk : ChunkInfo) (blob : BlobInfo κ) :
    Except IoError (List UInt8) × NydusState ω :=
  if chunk.isEncrypted then (.error ⟨.unsupported, "encrypted chunk is not supported"⟩, s)
  else if chunk.isBatch then (.error ⟨.unsupported, "batch chunk is not supported"⟩, s)
  else if chunk.uncompressedSize = 0 then (.ok [], s)
  else if chunk.compressedSize = 0 then (.ok (List.replicate chunk.uncompressedSize 0), s)
  else
    match I.getBlobReader s blob with
    | (.error e, s) => (.error e, s)
    | (.ok reader, s) =>
      match readBlobRange reader s.hidden chunk.compressedOffset chunk.compressedSize with
      | (.error e, w) => (.error e, { s with hidden := w })
      | (.ok compressed, w) =>
        let s := { s with hidden := w }
        if !chunk.isCompressed then
          if compressed.length < chunk.uncompressedSize then
            (.error ⟨.invalidData, "compressed data is shorter than expected"⟩, s)
          else (.ok (compressed.take chunk.uncompressedSize), s)
        else
          match I.decompress blob.compressor compressed
            (List.replicate chunk.uncompressedSize 0) with
          | (.error e, _) => (.error ⟨.invalidData, "decompress failed: " ++ e⟩, s)
          | (.ok sz, data) =>
            (.ok (if sz ≠ chunk.uncompressedSize then data.take sz else data), s)

/-- A chunk is handed to the worker if its queue is not full. -/
def storeChunkBg (s : NydusState ω) (cs : CheckSum) (data : List UInt8) : NydusState ω :=
  if I.chunkDb.isSome then
    let sent := I.trySend s.hidden
    { s with hidden := sent.2, stores := if sent.1 then s.stores ++ [(cs, data)] else s.stores }
  else s

/-- The number of bytes that were written from the database. There is none if the database does not
have the chunk, and also if it or the writer fails. -/
def readFromChunkdb (wr : Writer) (s : NydusState ω) (cs : CheckSum) (start len : ℕ) :
    Option ℕ × NydusState ω :=
  match I.chunkDb with
  | none => (none, s)
  | some withChunkRange =>
    match withChunkRange s.hidden with
    | (.error _, w) => (none, { s with hidden := w })
    | (.ok store, w) =>
      let s := { s with hidden := w }
      match store.getChunk cs with
      | none => (none, s)
      | some b =>
        if start + len > b.length then (none, s)
        else
          match wr.write s.out ((b.drop start).take len) with
          | (.ok n, out) => (some n, { s with out := out })
          | (.error _, out) => (none, { s with out := out })

/-- The number of bytes to read. -/
def checkReadRange (inode : Inode) (size offset : ℕ) : Except IoError ℕ :=
  if 2 ^ 64 ≤ offset + size then .error ⟨.invalidInput, "invalid range"⟩
  else if !inode.isReg then .error ⟨.isADirectory, "Is a directory (os error 21)"⟩
  else if size = 0 ∨ inode.size ≤ offset then .ok 0
  else .ok (min size (inode.size - offset))

/-- The part of a read in one chunk. It answers with the bytes that remain and the total. -/
def readChunkIntoWriter (wr : Writer) (s : NydusState ω) (inode : Inode)
    (chunkIdx offset remaining total : ℕ) : Except IoError (ℕ × ℕ) × NydusState ω :=
  match inode.getChunkInfo (UInt32.ofNat chunkIdx) with
  | .error e => (.error e, s)
  | .ok chunk =>
    match I.getBlob chunk.blobIndex with
    | .error e => (.error e, s)
    | .ok blob =>
      let chunkBase := chunkIdx * I.chunkSize
      let chunkOffset := if chunkBase < offset then offset - chunkBase else 0
      if chunk.uncompressedSize ≤ chunkOffset then
        (.error ⟨.invalidData, "invalid chunk offset"⟩, s)
      else
        let wanted := min remaining (chunk.uncompressedSize - chunkOffset)
        match checksumFromChunk chunk blob with
        | .error e => (.error e, s)
        | .ok cs =>
          match I.readFromChunkdb wr s cs chunkOffset wanted with
          | (some n, s) => (.ok (remaining - n, total + n), s)
          | (none, s) =>
            match I.readChunkData s chunk blob with
            | (.error e, s) => (.error e, s)
            | (.ok data, s) =>
              if data.length < chunkOffset + wanted then
                (.error ⟨.invalidData, "chunk data is shorter than expected"⟩, s)
              else
                match wr.write s.out ((data.drop chunkOffset).take wanted) with
                | (.error e, out) => (.error e, { s with out := out })
                | (.ok n, out) =>
                  let s := { s with out := out }
                  (.ok (remaining - n, total + n),
                    if data.length = chunk.uncompressedSize then I.storeChunkBg s cs data else s)

/-- The loop of `read` over `count` chunks. -/
def readChunks (wr : Writer) (inode : Inode) (offset : ℕ) :
    (count : ℕ) → NydusState ω → (chunkIdx remaining total : ℕ) →
      Except IoError ℕ × NydusState ω
  | 0, s, _, _, total => (.ok total, s)
  | count + 1, s, chunkIdx, remaining, total =>
    match I.readChunkIntoWriter wr s inode chunkIdx offset remaining total with
    | (.error e, s) => (.error e, s)
    | (.ok (remaining, total), s) =>
      if remaining = 0 then (.ok total, s)
      else readChunks wr inode offset count s (chunkIdx + 1) remaining total

/-- A read of `size` bytes at `offset`. -/
def read (wr : Writer) (s : NydusState ω) (ino size offset : ℕ) :
    Except IoError ℕ × NydusState ω :=
  match I.getExtendedInode (I.toRafsIno ino) with
  | .error e => (.error e, s)
  | .ok inode =>
    match checkReadRange inode size offset with
    | .error e => (.error e, s)
    | .ok readSize =>
      if readSize = 0 then (.ok 0, s)
      else
        let startChunk := offset / I.chunkSize
        let endChunk := (offset + readSize - 1) / I.chunkSize
        I.readChunks wr inode offset (endChunk + 1 - startChunk) s startChunk readSize 0

end NydusImage

/-! ### Files in chunks -/

/-- A fetch inside the content that succeeds has filled the first bytes of the buffer, as many as it
says. -/
structure Backend.ReadsPrefix (B : Backend ω) (F : ByteFile) : Prop where
  fetch_ok : ∀ w off buf n, off + buf.length ≤ F.len → (B.fetch w off buf).1.1 = .ok n →
    n ≤ buf.length ∧ (B.fetch w off buf).1.2.take n = F.slice off n

/-- A slice is taken as a whole or refused. -/
def Writer.WholeOrRefused (wr : Writer) : Prop :=
  ∀ out data n, wr.accept out data = .ok n → n = data.length

theorem Writer.WholeOrRefused.write {wr : Writer} (hwr : wr.WholeOrRefused)
    {out data out' : List UInt8} {r : Except IoError ℕ} (h : wr.write out data = (r, out')) :
    (∃ e, r = .error e ∧ out' = out) ∨ r = .ok data.length ∧ out' = out ++ data := by
  unfold Writer.write at h
  cases haccept : wr.accept out data with
  | error e =>
    rw [haccept] at h
    obtain ⟨rfl, rfl⟩ := Prod.mk.inj h
    exact .inl ⟨e, rfl, rfl⟩
  | ok n =>
    rw [haccept] at h
    obtain ⟨rfl, rfl⟩ := Prod.mk.inj h
    obtain rfl := hwr _ _ _ haccept
    exact .inr ⟨rfl, congrArg _ (List.take_length ..)⟩

namespace NydusImage

variable (I : NydusImage ω κ) (C : String → ByteFile)

/-- The bytes `data` are those of a chunk of a blob. In the blob they are a hole, or they stand
there, or they decompress from what stands there. A database that has the chunk has these bytes. -/
structure HoldsChunk (chunk : ChunkInfo) (blob : BlobInfo κ) (data : List UInt8) : Prop where
  uncompressedSize : chunk.uncompressedSize = data.length
  isEncrypted : chunk.isEncrypted = false
  isBatch : chunk.isBatch = false
  inBlob : chunk.compressedSize ≠ 0 →
    chunk.compressedOffset + chunk.compressedSize ≤ (C blob.blobId).len
  hole : chunk.compressedSize = 0 → data = List.replicate data.length 0
  uncompressed : chunk.compressedSize ≠ 0 → chunk.isCompressed = false →
    data.length ≤ chunk.compressedSize →
    (C blob.blobId).slice chunk.compressedOffset data.length = data
  compressed : chunk.compressedSize ≠ 0 → chunk.isCompressed = true → ∀ n buf,
    I.decompress blob.compressor
      ((C blob.blobId).slice chunk.compressedOffset chunk.compressedSize)
      (List.replicate data.length 0) = (.ok n, buf) →
    n = data.length ∧ buf = data
  stored : ∀ cs, checksumFromChunk chunk blob = .ok cs → ∀ chunkDb ∈ I.chunkDb, ∀ w store w',
    chunkDb w = (.ok store, w') → ∀ b, store.getChunk cs = some b → b = data

/-- The chunk `idx` of a file. -/
def chunkData (F : ByteFile) (idx : ℕ) : List UInt8 :=
  F.slice (idx * I.chunkSize) (min I.chunkSize (F.len - idx * I.chunkSize))

/-- The chunks of an inode hold the content `F`. -/
structure HoldsFile (inode : Inode) (F : ByteFile) : Prop where
  size_eq : inode.size = F.len
  chunkSize_pos : 0 < F.len → 0 < I.chunkSize
  chunks : ∀ idx, idx * I.chunkSize < F.len → ∀ chunk blob,
    inode.getChunkInfo (UInt32.ofNat idx) = .ok chunk → I.blobs chunk.blobIndex = some blob →
    I.HoldsChunk C chunk blob (I.chunkData F idx)

/-- The readers that can be opened read the blobs. -/
def OpensBlobs : Prop :=
  ∀ w blobId reader w', I.openReader w blobId = (.ok reader, w') → reader.ReadsPrefix (C blobId)

/-- The readers that are open read the blobs. -/
def ServesBlobs (s : NydusState ω) : Prop :=
  ∀ blobId reader, s.readers blobId = some reader → reader.ReadsPrefix (C blobId)

/-! ### What a chunk comes to -/

variable {I C}

theorem readBlobRangeFrom_ok {reader : Backend ω} {F : ByteFile} (hreader : reader.ReadsPrefix F)
    {w w' : ω} {offset read : ℕ} {buf data : List UInt8} (hlen : offset + buf.length ≤ F.len)
    (hread : read ≤ buf.length) (hbuf : buf.take read = F.slice offset read)
    (h : readBlobRangeFrom reader w offset buf read = (.ok data, w')) :
    data = F.slice offset buf.length := by
  induction w, buf, read using readBlobRangeFrom.induct reader offset with
  | case1 w buf read hlt answer e he =>
    rw [readBlobRangeFrom, if_pos hlt] at h
    simp only [answer] at he
    simp only [he] at h
    cases h
  | case2 w buf read hlt answer he =>
    rw [readBlobRangeFrom, if_pos hlt] at h
    simp only [answer] at he
    simp only [he] at h
    cases h
  | case3 w buf read hlt answer n hn hzero ih =>
    have hfetch := hreader.fetch_ok w (offset + read) (buf.drop read) n
      (by rw [List.length_drop]; omega) hn
    rw [List.length_drop] at hfetch
    obtain ⟨hle, htake⟩ := hfetch
    have hsame : (buf.take read ++ answer.1.2).length = buf.length := by
      rw [List.length_append, reader.length_fetch, List.length_take, List.length_drop]
      omega
    have hmore : (buf.take read ++ answer.1.2).take (read + n) = F.slice offset (read + n) := by
      rw [List.take_append, List.length_take, Nat.min_eq_left hlt.le,
        List.take_of_length_le (by rw [List.length_take]; omega), Nat.add_sub_cancel_left, hbuf,
        htake, F.slice_append]
    rw [← hsame]
    refine ih (hsame.symm ▸ hlen) (by omega) hmore ?_
    rw [readBlobRangeFrom, if_pos hlt] at h
    simp only [answer] at hn
    simpa only [hn, if_neg hzero] using h
  | case4 w buf read hge =>
    rw [readBlobRangeFrom, if_neg hge] at h
    obtain rfl := Except.ok.inj (Prod.mk.inj h).1
    obtain rfl := Nat.le_antisymm hread (Nat.le_of_not_lt hge)
    rwa [List.take_length] at hbuf

theorem readBlobRange_ok {reader : Backend ω} {F : ByteFile} (hreader : reader.ReadsPrefix F)
    {w w' : ω} {offset size : ℕ} {data : List UInt8} (hlen : offset + size ≤ F.len)
    (h : readBlobRange reader w offset size = (.ok data, w')) : data = F.slice offset size := by
  have hsize : (List.replicate size (0 : UInt8)).length = size := List.length_replicate
  have hdata := readBlobRangeFrom_ok hreader (hsize.symm ▸ hlen) (Nat.zero_le _)
    (F.slice_zero offset).symm h
  rwa [hsize] at hdata

variable {s s' : NydusState ω} {chunk : ChunkInfo} {blob : BlobInfo κ} {data : List UInt8}

variable (C) in
/-- An operation that has opened readers at most. -/
structure Opened (s s' : NydusState ω) : Prop where
  out : s'.out = s.out
  stores : s'.stores = s.stores
  serves : ServesBlobs C s'

theorem ServesBlobs.opened (hs : ServesBlobs C s) (w : ω) : Opened C s { s with hidden := w } :=
  ⟨rfl, rfl, hs⟩

theorem getBlobReader_spec (hopens : I.OpensBlobs C) (hs : ServesBlobs C s)
    {r : Except IoError (Backend ω)} (h : I.getBlobReader s blob = (r, s')) :
    Opened C s s' ∧ ∀ reader, r = .ok reader → reader.ReadsPrefix (C blob.blobId) := by
  unfold getBlobReader at h
  cases hreader : s.readers blob.blobId with
  | some reader =>
    simp only [hreader] at h
    obtain ⟨rfl, rfl⟩ := Prod.mk.inj h
    exact ⟨⟨rfl, rfl, hs⟩, fun _ heq => Except.ok.inj heq ▸ hs _ _ hreader⟩
  | none =>
    rcases hopen : I.openReader s.hidden blob.blobId with ⟨e | reader, w⟩
    · simp only [hreader, hopen] at h
      obtain ⟨rfl, rfl⟩ := Prod.mk.inj h
      exact ⟨hs.opened w, fun _ heq => by cases heq⟩
    · simp only [hreader, hopen] at h
      obtain ⟨rfl, rfl⟩ := Prod.mk.inj h
      have hnew := hopens _ _ _ _ hopen
      refine ⟨⟨rfl, rfl, fun blobId reader' hreader' => ?_⟩, fun _ heq => Except.ok.inj heq ▸ hnew⟩
      have hlookup := (Function.update_apply ..).symm.trans hreader'
      split_ifs at hlookup with hblob
      · obtain rfl := Option.some.inj hlookup
        exact hblob ▸ hnew
      · exact hs _ _ hlookup

/-- The bytes that come from the blob are those of the chunk. -/
theorem readChunkData_spec (hopens : I.OpensBlobs C) (hs : ServesBlobs C s)
    (hchunk : I.HoldsChunk C chunk blob data) {r : Except IoError (List UInt8)}
    (h : I.readChunkData s chunk blob = (r, s')) :
    Opened C s s' ∧ ∀ data', r = .ok data' → data' = data := by
  have hsize := hchunk.uncompressedSize
  simp only [readChunkData, hchunk.isEncrypted, hchunk.isBatch, Bool.false_eq_true, if_false] at h
  by_cases hempty : chunk.uncompressedSize = 0
  · rw [if_pos hempty] at h
    obtain ⟨rfl, rfl⟩ := Prod.mk.inj h
    have hnil := List.length_eq_zero_iff.mp (hsize.symm.trans hempty)
    exact ⟨⟨rfl, rfl, hs⟩, fun _ heq => Except.ok.inj heq ▸ hnil.symm⟩
  rw [if_neg hempty] at h
  by_cases hhole : chunk.compressedSize = 0
  · rw [if_pos hhole] at h
    obtain ⟨rfl, rfl⟩ := Prod.mk.inj h
    refine ⟨⟨rfl, rfl, hs⟩, fun _ heq => ?_⟩
    rw [hchunk.hole hhole, ← hsize]
    exact (Except.ok.inj heq).symm
  · rw [if_neg hhole] at h
    rcases hreader : I.getBlobReader s blob with ⟨e | reader, s₁⟩
    · simp only [hreader] at h
      obtain ⟨rfl, rfl⟩ := Prod.mk.inj h
      exact ⟨(getBlobReader_spec hopens hs hreader).1, fun _ heq => by cases heq⟩
    · obtain ⟨hopened, hprefix⟩ := getBlobReader_spec hopens hs hreader
      have hreads := hprefix reader rfl
      have hdone : ∀ w, Opened C s { s₁ with hidden := w } := fun w =>
        ⟨hopened.out, hopened.stores, hopened.serves⟩
      simp only [hreader] at h
      rcases hrange : readBlobRange reader s₁.hidden chunk.compressedOffset chunk.compressedSize
        with ⟨e | compressed, w⟩
      · simp only [hrange] at h
        obtain ⟨rfl, rfl⟩ := Prod.mk.inj h
        exact ⟨hdone w, fun _ heq => by cases heq⟩
      · obtain rfl := readBlobRange_ok hreads (hchunk.inBlob hhole) hrange
        simp only [hrange, ByteFile.length_slice] at h
        cases hcompressed : chunk.isCompressed with
        | false =>
          simp only [hcompressed, Bool.not_false, if_true] at h
          split_ifs at h with hshort
          · obtain ⟨rfl, rfl⟩ := Prod.mk.inj h
            exact ⟨hdone w, fun _ heq => by cases heq⟩
          · obtain ⟨rfl, rfl⟩ := Prod.mk.inj h
            refine ⟨hdone w, fun _ heq => ?_⟩
            have hle := Nat.le_of_not_lt hshort
            rw [← Except.ok.inj heq, ByteFile.take_slice _ hle, hsize]
            exact hchunk.uncompressed hhole hcompressed (hsize ▸ hle)
        | true =>
          simp only [hcompressed, Bool.not_true, Bool.false_eq_true, if_false] at h
          rcases hdec : I.decompress blob.compressor ((C blob.blobId).slice chunk.compressedOffset
            chunk.compressedSize) (List.replicate chunk.uncompressedSize 0) with ⟨e | sz, buf⟩
          · simp only [hdec] at h
            obtain ⟨rfl, rfl⟩ := Prod.mk.inj h
            exact ⟨hdone w, fun _ heq => by cases heq⟩
          · simp only [hdec] at h
            obtain ⟨rfl, rfl⟩ := Prod.mk.inj h
            refine ⟨hdone w, fun _ heq => ?_⟩
            rw [hsize] at hdec
            obtain ⟨rfl, rfl⟩ := hchunk.compressed hhole hcompressed _ _ hdec
            rw [← Except.ok.inj heq, if_neg (not_not.mpr hsize.symm)]

/-- The bytes that come from the database are those of the chunk. If it does not answer, nothing was
written. -/
theorem readFromChunkdb_spec {wr : Writer} (hwr : wr.WholeOrRefused) (hs : ServesBlobs C s)
    {cs : CheckSum}
    (hdb : ∀ chunkDb ∈ I.chunkDb, ∀ w store w', chunkDb w = (.ok store, w') →
      ∀ b, store.getChunk cs = some b → b = data)
    {start len : ℕ} {r : Option ℕ} (h : I.readFromChunkdb wr s cs start len = (r, s')) :
    ServesBlobs C s' ∧ s'.stores = s.stores ∧
      (r = none ∧ s'.out = s.out ∨
        r = some len ∧ s'.out = s.out ++ (data.drop start).take len) := by
  unfold readFromChunkdb at h
  cases hdedup : I.chunkDb with
  | none =>
    simp only [hdedup] at h
    obtain ⟨rfl, rfl⟩ := Prod.mk.inj h
    exact ⟨hs, rfl, .inl ⟨rfl, rfl⟩⟩
  | some chunkDb =>
    rcases hstore : chunkDb s.hidden with ⟨e | store, w⟩
    · simp only [hdedup, hstore] at h
      obtain ⟨rfl, rfl⟩ := Prod.mk.inj h
      exact ⟨hs, rfl, .inl ⟨rfl, rfl⟩⟩
    · cases hb : store.getChunk cs with
      | none =>
        simp only [hdedup, hstore, hb] at h
        obtain ⟨rfl, rfl⟩ := Prod.mk.inj h
        exact ⟨hs, rfl, .inl ⟨rfl, rfl⟩⟩
      | some b =>
        obtain rfl := hdb chunkDb hdedup _ _ _ hstore b hb
        simp only [hdedup, hstore, hb] at h
        by_cases hrange : start + len > b.length
        · rw [if_pos hrange] at h
          obtain ⟨rfl, rfl⟩ := Prod.mk.inj h
          exact ⟨hs, rfl, .inl ⟨rfl, rfl⟩⟩
        · rw [if_neg hrange] at h
          have hlen : ((b.drop start).take len).length = len := by
            rw [List.length_take, List.length_drop]
            omega
          rcases hwrite : wr.write s.out ((b.drop start).take len) with ⟨answer, out⟩
          rcases hwr.write hwrite with ⟨e, rfl, rfl⟩ | ⟨rfl, rfl⟩
          · simp only [hwrite] at h
            obtain ⟨rfl, rfl⟩ := Prod.mk.inj h
            exact ⟨hs, rfl, .inl ⟨rfl, rfl⟩⟩
          · simp only [hwrite, hlen] at h
            obtain ⟨rfl, rfl⟩ := Prod.mk.inj h
            exact ⟨hs, rfl, .inr ⟨rfl, rfl⟩⟩

variable (I) in
/-- The bytes of a chunk of the file, with its checksum. -/
def IsChunk (inode : Inode) (F : ByteFile) (store : CheckSum × List UInt8) : Prop :=
  ∃ idx chunk blob, idx * I.chunkSize < F.len ∧
    inode.getChunkInfo (UInt32.ofNat idx) = .ok chunk ∧ I.blobs chunk.blobIndex = some blob ∧
    checksumFromChunk chunk blob = .ok store.1 ∧ store.2 = I.chunkData F idx

theorem storeChunkBg_spec (hs : ServesBlobs C s) (cs : CheckSum) (data : List UInt8) :
    ServesBlobs C (I.storeChunkBg s cs data) ∧ (I.storeChunkBg s cs data).out = s.out ∧
      ∀ store ∈ (I.storeChunkBg s cs data).stores, store ∈ s.stores ∨ store = (cs, data) := by
  unfold storeChunkBg
  split_ifs with hdedup
  · refine ⟨hs, rfl, fun store hstore => ?_⟩
    dsimp only at hstore
    split_ifs at hstore
    · exact (List.mem_append.mp hstore).imp_right List.mem_singleton.mp
    · exact .inl hstore
  · exact ⟨hs, rfl, fun _ => .inl⟩

/-! ### The chunks of a read -/

variable {inode : Inode} {F : ByteFile}

variable (I C inode F) in
/-- A part of a read keeps the readers right, and all that it hands to the worker are chunks of the
file. -/
structure Sound (s s' : NydusState ω) : Prop where
  serves : ServesBlobs C s'
  stores : ∀ store ∈ s'.stores, store ∈ s.stores ∨ I.IsChunk inode F store

theorem Sound.refl (hs : ServesBlobs C s) : I.Sound C inode F s s := ⟨hs, fun _ => .inl⟩

theorem Sound.trans {t : NydusState ω} (hst : I.Sound C inode F s t)
    (htu : I.Sound C inode F t s') : I.Sound C inode F s s' :=
  ⟨htu.serves, fun store hstore => (htu.stores store hstore).elim (hst.stores store) .inr⟩

theorem Sound.of_stores (hs' : ServesBlobs C s') (h : s'.stores = s.stores) :
    I.Sound C inode F s s' :=
  ⟨hs', fun _ hstore => .inl (h ▸ hstore)⟩

theorem getBlob_ok {index : ℕ} {blob : BlobInfo κ} (h : I.getBlob index = .ok blob) :
    I.blobs index = some blob := by
  unfold getBlob at h
  split at h
  · next hblob => exact hblob.trans (congrArg some (Except.ok.inj h))
  · cases h

theorem Opened.sound (h : Opened C s s') : I.Sound C inode F s s' := .of_stores h.serves h.stores

variable {idx offset remaining total : ℕ}

variable (I C inode F idx offset remaining total) in
/-- What the part of a read in the chunk `idx` may come to: an error, or the bytes it wants of the
chunk are written and counted. -/
structure ChunkRead (s : NydusState ω) (r : Except IoError (ℕ × ℕ)) (s' : NydusState ω) : Prop where
  sound : I.Sound C inode F s s'
  ok : ∀ rest, r = .ok rest → offset - idx * I.chunkSize < (I.chunkData F idx).length ∧
    ∃ wanted,
      wanted = min remaining ((I.chunkData F idx).length - (offset - idx * I.chunkSize)) ∧
      rest = (remaining - wanted, total + wanted) ∧
      s'.out = s.out ++ ((I.chunkData F idx).drop (offset - idx * I.chunkSize)).take wanted

theorem Sound.chunkRead_error (h : I.Sound C inode F s s') {e : IoError} :
    I.ChunkRead C inode F idx offset remaining total s (.error e) s' :=
  ⟨h, fun _ heq => by cases heq⟩

/-- Where a read that starts at `offset` begins in a chunk that starts at `base`. -/
theorem offset_in_chunk (base offset : ℕ) :
    (if base < offset then offset - base else 0) = offset - base := by
  split_ifs with hlt
  · rfl
  · exact (Nat.sub_eq_zero_of_le (Nat.le_of_not_lt hlt)).symm

variable (I remaining total) in
/-- What comes after the metadata: the range of `wanted` bytes from `start` on of the chunk `cs` is
read from the database, or else the chunk is taken from its blob. -/
inductive PartRead (wr : Writer) (s : NydusState ω) (chunk : ChunkInfo) (blob : BlobInfo κ)
    (cs : CheckSum) (start wanted : ℕ) : Except IoError (ℕ × ℕ) → NydusState ω → Prop
  | hit {n : ℕ} {s₁ : NydusState ω} (hdb : I.readFromChunkdb wr s cs start wanted = (some n, s₁)) :
      PartRead wr s chunk blob cs start wanted (.ok (remaining - n, total + n)) s₁
  | failed {e : IoError} {s₁ s₂ : NydusState ω}
      (hdb : I.readFromChunkdb wr s cs start wanted = (none, s₁))
      (hdata : I.readChunkData s₁ chunk blob = (.error e, s₂)) :
      PartRead wr s chunk blob cs start wanted (.error e) s₂
  | short {data : List UInt8} {s₁ s₂ : NydusState ω}
      (hdb : I.readFromChunkdb wr s cs start wanted = (none, s₁))
      (hdata : I.readChunkData s₁ chunk blob = (.ok data, s₂))
      (hlen : data.length < start + wanted) :
      PartRead wr s chunk blob cs start wanted
        (.error ⟨.invalidData, "chunk data is shorter than expected"⟩) s₂
  | unwritten {data : List UInt8} {s₁ s₂ : NydusState ω} {e : IoError} {out : List UInt8}
      (hdb : I.readFromChunkdb wr s cs start wanted = (none, s₁))
      (hdata : I.readChunkData s₁ chunk blob = (.ok data, s₂))
      (hwrite : wr.write s₂.out ((data.drop start).take wanted) = (.error e, out)) :
      PartRead wr s chunk blob cs start wanted (.error e) { s₂ with out := out }
  | written {data : List UInt8} {s₁ s₂ : NydusState ω} {n : ℕ} {out : List UInt8}
      (hdb : I.readFromChunkdb wr s cs start wanted = (none, s₁))
      (hdata : I.readChunkData s₁ chunk blob = (.ok data, s₂))
      (hwrite : wr.write s₂.out ((data.drop start).take wanted) = (.ok n, out)) :
      PartRead wr s chunk blob cs start wanted (.ok (remaining - n, total + n))
        (if data.length = chunk.uncompressedSize then
          I.storeChunkBg { s₂ with out := out } cs data
        else { s₂ with out := out })

/-- The part of a read in a chunk fails on the metadata, or goes on to the data. -/
theorem readChunkIntoWriter_cases {wr : Writer} {r : Except IoError (ℕ × ℕ)}
    (h : I.readChunkIntoWriter wr s inode idx offset remaining total = (r, s')) :
    (s' = s ∧ ∃ e, r = .error e) ∨
    ∃ chunk blob cs, inode.getChunkInfo (UInt32.ofNat idx) = .ok chunk ∧
      I.getBlob chunk.blobIndex = .ok blob ∧
      offset - idx * I.chunkSize < chunk.uncompressedSize ∧ checksumFromChunk chunk blob = .ok cs ∧
      I.PartRead remaining total wr s chunk blob cs (offset - idx * I.chunkSize)
        (min remaining (chunk.uncompressedSize - (offset - idx * I.chunkSize))) r s' := by
  simp only [readChunkIntoWriter, offset_in_chunk] at h
  cases hinfo : inode.getChunkInfo (UInt32.ofNat idx) with
  | error e =>
    simp only [hinfo] at h
    obtain ⟨rfl, rfl⟩ := Prod.mk.inj h
    exact .inl ⟨rfl, e, rfl⟩
  | ok chunk =>
  cases hget : I.getBlob chunk.blobIndex with
  | error e =>
    simp only [hinfo, hget] at h
    obtain ⟨rfl, rfl⟩ := Prod.mk.inj h
    exact .inl ⟨rfl, e, rfl⟩
  | ok blob =>
  simp only [hinfo, hget] at h
  by_cases hle : chunk.uncompressedSize ≤ offset - idx * I.chunkSize
  · rw [if_pos hle] at h
    obtain ⟨rfl, rfl⟩ := Prod.mk.inj h
    exact .inl ⟨rfl, _, rfl⟩
  rw [if_neg hle] at h
  cases hcs : checksumFromChunk chunk blob with
  | error e =>
    simp only [hcs] at h
    obtain ⟨rfl, rfl⟩ := Prod.mk.inj h
    exact .inl ⟨rfl, e, rfl⟩
  | ok cs =>
  refine .inr ⟨chunk, blob, cs, rfl, hget, Nat.lt_of_not_le hle, hcs, ?_⟩
  rcases hdb : I.readFromChunkdb wr s cs (offset - idx * I.chunkSize)
    (min remaining (chunk.uncompressedSize - (offset - idx * I.chunkSize))) with ⟨_ | n, s₁⟩
  · rcases hdata : I.readChunkData s₁ chunk blob with ⟨e | data, s₂⟩
    · simp only [hcs, hdb, hdata] at h
      obtain ⟨rfl, rfl⟩ := Prod.mk.inj h
      exact .failed hdb hdata
    simp only [hcs, hdb, hdata] at h
    by_cases hshort : data.length < offset - idx * I.chunkSize +
      min remaining (chunk.uncompressedSize - (offset - idx * I.chunkSize))
    · rw [if_pos hshort] at h
      obtain ⟨rfl, rfl⟩ := Prod.mk.inj h
      exact .short hdb hdata hshort
    rw [if_neg hshort] at h
    rcases hwrite : wr.write s₂.out ((data.drop (offset - idx * I.chunkSize)).take
      (min remaining (chunk.uncompressedSize - (offset - idx * I.chunkSize)))) with ⟨e | n, out⟩
    · simp only [hwrite] at h
      obtain ⟨rfl, rfl⟩ := Prod.mk.inj h
      exact .unwritten hdb hdata hwrite
    · simp only [hwrite] at h
      obtain ⟨rfl, rfl⟩ := Prod.mk.inj h
      exact .written hdb hdata hwrite
  · simp only [hcs, hdb] at h
    obtain ⟨rfl, rfl⟩ := Prod.mk.inj h
    exact .hit hdb

theorem readChunkIntoWriter_spec {wr : Writer} (hwr : wr.WholeOrRefused) (hopens : I.OpensBlobs C)
    (hfile : I.HoldsFile C inode F) (hs : ServesBlobs C s) (hidx : idx * I.chunkSize < F.len)
    {r : Except IoError (ℕ × ℕ)}
    (h : I.readChunkIntoWriter wr s inode idx offset remaining total = (r, s')) :
    I.ChunkRead C inode F idx offset remaining total s r s' := by
  obtain ⟨rfl, e, rfl⟩ | ⟨chunk, blob, cs, hinfo, hget, hlt, hcs, hpart⟩ :=
    readChunkIntoWriter_cases h
  · exact Sound.chunkRead_error (.refl hs)
  have hblob := getBlob_ok hget
  have hchunk := hfile.chunks idx hidx chunk blob hinfo hblob
  have hstored := hchunk.stored cs hcs
  rw [hchunk.uncompressedSize] at hlt hpart
  generalize hwanted : min remaining ((I.chunkData F idx).length - (offset - idx * I.chunkSize)) =
    wanted at hpart
  -- without an answer from the database the readers stay right and nothing is written
  have hmiss : ∀ {s₁}, I.readFromChunkdb wr s cs (offset - idx * I.chunkSize) wanted = (none, s₁) →
      I.Sound C inode F s s₁ ∧ s₁.out = s.out := fun hdb => by
    obtain ⟨hserves, hstores, ⟨-, hout⟩ | ⟨hsome, -⟩⟩ := readFromChunkdb_spec hwr hs hstored hdb
    · exact ⟨.of_stores hserves hstores, hout⟩
    · cases hsome
  cases hpart with
  | hit hdb =>
    obtain ⟨hserves, hstores, ⟨hnone, -⟩ | ⟨hsome, hout⟩⟩ := readFromChunkdb_spec hwr hs hstored hdb
    · cases hnone
    · obtain rfl := Option.some.inj hsome
      refine ⟨.of_stores hserves hstores, fun rest heq => ⟨hlt, _, hwanted.symm, ?_, hout⟩⟩
      exact (Except.ok.inj heq).symm
  | failed hdb hdata =>
    have hsound := (hmiss hdb).1
    have hopened := (readChunkData_spec hopens hsound.serves hchunk hdata).1
    exact (hsound.trans hopened.sound).chunkRead_error
  | short hdb hdata =>
    have hsound := (hmiss hdb).1
    have hopened := (readChunkData_spec hopens hsound.serves hchunk hdata).1
    exact (hsound.trans hopened.sound).chunkRead_error
  | @unwritten data s₁ s₂ e out hdb hdata hwrite =>
    have hsound := (hmiss hdb).1
    have hopened := (readChunkData_spec hopens hsound.serves hchunk hdata).1
    rcases hwr.write hwrite with ⟨-, -, rfl⟩ | ⟨hok, -⟩
    · exact (hsound.trans hopened.sound).chunkRead_error
    · cases hok
  | @written data s₁ s₂ n out hdb hdata hwrite =>
    obtain ⟨hsound, hout⟩ := hmiss hdb
    obtain ⟨hopened, hsame⟩ := readChunkData_spec hopens hsound.serves hchunk hdata
    obtain rfl := hsame data rfl
    have hsound₂ := hsound.trans hopened.sound
    have hlen : (((I.chunkData F idx).drop (offset - idx * I.chunkSize)).take wanted).length =
        wanted := by
      rw [List.length_take, List.length_drop]
      omega
    rcases hwr.write hwrite with ⟨e, herr, -⟩ | ⟨hok, rfl⟩
    · cases herr
    rw [hlen] at hok
    obtain rfl := Except.ok.inj hok
    rw [hchunk.uncompressedSize, if_pos rfl]
    obtain ⟨hserves', hout', hstores'⟩ := storeChunkBg_spec (I := I)
      (s := { s₂ with
        out := s₂.out ++ ((I.chunkData F idx).drop (offset - idx * I.chunkSize)).take n })
      hsound₂.serves cs (I.chunkData F idx)
    refine ⟨⟨hserves', fun store hstore => ?_⟩, fun rest heq =>
      ⟨hlt, n, hwanted.symm, (Except.ok.inj heq).symm, ?_⟩⟩
    · rcases hstores' store hstore with hold | rfl
      · exact hsound₂.stores store hold
      · exact .inr ⟨idx, chunk, blob, hidx, hinfo, hblob, hcs, rfl⟩
    · rw [hout', hopened.out, hout]

/-- The loop of `read` writes the rest of the range, of which `total` bytes were written. -/
theorem readChunks_spec {wr : Writer} (hwr : wr.WholeOrRefused) (hopens : I.OpensBlobs C)
    (hfile : I.HoldsFile C inode F) {count : ℕ} (hs : ServesBlobs C s)
    (hpos : max offset (idx * I.chunkSize) = offset + total) (hremaining : remaining ≠ 0)
    (hend : offset + total + remaining ≤ F.len)
    (hcount : offset + total + remaining ≤ (idx + count) * I.chunkSize)
    {r : Except IoError ℕ}
    (h : I.readChunks wr inode offset count s idx remaining total = (r, s')) :
    I.Sound C inode F s s' ∧ ∀ n, r = .ok n →
      n = total + remaining ∧ s'.out = s.out ++ F.slice (offset + total) remaining := by
  induction count generalizing s idx remaining total with
  | zero =>
    rw [Nat.add_zero] at hcount
    omega
  | succ count ih =>
    have hidx : idx * I.chunkSize < F.len := by omega
    rw [readChunks] at h
    rcases hstep : I.readChunkIntoWriter wr s inode idx offset remaining total with ⟨e | rest, s₁⟩
    · simp only [hstep] at h
      obtain ⟨rfl, rfl⟩ := Prod.mk.inj h
      exact ⟨(readChunkIntoWriter_spec hwr hopens hfile hs hidx hstep).sound,
        fun _ heq => by cases heq⟩
    · obtain ⟨hsound, hok⟩ := readChunkIntoWriter_spec hwr hopens hfile hs hidx hstep
      obtain ⟨hlt, wanted, hwanted, rfl, hout⟩ := hok rest rfl
      simp only [hstep] at h
      rw [chunkData, ByteFile.length_slice] at hlt hwanted
      have hstart : idx * I.chunkSize + (offset - idx * I.chunkSize) = offset + total := by omega
      rw [chunkData, ByteFile.take_drop_slice _ (by omega), hstart] at hout
      by_cases hdone : remaining - wanted = 0
      · rw [if_pos hdone] at h
        obtain ⟨rfl, rfl⟩ := Prod.mk.inj h
        obtain rfl : wanted = remaining := by omega
        exact ⟨hsound, fun n heq => ⟨(Except.ok.inj heq).symm, hout⟩⟩
      · -- the chunk was used up, so the next part starts with the next chunk
        rw [if_neg hdone] at h
        have hnext : (idx + 1) * I.chunkSize = offset + total + wanted := by
          rw [Nat.add_mul, Nat.one_mul]
          omega
        rw [show idx + (count + 1) = idx + 1 + count by omega] at hcount
        obtain ⟨hsound', hok'⟩ := ih hsound.serves (by omega) hdone (by omega) (by omega) h
        refine ⟨hsound.trans hsound', fun n heq => ?_⟩
        obtain ⟨rfl, hout'⟩ := hok' n heq
        refine ⟨by omega, ?_⟩
        rw [hout', hout, List.append_assoc, ← Nat.add_assoc, F.slice_append]
        congr 2
        omega

theorem checkReadRange_ok {size n : ℕ} (h : checkReadRange inode size offset = .ok n) :
    n = min (offset + size) inode.size - offset := by
  unfold checkReadRange at h
  split_ifs at h with hbig hreg hzero
  · obtain rfl := Except.ok.inj h
    omega
  · obtain rfl := Except.ok.inj h
    omega

section Read

variable {wr : Writer} (hwr : wr.WholeOrRefused) (hopens : I.OpensBlobs C) (hs : ServesBlobs C s)
  {ino size : ℕ} (hinode : I.getExtendedInode (I.toRafsIno ino) = .ok inode)
  (hfile : I.HoldsFile C inode F)

include hwr hopens hs hinode hfile

theorem read_spec {r : Except IoError ℕ} (h : I.read wr s ino size offset = (r, s')) :
    I.Sound C inode F s s' ∧ ∀ n, r = .ok n →
      n = min (offset + size) F.len - offset ∧
        s'.out = s.out ++ F.slice offset (min (offset + size) F.len - offset) := by
  simp only [read, hinode] at h
  cases hrange : checkReadRange inode size offset with
  | error e =>
    simp only [hrange] at h
    obtain ⟨rfl, rfl⟩ := Prod.mk.inj h
    exact ⟨.refl hs, fun _ heq => by cases heq⟩
  | ok readSize =>
    have hread := checkReadRange_ok hrange
    rw [hfile.size_eq] at hread
    rw [← hread]
    simp only [hrange] at h
    by_cases hzero : readSize = 0
    · rw [if_pos hzero] at h
      obtain ⟨rfl, rfl⟩ := Prod.mk.inj h
      refine ⟨.refl hs, fun _ heq => ⟨(Except.ok.inj heq).symm.trans hzero.symm, ?_⟩⟩
      rw [hzero, F.slice_zero, List.append_nil]
    · rw [if_neg hzero] at h
      have hpos := hfile.chunkSize_pos (by omega)
      have hstart : offset / I.chunkSize * I.chunkSize ≤ offset := Nat.div_mul_le_self ..
      have hle : offset / I.chunkSize ≤ (offset + readSize - 1) / I.chunkSize :=
        Nat.div_le_div_right (by omega)
      have hlast : offset + readSize - 1 < I.chunkSize * ((offset + readSize - 1) / I.chunkSize) +
          I.chunkSize := Nat.lt_mul_div_succ _ hpos
      have hcount : offset + 0 + readSize ≤ (offset / I.chunkSize +
          ((offset + readSize - 1) / I.chunkSize + 1 - offset / I.chunkSize)) * I.chunkSize := by
        rw [Nat.add_sub_of_le (hle.trans (Nat.le_succ _)), Nat.succ_mul, Nat.mul_comm]
        omega
      have hspec := readChunks_spec hwr hopens hfile hs (by omega) hzero (by omega) hcount h
      simpa only [Nat.zero_add, Nat.add_zero] using hspec

/-- **Reads return the bytes of the file.** A read that succeeds has written the bytes of the file
in its range, as far as the file goes, and returns their number. -/
theorem read_ok {n : ℕ} (h : I.read wr s ino size offset = (.ok n, s')) :
    n = min (offset + size) F.len - offset ∧
      s'.out = s.out ++ F.slice offset (min (offset + size) F.len - offset) :=
  (read_spec hwr hopens hs hinode hfile h).2 n rfl

/-- Whatever a read comes to, it hands only chunks of the file to the worker, each with its
checksum. -/
theorem stores_read {store : CheckSum × List UInt8}
    (h : store ∈ (I.read wr s ino size offset).2.stores) :
    store ∈ s.stores ∨ I.IsChunk inode F store :=
  (read_spec hwr hopens hs hinode hfile rfl).1.stores store h

end Read

/-! ### A small image -/

/-- A reader that fills at most three bytes at a time. -/
def shortReader (F : ByteFile) : Backend Unit where
  size := F.len
  fetch w off buf :=
    ((.ok (min 3 buf.length), F.slice off (min 3 buf.length) ++ buf.drop 3), w)
  length_fetch _ _ buf := by
    rw [List.length_append, ByteFile.length_slice, List.length_drop]
    omega

theorem shortReader_readsPrefix (F : ByteFile) : (shortReader F).ReadsPrefix F := by
  refine ⟨fun w off buf n _ h => ?_⟩
  obtain rfl := Except.ok.inj h
  exact ⟨Nat.min_le_right .., List.take_left' (ByteFile.length_slice ..)⟩

/-- Four bytes that stand in the blob, and a hole of two. -/
def twoChunks : Inode where
  isReg := true
  size := 6
  getChunkInfo idx :=
    if idx = 0 then .ok ⟨0, List.replicate 32 1, 0, 4, 4, false, false, false⟩
    else .ok ⟨0, List.replicate 32 2, 0, 0, 2, false, false, false⟩

/-- An image with that file, without a chunk database. -/
def smallImage : NydusImage Unit Unit where
  rootIno := 1
  chunkSize := 4
  getExtendedInode _ := .ok twoChunks
  blobs _ := some ⟨"blob", .blake3, ()⟩
  openReader w _ := (.ok (shortReader (.ofList [1, 2, 3, 4])), w)
  decompress _ _ buf := (.error "unknown format", buf)
  chunkDb := none
  trySend w := (true, w)

/-- Nothing is open, and nothing was written. -/
def smallState : NydusState Unit := ⟨(), fun _ => none, [], []⟩

/-- A writer that takes all it is offered. -/
def wholeWriter : Writer := ⟨fun _ data => .ok data.length⟩

theorem holdsFile_twoChunks : smallImage.HoldsFile (fun _ => .ofList [1, 2, 3, 4]) twoChunks
    (.ofList [1, 2, 3, 4, 0, 0]) where
  size_eq := rfl
  chunkSize_pos _ := by decide
  chunks idx hidx chunk blob hinfo hblob := by
    obtain rfl := Option.some.inj hblob
    have hidx : idx * 4 < 6 := hidx
    obtain rfl | rfl : idx = 0 ∨ idx = 1 := by omega
    · obtain rfl := Except.ok.inj hinfo
      exact ⟨rfl, rfl, rfl, fun _ => (by decide), fun h => (by cases h), fun _ _ _ => by decide,
        fun _ h => (by cases h), fun _ _ _ h => (by cases h)⟩
    · obtain rfl := Except.ok.inj hinfo
      exact ⟨rfl, rfl, rfl, fun h => absurd rfl h, fun _ => (by decide), fun h => absurd rfl h,
        fun _ h => (by cases h), fun _ _ _ h => (by cases h)⟩

/-- A read across the two chunks. The first part comes in two fetches. -/
theorem read_ok_smallImage :
    (smallImage.read wholeWriter smallState 2 3 2).1 = .ok 3 ∧
      (smallImage.read wholeWriter smallState 2 3 2).2.out = [3, 4, 0] := by
  have hrun : (smallImage.read wholeWriter smallState 2 3 2).1 = .ok 3 := by decide +kernel
  obtain ⟨-, hout⟩ := read_ok
    (show wholeWriter.WholeOrRefused from fun _ _ _ h => (Except.ok.inj h).symm)
    (fun _ _ _ _ h => Except.ok.inj (Prod.mk.inj h).1 ▸ shortReader_readsPrefix _)
    (fun _ _ h => by cases h) rfl holdsFile_twoChunks (Prod.ext hrun rfl)
  exact ⟨hrun, hout⟩

end NydusImage

end DistillFs
