import DistillFs.Backend.Cache.Basic
import DistillFs.Foundation.Settle
import DistillFs.Image.Nydus

/-!
# A nydus image over cached blobs

With a cache directory every blob of a nydus image is read through a chunk cache of its own, which
is opened together with the reader of the blob and fills from the remote backend. The image has no
chunk database here, so no chunk is dropped from a cache.

## Main definitions

* `Blobs`, `BlobWorld`: the remote blobs, and what an image reads from.
* `Blobs.cachedReader`, `Blobs.openCached`.
* `NydusImage.OverCaches`, `NydusImage.MountStep`.

## Main results

* `NydusImage.read_again`: a read that succeeded once needs the remote side no more.
-/

namespace DistillFs

open Foundation

/-! ### Blobs and their caches -/

/-- The blobs behind the remote backend. What the readers answer depends on a hidden state `β`. -/
structure Blobs (β : Type) where
  content : String → ByteFile
  /-- The reader of a blob, `BackendReader`. -/
  reader : String → Backend β
  /-- `get_reader` may fail, and also the files of a cache may not be opened. -/
  getReader : β → String → Except IoError Unit × β
  immutable : ∀ blobId, (reader blobId).Immutable (content blobId)

variable {β κ : Type}

namespace Blobs

variable (S : Blobs β)

/-- A cache that is right about its blob. -/
abbrev BlobCache (blobId : String) : Type :=
  {c : Cache (S.reader blobId).size // c.Coherent (S.content blobId)}

end Blobs

/-- The remote side, and the files of the cache directory. -/
structure BlobWorld (S : Blobs β) where
  remote : β
  caches : ∀ blobId, S.BlobCache blobId

namespace BlobWorld

variable {S : Blobs β}

/-- A cache of one blob is exchanged. -/
def setCache (w : BlobWorld S) (blobId : String) (c : S.BlobCache blobId) : BlobWorld S :=
  { w with caches := Function.update w.caches blobId c }

/-- Worlds are ordered by what is marked in the caches. -/
instance : Preorder (BlobWorld S) :=
  Preorder.lift fun w blobId => (w.caches blobId).1.marked

theorem le_iff {w w' : BlobWorld S} :
    w ≤ w' ↔ ∀ blobId, (w.caches blobId).1.marked ⊆ (w'.caches blobId).1.marked :=
  Iff.rfl

/-- A cache that has gained marks. -/
theorem le_setCache {w : BlobWorld S} {blobId : String} {c : S.BlobCache blobId}
    (h : (w.caches blobId).1.marked ⊆ c.1.marked) : w ≤ w.setCache blobId c := by
  refine le_iff.mpr fun id => ?_
  rw [setCache]
  dsimp only
  by_cases hid : id = blobId
  · subst hid
    rwa [Function.update_self]
  · rw [Function.update_of_ne hid]

end BlobWorld

/-- What a caller finds in its buffer, of which a cache fills the front or nothing. -/
def fillBuffer (answer : Except IoError (List UInt8)) (buf : List UInt8) :
    Except IoError ℕ × List UInt8 :=
  match answer with
  | .error e => (.error e, buf)
  | .ok bytes => (.ok bytes.length, bytes ++ buf.drop bytes.length)

theorem length_fillBuffer {answer : Except IoError (List UInt8)} {buf : List UInt8}
    (h : ∀ bytes, answer = .ok bytes → bytes.length ≤ buf.length) :
    (fillBuffer answer buf).2.length = buf.length := by
  cases answer with
  | error e => rfl
  | ok bytes =>
    have hle := h bytes rfl
    rw [fillBuffer, List.length_append, List.length_drop]
    omega

theorem fillBuffer_ok {answer : Except IoError (List UInt8)} {buf : List UInt8} {n : ℕ}
    (h : (fillBuffer answer buf).1 = .ok n) : ∃ bytes, answer = .ok bytes ∧ bytes.length = n := by
  cases answer with
  | error e => cases h
  | ok bytes => exact ⟨bytes, rfl, Except.ok.inj h⟩

namespace Blobs

variable (S : Blobs β)

/-- The cache of a blob, as a reader. -/
def cachedReader (blobId : String) : Backend (BlobWorld S) where
  size := (S.reader blobId).size
  fetch w off buf :=
    let answer := Cache.fetch (S.reader blobId) w.remote (w.caches blobId).1 off buf.length
    (fillBuffer answer.1 buf,
      { w.setCache blobId ⟨answer.2.1,
          (Cache.fetch_spec (S.immutable blobId) (w.caches blobId).2 off buf.length).1⟩ with
        remote := answer.2.2 })
  length_fetch w off buf := length_fillBuffer fun _ h => by
    rw [Cache.length_of_fetch (Prod.ext h rfl)]
    exact Nat.min_le_left ..

/-- The cache of a blob is opened over the files that are there. -/
def openCached (pageSize : ℕ) (w : BlobWorld S) (blobId : String) :
    Except IoError (Backend (BlobWorld S)) × BlobWorld S :=
  match S.getReader w.remote blobId with
  | (.error e, remote) => (.error e, { w with remote := remote })
  | (.ok (), remote) =>
    match h : Cache.new pageSize (S.reader blobId).size (some (w.caches blobId).1.raw)
      (some (w.caches blobId).1.bitmap) with
    | .error e => (.error (newStdIoError e.display), { w with remote := remote })
    | .ok c =>
      (.ok (S.cachedReader blobId),
        { w.setCache blobId ⟨c, Cache.Coherent.reopen (w.caches blobId).2 h⟩ with
          remote := remote })

end Blobs

/-! ### The computations of a read -/

section Computations

variable {S : Blobs β} {blobId : String}

/-- A fetch of a reader, with the buffer as a part of its result. -/
def Backend.fetchBuffer {ω : Type} (B : Backend ω) (off : ℕ) (buf : List UInt8) (w : ω) :
    Except IoError (ℕ × List UInt8) × ω :=
  match B.fetch w off buf with
  | ((.error e, _), w') => (.error e, w')
  | ((.ok n, buf'), w') => (.ok (n, buf'), w')

theorem Backend.snd_fetchBuffer {ω : Type} (B : Backend ω) (off : ℕ) (buf : List UInt8) (w : ω) :
    (B.fetchBuffer off buf w).2 = (B.fetch w off buf).2 := by
  unfold fetchBuffer
  rcases B.fetch w off buf with ⟨⟨e | n, buf'⟩, w'⟩ <;> rfl

theorem Backend.fetchBuffer_ok {ω : Type} {B : Backend ω} {off : ℕ} {buf : List UInt8} {w : ω}
    {a : ℕ × List UInt8} (h : (B.fetchBuffer off buf w).1 = .ok a) :
    (B.fetch w off buf).1 = (.ok a.1, a.2) := by
  unfold fetchBuffer at h
  rcases hf : B.fetch w off buf with ⟨⟨e | n, buf'⟩, w'⟩
  · rw [hf] at h
    cases h
  · rw [hf] at h
    obtain rfl := Except.ok.inj h
    rfl

/-- The answer of a cached reader is that of its cache. -/
theorem Blobs.fetch_cachedReader_fst (w : BlobWorld S) (off : ℕ) (buf : List UInt8) :
    ((S.cachedReader blobId).fetch w off buf).1 =
      fillBuffer (Cache.fetch (S.reader blobId) w.remote (w.caches blobId).1 off
        buf.length).1 buf :=
  rfl

/-- A cached reader whose cache stays as it is leaves the world as it is. -/
theorem Blobs.fetch_cachedReader_snd {w : BlobWorld S} {off : ℕ} {buf : List UInt8}
    (h : (Cache.fetch (S.reader blobId) w.remote (w.caches blobId).1 off buf.length).2 =
      ((w.caches blobId).1, w.remote)) : ((S.cachedReader blobId).fetch w off buf).2 = w := by
  have hsame : ⟨_, (Cache.fetch_spec (S.immutable blobId) (w.caches blobId).2 off buf.length).1⟩ =
      w.caches blobId := Subtype.ext (congrArg Prod.fst h)
  unfold cachedReader
  dsimp only
  rw [hsame, congrArg Prod.snd h, BlobWorld.setCache, Function.update_eq_self]

theorem Blobs.settles_fetchBuffer (off : ℕ) (buf : List UInt8) :
    Settles (fun _ => True) (fun _ => True) id ((S.cachedReader blobId).fetchBuffer off buf) where
  grows w _ := by
    refine ⟨trivial, ?_⟩
    rw [Backend.snd_fetchBuffer]
    exact BlobWorld.le_setCache (c := ⟨_, (Cache.fetch_spec (S.immutable blobId)
      (w.caches blobId).2 off buf.length).1⟩) (Cache.marked_fetch (S.immutable blobId)
      (w.caches blobId).2).1
  again w a _ ha t _ hle := by
    have hanswer := Backend.fetchBuffer_ok ha
    rw [Blobs.fetch_cachedReader_fst] at hanswer
    obtain ⟨bytes, hbytes, hlen⟩ := fillBuffer_ok (congrArg Prod.fst hanswer)
    have hmarked := BlobWorld.le_iff.mp hle blobId
    rw [Backend.snd_fetchBuffer] at hmarked
    have hagain := Cache.fetch_again (S.immutable blobId) (w.caches blobId).2 hbytes
      (t.caches blobId).2 ?_ t.remote
    · have hfetch : (S.cachedReader blobId).fetch t off buf = ((.ok a.1, a.2), t) := by
        refine Prod.ext ?_ (Blobs.fetch_cachedReader_snd (congrArg Prod.snd hagain))
        rw [Blobs.fetch_cachedReader_fst, hagain, ← hanswer, hbytes]
      rw [Backend.fetchBuffer, hfetch]
      exact ⟨rfl, trivial, rfl⟩
    · refine subset_trans ?_ hmarked
      unfold Blobs.cachedReader BlobWorld.setCache
      dsimp only [id]
      rw [Function.update_self]

/-- One turn of the loop over a range of a blob. -/
theorem NydusImage.readBlobRangeFrom_eq {ω : Type} (reader : Backend ω) (offset : ℕ)
    (buf : List UInt8) (read : ℕ) :
    (fun w => readBlobRangeFrom reader w offset buf read) =
      if read < buf.length then
        andThen (reader.fetchBuffer (offset + read) (buf.drop read)) fun a =>
          if a.1 = 0 then fun w => (.error ⟨.unexpectedEof, "short read"⟩, w)
          else fun w => readBlobRangeFrom reader w offset (buf.take read ++ a.2) (read + a.1)
      else fun w => (.ok buf, w) := by
  funext w
  rw [readBlobRangeFrom]
  split_ifs with hlt
  · unfold andThen Backend.fetchBuffer
    rcases reader.fetch w (offset + read) (buf.drop read) with ⟨⟨e | n, buf'⟩, w'⟩
    · rfl
    · dsimp only
      split_ifs <;> rfl
  · rfl

theorem Blobs.settles_readBlobRangeFrom (offset : ℕ) (buf : List UInt8) (read : ℕ) :
    Settles (fun _ => True) (fun _ => True) id fun w =>
      NydusImage.readBlobRangeFrom (S.cachedReader blobId) w offset buf read := by
  -- each turn fills at least one byte more of the buffer
  induction hrest : buf.length - read using Nat.strong_induction_on generalizing buf read with
  | h rest ih =>
    rw [NydusImage.readBlobRangeFrom_eq]
    split_ifs with hlt
    · refine (settles_fetchBuffer _ _).andThen fun w a _ ha => ?_
      split_ifs with hzero
      · exact .const _
      · refine ih _ ?_ _ _ rfl
        have hlen := (S.cachedReader blobId).length_fetch w (offset + read) (buf.drop read)
        rw [Backend.fetchBuffer_ok ha, List.length_drop] at hlen
        rw [List.length_append, List.length_take, hlen]
        omega
    · exact .const _

end Computations

namespace NydusImage

variable {S : Blobs β}

/-- The image reads every blob through a cache, and has no chunk database. -/
structure OverCaches (I : NydusImage (BlobWorld S) κ) (pageSize : ℕ) : Prop where
  openReader : I.openReader = S.openCached pageSize
  chunkDb : I.chunkDb = none

/-- The readers that are open are the caches. -/
def Mounted (s : NydusState (BlobWorld S)) : Prop :=
  ∀ blobId reader, s.readers blobId = some reader → reader = S.cachedReader blobId

/-- What is marked in the caches, and which of them are open. -/
def held (s : NydusState (BlobWorld S)) : BlobWorld S × Set String :=
  (s.hidden, {blobId | (s.readers blobId).isSome})

variable {I : NydusImage (BlobWorld S) κ} {pageSize : ℕ}

theorem openCached_spec (pageSize : ℕ) (w : BlobWorld S) (blobId : String) :
    w ≤ (S.openCached pageSize w blobId).2 ∧
      ∀ reader, (S.openCached pageSize w blobId).1 = .ok reader →
        reader = S.cachedReader blobId := by
  unfold Blobs.openCached
  rcases S.getReader w.remote blobId with ⟨e | u, remote⟩
  · exact ⟨le_refl w, fun _ h => (by cases h)⟩
  · dsimp only
    split
    · exact ⟨le_refl w, fun _ h => (by cases h)⟩
    · next c hnew =>
      exact ⟨BlobWorld.le_setCache (Cache.new_again hnew).2.ge, fun _ h => (Except.ok.inj h).symm⟩

/-- A reader that is returned is open, and the readers that were open stay so. -/
theorem getBlobReader_mounted (hI : I.OverCaches pageSize) (blob : BlobInfo κ)
    {s : NydusState (BlobWorld S)} (hs : Mounted s) :
    Mounted (I.getBlobReader s blob).2 ∧ held s ≤ held (I.getBlobReader s blob).2 ∧
      ∀ reader, (I.getBlobReader s blob).1 = .ok reader →
        (I.getBlobReader s blob).2.readers blob.blobId = some reader := by
  unfold getBlobReader
  cases hreader : s.readers blob.blobId with
  | some reader => exact ⟨hs, le_refl _, fun _ h => hreader.trans (congrArg _ (Except.ok.inj h))⟩
  | none =>
    have hopen := openCached_spec pageSize s.hidden blob.blobId
    rw [hI.openReader]
    rcases hw : S.openCached pageSize s.hidden blob.blobId with ⟨e | reader, w⟩
    · rw [hw] at hopen
      exact ⟨hs, ⟨hopen.1, subset_rfl⟩, fun _ h => (by cases h)⟩
    · rw [hw] at hopen
      refine ⟨fun id reader' h => ?_, ⟨hopen.1, fun id hid => ?_⟩, fun _ h => ?_⟩
      · dsimp only at h
        rw [Function.update_apply] at h
        split_ifs at h with hid
        · rw [hid, ← Option.some.inj h]
          exact hopen.2 reader rfl
        · exact hs id reader' h
      · change (Function.update s.readers blob.blobId (some reader) id).isSome
        rw [Function.update_apply]
        split_ifs
        · rfl
        · exact hid
      · rw [← Except.ok.inj h]
        exact Function.update_self ..

theorem settles_getBlobReader (hI : I.OverCaches pageSize) (blob : BlobInfo κ) :
    Settles Mounted Mounted held fun s => I.getBlobReader s blob where
  grows s hs :=
    have hmounted := getBlobReader_mounted hI blob hs
    ⟨hmounted.1, hmounted.2.1⟩
  again s reader hs hok t ht hle := by
    -- the reader stays open, and there is only one for the blob
    obtain ⟨hmounted, -, hopened⟩ := getBlobReader_mounted hI blob hs
    have hopen : (t.readers blob.blobId).isSome :=
      hle.2 (Option.isSome_iff_exists.mpr ⟨reader, hopened reader hok⟩)
    obtain ⟨reader', hreader'⟩ := Option.isSome_iff_exists.mp hopen
    have hsame : reader' = reader :=
      (ht _ _ hreader').trans (hmounted _ _ (hopened reader hok)).symm
    have hagain : I.getBlobReader t blob = (.ok reader, t) := by
      simp only [getBlobReader, hreader', hsame]
    rw [hagain]
    exact ⟨rfl, ht, rfl⟩

/-- A range of a blob, read in the state of the image. -/
def readRange {ω : Type} (reader : Backend ω) (offset size : ℕ) (s : NydusState ω) :
    Except IoError (List UInt8) × NydusState ω :=
  ((readBlobRange reader s.hidden offset size).1,
    { s with hidden := (readBlobRange reader s.hidden offset size).2 })

theorem settles_readRange (blobId : String) (offset size : ℕ) :
    Settles Mounted Mounted held (readRange (S.cachedReader blobId) offset size) :=
  (Blobs.settles_readBlobRangeFrom offset (List.replicate size 0) 0).onPart NydusState.hidden
    (fun w s => { s with hidden := w }) (fun _ _ => trivial) (fun _ _ hs _ => hs)
    (fun _ _ => trivial) (fun _ _ hs _ => hs) (fun _ _ h => ⟨h, le_rfl⟩)
    (fun _ _ _ h => h.1) (fun _ _ h => Prod.ext h rfl)

/-- The bytes of a chunk from what stands in the blob. -/
def chunkBytes (I : NydusImage (BlobWorld S) κ) (chunk : ChunkInfo) (blob : BlobInfo κ)
    (compressed : List UInt8) : Except IoError (List UInt8) :=
  if !chunk.isCompressed then
    if compressed.length < chunk.uncompressedSize then
      .error ⟨.invalidData, "compressed data is shorter than expected"⟩
    else .ok (compressed.take chunk.uncompressedSize)
  else
    match I.decompress blob.compressor compressed (List.replicate chunk.uncompressedSize 0) with
    | (.error e, _) => .error ⟨.invalidData, "decompress failed: " ++ e⟩
    | (.ok sz, data) => .ok (if sz ≠ chunk.uncompressedSize then data.take sz else data)

theorem readChunkData_eq (chunk : ChunkInfo) (blob : BlobInfo κ) :
    (fun s => I.readChunkData s chunk blob) =
      if chunk.isEncrypted then
        fun s => (.error ⟨.unsupported, "encrypted chunk is not supported"⟩, s)
      else if chunk.isBatch then
        fun s => (.error ⟨.unsupported, "batch chunk is not supported"⟩, s)
      else if chunk.uncompressedSize = 0 then fun s => (.ok [], s)
      else if chunk.compressedSize = 0 then
        fun s => (.ok (List.replicate chunk.uncompressedSize 0), s)
      else
        andThen (fun s => I.getBlobReader s blob) fun reader =>
          andThen (readRange reader chunk.compressedOffset chunk.compressedSize) fun compressed s =>
            (I.chunkBytes chunk blob compressed, s) := by
  funext s
  by_cases hencrypted : chunk.isEncrypted = true
  · simp only [readChunkData, if_pos hencrypted]
  by_cases hbatch : chunk.isBatch = true
  · simp only [readChunkData, if_neg hencrypted, if_pos hbatch]
  by_cases hempty : chunk.uncompressedSize = 0
  · simp only [readChunkData, if_neg hencrypted, if_neg hbatch, if_pos hempty]
  by_cases hhole : chunk.compressedSize = 0
  · simp only [readChunkData, if_neg hencrypted, if_neg hbatch, if_neg hempty, if_pos hhole]
  simp only [readChunkData, if_neg hencrypted, if_neg hbatch, if_neg hempty, if_neg hhole, andThen]
  rcases I.getBlobReader s blob with ⟨e | reader, s₁⟩
  · rfl
  simp only [readRange]
  rcases readBlobRange reader s₁.hidden chunk.compressedOffset chunk.compressedSize with
    ⟨e | compressed, w⟩
  · rfl
  simp only [chunkBytes]
  split_ifs
  · rfl
  · rfl
  · rcases I.decompress blob.compressor compressed (List.replicate chunk.uncompressedSize 0) with
      ⟨e | sz, data⟩ <;> rfl

theorem settles_readChunkData (hI : I.OverCaches pageSize) (chunk : ChunkInfo) (blob : BlobInfo κ) :
    Settles Mounted Mounted held fun s => I.readChunkData s chunk blob := by
  rw [readChunkData_eq]
  split_ifs
  · exact .const _
  · exact .const _
  · exact .const _
  · exact .const _
  · refine (settles_getBlobReader hI blob).andThen fun s reader hs hreader => ?_
    obtain ⟨hmounted, -, hopened⟩ := getBlobReader_mounted hI blob hs
    rw [hmounted _ _ (hopened reader hreader)]
    exact (settles_readRange ..).andThen fun _ _ _ _ => .const _

/-! ### Reads of an image over caches -/

variable {wr : Writer} {inode : Inode}

/-- The caches are mounted, and the writer takes all it is offered. -/
def Ready (wr : Writer) (t : NydusState (BlobWorld S)) : Prop := wr.Whole ∧ Mounted t

/-- The range of a chunk is written. -/
def writePart (I : NydusImage (BlobWorld S) κ) (wr : Writer) (chunk : ChunkInfo) (cs : CheckSum)
    (data : List UInt8) (start wanted remaining total : ℕ) (s : NydusState (BlobWorld S)) :
    Except IoError (ℕ × ℕ) × NydusState (BlobWorld S) :=
  match wr.write s.out ((data.drop start).take wanted) with
  | (.error e, out) => (.error e, { s with out := out })
  | (.ok n, out) =>
    let s := { s with out := out }
    (.ok (remaining - n, total + n),
      if data.length = chunk.uncompressedSize then I.storeChunkBg s cs data else s)

theorem settles_writePart (hI : I.OverCaches pageSize) (chunk : ChunkInfo) (cs : CheckSum)
    (data : List UInt8) (start wanted remaining total : ℕ) :
    Settles Mounted (Ready wr) held
      (I.writePart wr chunk cs data start wanted remaining total) := by
  have hstore : ∀ s, I.storeChunkBg s cs data = s := fun s => by
    rw [storeChunkBg, hI.chunkDb]
    rfl
  refine ⟨fun s hs => ?_, fun s a _ ha t ht _ => ?_⟩
  · unfold writePart
    rcases wr.write s.out ((data.drop start).take wanted) with ⟨e | n, out⟩
    · exact ⟨hs, le_refl (held s)⟩
    · dsimp only
      rw [hstore, ite_self]
      exact ⟨hs, le_refl (held s)⟩
  · rw [writePart, ht.1.write] at ha ⊢
    dsimp only at ha ⊢
    rw [hstore, ite_self]
    exact ⟨ha, ht, rfl⟩

theorem settles_readChunkIntoWriter (hI : I.OverCaches pageSize) 
    (inode : Inode) (idx offset remaining total : ℕ) :
    Settles Mounted (Ready wr) held fun s =>
      I.readChunkIntoWriter wr s inode idx offset remaining total := by
  cases hinfo : inode.getChunkInfo (UInt32.ofNat idx) with
  | error e =>
    simp only [readChunkIntoWriter, hinfo]
    exact .const _
  | ok chunk =>
  cases hblob : I.getBlob chunk.blobIndex with
  | error e =>
    simp only [readChunkIntoWriter, hinfo, hblob]
    exact .const _
  | ok blob =>
  by_cases hle : chunk.uncompressedSize ≤ offset - idx * I.chunkSize
  · simp only [readChunkIntoWriter, hinfo, hblob, offset_in_chunk, if_pos hle]
    exact .const _
  cases hcs : checksumFromChunk chunk blob with
  | error e =>
    simp only [readChunkIntoWriter, hinfo, hblob, offset_in_chunk, if_neg hle, hcs]
    exact .const _
  | ok cs =>
  generalize hstart : offset - idx * I.chunkSize = start at hle
  generalize hwanted : min remaining (chunk.uncompressedSize - start) = wanted
  have hparts : (fun s => I.readChunkIntoWriter wr s inode idx offset remaining total) =
      andThen (fun s => I.readChunkData s chunk blob) fun data =>
        if data.length < start + wanted then
          fun s => (.error ⟨.invalidData, "chunk data is shorter than expected"⟩, s)
        else I.writePart wr chunk cs data start wanted remaining total := by
    funext s
    simp only [readChunkIntoWriter, hinfo, hblob, offset_in_chunk]
    simp only [hstart, hwanted, if_neg hle, hcs, readFromChunkdb, hI.chunkDb, andThen]
    rcases I.readChunkData s chunk blob with ⟨e | data, s₁⟩
    · rfl
    dsimp only
    by_cases hshort : data.length < start + wanted
    · rw [if_pos hshort, if_pos hshort]
    · rw [if_neg hshort, if_neg hshort]
      rfl
  rw [hparts]
  refine ((settles_readChunkData hI chunk blob).under _).andThen fun _ data _ _ => ?_
  split_ifs
  · exact .const _
  · exact settles_writePart hI ..

theorem settles_readChunks (hI : I.OverCaches pageSize) (inode : Inode)
    (offset count idx remaining total : ℕ) :
    Settles Mounted (Ready wr) held fun s =>
      I.readChunks wr inode offset count s idx remaining total := by
  induction count generalizing idx remaining total with
  | zero => exact .const _
  | succ count ih =>
    have hparts : (fun s => I.readChunks wr inode offset (count + 1) s idx remaining total) =
        andThen (fun s => I.readChunkIntoWriter wr s inode idx offset remaining total) fun rest =>
          if rest.1 = 0 then fun s => (.ok rest.2, s)
          else fun s => I.readChunks wr inode offset count s (idx + 1) rest.1 rest.2 := by
      funext s
      rw [readChunks, andThen]
      rcases I.readChunkIntoWriter wr s inode idx offset remaining total with ⟨e | rest, s₁⟩
      · rfl
      · dsimp only
        split_ifs <;> rfl
    rw [hparts]
    refine (settles_readChunkIntoWriter hI ..).andThen fun _ rest _ _ => ?_
    split_ifs
    · exact .const _
    · exact ih ..

theorem settles_read (wr : Writer) (hI : I.OverCaches pageSize) (ino size offset : ℕ) :
    Settles Mounted (Ready wr) held fun s => I.read wr s ino size offset := by
  cases hinode : I.getExtendedInode (I.toRafsIno ino) with
  | error e =>
    simp only [read, hinode]
    exact .const _
  | ok inode =>
  cases hrange : checkReadRange inode size offset with
  | error e =>
    simp only [read, hinode, hrange]
    exact .const _
  | ok readSize =>
    simp only [read, hinode, hrange]
    split_ifs
    · exact .const _
    · exact settles_readChunks hI ..

/-! ### A mount over time -/

/-- What happens to a mount: a read of any file, with any writer, or a change of the remote side. -/
inductive MountStep (I : NydusImage (BlobWorld S) κ) :
    NydusState (BlobWorld S) → NydusState (BlobWorld S) → Prop
  | read {s} (wr : Writer) (ino size offset : ℕ) : MountStep I s (I.read wr s ino size offset).2
  | remote {s} (remote : β) : MountStep I s { s with hidden := { s.hidden with remote := remote } }

theorem MountStep.keeps (hI : I.OverCaches pageSize) {s t : NydusState (BlobWorld S)}
    (h : I.MountStep s t) (hs : Mounted s) : Mounted t ∧ held s ≤ held t := by
  cases h with
  | read wr ino size offset => exact (settles_read wr hI ino size offset).grows s hs
  | remote r => exact ⟨hs, le_refl (held s)⟩

/-- The caches of a mount only gain marks, and open readers stay open. -/
theorem mountRun_keeps (hI : I.OverCaches pageSize) {s t : NydusState (BlobWorld S)}
    (h : Relation.ReflTransGen I.MountStep s t) (hs : Mounted s) : Mounted t ∧ held s ≤ held t := by
  induction h with
  | refl => exact ⟨hs, le_refl (held s)⟩
  | tail _ hstep ih =>
    obtain ⟨hmounted, hle⟩ := hstep.keeps hI ih.1
    exact ⟨hmounted, ih.2.trans hle⟩

/-- The readers of a mounted image read the blobs. -/
theorem readsPrefix_cachedReader (blobId : String) :
    (S.cachedReader blobId).ReadsPrefix (S.content blobId) := by
  refine ⟨fun w off buf n _ h => ?_⟩
  rw [Blobs.fetch_cachedReader_fst] at h ⊢
  obtain ⟨bytes, hbytes, rfl⟩ := fillBuffer_ok h
  have hslice := (Cache.fetch_spec (S.immutable blobId) (w.caches blobId).2 off buf.length).2 bytes
    hbytes
  have hlen := Cache.length_of_fetch (Prod.ext hbytes rfl)
  rw [hbytes, fillBuffer, List.take_left, hlen]
  exact ⟨Nat.min_le_left .., hslice⟩

theorem opensBlobs_of_overCaches (hI : I.OverCaches pageSize) : I.OpensBlobs S.content := by
  intro w blobId reader w' h
  rw [hI.openReader] at h
  rw [(openCached_spec pageSize w blobId).2 reader (congrArg Prod.fst h)]
  exact readsPrefix_cachedReader blobId

theorem Mounted.servesBlobs {s : NydusState (BlobWorld S)} (hs : Mounted s) :
    ServesBlobs S.content s := by
  intro blobId reader hreader
  rw [hs blobId reader hreader]
  exact readsPrefix_cachedReader blobId

/-- **Read once, read again.** An image is mounted over caches whose marks are right. When a read
has succeeded, the same read succeeds at any later time and returns the bytes of the file, and
nothing that it rests on changes: it does not ask the remote side, which may have failed. -/
theorem read_again (hI : I.OverCaches pageSize) {s₀ s t : NydusState (BlobWorld S)}
    (hnew : s₀.readers = fun _ => none) (hs : Relation.ReflTransGen I.MountStep s₀ s)
    {wr : Writer} (hwr : wr.Whole) {ino size offset n : ℕ}
    (hread : (I.read wr s ino size offset).1 = .ok n)
    (ht : Relation.ReflTransGen I.MountStep (I.read wr s ino size offset).2 t)
    (hinode : I.getExtendedInode (I.toRafsIno ino) = .ok inode) {F : ByteFile}
    (hfile : I.HoldsFile S.content inode F) :
    (I.read wr t ino size offset).1 = .ok n ∧
      (I.read wr t ino size offset).2.hidden = t.hidden ∧
      (I.read wr t ino size offset).2.out = t.out ++ F.slice offset n := by
  have hs₀ : Mounted s₀ := fun blobId reader h => by
    rw [hnew] at h
    cases h
  have hmounted := (mountRun_keeps hI hs hs₀).1
  have hsettles := settles_read wr hI ino size offset
  obtain ⟨hmounted', hle⟩ := mountRun_keeps hI ht (hsettles.grows s hmounted).1
  obtain ⟨hok, -, hsame⟩ := hsettles.again s n hmounted hread t ⟨hwr, hmounted'⟩ hle
  have hrefused : wr.WholeOrRefused := fun out data k h =>
    (Except.ok.inj ((hwr out data).symm.trans h)).symm
  obtain ⟨rfl, hout⟩ := (read_spec hrefused (opensBlobs_of_overCaches hI) hmounted'.servesBlobs
    hinode hfile (Prod.ext hok rfl)).2 n rfl
  exact ⟨hok, congrArg Prod.fst hsame, hout⟩

/-! ### A remote side that fails -/

/-- Blobs of four bytes. They are there as long as the remote side is up. -/
def fourBytes : Blobs Bool where
  content _ := .ofList [1, 2, 3, 4]
  reader _ :=
    { size := 4
      fetch up off buf :=
        if up then ((.ok buf.length, (ByteFile.ofList [1, 2, 3, 4]).slice off buf.length), up)
        else ((.error ⟨.timedOut, "timed out"⟩, buf), up)
      length_fetch up off buf := by
        split_ifs
        · exact ByteFile.length_slice ..
        · rfl }
  getReader up _ := (if up then .ok () else .error ⟨.timedOut, "timed out"⟩, up)
  immutable _ := by
    refine ⟨rfl, fun up off buf n _ h => ?_⟩
    cases up with
    | true => exact ⟨(Except.ok.inj h).symm, rfl⟩
    | false => cases h

/-- The file of two chunks over such blobs. -/
def cachedImage : NydusImage (BlobWorld fourBytes) Unit where
  rootIno := 1
  chunkSize := 4
  getExtendedInode _ := .ok twoChunks
  blobs _ := some ⟨"blob", .blake3, ()⟩
  openReader := fourBytes.openCached 4096
  decompress _ _ buf := (.error "unknown format", buf)
  chunkDb := none
  trySend w := (true, w)

theorem holdsFile_cachedImage :
    cachedImage.HoldsFile fourBytes.content twoChunks (.ofList [1, 2, 3, 4, 0, 0]) where
  size_eq := rfl
  chunkSize_pos _ := by decide
  chunks idx hidx chunk blob hinfo hblob := by
    obtain rfl := Option.some.inj hblob
    have hidx : idx * 4 < 6 := hidx
    obtain rfl | rfl : idx = 0 ∨ idx = 1 := by omega
    · obtain rfl := Except.ok.inj hinfo
      exact ⟨rfl, rfl, rfl, fun _ => (by decide), fun h => (by cases h), fun _ _ _ => by decide,
        fun _ h => (by cases h), fun _ _ _ h => (by cases h)⟩
    · obtain rfl := Except.ok.inj hinfo
      exact ⟨rfl, rfl, rfl, fun h => absurd rfl h, fun _ => (by decide), fun h => absurd rfl h,
        fun _ h => (by cases h), fun _ _ _ h => (by cases h)⟩

/-- The cache directory is empty, and no reader is open. -/
def freshMount : NydusState (BlobWorld fourBytes) where
  hidden :=
    { remote := true
      caches := fun _ => ⟨.fresh 4096 4, fun idx _ h =>
        absurd ((Cache.bit_fresh 4096 4 idx).symm.trans h) (by decide)⟩ }
  readers _ := none
  out := []
  stores := []

/-- The remote side fails after the first read. The second one has the same bytes. -/
theorem read_again_remoteDown : ∃ t : NydusState (BlobWorld fourBytes), t.hidden.remote = false ∧
    (cachedImage.read wholeWriter t 2 3 2).1 = .ok 3 ∧
      (cachedImage.read wholeWriter t 2 3 2).2.out = t.out ++ [3, 4, 0] := by
  have hread : (cachedImage.read wholeWriter freshMount 2 3 2).1 = .ok 3 := by decide +kernel
  have hI : cachedImage.OverCaches 4096 := ⟨rfl, rfl⟩
  obtain ⟨hok, -, hout⟩ := read_again hI rfl .refl (fun _ _ => rfl) hread (.single (.remote false))
    rfl holdsFile_cachedImage
  exact ⟨_, rfl, hok, hout⟩

end NydusImage

end DistillFs
