import DistillFs.Backend.Dedup.Core

/-!
# Deduplication over an immutable backend

Over a backend that never changes its content, deduplicating an image cannot be told from not doing
so: whatever the workers store, record and drop, and whatever is evicted, a read that succeeds
delivers the content. The records of the image then only hold checksums of the content, the chunk
database only holds data under its own checksum, and the cache is coherent.

## Main definitions

* `DedupInfo.Describes`, `IndexDb.Describes`, `Store.Addressed`: correct records and chunks.
* `Hashes.Injective`: no two of the chunks involved have the same checksum.

## Main results

* `Dedup.reads_transparent`: reads deliver the content.
-/

namespace DistillFs

open Foundation

/-- No two byte strings of `chunks` have the same checksum. -/
def Hashes.Injective (H : Hashes) (chunks : Set (List UInt8)) : Prop :=
  ∀ m, Set.InjOn (fun data => CheckSum.fromData H data m) chunks

/-- The chunks involved in reading the content `F`: those to which the hash is injective, the parts
of the content among them. -/
structure Hashes.Separates (H : Hashes) (chunks : Set (List UInt8)) (F : ByteFile) : Prop where
  injective : H.Injective chunks
  slice_mem : ∀ off n, off + n ≤ F.len → F.slice off n ∈ chunks

/-- A record has the checksum of its range of the content. -/
def DedupInfo.Describes (H : Hashes) (F : ByteFile) (info : DedupInfo) : Prop :=
  info.stop ≤ F.len ∧
    .fromData H (F.slice info.off info.len) info.cs.checkSum.method = info.cs.checkSum

/-- The records of an image that have a checksum have the right one. -/
def IndexDb.Describes (H : Hashes) (F : ByteFile) (db : IndexDb) (id : Vector UInt8 32) : Prop :=
  ∀ k ∈ db.keys, k.id = id → (db.info k).cs.isValid = true → (db.info k).Describes H F

/-- Data is stored under its own checksum, and is one of the chunks. -/
def Store.Addressed (H : Hashes) (chunks : Set (List UInt8)) (s : Store) : Prop :=
  ∀ cs data, s.data (.ofCheckSum cs) = some data → .fromData H data cs.method = cs ∧ data ∈ chunks

section Lemmas

variable {H : Hashes} {chunks : Set (List UInt8)} {F : ByteFile} {s : Store}

theorem Store.Addressed.getOrPut (hs : s.Addressed H chunks) {cs : CheckSum} {data : List UInt8}
    (hcs : .fromData H data cs.method = cs) (hdata : data ∈ chunks) :
    (s.getOrPut cs data).Addressed H chunks := by
  intro cs' data' h
  change (s.putAll [(cs, data)]).data _ = _ at h
  obtain hold | ⟨c, hc, heq, rfl⟩ := Store.data_putAll_cases h
  · exact hs cs' data' hold
  · obtain rfl := List.mem_singleton.mp hc
    obtain rfl := CheckSumOnDisk.ofCheckSum_injective heq
    exact ⟨hcs, hdata⟩

/-- What remains after an eviction is addressed. -/
theorem Store.Addressed.evict (hs : s.Addressed H chunks) {s' : Store}
    (h : ∀ k, s'.data k = s.data k ∨ s'.data k = none) : s'.Addressed H chunks :=
  fun cs data hdata => hs cs data (Store.data_of_evicted h hdata)

theorem IndexDb.Describes.add {db : IndexDb} {id id' : Vector UInt8 32} (hdb : db.Describes H F id)
    {off n : ℕ} {m : CheckSumMethod} (hn : off + n ≤ F.len) :
    (db.addLocalDedupInfo id' off n (.fromData H (F.slice off n) m)).Describes H F id := by
  intro k hk hid hvalid
  by_cases heq : k = .newWithId id' off n
  · subst heq
    rw [IndexDb.info_add_self]
    refine ⟨hn, ?_⟩
    rw [DedupInfo.new, CheckSumOnDisk.checkSum_ofCheckSum, CheckSum.method_fromData]
  · rw [IndexDb.info_add_of_ne heq] at hvalid ⊢
    exact hdb k ((IndexDb.mem_keys_add.mp hk).resolve_left heq) hid hvalid

theorem IndexDb.Describes.add_of_ne {db : IndexDb} {id id' : Vector UInt8 32}
    (hdb : db.Describes H F id) {off n : ℕ} {cs : CheckSum} (h : id' ≠ id) :
    (db.addLocalDedupInfo id' off n cs).Describes H F id := by
  intro k hk hid hvalid
  rw [IndexDb.info_add_of_ne (IndexDb.ne_newWithId h hid)] at hvalid ⊢
  exact hdb k ((IndexDb.mem_keys_add.mp hk).resolve_left (IndexDb.ne_newWithId h hid)) hid hvalid

/-- A part of a chunk is the part of the content that its record names. -/
theorem chunkRange_eq (hF : H.Separates chunks F) (hs : s.Addressed H chunks) {info : DedupInfo}
    (hinfo : info.Describes H F) {off n : ℕ} (hoff : info.off ≤ off) (hn : off + n ≤ info.stop)
    {data : List UInt8}
    (h : s.chunkRange info.cs.checkSum (off - info.off) n = .ok (some data)) :
    data = F.slice off n := by
  obtain ⟨hstop, hcs⟩ := hinfo
  have hsum : info.off + info.len = info.stop := rfl
  unfold Store.chunkRange at h
  split at h
  · cases h
  · next chunk hchunk =>
    obtain ⟨hcs', hmem⟩ := hs _ _ hchunk
    have heq : chunk = F.slice info.off info.len :=
      hF.injective _ hmem (hF.slice_mem _ _ hstop) (hcs'.trans hcs.symm)
    split_ifs at h
    rw [← Option.some.inj (Except.ok.inj h), heq, ByteFile.take_drop_slice _ (by omega),
      Nat.add_sub_cancel' hoff]

/-- A writer that accepts whole slices, or a buffer. -/
def Transfer.Whole : Transfer → Prop
  | .fetch => True
  | .fuse wr => wr.Whole

theorem Transfer.Whole.copyFromChunk {op : Transfer} (hop : op.Whole) (data out : List UInt8) :
    op.copyFromChunk data out = (.ok data.length, out ++ data) := by
  cases op with
  | fetch => rfl
  | fuse wr => exact Writer.Whole.write hop out data

end Lemmas

namespace Dedup

variable {ω : Type} {B : Backend ω} {F : ByteFile}

/-- A copy from a cache over an immutable backend keeps it coherent and, if it succeeds, delivers
the content. -/
theorem copyFromBackend_spec (hB : B.Immutable F) {c c' : Cache B.size} (hc : c.Coherent F)
    {op : Transfer} {w w' : ω} {off n : ℕ} {out : List UInt8} {res : Except IoError ℕ × List UInt8}
    (h : op.copyFromBackend B w c off n out = (res, c', w')) :
    c'.Coherent F ∧ (op.Whole → ∀ k, res.1 = .ok k →
      k = min n (B.size - off) ∧ res.2 = out ++ F.slice off (min n (B.size - off))) := by
  cases op with
  | fetch =>
    obtain ⟨hcoh, hbytes⟩ := Cache.fetch_spec hB hc (w := w) off n
    rcases hf : Cache.fetch B w c off n with ⟨r, c₁, w₁⟩
    rw [hf] at hcoh hbytes
    cases r with
    | error e =>
      simp only [Transfer.copyFromBackend, hf, Prod.mk.injEq] at h
      obtain ⟨rfl, rfl, rfl⟩ := h
      exact ⟨hcoh, fun _ k hk => by cases hk⟩
    | ok bytes =>
      simp only [Transfer.copyFromBackend, hf, Prod.mk.injEq] at h
      obtain ⟨rfl, rfl, rfl⟩ := h
      obtain rfl := hbytes bytes rfl
      refine ⟨hcoh, fun _ k hk => ⟨?_, rfl⟩⟩
      rw [← Except.ok.inj hk, ByteFile.length_slice]
  | fuse wr =>
    simp only [Transfer.copyFromBackend] at h
    obtain ⟨hcoh, hwrite⟩ := h ▸ Cache.writeToFuseWriter_spec hB hc
    refine ⟨hcoh, fun hwr k hk => ?_⟩
    have hres := hwrite k hk
    rw [Writer.Whole.write hwr] at hres
    simp only at hres
    subst hres
    refine ⟨?_, rfl⟩
    rw [← Except.ok.inj hk, ByteFile.length_slice]

/-- A fetch from a cache over an immutable backend that succeeds inside the image delivers the
content. -/
theorem fetch_ok (hB : B.Immutable F) {c c' : Cache B.size} (hc : c.Coherent F) {w w' : ω}
    {off n : ℕ} {bytes : List UInt8} (h : Cache.fetch B w c off n = (.ok bytes, c', w'))
    (hoff : off < B.size) :
    bytes = F.slice off bytes.length ∧ off + bytes.length ≤ F.len := by
  obtain ⟨-, hbytes⟩ := Cache.fetch_spec hB hc (w := w) off n
  rw [h] at hbytes
  obtain rfl := hbytes bytes rfl
  rw [ByteFile.length_slice, ← hB.size_eq]
  exact ⟨rfl, by omega⟩

/-- A fetch keeps a cache over an immutable backend coherent. -/
theorem fetch_coherent (hB : B.Immutable F) {c c' : Cache B.size} (hc : c.Coherent F) {w w' : ω}
    {off n : ℕ} {res : Except IoError (List UInt8)}
    (h : Cache.fetch B w c off n = (res, c', w')) : c'.Coherent F := by
  obtain ⟨hcoh, -⟩ := Cache.fetch_spec hB hc (w := w) off n
  rwa [h] at hcoh

/-! ### Invariants -/

section Invariants

variable (B F) (H : Hashes) (chunks : Set (List UInt8)) (core : DedupCore)

/-- What a read can rely on in a segment. -/
def Piece (i : DedupInfo) (off n : ℕ) : Prop :=
  i.cs.isValid = true → i.Describes H F ∧ i.off ≤ off ∧ off + n ≤ i.stop

/-- A read has delivered the content so far, and the segments left tile the rest of its range. -/
def Reading (r : DedupRead) (segs : List (DedupInfo × ℕ)) (c : Copied) : Prop :=
  r.op.Whole → c.wholeOff = r.off + c.pos ∧ c.pos ≤ r.len B.size ∧ c.out = F.slice r.off c.pos ∧
    Tiles (Piece F H) c.wholeOff (r.len B.size - c.pos) segs

/-- A read that succeeds has delivered the content of its range, cut at the end. -/
def Delivered (r : DedupRead) (res : Except IoError ℕ) (out : List UInt8) : Prop :=
  r.op.Whole → r.off < B.size →
    ∀ k, res = .ok k → k = r.len B.size ∧ out = F.slice r.off (r.len B.size)

/-- The assertion of a task at each point. -/
def Assertion : DedupPc → Prop
  | .segments r segs c => Reading B F H r segs c
  | .chunk r info n rest c _ =>
    Reading B F H r ((info, n) :: rest) c ∧ info.cs.isValid = true
  | .backend r info n rest c => Reading B F H r ((info, n) :: rest) c
  | .returned r res out => Delivered B F r res out
  | .data req => req.off < B.size
  | .add req buf => buf = F.slice req.off buf.length ∧ req.off + buf.length ≤ F.len
  | .record req n cs =>
    cs = .fromData H (F.slice req.off n) req.method ∧ req.off + n ≤ F.len
  | .verified info buf =>
    .fromData H buf info.cs.checkSum.method = info.cs.checkSum ∧ buf ∈ chunks
  | _ => True

/-- The records, the chunks and the cached bytes are correct. -/
structure Inv (s : DedupShared ω B.size) : Prop where
  index : s.indexDb.Describes H F core.id
  chunks : s.chunkDb.Addressed H chunks
  cache : s.cache.Coherent F

/-- What is stored and opened beside the tasks is correct. -/
def Environment : Config (DedupTask τ) (DedupShared ω B.size) DedupPc →
    DedupTask τ ⊕ DedupEvent B.size → Prop
  | _, .inr (.addChunk cs data) => .fromData H data cs.method = cs ∧ data ∈ chunks
  | _, .inr (.remount cache) => cache.Coherent F
  | _, _ => True

end Invariants

variable {H : Hashes} {chunks : Set (List UInt8)} {core : DedupCore} {faults : Prop}
  {s s' : DedupShared ω B.size} {r : DedupRead} {info : DedupInfo} {n : ℕ}
  {rest : List (DedupInfo × ℕ)} {c : Copied}

/-- A read that copied the content of its next segment. -/
theorem Reading.advance (h : Reading B F H r ((info, n) :: rest) c) {k : ℕ} {out : List UInt8}
    (hcopy : r.op.Whole → k = n ∧ out = c.out ++ F.slice c.wholeOff n) :
    Reading B F H r rest (c.advance k out) := by
  intro hop
  obtain ⟨hoff, hpos, hout, -, hle, -, hrest⟩ := h hop
  obtain ⟨rfl, rfl⟩ := hcopy hop
  refine ⟨?_, ?_, ?_, ?_⟩
  · change c.wholeOff + k = r.off + (c.pos + k)
    omega
  · change c.pos + k ≤ r.len B.size
    omega
  · change c.out ++ F.slice c.wholeOff k = F.slice r.off (c.pos + k)
    rw [hout, hoff, ByteFile.slice_append]
  · change Tiles (Piece F H) (c.wholeOff + k) (r.len B.size - (c.pos + k)) rest
    rwa [Nat.sub_add_eq]

/-- The next segment of a read lies in the image. -/
theorem Reading.le_size (h : Reading B F H r ((info, n) :: rest) c) (hop : r.op.Whole) :
    min n (B.size - c.wholeOff) = n := by
  obtain ⟨hoff, hpos, -, hn, hle, -⟩ := h hop
  unfold DedupRead.len at *
  omega

/-- The lookup of a read in a correct index. -/
theorem reading_lookup (hs : s.indexDb.Describes H F core.id) :
    Reading B F H r (s.indexDb.dedupRange core.id r.off (r.len B.size)) ⟨0, r.off, []⟩ := by
  refine fun _ => ⟨rfl, Nat.zero_le _, rfl, ?_⟩
  refine IndexDb.tiles_dedupRange.mono fun i o n hrecord hvalid => ?_
  obtain ⟨k, hk, hid, rfl, hstart, hstop⟩ := hrecord hvalid
  obtain ⟨hoff, hend⟩ := s.indexDb.repeats k hk
  exact ⟨hs k hk hid hvalid, hoff ▸ hstart, hend ▸ hstop⟩

/-- A step of a task keeps the databases and the cache correct, and establishes its next
assertion. -/
theorem own_step (hB : B.Immutable F) (hF : H.Separates chunks F) {t : DedupTask τ}
    {pc pc' : DedupPc} (hI : Inv B F H chunks core s) (hA : Assertion B F H chunks pc)
    (h : DedupStep B H core faults t s pc s' pc') :
    Inv B F H chunks core s' ∧ Assertion B F H chunks pc' := by
  cases h with
  | noRead r hno =>
    refine ⟨hI, fun _ hoff k hk => ?_⟩
    have hlen : r.len B.size = 0 := by
      unfold DedupRead.len
      omega
    rw [hlen]
    exact ⟨(Except.ok.inj hk).symm, rfl⟩
  | lookup hsegs => exact ⟨hI, hsegs ▸ reading_lookup hI.index⟩
  | whole hcopy =>
    obtain ⟨hcoh, hres⟩ := copyFromBackend_spec hB hI.cache hcopy
    refine ⟨⟨hI.index, hI.chunks, hcoh⟩, fun hop hoff k hk => ?_⟩
    have hout := hres hop k hk
    rwa [DedupRead.min_len, List.nil_append] at hout
  | missing => exact ⟨hI, hA⟩
  | recorded hvalid => exact ⟨hI, hA, hvalid⟩
  | overflow => exact ⟨hI, fun _ _ k hk => by cases hk⟩
  | @hit t _ r info n rest c again data k out hrange hcopy =>
    refine ⟨hI, hA.1.advance fun hop => ?_⟩
    obtain ⟨-, -, -, -, -, hpiece, -⟩ := hA.1 hop
    obtain ⟨hdescribes, hoff, hstop⟩ := hpiece hA.2
    have hdata := chunkRange_eq hF hI.chunks hdescribes hoff hstop hrange
    rw [Transfer.Whole.copyFromChunk hop, Prod.mk.injEq, Except.ok.injEq] at hcopy
    obtain ⟨rfl, rfl⟩ := hcopy
    rw [hdata, ByteFile.length_slice]
    exact ⟨rfl, rfl⟩
  | hitError hrange hcopy =>
    refine ⟨hI, fun hop => ?_⟩
    rw [Transfer.Whole.copyFromChunk hop] at hcopy
    cases hcopy
  | chunkError | chunkFault | missed => exact ⟨hI, hA.1⟩
  | miss => exact ⟨hI, hA⟩
  | backendOk hcopy =>
    obtain ⟨hcoh, hres⟩ := copyFromBackend_spec hB hI.cache hcopy
    refine ⟨⟨hI.index, hI.chunks, hcoh⟩, Reading.advance hA fun hop => ?_⟩
    have hout := hres hop _ rfl
    rwa [Reading.le_size hA hop] at hout
  | backendError hcopy =>
    obtain ⟨hcoh, -⟩ := copyFromBackend_spec hB hI.cache hcopy
    exact ⟨⟨hI.index, hI.chunks, hcoh⟩, fun _ _ k hk => by cases hk⟩
  | @copied t _ r c =>
    refine ⟨hI, fun hop _ k hk => ?_⟩
    obtain ⟨-, hpos, hout, hend⟩ := hA hop
    have hlen : r.len B.size - c.pos = 0 := hend
    have heq : c.pos = r.len B.size := by omega
    rw [← heq]
    exact ⟨(Except.ok.inj hk).symm, hout⟩
  | new _ hreq _ => exact ⟨hI, (checkRequest_ok hreq).1⟩
  | fetchError hf | fetchShort hf | syncError _ _ hf | syncMismatch _ _ hf =>
    exact ⟨⟨hI.index, hI.chunks, fetch_coherent hB hI.cache hf⟩, trivial⟩
  | fetched hf =>
    exact ⟨⟨hI.index, hI.chunks, fetch_coherent hB hI.cache hf⟩, fetch_ok hB hI.cache hf hA⟩
  | @added t _ req buf =>
    obtain ⟨hbuf, hlen⟩ := hA
    have hmem := hF.slice_mem req.off buf.length hlen
    rw [← hbuf] at hmem
    refine ⟨⟨hI.index, hI.chunks.getOrPut (by rw [CheckSum.method_fromData]) hmem, hI.cache⟩, ?_,
      hlen⟩
    rw [← hbuf]
  | wasRecorded =>
    obtain ⟨rfl, hlen⟩ := hA
    exact ⟨⟨hI.index.add hlen, hI.chunks, hI.cache⟩, trivial⟩
  | @syncVerified t _ info bytes c' w' _ hlen hf hfull hcs =>
    obtain ⟨hbuf, hle⟩ := fetch_ok hB hI.cache hf (Cache.off_lt_of_fetch hf hlen)
    refine ⟨⟨hI.index, hI.chunks, fetch_coherent hB hI.cache hf⟩, hcs, ?_⟩
    rw [hbuf]
    exact hF.slice_mem _ _ hle
  | syncAdded => exact ⟨⟨hI.index, hI.chunks.getOrPut hA.1 hA.2, hI.cache⟩, trivial⟩
  | invalidate io =>
    exact ⟨⟨hI.index, hI.chunks, Cache.invalidateChunk_coherent hI.cache io _⟩, trivial⟩
  | _ => exact ⟨hI, trivial⟩

/-- What happens beside the tasks keeps the databases and the cache correct. -/
theorem env_step {τ : Type*} {c : Config (DedupTask τ) (DedupShared ω B.size) DedupPc}
    {e : DedupEvent B.size} (hI : Inv B F H chunks core c.shared)
    (hok : Environment B F H chunks c (.inr e)) (h : DedupEnv B core e c.shared s') :
    Inv B F H chunks core s' := by
  generalize c.shared = s at hI h
  cases h with
  | evict hdb => exact ⟨hI.index, hI.chunks.evict hdb, hI.cache⟩
  | addChunk cs data => exact ⟨hI.index, hI.chunks.getOrPut hok.1 hok.2, hI.cache⟩
  | invalidate idx io =>
    exact ⟨hI.index, hI.chunks, Cache.invalidateChunk_coherent hI.cache io idx⟩
  | otherImage off n cs hid => exact ⟨hI.index.add_of_ne hid, hI.chunks, hI.cache⟩
  | remount cache => exact ⟨hI.index, hI.chunks, hok⟩

/-- In every configuration the databases and the cache are correct, and the assertions of all tasks
hold. -/
theorem transparent_holds {τ : Type*} [DecidableEq τ] (hB : B.Immutable F)
    (hF : H.Separates chunks F) {c : Config (DedupTask τ) (DedupShared ω B.size) DedupPc}
    (hc : (dedupProgram B H core faults τ (Inv B F H chunks core)).toSystem.Reach
      (Environment B F H chunks) c) :
    Program.Holds (Inv B F H chunks core) (fun _ _ => Assertion B F H chunks) c := by
  refine Program.invariant ?_ ?_ ?_ ?_ hc
  · rintro c ⟨hstart, hidle⟩
    refine ⟨hstart, fun t => ?_⟩
    rw [hidle t]
    trivial
  · exact fun c t s' pc' h _ hstep => own_step hB hF h.1 (h.2 t) hstep
  · exact fun c t u s' pc' h _ _ _ => h.2 u
  · exact fun c e s' h hok henv => ⟨env_step h.1 hok henv, h.2⟩

/-- **Deduplication is transparent.** Over an immutable backend, with a hash that is injective on
the chunks involved, in every interleaving of reads, workers, invalidations and evictions: a call of
`fetch`, or of `write_to_fuse_writer` with a writer that accepts whole slices, that returns success
has delivered the content of its range cut at the end of the image, and reports its length. The
same call of a cache without deduplication returns the same when it succeeds. -/
theorem reads_transparent {τ : Type*} [DecidableEq τ] (hB : B.Immutable F)
    (hF : H.Separates chunks F) {c : Config (DedupTask τ) (DedupShared ω B.size) DedupPc}
    (hc : (dedupProgram B H core faults τ (Inv B F H chunks core)).toSystem.Reach
      (Environment B F H chunks) c)
    {t : DedupTask τ} {r : DedupRead} {k : ℕ} {out : List UInt8}
    (ht : c.loc t = .returned r (.ok k) out) (hop : r.op.Whole) (hoff : r.off < B.size) :
    (k = min r.n (F.len - r.off) ∧ out = F.slice r.off (min r.n (F.len - r.off))) ∧
    ∀ (plain plain' : Cache B.size) (w w' : ω) (k' : ℕ) (out' : List UInt8), plain.Coherent F →
      r.op.copyFromBackend B w plain r.off r.n [] = ((.ok k', out'), plain', w') →
      k' = k ∧ out' = out := by
  have h := (transparent_holds hB hF hc).2 t
  rw [ht] at h
  obtain ⟨rfl, rfl⟩ := h hop hoff k rfl
  refine ⟨?_, fun plain plain' w w' k' out' hplain hcopy => ?_⟩
  · rw [← hB.size_eq]
    exact ⟨rfl, rfl⟩
  · exact (copyFromBackend_spec hB hplain hcopy).2 hop k' rfl

section Run

/-- Hashes that tell byte strings of different lengths apart. -/
def lengthHashes : Hashes :=
  ⟨fun data => Vector.replicate 32 (UInt8.ofNat data.length),
    fun data => Vector.replicate 32 (UInt8.ofNat data.length)⟩

theorem lengthHashes_separates : lengthHashes.Separates {[], [7]} (.ofList [7]) := by
  constructor
  · rintro m a (rfl | rfl) b (rfl | rfl) h
    · rfl
    · cases m <;> revert h <;> decide
    · cases m <;> revert h <;> decide
    · rfl
  · intro off n hn
    change off + n ≤ 1 at hn
    obtain rfl | ⟨rfl, rfl⟩ : n = 0 ∨ off = 0 ∧ n = 1 := by omega
    · exact Or.inl rfl
    · exact Or.inr rfl

/-- The image of one byte, not cached, but recorded and stored. -/
def oneByte (id : Vector UInt8 32) : DedupShared Unit 1 :=
  let cs : CheckSum := .fromData lengthHashes [7] .blake3
  ⟨IndexDb.empty.addLocalDedupInfo id 0 1 cs, Store.empty.getOrPut cs [7], .fresh 4096 1, ()⟩

theorem oneByte_inv (core : DedupCore) :
    Inv (.serve (.ofList [7])) (.ofList [7]) lengthHashes {[], [7]} core (oneByte core.id) := by
  have hindex : IndexDb.empty.Describes lengthHashes (.ofList [7]) core.id :=
    fun k hk => absurd hk (Finset.notMem_empty k)
  have hchunks : Store.empty.Addressed lengthHashes {[], [7]} := fun cs data h => by cases h
  refine ⟨hindex.add (by decide), hchunks.getOrPut rfl (Or.inr rfl), fun idx _ hbit => ?_⟩
  exact absurd (hbit.symm.trans (Cache.bit_fresh 4096 1 idx)) (by decide)

/-- A read of the image of one byte is served from the chunk database. -/
theorem reads_transparent_run : ∃ (c : Config (DedupTask Unit) (DedupShared Unit 1) DedupPc)
    (out : List UInt8),
    c.loc (.reader ()) = .returned ⟨.fetch, 0, 1⟩ (.ok 1) out ∧ out = [7] := by
  let F : ByteFile := .ofList [7]
  let core : DedupCore := ⟨Vector.replicate 32 0, false⟩
  let r : DedupRead := ⟨.fetch, 0, 1⟩
  let info : DedupInfo := .new 0 1 (.fromData lengthHashes [7] .blake3)
  have hlookup : (oneByte core.id).indexDb.dedupRange core.id 0 1 = [(info, 1)] := by
    rw [oneByte, IndexDb.dedupRange, IndexDb.keysFrom_add_empty]
    decide
  have h₀ : (dedupProgram (.serve F) lengthHashes core False Unit
      (Inv (.serve F) F lengthHashes {[], [7]} core)).toSystem.Reach
      (Environment (.serve F) F lengthHashes {[], [7]})
      ⟨oneByte core.id, .crew .idle .idle .idle⟩ := crew_init (oneByte_inv core)
  have h₁ := crew_reader h₀ trivial (.call r (by decide) (by decide))
  have h₂ := crew_reader h₁ trivial (.lookup hlookup (List.cons_ne_nil _ _))
  have h₃ := crew_reader h₂ trivial (.recorded rfl le_rfl)
  have h₄ := crew_reader h₃ trivial
    (.hit (show Store.chunkRange _ _ _ _ = .ok (some [7]) from rfl) rfl)
  have h₅ := crew_reader h₄ trivial .copied
  obtain ⟨⟨-, hout⟩, -⟩ := reads_transparent (Backend.immutable_serve F) lengthHashes_separates h₅
    (t := .reader ()) (r := r) (k := 1) rfl trivial (by decide)
  exact ⟨⟨oneByte core.id, .crew (.returned r (.ok 1) [7]) .idle .idle⟩, [7], rfl, hout⟩

end Run

end Dedup

end DistillFs
