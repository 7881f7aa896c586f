import DistillFs.Backend.Dedup.Requests
import DistillFs.Backend.Dedup.Transparent

/-!
# Reads of a local raw file

A local raw file has no backend to fetch from again: what is dropped from the file is in the chunk
database only. Reads, requests of the dedup worker and requests of the sync worker come one after
the other here. Then a byte is in the file as long as no record covers it, and every record has its
data stored. A read that looks up its range delivers the content if the lookup reports every record.
If it does not, the read takes the bytes of a record from the file, and they are zeros once the
cached copy has been dropped.

## Main definitions

* `Dedup.LocalInv`: the file, the index and the chunk database hold the content together.
* `Dedup.Sequential`: runs of one operation after the other, with lookups that report all records.

## Main results

* `Dedup.local_reads_faithful`, `Dedup.local_read_zeros`.
-/

namespace DistillFs

open Foundation

/-- A part of a chunk is still there after another chunk was stored. -/
theorem Store.chunkRange_getOrPut {s : Store} {cs cs' : CheckSum} {start n : ℕ} {part : List UInt8}
    (h : s.chunkRange cs start n = .ok (some part)) (data : List UInt8) :
    (s.getOrPut cs' data).chunkRange cs start n = .ok (some part) := by
  unfold Store.chunkRange at h ⊢
  cases hold : s.getChunk cs with
  | none =>
    rw [hold] at h
    cases h
  | some old =>
    have hnew : (s.getOrPut cs' data).getChunk cs = some old := by
      rw [Store.getChunk] at hold ⊢
      rw [Store.data_getOrPut, hold]
      exact ite_self _
    rw [hold] at h
    rw [hnew]
    exact h

section Lemmas

variable {H : Hashes} {chunks : Set (List UInt8)} {F : ByteFile} {s : Store}

/-- A part of a stored chunk is the part of the content that its record names. -/
theorem chunkRange_stored (hF : H.Separates chunks F) (hs : s.Addressed H chunks) {info : DedupInfo}
    (hinfo : info.Describes H F) (hstored : s.hasChunk info.cs.checkSum = true) {off n : ℕ}
    (hoff : info.off ≤ off) (hn : off + n ≤ info.stop) :
    s.chunkRange info.cs.checkSum (off - info.off) n = .ok (some (F.slice off n)) := by
  obtain ⟨hstop, hcs⟩ := hinfo
  have hsum : info.off + info.len = info.stop := rfl
  obtain ⟨data, hdata⟩ := Option.isSome_iff_exists.mp hstored
  obtain ⟨hcs', hmem⟩ := hs _ _ hdata
  obtain rfl : data = F.slice info.off info.len :=
    hF.injective _ hmem (hF.slice_mem _ _ hstop) (hcs'.trans hcs.symm)
  rw [Store.chunkRange, Store.getChunk, hdata]
  dsimp only
  rw [ByteFile.length_slice, if_neg (by omega), ByteFile.take_drop_slice _ (by omega),
    Nat.add_sub_cancel' hoff]

end Lemmas

namespace Dedup

/-- A copy from a local raw file leaves it alone, and a fetch delivers its bytes. -/
theorem copyFromBackend_empty {size : ℕ} {op : Transfer} {c c' : Cache (Backend.empty size).size}
    {off n : ℕ} {out : List UInt8} {res : Except IoError ℕ × List UInt8} {w' : Unit}
    (h : op.copyFromBackend (.empty size) () c off n out = (res, c', w')) :
    c'.raw = c.raw ∧ (op = .fetch → off < size →
      res = (.ok (min n (size - off)), out ++ c.raw.slice off (min n (size - off)))) := by
  cases op with
  | fetch =>
    have hraw := Cache.raw_fetch_empty c off n
    have hbytes := fun hoff : off < size => Cache.fetch_empty c (n := n) hoff
    simp only [Transfer.copyFromBackend] at h
    rcases hf : Cache.fetch (.empty size) () c off n with ⟨r, c₁, w₁⟩
    rw [hf] at h hraw hbytes
    cases r with
    | error e =>
      simp only [Prod.mk.injEq] at h
      obtain ⟨rfl, rfl, -⟩ := h
      exact ⟨hraw, fun _ hoff => by cases hbytes hoff⟩
    | ok bytes =>
      simp only [Prod.mk.injEq] at h
      obtain ⟨rfl, rfl, -⟩ := h
      refine ⟨hraw, fun _ hoff => ?_⟩
      rw [Except.ok.inj (hbytes hoff), ByteFile.length_slice]
  | fuse wr =>
    refine ⟨?_, fun hop => by cases hop⟩
    have hraw := Cache.raw_writeToFuseWriter_empty c off n wr out
    simp only [Transfer.copyFromBackend] at h
    rwa [h] at hraw

theorem raw_of_fetch {size : ℕ} {c c' : Cache (Backend.empty size).size} {w w' : Unit} {off n : ℕ}
    {res : Except IoError (List UInt8)} (h : Cache.fetch (.empty size) w c off n = (res, c', w')) :
    c'.raw = c.raw := by
  have hraw := Cache.raw_fetch_empty c off n
  rwa [h] at hraw

variable {F : ByteFile} {H : Hashes} {chunks : Set (List UInt8)} {core : DedupCore} {τ : Type*}

/-! ### Invariants -/

section Invariants

variable (F H chunks core)

/-- The content is in the file where no record covers it, and in the chunk database elsewhere. -/
structure LocalInv (s : DedupShared Unit F.len) : Prop where
  index : s.indexDb.Describes H F core.id
  chunks : s.chunkDb.Addressed H chunks
  stored : ∀ k ∈ s.indexDb.keys, k.id = core.id →
    s.chunkDb.hasChunk (s.indexDb.info k).cs.checkSum = true
  file : ∀ x < F.len, ¬s.indexDb.Covered core.id x → s.cache.raw.byte x = F.byte x

variable {F} in
/-- A read gets the content of a segment from where it will look for it. -/
def Servable (s : DedupShared Unit F.len) (i : DedupInfo) (off n : ℕ) : Prop :=
  if i.cs.isValid then
    i.off ≤ off ∧ s.chunkDb.chunkRange i.cs.checkSum (off - i.off) n = .ok (some (F.slice off n))
  else s.cache.raw.AgreeOn F off (off + n)

/-- A fetch has delivered the content so far, and gets the content of the segments left. -/
def Serving (s : DedupShared Unit F.len) (r : DedupRead) (segs : List (DedupInfo × ℕ))
    (c : Copied) : Prop :=
  r.op = .fetch → c.wholeOff = r.off + c.pos ∧ c.pos ≤ r.len F.len ∧ c.out = F.slice r.off c.pos ∧
    Tiles (Servable s) c.wholeOff (r.len F.len - c.pos) segs

/-- The assertion of a task at each point. -/
def LocalAssertion (s : DedupShared Unit F.len) : DedupPc → Prop
  | .lookup r => 0 < r.len F.len
  | .whole _ => False
  | .segments r segs c => Serving F s r segs c
  | .chunk r info n rest c _ => Serving F s r ((info, n) :: rest) c ∧ info.cs.isValid = true
  | .backend r info n rest c =>
    Serving F s r ((info, n) :: rest) c ∧ (r.op = .fetch → info.cs.isValid = false)
  | .returned r res out => r.op = .fetch → r.off < F.len → ∀ k, res = .ok k →
    k = r.len F.len ∧ out = F.slice r.off (r.len F.len)
  | .add req buf => buf = F.slice req.off buf.length ∧ req.off + buf.length ≤ F.len
  | .record req n cs => cs = .fromData H (F.slice req.off n) req.method ∧ req.off + n ≤ F.len ∧
    s.chunkDb.hasChunk cs = true
  | _ => True

/-- A new mount of a local raw file. -/
structure Mounted (s : DedupShared Unit F.len) : Prop where
  index : ∀ k ∈ s.indexDb.keys, k.id ≠ core.id
  chunks : s.chunkDb.Addressed H chunks
  file : s.cache.raw.AgreeOn F 0 F.len

/-- One operation runs at a time, and the requests are those of the readers. Beside the operations,
chunks are stored under their own checksums, and other images are deduplicated. -/
def Sequential (c : Config (DedupTask τ) (DedupShared Unit F.len) DedupPc) :
    DedupTask τ ⊕ DedupEvent F.len → Prop
  | .inl t => (∀ u, u ≠ t → c.loc u = .idle) ∧ (c.loc t).FromReaders c.shared.indexDb core.id
  | .inr (.addChunk cs data) => .fromData H data cs.method = cs ∧ data ∈ chunks
  | .inr (.otherImage ..) => True
  | .inr _ => False

/-- Each lookup of a fetch reports every record, or the file still holds the range. -/
def Resolved (c : Config (DedupTask τ) (DedupShared Unit F.len) DedupPc)
    (a : DedupTask τ ⊕ DedupEvent F.len) : Prop :=
  Sequential F H chunks core c a ∧ ∀ t r, a = .inl t → c.loc t = .lookup r → r.op = .fetch →
    c.shared.indexDb.FoundFirst core.id r.off ∧
      c.shared.indexDb.Gapless core.id r.off (r.len F.len) ∨
    c.shared.cache.raw.AgreeOn F r.off (r.off + r.len F.len)

end Invariants

variable {s s' : DedupShared Unit F.len} {r : DedupRead} {info : DedupInfo} {n : ℕ}
  {rest : List (DedupInfo × ℕ)} {c : Copied}

/-- What a read gets stays the same while the file and the stored chunks do. -/
theorem Serving.mono {segs : List (DedupInfo × ℕ)} (h : Serving F s r segs c)
    (hraw : s'.cache.raw = s.cache.raw)
    (hstored : ∀ cs start n part, s.chunkDb.chunkRange cs start n = .ok (some part) →
      s'.chunkDb.chunkRange cs start n = .ok (some part)) : Serving F s' r segs c := by
  intro hop
  obtain ⟨hoff, hpos, hout, htiles⟩ := h hop
  refine ⟨hoff, hpos, hout, htiles.mono fun i o n hserve => ?_⟩
  unfold Servable at *
  split_ifs at * with hvalid
  · exact ⟨hserve.1, hstored _ _ _ _ hserve.2⟩
  · rwa [hraw]

/-- A fetch that copied the content of its next segment. -/
theorem Serving.advance (h : Serving F s r ((info, n) :: rest) c) {k : ℕ} {out : List UInt8}
    (hcopy : r.op = .fetch → k = n ∧ out = c.out ++ F.slice c.wholeOff n) :
    Serving F s r rest (c.advance k out) := by
  intro hop
  obtain ⟨hoff, hpos, hout, -, hle, -, hrest⟩ := h hop
  obtain ⟨rfl, rfl⟩ := hcopy hop
  refine ⟨?_, ?_, ?_, ?_⟩
  · change c.wholeOff + k = r.off + (c.pos + k)
    omega
  · change c.pos + k ≤ r.len F.len
    omega
  · change c.out ++ F.slice c.wholeOff k = F.slice r.off (c.pos + k)
    rw [hout, hoff, ByteFile.slice_append]
  · change Tiles (Servable s) (c.wholeOff + k) (r.len F.len - (c.pos + k)) rest
    rwa [Nat.sub_add_eq]

/-- The lookup of a read that reports every record, or whose range the file still holds. -/
theorem serving_lookup (hF : H.Separates chunks F) (hI : LocalInv F H chunks core s)
    (hchunked : s.indexDb.Chunked core.id F.len) (hlen : 0 < r.len F.len)
    (hok : s.indexDb.FoundFirst core.id r.off ∧ s.indexDb.Gapless core.id r.off (r.len F.len) ∨
      s.cache.raw.AgreeOn F r.off (r.off + r.len F.len)) :
    Serving F s r (s.indexDb.dedupRange core.id r.off (r.len F.len)) ⟨0, r.off, []⟩ := by
  have htiles : Tiles (s.indexDb.InRecord core.id) r.off (r.len F.len)
    (s.indexDb.dedupRange core.id r.off (r.len F.len)) := IndexDb.tiles_dedupRange
  refine fun _ => ⟨rfl, Nat.zero_le _, rfl, ?_⟩
  refine (htiles.and (IndexDb.tiles_segmentAt htiles)).mono fun i o n h => ?_
  obtain ⟨hrecord, hoff, hend, hsegment⟩ := h
  unfold Servable
  split_ifs with hvalid
  · obtain ⟨k, hk, hid, rfl, hstart, hstop⟩ := hrecord hvalid
    obtain ⟨hrepeat, hrepeat'⟩ := s.indexDb.repeats k hk
    refine ⟨hrepeat ▸ hstart, ?_⟩
    exact chunkRange_stored hF hI.chunks (hI.index k hk hid hvalid) (hI.stored k hk hid)
      (hrepeat ▸ hstart) (hrepeat' ▸ hstop)
  · rcases hok with hlookup | hfile
    · have hres := (IndexDb.resolves_iff hchunked.separate _ _ hlen).mpr hlookup
      intro x hx hx'
      have hsize : r.off + r.len F.len ≤ F.len := by
        unfold DedupRead.len at *
        omega
      refine hI.file x (by omega) (hres.not_covered (by omega) (hsegment x hx hx') ?_)
      simpa using hvalid
    · exact hfile.mono hoff hend

theorem LocalInv.withCache (hI : LocalInv F H chunks core s) {c' : Cache F.len}
    (hraw : c'.raw = s.cache.raw) (w : Unit) : LocalInv F H chunks core (s.withCache c' w) :=
  ⟨hI.index, hI.chunks, hI.stored, fun x hx hno => by
    rw [show (s.withCache c' w).cache.raw = s.cache.raw from hraw]
    exact hI.file x hx hno⟩

/-- The file still holds a chunk without a record. -/
theorem LocalInv.agreeOn_chunk (hI : LocalInv F H chunks core s)
    (hchunked : s.indexDb.Chunked core.id F.len) {off : ℕ} (halign : off % chunkSize = 0)
    (hmem : IndexDb.chunkKey core.id F.len off ∉ s.indexDb.keys) {stop : ℕ}
    (hstop : stop ≤ off + chunkSize) (hsize : stop ≤ F.len) :
    s.cache.raw.AgreeOn F off stop := by
  intro x hx hx'
  refine hI.file x (by omega) fun hcovered => hmem ?_
  have hchunk : chunkStart (x / chunkSize) = off := by
    simp only [chunkStart, chunkSize] at *
    omega
  exact hchunk ▸ (hchunked.covered_iff.mp hcovered).1

/-- Dropping the cached copy of a covered chunk. -/
theorem LocalInv.invalidate (hI : LocalInv F H chunks core s) (io : PunchIo) {idx : ℕ}
    (hcovered : ∀ x, chunkStart idx ≤ x → x < chunkEnd F.len idx → s.indexDb.Covered core.id x) :
    LocalInv F H chunks core (s.withCache (Cache.invalidateChunk io s.cache idx).2 ()) := by
  refine ⟨hI.index, hI.chunks, hI.stored, fun x hx hno => ?_⟩
  rcases Cache.byte_invalidateChunk io s.cache idx x with heq | ⟨⟨hstart, hend⟩, -⟩
  · exact heq.trans (hI.file x hx hno)
  · refine absurd (hcovered x hstart ?_) hno
    rw [chunkEnd_eq_min]
    simp only [chunkStart] at hend
    rw [Nat.add_mul]
    omega

/-- Recording a chunk that is stored. -/
theorem LocalInv.record (hI : LocalInv F H chunks core s) {off n : ℕ} {m : CheckSumMethod}
    (hn : off + n ≤ F.len) (hstored : s.chunkDb.hasChunk (.fromData H (F.slice off n) m) = true) :
    LocalInv F H chunks core (s.withIndexDb
      (s.indexDb.addLocalDedupInfo core.id off n (.fromData H (F.slice off n) m))) := by
  refine ⟨hI.index.add hn, hI.chunks, fun k hk hid => ?_, fun x hx hno => hI.file x hx fun hcov =>
    hno (IndexDb.covered_add.mpr (Or.inr hcov))⟩
  by_cases heq : k = .newWithId core.id off n
  · rw [heq]
    change s.chunkDb.hasChunk (IndexDb.info (s.indexDb.addLocalDedupInfo ..) _).cs.checkSum = true
    rw [IndexDb.info_add_self, DedupInfo.new, CheckSumOnDisk.checkSum_ofCheckSum]
    exact hstored
  · change s.chunkDb.hasChunk (IndexDb.info (s.indexDb.addLocalDedupInfo ..) _).cs.checkSum = true
    rw [IndexDb.info_add_of_ne heq]
    exact hI.stored k ((IndexDb.mem_keys_add.mp hk).resolve_left heq) hid

/-- Recording a range of another image. -/
theorem LocalInv.otherImage (hI : LocalInv F H chunks core s) {id : Vector UInt8 32}
    (hid : id ≠ core.id) (off n : ℕ) (cs : CheckSum) :
    LocalInv F H chunks core (s.withIndexDb (s.indexDb.addLocalDedupInfo id off n cs)) := by
  refine ⟨hI.index.add_of_ne hid, hI.chunks, fun k hk hkid => ?_, fun x hx hno =>
    hI.file x hx fun hcov => hno ((IndexDb.covered_add_of_ne hid).mpr hcov)⟩
  have hne : k ≠ .newWithId id off n := IndexDb.ne_newWithId hid hkid
  change s.chunkDb.hasChunk (IndexDb.info (s.indexDb.addLocalDedupInfo ..) _).cs.checkSum = true
  rw [IndexDb.info_add_of_ne hne]
  exact hI.stored k ((IndexDb.mem_keys_add.mp hk).resolve_left hne) hkid

/-- A segment of a fetch with a checksum is in the chunk database. -/
theorem Serving.range_eq (h : Serving F s r ((info, n) :: rest) c) (hop : r.op = .fetch)
    (hvalid : info.cs.isValid = true) :
    s.chunkDb.chunkRange info.cs.checkSum (c.wholeOff - info.off) n =
      .ok (some (F.slice c.wholeOff n)) := by
  obtain ⟨-, -, -, -, -, hserve, -⟩ := h hop
  unfold Servable at hserve
  rw [if_pos hvalid] at hserve
  exact hserve.2

/-- The next segment of a fetch lies in the content. -/
theorem Serving.le_size (h : Serving F s r ((info, n) :: rest) c) (hop : r.op = .fetch) :
    c.wholeOff < F.len ∧ min n (F.len - c.wholeOff) = n := by
  obtain ⟨hoff, hpos, -, hn, hle, -⟩ := h hop
  unfold DedupRead.len at *
  omega

variable {pc pc' : DedupPc} {t : DedupTask τ} {s s' : DedupShared Unit (Backend.empty F.len).size}

/-- A step of the running operation keeps the content, and establishes its next assertion. -/
theorem local_step (hF : H.Separates chunks F) (hI : LocalInv F H chunks core s)
    (hchunked : s.indexDb.Chunked core.id F.len) (hO : pc.Orderly F.len core.id s.indexDb t)
    (hA : LocalAssertion F H s pc)
    (hlookup : ∀ r, pc = .lookup r → r.op = .fetch → s.indexDb.FoundFirst core.id r.off ∧
      s.indexDb.Gapless core.id r.off (r.len F.len) ∨
      s.cache.raw.AgreeOn F r.off (r.off + r.len F.len))
    (h : DedupStep (.empty F.len) H core False t s pc s' pc') :
    LocalInv F H chunks core s' ∧ LocalAssertion F H s' pc' := by
  cases h with
  | call r hn hoff =>
    refine ⟨hI, ?_⟩
    change 0 < min r.n (F.len - r.off)
    have hoff' : r.off < F.len := hoff
    omega
  | noRead r hno =>
    refine ⟨hI, fun _ hoff k hk => ?_⟩
    have hlen : r.len F.len = 0 := by
      change r.n = 0 ∨ F.len ≤ r.off at hno
      unfold DedupRead.len
      omega
    rw [hlen]
    exact ⟨(Except.ok.inj hk).symm, rfl⟩
  | lookup hsegs =>
    exact ⟨hI, fun hop => hsegs ▸ serving_lookup hF hI hchunked hA (hlookup _ rfl hop) hop⟩
  | @lookupEmpty t _ r hsegs =>
    have hlen : 0 < r.len F.len := hA
    have hsum := (s.indexDb.partition_dedupRange core.id r.off (r.len F.len)).2.1
    rw [show s.indexDb.dedupRange core.id r.off (r.len F.len) = [] from hsegs] at hsum
    exact absurd hsum hlen.ne
  | lookupFault hf => exact hf.elim
  | whole => exact hA.elim
  | missing hinvalid => exact ⟨hI, hA, fun _ => hinvalid⟩
  | recorded hvalid => exact ⟨hI, hA, hvalid⟩
  | overflow => exact ⟨hI, fun _ _ k hk => by cases hk⟩
  | hit hrange hcopy =>
    refine ⟨hI, hA.1.advance fun hop => ?_⟩
    obtain rfl := Option.some.inj (Except.ok.inj (hrange.symm.trans (hA.1.range_eq hop hA.2)))
    rw [hop] at hcopy
    obtain ⟨hk, rfl⟩ := Prod.mk.inj hcopy
    exact ⟨(Except.ok.inj hk).symm.trans (ByteFile.length_slice ..), rfl⟩
  | hitError hrange hcopy =>
    refine ⟨hI, fun hop => ?_, fun hop => ?_⟩
    all_goals
      rw [hop] at hcopy
      cases hcopy
  | chunkError hrange =>
    refine ⟨hI, hA.1, fun hop => ?_⟩
    rw [hA.1.range_eq hop hA.2] at hrange
    cases hrange
  | chunkFault hf => exact hf.elim
  | miss => exact ⟨hI, hA⟩
  | missed _ hrange =>
    refine ⟨hI, hA.1, fun hop => ?_⟩
    rw [hA.1.range_eq hop hA.2] at hrange
    cases hrange
  | backendOk hcopy =>
    obtain ⟨hraw, hfetch⟩ := copyFromBackend_empty hcopy
    refine ⟨hI.withCache hraw _, (Serving.advance hA.1 fun hop => ?_).mono hraw fun _ _ _ _ h => h⟩
    obtain ⟨hoff, hn⟩ := hA.1.le_size hop
    obtain ⟨-, -, -, -, -, hserve, -⟩ := hA.1 hop
    unfold Servable at hserve
    rw [if_neg (by simp [hA.2 hop])] at hserve
    obtain ⟨hk, hout⟩ := Prod.mk.inj (hfetch hop hoff)
    rw [hn] at hk hout
    rw [hout, (ByteFile.slice_eq_slice_iff _ _).mpr hserve]
    exact ⟨Except.ok.inj hk, rfl⟩
  | backendError hcopy =>
    exact ⟨hI.withCache (copyFromBackend_empty hcopy).1 _, fun _ _ k hk => by cases hk⟩
  | @copied t _ r c =>
    refine ⟨hI, fun hop _ k hk => ?_⟩
    obtain ⟨-, hpos, hout, hend⟩ := hA hop
    have hlen : r.len F.len - c.pos = 0 := hend
    have heq : c.pos = r.len F.len := by omega
    exact ⟨(Except.ok.inj hk).symm.trans heq, heq ▸ hout⟩
  | fetchError hf | fetchShort hf | syncError _ _ hf | syncMismatch _ _ hf | syncVerified _ _ hf =>
    exact ⟨hI.withCache (raw_of_fetch hf) _, trivial⟩
  | @fetched t _ req bytes c' w' hf =>
    -- the chunk of the request has no record, so the file still holds it
    obtain ⟨-, hreq, hmem⟩ := hO
    have hoff : req.off < F.len := hreq.off_lt
    have hbytes := Cache.fetch_empty s.cache (n := req.len) hoff
    rw [hf] at hbytes
    have hlen : bytes.length = min req.len (F.len - req.off) := Cache.length_of_fetch hf
    have hagree := hI.agreeOn_chunk hchunked hreq.aligned hmem
      (show req.off + bytes.length ≤ req.off + chunkSize by rw [← hreq.len_eq]; omega) (by omega)
    refine ⟨hI.withCache (raw_of_fetch hf) _, ?_, by omega⟩
    rw [← (ByteFile.slice_eq_slice_iff _ _).mpr hagree, hlen]
    exact Except.ok.inj hbytes
  | added =>
    obtain ⟨hbuf, hlen⟩ := hA
    have hmem := hF.slice_mem _ _ hlen
    rw [← hbuf] at hmem
    refine ⟨⟨hI.index, hI.chunks.getOrPut (by rw [CheckSum.method_fromData]) hmem, fun k hk hid =>
      Store.hasChunk_getOrPut.mpr (Or.inr (hI.stored k hk hid)), hI.file⟩, ?_, hlen,
      Store.hasChunk_getOrPut.mpr (Or.inl rfl)⟩
    rw [← hbuf]
  | wasRecorded =>
    obtain ⟨rfl, hlen, hstored⟩ := hA
    exact ⟨hI.record hlen hstored, trivial⟩
  | syncAdded =>
    obtain ⟨k, hk, hid, rfl⟩ := hO
    rw [Store.getOrPut_of_hasChunk (hI.stored k hk hid)]
    exact ⟨hI, trivial⟩
  | checkFault hf | addFault hf | recordFault hf | syncFault hf | gcFault hf => exact hf.elim
  | invalidate io =>
    refine ⟨hI.invalidate io fun x hx hx' => ?_, trivial⟩
    exact IndexDb.covered_of_valid hO.2 hO.1 hx (by omega)
  | _ => exact ⟨hI, trivial⟩

/-- What the running operation knows stays true while the file and the stored chunks do. -/
theorem LocalAssertion.mono {s s' : DedupShared Unit F.len} (hA : LocalAssertion F H s pc)
    (hraw : s'.cache.raw = s.cache.raw)
    (hrange : ∀ cs start n part, s.chunkDb.chunkRange cs start n = .ok (some part) →
      s'.chunkDb.chunkRange cs start n = .ok (some part))
    (hstored : ∀ cs, s.chunkDb.hasChunk cs = true → s'.chunkDb.hasChunk cs = true) :
    LocalAssertion F H s' pc := by
  cases pc with
  | segments r segs c => exact Serving.mono hA hraw hrange
  | chunk r info n rest c again => exact ⟨hA.1.mono hraw hrange, hA.2⟩
  | backend r info n rest c => exact ⟨hA.1.mono hraw hrange, hA.2⟩
  | record req n cs => exact ⟨hA.1, hA.2.1, hstored cs hA.2.2⟩
  | _ => exact hA

variable [DecidableEq τ] {c : Config (DedupTask τ) (DedupShared Unit F.len) DedupPc}

/-- In every such run the content is there, and the running operation knows where. -/
theorem local_holds (hF : H.Separates chunks F)
    (hc : (dedupProgram (.empty F.len) H core False τ (Mounted F H chunks core)).toSystem.Reach
      (Resolved F H chunks core) c) :
    Program.Holds (LocalInv F H chunks core) (fun _ s pc => LocalAssertion F H s pc) c := by
  have hstart : ∀ s, Mounted F H chunks core s → s.indexDb.Chunked core.id F.len := fun s hs =>
    IndexDb.chunked_of_forall_ne hs.index
  have horderly : ∀ c, (dedupProgram (.empty F.len) H core False τ (Mounted F H chunks core)
      ).toSystem.Reach (Resolved F H chunks core) c →
      Program.Holds (fun s => s.indexDb.Chunked core.id F.len)
        (fun t s pc => pc.Orderly F.len core.id s.indexDb t) c := fun c hc =>
    orderly_of_reach hstart (fun c t hok => hok.1.2) hc
  refine Program.invariant_reach ?_ ?_ ?_ ?_ hc
  · rintro c ⟨hs, hidle⟩
    refine ⟨⟨fun k hk hid => absurd hid (hs.index k hk), hs.chunks,
      fun k hk hid => absurd hid (hs.index k hk), fun x hx _ => hs.file x (Nat.zero_le x) hx⟩,
      fun t => ?_⟩
    rw [hidle t]
    trivial
  · intro c t s' pc' hreach h hok hstep
    obtain ⟨hchunked, hO⟩ := horderly c hreach
    exact local_step hF h.1 hchunked (hO t) (h.2 t) (fun r hr => hok.2 t r rfl hr) hstep
  · intro c t u s' pc' _ h hok hu _
    rw [hok.1.1 u hu]
    trivial
  · intro c e s' _ h hok henv
    obtain ⟨hI, hA⟩ := h
    cases henv with
    | addChunk cs data =>
      refine ⟨⟨hI.index, hI.chunks.getOrPut hok.1.1 hok.1.2, fun k hk hid =>
        Store.hasChunk_getOrPut.mpr (Or.inr (hI.stored k hk hid)), hI.file⟩, fun u => ?_⟩
      exact (hA u).mono rfl (fun _ _ _ _ h => Store.chunkRange_getOrPut h data)
        fun _ h => Store.hasChunk_getOrPut.mpr (Or.inr h)
    | otherImage off n cs hid =>
      exact ⟨hI.otherImage hid off n cs, fun u =>
        (hA u).mono rfl (fun _ _ _ _ h => h) fun _ h => h⟩
    | evict hdb => exact hok.1.elim
    | invalidate idx io => exact hok.1.elim
    | remount cache => exact hok.1.elim

/-- **Reads of a local raw file.** In every sequence of reads, requests of the dedup worker and
requests of the sync worker, in which each lookup of a fetch reports every record of its range, or
the file still holds the range: a fetch that returns success has delivered the content of its range,
cut at the end of the file. -/
theorem local_reads_faithful (hF : H.Separates chunks F)
    (hc : (dedupProgram (.empty F.len) H core False τ (Mounted F H chunks core)).toSystem.Reach
      (Resolved F H chunks core) c)
    {t : DedupTask τ} {r : DedupRead} {k : ℕ} {out : List UInt8}
    (ht : c.loc t = .returned r (.ok k) out) (hop : r.op = .fetch) (hoff : r.off < F.len) :
    k = min r.n (F.len - r.off) ∧ out = F.slice r.off (min r.n (F.len - r.off)) := by
  have h := (local_holds hF hc).2 t
  rw [ht] at h
  exact h hop hoff k rfl

/-! ### A file of one chunk -/

section Run

open IndexDb

/-- A file that was just mounted, with its first chunk marked as cached. -/
def mounted (F : ByteFile) : DedupShared Unit F.len :=
  ⟨.empty, .empty, ((Cache.fresh 4096 F.len).withRaw F (ByteFile.len_setLen ..).symm).setBit 0, ()⟩

theorem mounted_mounted (F : ByteFile) (H : Hashes) (chunks : Set (List UInt8)) (core : DedupCore) :
    Mounted F H chunks core (mounted F) where
  index k hk := absurd hk (Finset.notMem_empty k)
  chunks cs data h := by cases h
  file _ _ _ := rfl

variable {size : ℕ} {s : DedupShared Unit size} {H : Hashes} {faults : Prop} {off n : ℕ}
  {start : DedupShared Unit size → Prop}
  {ok : Config (DedupTask Unit) (DedupShared Unit size) DedupPc →
    DedupTask Unit ⊕ DedupEvent size → Prop}

/-- Where a read of a gap stands. -/
def GapRun (s : DedupShared Unit size) (read : DedupRead) (s' : DedupShared Unit size) :
    DedupPc → Prop
  | .lookup r => r = read ∧ s' = s
  | .idle | .segments .. | .backend .. => True
  | _ => False

/-- A fetch of a range that its lookup reports as a gap delivers the bytes of the file. -/
theorem crew_fetchGap (hn : 0 < n) (hend : off + n ≤ size)
    (hgap : s.indexDb.dedupRange localReader.id off n = [gap off n])
    (hok : ∀ s' r, GapRun s ⟨.fetch, off, n⟩ s' r →
      ok ⟨s', .crew r .idle .idle⟩ (.inl (.reader ())))
    (hc : (dedupProgram (.empty size) H localReader faults Unit start).toSystem.Reach ok
      ⟨s, .crew .idle .idle .idle⟩) :
    ∃ s', (dedupProgram (.empty size) H localReader faults Unit start).toSystem.Reach ok
      ⟨s', .crew (.returned ⟨.fetch, off, n⟩ (.ok n) (s.cache.raw.slice off n)) .idle .idle⟩ := by
  have hmin : min n (size - off) = n := by omega
  have hlen : DedupRead.len ⟨.fetch, off, n⟩ size = n := hmin
  have hfetch := Cache.fetch_empty s.cache (n := n) (show off < size by omega)
  rw [hmin] at hfetch
  rcases hf : Cache.fetch (.empty size) () s.cache off n with ⟨res, c', w'⟩
  rw [hf] at hfetch
  obtain rfl : res = .ok (s.cache.raw.slice off n) := hfetch
  have hcopy : Transfer.copyFromBackend (.empty size) .fetch () s.cache off n [] =
      ((.ok n, s.cache.raw.slice off n), c', w') := by
    simp only [Transfer.copyFromBackend, hf, ByteFile.length_slice, List.nil_append]
  have h₁ := crew_reader hc (hok _ _ trivial)
    (.call ⟨.fetch, off, n⟩ hn.ne' (show off < size by omega))
  have h₂ := crew_reader h₁ (hok _ _ ⟨rfl, rfl⟩)
    (.lookup (show s.indexDb.dedupRange _ off (DedupRead.len _ size) = [gap off n] by
      rw [hlen]; exact hgap) (List.cons_ne_nil _ _))
  have h₃ := crew_reader h₂ (hok _ _ trivial) (.missing (isValid_gap off n))
  have h₄ := crew_reader h₃ (hok _ _ trivial) (.backendOk hcopy)
  have h₅ := crew_reader h₄ (hok _ _ trivial) .copied
  have hpos : (Copied.advance ⟨0, off, []⟩ n (s.cache.raw.slice off n)).pos = n := Nat.zero_add n
  exact ⟨_, hpos ▸ h₅⟩

section Guards

variable {F : ByteFile} {chunks : Set (List UInt8)} {s s' : DedupShared Unit F.len}
  {read : DedupRead} {pc : DedupPc}

/-- The reader is the only task that runs. -/
theorem sequential_read (hrun : GapRun s read s' pc) :
    Sequential F H chunks localReader ⟨s', .crew pc .idle .idle⟩ (.inl (.reader ())) := by
  refine ⟨fun u hu => ?_, ?_⟩
  · cases u with
    | reader u => exact absurd rfl hu
    | dedupWorker => rfl
    | syncWorker => rfl
  · change pc.FromReaders _ _
    cases pc with
    | check | sync => exact hrun.elim
    | _ => trivial

/-- The dedup worker is the only task that runs. -/
theorem sequential_dedup (hpc : pc.FromReaders s.indexDb localReader.id) :
    Sequential F H chunks localReader ⟨s, .crew .idle pc .idle⟩ (.inl .dedupWorker) := by
  refine ⟨fun u hu => ?_, hpc⟩
  cases u with
  | reader u => rfl
  | dedupWorker => exact absurd rfl hu
  | syncWorker => rfl

end Guards

/-- A read of a file of one byte. -/
theorem local_reads_faithful_run :
    ∃ (c : Config (DedupTask Unit) (DedupShared Unit 1) DedupPc) (out : List UInt8),
      c.loc (.reader ()) = .returned ⟨.fetch, 0, 1⟩ (.ok 1) out ∧ out = [7] := by
  let F : ByteFile := .ofList [7]
  have h₀ : (dedupProgram (.empty F.len) lengthHashes localReader False Unit
      (Mounted F lengthHashes {[], [7]} localReader)).toSystem.Reach
      (Resolved F lengthHashes {[], [7]} localReader) ⟨mounted F, .crew .idle .idle .idle⟩ :=
    crew_init (mounted_mounted F _ _ _)
  have hok : ∀ s' r, GapRun (mounted F) ⟨.fetch, 0, 1⟩ s' r →
      Resolved F lengthHashes {[], [7]} localReader ⟨s', .crew r .idle .idle⟩
        (.inl (.reader ())) := by
    intro s' r hrun
    refine ⟨sequential_read hrun, fun t q ht hq _ => Or.inr ?_⟩
    cases ht
    change r = _ at hq
    subst hq
    obtain ⟨-, rfl⟩ := hrun
    exact fun _ _ _ => rfl
  obtain ⟨s', h⟩ := crew_fetchGap one_pos le_rfl (dedupRange_empty _ _ one_pos) hok h₀
  obtain ⟨-, hout⟩ := local_reads_faithful lengthHashes_separates h (t := .reader ()) rfl rfl
    (by decide)
  exact ⟨⟨s', .crew (.returned ⟨.fetch, 0, 1⟩ (.ok 1) (F.slice 0 1)) .idle .idle⟩, _, rfl, hout⟩

/-- A file of one chunk. -/
def sevens : ByteFile :=
  ⟨chunkSize, fun i => if i < chunkSize then 7 else 0, fun _ h => if_neg (not_lt.mpr h)⟩

/-- The cached copy of the chunk is dropped after it was stored and recorded. -/
def dropped : DedupShared Unit sevens.len :=
  let s := deduped constantHashes (mounted sevens)
  s.withCache (Cache.invalidateChunk .ok s.cache 0).2 ()

/-- The record of the chunk is not found by a lookup of its last byte. -/
theorem dedupRange_dropped :
    dropped.indexDb.dedupRange localReader.id (chunkSize - 1) 1 = [gap (chunkSize - 1) 1] := by
  have hbig : 1 < chunkSize := by
    rw [chunkSize]
    decide
  change (empty.addLocalDedupInfo localReader.id 0 chunkSize _).dedupRange _ _ _ = _
  rw [dedupRange, if_neg one_ne_zero, keysFrom_add_empty, if_neg (by omega)]
  rfl

/-- The last byte of the file is gone. -/
theorem slice_dropped : dropped.cache.raw.slice (chunkSize - 1) 1 = [0] := by
  have hpos := chunkSize_pos
  have hstart : chunkStart 0 = 0 := Nat.zero_mul _
  have hlt : chunkStart 0 < chunkSize := by rwa [hstart]
  have hbit : (mounted sevens).cache.bit 0 = true := by
    refine (Cache.bit_setBit _ hlt 0).trans ?_
    rw [decide_eq_true rfl, Bool.or_true]
  have hcached : (deduped constantHashes (mounted sevens)).cache = (mounted sevens).cache := by
    have hread := Cache.readAt_cached (.empty chunkSize) (c := (mounted sevens).cache) (w := ())
      hpos hpos.ne' fun idx hidx => ?_
    · change (Cache.fetch (.empty chunkSize) () (mounted sevens).cache 0 chunkSize).2.1 = _
      unfold Cache.fetch
      rw [hread]
    · rw [show min chunkSize ((Backend.empty chunkSize).size - 0) = chunkSize from Nat.min_self _,
        chunkIds_chunk (Nat.zero_mod _) hpos le_rfl, List.mem_singleton, Nat.zero_div] at hidx
      rw [hidx]
      exact hbit
  have hdrop : dropped.cache = ((mounted sevens).cache.clearBit 0).punchHole 0 := by
    change (Cache.invalidateChunk .ok (deduped constantHashes (mounted sevens)).cache 0).2 = _
    rw [hcached, Cache.invalidateChunk, if_neg (by rw [hstart]; exact not_le.mpr hpos),
      if_neg (by rw [hbit]; decide)]
  rw [hdrop, ByteFile.slice, Cache.raw_punchHole, hstart]
  simp [ByteFile.byte_punch, hpos]

/-- The chunk of a local raw file is stored and recorded, and its cached copy is dropped. A read of
its last byte does not find the record, and delivers a zero. -/
theorem local_read_zeros :
    constantHashes.Injective {sevens.slice 0 chunkSize} ∧
    sevens.slice (chunkSize - 1) 1 = [7] ∧
    ∃ c : Config (DedupTask Unit) (DedupShared Unit sevens.len) DedupPc,
      (dedupProgram (.empty sevens.len) constantHashes localReader False Unit
        (Mounted sevens constantHashes {sevens.slice 0 chunkSize} localReader)).toSystem.Reach
        (Sequential sevens constantHashes {sevens.slice 0 chunkSize} localReader) c ∧
      c.loc (.reader ()) = .returned ⟨.fetch, chunkSize - 1, 1⟩ (.ok 1) [0] := by
  have hpos := chunkSize_pos
  have h₀ : (dedupProgram (.empty sevens.len) constantHashes localReader False Unit
      (Mounted sevens constantHashes {sevens.slice 0 chunkSize} localReader)).toSystem.Reach
      (Sequential sevens constantHashes {sevens.slice 0 chunkSize} localReader)
      ⟨mounted sevens, .crew .idle .idle .idle⟩ := crew_init (mounted_mounted _ _ _ _)
  have h₁ := crew_deduped le_rfl rfl
    (fun s' d hrun => sequential_dedup (fromReaders_of_firstRun hrun)) h₀
  have h₂ := crew_dedup h₁ (sequential_dedup trivial) (.invalidate .ok)
  have h₃ := crew_dedup h₂ (sequential_dedup trivial) .gcDone
  obtain ⟨s', h₄⟩ := crew_fetchGap one_pos (show chunkSize - 1 + 1 ≤ chunkSize by omega)
    dedupRange_dropped (fun s' r hrun => sequential_read hrun) h₃
  rw [slice_dropped] at h₄
  refine ⟨fun m => Set.injOn_singleton _ _, ?_, _, h₄, rfl⟩
  simp [ByteFile.slice, sevens, hpos]

end Run

end Dedup

end DistillFs
