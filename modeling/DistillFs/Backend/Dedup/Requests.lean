import DistillFs.Backend.Dedup.Idempotent
import DistillFs.Backend.Dedup.Resolve

/-!
# Requests of the readers

The readers ask the dedup worker for whole chunks, and the sync worker for records that they found
in the index. Under these requests the index of an image stays simple: a chunk has at most one
record, which covers it and has a checksum, and no record is replaced or removed. So what a worker
has found in the index stays true while it works on it, whatever the other tasks do.

## Main definitions

* `IndexDb.Chunked`: the records of chunks.
* `IndexDb.Grows`, `IndexDb.Sums`: records that stay, and their checksums.
* `DedupPc.FromReaders`, `DedupPc.Orderly`: the requests, and what the workers know meanwhile.

## Main results

* `Dedup.orderly_of_reach`: the index and the workers in every run under these requests.
-/

namespace DistillFs

open Foundation

/-! ### Records of chunks -/

namespace IndexDb

/-- The records of the image are chunks, and have checksums. -/
structure Chunked (db : IndexDb) (id : Vector UInt8 32) (size : ℕ) : Prop where
  records : db.ChunkRecords id size
  allValid : db.AllValid id

/-- The records of the image in `db` are also in `db'`. -/
def Grows (db db' : IndexDb) (id : Vector UInt8 32) : Prop :=
  ∀ k ∈ db.keys, k.id = id → k ∈ db'.keys ∧ db'.info k = db.info k

/-- A record of the image that begins at `off` has the checksum `cs`. -/
def Sums (db : IndexDb) (id : Vector UInt8 32) (off : ℕ) (cs : CheckSum) : Prop :=
  ∃ k ∈ db.keys, k.id = id ∧ k.start = off ∧ (db.info k).cs.checkSum = cs

/-- A record of the image. -/
def IsRecord (db : IndexDb) (id : Vector UInt8 32) (info : DedupInfo) : Prop :=
  ∃ k ∈ db.keys, k.id = id ∧ db.info k = info

variable {db db' : IndexDb} {id id' : Vector UInt8 32} {size off n x : ℕ} {cs : CheckSum}

theorem chunked_of_forall_ne (h : ∀ k ∈ db.keys, k.id ≠ id) : db.Chunked id size :=
  ⟨fun k hk hid => absurd hid (h k hk), fun k hk hid => absurd hid (h k hk)⟩

theorem Grows.refl (db : IndexDb) (id : Vector UInt8 32) : db.Grows db id := fun _ hk _ => ⟨hk, rfl⟩

theorem Grows.add (h : .newWithId id off n ∉ db.keys) (cs : CheckSum) :
    db.Grows (db.addLocalDedupInfo id off n cs) id := fun _ hk _ =>
  ⟨mem_keys_add.mpr (Or.inr hk), info_add_of_ne fun heq => h (heq ▸ hk)⟩

theorem Grows.add_of_ne (h : id' ≠ id) (db : IndexDb) (off n : ℕ) (cs : CheckSum) :
    db.Grows (db.addLocalDedupInfo id' off n cs) id := fun _ hk hid =>
  ⟨mem_keys_add.mpr (Or.inr hk), info_add_of_ne (ne_newWithId h hid)⟩

theorem Covered.grow (hx : db.Covered id x) (h : db.Grows db' id) : db'.Covered id x := by
  obtain ⟨k, hk, hid, hx⟩ := hx
  exact ⟨k, (h k hk hid).1, hid, hx⟩

theorem InRecord.grow {i : DedupInfo} (hi : db.InRecord id i off n) (h : db.Grows db' id) :
    db'.InRecord id i off n := fun hvalid => by
  obtain ⟨k, hk, hid, hinfo, hx⟩ := hi hvalid
  exact ⟨k, (h k hk hid).1, hid, (h k hk hid).2.trans hinfo, hx⟩

theorem IsRecord.grow {info : DedupInfo} (hi : db.IsRecord id info) (h : db.Grows db' id) :
    db'.IsRecord id info := by
  obtain ⟨k, hk, hid, hinfo⟩ := hi
  exact ⟨k, (h k hk hid).1, hid, (h k hk hid).2.trans hinfo⟩

namespace Chunked

theorem add (h : db.Chunked id size) (halign : off % chunkSize = 0) (hoff : off < size)
    (hcs : cs.method ≠ .unknown) :
    (db.addLocalDedupInfo id off (min chunkSize (size - off)) cs).Chunked id size := by
  refine ⟨h.records.add halign hoff cs, fun k hk hid => ?_⟩
  by_cases heq : k = .newWithId id off (min chunkSize (size - off))
  · rw [heq, info_add_self, DedupInfo.new, CheckSumOnDisk.isValid_ofCheckSum]
    exact decide_eq_true hcs
  · rw [info_add_of_ne heq]
    exact h.allValid k ((mem_keys_add.mp hk).resolve_left heq) hid

theorem add_of_ne (h : db.Chunked id size) (hid' : id' ≠ id) (off n : ℕ) (cs : CheckSum) :
    (db.addLocalDedupInfo id' off n cs).Chunked id size := by
  refine ⟨h.records.add_of_ne hid' n cs, fun k hk hid => ?_⟩
  rw [info_add_of_ne (ne_newWithId hid' hid)]
  exact h.allValid k ((mem_keys_add.mp hk).resolve_left (ne_newWithId hid' hid)) hid

/-- The record of a byte is the one of its chunk. -/
theorem eq_chunkKey (h : db.Chunked id size) {k : DedupRange} (hk : k ∈ db.keys) (hid : k.id = id)
    (hstart : k.start ≤ x) (hstop : x < k.stop) :
    k = chunkKey id size (chunkStart (x / chunkSize)) ∧ x < size := by
  obtain ⟨halign, hsize, hkey⟩ := h.records k hk hid
  have hend : k.stop = k.start + min chunkSize (size - k.start) := congrArg DedupRange.stop hkey
  have heq : k.start = chunkStart (x / chunkSize) := by
    simp only [chunkStart, chunkSize] at *
    omega
  exact ⟨heq ▸ hkey, by omega⟩

/-- Bytes are covered chunk by chunk. -/
theorem covered_iff (h : db.Chunked id size) :
    db.Covered id x ↔ chunkKey id size (chunkStart (x / chunkSize)) ∈ db.keys ∧ x < size := by
  constructor
  · rintro ⟨k, hk, hid, hstart, hstop⟩
    obtain ⟨rfl, hx⟩ := h.eq_chunkKey hk hid hstart hstop
    exact ⟨hk, hx⟩
  · rintro ⟨hk, hx⟩
    refine ⟨_, hk, rfl, ?_, ?_⟩
    · exact Nat.div_mul_le_self x chunkSize
    · change x < chunkStart (x / chunkSize) + min chunkSize (size - chunkStart (x / chunkSize))
      simp only [chunkStart, chunkSize]
      omega

/-- Records of different chunks do not overlap. -/
theorem separate (h : db.Chunked id size) : db.Separate id where
  nonempty k hk hid := by
    obtain ⟨-, hsize, hkey⟩ := h.records k hk hid
    have hend : k.stop = k.start + min chunkSize (size - k.start) := congrArg DedupRange.stop hkey
    have hpos := chunkSize_pos
    omega
  disjoint a ha b hb hida hidb hne := by
    obtain ⟨haligna, -, hkeya⟩ := h.records a ha hida
    obtain ⟨halignb, -, hkeyb⟩ := h.records b hb hidb
    have hstart : a.start ≠ b.start := fun heq => hne (hkeya.trans (heq ▸ hkeyb.symm))
    have henda : a.stop = a.start + min chunkSize (size - a.start) :=
      congrArg DedupRange.stop hkeya
    have hendb : b.stop = b.start + min chunkSize (size - b.start) :=
      congrArg DedupRange.stop hkeyb
    simp only [chunkSize] at *
    omega
  allValid := h.allValid

/-- `dedup` finds no record only if there is none. -/
theorem notMem_of_dedupCheckRange (h : db.Chunked id size) (halign : off % chunkSize = 0)
    (hoff : off < size) (hcheck : db.dedupCheckRange id off chunkSize = .ok false) :
    chunkKey id size off ∉ db.keys := by
  intro hmem
  by_cases hpart : size < off + chunkSize
  · rw [dedupCheckRange_lastChunk h.records halign hoff hpart hmem] at hcheck
    cases hcheck
  · have hn : min chunkSize (size - off) = chunkSize := by omega
    have hwhole : chunkKey id size off = .newWithId id off chunkSize := by rw [chunkKey, hn]
    have hfound := (dedupCheckRange_chunk_iff h.records halign hoff).mpr
      ⟨not_lt.mp hpart, hwhole ▸ hmem, hwhole ▸ h.allValid _ hmem rfl⟩
    rw [hfound] at hcheck
    simp at hcheck

/-- `dedup` finds the record of a whole chunk. -/
theorem mem_of_dedupCheckRange (h : db.Chunked id size) (halign : off % chunkSize = 0)
    (hoff : off < size) (hcheck : db.dedupCheckRange id off chunkSize = .ok true) :
    chunkKey id size off ∈ db.keys := by
  obtain ⟨hfull, hmem, -⟩ := (dedupCheckRange_chunk_iff h.records halign hoff).mp hcheck
  rwa [chunkKey, show min chunkSize (size - off) = chunkSize by omega]

end Chunked

end IndexDb

/-! ### Requests -/

/-- The chunk of a request lies in the image. -/
structure DedupRequest.ForChunk (req : DedupRequest) (size : ℕ) : Prop where
  off_lt : req.off < size
  aligned : req.off % chunkSize = 0
  len_eq : req.len = chunkSize
  method : req.method ≠ .unknown

/-- The readers ask for whole chunks, and for records of the image. -/
def DedupPc.FromReaders (db : IndexDb) (id : Vector UInt8 32) : DedupPc → Prop
  | .check req => req.len = chunkSize
  | .sync info => db.IsRecord id info
  | _ => True

open IndexDb in
/-- What the workers know of the index at each point. Only the dedup worker deduplicates. -/
def DedupPc.Orderly {τ : Type*} (size : ℕ) (id : Vector UInt8 32) (db : IndexDb) (t : DedupTask τ) :
    DedupPc → Prop
  | .check req => t = .dedupWorker ∧ req.method ≠ .unknown
  | .data req => t = .dedupWorker ∧ req.ForChunk size ∧ chunkKey id size req.off ∉ db.keys
  | .add req buf =>
    t = .dedupWorker ∧ req.ForChunk size ∧ chunkKey id size req.off ∉ db.keys ∧
      buf.length = min chunkSize (size - req.off)
  | .record req n cs =>
    t = .dedupWorker ∧ req.ForChunk size ∧ chunkKey id size req.off ∉ db.keys ∧
      n = min chunkSize (size - req.off) ∧ cs.method ≠ .unknown
  | .deduped req res =>
    t = .dedupWorker ∧ (res = .ok () → req.ForChunk size ∧ chunkKey id size req.off ∈ db.keys)
  | .verified info _ => db.IsRecord id info
  | .punch idx segs _ =>
    segs.all (fun seg => seg.1.cs.isValid) = true ∧
      Tiles (db.InRecord id) (chunkStart idx) (chunkEnd size idx - chunkStart idx) segs
  | _ => True

namespace Dedup

variable {ω : Type} {τ : Type*} {B : Backend ω} {H : Hashes} {core : DedupCore} {faults : Prop}
  {s s' : DedupShared ω B.size} {t : DedupTask τ} {pc pc' : DedupPc}

/-- A step of a task under these requests: the records stay, and only the dedup worker adds one. -/
theorem orderly_step (hI : s.indexDb.Chunked core.id B.size)
    (hA : pc.Orderly B.size core.id s.indexDb t) (hok : pc.FromReaders s.indexDb core.id)
    (h : DedupStep B H core faults t s pc s' pc') :
    s'.indexDb.Chunked core.id B.size ∧ pc'.Orderly B.size core.id s'.indexDb t ∧
      s.indexDb.Grows s'.indexDb core.id ∧ (s'.indexDb = s.indexDb ∨ t = .dedupWorker) := by
  have hsame : pc'.Orderly B.size core.id s.indexDb t → s'.indexDb = s.indexDb →
      s'.indexDb.Chunked core.id B.size ∧ pc'.Orderly B.size core.id s'.indexDb t ∧
      s.indexDb.Grows s'.indexDb core.id ∧ (s'.indexDb = s.indexDb ∨ t = .dedupWorker) := by
    intro hA' heq
    rw [heq]
    exact ⟨hI, hA', .refl _ _, Or.inl rfl⟩
  cases h with
  | request req hmethod => exact hsame ⟨rfl, hmethod⟩ rfl
  | emptyRequest hlen =>
    have hlen' : _ = chunkSize := hok
    exact absurd (hlen'.symm.trans hlen) chunkSize_pos.ne'
  | badRequest | severalSegments | checkFault => exact hsame ⟨hA.1, fun h => by cases h⟩ rfl
  | @duplicated t _ req hlen hreq hcheck =>
    obtain ⟨hoff, halign, -⟩ := checkRequest_ok hreq
    have hlen : req.len = chunkSize := hok
    refine hsame ⟨hA.1, fun _ => ⟨⟨hoff, halign, hok, hA.2⟩, ?_⟩⟩ rfl
    exact hI.mem_of_dedupCheckRange halign hoff (hlen ▸ hcheck)
  | @new t _ req hlen hreq hcheck =>
    obtain ⟨hoff, halign, -⟩ := checkRequest_ok hreq
    have hlen : req.len = chunkSize := hok
    refine hsame ⟨hA.1, ⟨hoff, halign, hok, hA.2⟩, ?_⟩ rfl
    exact hI.notMem_of_dedupCheckRange halign hoff (hlen ▸ hcheck)
  | fetchError | fetchShort => exact hsame ⟨hA.1, fun h => by cases h⟩ rfl
  | fetched hfetch =>
    obtain ⟨ht, hreq, hmem⟩ := hA
    exact hsame ⟨ht, hreq, hmem, hreq.len_eq ▸ Cache.length_of_fetch hfetch⟩ rfl
  | added =>
    obtain ⟨ht, hreq, hmem, hlen⟩ := hA
    exact hsame ⟨ht, hreq, hmem, hlen, by rw [CheckSum.method_fromData]; exact hreq.method⟩ rfl
  | addFault | recordFault => exact hsame ⟨hA.1, fun h => by cases h⟩ rfl
  | wasRecorded =>
    obtain ⟨ht, hreq, hmem, rfl, hcs⟩ := hA
    refine ⟨hI.add hreq.aligned hreq.off_lt hcs, ⟨ht, fun _ => ⟨hreq, ?_⟩⟩, .add hmem _, Or.inr ht⟩
    exact IndexDb.mem_keys_add.mpr (Or.inl rfl)
  | syncVerified => exact hsame hok rfl
  | gcCovered _ hsegs hvalid => exact hsame ⟨hvalid, hsegs ▸ IndexDb.tiles_dedupRange⟩ rfl
  | _ => exact hsame trivial rfl

/-- What a task knows of the index stays true, if no record of the image is added beside it, or if
it does not rely on records that are missing. -/
theorem orderly_grow {db db' : IndexDb} {size : ℕ} {id : Vector UInt8 32}
    (hA : pc.Orderly size id db t) (hgrow : db.Grows db' id)
    (h : (∀ k ∈ db'.keys, k.id = id → k ∈ db.keys) ∨ t ≠ .dedupWorker) :
    pc.Orderly size id db' t := by
  have hmem : t = .dedupWorker → ∀ k, k.id = id → (k ∈ db'.keys ↔ k ∈ db.keys) := fun ht k hid =>
    ⟨fun hk => h.resolve_right (not_not.mpr ht) k hk hid, fun hk => (hgrow k hk hid).1⟩
  cases pc with
  | check req => exact hA
  | data req => exact ⟨hA.1, hA.2.1, by rw [hmem hA.1 _ rfl]; exact hA.2.2⟩
  | add req buf | record req n cs =>
    obtain ⟨ht, hreq, hno, hrest⟩ := hA
    exact ⟨ht, hreq, by rw [hmem ht _ rfl]; exact hno, hrest⟩
  | deduped req res =>
    refine ⟨hA.1, fun hres => ⟨(hA.2 hres).1, ?_⟩⟩
    rw [hmem hA.1 _ rfl]
    exact (hA.2 hres).2
  | verified info buf => exact IndexDb.IsRecord.grow hA hgrow
  | punch idx segs ids => exact ⟨hA.1, hA.2.mono fun i o n hi => hi.grow hgrow⟩
  | _ => trivial

variable [DecidableEq τ] {start : DedupShared ω B.size → Prop}
  {ok : Config (DedupTask τ) (DedupShared ω B.size) DedupPc →
    DedupTask τ ⊕ DedupEvent B.size → Prop}
  {c : Config (DedupTask τ) (DedupShared ω B.size) DedupPc}

/-- In every run under these requests the index holds chunks, and what the workers know is true. -/
theorem orderly_of_reach (hstart : ∀ s, start s → s.indexDb.Chunked core.id B.size)
    (hok : ∀ c t, ok c (.inl t) → (c.loc t).FromReaders c.shared.indexDb core.id)
    (hc : (dedupProgram B H core faults τ start).toSystem.Reach ok c) :
    Program.Holds (fun s => s.indexDb.Chunked core.id B.size)
      (fun t s pc => pc.Orderly B.size core.id s.indexDb t) c := by
  refine Program.invariant ?_ ?_ ?_ ?_ hc
  · rintro c ⟨hs, hidle⟩
    refine ⟨hstart _ hs, fun t => ?_⟩
    rw [hidle t]
    trivial
  · intro c t s' pc' h hg hstep
    obtain ⟨hI, hA, -⟩ := orderly_step h.1 (h.2 t) (hok c t hg) hstep
    exact ⟨hI, hA⟩
  · intro c t u s' pc' h hg hu hstep
    obtain ⟨-, -, hgrow, hsame⟩ := orderly_step h.1 (h.2 t) (hok c t hg) hstep
    rcases hsame with heq | ht
    · exact orderly_grow (h.2 u) hgrow (Or.inl fun k hk _ => heq ▸ hk)
    · exact orderly_grow (h.2 u) hgrow (Or.inr fun hu' => hu (hu'.trans ht.symm))
  · intro c e s' h _ henv
    cases henv with
    | otherImage off n cs hid =>
      refine ⟨h.1.add_of_ne hid off n cs, fun u => ?_⟩
      refine orderly_grow (h.2 u) (.add_of_ne hid _ off n cs) (Or.inl fun k hk hkid => ?_)
      exact (IndexDb.mem_keys_add.mp hk).resolve_left (IndexDb.ne_newWithId hid hkid)
    | _ => exact h

/-- A range in one chunk. -/
theorem chunkIds_chunk {off n : ℕ} (halign : off % chunkSize = 0) (hn : 0 < n)
    (hle : n ≤ chunkSize) : Cache.chunkIds off n = [off / chunkSize] := by
  have hlast : (off + n - 1) / chunkSize = off / chunkSize := by
    simp only [chunkSize] at *
    omega
  rw [Cache.chunkIds, hlast, Nat.add_sub_cancel_left, List.range'_one]

/-! ### The first chunk of a local raw file -/

section Run

open IndexDb

variable {H : Hashes} {size : ℕ} {s : DedupShared Unit size}

/-- The request for the first chunk. -/
def firstRequest : DedupRequest := ⟨0, chunkSize, .blake3⟩

/-- The checksum of the first chunk. -/
def firstSum (H : Hashes) (s : DedupShared Unit size) : CheckSum :=
  .fromData H (s.cache.raw.slice 0 chunkSize) .blake3

/-- The record of the first chunk. -/
def firstInfo (H : Hashes) (s : DedupShared Unit size) : DedupInfo :=
  .new 0 chunkSize (firstSum H s)

/-- The first chunk is stored and recorded. -/
def deduped (H : Hashes) (s : DedupShared Unit size) : DedupShared Unit size :=
  ((s.withCache (Cache.fetch (.empty size) () s.cache 0 chunkSize).2.1 ()).withChunkDb
    (s.chunkDb.getOrPut (firstSum H s) (s.cache.raw.slice 0 chunkSize))).withIndexDb
      (empty.addLocalDedupInfo localReader.id 0 chunkSize (firstSum H s))

/-- An index without records. -/
theorem chunked_empty : empty.Chunked localReader.id size :=
  chunked_of_forall_ne fun k hk => absurd hk (Finset.notMem_empty k)

theorem dedupRange_empty (id : Vector UInt8 32) (off : ℕ) {n : ℕ} (hn : 0 < n) :
    empty.dedupRange id off n = [gap off n] := by
  rw [dedupRange, if_neg hn.ne', keysFrom, show empty.keys = ∅ from rfl, Finset.filter_empty,
    Finset.sort_empty, scan, scanEnd, if_pos hn.ne']

theorem isValid_firstInfo (H : Hashes) (s : DedupShared Unit size) :
    (firstInfo H s).cs.isValid = true := by
  rw [firstInfo, DedupInfo.new, CheckSumOnDisk.isValid_ofCheckSum, firstSum,
    CheckSum.method_fromData]
  decide

theorem dedupRange_deduped (H : Hashes) (s : DedupShared Unit size) (hsize : chunkSize ≤ size) :
    (deduped H s).indexDb.dedupRange localReader.id 0 chunkSize =
      [(firstInfo H s, chunkSize)] := by
  have hpos := chunkSize_pos
  have hn : min chunkSize (size - 0) = chunkSize := by omega
  have hchunked : (deduped H s).indexDb.Chunked localReader.id size := by
    have hmethod : (firstSum H s).method ≠ .unknown := by
      rw [firstSum, CheckSum.method_fromData]
      decide
    have hadd := (@chunked_empty size).add (Nat.zero_mod _) (by omega) hmethod
    rwa [hn] at hadd
  have hkey : chunkKey localReader.id size 0 = .newWithId localReader.id 0 chunkSize := by
    rw [chunkKey, hn]
  have hmem : chunkKey localReader.id size 0 ∈ (deduped H s).indexDb.keys :=
    hkey ▸ mem_keys_add.mpr (Or.inl rfl)
  rw [dedupRange_chunkKey hchunked.records (Nat.zero_mod _) (by omega) hmem, hkey, hn, Nat.sub_self,
    scanEnd, if_neg (not_not.mpr rfl)]
  exact congrArg (fun i => [(i, chunkSize)]) (info_add_self ..)

variable {start : DedupShared Unit size → Prop} {faults : Prop} {r y : DedupPc}
  {ok : Config (DedupTask Unit) (DedupShared Unit size) DedupPc →
    DedupTask Unit ⊕ DedupEvent size → Prop}

/-- Where the worker stands while it handles the first request. -/
def FirstRun (db : IndexDb) : DedupPc → Prop
  | .check req => req = firstRequest ∧ db = empty
  | .record req n _ => req = firstRequest ∧ n = chunkSize
  | .idle | .data _ | .add _ _ | .deduped _ _ | .gc _ => True
  | _ => False

theorem fromReaders_of_firstRun {db : IndexDb} {d : DedupPc} (h : FirstRun db d) :
    d.FromReaders db localReader.id := by
  cases d with
  | check req => exact congrArg DedupRequest.len h.1
  | sync info => exact h.elim
  | _ => trivial

/-- After a request for the recorded chunk the dedup worker comes to drop its cached copy. -/
theorem crew_punch (hsize : chunkSize ≤ size) {s' : DedupShared Unit size}
    (hs : s'.indexDb = (deduped H s).indexDb)
    (hok : ∀ d, FirstRun s'.indexDb d → ok ⟨s', .crew r d y⟩ (.inl .dedupWorker))
    (hc : (dedupProgram (.empty size) H localReader faults Unit start).toSystem.Reach ok
      ⟨s', .crew r (.deduped firstRequest (.ok ())) y⟩) :
    (dedupProgram (.empty size) H localReader faults Unit start).toSystem.Reach ok
      ⟨s', .crew r (.punch 0 [(firstInfo H s, chunkSize)] []) y⟩ := by
  have hids : Cache.chunkIds firstRequest.off firstRequest.len = [0] := by
    rw [firstRequest, chunkIds_chunk (Nat.zero_mod _) chunkSize_pos le_rfl, Nat.zero_div]
  have h₁ : (dedupProgram (.empty size) H localReader faults Unit start).toSystem.Reach ok
      ⟨s', .crew r (.gc [0]) y⟩ :=
    hids ▸ crew_dedup hc (hok _ trivial) (.requestDone chunkSize_pos.ne')
  have hstart : chunkStart 0 = 0 := Nat.zero_mul _
  have hend : chunkEnd size 0 - chunkStart 0 = chunkSize := by
    rw [hstart, chunkEnd_eq_min, Nat.zero_add, Nat.one_mul, Nat.min_eq_left hsize, Nat.sub_zero]
  refine crew_dedup h₁ (hok _ trivial) (.gcCovered ?_ ?_ ?_)
  · rw [hstart]
    exact Nat.zero_le _
  · change s'.indexDb.dedupRange localReader.id (chunkStart 0) (chunkEnd size 0 - chunkStart 0) = _
    rw [hs, hend, hstart]
    exact dedupRange_deduped H s hsize
  · simp [isValid_firstInfo]

/-- The dedup worker takes the request for a chunk that is not recorded, up to the point where it
drops the cached copy. -/
theorem crew_deduped (hsize : chunkSize ≤ size) (hs : s.indexDb = empty)
    (hok : ∀ s' d, FirstRun s'.indexDb d → ok ⟨s', .crew r d y⟩ (.inl .dedupWorker))
    (hc : (dedupProgram (.empty size) H localReader faults Unit start).toSystem.Reach ok
      ⟨s, .crew r .idle y⟩) :
    (dedupProgram (.empty size) H localReader faults Unit start).toSystem.Reach ok
      ⟨deduped H s, .crew r (.punch 0 [(firstInfo H s, chunkSize)] []) y⟩ := by
  have hpos : 0 < size := chunkSize_pos.trans_le hsize
  have hfree : s.indexDb.dedupCheckRange localReader.id 0 chunkSize = .ok false := by
    rw [hs]
    exact dedupCheckRange_of_notMem (@chunkRecords_empty _ size) (Nat.zero_mod _)
      (Finset.notMem_empty _)
  have hfetch := Cache.fetch_empty s.cache (n := chunkSize) hpos
  rw [Nat.sub_zero, Nat.min_eq_left hsize] at hfetch
  have h₁ := crew_dedup hc (hok _ _ trivial) (.request firstRequest (by decide))
  have h₂ := crew_dedup h₁ (hok _ _ ⟨rfl, hs⟩)
    (.new chunkSize_pos.ne' (checkRequest_first hpos) hfree)
  have h₃ := crew_dedup h₂ (hok _ _ trivial)
    (.fetched (Prod.ext hfetch rfl) (Or.inl (ByteFile.length_slice ..)))
  have h₄ := crew_dedup h₃ (hok _ _ trivial) .added
  have h₅ := crew_dedup h₄ (hok _ _ ⟨rfl, ByteFile.length_slice ..⟩) .wasRecorded
  have hstate : ((((s.withCache (Cache.fetch (.empty size) () s.cache 0 chunkSize).2.1 ()
      ).withChunkDb (s.chunkDb.getOrPut (firstSum H s) (s.cache.raw.slice 0 chunkSize))).withIndexDb
      (s.indexDb.addLocalDedupInfo localReader.id 0 (s.cache.raw.slice 0 chunkSize).length
        (firstSum H s)))) = deduped H s := by
    rw [hs, ByteFile.length_slice]
    rfl
  exact crew_punch hsize rfl (hok _) (hstate ▸ h₅)

end Run

end Dedup

end DistillFs
