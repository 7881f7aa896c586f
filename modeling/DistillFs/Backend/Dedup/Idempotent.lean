import DistillFs.Backend.Dedup.Core

/-!
# Deduplicating a chunk again

A reader asks the dedup worker for whole chunks. Nothing but a bitmap in memory keeps it from asking
for a chunk twice, so `dedup` meets its own records. The lookup of a whole chunk finds the record of
a whole chunk as its only segment, and that is what `dedup` looks for. The record of a partial last
chunk is shorter than the request: its lookup has a second segment behind the end of the image, and
`dedup` refuses a range of several segments. A record that was made with an unknown method counts as
none.

## Main definitions

* `dedup`: the function, as the worker runs it without faults.
* `IndexDb.ChunkRecords`: the records that requests for chunks make.

## Main results

* `dedup_steps`, `ChunkRecords.dedup`, `dedup_idempotent_iff`.
-/

namespace DistillFs

open Foundation

/-! ### The function -/

/-- What a call of `dedup` does: its result, what it leaves, and the ranges it fetches. -/
structure DedupCall (ω : Type) (size : ℕ) where
  res : Except IoError Unit
  shared : DedupShared ω size
  fetched : List (ℕ × ℕ)

section Function

variable {ω : Type} (B : Backend ω) (H : Hashes) (core : DedupCore)

/-- `dedup`. -/
def dedup (s : DedupShared ω B.size) (req : DedupRequest) : DedupCall ω B.size :=
  if req.len = 0 then ⟨.ok (), s, []⟩
  else
    match checkRequest B.size req.off req.len with
    | .error e => ⟨.error e, s, []⟩
    | .ok () =>
      match s.indexDb.dedupCheckRange core.id req.off req.len with
      | .error e => ⟨.error e, s, []⟩
      | .ok true => ⟨.ok (), s, []⟩
      | .ok false =>
        match Cache.fetch B s.hidden s.cache req.off req.len with
        | (.error e, c', w') => ⟨.error e, s.withCache c' w', [(req.off, req.len)]⟩
        | (.ok bytes, c', w') =>
          if bytes.length ≠ req.len ∧ req.off + bytes.length ≠ B.size then
            ⟨.error (shortRead B.size req.off req.len bytes.length), s.withCache c' w',
              [(req.off, req.len)]⟩
          else
            let cs := CheckSum.fromData H bytes req.method
            ⟨.ok (), ((s.withCache c' w').withChunkDb (s.chunkDb.getOrPut cs bytes)).withIndexDb
              (s.indexDb.addLocalDedupInfo core.id req.off bytes.length cs), [(req.off, req.len)]⟩

variable {B H core} {s : DedupShared ω B.size} {req : DedupRequest}

/-- The worker that takes up a request runs `dedup` on it, step by step. -/
theorem dedup_steps {τ : Type*} :
    Relation.ReflTransGen
      (fun a b => DedupStep B H core False (.dedupWorker : DedupTask τ) a.1 a.2 b.1 b.2)
      (s, .check req) ((dedup B H core s req).shared, .deduped req (dedup B H core s req).res) := by
  unfold dedup
  split_ifs with hlen
  · exact .single (.emptyRequest hlen)
  cases hreq : checkRequest B.size req.off req.len with
  | error e => exact .single (.badRequest hlen hreq)
  | ok u =>
    cases hcheck : s.indexDb.dedupCheckRange core.id req.off req.len with
    | error e => exact .single (.severalSegments hlen hreq hcheck)
    | ok known =>
      cases known with
      | true => exact .single (.duplicated hlen hreq hcheck)
      | false =>
        refine .head (b := (s, .data req)) (.new hlen hreq hcheck) ?_
        rcases hfetch : Cache.fetch B s.hidden s.cache req.off req.len with ⟨r, c', w'⟩
        cases r with
        | error e => exact .single (.fetchError hfetch)
        | ok bytes =>
          dsimp only
          split_ifs with hshort
          · exact .single (.fetchShort hfetch hshort.1 hshort.2)
          · refine .head (b := (s.withCache c' w', .add req bytes)) (.fetched hfetch ?_)
              (.head (b := (_, .record req bytes.length _)) .added (.single .wasRecorded))
            by_contra hnot
            exact hshort (not_or.mp hnot)

/-- A request that passes the checks is done without a fetch exactly if the index has the range. -/
theorem dedup_quiet_iff (hlen : req.len ≠ 0) (hreq : checkRequest B.size req.off req.len = .ok ()) :
    ((dedup B H core s req).res = .ok () ∧ (dedup B H core s req).fetched = [] ∧
      (dedup B H core s req).shared.indexDb = s.indexDb) ↔
      s.indexDb.dedupCheckRange core.id req.off req.len = .ok true := by
  unfold dedup
  rw [if_neg hlen, hreq]
  cases hcheck : s.indexDb.dedupCheckRange core.id req.off req.len with
  | error e => simp
  | ok known =>
    cases known with
    | true => simp
    | false =>
      rcases hfetch : Cache.fetch B s.hidden s.cache req.off req.len with ⟨r, c', w'⟩
      cases r with
      | error e => simp
      | ok bytes =>
        dsimp only
        split_ifs <;> simp

/-- A request that succeeds finds its range in the index, or records what the image has of it. -/
theorem dedup_ok (hlen : req.len ≠ 0) (h : (dedup B H core s req).res = .ok ()) :
    checkRequest B.size req.off req.len = .ok () ∧
    (s.indexDb.dedupCheckRange core.id req.off req.len = .ok true ∧
        (dedup B H core s req).shared.indexDb = s.indexDb ∨
      s.indexDb.dedupCheckRange core.id req.off req.len = .ok false ∧
        ∃ bytes, (dedup B H core s req).shared.indexDb = s.indexDb.addLocalDedupInfo core.id req.off
          (min req.len (B.size - req.off)) (.fromData H bytes req.method)) := by
  unfold dedup at h ⊢
  rw [if_neg hlen] at h ⊢
  cases hreq : checkRequest B.size req.off req.len with
  | error e => simp [hreq] at h
  | ok u =>
    rw [hreq] at h
    refine ⟨rfl, ?_⟩
    cases hcheck : s.indexDb.dedupCheckRange core.id req.off req.len with
    | error e => simp [hcheck] at h
    | ok known =>
      rw [hcheck] at h
      cases known with
      | true => exact Or.inl ⟨rfl, rfl⟩
      | false =>
        rcases hfetch : Cache.fetch B s.hidden s.cache req.off req.len with ⟨r, c', w'⟩
        rw [hfetch] at h
        cases r with
        | error e => simp at h
        | ok bytes =>
          dsimp only at h ⊢
          split_ifs at h ⊢
          rw [← Cache.length_of_fetch hfetch]
          exact Or.inr ⟨rfl, bytes, rfl⟩

end Function

/-! ### Lookups of chunks -/

namespace IndexDb

/-- The key of the chunk at `off`. -/
def chunkKey (id : Vector UInt8 32) (size off : ℕ) : DedupRange :=
  .newWithId id off (min chunkSize (size - off))

/-- The records of the image are chunks. -/
def ChunkRecords (db : IndexDb) (id : Vector UInt8 32) (size : ℕ) : Prop :=
  ∀ k ∈ db.keys, k.id = id →
    k.start % chunkSize = 0 ∧ k.start < size ∧ k = chunkKey id size k.start

/-- The chunk at `off` is recorded as a whole, with a checksum. -/
def Recorded (db : IndexDb) (id : Vector UInt8 32) (off : ℕ) : Prop :=
  .newWithId id off chunkSize ∈ db.keys ∧
    (db.info (.newWithId id off chunkSize)).cs.isValid = true

variable {db : IndexDb} {id : Vector UInt8 32} {size off : ℕ}

theorem chunkRecords_empty : empty.ChunkRecords id size := fun _ hk =>
  absurd hk (Finset.notMem_empty _)

theorem ChunkRecords.add (h : db.ChunkRecords id size) (halign : off % chunkSize = 0)
    (hoff : off < size) (cs : CheckSum) :
    (db.addLocalDedupInfo id off (min chunkSize (size - off)) cs).ChunkRecords id size := by
  intro k hk hid
  rcases mem_keys_add.mp hk with rfl | hk
  · exact ⟨halign, hoff, rfl⟩
  · exact h k hk hid

theorem ChunkRecords.add_of_ne (h : db.ChunkRecords id size) {id' : Vector UInt8 32}
    (hid' : id' ≠ id) (n : ℕ) (cs : CheckSum) :
    (db.addLocalDedupInfo id' off n cs).ChunkRecords id size := fun k hk hid =>
  h k ((mem_keys_add.mp hk).resolve_left (ne_newWithId hid' hid)) hid

/-- The walk from a chunk comes to the record of this chunk and to records of chunks behind it. -/
private theorem ChunkRecords.start_of_mem (h : db.ChunkRecords id size)
    (halign : off % chunkSize = 0) {k : DedupRange} (hk : k ∈ db.keysFrom id off)
    (hid : k.id = id) :
    k = chunkKey id size off ∨ off + chunkSize ≤ k.start ∧ k.start < size := by
  obtain ⟨hkdb, hlower⟩ := mem_keysFrom.mp hk
  obtain ⟨hstart, hsize, hkey⟩ := h k hkdb hid
  have hle := (DedupRange.le_iff (show (DedupRange.newWithId id off 1).id = k.id from
    hid.symm)).mp hlower
  have hstop : k.stop = k.start + min chunkSize (size - k.start) := congrArg DedupRange.stop hkey
  have hbegin : off ≤ k.start := by
    by_contra hbefore
    have hchunk : k.start + chunkSize ≤ off := by
      simp only [chunkSize] at *
      omega
    simp only [DedupRange.newWithId] at hle
    omega
  by_cases heq : k.start = off
  · exact Or.inl (heq ▸ hkey)
  · refine Or.inr ⟨?_, hsize⟩
    simp only [chunkSize] at *
    omega

/-- A walk that comes to no record of the image. -/
private theorem scan_of_head {ks : List DedupRange} {len : ℕ} (h : ∀ k ∈ ks.head?, k.id ≠ id) :
    db.scan id ks off len = scanEnd off len := by
  cases ks with
  | nil => rfl
  | cons k ks => rw [scan, if_pos (h k rfl)]

/-- The walk from a chunk that has a record comes to this record first. -/
private theorem ChunkRecords.keysFrom_eq (h : db.ChunkRecords id size)
    (halign : off % chunkSize = 0) (hoff : off < size) (hmem : chunkKey id size off ∈ db.keys) :
    ∃ rest, db.keysFrom id off = chunkKey id size off :: rest ∧
      ∀ k ∈ rest, k.id = id → off + chunkSize ≤ k.start ∧ k.start < size := by
  have hpos := chunkSize_pos
  have hid : (chunkKey id size off).id = id := rfl
  have hstop : (chunkKey id size off).stop = off + min chunkSize (size - off) := rfl
  have hfrom : chunkKey id size off ∈ db.keysFrom id off := by
    refine mem_keysFrom.mpr ⟨hmem, (DedupRange.le_iff hid.symm).mpr ?_⟩
    rw [hstop]
    change off + 1 < _ ∨ off + 1 = _ ∧ off ≤ off
    omega
  have hsorted : (db.keysFrom id off).Pairwise (· < ·) := (Finset.sortedLT_sort _).pairwise
  obtain ⟨k, rest, hks⟩ := List.exists_cons_of_ne_nil (List.ne_nil_of_mem hfrom)
  rw [hks] at hfrom hsorted
  obtain ⟨hlt, -⟩ := List.pairwise_cons.mp hsorted
  have hall : ∀ k' ∈ k :: rest, k'.id = id → k' = chunkKey id size off ∨
      off + chunkSize ≤ k'.start ∧ k'.start < size := fun k' hk' hid' =>
    h.start_of_mem halign (hks ▸ hk') hid'
  have hle : k ≤ chunkKey id size off := by
    rcases List.mem_cons.mp hfrom with heq | hin
    · exact heq.ge
    · exact (hlt _ hin).le
  have hkid : k.id = id :=
    DedupRange.id_eq_of_le (mem_keysFrom.mp (hks ▸ List.mem_cons_self : k ∈ db.keysFrom id off)).2
      hle rfl
  have hk : k = chunkKey id size off := by
    refine (hall k List.mem_cons_self hkid).resolve_right fun ⟨hbehind, hsize⟩ => ?_
    have hkdb := (mem_keysFrom.mp (hks ▸ List.mem_cons_self : k ∈ db.keysFrom id off)).1
    have hkstop : k.stop = k.start + min chunkSize (size - k.start) :=
      congrArg DedupRange.stop (h k hkdb hkid).2.2
    rw [DedupRange.le_iff (hkid.trans hid.symm), hstop] at hle
    omega
  subst hk
  exact ⟨rest, hks, fun k' hk' hid' => (hall k' (List.mem_cons_of_mem _ hk') hid').resolve_left
    (hlt k' hk').ne'⟩

/-- The lookup of a chunk that has a record: the record, and what the request has behind the end of
the image. -/
theorem dedupRange_chunkKey (h : db.ChunkRecords id size) (halign : off % chunkSize = 0)
    (hoff : off < size) (hmem : chunkKey id size off ∈ db.keys) :
    db.dedupRange id off chunkSize =
      (db.info (chunkKey id size off), min chunkSize (size - off)) ::
        scanEnd (off + min chunkSize (size - off)) (chunkSize - min chunkSize (size - off)) := by
  have hpos := chunkSize_pos
  obtain ⟨rest, hks, hrest⟩ := h.keysFrom_eq halign hoff hmem
  obtain ⟨hstart, hstop⟩ := db.repeats _ hmem
  have hstart : (db.info (chunkKey id size off)).off = off := hstart
  have hstop : (db.info (chunkKey id size off)).stop = off + min chunkSize (size - off) := hstop
  have hn :
      min (off + min chunkSize (size - off) - off) chunkSize = min chunkSize (size - off) := by
    omega
  have hid : (chunkKey id size off).id = id := rfl
  rw [dedupRange, if_neg hpos.ne', hks, scan, if_neg (not_not.mpr hid), hstart, hstop,
    if_neg (lt_irrefl _), if_neg (by omega), hn]
  dsimp only
  congr 1
  split_ifs with hdone
  · rfl
  · -- the rest of the request lies behind the end of the image
    refine scan_of_head fun k hk hid => ?_
    obtain ⟨hbehind, hsize⟩ := hrest k (List.mem_of_mem_head? hk) hid
    omega

/-- The lookup of a chunk that has no record: one gap. -/
theorem dedupRange_of_notMem (h : db.ChunkRecords id size) (halign : off % chunkSize = 0)
    (hmem : chunkKey id size off ∉ db.keys) :
    db.dedupRange id off chunkSize = [gap off chunkSize] := by
  have hpos := chunkSize_pos
  rw [dedupRange, if_neg hpos.ne']
  cases hks : db.keysFrom id off with
  | nil => rw [scan, scanEnd, if_pos hpos.ne']
  | cons k ks =>
    have hk : k ∈ db.keysFrom id off := hks ▸ List.mem_cons_self
    by_cases hid : k.id = id
    · have hkdb := (mem_keysFrom.mp hk).1
      obtain ⟨hbehind, -⟩ := (h.start_of_mem halign hk hid).resolve_left fun heq =>
        hmem (heq ▸ hkdb)
      have hn : min (k.start - off) chunkSize = chunkSize := by omega
      rw [scan, if_neg (not_not.mpr hid), (db.repeats k hkdb).1, if_pos (by omega), hn]
      dsimp only
      rw [if_pos (Or.inl (Nat.sub_self _)), Nat.sub_self]
      rfl
    · rw [scan, if_pos hid, scanEnd, if_pos hpos.ne']

/-- `dedup` takes up a chunk that has no record. -/
theorem dedupCheckRange_of_notMem (h : db.ChunkRecords id size) (halign : off % chunkSize = 0)
    (hmem : chunkKey id size off ∉ db.keys) : db.dedupCheckRange id off chunkSize = .ok false := by
  rw [dedupCheckRange, dedupRange_of_notMem h halign hmem]
  exact congrArg Except.ok (isValid_gap off chunkSize)

/-- `dedup` finds a chunk in the index if it is recorded as a whole. -/
theorem dedupCheckRange_chunk_iff (h : db.ChunkRecords id size) (halign : off % chunkSize = 0)
    (hoff : off < size) :
    db.dedupCheckRange id off chunkSize = .ok true ↔
      off + chunkSize ≤ size ∧ db.Recorded id off := by
  unfold dedupCheckRange
  by_cases hmem : chunkKey id size off ∈ db.keys
  · rw [dedupRange_chunkKey h halign hoff hmem]
    by_cases hfull : off + chunkSize ≤ size
    · have hn : min chunkSize (size - off) = chunkSize := by omega
      have hkey : chunkKey id size off = .newWithId id off chunkSize := by rw [chunkKey, hn]
      rw [hn, hkey, Nat.sub_self, scanEnd, if_neg (not_not.mpr rfl)]
      rw [hkey] at hmem
      simp [hfull, Recorded, hmem]
    · rw [scanEnd, if_pos (by omega)]
      simp [hfull]
  · rw [← dedupCheckRange, dedupCheckRange_of_notMem h halign hmem]
    simp only [Except.ok.injEq, Bool.false_eq_true, false_iff, not_and]
    rintro hfull ⟨hrec, -⟩
    refine hmem ?_
    rwa [chunkKey, show min chunkSize (size - off) = chunkSize by omega]

/-- `dedup` refuses a partial last chunk that it has recorded. -/
theorem dedupCheckRange_lastChunk (h : db.ChunkRecords id size) (halign : off % chunkSize = 0)
    (hoff : off < size) (hpart : size < off + chunkSize) (hmem : chunkKey id size off ∈ db.keys) :
    db.dedupCheckRange id off chunkSize = .error ⟨.invalidInput, "Invalid range"⟩ := by
  rw [dedupCheckRange, dedupRange_chunkKey h halign hoff hmem, scanEnd, if_pos (by omega)]

end IndexDb

/-! ### Requests for chunks -/

section Chunks

open IndexDb

variable {ω : Type} {B : Backend ω} {H : Hashes} {core : DedupCore} {s : DedupShared ω B.size}
  {req : DedupRequest}

theorem dedup_refused (hlen : req.len ≠ 0) (hreq : checkRequest B.size req.off req.len = .ok ())
    {e : IoError} (hcheck : s.indexDb.dedupCheckRange core.id req.off req.len = .error e) :
    (dedup B H core s req).res = .error e := by
  simp only [dedup, if_neg hlen, hreq, hcheck]

/-- A range that is not in the index is deduplicated if it can be fetched: over a cache there are no
short reads. -/
theorem dedup_new (hlen : req.len ≠ 0) (hreq : checkRequest B.size req.off req.len = .ok ())
    (hcheck : s.indexDb.dedupCheckRange core.id req.off req.len = .ok false) {bytes : List UInt8}
    (hfetch : (Cache.fetch B s.hidden s.cache req.off req.len).1 = .ok bytes) :
    (dedup B H core s req).res = .ok () := by
  rcases h : Cache.fetch B s.hidden s.cache req.off req.len with ⟨r, c', w'⟩
  rw [h] at hfetch
  subst hfetch
  have hbytes := Cache.length_of_fetch h
  have hoff := (checkRequest_ok hreq).1
  simp only [dedup, if_neg hlen, hreq, hcheck, h]
  rw [if_neg (by omega)]

/-- Requests for chunks record chunks. -/
theorem ChunkRecords.dedup (h : s.indexDb.ChunkRecords core.id B.size) (hlen : req.len = chunkSize)
    (hok : (dedup B H core s req).res = .ok ()) :
    (DistillFs.dedup B H core s req).shared.indexDb.ChunkRecords core.id B.size := by
  obtain ⟨hreq, ⟨-, hdb⟩ | ⟨-, bytes, hdb⟩⟩ := dedup_ok (hlen ▸ chunkSize_pos.ne') hok
  · rwa [hdb]
  · obtain ⟨hoff, halign, -⟩ := checkRequest_ok hreq
    rw [hdb, hlen]
    exact IndexDb.ChunkRecords.add h halign hoff _

/-- **Deduplicating a chunk again.** After a request for a chunk has succeeded, the same request
succeeds again without a fetch and leaves the index as it is, whatever has become of the cache and
of the chunk database, exactly if the chunk is a whole one and its record has a checksum. -/
theorem dedup_idempotent_iff (hdb : s.indexDb.ChunkRecords core.id B.size)
    (hlen : req.len = chunkSize) (hok : (dedup B H core s req).res = .ok ())
    {s' : DedupShared ω B.size} (hs' : s'.indexDb = (dedup B H core s req).shared.indexDb) :
    ((dedup B H core s' req).res = .ok () ∧ (dedup B H core s' req).fetched = [] ∧
      (dedup B H core s' req).shared.indexDb = s'.indexDb) ↔
      req.off + chunkSize ≤ B.size ∧
        (req.method ≠ .unknown ∨ s.indexDb.Recorded core.id req.off) := by
  have hne : req.len ≠ 0 := hlen ▸ chunkSize_pos.ne'
  obtain ⟨hreq, hcases⟩ := dedup_ok hne hok
  obtain ⟨hoff, halign, -⟩ := checkRequest_ok hreq
  have hdb' := ChunkRecords.dedup hdb hlen hok
  rw [dedup_quiet_iff hne hreq, hs', hlen, dedupCheckRange_chunk_iff hdb' halign hoff]
  refine and_congr_right fun hfull => ?_
  rw [hlen, dedupCheckRange_chunk_iff hdb halign hoff] at hcases
  rcases hcases with ⟨⟨-, hrec⟩, hsame⟩ | ⟨hnew, bytes, hadd⟩
  · rw [hsame]
    exact ⟨fun h => Or.inr h, fun _ => hrec⟩
  · have hn : min chunkSize (B.size - req.off) = chunkSize := by omega
    have hold : ¬s.indexDb.Recorded core.id req.off := fun hrec => by
      rw [(dedupCheckRange_chunk_iff hdb halign hoff).mpr ⟨hfull, hrec⟩] at hnew
      simp at hnew
    rw [hadd, hn, Recorded, info_add_self, DedupInfo.new, CheckSumOnDisk.isValid_ofCheckSum,
      CheckSum.method_fromData, decide_eq_true_eq]
    exact ⟨fun h => Or.inl h.2, fun h => ⟨mem_keys_add.mpr (Or.inl rfl), h.resolve_right hold⟩⟩

end Chunks

/-! ### A new reader of a local raw file -/

section Run

open IndexDb

/-- Hashes that do not tell anything apart. -/
def constantHashes : Hashes := ⟨fun _ => Vector.replicate 32 0, fun _ => Vector.replicate 32 0⟩

/-- A reader of a local raw file of `size` bytes. -/
def localReader : DedupCore := ⟨Vector.replicate 32 0, false⟩

/-- Nothing is deduplicated. -/
def localStart (size : ℕ) : DedupShared Unit (Backend.empty size).size :=
  ⟨.empty, .empty, Cache.fresh 4096 size, ()⟩

theorem checkRequest_first {size : ℕ} (hsize : 0 < size) :
    checkRequest size 0 chunkSize = .ok () := by
  have hbig : ¬2 ^ 64 ≤ 0 + chunkSize := by
    rw [chunkSize]
    decide
  rw [checkRequest, if_neg (by omega), if_neg (by simp), if_neg hbig, if_neg (by simp)]

private theorem dedup_first {size : ℕ} (hsize : 0 < size) :
    (dedup (.empty size) constantHashes localReader (localStart size) ⟨0, chunkSize, .blake3⟩).res =
      .ok () :=
  dedup_new chunkSize_pos.ne' (checkRequest_first hsize)
    (dedupCheckRange_of_notMem (@chunkRecords_empty _ size) (Nat.zero_mod _)
      (Finset.notMem_empty _))
    (Cache.fetch_empty (Cache.fresh 4096 size) hsize)

/-- The second request for a whole chunk finds its record. -/
theorem dedup_idempotent_iff_whole :
    let first := dedup (.empty chunkSize) constantHashes localReader (localStart chunkSize)
      ⟨0, chunkSize, .blake3⟩
    (dedup (.empty chunkSize) constantHashes localReader first.shared
      ⟨0, chunkSize, .blake3⟩).fetched = [] :=
  ((dedup_idempotent_iff (s := localStart chunkSize) chunkRecords_empty rfl
    (dedup_first chunkSize_pos) rfl).mpr
      ⟨(Nat.zero_add chunkSize).le, Or.inl (by decide)⟩).2.1

/-- A partial last chunk is recorded by its first request and refused by the second. -/
theorem partial_chunk_refused :
    let first := dedup (.empty 1) constantHashes localReader (localStart 1) ⟨0, chunkSize, .blake3⟩
    first.res = .ok () ∧
      (dedup (.empty 1) constantHashes localReader first.shared ⟨0, chunkSize, .blake3⟩).res =
        .error ⟨.invalidInput, "Invalid range"⟩ := by
  intro first
  have hok : first.res = .ok () := dedup_first Nat.one_pos
  have hrecords := ChunkRecords.dedup (s := localStart 1) chunkRecords_empty rfl hok
  obtain ⟨-, ⟨hfound, -⟩ | ⟨-, bytes, hdb⟩⟩ := dedup_ok chunkSize_pos.ne' hok
  · have hmissing := dedupCheckRange_of_notMem (@chunkRecords_empty localReader.id 1)
      (Nat.zero_mod chunkSize) (Finset.notMem_empty _)
    simp [localStart, hmissing] at hfound
  · refine ⟨hok, dedup_refused chunkSize_pos.ne' (checkRequest_first Nat.one_pos) ?_⟩
    refine dedupCheckRange_lastChunk hrecords (Nat.zero_mod _) Nat.one_pos ?_ ?_
    · rw [chunkSize]
      decide
    · rw [hdb]
      exact mem_keys_add.mpr (Or.inl rfl)

end Run

end DistillFs
