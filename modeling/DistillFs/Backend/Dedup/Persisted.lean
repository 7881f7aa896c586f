import DistillFs.Backend.Dedup.Requests

/-!
# Dropping the cached copy of a chunk

The cached copy of a chunk is dropped when the index covers the chunk. Nothing looks at the chunk
database then. The data is there if a worker has stored it right before, or has found it recorded
while it was stored, and nothing has evicted it since. But a request for a recorded chunk drops the
cached copy without a look at the chunk database, and an eviction does not ask whether a worker is
about to drop the other copy.

## Main definitions

* `DedupPc.Needs`: the checksums a worker relies on.
* `Dedup.Kept`: the runs in which nothing is dropped without data.

## Main results

* `Dedup.stored_when_punched`, `Dedup.dropped_without_data`.
-/

namespace DistillFs

open Foundation

namespace IndexDb

variable {db db' : IndexDb} {id id' : Vector UInt8 32} {size off n : ℕ} {cs cs' : CheckSum}

/-- The checksums after a record was added. -/
theorem Sums.of_add (h : (db.addLocalDedupInfo id off n cs').Sums id size cs) :
    db.Sums id size cs ∨ cs = cs' := by
  obtain ⟨k, hk, hid, hstart, hcs⟩ := h
  by_cases heq : k = .newWithId id off n
  · rw [heq, info_add_self, DedupInfo.new, CheckSumOnDisk.checkSum_ofCheckSum] at hcs
    exact Or.inr hcs.symm
  · rw [info_add_of_ne heq] at hcs
    exact Or.inl ⟨k, (mem_keys_add.mp hk).resolve_left heq, hid, hstart, hcs⟩

theorem Sums.of_add_of_ne (hid : id' ≠ id)
    (h : (db.addLocalDedupInfo id' off n cs').Sums id size cs) : db.Sums id size cs := by
  obtain ⟨k, hk, hkid, hstart, hcs⟩ := h
  rw [info_add_of_ne (ne_newWithId hid hkid)] at hcs
  exact ⟨k, (mem_keys_add.mp hk).resolve_left (ne_newWithId hid hkid), hkid, hstart, hcs⟩

/-- A record lies in one chunk. -/
theorem Chunked.chunkIds_record (h : db.Chunked id size) {info : DedupInfo}
    (hinfo : db.IsRecord id info) :
    Cache.chunkIds info.off info.len = [info.off / chunkSize] := by
  obtain ⟨k, hk, hid, rfl⟩ := hinfo
  obtain ⟨halign, hsize, hkey⟩ := h.records k hk hid
  obtain ⟨hoff, hend⟩ := db.repeats k hk
  have hstop : k.stop = k.start + min chunkSize (size - k.start) := congrArg DedupRange.stop hkey
  have hsum : (db.info k).stop = (db.info k).off + (db.info k).len := rfl
  have hpos := chunkSize_pos
  exact Dedup.chunkIds_chunk (hoff ▸ halign) (by omega) (by omega)

/-- A chunk has one record, so one checksum. -/
theorem Chunked.sums_eq (h : db.Chunked id size) {info : DedupInfo} (hinfo : db.IsRecord id info)
    (hcs : db.Sums id (chunkStart (info.off / chunkSize)) cs) : info.cs.checkSum = cs := by
  obtain ⟨k, hk, hid, rfl⟩ := hinfo
  obtain ⟨k', hk', hid', hstart, rfl⟩ := hcs
  obtain ⟨halign, -, hkey⟩ := h.records k hk hid
  obtain ⟨-, -, hkey'⟩ := h.records k' hk' hid'
  have hoff : k'.start = k.start := by
    rw [hstart, (db.repeats k hk).1]
    exact Nat.div_mul_cancel (Nat.dvd_of_mod_eq_zero halign)
  rw [hkey, hkey', hoff]

/-- The segments of a chunk have the checksum of its record. -/
theorem Chunked.sums_of_mem (h : db.Chunked id size) {idx : ℕ} {segs : List (DedupInfo × ℕ)}
    (htiles : Tiles (db.InRecord id) (chunkStart idx) (chunkEnd size idx - chunkStart idx) segs)
    {seg : DedupInfo × ℕ} (hseg : seg ∈ segs) (hvalid : seg.1.cs.isValid = true) :
    db.Sums id (chunkStart idx) seg.1.cs.checkSum := by
  obtain ⟨o, hpos, hle, hend, hrecord⟩ := htiles.exists_of_mem hseg
  obtain ⟨k, hk, hid, hinfo, hstart, hstop⟩ := hrecord hvalid
  obtain ⟨hkey, -⟩ := h.eq_chunkKey hk hid hstart (by omega)
  refine ⟨k, hk, hid, ?_, by rw [hinfo]⟩
  rw [hkey]
  change chunkStart (o / chunkSize) = chunkStart idx
  rw [chunkEnd_eq_min] at hend
  simp only [chunkStart, chunkSize] at *
  omega

end IndexDb

/-- The checksums that a worker has stored, or found recorded, for the chunks that it has not gone
through yet. -/
def DedupPc.Needs (db : IndexDb) (id : Vector UInt8 32) : DedupPc → CheckSum → Prop
  | .record _ _ cs', cs => cs = cs'
  | .deduped req (.ok ()), cs => db.Sums id req.off cs
  | .gc ids, cs => ∃ idx ∈ ids, db.Sums id (chunkStart idx) cs
  | .punch _ segs ids, cs =>
    (∃ seg ∈ segs, seg.1.cs.checkSum = cs) ∨ ∃ idx ∈ ids, db.Sums id (chunkStart idx) cs
  | _, _ => False

/-- What a worker relies on after records were added. -/
theorem DedupPc.Needs.of_sums {db db' : IndexDb} {id : Vector UInt8 32} {pc : DedupPc}
    {P : CheckSum → Prop} (h : ∀ off cs, db'.Sums id off cs → db.Sums id off cs ∨ P cs)
    {cs : CheckSum} (hcs : pc.Needs db' id cs) : pc.Needs db id cs ∨ P cs := by
  have hids : ∀ ids : List ℕ, (∃ idx ∈ ids, db'.Sums id (chunkStart idx) cs) →
      (∃ idx ∈ ids, db.Sums id (chunkStart idx) cs) ∨ P cs := by
    rintro ids ⟨idx, hidx, hsums⟩
    exact (h _ _ hsums).imp_left fun hsums => ⟨idx, hidx, hsums⟩
  cases pc with
  | record req n cs' => exact Or.inl hcs
  | deduped req res =>
    cases res with
    | ok u => exact h _ _ hcs
    | error e => exact hcs.elim
  | gc ids => exact hids ids hcs
  | punch idx segs ids =>
    rcases hcs with hseg | hrest
    · exact Or.inl (Or.inl hseg)
    · exact (hids ids hrest).imp_left Or.inr
  | _ => exact hcs.elim

namespace Dedup

variable {ω : Type} {τ : Type*} {B : Backend ω} {H : Hashes} {core : DedupCore} {faults : Prop}

/-- The readers send the requests; a request for a recorded chunk finds its data stored; and no
eviction takes what a worker relies on. -/
def Kept (core : DedupCore) {size : ℕ} (c : Config (DedupTask τ) (DedupShared ω size) DedupPc) :
    DedupTask τ ⊕ DedupEvent size → Prop
  | .inl t => (c.loc t).FromReaders c.shared.indexDb core.id ∧
    ∀ req, c.loc t = .check req →
      c.shared.indexDb.dedupCheckRange core.id req.off req.len = .ok true →
      ∀ cs, c.shared.indexDb.Sums core.id req.off cs → c.shared.chunkDb.hasChunk cs = true
  | .inr (.evict db) => ∀ t cs, (c.loc t).Needs c.shared.indexDb core.id cs →
    db.hasChunk cs = c.shared.chunkDb.hasChunk cs
  | .inr _ => True

variable {s s' : DedupShared ω B.size} {t : DedupTask τ} {pc pc' : DedupPc}

/-- A step of a task removes no data, and the records that it adds have data. -/
theorem stored_step (hneeds : ∀ cs, pc.Needs s.indexDb core.id cs → s.chunkDb.hasChunk cs = true)
    (h : DedupStep B H core faults t s pc s' pc') :
    (∀ cs, s.chunkDb.hasChunk cs = true → s'.chunkDb.hasChunk cs = true) ∧
      ∀ off cs, s'.indexDb.Sums core.id off cs →
        s.indexDb.Sums core.id off cs ∨ s'.chunkDb.hasChunk cs = true := by
  cases h with
  | added | syncAdded =>
    exact ⟨fun cs hcs => Store.hasChunk_getOrPut.mpr (Or.inr hcs), fun _ _ hsums => Or.inl hsums⟩
  | wasRecorded =>
    exact ⟨fun _ hcs => hcs, fun _ _ hsums => hsums.of_add.imp_right fun heq => hneeds _ heq⟩
  | _ => exact ⟨fun _ hcs => hcs, fun _ _ hsums => Or.inl hsums⟩

/-- What a worker relies on after its own step is stored. -/
theorem needs_step (hI : s.indexDb.Chunked core.id B.size)
    (hA : pc.Orderly B.size core.id s.indexDb t)
    (hneeds : ∀ cs, pc.Needs s.indexDb core.id cs → s.chunkDb.hasChunk cs = true)
    (hok : pc.FromReaders s.indexDb core.id ∧ ∀ req, pc = .check req →
      s.indexDb.dedupCheckRange core.id req.off req.len = .ok true →
      ∀ cs, s.indexDb.Sums core.id req.off cs → s.chunkDb.hasChunk cs = true)
    (h : DedupStep B H core faults t s pc s' pc') :
    ∀ cs, pc'.Needs s'.indexDb core.id cs → s'.chunkDb.hasChunk cs = true := by
  obtain ⟨hI', -, -⟩ := orderly_step hI hA hok.1 h
  cases h with
  | emptyRequest hlen =>
    have hlen' : _ = chunkSize := hok.1
    exact absurd (hlen'.symm.trans hlen) chunkSize_pos.ne'
  | duplicated _ _ hcheck => exact hok.2 _ rfl hcheck
  | added =>
    rintro cs rfl
    exact Store.hasChunk_getOrPut.mpr (Or.inl rfl)
  | wasRecorded =>
    -- the chunk had no record before
    intro cs hcs
    rcases IndexDb.Sums.of_add hcs with ⟨k, hk, hid, hstart, -⟩ | rfl
    · obtain ⟨-, -, hkey⟩ := hI.records k hk hid
      exact absurd (hstart ▸ hkey ▸ hk) hA.2.2.1
    · exact hneeds cs rfl
  | requestDone =>
    rintro cs ⟨idx, hidx, hsums⟩
    obtain ⟨hreq, -⟩ := hA.2 rfl
    rw [hreq.len_eq, chunkIds_chunk hreq.aligned chunkSize_pos le_rfl, List.mem_singleton] at hidx
    rw [hidx, chunkStart, Nat.div_mul_cancel (Nat.dvd_of_mod_eq_zero hreq.aligned)] at hsums
    exact hneeds cs hsums
  | syncAdded =>
    rintro cs ⟨idx, hidx, hsums⟩
    rw [hI.chunkIds_record hA, List.mem_singleton] at hidx
    exact Store.hasChunk_getOrPut.mpr (Or.inl (hI.sums_eq hA (hidx ▸ hsums)).symm)
  | gcOutside | gcFault | gcKeep =>
    rintro cs ⟨idx, hidx, hsums⟩
    exact hneeds cs ⟨idx, List.mem_cons_of_mem _ hidx, hsums⟩
  | gcCovered _ hsegs hvalid =>
    rintro cs (⟨seg, hseg, rfl⟩ | ⟨idx, hidx, hsums⟩)
    · refine hneeds _ ⟨_, List.mem_cons_self, ?_⟩
      exact hI.sums_of_mem (hsegs ▸ IndexDb.tiles_dedupRange) hseg
        (List.all_eq_true.mp hvalid _ hseg)
    · exact hneeds cs ⟨idx, List.mem_cons_of_mem _ hidx, hsums⟩
  | invalidate io => exact fun cs hcs => hneeds cs (Or.inr hcs)
  | _ => exact fun cs hcs => hcs.elim

variable [DecidableEq τ] {c : Config (DedupTask τ) (DedupShared ω B.size) DedupPc}
  {start : DedupShared ω B.size → Prop}

/-- In every such run, what the workers rely on is stored. -/
theorem needs_of_reach (hstart : ∀ s, start s → s.indexDb.Chunked core.id B.size)
    (hc : (dedupProgram B H core faults τ start).toSystem.Reach (Kept core) c) :
    Program.Holds (fun _ => True) (fun _ s pc => ∀ cs, pc.Needs s.indexDb core.id cs →
      s.chunkDb.hasChunk cs = true) c := by
  have horderly : ∀ c, (dedupProgram B H core faults τ start).toSystem.Reach (Kept core) c →
      Program.Holds (fun s => s.indexDb.Chunked core.id B.size)
        (fun t s pc => pc.Orderly B.size core.id s.indexDb t) c := fun c hc =>
    orderly_of_reach hstart (fun c t hok => hok.1) hc
  refine Program.invariant_reach ?_ ?_ ?_ ?_ hc
  · rintro c ⟨-, hidle⟩
    refine ⟨trivial, fun t cs hcs => ?_⟩
    rw [hidle t] at hcs
    exact hcs.elim
  · intro c t s' pc' hreach h hok hstep
    obtain ⟨hI, hA⟩ := horderly c hreach
    exact ⟨trivial, needs_step hI (hA t) (h.2 t) hok hstep⟩
  · intro c t u s' pc' _ h _ _ hstep cs hcs
    obtain ⟨hkeep, hsums⟩ := stored_step (h.2 t) hstep
    exact (hcs.of_sums hsums).elim (fun hold => hkeep cs (h.2 u cs hold)) id
  · intro c e s' _ h hok henv
    refine ⟨trivial, fun u cs hcs => ?_⟩
    cases henv with
    | evict hdb => exact (hok u cs hcs).trans (h.2 u cs hcs)
    | addChunk cs' data => exact Store.hasChunk_getOrPut.mpr (Or.inr (h.2 u cs hcs))
    | otherImage off n cs' hid =>
      rename_i id'
      have hsums : ∀ a x, (c.shared.indexDb.addLocalDedupInfo id' off n cs').Sums core.id a x →
          c.shared.indexDb.Sums core.id a x ∨ False := fun a x h => Or.inl (h.of_add_of_ne hid)
      exact h.2 u cs ((hcs.of_sums hsums).resolve_right id)
    | _ => exact h.2 u cs hcs

/-- **Nothing is dropped without data.** In every run in which a request for a recorded chunk finds
its data stored, and no eviction takes the data of a chunk that a worker is busy with: when a worker
comes to drop the cached copy of a chunk, the segments that its lookup returned tile the bytes of
the chunk in the image, and the chunk database has the data of each. -/
theorem stored_when_punched
    (hc : (dedupProgram B H core faults τ fun s =>
      s.indexDb.Chunked core.id B.size).toSystem.Reach (Kept core) c)
    {t : DedupTask τ} {idx : ℕ} {segs : List (DedupInfo × ℕ)} {ids : List ℕ}
    (ht : c.loc t = .punch idx segs ids) :
    Tiles (fun i off n => (i.off ≤ off ∧ off + n ≤ i.stop) ∧ i.cs.isValid = true ∧
      c.shared.chunkDb.hasChunk i.cs.checkSum = true) (chunkStart idx)
      (chunkEnd B.size idx - chunkStart idx) segs := by
  obtain ⟨-, hA⟩ := orderly_of_reach (fun _ h => h) (fun c t hok => hok.1) hc
  have hpunch := hA t
  rw [ht] at hpunch
  obtain ⟨hvalid, htiles⟩ := hpunch
  have hneeds := (needs_of_reach (fun _ h => h) hc).2 t
  rw [ht] at hneeds
  have hstored : ∀ seg ∈ segs, seg.1.cs.isValid = true ∧
      c.shared.chunkDb.hasChunk seg.1.cs.checkSum = true := fun seg hseg =>
    ⟨List.all_eq_true.mp hvalid seg hseg, hneeds _ (Or.inl ⟨seg, hseg, rfl⟩)⟩
  refine (htiles.and_forall (Q := fun i => i.cs.isValid = true ∧
    c.shared.chunkDb.hasChunk i.cs.checkSum = true) hstored).mono fun i off n h => ?_
  obtain ⟨k, hk, hid, rfl, hoff, hstop⟩ := h.1 h.2.1
  obtain ⟨hstart, hend⟩ := c.shared.indexDb.repeats k hk
  exact ⟨⟨hstart ▸ hoff, hend ▸ hstop⟩, h.2⟩

/-! ### A local raw file of one chunk -/

section Run

open IndexDb

/-- The first request for a chunk drops its cached copy when the data is stored. -/
theorem stored_when_punched_run :
    ∃ (c : Config (DedupTask Unit) (DedupShared Unit chunkSize) DedupPc)
      (segs : List (DedupInfo × ℕ)), c.loc .dedupWorker = .punch 0 segs [] ∧
      c.shared.chunkDb.hasChunk (firstSum constantHashes (localStart chunkSize)) = true := by
  let s : DedupShared Unit chunkSize := localStart chunkSize
  have hpunch : (dedupProgram (.empty chunkSize) constantHashes localReader False Unit fun s =>
      s.indexDb.Chunked localReader.id chunkSize).toSystem.Reach (Kept localReader)
      ⟨deduped constantHashes s,
        .crew .idle (.punch 0 [(firstInfo constantHashes s, chunkSize)] []) .idle⟩ := by
    refine crew_deduped le_rfl rfl (fun s' d hrun => ⟨?_, ?_⟩) (crew_init chunked_empty)
    · exact fromReaders_of_firstRun hrun
    · rintro req rfl - cs ⟨k, hk, -⟩
      rw [hrun.2] at hk
      exact absurd hk (Finset.notMem_empty k)
  obtain ⟨-, -, ⟨-, -, hdata⟩, -⟩ := stored_when_punched hpunch (t := .dedupWorker) rfl
  exact ⟨_, _, rfl, hdata⟩

/-- A chunk is stored and recorded, and the process ends before the cached copy is dropped. The
chunk is evicted, and the next request for it drops the cached copy, which is the only one. -/
theorem dropped_without_data :
    ∃ (c : Config (DedupTask Unit) (DedupShared Unit chunkSize) DedupPc)
      (segs : List (DedupInfo × ℕ)) (seg : DedupInfo × ℕ),
      (dedupProgram (.empty chunkSize) constantHashes localReader False Unit fun s =>
        s.indexDb.Chunked localReader.id chunkSize).toSystem.Reachable c ∧
      c.loc .dedupWorker = .punch 0 segs [] ∧ seg ∈ segs ∧ seg.1.cs.isValid = true ∧
      c.shared.chunkDb.hasChunk seg.1.cs.checkSum = false := by
  let s : DedupShared Unit chunkSize := localStart chunkSize
  have h₁ : (dedupProgram (.empty chunkSize) constantHashes localReader False Unit fun s =>
      s.indexDb.Chunked localReader.id chunkSize).toSystem.Reachable ⟨deduped constantHashes s,
        .crew .idle (.punch 0 [(firstInfo constantHashes s, chunkSize)] []) .idle⟩ :=
    crew_deduped le_rfl rfl (fun _ _ _ => trivial) (crew_init chunked_empty)
  have h₂ := crew_dedup h₁ trivial .killed
  have h₃ := crew_env h₂ trivial (.evict fun k => Or.inr (show Store.empty.data k = none from rfl))
  have h₄ := crew_dedup h₃ trivial (.request firstRequest (by decide))
  have hfound : (deduped constantHashes s).indexDb.dedupCheckRange localReader.id 0 chunkSize =
      .ok true := by
    rw [dedupCheckRange, dedupRange_deduped _ _ le_rfl]
    exact congrArg Except.ok (isValid_firstInfo ..)
  have h₅ := crew_dedup h₄ trivial
    (.duplicated chunkSize_pos.ne' (checkRequest_first chunkSize_pos) hfound)
  have h₆ := crew_punch le_rfl (s := s) (by rfl) (fun _ _ => trivial) h₅
  exact ⟨_, _, _, h₆, rfl, List.mem_singleton_self _, isValid_firstInfo .., rfl⟩

end Run

end Dedup

end DistillFs
