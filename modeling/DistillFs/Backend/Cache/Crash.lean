import DistillFs.Backend.Cache.Concurrent

/-!
# Power loss

Both files of a cache are mapped into memory, so what survives a power loss are the pages that were
written back. This file runs the threads of `DistillFs.Backend.Cache.Concurrent` over a disk: next
to the live files it keeps what is durable of each, and an environment that writes back any page at
any moment. `sync_data` returns once no page of the bitmap is dirty, so its own writes are page
write-backs too.

An invalidation orders its two files: it makes the cleared bit durable before it punches. A fill
does not: it sets the bit of a chunk whose bytes may never have been written back. The guard
`RawFirst` is the order that a fill would have to keep, and with it every durable bit can be
trusted.

## Main definitions

* `Cache.Disk`, `Cache.WriteBack`, `Cache.crashProgram`.
* `Cache.RawFirst`: a bitmap page is written back only after the raw bytes of its set bits.

## Main results

* `Cache.durable_bits_correct`: in runs that meet `RawFirst` durable bits mark durable content, and
  a restart reads the content.
* `Cache.writeBack_breaks`: a write-back that breaks `RawFirst` leaves a durable bit over other
  bytes.
* `Cache.power_loss_returns_zeros`: a run after whose power loss a read returns zeros.
-/

namespace DistillFs

open Foundation

namespace Cache

variable {τ : Type*} {F : ByteFile}

/-- The live state of a cache, and what is durable of its two files. -/
structure Disk (τ : Type*) (size : ℕ) where
  live : Shared τ size
  /-- The durable bytes of the raw file. -/
  durRaw : ByteFile
  /-- The durable bytes of the bitmap. -/
  durBitmap : ByteFile

/-- The page write-backs. -/
inductive WriteBack
  | raw (page : ℕ)
  | bitmap (page : ℕ)

/-- Write page `page` of `live` over `durable`. -/
def writePage (pageSize page : ℕ) (live durable : ByteFile) : ByteFile :=
  durable.write (page * pageSize) (live.slice (page * pageSize) pageSize)

/-- The disk after a page write-back. -/
def Disk.writeBack (pageSize : ℕ) {size : ℕ} (d : Disk τ size) : WriteBack → Disk τ size
  | .raw page => { d with durRaw := writePage pageSize page d.live.cache.raw d.durRaw }
  | .bitmap page => { d with durBitmap := writePage pageSize page d.live.cache.bitmap d.durBitmap }

/-- The threads of the cache over a disk. A thread moves on the live state; it leaves `sync_data`
with success only when no page of the bitmap is dirty. -/
def crashProgram (τ : Type*) [DecidableEq τ] (F : ByteFile) (pageSize : ℕ) :
    Program τ WriteBack (Disk τ F.len) Pc where
  init c := (program τ F).init ⟨c.shared.live, c.loc⟩ ∧
    ∀ idx, c.shared.durBitmap.testBit idx = false
  step t d pc d' pc' := Step F t d.live pc d'.live pc' ∧ d'.durRaw = d.durRaw ∧
    d'.durBitmap = d.durBitmap ∧
    ∀ idx, pc = .sync idx → pc' = .punch idx →
      ∀ i, d.durBitmap.byte i = d.live.cache.bitmap.byte i
  env e d d' := d' = d.writeBack pageSize e

/-- Before a page of the bitmap is written back, the raw bytes of every chunk whose set bit lies in
it are durable. -/
def RawFirst (pageSize : ℕ) (c : Config τ (Disk τ F.len) Pc) : τ ⊕ WriteBack → Prop
  | .inr (.bitmap page) => ∀ idx, chunkStart idx < F.len → page * pageSize ≤ idx / 8 →
      idx / 8 < page * pageSize + pageSize → c.shared.live.cache.bit idx = true →
      c.shared.durRaw.AgreeOn F (chunkStart idx) (chunkEnd F.len idx)
  | _ => True

/-- The invariant of the disk: the live cache is coherent, and a durable bit marks a chunk that
holds the content in both copies of the raw file. The live copy matters because its pages may be
written back later. -/
structure DiskInv (d : Disk τ F.len) : Prop where
  coherent : d.live.cache.Coherent F
  durable : ∀ idx, chunkStart idx < F.len → d.durBitmap.testBit idx = true →
    d.live.cache.raw.AgreeOn F (chunkStart idx) (chunkEnd F.len idx) ∧
      d.durRaw.AgreeOn F (chunkStart idx) (chunkEnd F.len idx)

/-- The assertion of a thread: that of the live state, and at the punch the bit is durably clear. -/
def DiskAssertion (F : ByteFile) (t : τ) (d : Disk τ F.len) (pc : Pc) : Prop :=
  Assertion F t d.live pc ∧ ∀ idx, pc = .punch idx → d.durBitmap.testBit idx = false

/-- A durable bit after a page write-back was durable before, or was live in the page. -/
theorem testBit_writePage (pageSize page : ℕ) (live durable : ByteFile) (idx : ℕ) :
    (writePage pageSize page live durable).testBit idx = durable.testBit idx ∨
      (page * pageSize ≤ idx / 8 ∧ idx / 8 < page * pageSize + pageSize ∧
        (writePage pageSize page live durable).testBit idx = live.testBit idx) := by
  simp only [writePage, ByteFile.testBit, ByteFile.byte_write_slice]
  split_ifs with h
  · exact Or.inr ⟨h.2.1, h.2.2, rfl⟩
  · exact Or.inl rfl

/-- A page write-back that meets `RawFirst` keeps the invariant and all assertions. -/
theorem DiskInv.writeBack {pageSize : ℕ} {c : Config τ (Disk τ F.len) Pc} {e : WriteBack}
    (hd : DiskInv c.shared) (hok : RawFirst pageSize c (.inr e)) :
    DiskInv (c.shared.writeBack pageSize e) := by
  cases e with
  | raw page =>
    refine ⟨hd.coherent, fun idx hidx hbit => ?_⟩
    obtain ⟨h1, h2⟩ := hd.durable idx hidx hbit
    exact ⟨h1, h2.write h1⟩
  | bitmap page =>
    refine ⟨hd.coherent, fun idx hidx hbit => ?_⟩
    rcases testBit_writePage pageSize page c.shared.live.cache.bitmap c.shared.durBitmap idx with
      hold | ⟨hge, hlt, hnew⟩
    · exact hd.durable idx hidx (hold ▸ hbit)
    · have hlive : c.shared.live.cache.bit idx = true := hnew.symm.trans hbit
      exact ⟨hd.coherent idx hidx hlive, hok idx hidx hge hlt hlive⟩

theorem DiskAssertion.writeBack {pageSize : ℕ} {d : Disk τ F.len} {t : τ} {pc : Pc}
    (h : DiskAssertion F t d pc) (e : WriteBack) :
    DiskAssertion F t (d.writeBack pageSize e) pc := by
  cases e with
  | raw page => exact h
  | bitmap page =>
    refine ⟨h.1, fun idx hpc => ?_⟩
    have hclear : d.live.cache.bit idx = false := by
      have hassert := h.1
      rw [hpc] at hassert
      exact hassert.2
    rcases testBit_writePage pageSize page d.live.cache.bitmap d.durBitmap idx with
      hold | ⟨-, -, hnew⟩
    · exact hold.trans (h.2 idx hpc)
    · exact hnew.trans hclear

variable [DecidableEq τ]

/-- Only a punch takes correct bytes away from the live raw file. -/
theorem Step.raw {t : τ} {s s' : Shared τ F.len} {pc pc' : Pc} (hstep : Step F t s pc s' pc')
    (h : Assertion F t s pc) :
    (∀ a b, s.cache.raw.AgreeOn F a b → s'.cache.raw.AgreeOn F a b) ∨
      ∃ idx, pc = .punch idx ∧ s'.cache = s.cache.punchHole idx := by
  cases hstep with
  | punchOk => exact Or.inr ⟨_, rfl, Shared.cache_withCache ..⟩
  | fetchPart | fetchOk | fetchError =>
    refine Or.inl fun a b hab => ?_
    rw [Shared.cache_withCache, raw_writeRaw]
    exact hab.write (.refl _ _)
  | setBit =>
    refine Or.inl fun a b hab => ?_
    rwa [Shared.cache_withCache, raw_setBit]
  | clearBit =>
    refine Or.inl fun a b hab => ?_
    rwa [Shared.cache_withCache, raw_clearBit]
  | _ => exact Or.inl fun _ _ hab => hab

/-- A thread gets to a punch only from `sync_data`. -/
theorem Step.from_sync {t : τ} {s s' : Shared τ F.len} {pc pc' : Pc} {idx : ℕ}
    (hstep : Step F t s pc s' pc') (hpc' : pc' = .punch idx) : pc = .sync idx := by
  cases hstep with
  | cached | guardDone =>
    unfold Pc.next at hpc'
    split_ifs at hpc'
  | syncOk => rw [Pc.punch.inj hpc']
  | _ => cases hpc'

/-- A step of a thread keeps the invariant of the disk and establishes its next assertion. -/
theorem DiskInv.step {pageSize : ℕ} {t : τ} {d d' : Disk τ F.len} {pc pc' : Pc} (hd : DiskInv d)
    (h : DiskAssertion F t d pc) (hstep : (crashProgram τ F pageSize).step t d pc d' pc') :
    DiskInv d' ∧ DiskAssertion F t d' pc' := by
  obtain ⟨hlive, hraw, hbitmap, hsync⟩ := hstep
  obtain ⟨hcoh, hassert⟩ := hlive.own hd.coherent h.1
  refine ⟨⟨hcoh, fun idx hidx hbit => ?_⟩, hassert, fun idx hpc' => ?_⟩
  · rw [hbitmap] at hbit
    obtain ⟨h1, h2⟩ := hd.durable idx hidx hbit
    refine ⟨?_, hraw ▸ h2⟩
    rcases hlive.raw h.1 with hkeep | ⟨j, hpc, hcache⟩
    · exact hkeep _ _ h1
    · have hne : idx ≠ j := by
        rintro rfl
        rw [h.2 idx hpc] at hbit
        cases hbit
      rw [hcache, raw_punchHole]
      exact agreeOn_punch_chunk h1 hne
  · have hpc := hlive.from_sync hpc'
    have hassert := h.1
    rw [hpc] at hassert
    rw [hbitmap, ByteFile.testBit, hsync idx hpc hpc']
    exact hassert.2

theorem crashProgram_holds {pageSize : ℕ} {c : Config τ (Disk τ F.len) Pc}
    (hc : (crashProgram τ F pageSize).toSystem.Reach (RawFirst pageSize) c) :
    Program.Holds DiskInv (DiskAssertion F) c := by
  refine Program.invariant (P := crashProgram τ F pageSize) ?_ ?_ ?_ ?_ hc
  · rintro c ⟨⟨hbits, -, -, -, hidle⟩, hdur⟩
    refine ⟨⟨fun idx _ hb => ?_, fun idx _ hb => ?_⟩, fun t => ?_⟩
    · simp [hbits] at hb
    · simp [hdur] at hb
    · rw [hidle t]
      exact ⟨trivial, fun idx h => by cases h⟩
  · exact fun c t d' pc' h _ hstep => h.1.step (h.2 t) hstep
  · intro c t u d' pc' h _ hu hstep
    obtain ⟨hlive, -, hbitmap, -⟩ := hstep
    refine ⟨(h.2 u).1.stable (hlive.effect (h.2 t).1) hu, fun idx hpc => ?_⟩
    rw [hbitmap]
    exact (h.2 u).2 idx hpc
  · rintro c e d' h hok rfl
    exact ⟨h.1.writeBack hok, fun u => (h.2 u).writeBack e⟩

/-- **Durable bits can be trusted in runs that write raw pages first.** Whenever the power is lost
in a run that meets `RawFirst`, every durable bit marks a chunk whose durable bytes are the content,
and the cache opened on the durable files reads the content. -/
theorem durable_bits_correct {pageSize : ℕ} {c : Config τ (Disk τ F.len) Pc}
    (hc : (crashProgram τ F pageSize).toSystem.Reach (RawFirst pageSize) c) :
    (∀ idx, chunkStart idx < F.len → c.shared.durBitmap.testBit idx = true →
      c.shared.durRaw.AgreeOn F (chunkStart idx) (chunkEnd F.len idx)) ∧
    ∀ (ω : Type) (B : Backend ω) (cache : Cache B.size), B.Immutable F →
      new pageSize B.size (some c.shared.durRaw) (some c.shared.durBitmap) = .ok cache →
      ∀ w off n bytes, (readAt B w cache off n).1 = .ok bytes →
        bytes = F.slice off (min n (B.size - off)) := by
  have hdur := (crashProgram_holds hc).1.durable
  refine ⟨fun idx hidx hb => (hdur idx hidx hb).2, fun ω B cache hB hnew w off n bytes hread => ?_⟩
  obtain ⟨hraw, hbits⟩ := new_ok hnew
  have hcoh : cache.Coherent F := by
    intro idx hidx hb p hp hp'
    have hlt : p < B.size := hp'.trans_le (chunkEnd_le B.size idx)
    rw [hbits idx hidx] at hb
    rw [hraw, ByteFile.byte_setLen, if_pos hlt]
    rw [hB.size_eq] at hidx hp'
    exact (hdur idx hidx hb).2 p hp hp'
  exact (readAt_spec hB hcoh off n).2 bytes hread

omit [DecidableEq τ] in
/-- The other direction for one step: a write-back that makes a set bit durable before the bytes of
its chunk leaves a durable bit over other bytes. -/
theorem writeBack_breaks {pageSize page idx : ℕ} {d : Disk τ F.len}
    (hge : page * pageSize ≤ idx / 8) (hlt : idx / 8 < page * pageSize + pageSize)
    (hlen : idx / 8 < d.durBitmap.len) (hbit : d.live.cache.bit idx = true)
    (hraw : ¬d.durRaw.AgreeOn F (chunkStart idx) (chunkEnd F.len idx)) :
    (d.writeBack pageSize (.bitmap page)).durBitmap.testBit idx = true ∧
      ¬(d.writeBack pageSize (.bitmap page)).durRaw.AgreeOn F (chunkStart idx)
        (chunkEnd F.len idx) := by
  refine ⟨?_, hraw⟩
  simp only [Disk.writeBack, writePage, ByteFile.testBit, ByteFile.byte_write_slice]
  rw [if_pos ⟨hlen, hge, hlt⟩]
  exact hbit

section Run

/-- The disk on which a run over the content `F` starts. -/
private def blankDisk (F : ByteFile) : Disk Unit F.len where
  live := .start Unit 4096 F.len
  durRaw := ByteFile.empty.setLen F.len
  durBitmap := (fresh 4096 F.len).bitmap

private theorem solo_disk {d : Disk Unit F.len} {pc pc' : Pc} {s' : Shared Unit F.len}
    (hc : (crashProgram Unit F 4096).toSystem.Reach (RawFirst 4096) ⟨d, fun _ => pc⟩)
    (h : Step F () d.live pc s' pc') (hpc : ∀ idx, pc ≠ .sync idx) :
    (crashProgram Unit F 4096).toSystem.Reach (RawFirst 4096)
      ⟨{ d with live := s' }, fun _ => pc'⟩ :=
  Program.Reach.thread () hc trivial ⟨h, rfl, rfl, fun idx hidx => absurd hidx (hpc idx)⟩
    (funext fun _ => Function.update_self ..)

/-- A run of one thread up to the bit of the only chunk, with nothing written back. -/
private theorem exists_fill_run : ∃ c,
    (crashProgram Unit (.ofList [7]) 4096).toSystem.Reach (RawFirst 4096) c ∧
      c.shared.durRaw = (blankDisk (.ofList [7])).durRaw ∧
      c.shared.durBitmap = (blankDisk (.ofList [7])).durBitmap ∧
      c.shared.live.cache.bit 0 = true := by
  let call : ReadCall := ⟨.readAt, 0, 1⟩
  let F : ByteFile := .ofList [7]
  have hidx : chunkStart 0 < F.len := by
    rw [chunkStart, Nat.zero_mul]
    exact Nat.one_pos
  have h₀ : (crashProgram Unit F 4096).toSystem.Reach (RawFirst 4096)
      ⟨blankDisk F, fun _ => .idle⟩ :=
    .init ⟨⟨bit_fresh 4096 1, rfl, fun _ => rfl, rfl, fun _ => rfl⟩, bit_fresh 4096 1⟩
  have h₁ := solo_disk h₀ (.call call) (by simp)
  have h₂ := solo_disk h₁ (.lockRead (fun _ => by decide) (fun h => absurd rfl h) rfl) (by simp)
  have h₃ := solo_disk h₂
    (.fetchData (show fixRange F.len 0 1 = .ok (0, 1) from rfl) (by decide)) (by simp)
  have h₄ := solo_disk h₃ (.missing (bit_fresh 4096 1 _)) (by simp)
  have h₅ := solo_disk h₄ (.enter rfl) (by simp)
  have h₆ := solo_disk h₅ .fetchOk (by simp)
  have h₇ := solo_disk h₆ .setBit (by simp)
  refine ⟨_, h₇, rfl, rfl, ?_⟩
  rw [Shared.cache_withCache, Nat.zero_div, bit_setBit _ hidx, decide_eq_true rfl, Bool.or_true]

private theorem testBit_written {live durable : ByteFile} (hlen : 0 / 8 < durable.len)
    (hbit : live.testBit 0 = true) : (writePage 4096 0 live durable).testBit 0 = true := by
  rw [writePage, ByteFile.testBit, ByteFile.byte_write_slice, if_pos (by omega)]
  exact hbit

private theorem blankDisk_covers : 0 / 8 < (blankDisk (.ofList [7])).durBitmap.len :=
  (fresh 4096 1).bitmap_covers 0 (by simp [chunkStart])

theorem durable_bits_correct_run : ∃ c : Config Unit (Disk Unit 1) Pc,
    c.shared.durBitmap.testBit 0 = true ∧ c.shared.durRaw.byte 0 = 7 := by
  let F : ByteFile := .ofList [7]
  obtain ⟨⟨d, loc⟩, hc, hraw, hbitmap, hbit⟩ := exists_fill_run
  -- the page of the raw file goes first
  let d₁ := d.writeBack 4096 (.raw 0)
  let d₂ := d₁.writeBack 4096 (.bitmap 0)
  have hcoh : d.live.cache.Coherent F := (crashProgram_holds hc).1.coherent
  have hc₁ : (crashProgram Unit F 4096).toSystem.Reach (RawFirst 4096) ⟨d₁, loc⟩ :=
    Program.Reach.env (e := .raw 0) hc trivial rfl
  have hok : RawFirst 4096 ⟨d₁, loc⟩ (.inr (.bitmap 0)) := by
    intro idx hidx _ _ hb p hp hp'
    have hp1 : p < 1 := hp'.trans_le (chunkEnd_le F.len idx)
    have hlen : d.durRaw.len = 1 := by
      rw [show d.durRaw = _ from hraw]
      exact ByteFile.len_setLen ..
    change (d.durRaw.write _ (d.live.cache.raw.slice _ _)).byte p = _
    rw [ByteFile.byte_write_slice, if_pos (by omega)]
    exact hcoh idx hidx hb p hp hp'
  have hc₂ : (crashProgram Unit F 4096).toSystem.Reach (RawFirst 4096) ⟨d₂, loc⟩ :=
    Program.Reach.env hc₁ hok rfl
  have hset : d₂.durBitmap.testBit 0 = true :=
    testBit_written (by rw [show d₁.durBitmap = _ from hbitmap]; exact blankDisk_covers) hbit
  have hF : 0 < F.len := Nat.one_pos
  have hidx : chunkStart 0 < F.len := by simpa [chunkStart] using hF
  refine ⟨⟨d₂, loc⟩, hset, (durable_bits_correct hc₂).1 0 hidx hset 0 (by simp [chunkStart]) ?_⟩
  exact lt_of_le_of_lt (Nat.zero_le _) (chunkStart_lt_chunkEnd hidx)

/-- A read fills a chunk and sets its bit, the page of the bitmap is written back, the power is
lost: after the restart a read returns a zero in place of the byte. -/
theorem power_loss_returns_zeros : ∃ (c : Config Unit (Disk Unit 1) Pc) (cache : Cache 1),
    (crashProgram Unit (.ofList [7]) 4096).toSystem.Reachable c ∧
      new 4096 1 (some c.shared.durRaw) (some c.shared.durBitmap) = .ok cache ∧
      (readAt (.serve (.ofList [7])) () cache 0 1).1 = .ok [0] := by
  obtain ⟨⟨d, loc⟩, hc, hraw, hbitmap, hbit⟩ := exists_fill_run
  let d' := d.writeBack 4096 (.bitmap 0)
  have hc' : (crashProgram Unit (.ofList [7]) 4096).toSystem.Reachable ⟨d', loc⟩ :=
    Program.Reach.env (hc.mono fun _ _ _ => trivial) trivial rfl
  obtain ⟨cache, hcache⟩ := exists_new 4096 one_ne_zero (some d'.durRaw) (some d'.durBitmap)
  refine ⟨⟨d', loc⟩, cache, hc', hcache, ?_⟩
  have hset : cache.bit 0 = true := by
    rw [(new_ok hcache).2 0 (by simp [chunkStart])]
    exact testBit_written (by rw [show d.durBitmap = _ from hbitmap]; exact blankDisk_covers) hbit
  have hids : ∀ idx ∈ chunkIds 0 1, cache.bit idx = true := fun idx hidx => by
    rw [mem_chunkIds Nat.one_pos] at hidx
    rwa [show idx = 0 by simpa using hidx]
  have hread := readAt_cached (B := .serve (.ofList [7])) (w := ()) (c := cache) (n := 1)
    Nat.one_pos one_ne_zero hids
  have hslice : cache.raw.slice 0 1 = [0] := by
    rw [(new_ok hcache).1, show d'.durRaw = _ from hraw, ByteFile.slice]
    simp [blankDisk, ByteFile.byte_setLen]
  rw [hread]
  exact congrArg Except.ok hslice

end Run

end Cache

end DistillFs
