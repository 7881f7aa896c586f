import DistillFs.Backend.Cache.Basic

/-!
# Reopening a cache

`Cache::new` opens the two files that an earlier run left behind. It gives the raw file the size of
the backend and the bitmap the length it needs, and it trusts every bit it finds. Between the runs
the raw file may have lost its end or all of it, and the backend may have grown; this file says
exactly when the bits may still be trusted.

## Main definitions

* `Cache.EarlierRun`: the cache of an earlier run over a prefix of the content.

## Main results

* `Cache.new_trustworthy_iff`: the reopened cache is coherent, and its reads return the content, if
  and only if every cached chunk is zero in the content from where the raw file ended.
* `Cache.new_trusts_stale_bitmap`: a deleted raw file leaves a bit set over zeros.
-/

namespace DistillFs

open Foundation

namespace Cache

variable {F : ByteFile}

/-- The cache of an earlier run, whose backend had the first `size` bytes of the content `F`: its
bits are set only for chunks of that image that were fully cached. -/
structure EarlierRun (F : ByteFile) {size : ℕ} (c : Cache size) : Prop where
  prefix_le : size ≤ F.len
  coherent : c.Coherent (F.setLen size)
  inside : ∀ idx, c.bit idx = true → chunkStart idx < size

/-- The raw file an earlier run left behind: deleted, or cut to its first `len` bytes. -/
inductive RawLeft {size : ℕ} (c : Cache size) : Option ByteFile → ℕ → Prop
  | deleted : RawLeft c none 0
  | cut (len : ℕ) (h : len ≤ size) : RawLeft c (some (c.raw.setLen len)) len

/-- What the reopened raw file holds: the old bytes up to where the file ended, then zeros. -/
theorem RawLeft.byte {size : ℕ} {c : Cache size} {rawFile : Option ByteFile} {len : ℕ}
    (h : RawLeft c rawFile len) {p size' : ℕ} (hp : p < size') :
    ((rawFile.getD .empty).setLen size').byte p = if p < len then c.raw.byte p else 0 := by
  rw [ByteFile.byte_setLen, if_pos hp]
  cases h with
  | deleted => rfl
  | cut len hlen => exact ByteFile.byte_setLen ..

theorem RawLeft.len_le {size : ℕ} {c : Cache size} {rawFile : Option ByteFile} {len : ℕ}
    (h : RawLeft c rawFile len) : len ≤ size := by
  cases h with
  | deleted => exact Nat.zero_le _
  | cut len hlen => exact hlen

/-- A cached byte that the raw file still has is a byte of the content. -/
theorem EarlierRun.byte_eq {size : ℕ} {c : Cache size} (h : EarlierRun F c) {idx p : ℕ}
    (hbit : c.bit idx = true) (hp : chunkStart idx ≤ p) (hp' : p < chunkEnd F.len idx)
    (hlen : p < size) : c.raw.byte p = F.byte p := by
  obtain ⟨h1, h2⟩ := mem_chunk hlen
  rw [div_eq_of_mem_chunk hp hp'] at h1 h2
  rw [h.coherent idx (h.inside idx hbit) hbit p h1 h2, ByteFile.byte_setLen, if_pos hlen]

/-- **When a reopened cache can be trusted.** Every set bit marks a chunk that holds the bytes of
the backend, and with that every read returns bytes of the backend, if and only if the content is
zero wherever a chunk was cached but the raw file had ended. -/
theorem new_trustworthy_iff {ω : Type} {B : Backend ω} (hB : B.Immutable F) {pageSize size len : ℕ}
    {c₀ : Cache size} {rawFile : Option ByteFile} {c : Cache B.size} (h₀ : EarlierRun F c₀)
    (hraw : RawLeft c₀ rawFile len)
    (hnew : new pageSize B.size rawFile (some c₀.bitmap) = .ok c) :
    (c.Coherent F ∧ ∀ w off n bytes, (readAt B w c off n).1 = .ok bytes →
        bytes = F.slice off (min n (B.size - off))) ↔
      ∀ idx p, c₀.bit idx = true → chunkStart idx ≤ p → p < chunkEnd B.size idx → len ≤ p →
        F.byte p = 0 := by
  obtain ⟨hraw', hbits⟩ := new_ok hnew
  have hsize := hB.size_eq
  have hbyte : ∀ p, p < B.size → c.raw.byte p = if p < len then c₀.raw.byte p else 0 :=
    fun p hp => hraw' ▸ hraw.byte hp
  have hbit : ∀ idx, chunkStart idx < B.size → c.bit idx = c₀.bit idx := hbits
  have hend : ∀ idx, chunkEnd B.size idx ≤ B.size := chunkEnd_le B.size
  constructor
  · rintro ⟨hcoh, -⟩ idx p hb hp hp' hlen
    have hidx : chunkStart idx < B.size := hp.trans_lt (hp'.trans_le (hend idx))
    have hag := hcoh idx hidx (by rw [hbit idx hidx, hb]) p hp hp'
    rw [← hag, hbyte p (hp'.trans_le (hend idx)), if_neg (by omega)]
  · intro hzero
    have hcoh : c.Coherent F := by
      intro idx hidx hb p hp hp'
      rw [hbit idx hidx] at hb
      rw [hbyte p (hp'.trans_le (hend idx))]
      split_ifs with hlt
      · exact h₀.byte_eq hb hp (hsize ▸ hp') (hlt.trans_le hraw.len_le)
      · exact (hzero idx p hb hp hp' (by omega)).symm
    exact ⟨hcoh, fun w off n bytes hread => (readAt_spec hB hcoh off n).2 bytes hread⟩

section Runs

/-- The cache of a run that fetched the first chunk of the content `F`. -/
private def firstChunk (F : ByteFile) : Cache F.len :=
  ((fresh 4096 F.len).writeRaw (chunkStart 0)
    (F.slice (chunkStart 0) (chunkEnd F.len 0 - chunkStart 0))).setBit 0

private theorem chunkStart_zero_lt (hF : 0 < F.len) : chunkStart 0 < F.len := by
  rwa [chunkStart, Nat.zero_mul]

private theorem bit_firstChunk (hF : 0 < F.len) (idx : ℕ) :
    (firstChunk F).bit idx = decide (idx = 0) := by
  rw [firstChunk, bit_setBit _ (chunkStart_zero_lt hF), bit_writeRaw, bit_fresh, Bool.false_or]

private theorem earlierRun_firstChunk (hF : 0 < F.len) : EarlierRun F (firstChunk F) := by
  have hfresh : (fresh 4096 F.len).Coherent F := fun idx _ hb => by simp [bit_fresh] at hb
  have hidx := chunkStart_zero_lt hF
  refine ⟨le_rfl, ?_, fun idx hb => ?_⟩
  · rw [ByteFile.setLen_len]
    exact (hfresh.writeRaw_slice _ _).setBit (agreeOn_writeRaw_chunk hidx) hidx
  · rw [bit_firstChunk hF, decide_eq_true_eq] at hb
    rwa [hb]

theorem new_trustworthy_iff_intact : ∃ (c₀ c : Cache 1),
    new 4096 1 (some (c₀.raw.setLen 1)) (some c₀.bitmap) = .ok c ∧ c.bit 0 = true ∧
      c.Coherent (.ofList [7]) := by
  have hF : 0 < (ByteFile.ofList [7]).len := Nat.one_pos
  let c₀ : Cache 1 := firstChunk (.ofList [7])
  obtain ⟨c, hc⟩ := exists_new 4096 one_ne_zero (some (c₀.raw.setLen 1)) (some c₀.bitmap)
  have hbit : c.bit 0 = true := by
    rw [(new_ok hc).2 0 (chunkStart_zero_lt hF)]
    exact bit_firstChunk hF 0
  refine ⟨c₀, c, hc, hbit, ?_⟩
  refine ((new_trustworthy_iff (Backend.immutable_serve (.ofList [7])) (earlierRun_firstChunk hF)
    (.cut 1 le_rfl) hc).mpr fun idx p _ _ hp hle => ?_).1
  have hend : p < 1 := hp.trans_le (chunkEnd_le _ idx)
  omega

/-- A run caches the only byte of a content; the raw file is deleted; the reopened cache still has
the bit, and a read returns a zero in place of the byte. -/
theorem new_trusts_stale_bitmap : ∃ (c₀ c : Cache 1),
    EarlierRun (.ofList [7]) c₀ ∧ RawLeft c₀ none 0 ∧ new 4096 1 none (some c₀.bitmap) = .ok c ∧
      c.bit 0 = true ∧ (readAt (.serve (.ofList [7])) () c 0 1).1 = .ok [0] := by
  have hF : 0 < (ByteFile.ofList [7]).len := Nat.one_pos
  let c₀ : Cache 1 := firstChunk (.ofList [7])
  obtain ⟨c, hc⟩ := exists_new 4096 one_ne_zero none (some c₀.bitmap)
  have hbit : c.bit 0 = true := by
    rw [(new_ok hc).2 0 (chunkStart_zero_lt hF)]
    exact bit_firstChunk hF 0
  refine ⟨c₀, c, earlierRun_firstChunk hF, .deleted, hc, hbit, ?_⟩
  have hids : ∀ idx ∈ chunkIds 0 1, c.bit idx = true := fun idx hidx => by
    rw [mem_chunkIds Nat.one_pos] at hidx
    rwa [show idx = 0 by simpa using hidx]
  have hread := readAt_cached (B := .serve (.ofList [7])) (w := ()) (c := c) (n := 1)
    Nat.one_pos one_ne_zero hids
  have hslice : c.raw.slice 0 1 = [0] := by
    rw [(new_ok hc).1, ByteFile.slice]
    simp [ByteFile.byte_setLen]
  rw [hread]
  exact congrArg Except.ok hslice

end Runs

end Cache

end DistillFs
