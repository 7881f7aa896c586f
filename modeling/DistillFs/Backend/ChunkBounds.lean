import DistillFs.Backend.Cache.Basic
import DistillFs.Foundation.Checked

/-!
# Chunk indexes in machine arithmetic

The chunks of an image index two bitmaps, the one of the cache and the one in which the dedup reader
marks the chunks it has sent to its worker, and the mapping of the raw file. Here the computations
are done as the machine does them: in 64 bits, where an overflow has no result, and with the bounds
checks of slices, where an index outside has no result either.

For images up to `2 ^ 62` bytes they all have results, which are those of the computations on
numbers in the model of the cache.

## Main definitions

* `alignUp64`, `bitmapFileSize64`, `dedupWords`, `chunkIds64`, `fixRange64`.
* `tryDedupChunk`, `fetchAccess`, `gcChunkRange`, `invalidateAccess`.
* `ChunkBounds`: all indexes are within bounds.

## Main results

* `chunk_bounds`.
-/

namespace DistillFs

open Foundation

/-! ### The sizes of the bitmaps -/

/-- `align_up`; it panics where it has no result. -/
def alignUp64 (v align : ℕ) : Option ℕ :=
  if align = 0 then none
  else do
    let numerator ← checked 64 (v + (align - 1))
    checked 64 (numerator / align * align)

def bitmapFileSize64 (pageSize size : ℕ) : Option ℕ := do
  let aligned ← alignUp64 size chunkSize
  let bits ← alignUp64 (aligned / chunkSize) 8
  return max (bits / 8) pageSize

/-- The number of words in the bitmap of the dedup reader. -/
def dedupWords (size : ℕ) : Option ℕ := do
  let aligned ← alignUp64 size chunkSize
  let bits ← alignUp64 (aligned / chunkSize) 64
  return bits / 64

/-! ### The indexes -/

/-- The chunks that a range touches, for `try_dedup_chunk` and `fetch_data`. -/
def chunkIds64 (off len : ℕ) : Option (List ℕ) := do
  let stop ← checked 64 (off + len)
  let last ← checkedSub stop 1
  return List.range' (off / chunkSize) (last / chunkSize + 1 - off / chunkSize)

/-- `fix_range`. -/
def fixRange64 (size off n : ℕ) : Option (Except CacheError (ℕ × ℕ)) :=
  if size ≤ off then some (.error .invalidRange)
  else do
    let stop ← checked 64 (off + n)
    return .ok (off, if size < stop then size else stop)

/-- One round of the loop of `try_dedup_chunk`: it looks at the bit of the chunk, and if this is
not set and the queue of the worker takes the request, sets it. The requests are given by their
offsets. -/
def tryDedupStep (trySend : ℕ → Bool) (s : List ℕ × List UInt64) (idx : ℕ) :
    Option (List ℕ × List UInt64) := do
  let (reqs, words) := s
  let value ← words[idx / 64]?
  if value &&& (1 <<< UInt64.ofNat (idx % 64)) ≠ 0 then return (reqs, words)
  let off ← checked 64 (idx * chunkSize)
  if trySend idx then
    let old ← words[idx / 64]?
    return (reqs ++ [off], words.set (idx / 64) (old ||| (1 <<< UInt64.ofNat (idx % 64))))
  else return (reqs, words)

/-- `try_dedup_chunk` over the words of the bitmap. -/
def tryDedupChunk (trySend : ℕ → Bool) (words : List UInt64) (off len : ℕ) :
    Option (List ℕ × List UInt64) :=
  if len = 0 then some ([], words)
  else do
    let ids ← chunkIds64 off len
    ids.foldlM (tryDedupStep trySend) ([], words)

/-- Where an operation on a chunk goes. -/
structure ChunkAccess where
  bitAt : ℕ
  bitShift : ℕ
  start : ℕ
  stop : ℕ
  deriving DecidableEq, Repr

/-- What `fetch_data` accesses for a chunk: a byte of the bitmap, of which there are `bitmapLen`,
and a range of the raw file, of which `rawLen` bytes are mapped. -/
def fetchAccess (bitmapLen rawLen size idx : ℕ) : Option ChunkAccess := do
  guard (idx / 8 < bitmapLen)
  let start ← checked 64 (idx * chunkSize)
  let next ← checked 64 (idx + 1)
  let next ← checked 64 (next * chunkSize)
  let stop := if next ≤ size then next else size
  let _fetchLen ← checkedSub stop start
  guard (start ≤ stop ∧ stop ≤ rawLen)
  return ⟨idx / 8, idx % 8, start, stop⟩

/-- The range of a chunk that `gc_chunk` asks the index about, if the chunk begins in the image. -/
def gcChunkRange (size chunkId : ℕ) : Option (Option (ℕ × ℕ)) := do
  let start ← checked 64 (chunkId * chunkSize)
  if size < start then return none
  let next ← checked 64 (chunkId + 1)
  let next ← checked 64 (next * chunkSize)
  let len ← checkedSub (min next size) start
  return some (start, len)

/-- The bit that `invalidate_chunk` clears, if the chunk has bytes in the image. -/
def invalidateAccess (bitmapLen size chunkId : ℕ) : Option (Option (ℕ × ℕ)) := do
  let start ← checked 64 (chunkId * chunkSize)
  if size ≤ start then return none
  guard (chunkId / 8 < bitmapLen)
  return some (chunkId / 8, chunkId % 8)

/-! ### The computations have results -/

theorem alignUp64_eq {v align : ℕ} (halign : 0 < align) (h : v + (align - 1) < 2 ^ 64) :
    alignUp64 v align = some (alignUp v align) := by
  have hle : (v + (align - 1)) / align * align < 2 ^ 64 := (Nat.div_mul_le_self _ _).trans_lt h
  rw [alignUp64, if_neg halign.ne', checked_of_lt h, Option.bind_eq_bind, Option.bind_some,
    checked_of_lt hle, alignUp]

section Bounds

variable {size : ℕ} (hsize : size ≤ 2 ^ 62)

include hsize

theorem nrChunks_le : nrChunks size ≤ 2 ^ 62 := by
  simp only [nrChunks, alignUp, chunkSize]
  omega

theorem alignUp64_chunkSize : alignUp64 size chunkSize = some (alignUp size chunkSize) := by
  refine alignUp64_eq chunkSize_pos ?_
  simp only [chunkSize]
  omega

theorem bitmapFileSize64_eq (pageSize : ℕ) :
    bitmapFileSize64 pageSize size = some (bitmapFileSize pageSize size) := by
  have hbits : alignUp64 (nrChunks size) 8 = some (alignUp (nrChunks size) 8) :=
    alignUp64_eq (by decide) (by have := nrChunks_le hsize; omega)
  rw [bitmapFileSize64, alignUp64_chunkSize hsize, Option.bind_eq_bind, Option.bind_some,
    ← nrChunks, hbits, Option.bind_some, bitmapFileSize]
  rfl

theorem dedupWords_eq : dedupWords size = some (alignUp (nrChunks size) 64 / 64) := by
  have hbits : alignUp64 (nrChunks size) 64 = some (alignUp (nrChunks size) 64) :=
    alignUp64_eq (by decide) (by have := nrChunks_le hsize; omega)
  rw [dedupWords, alignUp64_chunkSize hsize, Option.bind_eq_bind, Option.bind_some, ← nrChunks,
    hbits, Option.bind_some]
  rfl

/-- A chunk that begins in the image has a word of its own. -/
theorem div_lt_dedupWords {idx words : ℕ} (hidx : chunkStart idx < size)
    (hwords : dedupWords size = some words) : idx / 64 < words := by
  have hlt := idx_lt_nrChunks_iff.mpr hidx
  rw [dedupWords_eq hsize, Option.some.injEq] at hwords
  subst hwords
  simp only [alignUp]
  omega

end Bounds

theorem chunkIds64_eq {off len : ℕ} (hlen : 0 < len) (h : off + len < 2 ^ 64) :
    chunkIds64 off len = some (Cache.chunkIds off len) := by
  rw [chunkIds64, checked_of_lt h, Option.bind_eq_bind, Option.bind_some,
    checkedSub_of_le (by omega), Option.bind_some, Cache.chunkIds]
  rfl

theorem fixRange64_eq {size off n : ℕ} (h : off + n < 2 ^ 64) :
    fixRange64 size off n = some (Cache.fixRange size off n) := by
  rw [fixRange64, Cache.fixRange, checked_of_lt h]
  by_cases hoff : size ≤ off
  · rw [if_pos hoff, if_pos hoff]
  · rw [if_neg hoff, if_neg hoff]
    rfl

/-- The offsets of a chunk fit into 64 bits. -/
theorem chunk_lt {size idx : ℕ} (hsize : size ≤ 2 ^ 62) (hidx : chunkStart idx < size) :
    idx * chunkSize < 2 ^ 64 ∧ idx + 1 < 2 ^ 64 ∧ (idx + 1) * chunkSize < 2 ^ 64 := by
  have hchunk : chunkSize = 4194304 := by rw [chunkSize]
  rw [chunkStart] at hidx
  rw [hchunk] at hidx ⊢
  omega

/-- The range that `fetch_data` fetches for a chunk is the one of the chunk. -/
theorem fetchAccess_eq {bitmapLen size idx : ℕ} (hsize : size ≤ 2 ^ 62)
    (hidx : chunkStart idx < size) (hbit : idx / 8 < bitmapLen) :
    fetchAccess bitmapLen size size idx =
      some ⟨idx / 8, idx % 8, chunkStart idx, chunkEnd size idx⟩ := by
  have hstart := (chunkStart_lt_chunkEnd hidx).le
  have hstop := chunkEnd_le size idx
  obtain ⟨hmul, hnext, hnextMul⟩ := chunk_lt hsize hidx
  rw [chunkStart, chunkEnd] at hstart ⊢
  rw [chunkEnd] at hstop
  rw [fetchAccess, guard, if_pos hbit, Option.bind_eq_bind, Option.pure_def, Option.bind_some,
    checked_of_lt hmul, Option.bind_eq_bind, Option.bind_some, checked_of_lt hnext,
    Option.bind_some, checked_of_lt hnextMul, Option.bind_some]
  generalize (if (idx + 1) * chunkSize ≤ size then (idx + 1) * chunkSize else size) = stop
    at hstart hstop ⊢
  have hrange : idx * chunkSize ≤ stop ∧ stop ≤ size := ⟨hstart, hstop⟩
  dsimp only
  rw [checkedSub_of_le hstart, guard, if_pos hrange]
  rfl

theorem gcChunkRange_eq {size chunkId : ℕ} (hsize : size ≤ 2 ^ 62)
    (hidx : chunkStart chunkId < size) :
    gcChunkRange size chunkId =
      some (some (chunkStart chunkId, chunkEnd size chunkId - chunkStart chunkId)) := by
  obtain ⟨hmul, hnext, hnextMul⟩ := chunk_lt hsize hidx
  have hstart := (chunkStart_lt_chunkEnd hidx).le
  rw [chunkEnd_eq_min, chunkStart] at hstart ⊢
  rw [chunkStart] at hidx
  rw [gcChunkRange, checked_of_lt hmul, Option.bind_eq_bind, Option.bind_some,
    if_neg hidx.le.not_gt, checked_of_lt hnext, Option.bind_some, checked_of_lt hnextMul,
    Option.bind_some, checkedSub_of_le hstart, Option.bind_some]
  rfl

theorem invalidateAccess_eq {bitmapLen size chunkId : ℕ} (hsize : size ≤ 2 ^ 62)
    (hidx : chunkStart chunkId < size) (hbit : chunkId / 8 < bitmapLen) :
    invalidateAccess bitmapLen size chunkId = some (some (chunkId / 8, chunkId % 8)) := by
  obtain ⟨hmul, -, -⟩ := chunk_lt hsize hidx
  rw [chunkStart] at hidx
  rw [invalidateAccess, checked_of_lt hmul]
  simp only [Option.pure_def, Option.bind_eq_bind, Option.bind_some]
  rw [if_neg hidx.not_ge, guard, if_pos hbit]
  rfl

/-! ### The bitmap of the dedup reader -/

/-- A round has a result if the chunk has a word, and keeps the number of words. -/
theorem tryDedupStep_eq (trySend : ℕ → Bool) {size idx : ℕ} (hsize : size ≤ 2 ^ 62)
    (hidx : chunkStart idx < size) (reqs : List ℕ) {words : List UInt64}
    (hword : idx / 64 < words.length) :
    ∃ s, tryDedupStep trySend (reqs, words) idx = some s ∧ s.2.length = words.length := by
  obtain ⟨hmul, -, -⟩ := chunk_lt hsize hidx
  rw [tryDedupStep]
  simp only [List.getElem?_eq_getElem hword, Option.bind_eq_bind, Option.bind_some]
  split_ifs with hbit hsend
  · exact ⟨_, rfl, rfl⟩
  · rw [checked_of_lt hmul]
    exact ⟨_, rfl, List.length_set ..⟩
  · rw [checked_of_lt hmul]
    exact ⟨_, rfl, rfl⟩

theorem tryDedupChunk_eq (trySend : ℕ → Bool) {size off len : ℕ} (hsize : size ≤ 2 ^ 62)
    (hlen : 0 < len) (hend : off + len ≤ size) {words : List UInt64}
    (hwords : dedupWords size = some words.length) :
    ∃ s, tryDedupChunk trySend words off len = some s ∧ s.2.length = words.length := by
  have hfold : ∀ (ids : List ℕ) (reqs : List ℕ) (ws : List UInt64), ws.length = words.length →
      (∀ idx ∈ ids, chunkStart idx < size) →
      ∃ s, ids.foldlM (tryDedupStep trySend) (reqs, ws) = some s ∧ s.2.length = words.length := by
    intro ids
    induction ids with
    | nil => exact fun reqs ws hws _ => ⟨_, rfl, hws⟩
    | cons idx ids ih =>
      intro reqs ws hws hids
      have hidx := hids idx List.mem_cons_self
      have hword : idx / 64 < ws.length := hws ▸ div_lt_dedupWords hsize hidx hwords
      obtain ⟨s, hs, hslen⟩ := tryDedupStep_eq trySend hsize hidx reqs hword
      obtain ⟨r, hr, hrlen⟩ := ih s.1 s.2 (hslen.trans hws)
        fun i hi => hids i (List.mem_cons_of_mem _ hi)
      refine ⟨r, ?_, hrlen⟩
      rw [List.foldlM_cons, hs]
      exact hr
  rw [tryDedupChunk, if_neg hlen.ne', chunkIds64_eq hlen (by omega)]
  exact hfold _ [] words rfl fun idx hidx =>
    Cache.chunkStart_lt_of_mem_chunkIds hlen hend hidx

/-! ### All indexes -/

/-- With a bitmap file of `bytes` bytes and `words` words in the dedup bitmap, what is computed for
the range of `len` bytes at `off`, and for the chunks that are collected, has a result and stays
within the bitmaps and the image. -/
structure ChunkBounds (size off len bytes words : ℕ) : Prop where
  fixRange : fixRange64 size off len = some (.ok (off, off + len))
  tryDedup : ∀ (trySend : ℕ → Bool) (bits : List UInt64), bits.length = words →
    ∃ s, tryDedupChunk trySend bits off len = some s ∧ s.2.length = words
  visited : ∃ ids, chunkIds64 off len = some ids ∧ ∀ idx ∈ ids, idx / 64 < words ∧
    ∃ access, fetchAccess bytes size size idx = some access ∧
      access.bitAt = idx / 8 ∧ access.bitAt < bytes ∧ access.start < access.stop ∧
      access.stop - access.start ≤ chunkSize ∧ access.stop ≤ size
  collected : ∀ chunkId, chunkId * chunkSize < size →
    (∃ start n, gcChunkRange size chunkId = some (some (start, n)) ∧ 0 < n ∧ start + n ≤ size) ∧
    chunkId / 64 < words ∧ chunkId / 8 < bytes ∧
    invalidateAccess bytes size chunkId = some (some (chunkId / 8, chunkId % 8))

/-- **Chunk indexes.** For an image of at most `2 ^ 62` bytes and a range in it, no computation of a
chunk index or of a range overflows, and all of them stay within the two bitmaps and the image. -/
theorem chunk_bounds (pageSize : ℕ) {size off len : ℕ} (hsize : size ≤ 2 ^ 62) (hoff : off < size)
    (hlen : 0 < len) (hend : off + len ≤ size) :
    ∃ bytes words, bitmapFileSize64 pageSize size = some bytes ∧ dedupWords size = some words ∧
      ChunkBounds size off len bytes words := by
  have hwords := dedupWords_eq hsize
  have h64 : off + len < 2 ^ 64 := (hend.trans hsize).trans_lt (by norm_num)
  refine ⟨_, _, bitmapFileSize64_eq hsize pageSize, hwords, ?_⟩
  constructor
  · rw [fixRange64_eq h64, Cache.fixRange, if_neg hoff.not_ge, if_neg hend.not_gt]
  · rintro trySend bits hbits
    rw [← hbits]
    exact tryDedupChunk_eq trySend hsize hlen hend (hwords.trans (congrArg some hbits.symm))
  · refine ⟨_, chunkIds64_eq hlen h64, fun idx hidx => ?_⟩
    have hstart := Cache.chunkStart_lt_of_mem_chunkIds hlen hend hidx
    have hbit := div_lt_bitmapFileSize pageSize hstart
    refine ⟨div_lt_dedupWords hsize hstart hwords, _, fetchAccess_eq hsize hstart hbit, rfl, hbit,
      chunkStart_lt_chunkEnd hstart, ?_, chunkEnd_le size idx⟩
    have hmin : chunkEnd size idx ≤ (idx + 1) * chunkSize := by
      rw [chunkEnd_eq_min]
      exact min_le_left ..
    rw [Nat.add_mul, Nat.one_mul, Nat.add_comm] at hmin
    exact Nat.sub_le_of_le_add hmin
  · intro chunkId hchunk
    have hstart : chunkStart chunkId < size := hchunk
    have hbit := div_lt_bitmapFileSize pageSize hstart
    have hlt := chunkStart_lt_chunkEnd hstart
    refine ⟨⟨_, _, gcChunkRange_eq hsize hchunk, Nat.sub_pos_of_lt hlt, ?_⟩,
      div_lt_dedupWords hsize hstart hwords, hbit, invalidateAccess_eq hsize hchunk hbit⟩
    rw [Nat.add_sub_cancel' hlt.le]
    exact chunkEnd_le size chunkId

/-- A range across two chunks, the second of which is cut at the end of the image. -/
theorem chunk_bounds_twoChunks : ∃ bytes words, bitmapFileSize64 4096 5000000 = some bytes ∧
    dedupWords 5000000 = some words ∧ ChunkBounds 5000000 4194300 10 bytes words :=
  chunk_bounds 4096 (by norm_num) (by norm_num) (by norm_num) (by norm_num)

end DistillFs
