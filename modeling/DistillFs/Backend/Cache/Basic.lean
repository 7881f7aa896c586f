import DistillFs.Backend.Basic
import DistillFs.Foundation.Bitmap

/-!
# The chunk cache

A cache keeps a raw file with the bytes of an image next to a bitmap file with one bit for each
chunk. A set bit is trusted: the chunk is copied from the raw file without asking the backend. This
file has the calls of one thread; the interleavings of several are in
`DistillFs.Backend.Cache.Concurrent`.

A `Cache` carries what its constructors establish: the raw file has the size of the image, and the
bitmap has a byte for every chunk, so no access to either leaves its file.

## Main definitions

* `Cache`, `Cache.new`, `Cache.fromRawFile`.
* `Cache.fetchChunk`, `Cache.fetchData`, `Cache.fixRange`, `Cache.readAt`,
  `Cache.writeToFuseWriter`, `Cache.invalidateChunk`.
* `Cache.Coherent`: a set bit means that the chunk holds the bytes of the content.
* `Cache.marked`: the chunks that are marked.

## Main results

* `Cache.readAt_spec`, `Cache.writeToFuseWriter_spec`: over an immutable backend, reads keep a
  coherent cache coherent and deliver the content.
* `Cache.readAt_empty`: over a local raw file, reads deliver the bytes of the raw file.
* `Cache.fetch_again`: a fetch that succeeded needs the backend no more.
* `Cache.invalidateChunk_coherent`, `Cache.byte_invalidateChunk`: what invalidation does.
-/

namespace DistillFs

open Foundation

/-! ### Files of a cache -/

/-- The length of the bitmap file for an image of `size` bytes: one bit for each chunk, rounded up
to whole bytes, and at least one page. -/
def bitmapFileSize (pageSize size : ℕ) : ℕ := max (alignUp (nrChunks size) 8 / 8) pageSize

theorem div_lt_bitmapFileSize (pageSize : ℕ) {size idx : ℕ} (h : chunkStart idx < size) :
    idx / 8 < bitmapFileSize pageSize size := by
  have hidx := idx_lt_nrChunks_iff.mpr h
  refine lt_of_lt_of_le ?_ (le_max_left _ _)
  simp only [alignUp]
  omega

/-- A cache of an image of `size` bytes. -/
@[ext] structure Cache (size : ℕ) where
  /-- The raw file. -/
  raw : ByteFile
  /-- The bitmap file. -/
  bitmap : ByteFile
  /-- The raw file has the size of the image. -/
  raw_len : raw.len = size
  /-- The bitmap has a byte for every chunk of the image. -/
  bitmap_covers : ∀ idx, chunkStart idx < size → idx / 8 < bitmap.len

/-- The errors of the cache. -/
inductive CacheError
  | ioError (e : IoError)
  | invalidRange
  | timeout
  deriving DecidableEq, Repr

/-- The text of a cache error. -/
def CacheError.display : CacheError → String
  | .ioError e => "io_error: " ++ e.msg
  | .invalidRange => "invalid range"
  | .timeout => "timeout"

/-- How the two system calls of an invalidation end: `syncError` when the bitmap could not be made
durable, `punchError` when the hole could not be punched. -/
inductive PunchIo
  | ok
  | syncError (e : IoError)
  | punchError (e : IoError)

namespace Cache

variable {size : ℕ} (c : Cache size)

/-- Whether chunk `idx` is marked as cached. -/
def bit (idx : ℕ) : Bool := c.bitmap.testBit idx

/-- The cache with its raw file exchanged for one of the same length. -/
def withRaw (raw : ByteFile) (h : raw.len = c.raw.len) : Cache size :=
  ⟨raw, c.bitmap, h.trans c.raw_len, c.bitmap_covers⟩

/-- The cache with its bitmap exchanged for one of the same length. -/
def withBitmap (bitmap : ByteFile) (h : bitmap.len = c.bitmap.len) : Cache size :=
  ⟨c.raw, bitmap, c.raw_len, fun idx hidx => h ▸ c.bitmap_covers idx hidx⟩

/-- Mark chunk `idx` as cached. -/
def setBit (idx : ℕ) : Cache size := c.withBitmap (c.bitmap.setBit idx) (ByteFile.len_setBit ..)

/-- Mark chunk `idx` as not cached. -/
def clearBit (idx : ℕ) : Cache size :=
  c.withBitmap (c.bitmap.clearBit idx) (ByteFile.len_clearBit ..)

/-- Store `data` in the raw file at `off`. -/
def writeRaw (off : ℕ) (data : List UInt8) : Cache size :=
  c.withRaw (c.raw.write off data) (ByteFile.len_write ..)

/-- Punch the range of chunk `idx` out of the raw file. -/
def punchHole (idx : ℕ) : Cache size :=
  c.withRaw (c.raw.punch (chunkStart idx) chunkSize) (ByteFile.len_punch ..)

@[simp] theorem raw_withRaw (raw : ByteFile) (h : raw.len = c.raw.len) :
    (c.withRaw raw h).raw = raw := rfl

@[simp] theorem bit_withRaw (raw : ByteFile) (h : raw.len = c.raw.len) (j : ℕ) :
    (c.withRaw raw h).bit j = c.bit j := rfl

@[simp] theorem raw_withBitmap (bitmap : ByteFile) (h : bitmap.len = c.bitmap.len) :
    (c.withBitmap bitmap h).raw = c.raw := rfl

theorem bit_withBitmap (bitmap : ByteFile) (h : bitmap.len = c.bitmap.len) (j : ℕ) :
    (c.withBitmap bitmap h).bit j = bitmap.testBit j := rfl

@[simp] theorem raw_setBit (idx : ℕ) : (c.setBit idx).raw = c.raw := rfl

@[simp] theorem raw_clearBit (idx : ℕ) : (c.clearBit idx).raw = c.raw := rfl

@[simp] theorem raw_writeRaw (off : ℕ) (data : List UInt8) :
    (c.writeRaw off data).raw = c.raw.write off data := rfl

@[simp] theorem raw_punchHole (idx : ℕ) :
    (c.punchHole idx).raw = c.raw.punch (chunkStart idx) chunkSize :=
  c.raw_withRaw _ _

@[simp] theorem bit_writeRaw (off : ℕ) (data : List UInt8) (j : ℕ) :
    (c.writeRaw off data).bit j = c.bit j :=
  c.bit_withRaw _ _ j

@[simp] theorem bit_punchHole (idx j : ℕ) : (c.punchHole idx).bit j = c.bit j :=
  c.bit_withRaw _ _ j

theorem bit_setBit {idx : ℕ} (h : chunkStart idx < size) (j : ℕ) :
    (c.setBit idx).bit j = (c.bit j || decide (j = idx)) :=
  (c.bit_withBitmap _ _ j).trans (c.bitmap.testBit_setBit idx (c.bitmap_covers idx h) j)

@[simp] theorem bit_clearBit (idx j : ℕ) :
    (c.clearBit idx).bit j = (c.bit j && !decide (j = idx)) :=
  (c.bit_withBitmap _ _ j).trans (c.bitmap.testBit_clearBit idx j)

@[simp] theorem writeRaw_slice_self (off n : ℕ) : c.writeRaw off (c.raw.slice off n) = c := by
  ext1
  · exact c.raw.write_slice_self off n
  · rfl

/-! ### Fetching -/

variable {ω : Type} (B : Backend ω)

/-- One turn of the loop of `fetch_data`: a chunk whose bit is clear is fetched into its place and
marked. With one thread there is nothing in flight to wait for. -/
def fetchChunk (w : ω) (c : Cache B.size) (idx : ℕ) : Except CacheError Unit × Cache B.size × ω :=
  if c.bit idx then (.ok (), c, w)
  else
    let start := chunkStart idx
    let stop := chunkEnd B.size idx
    match B.fetch w start (c.raw.slice start (stop - start)) with
    | ((.error e, buf), w') => (.error (.ioError e), c.writeRaw start buf, w')
    | ((.ok _, buf), w') => (.ok (), (c.writeRaw start buf).setBit idx, w')

/-- The loop of `fetch_data` over the chunks of a range; the first error ends it. -/
def fetchChunks (w : ω) (c : Cache B.size) : List ℕ → Except CacheError Unit × Cache B.size × ω
  | [] => (.ok (), c, w)
  | idx :: rest =>
    match fetchChunk B w c idx with
    | (.error e, c', w') => (.error e, c', w')
    | (.ok (), c', w') => fetchChunks w' c' rest

/-- The chunks that the range of `len` bytes at `off` touches. -/
def chunkIds (off len : ℕ) : List ℕ :=
  List.range' (off / chunkSize) ((off + len - 1) / chunkSize + 1 - off / chunkSize)

/-- Make sure that every chunk of a range is cached. -/
def fetchData (w : ω) (c : Cache B.size) (off len : ℕ) :
    Except CacheError Unit × Cache B.size × ω :=
  if len = 0 then (.ok (), c, w) else fetchChunks B w c (chunkIds off len)

/-- Cut a range at the end of the image. -/
def fixRange (size off n : ℕ) : Except CacheError (ℕ × ℕ) :=
  if size ≤ off then .error .invalidRange
  else .ok (off, if size < off + n then size else off + n)

/-- Read into a buffer of `n` bytes: the bytes placed at its front, or the error. -/
def readAt (w : ω) (c : Cache B.size) (off n : ℕ) :
    Except CacheError (List UInt8) × Cache B.size × ω :=
  if n = 0 then (.ok [], c, w)
  else
    match fixRange B.size off n with
    | .error e => (.error e, c, w)
    | .ok (off, stop) =>
      match fetchData B w c off (stop - off) with
      | (.error e, c', w') => (.error e, c', w')
      | (.ok (), c', w') => (.ok (c'.raw.slice off (stop - off)), c', w')

/-- `Backend::fetch` of a cache. -/
def fetch (w : ω) (c : Cache B.size) (off n : ℕ) :
    Except IoError (List UInt8) × Cache B.size × ω :=
  match readAt B w c off n with
  | (.error e, c', w') => (.error (newStdIoError e.display), c', w')
  | (.ok bytes, c', w') => (.ok bytes, c', w')

/-- Hand a range to a writer that holds `out`: the count the writer reports, and what it holds. -/
def writeToFuseWriter (w : ω) (c : Cache B.size) (off n : ℕ) (wr : Writer) (out : List UInt8) :
    (Except IoError ℕ × List UInt8) × Cache B.size × ω :=
  match fixRange B.size off n with
  | .error e => ((.error (newStdIoError e.display), out), c, w)
  | .ok (off, stop) =>
    match fetchData B w c off (stop - off) with
    | (.error e, c', w') => ((.error (newStdIoError e.display), out), c', w')
    | (.ok (), c', w') => (wr.write out (c'.raw.slice off (stop - off)), c', w')

/-- Drop the cached copy of chunk `idx`: clear its bit, make the bitmap durable, punch the range. -/
def invalidateChunk (io : PunchIo) (c : Cache size) (idx : ℕ) : Except IoError Unit × Cache size :=
  if size ≤ chunkStart idx then (.ok (), c)
  else if c.bit idx = false then (.ok (), c)
  else
    match io with
    | .syncError e => (.error e, c.clearBit idx)
    | .punchError e => (.error e, c.clearBit idx)
    | .ok => (.ok (), (c.clearBit idx).punchHole idx)

/-! ### Opening -/

/-- `mmap` refuses a mapping of length zero. -/
def mmapError : CacheError := .ioError ⟨.invalidInput, "Invalid argument (os error 22)"⟩

/-- Open the cache files of a backend of `size` bytes, creating the missing ones (`none`). The raw
file gets the size of the backend and the bitmap the length it needs; neither is cleared. -/
def new (pageSize size : ℕ) (rawFile bitmapFile : Option ByteFile) :
    Except CacheError (Cache size) :=
  let raw := rawFile.getD .empty
  let bitmap := bitmapFile.getD .empty
  if h : size = 0 then .error mmapError
  else .ok
    { raw := if raw.len ≠ size then raw.setLen size else raw
      bitmap := bitmap.setLen (bitmapFileSize pageSize size)
      raw_len := by
        split_ifs with hne
        · exact raw.len_setLen size
        · exact not_not.mp hne
      bitmap_covers := fun idx h => by
        rw [ByteFile.len_setLen]
        exact div_lt_bitmapFileSize pageSize h }

/-- Opening fails only for an empty image. -/
theorem exists_new (pageSize : ℕ) (hsize : size ≠ 0) (rawFile bitmapFile : Option ByteFile) :
    ∃ c, new pageSize size rawFile bitmapFile = .ok c := by
  unfold new
  rw [dif_neg hsize]
  exact ⟨_, rfl⟩

/-- What a successful open finds: the raw file with its length adjusted, and the old bits. -/
theorem new_ok {pageSize : ℕ} {rawFile bitmapFile : Option ByteFile} {c : Cache size}
    (h : new pageSize size rawFile bitmapFile = .ok c) :
    c.raw = (rawFile.getD .empty).setLen size ∧
      ∀ idx, chunkStart idx < size → c.bit idx = (bitmapFile.getD .empty).testBit idx := by
  have h0 : size ≠ 0 := by
    rintro rfl
    simp [new] at h
  simp only [new, dif_neg h0, Except.ok.injEq] at h
  subst h
  refine ⟨?_, fun idx hidx => ?_⟩
  · dsimp only
    split_ifs with hne
    · rfl
    · rw [← not_not.mp hne, ByteFile.setLen_len]
  · rw [bit, ByteFile.testBit, ByteFile.byte_setLen, if_pos (div_lt_bitmapFileSize pageSize hidx)]
    rfl

/-- The cache of an image whose files did not exist: zeros, and no bit set. -/
def fresh (pageSize size : ℕ) : Cache size where
  raw := ByteFile.empty.setLen size
  bitmap := ByteFile.empty.setLen (bitmapFileSize pageSize size)
  raw_len := ByteFile.len_setLen ..
  bitmap_covers idx h := by
    rw [ByteFile.len_setLen]
    exact div_lt_bitmapFileSize pageSize h

theorem bit_fresh (pageSize size idx : ℕ) : (fresh pageSize size).bit idx = false := by
  have hbyte : (ByteFile.empty.setLen (bitmapFileSize pageSize size)).byte (idx / 8) = 0 := by
    rw [ByteFile.byte_setLen, ByteFile.byte_empty, ite_self]
  rw [bit, fresh, ByteFile.testBit, hbyte]
  simp [byteTest]

/-- Open a local raw file over the empty backend and mark all its chunks as cached. -/
def fromRawFile (pageSize : ℕ) (file : ByteFile) (bitmapFile : Option ByteFile) :
    Except CacheError (Cache file.len) :=
  match new pageSize file.len (some file) bitmapFile with
  | .error e => .error e
  | .ok c =>
    match fetchData (.empty file.len) () c 0 file.len with
    | (.error e, _, _) => .error e
    | (.ok (), c', _) => .ok c'

/-! ### The chunks of a range -/

theorem mem_chunkIds {off len idx : ℕ} (hlen : 0 < len) :
    idx ∈ chunkIds off len ↔ off / chunkSize ≤ idx ∧ idx ≤ (off + len - 1) / chunkSize := by
  have hmono : off / chunkSize ≤ (off + len - 1) / chunkSize := Nat.div_le_div_right (by omega)
  rw [chunkIds, List.mem_range'_1]
  omega

theorem chunkStart_lt_of_mem_chunkIds {off len idx : ℕ} (hlen : 0 < len) (hsize : off + len ≤ size)
    (h : idx ∈ chunkIds off len) : chunkStart idx < size := by
  rw [mem_chunkIds hlen] at h
  simp only [chunkStart, chunkSize] at *
  omega

theorem div_mem_chunkIds {off len p : ℕ} (h : off ≤ p) (h' : p < off + len) :
    p / chunkSize ∈ chunkIds off len := by
  rw [mem_chunkIds (by omega)]
  exact ⟨Nat.div_le_div_right h, Nat.div_le_div_right (by omega)⟩

/-- The chunks of a cut range that is not empty lie inside the image. -/
theorem fixRange_ok {off n off' stop : ℕ} (h : fixRange size off n = .ok (off', stop)) :
    off' = off ∧ off < size ∧ stop = min (off + n) size := by
  rw [fixRange] at h
  split_ifs at h with h1 h2
  · obtain ⟨rfl, rfl⟩ := Prod.mk.inj (Except.ok.inj h)
    exact ⟨rfl, by omega, by omega⟩
  · obtain ⟨rfl, rfl⟩ := Prod.mk.inj (Except.ok.inj h)
    exact ⟨rfl, by omega, by omega⟩

/-! ### Coherence -/

/-- A set bit means that the chunk holds the bytes of the content `F`. -/
def Coherent (F : ByteFile) : Prop :=
  ∀ idx, chunkStart idx < size → c.bit idx = true →
    c.raw.AgreeOn F (chunkStart idx) (chunkEnd size idx)

variable {c} {F : ByteFile}

/-- A write inside a chunk whose bit is clear keeps the cache coherent. -/
theorem Coherent.writeRaw (hc : c.Coherent F) {idx : ℕ} {data : List UInt8}
    (hbit : c.bit idx = false) (hlen : chunkStart idx + data.length ≤ chunkEnd size idx) :
    (c.writeRaw (chunkStart idx) data).Coherent F := by
  intro j hj hbj p hp hp'
  rw [bit_writeRaw] at hbj
  have hne : j ≠ idx := by
    rintro rfl
    simp [hbit] at hbj
  have hout : ¬(p < c.raw.len ∧ chunkStart idx ≤ p ∧ p < chunkStart idx + data.length) := by
    intro hw
    exact hne ((div_eq_of_mem_chunk hp hp').symm.trans
      (div_eq_of_mem_chunk hw.2.1 (hw.2.2.trans_le hlen)))
  rw [raw_writeRaw, ByteFile.byte_write, if_neg hout]
  exact hc j hj hbj p hp hp'

/-- A write of correct bytes keeps the cache coherent. -/
theorem Coherent.writeRaw_slice (hc : c.Coherent F) (off n : ℕ) :
    (c.writeRaw off (F.slice off n)).Coherent F := by
  intro j hj hbj
  rw [bit_writeRaw] at hbj
  rw [raw_writeRaw]
  exact (hc j hj hbj).write (.refl _ _)

/-- A chunk into which the whole of its content was written holds the content. -/
theorem agreeOn_writeRaw_chunk {idx : ℕ} (hidx : chunkStart idx < size) :
    (c.writeRaw (chunkStart idx) (F.slice (chunkStart idx) (chunkEnd size idx - chunkStart idx))
      ).raw.AgreeOn F (chunkStart idx) (chunkEnd size idx) := by
  have hle := (chunkStart_lt_chunkEnd hidx).le
  have hend := chunkEnd_le size idx
  rw [raw_writeRaw]
  have hag := ByteFile.agreeOn_write_slice (f := c.raw) (g := F)
    (show chunkStart idx + (chunkEnd size idx - chunkStart idx) ≤ c.raw.len by
      rw [c.raw_len]
      omega)
  rwa [Nat.add_sub_cancel' hle] at hag

/-- Marking a chunk that holds the content keeps the cache coherent. -/
theorem Coherent.setBit (hc : c.Coherent F) {idx : ℕ}
    (hraw : c.raw.AgreeOn F (chunkStart idx) (chunkEnd size idx))
    (hidx : chunkStart idx < size) : (c.setBit idx).Coherent F := by
  intro j hj hbj
  rw [bit_setBit c hidx, Bool.or_eq_true, decide_eq_true_eq] at hbj
  obtain hbj | rfl := hbj
  · exact hc j hj hbj
  · exact hraw

theorem Coherent.clearBit (hc : c.Coherent F) (idx : ℕ) : (c.clearBit idx).Coherent F := by
  intro j hj hbj
  rw [bit_clearBit, Bool.and_eq_true] at hbj
  exact hc j hj hbj.1

/-- Punching a chunk leaves the other chunks alone. -/
theorem agreeOn_punch_chunk {f : ByteFile} {i j : ℕ}
    (h : f.AgreeOn F (chunkStart j) (chunkEnd size j)) (hne : j ≠ i) :
    (f.punch (chunkStart i) chunkSize).AgreeOn F (chunkStart j) (chunkEnd size j) := by
  refine h.punch ?_
  rcases Nat.lt_or_gt_of_ne hne with hlt | hlt
  · exact Or.inl (chunkEnd_le_chunkStart size hlt)
  · refine Or.inr ?_
    simp only [chunkStart, chunkSize]
    omega

/-- Punching a chunk whose bit is clear keeps the cache coherent. -/
theorem Coherent.punchHole (hc : c.Coherent F) {idx : ℕ} (hbit : c.bit idx = false) :
    (c.punchHole idx).Coherent F := by
  intro j hj hbj
  rw [bit_punchHole] at hbj
  have hne : j ≠ idx := by
    rintro rfl
    simp [hbit] at hbj
  rw [raw_punchHole]
  exact agreeOn_punch_chunk (hc j hj hbj) hne

/-- The bytes of a range are those of the content once the chunks of its positions are cached. -/
theorem Coherent.slice_eq (hc : c.Coherent F) {off len : ℕ} (hsize : off + len ≤ size)
    (hbits : ∀ p, off ≤ p → p < off + len → c.bit (p / chunkSize) = true) :
    c.raw.slice off len = F.slice off len := by
  rw [ByteFile.slice_eq_slice_iff]
  intro p hp hp'
  obtain ⟨h1, h2⟩ := mem_chunk (show p < size by omega)
  exact hc _ (by omega) (hbits p hp hp') p h1 h2

/-- A fetch of some bytes succeeds inside the image only. -/
theorem off_lt_of_fetch {ω : Type} {B : Backend ω} {w w' : ω} {c c' : Cache B.size} {off n : ℕ}
    {bytes : List UInt8} (h : fetch B w c off n = (.ok bytes, c', w')) (hn : n ≠ 0) :
    off < B.size := by
  by_contra hoff
  have hfix : fixRange B.size off n = .error .invalidRange := if_pos (by omega)
  simp [fetch, readAt, hn, hfix] at h

/-- A fetch that succeeds returns the whole of its range cut at the end of the image. -/
theorem length_of_fetch {ω : Type} {B : Backend ω} {w w' : ω} {c c' : Cache B.size} {off n : ℕ}
    {bytes : List UInt8} (h : fetch B w c off n = (.ok bytes, c', w')) :
    bytes.length = min n (B.size - off) := by
  unfold fetch at h
  rcases hr : readAt B w c off n with ⟨r, c₁, w₁⟩
  rw [hr] at h
  cases r with
  | error e => simp at h
  | ok bytes' =>
    simp only [Prod.mk.injEq, Except.ok.injEq] at h
    obtain ⟨rfl, -, -⟩ := h
    unfold readAt at hr
    split_ifs at hr with h0
    · simp only [Prod.mk.injEq, Except.ok.injEq] at hr
      rw [← hr.1, h0, Nat.zero_min, List.length_nil]
    · cases hfix : fixRange B.size off n with
      | error e => simp [hfix] at hr
      | ok range =>
        obtain ⟨off', stop⟩ := range
        obtain ⟨rfl, hoff, rfl⟩ := fixRange_ok hfix
        rcases hf : fetchData B w c off' (min (off' + n) B.size - off') with ⟨r', c₂, w₂⟩
        rw [hfix] at hr
        simp only [hf] at hr
        cases r' with
        | error e => simp at hr
        | ok u =>
          simp only [Prod.mk.injEq, Except.ok.injEq] at hr
          rw [← hr.1, ByteFile.length_slice]
          omega

/-- Invalidation keeps the cache coherent, however its system calls end. -/
theorem invalidateChunk_coherent (hc : c.Coherent F) (io : PunchIo) (idx : ℕ) :
    (invalidateChunk io c idx).2.Coherent F := by
  unfold invalidateChunk
  split_ifs
  · exact hc
  · exact hc
  · cases io with
    | ok => exact (hc.clearBit idx).punchHole (by simp)
    | syncError e => exact hc.clearBit idx
    | punchError e => exact hc.clearBit idx

/-- A byte survives an invalidation unless it lies in the chunk, whose bit then was set; the byte
is zero then. -/
theorem byte_invalidateChunk (io : PunchIo) (c : Cache size) (idx p : ℕ) :
    (invalidateChunk io c idx).2.raw.byte p = c.raw.byte p ∨
      ((chunkStart idx ≤ p ∧ p < chunkStart idx + chunkSize) ∧
        (invalidateChunk io c idx).2.raw.byte p = 0) := by
  unfold invalidateChunk
  split_ifs
  · exact Or.inl rfl
  · exact Or.inl rfl
  · cases io with
    | ok =>
      by_cases hp : chunkStart idx ≤ p ∧ p < chunkStart idx + chunkSize
      · exact Or.inr ⟨hp, by simp [ByteFile.byte_punch, hp]⟩
      · exact Or.inl (by simp [ByteFile.byte_punch, hp])
    | syncError e => exact Or.inl rfl
    | punchError e => exact Or.inl rfl

/-! ### Reads of cached chunks -/

theorem fetchChunks_cached {c : Cache B.size} {w : ω} {ids : List ℕ}
    (hbits : ∀ idx ∈ ids, c.bit idx = true) : fetchChunks B w c ids = (.ok (), c, w) := by
  induction ids with
  | nil => rfl
  | cons idx rest ih =>
    have hidx : fetchChunk B w c idx = (.ok (), c, w) := by
      rw [fetchChunk, if_pos (hbits idx List.mem_cons_self)]
    simp only [fetchChunks, hidx]
    exact ih fun i hi => hbits i (List.mem_cons_of_mem _ hi)

/-- A read whose chunks are all marked never asks the backend. -/
theorem readAt_cached {c : Cache B.size} {w : ω} {off n : ℕ} (hoff : off < B.size) (hn : n ≠ 0)
    (hbits : ∀ idx ∈ chunkIds off (min n (B.size - off)), c.bit idx = true) :
    readAt B w c off n = (.ok (c.raw.slice off (min n (B.size - off))), c, w) := by
  have hfix : fixRange B.size off n = .ok (off, off + min n (B.size - off)) := by
    rw [fixRange, if_neg (by omega)]
    congr 2
    split_ifs <;> omega
  have hfetch : fetchData B w c off (min n (B.size - off)) = (.ok (), c, w) := by
    rw [fetchData, if_neg (by omega), fetchChunks_cached B hbits]
  simp only [readAt, if_neg hn, hfix, Nat.add_sub_cancel_left, hfetch]

/-! ### Reads over an immutable backend -/

section Immutable

variable {B} {c : Cache B.size} (hB : B.Immutable F)

include hB

/-- A chunk fetch keeps the cache coherent, clears no bit, and on success leaves the bit set. -/
theorem fetchChunk_spec (hc : c.Coherent F) {w : ω} {idx : ℕ} (hidx : chunkStart idx < B.size) :
    (fetchChunk B w c idx).2.1.Coherent F ∧
    (∀ j, c.bit j = true → (fetchChunk B w c idx).2.1.bit j = true) ∧
    ((fetchChunk B w c idx).1 = .ok () → (fetchChunk B w c idx).2.1.bit idx = true) := by
  have hle := chunkStart_lt_chunkEnd hidx
  have hend := chunkEnd_le B.size idx
  cases hbit : c.bit idx with
  | true => simpa [fetchChunk, hbit] using hc
  | false =>
    let buf := c.raw.slice (chunkStart idx) (chunkEnd B.size idx - chunkStart idx)
    have hlen : buf.length = chunkEnd B.size idx - chunkStart idx := ByteFile.length_slice ..
    have hbuf := B.length_fetch w (chunkStart idx) buf
    have hok := hB.fetch_ok w (chunkStart idx) buf
    rcases hf : B.fetch w (chunkStart idx) buf with ⟨⟨r, buf'⟩, w'⟩
    rw [hf] at hbuf hok
    cases r with
    | error e =>
      simp only [fetchChunk, hbit, Bool.false_eq_true, if_false, buf, hf]
      refine ⟨hc.writeRaw hbit ?_, fun j hj => hj, fun h => by cases h⟩
      simp only at hbuf
      omega
    | ok n =>
      simp only [fetchChunk, hbit, Bool.false_eq_true, if_false, buf, hf]
      obtain ⟨-, hfill⟩ := hok n (by omega) rfl
      simp only at hfill
      have hag : (c.writeRaw (chunkStart idx) buf').raw.AgreeOn F (chunkStart idx)
          (chunkEnd B.size idx) := by
        rw [hfill, hlen]
        exact agreeOn_writeRaw_chunk hidx
      have hcoh : (c.writeRaw (chunkStart idx) buf').Coherent F := by
        refine hc.writeRaw hbit ?_
        simp only at hbuf
        omega
      refine ⟨hcoh.setBit hag hidx, fun j hj => ?_, fun _ => ?_⟩
      · rw [bit_setBit _ hidx]
        simp [hj]
      · rw [bit_setBit _ hidx]
        simp

theorem fetchChunks_spec {w : ω} (hc : c.Coherent F) {ids : List ℕ}
    (hids : ∀ idx ∈ ids, chunkStart idx < B.size) :
    (fetchChunks B w c ids).2.1.Coherent F ∧
    (∀ j, c.bit j = true → (fetchChunks B w c ids).2.1.bit j = true) ∧
    ((fetchChunks B w c ids).1 = .ok () →
      ∀ idx ∈ ids, (fetchChunks B w c ids).2.1.bit idx = true) := by
  induction ids generalizing w c with
  | nil => exact ⟨hc, fun _ hj => hj, by simp⟩
  | cons idx rest ih =>
    obtain ⟨h1, h2, h3⟩ := fetchChunk_spec hB hc (w := w) (hids idx List.mem_cons_self)
    rcases hf : fetchChunk B w c idx with ⟨r, c', w'⟩
    rw [hf] at h1 h2 h3
    cases r with
    | error e =>
      simp only [fetchChunks, hf]
      exact ⟨h1, h2, fun h => by cases h⟩
    | ok u =>
      simp only [fetchChunks, hf]
      obtain ⟨k1, k2, k3⟩ := ih (w := w') h1 fun i hi => hids i (List.mem_cons_of_mem _ hi)
      refine ⟨k1, fun j hj => k2 j (h2 j hj), fun h i hi => ?_⟩
      rcases List.mem_cons.mp hi with rfl | hi
      · exact k2 _ (h3 rfl)
      · exact k3 h i hi

theorem fetchData_spec {w : ω} (hc : c.Coherent F) {off len : ℕ} (hlen : off + len ≤ B.size) :
    (fetchData B w c off len).2.1.Coherent F ∧
    ((fetchData B w c off len).1 = .ok () →
      (fetchData B w c off len).2.1.raw.slice off len = F.slice off len) := by
  unfold fetchData
  split_ifs with h0
  · subst h0
    exact ⟨hc, fun _ => rfl⟩
  · have hids : ∀ idx ∈ chunkIds off len, chunkStart idx < B.size :=
      fun idx h => chunkStart_lt_of_mem_chunkIds (by omega) hlen h
    obtain ⟨h1, -, h3⟩ := fetchChunks_spec hB hc (w := w) hids
    exact ⟨h1, fun h => h1.slice_eq hlen fun p hp hp' => h3 h _ (div_mem_chunkIds hp hp')⟩

/-- Over an immutable backend a read keeps the cache coherent, and if it succeeds it delivers the
content of the range cut at the end of the image. -/
theorem readAt_spec {w : ω} (hc : c.Coherent F) (off n : ℕ) :
    (readAt B w c off n).2.1.Coherent F ∧
    ∀ bytes, (readAt B w c off n).1 = .ok bytes → bytes = F.slice off (min n (B.size - off)) := by
  unfold readAt
  split_ifs with h0
  · subst h0
    exact ⟨hc, by simp⟩
  · cases hfix : fixRange B.size off n with
    | error e => exact ⟨hc, fun _ h => by cases h⟩
    | ok range =>
      obtain ⟨off', stop⟩ := range
      obtain ⟨rfl, hoff, rfl⟩ := fixRange_ok hfix
      have hlen : min (off' + n) B.size - off' = min n (B.size - off') := by omega
      obtain ⟨h1, h2⟩ := fetchData_spec hB hc (w := w)
        (show off' + (min (off' + n) B.size - off') ≤ B.size by omega)
      rcases hf : fetchData B w c off' (min (off' + n) B.size - off') with ⟨r, c', w'⟩
      rw [hf] at h1 h2
      cases r with
      | error e => exact ⟨by simpa [hf] using h1, fun _ h => by simp [hf] at h⟩
      | ok u =>
        refine ⟨by simpa [hf] using h1, fun bytes h => ?_⟩
        simp only [hf, Except.ok.injEq] at h
        rw [← h, ← hlen]
        exact h2 rfl

theorem fetch_spec {w : ω} (hc : c.Coherent F) (off n : ℕ) :
    (fetch B w c off n).2.1.Coherent F ∧
    ∀ bytes, (fetch B w c off n).1 = .ok bytes → bytes = F.slice off (min n (B.size - off)) := by
  obtain ⟨h1, h2⟩ := readAt_spec hB hc (w := w) off n
  unfold fetch
  rcases hf : readAt B w c off n with ⟨r, c', w'⟩
  rw [hf] at h1 h2
  cases r with
  | error e => exact ⟨h1, fun _ h => by cases h⟩
  | ok bytes => exact ⟨h1, fun _ h => h2 _ (by simpa using h)⟩

/-- The same for a writer: the slice it is offered is the content of the cut range. -/
theorem writeToFuseWriter_spec {w : ω} (hc : c.Coherent F) {off n : ℕ} {wr : Writer}
    {out : List UInt8} :
    (writeToFuseWriter B w c off n wr out).2.1.Coherent F ∧
    ∀ k, (writeToFuseWriter B w c off n wr out).1.1 = .ok k →
      (writeToFuseWriter B w c off n wr out).1 =
        wr.write out (F.slice off (min n (B.size - off))) := by
  unfold writeToFuseWriter
  cases hfix : fixRange B.size off n with
  | error e => exact ⟨hc, fun _ h => by cases h⟩
  | ok range =>
    obtain ⟨off', stop⟩ := range
    obtain ⟨rfl, hoff, rfl⟩ := fixRange_ok hfix
    have hlen : min (off' + n) B.size - off' = min n (B.size - off') := by omega
    obtain ⟨h1, h2⟩ := fetchData_spec hB hc (w := w)
      (show off' + (min (off' + n) B.size - off') ≤ B.size by omega)
    rcases hf : fetchData B w c off' (min (off' + n) B.size - off') with ⟨r, c', w'⟩
    rw [hf] at h1 h2
    cases r with
    | error e => exact ⟨by simpa [hf] using h1, fun _ h => by simp [hf] at h⟩
    | ok u =>
      refine ⟨by simpa [hf] using h1, fun k _ => ?_⟩
      simp only [hf]
      rw [← hlen]
      exact congrArg (wr.write out) (h2 rfl)

end Immutable

/-! ### Reads over a local raw file -/

section Empty

variable (c : Cache size)

theorem fetchChunk_empty (c : Cache (Backend.empty size).size) (idx : ℕ) :
    (fetchChunk (.empty size) () c idx).1 = .ok () ∧
      (fetchChunk (.empty size) () c idx).2.1.raw = c.raw := by
  unfold fetchChunk
  split_ifs with hbit
  · exact ⟨rfl, rfl⟩
  · refine ⟨rfl, ?_⟩
    change ((c.writeRaw _ (c.raw.slice _ _)).setBit idx).raw = c.raw
    rw [raw_setBit, writeRaw_slice_self]

theorem fetchChunks_empty (ids : List ℕ) (c : Cache (Backend.empty size).size) :
    (fetchChunks (.empty size) () c ids).1 = .ok () ∧
      (fetchChunks (.empty size) () c ids).2.1.raw = c.raw := by
  induction ids generalizing c with
  | nil => exact ⟨rfl, rfl⟩
  | cons idx rest ih =>
    obtain ⟨h1, h2⟩ := fetchChunk_empty c idx
    rcases hf : fetchChunk (.empty size) () c idx with ⟨r, c', w'⟩
    rw [hf] at h1 h2
    simp only at h1 h2
    subst h1
    simpa only [fetchChunks, hf, h2] using ih c'

theorem fetchData_empty (c : Cache (Backend.empty size).size) (off len : ℕ) :
    (fetchData (.empty size) () c off len).1 = .ok () ∧
      (fetchData (.empty size) () c off len).2.1.raw = c.raw := by
  unfold fetchData
  split_ifs
  · exact ⟨rfl, rfl⟩
  · exact fetchChunks_empty _ c

/-- Over a local raw file a read inside the image succeeds with the bytes of the file, which it
leaves alone. -/
theorem readAt_empty (c : Cache (Backend.empty size).size) {off n : ℕ} (hoff : off < size) :
    (readAt (.empty size) () c off n).1 = .ok (c.raw.slice off (min n (size - off))) ∧
      (readAt (.empty size) () c off n).2.1.raw = c.raw := by
  unfold readAt
  split_ifs with h0
  · subst h0
    exact ⟨by simp, rfl⟩
  · have hfix : fixRange (Backend.empty size).size off n = .ok (off, min (off + n) size) := by
      have hs : (Backend.empty size).size = size := rfl
      rw [fixRange, hs, if_neg (by omega)]
      congr 2
      split_ifs <;> omega
    have hlen : min (off + n) size - off = min n (size - off) := by omega
    obtain ⟨h1, h2⟩ := fetchData_empty c off (min (off + n) size - off)
    rcases hf : fetchData (.empty size) () c off (min (off + n) size - off) with ⟨r, c', w'⟩
    rw [hf] at h1 h2
    simp only at h1 h2
    subst h1
    simp only [hfix, hf]
    exact ⟨by rw [h2, hlen], h2⟩

theorem fetch_empty (c : Cache (Backend.empty size).size) {off n : ℕ} (hoff : off < size) :
    (fetch (.empty size) () c off n).1 = .ok (c.raw.slice off (min n (size - off))) := by
  obtain ⟨h, -⟩ := readAt_empty c (n := n) hoff
  unfold fetch
  rcases hr : readAt (.empty size) () c off n with ⟨r, c', w'⟩
  rw [hr] at h
  subst h
  rfl

/-- No read changes a local raw file. -/
theorem raw_readAt_empty (c : Cache (Backend.empty size).size) (off n : ℕ) :
    (readAt (.empty size) () c off n).2.1.raw = c.raw := by
  unfold readAt
  split_ifs
  · rfl
  · cases hfix : fixRange (Backend.empty size).size off n with
    | error e => rfl
    | ok range =>
      obtain ⟨h1, h2⟩ := fetchData_empty c range.1 (range.2 - range.1)
      rcases hf : fetchData (.empty size) () c range.1 (range.2 - range.1) with ⟨r, c', w'⟩
      rw [hf] at h1 h2
      simp only at h1 h2
      subst h1
      simpa only [hf] using h2

theorem raw_fetch_empty (c : Cache (Backend.empty size).size) (off n : ℕ) :
    (fetch (.empty size) () c off n).2.1.raw = c.raw := by
  have h := raw_readAt_empty c off n
  unfold fetch
  rcases hr : readAt (.empty size) () c off n with ⟨r, c', w'⟩
  rw [hr] at h
  cases r <;> exact h

theorem raw_writeToFuseWriter_empty (c : Cache (Backend.empty size).size) (off n : ℕ) (wr : Writer)
    (out : List UInt8) :
    (writeToFuseWriter (.empty size) () c off n wr out).2.1.raw = c.raw := by
  unfold writeToFuseWriter
  cases hfix : fixRange (Backend.empty size).size off n with
  | error e => rfl
  | ok range =>
    obtain ⟨h1, h2⟩ := fetchData_empty c range.1 (range.2 - range.1)
    rcases hf : fetchData (.empty size) () c range.1 (range.2 - range.1) with ⟨r, c', w'⟩
    rw [hf] at h1 h2
    simp only at h1 h2
    subst h1
    simpa only [hf] using h2

end Empty

/-! ### Marks -/

section Marks

variable {ω : Type} {B : Backend ω} {F : ByteFile} {c : Cache B.size} {w : ω} {off n : ℕ}

/-- The marks that a cache holds, of chunks inside the image. -/
def marked {size : ℕ} (c : Cache size) : Set ℕ := {idx | chunkStart idx < size ∧ c.bit idx = true}

theorem marked_subset {c' : Cache B.size} (h : ∀ j, c.bit j = true → c'.bit j = true) :
    c.marked ⊆ c'.marked :=
  fun idx hidx => ⟨hidx.1, h idx hidx.2⟩

/-- Opening the files of a cache again finds the same bytes and marks. -/
theorem new_again {size pageSize : ℕ} {c c' : Cache size}
    (h : new pageSize size (some c.raw) (some c.bitmap) = .ok c') :
    c'.raw = c.raw ∧ c'.marked = c.marked := by
  obtain ⟨hraw, hbits⟩ := new_ok h
  refine ⟨?_, Set.ext fun idx => and_congr_right fun hidx => ?_⟩
  · rw [hraw, Option.getD_some]
    exact (congrArg c.raw.setLen c.raw_len.symm).trans c.raw.setLen_len
  · rw [hbits idx hidx, Option.getD_some]
    rfl

theorem Coherent.reopen {size pageSize : ℕ} {c c' : Cache size} (hc : c.Coherent F)
    (h : new pageSize size (some c.raw) (some c.bitmap) = .ok c') : c'.Coherent F := by
  obtain ⟨hraw, hmarked⟩ := new_again h
  intro idx hidx hbit
  rw [hraw]
  exact hc idx hidx (hmarked.subset ⟨hidx, hbit⟩).2

/-- A fetch does what the read does. -/
theorem fetch_eq_readAt (w : ω) (c : Cache B.size) (off n : ℕ) :
    (fetch B w c off n).2 = (readAt B w c off n).2 ∧
    ∀ bytes, (fetch B w c off n).1 = .ok bytes ↔ (readAt B w c off n).1 = .ok bytes := by
  unfold fetch
  rcases readAt B w c off n with ⟨e | bytes', c', w'⟩
  · exact ⟨rfl, fun _ => ⟨fun h => (by cases h), fun h => (by cases h)⟩⟩
  · refine ⟨rfl, fun _ => ⟨fun h => ?_, fun h => ?_⟩⟩
    · rw [Except.ok.inj h]
    · rw [Except.ok.inj h]

variable (hB : B.Immutable F) (hc : c.Coherent F)

include hB hc

/-- A fetch clears no mark, and one that succeeds leaves the chunks of its range marked. -/
theorem marked_fetch : c.marked ⊆ (fetch B w c off n).2.1.marked ∧
    ∀ bytes, (fetch B w c off n).1 = .ok bytes →
      n = 0 ∨ off < B.size ∧
        ∀ idx ∈ chunkIds off (min n (B.size - off)), (fetch B w c off n).2.1.bit idx = true := by
  obtain ⟨hstate, hok⟩ := fetch_eq_readAt w c off n
  rw [hstate]
  simp only [hok]
  unfold readAt
  split_ifs with hn
  · exact ⟨subset_rfl, fun _ _ => .inl hn⟩
  cases hfix : fixRange B.size off n with
  | error e => exact ⟨subset_rfl, fun _ h => (by cases h)⟩
  | ok range =>
    obtain ⟨off', stop⟩ := range
    obtain ⟨rfl, hoff, rfl⟩ := fixRange_ok hfix
    have hlen : min (off' + n) B.size - off' = min n (B.size - off') := by omega
    have hids : ∀ idx ∈ chunkIds off' (min n (B.size - off')), chunkStart idx < B.size :=
      fun idx h => chunkStart_lt_of_mem_chunkIds (by omega) (by omega) h
    obtain ⟨-, hkeep, hset⟩ := fetchChunks_spec hB hc (w := w) hids
    have hdata : fetchData B w c off' (min (off' + n) B.size - off') =
        fetchChunks B w c (chunkIds off' (min n (B.size - off'))) := by
      rw [hlen, fetchData, if_neg (by omega)]
    simp only [hdata]
    rcases hf : fetchChunks B w c (chunkIds off' (min n (B.size - off'))) with ⟨e | u, c', w'⟩
    · rw [hf] at hkeep
      exact ⟨marked_subset hkeep, fun _ h => (by cases h)⟩
    · rw [hf] at hkeep hset
      exact ⟨marked_subset hkeep, fun _ _ => .inr ⟨hoff, hset rfl⟩⟩

/-- A fetch that succeeded can be repeated without the backend, on every cache that has its chunks.
-/
theorem fetch_again {bytes : List UInt8} (hok : (fetch B w c off n).1 = .ok bytes)
    {c' : Cache B.size} (hc' : c'.Coherent F)
    (hmarked : (fetch B w c off n).2.1.marked ⊆ c'.marked) (w' : ω) :
    fetch B w' c' off n = (.ok bytes, c', w') := by
  have hbytes := (fetch_spec hB hc (w := w) off n).2 bytes hok
  by_cases hn : n = 0
  · rw [hbytes, hn, Nat.zero_min, F.slice_zero]
    rfl
  obtain ⟨hoff, hbits⟩ := ((marked_fetch hB hc).2 bytes hok).resolve_left hn
  have hread := readAt_cached B (w := w') hoff hn fun idx hidx =>
    (hmarked ⟨chunkStart_lt_of_mem_chunkIds (by omega) (by omega) hidx, hbits idx hidx⟩).2
  have hfetch : fetch B w' c' off n =
      (.ok (c'.raw.slice off (min n (B.size - off))), c', w') := by
    rw [fetch, hread]
  have hbytes' := (fetch_spec hB hc' (w := w') off n).2 _ (congrArg Prod.fst hfetch)
  rw [hfetch, hbytes', hbytes]

end Marks

end Cache

end DistillFs
