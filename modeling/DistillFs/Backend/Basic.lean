import DistillFs.Foundation.ByteFile

/-!
# Backends, errors and the chunk grid

Every layer of the read path cuts an image into chunks of `chunkSize` bytes, the last one being
shorter when the size is not a multiple. This file has the grid, the errors that the backend
traits return, and the trait `Backend` itself.

A `Backend` answers a fetch into a buffer with a byte count or an error and with the buffer as it
is afterwards; whatever decides the answer (a network, a disk, failures) is the hidden state `ω`
that it threads from one call to the next. `Backend.Immutable` is the assumption most results
make: the content never changes and a fetch fails or fills the whole buffer.

## Main definitions

* `chunkSize`, `alignUp`, `nrChunks`, `chunkStart`, `chunkEnd`.
* `ErrorKind`, `IoError`, `newStdIoError`.
* `Backend`, `Backend.empty`, `Backend.serve`, `Backend.Immutable`.
* `Writer`: how a zero-copy writer answers the slices it is offered.
-/

namespace DistillFs

open Foundation

/-! ### The chunk grid -/

/-- The chunk size of the cache and dedup layers, 4 MiB. It is irreducible so that comparing two
terms never counts down from it. -/
@[irreducible] def chunkSize : ℕ := 4 * 1024 * 1024

theorem chunkSize_pos : 0 < chunkSize := by
  rw [chunkSize]
  decide

/-- `v` rounded up to a multiple of `align`. -/
def alignUp (v align : ℕ) : ℕ := (v + (align - 1)) / align * align

/-- The number of chunks of an image of `size` bytes. -/
def nrChunks (size : ℕ) : ℕ := alignUp size chunkSize / chunkSize

/-- The offset at which chunk `idx` starts. -/
def chunkStart (idx : ℕ) : ℕ := idx * chunkSize

/-- The offset at which chunk `idx` ends in an image of `size` bytes. -/
def chunkEnd (size idx : ℕ) : ℕ :=
  if (idx + 1) * chunkSize ≤ size then (idx + 1) * chunkSize else size

theorem chunkEnd_eq_min (size idx : ℕ) : chunkEnd size idx = min ((idx + 1) * chunkSize) size := by
  rw [chunkEnd]
  split_ifs with h
  · exact (Nat.min_eq_left h).symm
  · exact (Nat.min_eq_right (by omega)).symm

theorem idx_lt_nrChunks_iff {size idx : ℕ} : idx < nrChunks size ↔ chunkStart idx < size := by
  simp only [nrChunks, alignUp, chunkStart, chunkSize]
  omega

theorem chunkStart_lt_chunkEnd {size idx : ℕ} (h : chunkStart idx < size) :
    chunkStart idx < chunkEnd size idx := by
  simp only [chunkStart, chunkEnd_eq_min, chunkSize] at *
  omega

theorem chunkEnd_le (size idx : ℕ) : chunkEnd size idx ≤ size := by
  rw [chunkEnd_eq_min]
  exact Nat.min_le_right _ _

/-- A position of the image lies in its chunk. -/
theorem mem_chunk {size p : ℕ} (h : p < size) :
    chunkStart (p / chunkSize) ≤ p ∧ p < chunkEnd size (p / chunkSize) := by
  simp only [chunkStart, chunkEnd_eq_min, chunkSize] at *
  omega

/-- The positions of a chunk determine it. -/
theorem div_eq_of_mem_chunk {size idx p : ℕ} (h : chunkStart idx ≤ p) (h' : p < chunkEnd size idx) :
    p / chunkSize = idx := by
  simp only [chunkStart, chunkEnd_eq_min, chunkSize] at *
  omega

/-- Chunks follow one another. -/
theorem chunkEnd_le_chunkStart (size : ℕ) {i j : ℕ} (h : i < j) :
    chunkEnd size i ≤ chunkStart j := by
  simp only [chunkStart, chunkEnd_eq_min, chunkSize] at *
  omega

/-! ### Errors -/

/-- The error kinds that the modelled code constructs. -/
inductive ErrorKind
  | invalidInput
  | invalidData
  | unexpectedEof
  | unsupported
  | notFound
  | isADirectory
  | brokenPipe
  | timedOut
  | other
  deriving DecidableEq, Repr

/-- An I/O error: its kind and its message. -/
structure IoError where
  kind : ErrorKind
  msg : String
  deriving DecidableEq, Repr

/-- Any displayable error as an I/O error of kind `other`. -/
def newStdIoError (text : String) : IoError := ⟨.other, text⟩

/-! ### Backends -/

/-- A backend of `size` bytes. A fetch at an offset into a buffer answers with a count or an error
and leaves the buffer in some state; the hidden state `ω` carries what decides the answers. -/
structure Backend (ω : Type) where
  /-- The size of the content. -/
  size : ℕ
  /-- A fetch at an offset into a buffer. -/
  fetch : ω → ℕ → List UInt8 → (Except IoError ℕ × List UInt8) × ω
  /-- A fetch cannot change the length of the buffer. -/
  length_fetch : ∀ w off buf, (fetch w off buf).1.2.length = buf.length

/-- The backend behind a local raw file: it reports the whole buffer as filled and leaves the
buffer alone. -/
def Backend.empty (size : ℕ) : Backend Unit where
  size := size
  fetch w _ buf := ((.ok buf.length, buf), w)
  length_fetch _ _ _ := rfl

/-- The backend that serves a content and never fails. -/
def Backend.serve (F : ByteFile) : Backend Unit where
  size := F.len
  fetch w off buf := ((.ok buf.length, F.slice off buf.length), w)
  length_fetch _ _ _ := ByteFile.length_slice ..

/-- The content `F` never changes, and a fetch inside it fails or fills the whole buffer. -/
structure Backend.Immutable {ω : Type} (B : Backend ω) (F : ByteFile) : Prop where
  /-- The backend has the size of the content. -/
  size_eq : B.size = F.len
  /-- A fetch that succeeds filled the buffer with the content. -/
  fetch_ok : ∀ w off buf n, off + buf.length ≤ B.size → (B.fetch w off buf).1.1 = .ok n →
    n = buf.length ∧ (B.fetch w off buf).1.2 = F.slice off buf.length

theorem Backend.immutable_serve (F : ByteFile) : (Backend.serve F).Immutable F :=
  ⟨rfl, fun _ _ _ _ _ h => ⟨(Except.ok.inj h).symm, rfl⟩⟩

/-! ### Writers -/

/-- How a zero-copy writer answers: what was written so far and the slice it is offered decide the
number of bytes it accepts, or the error. -/
structure Writer where
  /-- The number of bytes accepted. -/
  accept : List UInt8 → List UInt8 → Except IoError ℕ

/-- A writer that accepts whole slices. -/
def Writer.Whole (w : Writer) : Prop := ∀ out data, w.accept out data = .ok data.length

/-- Offer `data` to a writer that holds `out`: the count it reports and what it holds next. -/
def Writer.write (w : Writer) (out data : List UInt8) : Except IoError ℕ × List UInt8 :=
  match w.accept out data with
  | .ok n => (.ok n, out ++ data.take n)
  | .error e => (.error e, out)

theorem Writer.Whole.write {w : Writer} (hw : w.Whole) (out data : List UInt8) :
    w.write out data = (.ok data.length, out ++ data) := by
  simp [Writer.write, hw out data]

end DistillFs
