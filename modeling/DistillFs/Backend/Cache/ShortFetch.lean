import DistillFs.Backend.Cache.Basic
import DistillFs.Foundation.Transition

/-!
# Backends with short counts

A fetch from a backend answers with the number of bytes it has filled. The cache takes any such
answer for the whole chunk: it marks the chunk although its rest still holds what was in the raw
file before. Reads are right as long as every fetch that succeeds fills its buffer. In such runs the
backend cannot be told from the one that turns short counts into errors, and over that one reads are
right in any run.

## Main definitions

* `Backend.FillsPrefix`: a backend that may fill less than the buffer.
* `Backend.strict`: the same backend without short counts.
* `Cache.reads`, `Cache.Delivered`.

## Main results

* `Cache.readAt_strict`, `Cache.reads_delivered`.
-/

namespace DistillFs

open Foundation

variable {ω : Type}

/-- The content `F` never changes. A fetch that succeeds has filled the first bytes of the buffer,
as many as it says, and left the others alone. -/
structure Backend.FillsPrefix (B : Backend ω) (F : ByteFile) : Prop where
  size_eq : B.size = F.len
  fetch_ok : ∀ w off buf n, off + buf.length ≤ B.size → (B.fetch w off buf).1.1 = .ok n →
    n ≤ buf.length ∧ (B.fetch w off buf).1.2 = F.slice off n ++ buf.drop n

/-- The backend that fails where `B` fills less than the buffer. -/
def Backend.strict (B : Backend ω) : Backend ω where
  size := B.size
  fetch w off buf :=
    match B.fetch w off buf with
    | ((.ok n, buf'), w') =>
      ((if n = buf.length then .ok n else .error ⟨.unexpectedEof, "short read"⟩, buf'), w')
    | ((.error e, buf'), w') => ((.error e, buf'), w')
  length_fetch w off buf := by
    have hlen := B.length_fetch w off buf
    rcases h : B.fetch w off buf with ⟨⟨_ | _, buf'⟩, w'⟩ <;> rw [h] at hlen <;> exact hlen

theorem Backend.FillsPrefix.immutable_strict {B : Backend ω} {F : ByteFile} (hB : B.FillsPrefix F) :
    B.strict.Immutable F where
  size_eq := hB.size_eq
  fetch_ok w off buf n hlen h := by
    have hfill := hB.fetch_ok w off buf
    rcases hf : B.fetch w off buf with ⟨⟨r, buf'⟩, w'⟩
    simp only [strict, hf] at h hfill ⊢
    cases r with
    | error e => cases h
    | ok k =>
      simp only at h
      split_ifs at h with hk
      obtain rfl := Except.ok.inj h
      obtain ⟨-, hbuf⟩ := hfill k hlen rfl
      refine ⟨hk, ?_⟩
      rw [hbuf, hk, List.drop_length, List.append_nil]

namespace Cache

variable (B : Backend ω)

/-- The fetches for the chunks `ids` that succeed fill their buffers. -/
def FetchesWhole (w : ω) (c : Cache B.size) : List ℕ → Prop
  | [] => True
  | idx :: rest =>
    (c.bit idx = false → ∀ n,
      (B.fetch w (chunkStart idx)
        (c.raw.slice (chunkStart idx) (chunkEnd B.size idx - chunkStart idx))).1.1 = .ok n →
      n = chunkEnd B.size idx - chunkStart idx) ∧
    ((fetchChunk B w c idx).1 = .ok () →
      FetchesWhole (fetchChunk B w c idx).2.2 (fetchChunk B w c idx).2.1 rest)

variable {B}

theorem fetchChunk_strict {w : ω} {c : Cache B.size} {idx : ℕ}
    (h : c.bit idx = false → ∀ n,
      (B.fetch w (chunkStart idx)
        (c.raw.slice (chunkStart idx) (chunkEnd B.size idx - chunkStart idx))).1.1 = .ok n →
      n = chunkEnd B.size idx - chunkStart idx) :
    fetchChunk B.strict w c idx = fetchChunk B w c idx := by
  refine ite_congr rfl (fun _ => rfl) fun hbit => ?_
  have hwhole := h (by simpa using hbit)
  simp only [Backend.strict]
  rcases hf : B.fetch w (chunkStart idx)
    (c.raw.slice (chunkStart idx) (chunkEnd B.size idx - chunkStart idx)) with ⟨⟨r, buf⟩, w'⟩
  rw [hf] at hwhole
  cases r with
  | error e => rfl
  | ok n =>
    dsimp only
    rw [ByteFile.length_slice, if_pos (hwhole n rfl)]

theorem fetchChunks_strict {w : ω} {c : Cache B.size} {ids : List ℕ}
    (h : FetchesWhole B w c ids) : fetchChunks B.strict w c ids = fetchChunks B w c ids := by
  induction ids generalizing w c with
  | nil => rfl
  | cons idx rest ih =>
    obtain ⟨hfirst, hrest⟩ := h
    have hidx := fetchChunk_strict hfirst
    rcases hf : fetchChunk B w c idx with ⟨r, c', w'⟩
    rw [hf] at hidx hrest
    cases r with
    | error e =>
      simp only [fetchChunks, hidx, hf]
      rfl
    | ok u =>
      simp only [fetchChunks, hidx, hf]
      exact ih (hrest rfl)

/-- A read whose fetches fill their buffers goes as over the strict backend. -/
theorem readAt_strict {w : ω} {c : Cache B.size} {off n : ℕ}
    (h : FetchesWhole B w c (chunkIds off (min n (B.size - off)))) :
    readAt B.strict w c off n = readAt B w c off n := by
  refine ite_congr rfl (fun _ => rfl) fun _ => ?_
  have hrange : fixRange B.strict.size off n = fixRange B.size off n := rfl
  cases hfix : fixRange B.size off n with
  | error e =>
    rw [hfix] at hrange
    simp only [hrange]
    rfl
  | ok range =>
    obtain ⟨off', stop⟩ := range
    obtain ⟨rfl, hoff, rfl⟩ := fixRange_ok hfix
    have hlen : min (off' + n) B.size - off' = min n (B.size - off') := by omega
    have hdata : fetchData B.strict w c off' (min n (B.size - off')) =
        fetchData B w c off' (min n (B.size - off')) :=
      ite_congr rfl (fun _ => rfl) fun _ => fetchChunks_strict h
    rw [hfix] at hrange
    simp only [hrange, hlen, hdata]
    rcases fetchData B w c off' (min n (B.size - off')) with ⟨_ | _, c', w'⟩ <;> rfl

/-! ### Runs of reads -/

/-- A cache between two reads, and the last read with its result. -/
structure Reading (B : Backend ω) where
  cache : Cache B.size
  hidden : ω
  last : Option (ℕ × ℕ × Except CacheError (List UInt8))

/-- One read after the other, of a cache whose marked chunks hold the content. -/
def reads (B : Backend ω) (F : ByteFile) : System (Reading B) (ℕ × ℕ) where
  init s := s.cache.Coherent F ∧ s.last = none
  step s call s' := ∃ res, readAt B s.hidden s.cache call.1 call.2 = (res, s'.cache, s'.hidden) ∧
    s'.last = some (call.1, call.2, res)

/-- The fetches of a read that succeed fill their buffers. -/
def Delivered (s : Reading B) (call : ℕ × ℕ) : Prop :=
  FetchesWhole B s.hidden s.cache (chunkIds call.1 (min call.2 (B.size - call.1)))

/-- **Reads over a backend with short counts.** In every run in which all fetches that succeed fill
their buffers, a chunk is marked only if it holds the bytes of the backend, and each read that
succeeds has returned the bytes of the backend. -/
theorem reads_delivered {F : ByteFile} (hB : B.FillsPrefix F) {s : Reading B}
    (hs : (reads B F).Reach Delivered s) :
    s.cache.Coherent F ∧ ∀ off n bytes, s.last = some (off, n, .ok bytes) →
      bytes = F.slice off (min n (F.len - off)) := by
  refine System.Reach.invariant (I := fun s : Reading B => s.cache.Coherent F ∧
    ∀ off n bytes, s.last = some (off, n, .ok bytes) → bytes = F.slice off (min n (F.len - off)))
    ?_ ?_ hs
  · rintro s ⟨hc, hlast⟩
    refine ⟨hc, fun off n bytes h => ?_⟩
    rw [hlast] at h
    cases h
  · rintro s ⟨off, n⟩ s' ⟨hc, -⟩ hwhole ⟨res, hread, hlast⟩
    obtain ⟨hc', hbytes⟩ := readAt_spec hB.immutable_strict (B := B.strict) hc (w := s.hidden) off n
    rw [readAt_strict hwhole, hread] at hc' hbytes
    refine ⟨hc', fun off' n' bytes h => ?_⟩
    rw [hlast] at h
    obtain ⟨rfl, rfl, rfl⟩ : off = off' ∧ n = n' ∧ res = .ok bytes := by simpa using h
    rw [← hB.size_eq]
    exact hbytes bytes rfl

/-! ### An image of one byte -/

theorem fillsPrefix_serve (F : ByteFile) : (Backend.serve F).FillsPrefix F where
  size_eq := rfl
  fetch_ok w off buf n _ h := by
    obtain rfl : buf.length = n := Except.ok.inj h
    exact ⟨le_rfl, by rw [List.drop_length, List.append_nil]; rfl⟩

theorem fetchesWhole_serve {F : ByteFile} (w : Unit) (c : Cache (Backend.serve F).size)
    (ids : List ℕ) : FetchesWhole (.serve F) w c ids := by
  induction ids generalizing w c with
  | nil => trivial
  | cons idx rest ih =>
    refine ⟨fun _ n h => ?_, fun _ => ih _ _⟩
    have hn := (Except.ok.inj h).symm
    rwa [ByteFile.length_slice] at hn

theorem fetchChunks_serve {F : ByteFile} (w : Unit) (c : Cache (Backend.serve F).size)
    (ids : List ℕ) : (fetchChunks (.serve F) w c ids).1 = .ok () := by
  induction ids generalizing w c with
  | nil => rfl
  | cons idx rest ih =>
    have hidx : (fetchChunk (.serve F) w c idx).1 = .ok () := by
      unfold fetchChunk
      split_ifs <;> rfl
    rcases hf : fetchChunk (.serve F) w c idx with ⟨r, c', w'⟩
    rw [hf] at hidx
    subst hidx
    simp only [fetchChunks, hf]
    exact ih w' c'

/-- The first read of a new cache over a backend that serves one byte. -/
theorem reads_delivered_run : ∃ s : Reading (.serve (.ofList [7])),
    s.last = some (0, 1, .ok [7]) ∧ s.cache.Coherent (.ofList [7]) := by
  let c : Cache (Backend.serve (.ofList [7])).size := fresh 4096 1
  obtain ⟨bytes, hbytes⟩ : ∃ bytes, (readAt (.serve (.ofList [7])) () c 0 1).1 = .ok bytes := by
    have hfix : fixRange (Backend.serve (.ofList [7])).size 0 1 = .ok (0, 1) := by decide
    have hdata : (fetchData (.serve (.ofList [7])) () c 0 (1 - 0)).1 = .ok () :=
      fetchChunks_serve () c _
    rcases hf : fetchData (.serve (.ofList [7])) () c 0 (1 - 0) with ⟨r, c', w'⟩
    rw [hf] at hdata
    subst hdata
    exact ⟨c'.raw.slice 0 1, by simp only [readAt, hfix, hf]; rfl⟩
  let s : Reading (.serve (.ofList [7])) := ⟨(readAt (.serve (.ofList [7])) () c 0 1).2.1, (),
    some (0, 1, .ok bytes)⟩
  have hs : (reads (.serve (.ofList [7])) (.ofList [7])).Reach Delivered s :=
    .step (a := (0, 1)) (.init (s := ⟨c, (), none⟩) ⟨fun idx _ hbit => ?_, rfl⟩)
      (fetchesWhole_serve _ _ _) ⟨.ok bytes, ?_, rfl⟩
  · obtain ⟨hc, hlast⟩ := reads_delivered (fillsPrefix_serve _) hs
    obtain rfl : bytes = [7] := hlast 0 1 bytes rfl
    exact ⟨s, rfl, hc⟩
  · exact absurd (hbit.symm.trans (bit_fresh 4096 1 idx)) (by decide)
  · rw [← hbytes]

/-- A backend that never fills anything. -/
def idleBackend : Backend Unit := ⟨1, fun w _ buf => ((.ok 0, buf), w), fun _ _ _ => rfl⟩

/-- Over a backend that answers with a count of zero, the first read of a new cache succeeds with a
byte that is not the one of the backend. -/
theorem zero_count_marks : idleBackend.FillsPrefix (.ofList [7]) ∧
    ∃ s, (reads idleBackend (.ofList [7])).Reachable s ∧ s.last = some (0, 1, .ok [0]) := by
  refine ⟨⟨rfl, fun w off buf n _ h => ?_⟩, ?_⟩
  · obtain rfl : 0 = n := Except.ok.inj h
    exact ⟨Nat.zero_le _, rfl⟩
  · let c : Cache idleBackend.size := fresh 4096 1
    have hids : chunkIds 0 1 = [0] := by simp [chunkIds]
    have hchunk : fetchChunk idleBackend () c 0 = (.ok (), c.setBit 0, ()) := by
      have hbit : c.bit 0 = false := bit_fresh 4096 1 0
      rw [fetchChunk, if_neg (by simp [hbit])]
      exact congrArg (fun d : Cache idleBackend.size => (Except.ok (), d.setBit 0, ()))
        (writeRaw_slice_self c _ _)
    have hread : (readAt idleBackend () c 0 1).1 = .ok [0] := by
      have hfix : fixRange idleBackend.size 0 1 = .ok (0, 1) := by decide
      have hdata : fetchData idleBackend () c 0 (1 - 0) = (.ok (), c.setBit 0, ()) := by
        rw [fetchData, if_neg (by decide), hids]
        simp only [fetchChunks, hchunk]
      have hzero : (c.setBit 0).raw.slice 0 (1 - 0) = [0] := by
        rw [raw_setBit]
        simp [c, fresh, ByteFile.slice, ByteFile.byte_setLen]
      rw [readAt, if_neg one_ne_zero]
      simp only [hfix, hdata, hzero]
    refine ⟨⟨(readAt idleBackend () c 0 1).2.1, (), some (0, 1, .ok [0])⟩, .step (a := (0, 1))
      (.init (s := ⟨c, (), none⟩) ⟨fun idx _ hbit => ?_, rfl⟩) trivial ⟨.ok [0], ?_, rfl⟩, rfl⟩
    · exact absurd (hbit.symm.trans (bit_fresh 4096 1 idx)) (by decide)
    · rw [← hread]

end Cache

end DistillFs
