import DistillFs.Backend.Cache.Basic
import DistillFs.Foundation.RwLock
import DistillFs.Foundation.Transition

/-!
# The cache under concurrency

Any number of threads read from one cache and invalidate its chunks. A reader holds `drop_lock` for
reading while it makes sure that its chunks are cached and copies them out; two readers that miss
the same chunk meet in the table of fetches in flight, where the first one fetches and the other
one waits. An invalidation holds `drop_lock` for writing.

Each step of a thread is one atomic action of the source: a lock operation, a load of a bit, a
lookup in the table, a part of a fetch arriving, a bit being set, the copy. The backend serves an
immutable content `F`: a fetch may fail at any point, having stored some correct bytes.

The proof rule is `Program.invariant`. What a step does to the shared state is one of three things
(`Effect`): under the read lock the cache only gains correct bytes and bits; bits and bytes go away
only under the write lock; everything else leaves the cache alone.

## Main definitions

* `Cache.ReadCall`, `Cache.ReadOutcome`, `Cache.ReadCall.Correct`.
* `Cache.Pc`, `Cache.Shared`, `Cache.Step`, `Cache.program`.

## Main results

* `Cache.program_holds`: the invariant of the cache and the assertions of the threads.
* `Cache.reads_correct`: set bits mark chunks that hold the content, and reads return the content.
-/

namespace DistillFs

open Foundation

namespace Cache

/-! ### Calls and outcomes -/

/-- Whether a call reads into a buffer or hands the bytes to a writer that holds `out`. -/
inductive ReadKind
  | readAt
  | fuse (wr : Writer) (out : List UInt8)

/-- A call of `read_at` or of `write_to_fuse_writer`. -/
structure ReadCall where
  kind : ReadKind
  /-- The offset of the read. -/
  off : ℕ
  /-- The length of the buffer, or the size asked for. -/
  n : ℕ

/-- What a call returns: the bytes at the front of the buffer, or the answer of the writer together
with what the writer holds. -/
inductive ReadOutcome
  | readAt (res : Except CacheError (List UInt8))
  | fuse (res : Except IoError ℕ × List UInt8)

/-- How a call reports a failure of the cache. -/
def ReadCall.fail (call : ReadCall) (e : CacheError) : ReadOutcome :=
  match call.kind with
  | .readAt => .readAt (.error e)
  | .fuse _ out => .fuse (.error (newStdIoError e.display), out)

/-- How a call delivers the bytes it copies. -/
def ReadCall.deliver (call : ReadCall) (bytes : List UInt8) : ReadOutcome :=
  match call.kind with
  | .readAt => .readAt (.ok bytes)
  | .fuse wr out => .fuse (wr.write out bytes)

/-- An outcome that reports success delivers the content of the range, cut at the end. -/
def ReadCall.Correct (F : ByteFile) (call : ReadCall) : ReadOutcome → Prop
  | .readAt res =>
    ∀ bytes, res = .ok bytes → bytes = F.slice call.off (min call.n (F.len - call.off))
  | .fuse res => ∀ k, res.1 = .ok k → ∃ wr out, call.kind = .fuse wr out ∧
      res = wr.write out (F.slice call.off (min call.n (F.len - call.off)))

theorem ReadCall.correct_fail (F : ByteFile) (call : ReadCall) (e : CacheError) :
    call.Correct F (call.fail e) := by
  unfold ReadCall.fail
  split
  · exact fun _ h => by cases h
  · exact fun _ h => by cases h

theorem ReadCall.correct_deliver {F : ByteFile} {call : ReadCall} {bytes : List UInt8}
    (h : bytes = F.slice call.off (min call.n (F.len - call.off))) :
    call.Correct F (call.deliver bytes) := by
  unfold ReadCall.deliver
  split
  · exact fun _ hb => (Except.ok.inj hb).symm.trans h
  · next wr out hkind => exact fun _ _ => ⟨wr, out, hkind, by rw [h]⟩

/-! ### Threads -/

/-- The state of a fetch in flight. -/
inductive InFlightStatus
  | fetching
  | done
  deriving DecidableEq, Repr

/-- Where a thread stands. A reader past `locked` carries the end `stop` of its range, one inside
the loop of `fetch_data` also the chunk `idx` of this turn, and one that met a fetch in flight the
identity `io` of that fetch. -/
inductive Pc
  | idle
  | begun (call : ReadCall)
  | locked (call : ReadCall)
  | check (call : ReadCall) (stop idx : ℕ)
  | register (call : ReadCall) (stop idx : ℕ)
  | wait (call : ReadCall) (stop idx io : ℕ)
  | fetching (call : ReadCall) (stop idx io : ℕ)
  | fetched (call : ReadCall) (stop idx io : ℕ)
  | marked (call : ReadCall) (stop idx io : ℕ)
  | removed (call : ReadCall) (stop idx io : ℕ)
  | failed (call : ReadCall) (idx io : ℕ) (e : IoError)
  | failedRemoved (call : ReadCall) (io : ℕ) (e : IoError)
  | copy (call : ReadCall) (stop : ℕ)
  | unlockRead (call : ReadCall) (outcome : ReadOutcome)
  | returned (call : ReadCall) (outcome : ReadOutcome)
  | wantWrite (idx : ℕ)
  | load (idx : ℕ)
  | clear (idx : ℕ)
  | sync (idx : ℕ)
  | punch (idx : ℕ)
  | unlockWrite (res : Except IoError Unit)
  | invalidated (res : Except IoError Unit)

/-- The chunk after `idx` in the loop of `fetch_data`, or the copy after the last one. -/
def Pc.next (call : ReadCall) (stop idx : ℕ) : Pc :=
  if idx < (stop - 1) / chunkSize then .check call stop (idx + 1) else .copy call stop

/-- The state the threads share. -/
structure Shared (τ : Type*) (size : ℕ) where
  /-- The two files. -/
  cache : Cache size
  /-- The lock between readers and invalidations. -/
  dropLock : RwLock τ
  /-- The fetch in flight for a chunk. -/
  inFlightIos : ℕ → Option ℕ
  /-- The status of a fetch, in flight or past. -/
  ioStatus : ℕ → InFlightStatus
  /-- The identity the next fetch gets. -/
  nextIo : ℕ

namespace Shared

variable {τ : Type*} {size : ℕ} (s : Shared τ size)

/-- Exchange the files. -/
def withCache (c : Cache size) : Shared τ size := { s with cache := c }

/-- Exchange the lock. -/
def withLock (l : RwLock τ) : Shared τ size := { s with dropLock := l }

/-- Enter a new fetch for chunk `idx` into the table. -/
def register (idx : ℕ) : Shared τ size :=
  { s with
    inFlightIos := Function.update s.inFlightIos idx (some s.nextIo)
    ioStatus := Function.update s.ioStatus s.nextIo .fetching
    nextIo := s.nextIo + 1 }

/-- Take the fetch for chunk `idx` out of the table. -/
def removeInflightIo (idx : ℕ) : Shared τ size :=
  { s with inFlightIos := Function.update s.inFlightIos idx none }

/-- Mark a fetch as done, which wakes those who wait for it. -/
def done (io : ℕ) : Shared τ size := { s with ioStatus := Function.update s.ioStatus io .done }

@[simp] theorem cache_withCache (c : Cache size) : (s.withCache c).cache = c := rfl

@[simp] theorem dropLock_withCache (c : Cache size) : (s.withCache c).dropLock = s.dropLock := rfl

@[simp] theorem inFlightIos_withCache (c : Cache size) :
    (s.withCache c).inFlightIos = s.inFlightIos := rfl

@[simp] theorem ioStatus_withCache (c : Cache size) : (s.withCache c).ioStatus = s.ioStatus := rfl

@[simp] theorem nextIo_withCache (c : Cache size) : (s.withCache c).nextIo = s.nextIo := rfl

end Shared

variable {τ : Type*}

/-- One atomic action of thread `t` over the content `F`. -/
inductive Step [DecidableEq τ] (F : ByteFile) (t : τ) :
    Shared τ F.len → Pc → Shared τ F.len → Pc → Prop
  | call {s} (r : ReadCall) : Step F t s .idle s (.begun r)
  -- `read_at` with an empty buffer answers before it takes the lock
  | emptyRead {s call} (hkind : call.kind = .readAt) (hn : call.n = 0) :
      Step F t s (.begun call) s (.returned call (.readAt (.ok [])))
  -- `write_to_fuse_writer` cuts its range before it takes the lock
  | fuseRange {s call e} (hkind : call.kind ≠ .readAt)
      (hfix : fixRange F.len call.off call.n = .error e) :
      Step F t s (.begun call) s (.returned call (call.fail e))
  | lockRead {s call l} (hn : call.kind = .readAt → call.n ≠ 0)
      (hfix : call.kind ≠ .readAt → ∃ r, fixRange F.len call.off call.n = .ok r)
      (hlock : s.dropLock.tryRead t = some l) :
      Step F t s (.begun call) (s.withLock l) (.locked call)
  | badRange {s call e} (hfix : fixRange F.len call.off call.n = .error e) :
      Step F t s (.locked call) s (.unlockRead call (call.fail e))
  | noData {s call off stop} (hfix : fixRange F.len call.off call.n = .ok (off, stop))
      (hlen : stop - off = 0) :
      Step F t s (.locked call) s (.copy call stop)
  | fetchData {s call off stop} (hfix : fixRange F.len call.off call.n = .ok (off, stop))
      (hlen : stop - off ≠ 0) :
      Step F t s (.locked call) s (.check call stop (off / chunkSize))
  | cached {s call stop idx} (hbit : s.cache.bit idx = true) :
      Step F t s (.check call stop idx) s (.next call stop idx)
  | missing {s call stop idx} (hbit : s.cache.bit idx = false) :
      Step F t s (.check call stop idx) s (.register call stop idx)
  | meet {s call stop idx io} (hio : s.inFlightIos idx = some io) :
      Step F t s (.register call stop idx) s (.wait call stop idx io)
  | enter {s call stop idx} (hio : s.inFlightIos idx = none) :
      Step F t s (.register call stop idx) (s.register idx) (.fetching call stop idx s.nextIo)
  -- woken by `notify`, spuriously, or the fetch was done before the wait
  | woken {s call stop idx io} : Step F t s (.wait call stop idx io) s (.check call stop idx)
  | waitTimeout {s call stop idx io} (hio : s.ioStatus io = .fetching) :
      Step F t s (.wait call stop idx io) s (.unlockRead call (call.fail .timeout))
  | fetchPart {s call stop idx io k} (hk : chunkStart idx + k ≤ chunkEnd F.len idx) :
      Step F t s (.fetching call stop idx io)
        (s.withCache (s.cache.writeRaw (chunkStart idx) (F.slice (chunkStart idx) k)))
        (.fetching call stop idx io)
  | fetchOk {s call stop idx io} :
      Step F t s (.fetching call stop idx io)
        (s.withCache (s.cache.writeRaw (chunkStart idx)
          (F.slice (chunkStart idx) (chunkEnd F.len idx - chunkStart idx))))
        (.fetched call stop idx io)
  | fetchError {s call stop idx io k e} (hk : chunkStart idx + k ≤ chunkEnd F.len idx) :
      Step F t s (.fetching call stop idx io)
        (s.withCache (s.cache.writeRaw (chunkStart idx) (F.slice (chunkStart idx) k)))
        (.failed call idx io e)
  | setBit {s call stop idx io} :
      Step F t s (.fetched call stop idx io) (s.withCache (s.cache.setBit idx))
        (.marked call stop idx io)
  | remove {s call stop idx io} :
      Step F t s (.marked call stop idx io) (s.removeInflightIo idx) (.removed call stop idx io)
  | guardDone {s call stop idx io} :
      Step F t s (.removed call stop idx io) (s.done io) (.next call stop idx)
  | removeFailed {s call idx io e} :
      Step F t s (.failed call idx io e) (s.removeInflightIo idx) (.failedRemoved call io e)
  | guardFailed {s call io e} :
      Step F t s (.failedRemoved call io e) (s.done io) (.unlockRead call (call.fail (.ioError e)))
  | copy {s call stop} :
      Step F t s (.copy call stop) s
        (.unlockRead call (call.deliver (s.cache.raw.slice call.off (stop - call.off))))
  | unlockRead {s call outcome} :
      Step F t s (.unlockRead call outcome) (s.withLock (s.dropLock.releaseRead t))
        (.returned call outcome)
  | readDone {s call outcome} : Step F t s (.returned call outcome) s .idle
  | invalidate {s} (idx : ℕ) : Step F t s .idle s (.wantWrite idx)
  | lockWrite {s idx l} (hlock : s.dropLock.tryWrite t = some l) :
      Step F t s (.wantWrite idx) (s.withLock l) (.load idx)
  | outside {s idx} (hidx : F.len ≤ chunkStart idx) :
      Step F t s (.load idx) s (.unlockWrite (.ok ()))
  | notCached {s idx} (hidx : chunkStart idx < F.len) (hbit : s.cache.bit idx = false) :
      Step F t s (.load idx) s (.unlockWrite (.ok ()))
  | drop {s idx} (hidx : chunkStart idx < F.len) (hbit : s.cache.bit idx = true) :
      Step F t s (.load idx) s (.clear idx)
  | clearBit {s idx} :
      Step F t s (.clear idx) (s.withCache (s.cache.clearBit idx)) (.sync idx)
  | syncOk {s idx} : Step F t s (.sync idx) s (.punch idx)
  | syncError {s idx e} : Step F t s (.sync idx) s (.unlockWrite (.error e))
  | punchOk {s idx} :
      Step F t s (.punch idx) (s.withCache (s.cache.punchHole idx)) (.unlockWrite (.ok ()))
  | punchError {s idx e} : Step F t s (.punch idx) s (.unlockWrite (.error e))
  | unlockWrite {s res} :
      Step F t s (.unlockWrite res) (s.withLock s.dropLock.releaseWrite) (.invalidated res)
  | invalidateDone {s res} : Step F t s (.invalidated res) s .idle

/-- Any number of threads over one cache that starts with no bit set, no fetch ever registered and
the lock free. -/
def program (τ : Type*) [DecidableEq τ] (F : ByteFile) :
    Program τ Empty (Shared τ F.len) Pc where
  init c := (∀ idx, c.shared.cache.bit idx = false) ∧ c.shared.dropLock = .unlocked ∧
    (∀ idx, c.shared.inFlightIos idx = none) ∧ c.shared.nextIo = 0 ∧ ∀ t, c.loc t = .idle
  step t := Step F t
  env e := e.elim

/-- The shared state of a cache that was opened without files. -/
def Shared.start (τ : Type*) (pageSize size : ℕ) : Shared τ size :=
  ⟨fresh pageSize size, .unlocked, fun _ => none, fun _ => .done, 0⟩

theorem reachable_start (τ : Type*) [DecidableEq τ] (F : ByteFile) (pageSize : ℕ) :
    (program τ F).toSystem.Reachable ⟨.start τ pageSize F.len, fun _ => .idle⟩ :=
  .init ⟨bit_fresh pageSize F.len, rfl, fun _ => rfl, rfl, fun _ => rfl⟩

/-! ### What a step does to the shared state -/

/-- The chunks of the range before `idx` are cached. -/
def CachedBefore {size : ℕ} (c : Cache size) (off idx : ℕ) : Prop :=
  ∀ j, off / chunkSize ≤ j → j < idx → c.bit j = true

/-- The effect of a step of thread `t` on the shared state. -/
inductive Effect (F : ByteFile) (t : τ) (s s' : Shared τ F.len) : Prop
  /-- Under the read lock the cache gains correct bytes and bits. -/
  | grow (hlock : t ∈ s.dropLock.readers) (hsame : s'.dropLock = s.dropLock)
      (hraw : ∀ a b, s.cache.raw.AgreeOn F a b → s'.cache.raw.AgreeOn F a b)
      (hbit : ∀ j, s.cache.bit j = true → s'.cache.bit j = true)
  /-- Under the write lock anything may happen to the cache. -/
  | shrink (hlock : s.dropLock.writer = some t) (hsame : s'.dropLock = s.dropLock)
  /-- Otherwise the cache stays, and at most the holds of the thread itself change. -/
  | keep (hcache : s'.cache = s.cache) (hlock : s.dropLock.Keeps t s'.dropLock)

/-- A reader inside `fetch_data` holds the lock, its range is the cut one and not empty, and the
chunks before the one of this turn are cached. -/
structure InLoop (F : ByteFile) (t : τ) (s : Shared τ F.len) (call : ReadCall) (stop idx : ℕ) :
    Prop where
  lock : t ∈ s.dropLock.readers
  range : fixRange F.len call.off call.n = .ok (call.off, stop)
  nonempty : call.off < stop
  ge : call.off / chunkSize ≤ idx
  le : idx ≤ (stop - 1) / chunkSize
  before : CachedBefore s.cache call.off idx

/-- The assertion of a thread at each point. -/
def Assertion (F : ByteFile) (t : τ) (s : Shared τ F.len) : Pc → Prop
  | .idle | .begun _ | .wantWrite _ | .invalidated _ => True
  | .locked _ => t ∈ s.dropLock.readers
  | .check call stop idx | .register call stop idx | .wait call stop idx _
  | .fetching call stop idx _ => InLoop F t s call stop idx
  | .fetched call stop idx _ => InLoop F t s call stop idx ∧
      s.cache.raw.AgreeOn F (chunkStart idx) (chunkEnd F.len idx)
  | .marked call stop idx _ | .removed call stop idx _ =>
      InLoop F t s call stop idx ∧ s.cache.bit idx = true
  | .failed .. | .failedRemoved .. => t ∈ s.dropLock.readers
  | .copy call stop => t ∈ s.dropLock.readers ∧
      fixRange F.len call.off call.n = .ok (call.off, stop) ∧
      ∀ p, call.off ≤ p → p < stop → s.cache.bit (p / chunkSize) = true
  | .unlockRead call outcome => t ∈ s.dropLock.readers ∧ call.Correct F outcome
  | .returned call outcome => call.Correct F outcome
  | .load _ | .clear _ | .unlockWrite _ => s.dropLock.writer = some t
  | .sync idx | .punch idx => s.dropLock.writer = some t ∧ s.cache.bit idx = false

variable {F : ByteFile} {t u : τ} {s s' : Shared τ F.len}

/-! ### Stability of the assertions -/

theorem InLoop.idx_lt {call : ReadCall} {stop idx : ℕ} (h : InLoop F t s call stop idx) :
    chunkStart idx < F.len := by
  obtain ⟨-, hoff, rfl⟩ := fixRange_ok h.range
  have hle := h.le
  have hne := h.nonempty
  simp only [chunkStart, chunkSize] at *
  omega

/-- Being inside the loop survives a change of the cache that clears no bit. -/
theorem InLoop.mono {call : ReadCall} {stop idx : ℕ} (h : InLoop F t s call stop idx)
    (hlock : t ∈ s'.dropLock.readers)
    (hbit : ∀ j, s.cache.bit j = true → s'.cache.bit j = true) : InLoop F t s' call stop idx :=
  ⟨hlock, h.range, h.nonempty, h.ge, h.le, fun j hj hj' => hbit j (h.before j hj hj')⟩

/-- Being inside the loop survives a change of the files that clears no bit. -/
theorem InLoop.withCache {call : ReadCall} {stop idx : ℕ} (h : InLoop F t s call stop idx)
    {c : Cache F.len} (hbit : ∀ j, s.cache.bit j = true → c.bit j = true) :
    InLoop F t (s.withCache c) call stop idx :=
  InLoop.mono h h.lock hbit

/-- The assertion of a thread `u` survives what keeps its holds and, if it reads, the correct bytes
and the bits, and, if it writes, the bits that are clear. -/
theorem Assertion.mono {pc : Pc} (h : Assertion F u s pc)
    (hread : u ∈ s.dropLock.readers → u ∈ s'.dropLock.readers ∧
      (∀ a b, s.cache.raw.AgreeOn F a b → s'.cache.raw.AgreeOn F a b) ∧
      ∀ j, s.cache.bit j = true → s'.cache.bit j = true)
    (hwrite : s.dropLock.writer = some u → s'.dropLock.writer = some u ∧
      ∀ j, s.cache.bit j = false → s'.cache.bit j = false) : Assertion F u s' pc := by
  cases pc with
  | idle | begun | wantWrite | invalidated => trivial
  | locked | failed | failedRemoved => exact (hread h).1
  | check | register | wait | fetching =>
    obtain ⟨h1, -, h3⟩ := hread h.lock
    exact InLoop.mono h h1 h3
  | fetched =>
    obtain ⟨h1, h2, h3⟩ := hread h.1.lock
    exact ⟨InLoop.mono h.1 h1 h3, h2 _ _ h.2⟩
  | marked | removed =>
    obtain ⟨h1, -, h3⟩ := hread h.1.lock
    exact ⟨InLoop.mono h.1 h1 h3, h3 _ h.2⟩
  | copy =>
    obtain ⟨h1, -, h3⟩ := hread h.1
    exact ⟨h1, h.2.1, fun p hp hp' => h3 _ (h.2.2 p hp hp')⟩
  | unlockRead => exact ⟨(hread h.1).1, h.2⟩
  | returned => exact h
  | load | clear | unlockWrite => exact (hwrite h).1
  | sync | punch => exact ⟨(hwrite h.1).1, (hwrite h.1).2 _ h.2⟩

/-- The assertion of a thread survives the steps of the others. -/
theorem Assertion.stable {pc : Pc} (h : Assertion F u s pc) (heff : Effect F t s s') (hu : u ≠ t) :
    Assertion F u s' pc := by
  cases heff with
  | grow hlock hsame hraw hbit =>
    refine h.mono (fun hr => ⟨by rwa [hsame], hraw, hbit⟩) fun hw => ?_
    exact absurd hw (RwLock.not_writer_of_mem hlock)
  | shrink hlock hsame =>
    refine h.mono (fun hr => absurd hlock (RwLock.not_writer_of_mem hr)) fun hw => ?_
    rw [hlock] at hw
    exact absurd (Option.some.inj hw).symm hu
  | keep hcache hlock =>
    refine h.mono (fun hr => ⟨hlock.readers u hu hr, fun a b ha => ?_, fun j hj => ?_⟩)
      fun hw => ⟨hlock.writer u hu hw, fun j hj => ?_⟩
    · rwa [hcache]
    · rwa [hcache]
    · rwa [hcache]

/-! ### Steps -/

/-- A part of a fetch that arrives, as an effect: correct bytes at the start of the chunk. -/
theorem Effect.fetch {call : ReadCall} {stop idx k : ℕ} (h : InLoop F t s call stop idx) :
    Effect F t s
      (s.withCache (s.cache.writeRaw (chunkStart idx) (F.slice (chunkStart idx) k))) := by
  refine .grow h.lock (s.dropLock_withCache _) (fun a b hab => ?_) fun j hj => ?_
  · rw [Shared.cache_withCache, raw_writeRaw]
    exact hab.write (.refl _ _)
  · rwa [Shared.cache_withCache, bit_writeRaw]

/-- After the last chunk of the loop every position of the range is cached. -/
theorem InLoop.next {call : ReadCall} {stop idx : ℕ} (h : InLoop F t s call stop idx)
    (hbit : s.cache.bit idx = true) : Assertion F t s (.next call stop idx) := by
  have hcached : CachedBefore s.cache call.off (idx + 1) := by
    intro j hj hj'
    rcases Nat.lt_succ_iff_lt_or_eq.mp hj' with hlt | rfl
    · exact h.before j hj hlt
    · exact hbit
  have hge := h.ge
  unfold Pc.next
  split_ifs with hlast
  · exact ⟨h.lock, h.range, h.nonempty, by omega, by omega, hcached⟩
  · refine ⟨h.lock, h.range, fun p hp hp' => hcached _ (Nat.div_le_div_right hp) ?_⟩
    have : p / chunkSize ≤ (stop - 1) / chunkSize := Nat.div_le_div_right (by omega)
    omega

theorem InLoop.start {call : ReadCall} {off stop : ℕ} (hlock : t ∈ s.dropLock.readers)
    (hfix : fixRange F.len call.off call.n = .ok (off, stop)) (hlen : stop - off ≠ 0) :
    InLoop F t s call stop (off / chunkSize) := by
  obtain ⟨rfl, -, -⟩ := fixRange_ok hfix
  exact ⟨hlock, hfix, by omega, le_rfl, Nat.div_le_div_right (by omega),
    fun j hj hj' => absurd hj' (by omega)⟩

/-- The copy of a range whose positions are cached delivers the content. -/
theorem correct_copy {call : ReadCall} {stop : ℕ} (hc : s.cache.Coherent F)
    (hfix : fixRange F.len call.off call.n = .ok (call.off, stop))
    (hbits : ∀ p, call.off ≤ p → p < stop → s.cache.bit (p / chunkSize) = true) :
    call.Correct F (call.deliver (s.cache.raw.slice call.off (stop - call.off))) := by
  obtain ⟨-, hoff, rfl⟩ := fixRange_ok hfix
  refine ReadCall.correct_deliver ?_
  have hlen : min (call.off + call.n) F.len - call.off = min call.n (F.len - call.off) := by omega
  rw [← hlen]
  exact hc.slice_eq (by omega) fun p hp hp' => hbits p hp (by omega)

variable [DecidableEq τ]

/-- What a step of a thread does to the shared state. -/
theorem Step.effect {pc pc' : Pc} (hstep : Step F t s pc s' pc') (h : Assertion F t s pc) :
    Effect F t s s' := by
  cases hstep with
  | fetchPart | fetchOk | fetchError => exact Effect.fetch h
  | setBit =>
    refine .grow h.1.lock (s.dropLock_withCache _) (fun a b hab => ?_) fun j hj => ?_
    · rwa [Shared.cache_withCache, raw_setBit]
    · rw [Shared.cache_withCache, bit_setBit _ h.1.idx_lt, hj, Bool.true_or]
  | clearBit => exact .shrink h (s.dropLock_withCache _)
  | punchOk => exact .shrink h.1 (s.dropLock_withCache _)
  | lockRead _ _ hlock => exact .keep rfl (.tryRead hlock)
  | lockWrite hlock => exact .keep rfl (.tryWrite hlock)
  | unlockRead => exact .keep rfl (.releaseRead t _)
  | unlockWrite => exact .keep rfl (.releaseWrite h)
  | _ => exact .keep rfl (.refl t _)

/-- A step keeps the cache coherent and establishes the next assertion of its thread. -/
theorem Step.own {pc pc' : Pc} (hstep : Step F t s pc s' pc') (hc : s.cache.Coherent F)
    (h : Assertion F t s pc) : s'.cache.Coherent F ∧ Assertion F t s' pc' := by
  have heff := hstep.effect h
  cases hstep with
  | call | invalidate | readDone | invalidateDone => exact ⟨hc, trivial⟩
  | emptyRead _ hn =>
    refine ⟨hc, fun bytes hb => ?_⟩
    rw [← Except.ok.inj hb, hn, Nat.zero_min, ByteFile.slice_zero]
  | fuseRange => exact ⟨hc, ReadCall.correct_fail ..⟩
  | lockRead _ _ hlock => exact ⟨hc, RwLock.mem_of_tryRead hlock⟩
  | badRange => exact ⟨hc, h, ReadCall.correct_fail ..⟩
  | noData hfix hlen =>
    obtain ⟨rfl, -, -⟩ := fixRange_ok hfix
    exact ⟨hc, h, hfix, fun p hp hp' => absurd hp' (by omega)⟩
  | fetchData hfix hlen => exact ⟨hc, InLoop.start h hfix hlen⟩
  | cached hbit => exact ⟨hc, InLoop.next h hbit⟩
  | missing | meet | woken => exact ⟨hc, h⟩
  | enter => exact ⟨hc, InLoop.mono h h.lock fun _ hj => hj⟩
  | waitTimeout => exact ⟨hc, h.lock, ReadCall.correct_fail ..⟩
  | fetchPart =>
    refine ⟨hc.writeRaw_slice _ _, InLoop.withCache h fun j hj => ?_⟩
    rwa [bit_writeRaw]
  | fetchOk =>
    refine ⟨hc.writeRaw_slice _ _, InLoop.withCache h fun j hj => ?_,
      agreeOn_writeRaw_chunk h.idx_lt⟩
    rwa [bit_writeRaw]
  | fetchError =>
    refine ⟨hc.writeRaw_slice _ _, ?_⟩
    rw [Assertion, Shared.dropLock_withCache]
    exact h.lock
  | setBit =>
    refine ⟨hc.setBit h.2 h.1.idx_lt, InLoop.withCache h.1 fun j hj => ?_, ?_⟩
    · rw [bit_setBit _ h.1.idx_lt, hj, Bool.true_or]
    · rw [Shared.cache_withCache, bit_setBit _ h.1.idx_lt, decide_eq_true rfl, Bool.or_true]
  | remove => exact ⟨hc, InLoop.mono h.1 h.1.lock fun _ hj => hj, h.2⟩
  | guardDone => exact ⟨hc, InLoop.next (InLoop.mono h.1 h.1.lock fun _ hj => hj) h.2⟩
  | removeFailed => exact ⟨hc, h⟩
  | guardFailed => exact ⟨hc, h, ReadCall.correct_fail ..⟩
  | copy => exact ⟨hc, h.1, correct_copy hc h.2.1 h.2.2⟩
  | unlockRead => exact ⟨hc, h.2⟩
  | lockWrite hlock => exact ⟨hc, RwLock.writer_of_tryWrite hlock⟩
  | outside | notCached | drop => exact ⟨hc, h⟩
  | clearBit =>
    refine ⟨hc.clearBit _, (Shared.dropLock_withCache ..).symm ▸ h, ?_⟩
    rw [Shared.cache_withCache, bit_clearBit, decide_eq_true rfl, Bool.not_true, Bool.and_false]
  | syncOk => exact ⟨hc, h⟩
  | syncError => exact ⟨hc, h.1⟩
  | punchOk =>
    refine ⟨hc.punchHole h.2, ?_⟩
    rw [Assertion, Shared.dropLock_withCache]
    exact h.1
  | punchError => exact ⟨hc, h.1⟩
  | unlockWrite => exact ⟨hc, trivial⟩

/-! ### Runs -/

/-- In every configuration the cache is coherent and the assertions of all threads hold. -/
theorem program_holds {c : Config τ (Shared τ F.len) Pc} (hc : (program τ F).toSystem.Reachable c) :
    Program.Holds (fun s => s.cache.Coherent F) (Assertion F) c := by
  refine Program.invariant (P := program τ F) ?_ ?_ ?_ ?_ hc
  · rintro c ⟨hbits, -, -, -, hidle⟩
    refine ⟨fun idx _ hb => ?_, fun t => ?_⟩
    · simp [hbits] at hb
    · rw [hidle t]
      trivial
  · exact fun c t s' pc' h _ hstep => Step.own hstep h.1 (h.2 t)
  · exact fun c t u s' pc' h _ hu hstep => (h.2 u).stable (Step.effect hstep (h.2 t)) hu
  · exact fun c e => e.elim

/-- **Concurrent reads are correct.** In every configuration that any interleaving of reads and
invalidations reaches, a chunk whose bit is set holds the content, and a read that returned
success delivered the content of its range cut at the end. -/
theorem reads_correct {c : Config τ (Shared τ F.len) Pc}
    (hc : (program τ F).toSystem.Reachable c) :
    (∀ idx, chunkStart idx < F.len → c.shared.cache.bit idx = true →
      c.shared.cache.raw.AgreeOn F (chunkStart idx) (chunkEnd F.len idx)) ∧
    ∀ t call outcome, c.loc t = .returned call outcome → call.Correct F outcome := by
  obtain ⟨hcoh, hall⟩ := program_holds hc
  refine ⟨hcoh, fun t call outcome hloc => ?_⟩
  have h := hall t
  rwa [hloc] at h

section Run

/-- A step of the only thread extends a run. -/
theorem reachable_solo {pc pc' : Pc} {s s' : Shared Unit F.len}
    (hc : (program Unit F).toSystem.Reachable ⟨s, fun _ => pc⟩) (h : Step F () s pc s' pc') :
    (program Unit F).toSystem.Reachable ⟨s', fun _ => pc'⟩ :=
  Program.Reach.thread () hc trivial h (funext fun _ => Function.update_self ..)

/-- A run of one thread that reads two bytes at the start of the content of one byte. -/
private theorem exists_read_run : ∃ c bytes,
    (program Unit (.ofList [7])).toSystem.Reachable c ∧
      c.loc () = .returned ⟨.readAt, 0, 2⟩ (.readAt (.ok bytes)) := by
  let call : ReadCall := ⟨.readAt, 0, 2⟩
  let F : ByteFile := .ofList [7]
  have hfix : fixRange F.len 0 2 = .ok (0, 1) := rfl
  have hnext : ∀ idx, Pc.next call 1 idx = .copy call 1 := fun idx => by simp [Pc.next]
  have h₀ := reachable_start Unit F 4096
  have h₁ := reachable_solo h₀ (.call call)
  have h₂ := reachable_solo h₁ (.lockRead (fun _ => by decide) (fun h => absurd rfl h) rfl)
  have h₃ := reachable_solo h₂ (.fetchData hfix (by decide))
  have h₄ := reachable_solo h₃ (.missing (bit_fresh 4096 1 _))
  have h₅ := reachable_solo h₄ (.enter rfl)
  have h₆ := reachable_solo h₅ .fetchOk
  have h₇ := reachable_solo h₆ .setBit
  have h₈ := reachable_solo h₇ .remove
  have h₉ := reachable_solo h₈ .guardDone
  rw [hnext] at h₉
  have h₁₀ := reachable_solo h₉ .copy
  have h₁₁ := reachable_solo h₁₀ .unlockRead
  exact ⟨_, _, h₁₁, rfl⟩

theorem reads_correct_run : ∃ (c : Config Unit (Shared Unit 1) Pc) (bytes : List UInt8),
    c.loc () = .returned ⟨.readAt, 0, 2⟩ (.readAt (.ok bytes)) ∧ bytes = [7] := by
  obtain ⟨c, bytes, hc, hloc⟩ := exists_read_run
  exact ⟨c, bytes, hloc, (reads_correct hc).2 () _ _ hloc bytes rfl⟩

end Run

end Cache

end DistillFs
