import DistillFs.Backend.Dedup.Transparent

/-!
# Reading a raw image through the mount

A raw image is mounted as a directory with one file. The kernel turns what a process reads into
requests of its own sizes, and the file system cuts each request at the end of the image before the
deduplicating reader serves it. Many processes read at the same time, the workers of the reader move
chunks from the cache into the chunk database meanwhile, and chunks are evicted from there.

A process that copies the file, asking for more at the place where the last answer ended until there
is none, has the bytes of the image at each point, and all of them at the end.

## Main definitions

* `RawImage`, `RawImage.read`, `RawDedupImage.validateRange`, `RawDedupImage.writeToFuseWriter`.
* `RawPc`, `RawStep`, `rawProgram`: processes that copy the file.

## Main results

* `raw_copy_complete`: a copy is the image.
-/

namespace DistillFs

open Foundation

/-- `IMAGE_FILE_ID`. -/
def imageFileId : ℕ := 2

/-- What a call returns at once, or the call of the layer below that it becomes. -/
inductive Delegated
  | returned (res : Except IoError ℕ)
  | call (r : DedupRead)

/-! ### Requests -/

namespace RawDedupImage

/-- `validate_range`, in an image of `len` bytes. -/
def validateRange (len off size : ℕ) : Except IoError (ℕ × ℕ) :=
  if len < off then .error ⟨.invalidInput, "Invalid offset"⟩
  else if off = len ∧ size = 0 then .ok (off, 0)
  else .ok (off, if len < off + size then len - off else size)

/-- A call with a range. -/
def delegate (op : Transfer) (len off size : ℕ) : Delegated :=
  match validateRange len off size with
  | .error e => .returned (.error e)
  | .ok (off, n) => if n = 0 then .returned (.ok 0) else .call ⟨op, off, n⟩

/-- `fetch`, into a buffer of `size` bytes. -/
def fetch (len off size : ℕ) : Delegated := delegate .fetch len off size

/-- `write_to_fuse_writer`. -/
def writeToFuseWriter (len off size : ℕ) (w : Writer) : Delegated :=
  delegate (.fuse w) len off size

/-- A range with a byte of the image is cut at the end. -/
theorem delegate_eq {op : Transfer} {len off size : ℕ} (hoff : off < len) (hsize : size ≠ 0) :
    delegate op len off size = .call ⟨op, off, min size (len - off)⟩ := by
  have hrange : validateRange len off size = .ok (off, min size (len - off)) := by
    rw [validateRange, if_neg (not_lt.mpr hoff.le), if_neg fun h => hsize h.2]
    split_ifs with hlong
    · rw [min_eq_right (by omega)]
    · rw [min_eq_left (by omega)]
  rw [delegate, hrange]
  exact if_neg (by omega)

end RawDedupImage

/-- The file of a raw image. -/
structure RawImage where
  size : ℕ

namespace RawImage

/-- `read`, of the inode `inode`. -/
def read (image : RawImage) (inode : ℕ) (w : Writer) (size offset : ℕ) : Delegated :=
  if inode ≠ imageFileId then
    .returned (.error ⟨.invalidInput, "Invalid argument (os error 22)"⟩)
  else if size = 0 then .returned (.ok 0)
  else if image.size ≤ offset then .returned (.ok 0)
  else
    let size := if image.size < offset + size then image.size - offset else size
    RawDedupImage.writeToFuseWriter image.size offset size w

theorem read_of_le {image : RawImage} {w : Writer} {size offset : ℕ} (h : image.size ≤ offset) :
    image.read imageFileId w size offset = .returned (.ok 0) := by
  rw [read, if_neg (not_not.mpr rfl)]
  split_ifs <;> rfl

theorem read_of_lt {image : RawImage} {w : Writer} {size offset : ℕ} (hsize : size ≠ 0)
    (h : offset < image.size) : image.read imageFileId w size offset =
      .call ⟨.fuse w, offset, min size (image.size - offset)⟩ := by
  have hcut : (if image.size < offset + size then image.size - offset else size) =
      min size (image.size - offset) := by
    split_ifs with hlong
    · exact (min_eq_right (by omega)).symm
    · exact (min_eq_left (by omega)).symm
  rw [read, if_neg (not_not.mpr rfl), if_neg hsize, if_neg (not_le.mpr h)]
  dsimp only
  rw [hcut, RawDedupImage.writeToFuseWriter, RawDedupImage.delegate_eq h (by omega), min_assoc,
    min_self]

end RawImage

/-! ### Copying the file -/

/-- Where a task stands: a worker or another reader, or a process that has copied some bytes. -/
inductive RawPc
  | task (pc : DedupPc)
  | copying (copied : List UInt8)
  /-- A read of the process is in the deduplicating reader. -/
  | reading (copied : List UInt8) (pc : DedupPc)
  | copied (bytes : List UInt8)
  | failed (copied : List UInt8)

section Steps

variable {ω : Type} (B : Backend ω) (H : Hashes) (core : DedupCore) (faults : Prop) (w : Writer)
  {τ : Type*}

/-- The steps of a task. A process asks for any number of bytes. -/
inductive RawStep :
    DedupTask τ → DedupShared ω B.size → RawPc → DedupShared ω B.size → RawPc → Prop
  | task {t s pc s' pc'} (h : DedupStep B H core faults t s pc s' pc') :
      RawStep t s (.task pc) s' (.task pc')
  | read {u s copied size r} (hsize : size ≠ 0)
      (hread : RawImage.read ⟨B.size⟩ imageFileId w size copied.length = .call r) :
      RawStep (.reader u) s (.copying copied) s (.reading copied (.lookup r))
  | readNothing {u s copied size} (hsize : size ≠ 0)
      (hread : RawImage.read ⟨B.size⟩ imageFileId w size copied.length = .returned (.ok 0)) :
      RawStep (.reader u) s (.copying copied) s (.copied copied)
  | readError {u s copied size e} (hsize : size ≠ 0)
      (hread : RawImage.read ⟨B.size⟩ imageFileId w size copied.length = .returned (.error e)) :
      RawStep (.reader u) s (.copying copied) s (.failed copied)
  | inner {t s copied pc s' pc'} (hpc : ∀ r res out, pc ≠ .returned r res out)
      (h : DedupStep B H core faults t s pc s' pc') (hnot : pc' ≠ .idle) :
      RawStep t s (.reading copied pc) s' (.reading copied pc')
  | more {t s copied r k out} (h : k ≠ 0) :
      RawStep t s (.reading copied (.returned r (.ok k) out)) s (.copying (copied ++ out))
  | ended {t s copied r out} :
      RawStep t s (.reading copied (.returned r (.ok 0) out)) s (.copied (copied ++ out))
  | failed {t s copied r e out} :
      RawStep t s (.reading copied (.returned r (.error e) out)) s (.failed copied)
  -- the file system ends, and is mounted again
  | died {t s copied pc} : RawStep t s (.reading copied pc) s (.failed copied)
  | retry {u s copied} : RawStep (.reader u) s (.failed copied) s (.copying copied)

/-- Processes that copy the file, beside other readers and the workers. -/
def rawProgram (τ : Type*) (start : DedupShared ω B.size → Prop) :
    Program (DedupTask τ) (DedupEvent B.size) (DedupShared ω B.size) RawPc where
  init c := start c.shared ∧ ∀ t, c.loc t = .task .idle ∨ ∃ u, t = .reader u ∧ c.loc t = .copying []
  step := RawStep B H core faults w
  env := DedupEnv B core

end Steps

/-! ### A copy is the image -/

section Copies

open Dedup

variable {ω : Type} {B : Backend ω} {F : ByteFile} {H : Hashes} {chunks : Set (List UInt8)}
  {core : DedupCore} {faults : Prop} {w : Writer} {τ : Type*}

/-- The bytes are the front of the content. -/
def FrontOf (F : ByteFile) (bytes : List UInt8) : Prop :=
  bytes.length ≤ F.len ∧ bytes = F.slice 0 bytes.length

/-- The read that a task is at. -/
def DedupPc.read : DedupPc → Option DedupRead
  | .lookup r | .whole r | .segments r _ _ | .chunk r _ _ _ _ _ | .backend r _ _ _ _
  | .returned r _ _ => some r
  | _ => none

/-- A read stays the same until it has returned. -/
theorem DedupStep.read_eq {t : DedupTask τ} {s s' : DedupShared ω B.size} {pc pc' : DedupPc}
    {r : DedupRead} (h : DedupStep B H core faults t s pc s' pc') (hpc : pc.read = some r)
    (hnot : pc' ≠ .idle) : pc'.read = some r := by
  cases h with
  | readDone | killed => exact absurd rfl hnot
  | lookup | lookupEmpty | lookupFault | whole | missing | recorded | overflow | hit | hitError
  | chunkError | chunkFault | miss | missed | backendOk | backendError | copied => exact hpc
  | _ => cases hpc

/-- What a process has copied is the front of the content, and its read begins behind it. -/
def RawAssertion (B : Backend ω) (F : ByteFile) (H : Hashes) (chunks : Set (List UInt8))
    (w : Writer) : RawPc → Prop
  | .task pc => Assertion B F H chunks pc
  | .copying copied | .failed copied => FrontOf F copied
  | .reading copied pc =>
    FrontOf F copied ∧ copied.length < F.len ∧ Assertion B F H chunks pc ∧
      ∃ n ≠ 0, pc.read = some ⟨.fuse w, copied.length, n⟩
  | .copied bytes => FrontOf F bytes ∧ bytes.length = F.len

/-- A read that returns has the bytes that follow, and not none. -/
theorem FrontOf.append (hB : B.Immutable F) (hw : w.Whole) {copied out : List UInt8} {n k : ℕ}
    (hn : n ≠ 0) (h : FrontOf F copied) (hlt : copied.length < F.len)
    (hread : Delivered B F ⟨.fuse w, copied.length, n⟩ (.ok k) out) :
    k ≠ 0 ∧ FrontOf F (copied ++ out) := by
  have hlt' : copied.length < B.size := hB.size_eq.symm ▸ hlt
  obtain ⟨rfl, rfl⟩ := hread hw hlt' k rfl
  have hlen : DedupRead.len ⟨.fuse w, copied.length, n⟩ B.size =
      min n (F.len - copied.length) := by rw [DedupRead.len, hB.size_eq]
  rw [hlen]
  refine ⟨by omega, ?_, ?_⟩
  · rw [List.length_append, ByteFile.length_slice]
    omega
  · rw [List.length_append, ByteFile.length_slice, ← ByteFile.slice_append, ← h.2, Nat.zero_add]

theorem RawStep.own (hB : B.Immutable F) (hF : H.Separates chunks F) (hw : w.Whole)
    {t : DedupTask τ} {s s' : DedupShared ω B.size} {pc pc' : RawPc}
    (hI : Inv B F H chunks core s) (hA : RawAssertion B F H chunks w pc)
    (h : RawStep B H core faults w t s pc s' pc') :
    Inv B F H chunks core s' ∧ RawAssertion B F H chunks w pc' := by
  cases h with
  | task h => exact own_step hB hF hI hA h
  | @read u s copied size r hsize hread =>
    refine ⟨hI, hA, ?_⟩
    by_cases hlt : copied.length < B.size
    · rw [RawImage.read_of_lt hsize hlt] at hread
      obtain rfl := Delegated.call.inj hread
      exact ⟨hB.size_eq ▸ hlt, trivial, _, by dsimp only; omega, rfl⟩
    · rw [RawImage.read_of_le (not_lt.mp hlt)] at hread
      cases hread
  | @readNothing u s copied size hsize hread =>
    refine ⟨hI, hA, hA.1.antisymm (not_lt.mp fun hlt => ?_)⟩
    rw [RawImage.read_of_lt hsize (show copied.length < B.size from hB.size_eq.symm ▸ hlt)] at hread
    cases hread
  | readError => exact ⟨hI, hA⟩
  | inner hpc h hnot =>
    obtain ⟨hfront, hlt, hassertion, n, hn, hread⟩ := hA
    obtain ⟨hI', hassertion'⟩ := own_step hB hF hI hassertion h
    exact ⟨hI', hfront, hlt, hassertion', n, hn, h.read_eq hread hnot⟩
  | more =>
    obtain ⟨hfront, hlt, hdelivered, n, hn, hread⟩ := hA
    obtain rfl := Option.some.inj hread
    exact ⟨hI, (hfront.append hB hw hn hlt hdelivered).2⟩
  | ended =>
    obtain ⟨hfront, hlt, hdelivered, n, hn, hread⟩ := hA
    obtain rfl := Option.some.inj hread
    exact absurd rfl (hfront.append hB hw hn hlt hdelivered).1
  | failed | died => exact ⟨hI, hA.1⟩
  | retry => exact ⟨hI, hA⟩

/-- What is stored and opened beside the tasks is correct. -/
def RawEnvironment (B : Backend ω) (F : ByteFile) (H : Hashes) (chunks : Set (List UInt8)) :
    Config (DedupTask τ) (DedupShared ω B.size) RawPc → DedupTask τ ⊕ DedupEvent B.size → Prop
  | c, a => Environment B F H chunks ⟨c.shared, fun _ => .idle⟩ a

/-- **A copy is the image.** Over an immutable backend, with a hash that is injective on the chunks
involved, however the reads of all processes, the workers, evictions and mounts interleave, and
whatever sizes the kernel asks for: at each point a process has copied the front of the image, and
all of it when it finds the end. -/
theorem raw_copy_complete [DecidableEq τ] (hB : B.Immutable F) (hF : H.Separates chunks F)
    (hw : w.Whole) {c : Config (DedupTask τ) (DedupShared ω B.size) RawPc}
    (hc : (rawProgram B H core faults w τ (Inv B F H chunks core)).toSystem.Reach
      (RawEnvironment B F H chunks) c) {t : DedupTask τ} {bytes : List UInt8} :
    (c.loc t = .copying bytes → bytes <+: F.slice 0 F.len) ∧
      (c.loc t = .copied bytes → bytes = F.slice 0 F.len) := by
  have hholds := Program.invariant (I := Inv B F H chunks core)
    (A := fun _ _ => RawAssertion B F H chunks w) ?_ ?_ ?_ ?_ hc
  · have hfront {bytes : List UInt8} (h : FrontOf F bytes) : bytes <+: F.slice 0 F.len := by
      rw [h.2, ← Nat.add_sub_cancel' h.1, ← ByteFile.slice_append]
      exact List.prefix_append _ _
    have ht := hholds.2 t
    constructor
    · intro hpc
      rw [hpc] at ht
      exact hfront ht
    · intro hpc
      rw [hpc] at ht
      obtain ⟨hcopied, hlen⟩ := ht
      rw [← hlen]
      exact hcopied.2
  · rintro c ⟨hstart, hidle⟩
    refine ⟨hstart, fun t => ?_⟩
    rcases hidle t with h | ⟨u, -, h⟩
    · rw [h]
      trivial
    · rw [h]
      exact ⟨Nat.zero_le _, rfl⟩
  · exact fun c t s' pc' h _ hstep => RawStep.own hB hF hw h.1 (h.2 t) hstep
  · exact fun c t u s' pc' h _ _ _ => h.2 u
  · exact fun c e s' h hok henv =>
      ⟨env_step (c := ⟨c.shared, fun _ => .idle⟩) h.1 hok henv, h.2⟩

end Copies

/-! ### A copy of one byte -/

section Run

open Dedup

/-- A writer that accepts whole slices. -/
def acceptAll : Writer := ⟨fun _ data => .ok data.length⟩

/-- The reader of an image of one byte, with no client. -/
def rawCore : DedupCore := ⟨Vector.replicate 32 0, false⟩

/-- One process is at `pc`, and the workers are idle. -/
def alone (pc : RawPc) : DedupTask Unit → RawPc
  | .reader _ => pc
  | _ => .task .idle

variable {s s' : DedupShared Unit 1} {pc pc' : RawPc}

/-- Runs of one process. -/
def CopyReach (s : DedupShared Unit 1) (pc : RawPc) : Prop :=
  (rawProgram (.serve (.ofList [7])) lengthHashes rawCore False acceptAll Unit
    (Inv (.serve (.ofList [7])) (.ofList [7]) lengthHashes {[], [7]} rawCore)).toSystem.Reach
    (RawEnvironment (.serve (.ofList [7])) (.ofList [7]) lengthHashes {[], [7]}) ⟨s, alone pc⟩

theorem CopyReach.next (hc : CopyReach s pc)
    (h : RawStep (.serve (.ofList [7])) lengthHashes rawCore False acceptAll (.reader ()) s pc s'
      pc') : CopyReach s' pc' :=
  Program.Reach.thread (.reader ()) hc trivial h (funext fun t => by cases t <;> rfl)

theorem raw_copy_complete_oneByte : ∃ c : Config (DedupTask Unit) (DedupShared Unit 1) RawPc,
    ∃ bytes, c.loc (.reader ()) = .copied bytes ∧ bytes = [7] := by
  let info : DedupInfo := .new 0 1 (.fromData lengthHashes [7] .blake3)
  have hlookup : (oneByte rawCore.id).indexDb.dedupRange rawCore.id 0 1 = [(info, 1)] := by
    rw [oneByte, IndexDb.dedupRange, IndexDb.keysFrom_add_empty]
    decide
  have h₀ : CopyReach (oneByte rawCore.id) (.copying []) :=
    .init ⟨oneByte_inv rawCore, fun t => by
      cases t with
      | reader u => exact Or.inr ⟨u, rfl, rfl⟩
      | _ => exact Or.inl rfl⟩
  have hsize : 4096 ≠ 0 := by decide
  have h₁ := h₀.next (.read hsize (RawImage.read_of_lt hsize Nat.one_pos))
  have h₂ := h₁.next (.inner (fun _ _ _ h => (by cases h))
    (.lookup hlookup (List.cons_ne_nil _ _)) (fun h => (by cases h)))
  have h₃ := h₂.next (.inner (fun _ _ _ h => (by cases h)) (.recorded rfl le_rfl)
    (fun h => (by cases h)))
  have h₄ := h₃.next (.inner (fun _ _ _ h => (by cases h))
    (.hit (show Store.chunkRange _ _ _ _ = .ok (some [7]) from rfl) rfl) (fun h => (by cases h)))
  have h₅ := h₄.next (.inner (fun _ _ _ h => (by cases h)) .copied (fun h => (by cases h)))
  have h₆ := h₅.next (.more (by decide))
  have h₇ := h₆.next (.readNothing hsize (RawImage.read_of_le le_rfl))
  obtain ⟨-, hcopied⟩ := raw_copy_complete (Backend.immutable_serve _) lengthHashes_separates
    (fun _ _ => rfl) h₇ (t := .reader ())
  exact ⟨⟨oneByte rawCore.id, alone (.copied [7])⟩, [7], rfl, hcopied rfl⟩

end Run

end DistillFs
