import DistillFs.Backend.Dedup.Requests

/-!
# Between the lookup of a read and its copy

A read looks its range up once, and copies the parts without a record from the cache later. Nothing
keeps the workers from recording such a part and dropping its cached copy in between. If no record
is made over a part that a read still has to copy, and if the lookups report every record, then no
cached copy is dropped under a read.

## Main definitions

* `DedupPc.Awaits`: the bytes that a read found without a record and has not copied.
* `Dedup.Apart`: the runs in which reads and records do not meet.

## Main results

* `Dedup.no_punch_in_window`, `Dedup.punched_in_window`.
-/

namespace DistillFs

open Foundation

/-- A read that has looked its range up, with the segments it has not copied. -/
def DedupPc.pending : DedupPc → Option (DedupRead × List (DedupInfo × ℕ))
  | .segments r segs _ => some (r, segs)
  | .chunk r info n rest _ _ | .backend r info n rest _ => some (r, (info, n) :: rest)
  | _ => none

/-- Where the segments `segs` begin that are left of a read. -/
def DedupRead.restOff (r : DedupRead) (size : ℕ) (segs : List (DedupInfo × ℕ)) : ℕ :=
  r.off + r.len size - (segs.map Prod.snd).sum

/-- The byte at `x` lies in a part of a read that its lookup found without a record, and that it has
not copied yet. -/
def DedupPc.Awaits (size : ℕ) (pc : DedupPc) (x : ℕ) : Prop :=
  ∃ r segs i, pc.pending = some (r, segs) ∧ r.restOff size segs ≤ x ∧
    IndexDb.segmentAt (r.restOff size segs) segs x = some i ∧ i.cs.isValid = false

namespace Dedup

variable {ω : Type} {τ : Type*} {B : Backend ω} {H : Hashes} {core : DedupCore} {faults : Prop}

/-- The readers send the requests; each lookup of a read is one that reports every record; and no
record is made over a part that a read has found without one and still has to copy. -/
def Apart (core : DedupCore) {size : ℕ} (c : Config (DedupTask τ) (DedupShared ω size) DedupPc) :
    DedupTask τ ⊕ DedupEvent size → Prop
  | .inl t => (c.loc t).FromReaders c.shared.indexDb core.id ∧
    (∀ r, c.loc t = .lookup r → c.shared.indexDb.FoundFirst core.id r.off ∧
      c.shared.indexDb.Gapless core.id r.off (r.len size)) ∧
    ∀ req n cs, c.loc t = .record req n cs → ∀ u x, (c.loc u).Awaits size x →
      ¬(req.off ≤ x ∧ x < req.off + n)
  | .inr _ => True

/-- The segments left of a read lie in its range, and its parts without a record have none yet. -/
def Windowed (core : DedupCore) (size : ℕ) (db : IndexDb) (pc : DedupPc) : Prop :=
  (∀ r segs, pc.pending = some (r, segs) → (segs.map Prod.snd).sum ≤ r.len size) ∧
    ∀ x, pc.Awaits size x → ¬db.Covered core.id x

section Windowed

variable {size : ℕ} {db : IndexDb} {pc pc' : DedupPc} {r : DedupRead} {seg : DedupInfo × ℕ}
  {rest : List (DedupInfo × ℕ)}

theorem windowed_of_none (h : pc.pending = none) : Windowed core size db pc := by
  constructor
  · intro r segs hpending
    rw [h] at hpending
    cases hpending
  · rintro x ⟨r, segs, i, hpending, -⟩
    rw [h] at hpending
    cases hpending

theorem Windowed.of_eq (hw : Windowed core size db pc) (h : pc'.pending = pc.pending) :
    Windowed core size db pc' := by
  unfold Windowed DedupPc.Awaits at *
  rwa [h]

/-- A read that has copied its next segment. -/
theorem Windowed.tail (hw : Windowed core size db pc) (h : pc.pending = some (r, seg :: rest))
    (h' : pc'.pending = some (r, rest)) : Windowed core size db pc' := by
  have hsum := hw.1 r _ h
  rw [List.map_cons, List.sum_cons] at hsum
  have hoff : r.restOff size rest = r.restOff size (seg :: rest) + seg.2 := by
    simp only [DedupRead.restOff, List.map_cons, List.sum_cons]
    omega
  constructor
  · intro r₁ segs₁ hpending
    obtain ⟨rfl, rfl⟩ := Prod.mk.inj (Option.some.inj (h'.symm.trans hpending))
    omega
  · rintro x ⟨r₁, segs₁, i, hpending, hx, hi, hinvalid⟩
    obtain ⟨rfl, rfl⟩ := Prod.mk.inj (Option.some.inj (h'.symm.trans hpending))
    rw [hoff] at hx hi
    refine hw.2 x ⟨r, seg :: rest, i, h, by omega, ?_, hinvalid⟩
    rwa [IndexDb.segmentAt, if_neg (by omega)]

end Windowed

variable {s s' : DedupShared ω B.size} {t : DedupTask τ} {pc pc' : DedupPc}

/-- A step of a task leaves it with parts that have no record. -/
theorem windowed_step (hI : s.indexDb.Chunked core.id B.size)
    (hw : Windowed core B.size s.indexDb pc)
    (hok : ∀ r, pc = .lookup r → s.indexDb.FoundFirst core.id r.off ∧
      s.indexDb.Gapless core.id r.off (r.len B.size))
    (h : DedupStep B H core faults t s pc s' pc') : Windowed core B.size s'.indexDb pc' := by
  cases h with
  | @lookup t _ r segs hsegs hne =>
    obtain ⟨-, hsum, -⟩ := s.indexDb.partition_dedupRange core.id r.off (r.len B.size)
    rw [hsegs] at hsum
    have hlen : 0 < r.len B.size := by
      by_contra hzero
      rw [IndexDb.dedupRange, if_pos (by omega)] at hsegs
      exact hne hsegs.symm
    have hres := (IndexDb.resolves_iff hI.separate _ _ hlen).mpr (hok r rfl)
    constructor
    · intro r₁ segs₁ hpending
      obtain ⟨rfl, rfl⟩ := Prod.mk.inj (Option.some.inj hpending)
      exact hsum.le
    · rintro x ⟨r₁, segs₁, i, hpending, hx, hi, hinvalid⟩
      obtain ⟨rfl, rfl⟩ := Prod.mk.inj (Option.some.inj hpending)
      rw [DedupRead.restOff, hsum, Nat.add_sub_cancel] at hx hi
      exact hres.not_covered hx (hsegs ▸ hi) hinvalid
  | missing | recorded | miss => exact hw.of_eq rfl
  | hitError | chunkError | chunkFault | missed => exact hw.of_eq rfl
  | hit | backendOk => exact hw.tail rfl rfl
  | _ => exact windowed_of_none rfl

variable [DecidableEq τ] {c : Config (DedupTask τ) (DedupShared ω B.size) DedupPc}
  {start : DedupShared ω B.size → Prop}

/-- In every such run, what the reads found without a record has none. -/
theorem windowed_of_reach (hstart : ∀ s, start s → s.indexDb.Chunked core.id B.size)
    (hc : (dedupProgram B H core faults τ start).toSystem.Reach (Apart core) c) :
    Program.Holds (fun _ => True) (fun _ s pc => Windowed core B.size s.indexDb pc) c := by
  refine Program.invariant_reach ?_ ?_ ?_ ?_ hc
  · rintro c ⟨-, hidle⟩
    refine ⟨trivial, fun t => ?_⟩
    rw [hidle t]
    exact windowed_of_none rfl
  · intro c t s' pc' hreach h hok hstep
    have hI := (orderly_of_reach hstart (fun c t hok => hok.1) hreach).1
    exact ⟨trivial, windowed_step hI (h.2 t) hok.2.1 hstep⟩
  · intro c t u s' pc' _ h hok _ hstep
    refine ⟨(h.2 u).1, fun x hx => ?_⟩
    have hold := (h.2 u).2 x hx
    generalize hpc : c.loc t = pc at hstep
    generalize hs : c.shared = s at hstep hold
    cases hstep with
    | wasRecorded =>
      exact fun hcov => (IndexDb.covered_add.mp hcov).elim (hok.2.2 _ _ _ hpc u x hx) hold
    | _ => exact hold
  · intro c e s' _ h _ henv
    refine ⟨trivial, fun u => ⟨(h.2 u).1, fun x hx => ?_⟩⟩
    cases henv with
    | otherImage off n cs hid =>
      exact fun hcov => (h.2 u).2 x hx ((IndexDb.covered_add_of_ne hid).mp hcov)
    | _ => exact (h.2 u).2 x hx

/-- **No cached copy is dropped under a read.** In every run in which each lookup of a read is one
that reports every record, and no record is made over a part that a read still has to copy: when a
worker comes to drop the cached copy of a chunk, no read has found a byte of the chunk without a
record and not copied it yet. -/
theorem no_punch_in_window
    (hc : (dedupProgram B H core faults τ fun s =>
      s.indexDb.Chunked core.id B.size).toSystem.Reach (Apart core) c)
    {t : DedupTask τ} {idx : ℕ} {segs : List (DedupInfo × ℕ)} {ids : List ℕ}
    (ht : c.loc t = .punch idx segs ids) (u : DedupTask τ) (x : ℕ)
    (hx : (c.loc u).Awaits B.size x) : ¬(chunkStart idx ≤ x ∧ x < chunkEnd B.size idx) := by
  rintro ⟨hstart, hend⟩
  obtain ⟨-, hA⟩ := orderly_of_reach (fun _ h => h) (fun c t hok => hok.1) hc
  have hpunch := hA t
  rw [ht] at hpunch
  obtain ⟨hvalid, htiles⟩ := hpunch
  refine ((windowed_of_reach (fun _ h => h) hc).2 u).2 x hx ?_
  exact IndexDb.covered_of_valid htiles hvalid hstart (by omega)

/-! ### A local raw file -/

section Run

open IndexDb

/-- A read of one chunk. -/
def chunkRead (idx : ℕ) : DedupRead := ⟨.fetch, chunkStart idx, chunkSize⟩

/-- A read that has found a chunk without a record. -/
def foundMissing (idx : ℕ) : DedupPc :=
  .backend (chunkRead idx) (gap (chunkStart idx) chunkSize).1 chunkSize [] ⟨0, chunkStart idx, []⟩

variable {size idx : ℕ} {ok : Config (DedupTask Unit) (DedupShared Unit size) DedupPc →
    DedupTask Unit ⊕ DedupEvent size → Prop} {start : DedupShared Unit size → Prop} {H : Hashes}

/-- A read finds a chunk without a record. -/
theorem crew_foundMissing (hidx : chunkStart idx + chunkSize ≤ size)
    (hok : ∀ r, r = .idle ∨ r = .lookup (chunkRead idx) ∨ r.pending.isSome →
      ok ⟨localStart size, .crew r .idle .idle⟩ (.inl (.reader ())))
    (hstart : start (localStart size)) :
    (dedupProgram (.empty size) H localReader False Unit start).toSystem.Reach ok
      ⟨localStart size, .crew (foundMissing idx) .idle .idle⟩ := by
  have hpos := chunkSize_pos
  have hlen : (chunkRead idx).len size = chunkSize := by
    change min chunkSize (size - chunkStart idx) = chunkSize
    omega
  have h₀ : (dedupProgram (.empty size) H localReader False Unit start).toSystem.Reach ok
      ⟨localStart size, .crew .idle .idle .idle⟩ := crew_init hstart
  have h₁ := crew_reader h₀ (hok _ (Or.inl rfl))
    (.call (chunkRead idx) hpos.ne' (show chunkStart idx < size by omega))
  have h₂ := crew_reader h₁ (hok _ (Or.inr (Or.inl rfl)))
    (.lookup (show empty.dedupRange _ _ ((chunkRead idx).len size) =
      [gap (chunkStart idx) chunkSize] by rw [hlen]; exact dedupRange_empty _ _ hpos)
      (List.cons_ne_nil _ _))
  exact crew_reader h₂ (hok _ (Or.inr (Or.inr rfl))) (.missing (isValid_gap _ _))

theorem restOff_foundMissing (hidx : chunkStart idx + chunkSize ≤ size) :
    (chunkRead idx).restOff size [gap (chunkStart idx) chunkSize] = chunkStart idx := by
  change chunkStart idx + min chunkSize (size - chunkStart idx) - (chunkSize + 0) = chunkStart idx
  omega

/-- The read awaits the bytes of the chunk. -/
theorem awaits_foundMissing (hidx : chunkStart idx + chunkSize ≤ size) :
    (foundMissing idx).Awaits size (chunkStart idx) := by
  have hpos := chunkSize_pos
  have hoff := restOff_foundMissing hidx
  refine ⟨chunkRead idx, [gap (chunkStart idx) chunkSize], (gap (chunkStart idx) chunkSize).1, rfl,
    hoff.le, ?_, isValid_gap _ _⟩
  rw [hoff, gap, segmentAt, if_pos (by omega)]

/-- A read has found the second chunk without a record when the cached copy of the first one is
dropped. -/
theorem no_punch_in_window_run :
    ∃ (c : Config (DedupTask Unit) (DedupShared Unit (2 * chunkSize)) DedupPc)
      (segs : List (DedupInfo × ℕ)), c.loc .dedupWorker = .punch 0 segs [] ∧
      (c.loc (.reader ())).Awaits (2 * chunkSize) (chunkStart 1) ∧
      ¬(chunkStart 0 ≤ chunkStart 1 ∧ chunkStart 1 < chunkEnd (2 * chunkSize) 0) := by
  have hpos := chunkSize_pos
  have hidx : chunkStart 1 + chunkSize ≤ 2 * chunkSize := by
    rw [chunkStart]
    omega
  have hempty : ∀ k, k ∉ empty.keys := Finset.notMem_empty
  have h₁ : (dedupProgram (.empty (2 * chunkSize)) constantHashes localReader False Unit fun s =>
      s.indexDb.Chunked localReader.id (2 * chunkSize)).toSystem.Reach (Apart localReader)
      ⟨localStart (2 * chunkSize), .crew (foundMissing 1) .idle .idle⟩ := by
    refine crew_foundMissing hidx (fun r hr => ⟨?_, fun r' _ => ⟨fun k hk => absurd hk (hempty k),
      fun x _ _ h => h.elim fun k hk => absurd hk.1 (hempty k)⟩, fun req n cs h => ?_⟩)
      chunked_empty
    · obtain rfl | rfl | hr := hr
      · trivial
      · trivial
      · change r.FromReaders _ _
        cases r with
        | check | sync => cases hr
        | _ => trivial
    · change r = _ at h
      subst h
      simp [DedupPc.pending] at hr
  have hwork : ∀ (s' : DedupShared Unit (2 * chunkSize)) d, FirstRun s'.indexDb d →
      Apart localReader ⟨s', .crew (foundMissing 1) d .idle⟩ (.inl .dedupWorker) := by
    intro s' d hrun
    refine ⟨fromReaders_of_firstRun hrun, fun r h => ?_, fun req n cs h u x hx hover => ?_⟩
    · change d = _ at h
      subst h
      exact hrun.elim
    · change d = _ at h
      subst h
      obtain ⟨rfl, rfl⟩ := hrun
      obtain ⟨r, segs, i, hpending, hle, -⟩ := hx
      cases u with
      | reader u =>
        obtain ⟨rfl, rfl⟩ := Prod.mk.inj (Option.some.inj hpending)
        have hoff := hle.trans' (restOff_foundMissing hidx).ge
        have hend : x < 0 + chunkSize := hover.2
        rw [chunkStart] at hoff
        omega
      | dedupWorker => cases hpending
      | syncWorker => cases hpending
  have h₂ := crew_deduped (Nat.le_mul_of_pos_left _ two_pos) rfl hwork h₁
  have hsafe := no_punch_in_window h₂ (t := .dedupWorker) rfl (.reader ()) _
    (awaits_foundMissing hidx)
  exact ⟨⟨deduped constantHashes (localStart (2 * chunkSize)), .crew (foundMissing 1) (.punch 0
    [(firstInfo constantHashes (localStart (2 * chunkSize)), chunkSize)] []) .idle⟩, _, rfl,
    awaits_foundMissing hidx, hsafe⟩

/-- A read has found the first chunk without a record, and the cached copy is dropped before the
read has copied it. -/
theorem punched_in_window :
    ∃ (c : Config (DedupTask Unit) (DedupShared Unit chunkSize) DedupPc)
      (segs : List (DedupInfo × ℕ)) (x : ℕ),
      (dedupProgram (.empty chunkSize) constantHashes localReader False Unit fun s =>
        s.indexDb.Chunked localReader.id chunkSize).toSystem.Reachable c ∧
      c.loc .dedupWorker = .punch 0 segs [] ∧ (c.loc (.reader ())).Awaits chunkSize x ∧
      chunkStart 0 ≤ x ∧ x < chunkEnd chunkSize 0 := by
  have hidx : chunkStart 0 + chunkSize ≤ chunkSize := by rw [chunkStart, Nat.zero_mul, Nat.zero_add]
  have h₁ : (dedupProgram (.empty chunkSize) constantHashes localReader False Unit fun s =>
      s.indexDb.Chunked localReader.id chunkSize).toSystem.Reachable
      ⟨localStart chunkSize, .crew (foundMissing 0) .idle .idle⟩ :=
    crew_foundMissing hidx (fun _ _ => trivial) chunked_empty
  have h₂ := crew_deduped le_rfl rfl (fun _ _ _ => trivial) h₁
  refine ⟨_, _, chunkStart 0, h₂, rfl, awaits_foundMissing hidx, le_rfl, ?_⟩
  exact chunkStart_lt_chunkEnd (chunkSize_pos.trans_le' (Nat.zero_mul _).le)

end Run

end Dedup

end DistillFs
