import Mathlib.Data.List.Flatten
import Mathlib.Data.List.Infix

/-!
# Frames in a stream

One end of a stream writes frames, and the other one reads a frame from the front of what has
arrived so far. A reader that ignores what follows a frame, and makes nothing else of the bytes of a
frame, never loses its place: it reads the frames that were written, in order, wherever the stream
was cut when it looked.

## Main definitions

* `FrameReader`: the bytes of frames, and a way to read them.
* `FrameReader.Keeps`: nothing else is read from the bytes of a frame.

## Main results

* `FrameReader.read_front`: what is read from the front of written frames.
-/

namespace DistillFs.Foundation

/-- A way to read frames from a stream. -/
structure FrameReader (α β : Type*) where
  bytes : α → List β
  /-- The frame in front, and what follows it. -/
  read : List β → Option (α × List β)
  read_nil : read [] = none
  /-- A frame is read whatever follows it. -/
  read_append {front rest : List β} {a : α} (h : read front = some (a, rest)) (extra : List β) :
    read (front ++ extra) = some (a, rest ++ extra)

namespace FrameReader

variable {α β : Type*} (R : FrameReader α β)

/-- From the bytes of the frame `a` the reader reads `a`, or it refuses them. -/
def Keeps (a : α) : Prop := ∀ rest p, R.read (R.bytes a ++ rest) = some p → p = (a, rest)

variable {R} {a : α} {frames : List α} {front rest : List β}

/-- **A reader keeps its place.** What is read from a front of the bytes of frames is the first of
the frames, and what follows it is a front of the bytes of the others. -/
theorem read_front (hkeeps : ∀ f ∈ frames, R.Keeps f) (hfront : front <+: frames.flatMap R.bytes)
    (h : R.read front = some (a, rest)) :
    ∃ others, frames = a :: others ∧ front = R.bytes a ++ rest ∧
      rest <+: others.flatMap R.bytes := by
  obtain ⟨extra, hextra⟩ := hfront
  cases frames with
  | nil =>
    obtain ⟨rfl, -⟩ := List.append_eq_nil_iff.mp hextra
    rw [R.read_nil] at h
    cases h
  | cons f others =>
    have hread := R.read_append h extra
    rw [hextra, List.flatMap_cons] at hread
    obtain ⟨rfl, hrest⟩ := Prod.mk.inj (hkeeps f List.mem_cons_self _ _ hread)
    refine ⟨others, rfl, (List.append_left_inj extra).mp ?_, ⟨extra, hrest⟩⟩
    rw [hextra, List.flatMap_cons, List.append_assoc, hrest]

end FrameReader

end DistillFs.Foundation
