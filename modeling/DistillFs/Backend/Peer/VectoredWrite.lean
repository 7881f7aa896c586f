import DistillFs.Backend.Peer.Wire

/-!
# The loop of a vectored write

A response is written to a socket that takes some of the bytes it is offered, or would block. The
socket may go on like this forever; after each attempt the bytes it has taken, followed by the
slices that it is offered next, are the header and the payload.

## Main definitions

* `attempt`, `cursorAfter`: the cursor after some attempts.
* `LegalWrites`, `KeepsWriting`: what the socket does.

## Main results

* `vectored_write_exact`: each byte is sent once, and the loop ends after the last one.
-/

namespace DistillFs

namespace VectoredWriteCursor

/-- One attempt of the loop. -/
def attempt (c : VectoredWriteCursor) (event : TryWrite) : VectoredWriteCursor :=
  if c.isEmpty then c
  else
    match event with
    | .wrote written => c.advance written
    | .wouldBlock => c
    | .failed => c

/-- The cursor after `n` attempts. -/
def cursorAfter (events : ℕ → TryWrite) (c : VectoredWriteCursor) : ℕ → VectoredWriteCursor
  | 0 => c
  | n + 1 => (cursorAfter events c n).attempt (events n)

/-- At each attempt the socket would block, or takes at least one of the bytes that it is offered,
and not more. -/
def LegalWrites (events : ℕ → TryWrite) (c : VectoredWriteCursor) : Prop :=
  ∀ n, (cursorAfter events c n).isEmpty = false → events n = .wouldBlock ∨
    ∃ written, events n = .wrote written ∧ 0 < written ∧
      written ≤ (cursorAfter events c n).fillIoSlices.flatten.length

/-- The socket takes bytes again and again. -/
def KeepsWriting (events : ℕ → TryWrite) : Prop :=
  ∀ m, ∃ n, m ≤ n ∧ ∃ written, events n = .wrote written

variable {events : ℕ → TryWrite} {c : VectoredWriteCursor} {m n : ℕ}

theorem cursorAfter_succ' (events : ℕ → TryWrite) (c : VectoredWriteCursor) (n : ℕ) :
    cursorAfter events c (n + 1) =
      cursorAfter (fun k => events (k + 1)) (c.attempt (events 0)) n := by
  induction n with
  | zero => rfl
  | succ n ih => rw [cursorAfter, ih, cursorAfter]

theorem LegalWrites.tail (h : LegalWrites events c) :
    LegalWrites (fun k => events (k + 1)) (c.attempt (events 0)) := fun n hn => by
  rw [← cursorAfter_succ'] at hn ⊢
  exact h (n + 1) hn

theorem attempt_of_isEmpty (h : c.isEmpty = true) (event : TryWrite) : c.attempt event = c :=
  if_pos h

theorem attempt_wouldBlock (c : VectoredWriteCursor) : c.attempt .wouldBlock = c := by
  unfold attempt
  split_ifs <;> rfl

theorem attempt_wrote (h : c.isEmpty = false) (written : ℕ) :
    c.attempt (.wrote written) = c.advance written := by
  unfold attempt
  rw [h, if_neg Bool.false_ne_true]

theorem cursorAfter_of_isEmpty (h : c.isEmpty = true) (n : ℕ) : cursorAfter events c n = c := by
  induction n with
  | zero => rfl
  | succ n ih => rw [cursorAfter, ih, attempt_of_isEmpty h]

/-- The first attempts of the loop: what was taken, followed by what is left, is what was left at
first, and the loop has ended if nothing is left. -/
theorem writeParts_range (h : LegalWrites events c) (n : ℕ) :
    (writeParts ((List.range n).map events) c).1 ++ (cursorAfter events c n).left = c.left ∧
      (writeParts ((List.range n).map events) c).2 =
        if (cursorAfter events c n).isEmpty then .ok else .pending := by
  induction n generalizing events c with
  | zero => exact ⟨rfl, rfl⟩
  | succ n ih =>
    have hlist : (List.range (n + 1)).map events =
        events 0 :: (List.range n).map fun k => events (k + 1) := by
      rw [List.range_succ_eq_map, List.map_cons, List.map_map]
      rfl
    rw [hlist]
    cases hempty : c.isEmpty with
    | true =>
      simp only [writeParts, hempty, if_true, cursorAfter_of_isEmpty hempty, List.nil_append,
        and_self]
    | false =>
      obtain ⟨hsent, hresult⟩ := ih h.tail
      rw [cursorAfter_succ']
      rcases h 0 hempty with hblock | ⟨written, hwrote, hpos, hle⟩
      · rw [hblock, attempt_wouldBlock] at hsent hresult
        rw [hblock, attempt_wouldBlock]
        simp only [writeParts, hempty, Bool.false_eq_true, if_false]
        exact ⟨hsent, hresult⟩
      · change written ≤ c.fillIoSlices.flatten.length at hle
        rw [hwrote, attempt_wrote hempty] at hsent hresult
        rw [hwrote, attempt_wrote hempty]
        have htaken : (c.fillIoSlices.flatten.take written).length = written :=
          List.length_take_of_le hle
        simp only [writeParts, hempty, Bool.false_eq_true, if_false, htaken, hpos.ne']
        rw [flatten_fillIoSlices] at hle ⊢
        refine ⟨?_, hresult⟩
        rw [List.append_assoc, hsent, left_advance hle]
        exact List.take_append_drop ..

/-- The bytes left become fewer with each attempt that takes some. -/
theorem length_left_attempt (h : LegalWrites events c) (n : ℕ) :
    (cursorAfter events c (n + 1)).left.length ≤ (cursorAfter events c n).left.length ∧
      ((cursorAfter events c n).isEmpty = false → (∃ written, events n = .wrote written) →
        (cursorAfter events c (n + 1)).left.length < (cursorAfter events c n).left.length) := by
  rw [cursorAfter]
  cases hempty : (cursorAfter events c n).isEmpty with
  | true =>
    rw [attempt_of_isEmpty hempty]
    exact ⟨le_rfl, fun hne => by cases hne⟩
  | false =>
    rcases h n hempty with hblock | ⟨written, hwrote, hpos, hle⟩
    · rw [hblock, attempt_wouldBlock]
      exact ⟨le_rfl, fun _ ⟨_, hwrote⟩ => by cases hwrote⟩
    · rw [flatten_fillIoSlices] at hle
      rw [hwrote, attempt_wrote hempty, left_advance hle, List.length_drop]
      exact ⟨Nat.sub_le _ _, fun _ _ => by omega⟩

theorem length_left_anti (h : LegalWrites events c) (hmn : m ≤ n) :
    (cursorAfter events c n).left.length ≤ (cursorAfter events c m).left.length := by
  induction n, hmn using Nat.le_induction with
  | base => exact le_rfl
  | succ n _ ih => exact (length_left_attempt h n).1.trans ih

/-- A socket that takes bytes again and again ends the loop. -/
theorem exists_isEmpty (h : LegalWrites events c) (hkeeps : KeepsWriting events) :
    ∃ n, (cursorAfter events c n).isEmpty = true := by
  by_contra hnone
  push Not at hnone
  have hopen : ∀ n, (cursorAfter events c n).isEmpty = false :=
    fun n => eq_false_of_ne_true (hnone n)
  -- the bytes left fall below any bound
  have hfall : ∀ k, ∃ n, (cursorAfter events c n).left.length + k ≤ c.left.length := by
    intro k
    induction k with
    | zero => exact ⟨0, le_rfl⟩
    | succ k ih =>
      obtain ⟨m, hm⟩ := ih
      obtain ⟨n, hmn, hwrote⟩ := hkeeps m
      have hle := length_left_anti h hmn
      have hlt := (length_left_attempt h n).2 (hopen n) hwrote
      exact ⟨n + 1, by omega⟩
  obtain ⟨n, hn⟩ := hfall (c.left.length + 1)
  omega

end VectoredWriteCursor

open VectoredWriteCursor

/-- **The vectored write.** After each attempt what the socket has taken and the slices offered next
are together the header and the payload; the loop ends, without an error, as soon as all is taken;
and it ends if the socket takes bytes again and again. -/
theorem vectored_write_exact (header payload : List UInt8) (events : ℕ → TryWrite)
    (hlegal : LegalWrites events ⟨header, payload, 0⟩) :
    (∀ n, let run := writeParts ((List.range n).map events) ⟨header, payload, 0⟩
      run.1 ++ (cursorAfter events ⟨header, payload, 0⟩ n).fillIoSlices.flatten =
        header ++ payload ∧
      run.2 = if run.1 = header ++ payload then .ok else .pending) ∧
    (KeepsWriting events →
      ∃ n, (writeParts ((List.range n).map events) ⟨header, payload, 0⟩).2 = .ok) := by
  refine ⟨fun n => ?_, fun hkeeps => ?_⟩
  · obtain ⟨hsent, hresult⟩ := writeParts_range hlegal n
    rw [← flatten_fillIoSlices] at hsent
    refine ⟨hsent, hresult.trans (if_congr ?_ rfl rfl)⟩
    rw [VectoredWriteCursor.isEmpty_iff, ← flatten_fillIoSlices]
    change _ = header ++ payload at hsent
    rw [← hsent]
    exact (List.self_eq_append_right).symm
  · obtain ⟨n, hn⟩ := exists_isEmpty hlegal hkeeps
    exact ⟨n, (writeParts_range hlegal n).2.trans (if_pos hn)⟩

/-- A socket that takes one byte at every second attempt. -/
def everySecond (n : ℕ) : TryWrite := if n % 2 = 0 then .wouldBlock else .wrote 1

theorem vectored_write_everySecond : ∃ n,
    (writeParts ((List.range n).map everySecond) ⟨[1, 2, 3], [4], 0⟩).2 = .ok := by
  refine (vectored_write_exact [1, 2, 3] [4] everySecond fun n hn => ?_).2 fun m => ?_
  · rw [everySecond]
    split_ifs
    · exact Or.inl rfl
    · refine Or.inr ⟨1, rfl, Nat.one_pos, ?_⟩
      rw [flatten_fillIoSlices, Nat.one_le_iff_ne_zero, Ne, List.length_eq_zero_iff]
      intro hnil
      rw [VectoredWriteCursor.isEmpty_iff.mpr hnil] at hn
      cases hn
  · exact ⟨2 * m + 1, by omega, 1, if_neg (by omega)⟩

end DistillFs
