import Mathlib

/-!
# Bounded channels

A channel gives its receiver the values that were sent, in their order. It has room for a number of
them; a value that finds no room is not accepted. The receiver finds out that all senders are gone
when it has received everything.

A channel keeps the values it has accepted and those that were received, so that it can say what it
has to do with them.

## Main definitions

* `SyncChannel`, `SyncChannel.trySend`, `SyncChannel.disconnect`, `SyncChannel.tryRecv`,
  `SyncChannel.recv`.

## Main results

* `SyncChannel.tryRecv_ok`, `SyncChannel.tryRecv_error`: what the receiver gets.
-/

namespace DistillFs.Foundation

/-- A channel with room for `cap` values. -/
structure SyncChannel (α : Type*) (cap : ℕ) where
  /-- What was accepted and not received. -/
  buffer : List α
  /-- There is a sender. -/
  connected : Bool
  accepted : List α
  received : List α
  fifo : received ++ buffer = accepted
  length_le : buffer.length ≤ cap

/-- Why there is nothing to receive. -/
inductive TryRecvError
  | empty
  | disconnected

namespace SyncChannel

variable {α : Type*} {cap : ℕ}

variable (α cap) in
/-- A channel that is new. -/
def new : SyncChannel α cap := ⟨[], true, [], [], rfl, Nat.zero_le _⟩

variable (c : SyncChannel α cap)

/-- Send a value if there is room for it. -/
def trySend (a : α) : SyncChannel α cap :=
  if h : c.buffer.length < cap then
    { c with
      buffer := c.buffer ++ [a]
      accepted := c.accepted ++ [a]
      fifo := by rw [← List.append_assoc, c.fifo]
      length_le := by rwa [List.length_append, List.length_singleton] }
  else c

/-- The last sender goes. -/
def disconnect : SyncChannel α cap := { c with connected := false }

/-- The channel without its first value. -/
def pop : SyncChannel α cap where
  buffer := c.buffer.tail
  connected := c.connected
  accepted := c.accepted
  received := c.received ++ c.buffer.head?.toList
  fifo := by
    rw [← c.fifo, List.append_assoc]
    cases c.buffer <;> rfl
  length_le := c.buffer.length_tail ▸ (Nat.sub_le _ _).trans c.length_le

/-- Receive a value without waiting for it. -/
def tryRecv : Except TryRecvError (α × SyncChannel α cap) :=
  match c.buffer.head? with
  | some a => .ok (a, c.pop)
  | none => .error (if c.connected then .empty else .disconnected)

/-- Receive a value; `none` while there is nothing to receive and a sender left. -/
def recv : Option (Option (α × SyncChannel α cap)) :=
  match c.tryRecv with
  | .ok r => some (some r)
  | .error .empty => none
  | .error .disconnected => some none

variable {c} {c' : SyncChannel α cap} {a : α}

theorem trySend_cases (c : SyncChannel α cap) (a : α) :
    c.trySend a = c ∨ ((c.trySend a).buffer = c.buffer ++ [a] ∧
      (c.trySend a).received = c.received ∧ (c.trySend a).connected = c.connected) := by
  unfold trySend
  split_ifs
  · exact Or.inr ⟨rfl, rfl, rfl⟩
  · exact Or.inl rfl

/-- The receiver gets the first value. -/
theorem tryRecv_ok (h : c.tryRecv = .ok (a, c')) :
    c.buffer = a :: c'.buffer ∧ c'.received = c.received ++ [a] ∧ c'.accepted = c.accepted ∧
      c'.connected = c.connected := by
  unfold tryRecv at h
  cases hbuffer : c.buffer with
  | nil =>
    rw [hbuffer] at h
    cases h
  | cons b rest =>
    rw [hbuffer] at h
    obtain ⟨rfl, rfl⟩ := Prod.mk.inj (Except.ok.inj h)
    refine ⟨?_, ?_, rfl, rfl⟩
    · exact congrArg (b :: ·) (congrArg List.tail hbuffer).symm
    · exact congrArg (c.received ++ ·) (congrArg (fun l => l.head?.toList) hbuffer)

/-- There is nothing to receive, and the receiver knows whether there is a sender. -/
theorem tryRecv_error {e : TryRecvError} (h : c.tryRecv = .error e) :
    c.buffer = [] ∧ e = if c.connected then .empty else .disconnected := by
  unfold tryRecv at h
  cases hbuffer : c.buffer with
  | nil =>
    rw [hbuffer] at h
    exact ⟨rfl, (Except.error.inj h).symm⟩
  | cons b rest =>
    rw [hbuffer] at h
    cases h

theorem recv_eq_none (h : c.recv = none) : c.buffer = [] ∧ c.connected = true := by
  unfold recv at h
  split at h
  · cases h
  next herr =>
    obtain ⟨hbuffer, he⟩ := tryRecv_error herr
    exact ⟨hbuffer, by by_contra hc; rw [if_neg hc] at he; cases he⟩
  · cases h

theorem recv_eq_value (h : c.recv = some (some (a, c'))) : c.tryRecv = .ok (a, c') := by
  unfold recv at h
  split at h
  next r hr => rw [hr, Option.some.inj (Option.some.inj h)]
  · cases h
  · cases h

theorem recv_eq_disconnected (h : c.recv = some none) : c.buffer = [] ∧ c.connected = false := by
  unfold recv at h
  split at h
  · cases h
  · cases h
  next herr =>
    obtain ⟨hbuffer, he⟩ := tryRecv_error herr
    refine ⟨hbuffer, Bool.eq_false_iff.mpr fun hc => ?_⟩
    rw [if_pos hc] at he
    cases he

end SyncChannel

end DistillFs.Foundation
