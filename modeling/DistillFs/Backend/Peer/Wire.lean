import DistillFs.Backend.ChunkDb.Store
import DistillFs.Backend.Basic
import DistillFs.Foundation.BigEndian

/-!
# Chunks on the wire

A peer answers a request with a header of 13 bytes (the request id, a status, and the length of the
payload, all big-endian) and the payload. The server writes both with vectored writes straight from
the database, as much at a time as the socket takes. The client reads the header, refuses payloads
of more than one chunk size, and reads the payload.

## Main definitions

* `WireResponse`, `WireResponse.readFrom`, `encodeResponseHeader`.
* `VectoredWriteCursor`, `writeResponseParts`, `serveGetChunk`.

## Main results

* `writeParts_sent`: a write that completes has sent the header and the payload.
* `get_chunk_hit_received`: the client decodes the stored chunk, or refuses it for its length.
-/

namespace DistillFs

open Foundation

/-- The largest payload a client accepts. -/
def maxChunkPayloadSize : ℕ := chunkSize

/-- The bytes of a response header. -/
def responseHeaderLen : ℕ := 13

def statusHit : UInt8 := 0
def statusMiss : UInt8 := 1
def statusError : UInt8 := 2

/-- A response. -/
@[ext] structure WireResponse where
  requestId : UInt64
  status : UInt8
  payload : List UInt8

/-- The header of a response. The length is cut to 32 bits. -/
def encodeResponseHeader (requestId : UInt64) (status : UInt8) (payloadLen : ℕ) : List UInt8 :=
  toBytes 8 requestId.toNat ++ status :: toBytes 4 (UInt32.ofNat payloadLen).toNat

theorem length_encodeResponseHeader (requestId : UInt64) (status : UInt8) (payloadLen : ℕ) :
    (encodeResponseHeader requestId status payloadLen).length = responseHeaderLen := by
  simp [encodeResponseHeader, responseHeaderLen]

/-! ### Reading -/

/-- Why a client refuses a response. -/
inductive ReadError
  | unexpectedEof
  | payloadTooLarge (payloadLen : ℕ)
  deriving DecidableEq

/-- The text of the error. -/
def ReadError.message : ReadError → String
  | .unexpectedEof => "early eof"
  | .payloadTooLarge payloadLen => "payload too large: " ++ toString payloadLen

/-- `read_exact`: the first `n` bytes and those after them. -/
def readExact (n : ℕ) (bytes : List UInt8) : Except ReadError (List UInt8 × List UInt8) :=
  if n ≤ bytes.length then .ok (bytes.take n, bytes.drop n) else .error .unexpectedEof

theorem readExact_append {n : ℕ} {first : List UInt8} (h : first.length = n) (rest : List UInt8) :
    readExact n (first ++ rest) = .ok (first, rest) := by
  subst h
  simp [readExact]

/-- `WireResponse::read_from`: a response from the front of the stream, and what follows it. -/
def WireResponse.readFrom (bytes : List UInt8) : Except ReadError (WireResponse × List UInt8) := do
  let (header, rest) ← readExact responseHeaderLen bytes
  let requestId := UInt64.ofNat (ofBytes (header.take 8))
  let status := header.getD 8 0
  let payloadLen := ofBytes (header.drop 9)
  if payloadLen > maxChunkPayloadSize then
    throw (.payloadTooLarge payloadLen)
  let (payload, rest) ← readExact payloadLen rest
  return (⟨requestId, status, payload⟩, rest)

section Header

variable (requestId : UInt64) (status : UInt8) (payloadLen : ℕ)

theorem take_encodeResponseHeader :
    (encodeResponseHeader requestId status payloadLen).take 8 = toBytes 8 requestId.toNat :=
  List.take_left' (length_toBytes ..)

theorem getD_encodeResponseHeader :
    (encodeResponseHeader requestId status payloadLen).getD 8 0 = status := by
  rw [encodeResponseHeader, List.getD_eq_getElem?_getD,
    List.getElem?_append_right (length_toBytes ..).le, length_toBytes]
  rfl

theorem drop_encodeResponseHeader : (encodeResponseHeader requestId status payloadLen).drop 9 =
    toBytes 4 (UInt32.ofNat payloadLen).toNat := by
  rw [encodeResponseHeader, List.append_cons]
  exact List.drop_left' (by simp)

end Header

/-- What a client makes of a header whose length field is not cut, followed by the payload. -/
theorem readFrom_encode (requestId : UInt64) (status : UInt8) {payload : List UInt8}
    (hlen : payload.length < 2 ^ 32) (rest : List UInt8) :
    WireResponse.readFrom
        (encodeResponseHeader requestId status payload.length ++ (payload ++ rest)) =
      if payload.length ≤ maxChunkPayloadSize then .ok (⟨requestId, status, payload⟩, rest)
      else .error (.payloadTooLarge payload.length) := by
  have hid : UInt64.ofNat (ofBytes (toBytes 8 requestId.toNat)) = requestId := by
    have hlt : requestId.toNat < 256 ^ 8 := requestId.toNat_lt
    rw [ofBytes_toBytes, Nat.mod_eq_of_lt hlt, UInt64.ofNat_toNat]
  have hpayload : ofBytes (toBytes 4 (UInt32.ofNat payload.length).toNat) = payload.length := by
    rw [ofBytes_toBytes, UInt32.toNat_ofNat_of_lt' hlen]
    exact Nat.mod_eq_of_lt hlen
  rw [WireResponse.readFrom, readExact_append (length_encodeResponseHeader ..)]
  simp only [bind, Except.bind, take_encodeResponseHeader, getD_encodeResponseHeader,
    drop_encodeResponseHeader, hid, hpayload, readExact_append rfl rest]
  split_ifs with htoo hle
  · omega
  · rfl
  · rfl
  · omega

/-! ### Writing -/

/-- A header and a payload of which the first `written` bytes were written. -/
structure VectoredWriteCursor where
  header : List UInt8
  payload : List UInt8
  written : ℕ

namespace VectoredWriteCursor

variable (c : VectoredWriteCursor)

def isEmpty : Bool := decide (c.header.length + c.payload.length ≤ c.written)

/-- The slices that are offered to the socket. -/
def fillIoSlices : List (List UInt8) :=
  if c.written < c.header.length then [c.header.drop c.written, c.payload]
  else if c.written - c.header.length < c.payload.length then
    [c.payload.drop (c.written - c.header.length)]
  else []

def advance (written : ℕ) : VectoredWriteCursor :=
  { c with written := min (c.written + written) (c.header.length + c.payload.length) }

/-- The bytes still to write. -/
def left : List UInt8 := (c.header ++ c.payload).drop c.written

/-- The slices are the bytes still to write. -/
theorem flatten_fillIoSlices : c.fillIoSlices.flatten = c.left := by
  unfold fillIoSlices left
  rw [List.drop_append]
  split_ifs with hheader hpayload
  · rw [Nat.sub_eq_zero_of_le hheader.le, List.drop_zero]
    simp
  · rw [List.drop_of_length_le (Nat.le_of_not_lt hheader), List.nil_append,
      List.flatten_singleton]
  · rw [List.drop_of_length_le (Nat.le_of_not_lt hheader),
      List.drop_of_length_le (Nat.le_of_not_lt hpayload)]
    rfl

end VectoredWriteCursor

/-- What the socket does when it is offered bytes: it takes some of them, at most `written`, or it
would block, or it fails. -/
inductive TryWrite
  | wrote (written : ℕ)
  | wouldBlock
  | failed

/-- How the writing of a response ends; it is pending if the socket has not done enough yet. -/
inductive WriteResult
  | ok
  | pending
  | writeZero
  | failed
  deriving DecidableEq

/-- The loop of `write_response_parts`: the bytes the socket takes, and how the loop ends. -/
def writeParts : List TryWrite → VectoredWriteCursor → List UInt8 × WriteResult
  | [], c => ([], if c.isEmpty then .ok else .pending)
  | event :: events, c =>
    if c.isEmpty then ([], .ok)
    else
      match event with
      | .wouldBlock => writeParts events c
      | .failed => ([], .failed)
      | .wrote written =>
        let taken := c.fillIoSlices.flatten.take written
        if taken.length = 0 then ([], .writeZero)
        else
          let (sent, result) := writeParts events (c.advance taken.length)
          (taken ++ sent, result)

/-- `write_response_parts`. -/
def writeResponseParts (requestId : UInt64) (status : UInt8) (payload : List UInt8)
    (events : List TryWrite) : List UInt8 × WriteResult :=
  writeParts events ⟨encodeResponseHeader requestId status payload.length, payload, 0⟩

/-- `write_get_chunk_hit`. -/
def writeGetChunkHit (requestId : UInt64) (payload : List UInt8) (events : List TryWrite) :
    List UInt8 × WriteResult :=
  writeResponseParts requestId statusHit payload events

/-- The answer of the chunk server to a request for a chunk: the stored data, or a miss. -/
def serveGetChunk (s : Store) (requestId : UInt64) (cs : CheckSum) (events : List TryWrite) :
    List UInt8 × WriteResult :=
  match s.getChunk cs with
  | some data => writeGetChunkHit requestId data events
  | none => writeResponseParts requestId statusMiss [] events

/-! ### What the client receives -/

namespace VectoredWriteCursor

variable {c : VectoredWriteCursor}

theorem isEmpty_iff : c.isEmpty ↔ c.left = [] := by
  rw [isEmpty, decide_eq_true_iff, left, List.drop_eq_nil_iff, List.length_append]

/-- Advancing by what was taken of the bytes left leaves the others. -/
theorem left_advance {n : ℕ} (h : n ≤ c.left.length) : (c.advance n).left = c.left.drop n := by
  rw [left, List.length_drop, List.length_append] at h
  rw [left, left, advance, List.drop_drop]
  by_cases hw : c.written ≤ c.header.length + c.payload.length
  · rw [Nat.min_eq_left (by omega)]
  · rw [Nat.min_eq_right (by omega), List.drop_of_length_le (by simp),
      List.drop_of_length_le (by simp; omega)]

end VectoredWriteCursor

/-- A loop that completes has sent the bytes that were left. -/
theorem writeParts_sent {events : List TryWrite} {c : VectoredWriteCursor}
    (h : (writeParts events c).2 = .ok) : (writeParts events c).1 = c.left := by
  induction events generalizing c with
  | nil =>
    rw [writeParts] at h ⊢
    split_ifs at h with hempty
    exact (VectoredWriteCursor.isEmpty_iff.mp hempty).symm
  | cons event events ih =>
    by_cases hempty : c.isEmpty = true
    · rw [VectoredWriteCursor.isEmpty_iff.mp hempty]
      simp only [writeParts, hempty, if_true]
    · simp only [writeParts, hempty, Bool.false_eq_true, if_false] at h ⊢
      cases event with
      | wouldBlock => exact ih h
      | failed => cases h
      | wrote written =>
        dsimp only at h ⊢
        rw [VectoredWriteCursor.flatten_fillIoSlices] at h ⊢
        split_ifs at h ⊢ with hzero
        dsimp only at h ⊢
        have hlen : (c.left.take written).length ≤ c.left.length := List.length_take_le' ..
        have htake : c.left.take written = c.left.take (c.left.take written).length := by
          rw [List.length_take, List.take_eq_take_iff]
          omega
        rw [ih h, VectoredWriteCursor.left_advance hlen]
        nth_rewrite 1 [htake]
        exact List.take_append_drop ..

/-- A socket that fails or refuses no write completes a response, at the latest when it has taken
one byte for each event. -/
theorem writeParts_completes {events : List TryWrite} {c : VectoredWriteCursor}
    (hgood : ∀ event ∈ events, event ≠ .failed ∧ event ≠ .wrote 0)
    (hlen : c.left.length ≤ events.countP fun event => event matches .wrote _) :
    (writeParts events c).2 = .ok := by
  induction events generalizing c with
  | nil =>
    have hnil : c.left = [] := List.length_eq_zero_iff.mp (Nat.le_zero.mp hlen)
    rw [writeParts, if_pos (VectoredWriteCursor.isEmpty_iff.mpr hnil)]
  | cons event events ih =>
    have hrest := fun e he => hgood e (List.mem_cons_of_mem _ he)
    by_cases hempty : c.isEmpty = true
    · simp only [writeParts, hempty, if_true]
    · simp only [writeParts, hempty, Bool.false_eq_true, if_false]
      cases event with
      | wouldBlock => exact ih hrest hlen
      | failed => exact absurd rfl (hgood _ List.mem_cons_self).1
      | wrote written =>
        have hwritten : written ≠ 0 := fun h0 => (hgood _ List.mem_cons_self).2 (h0 ▸ rfl)
        have hleft : c.left.length ≠ 0 := fun h0 =>
          hempty (VectoredWriteCursor.isEmpty_iff.mpr (List.length_eq_zero_iff.mp h0))
        rw [List.countP_cons_of_pos rfl] at hlen
        dsimp only
        rw [VectoredWriteCursor.flatten_fillIoSlices, List.length_take, if_neg (by omega)]
        refine ih hrest ?_
        rw [VectoredWriteCursor.left_advance (Nat.min_le_right ..), List.length_drop]
        omega

/-- A socket that takes everything at once completes a response. -/
theorem writeParts_once (c : VectoredWriteCursor) :
    (writeParts [.wrote c.left.length] c).2 = .ok := by
  by_cases hempty : c.isEmpty = true
  · simp only [writeParts, hempty, if_true]
  · have hleft : c.left.length ≠ 0 := fun h0 =>
      hempty (VectoredWriteCursor.isEmpty_iff.mpr (List.length_eq_zero_iff.mp h0))
    have hdone : (c.advance c.left.length).isEmpty = true := by
      rw [VectoredWriteCursor.isEmpty_iff, VectoredWriteCursor.left_advance le_rfl,
        List.drop_length]
    simp only [writeParts, hempty, VectoredWriteCursor.flatten_fillIoSlices, List.take_length,
      hleft, hdone, Bool.false_eq_true, if_false, if_true]

/-- The bytes the server sends for a hit. -/
theorem serveGetChunk_sent {s : Store} {cs : CheckSum} {data : List UInt8}
    (hdata : s.getChunk cs = some data) {requestId : UInt64} {events : List TryWrite}
    (hok : (serveGetChunk s requestId cs events).2 = .ok) :
    (serveGetChunk s requestId cs events).1 =
      encodeResponseHeader requestId statusHit data.length ++ data := by
  have hserve : serveGetChunk s requestId cs events =
      writeParts events ⟨encodeResponseHeader requestId statusHit data.length, data, 0⟩ := by
    rw [serveGetChunk, hdata]
    rfl
  rw [hserve] at hok ⊢
  exact writeParts_sent hok

/-- **What a client makes of a stored chunk.** When the server has written a chunk that is shorter
than 4 GiB, the client decodes the request id, a hit and the stored data if the data is at most one
chunk size long, and refuses the response for its length otherwise. -/
theorem get_chunk_hit_received {s : Store} {cs : CheckSum} {data : List UInt8}
    (hdata : s.getChunk cs = some data) (hlen : data.length < 2 ^ 32) {requestId : UInt64}
    {events : List TryWrite} (hok : (serveGetChunk s requestId cs events).2 = .ok)
    (rest : List UInt8) :
    WireResponse.readFrom ((serveGetChunk s requestId cs events).1 ++ rest) =
      if data.length ≤ maxChunkPayloadSize then .ok (⟨requestId, statusHit, data⟩, rest)
      else .error (.payloadTooLarge data.length) := by
  rw [serveGetChunk_sent hdata hok, List.append_assoc]
  exact readFrom_encode requestId statusHit hlen rest

/-- A database with one chunk of zeros. -/
def zerosStore (n : ℕ) : Store := Store.empty.getOrPut .empty (List.replicate n 0)

theorem getChunk_zerosStore (n : ℕ) :
    (zerosStore n).getChunk .empty = some (List.replicate n 0) := by
  rw [Store.getChunk, zerosStore, Store.data_getOrPut, if_pos rfl]
  rfl

/-- A socket that takes the response with that chunk at once. -/
def zerosEvents (n : ℕ) : List TryWrite :=
  [.wrote (VectoredWriteCursor.left
    ⟨encodeResponseHeader 1 statusHit (List.replicate n (0 : UInt8)).length,
      List.replicate n 0, 0⟩).length]

theorem serveGetChunk_zeros (n : ℕ) :
    (serveGetChunk (zerosStore n) 1 .empty (zerosEvents n)).2 = .ok := by
  rw [serveGetChunk, getChunk_zerosStore]
  exact writeParts_once _

theorem get_chunk_hit_received_zeros :
    WireResponse.readFrom ((serveGetChunk (zerosStore 3) 1 .empty (zerosEvents 3)).1 ++ []) =
      .ok (⟨1, statusHit, [0, 0, 0]⟩, []) := by
  rw [get_chunk_hit_received (getChunk_zerosStore 3) (by decide) (serveGetChunk_zeros 3) []]
  exact if_pos (by rw [maxChunkPayloadSize, chunkSize]; decide)

/-- The client refuses a stored chunk that is one byte longer than a chunk size. -/
theorem oversized_chunk_refused :
    (zerosStore (chunkSize + 1)).getChunk .empty = some (List.replicate (chunkSize + 1) 0) ∧
    (serveGetChunk (zerosStore (chunkSize + 1)) 1 .empty (zerosEvents (chunkSize + 1))).2 = .ok ∧
    WireResponse.readFrom
        (serveGetChunk (zerosStore (chunkSize + 1)) 1 .empty (zerosEvents (chunkSize + 1))).1 =
      .error (.payloadTooLarge (chunkSize + 1)) := by
  have hdata := getChunk_zerosStore (chunkSize + 1)
  have hok := serveGetChunk_zeros (chunkSize + 1)
  refine ⟨hdata, hok, ?_⟩
  have hlen : (List.replicate (chunkSize + 1) (0 : UInt8)).length < 2 ^ 32 := by
    rw [List.length_replicate, chunkSize]
    decide
  have hread := readFrom_encode 1 statusHit hlen []
  rw [List.append_nil] at hread
  rw [serveGetChunk_sent hdata hok, hread, List.length_replicate, maxChunkPayloadSize,
    if_neg (by omega)]

end DistillFs
