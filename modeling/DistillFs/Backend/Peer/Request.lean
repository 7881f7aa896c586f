import DistillFs.Backend.Peer.Wire

/-!
# Requests on the wire

A request is 50 bytes: its id, its type, a checksum, an offset and a length. The two batch requests
name more checksums, which follow the request, 33 bytes each; their number stands in the field of
the length, and their offset is zero. There is nothing else between two requests, so the server
finds the next one only if it reads exactly what belongs to the one before.

The server reads until the stream ends. Here the stream is all that a client writes; the time limit
for idle connections is left out.

## Main definitions

* `MessageType`, `Request`, `Request.encode`, `Request.decode`, `Request.ensureControlBatch`.
* `readChecksumBatch`, `readRequests`: the reading loop of the server.
* `InboundRequest`, `InboundRequest.Writable`, `InboundRequest.bytes`: what a client writes.

## Main results

* `readRequests_bytes`: the server reads the requests that were written.
-/

namespace DistillFs

open Foundation

/-- The bytes of a request. -/
def requestLen : ℕ := 50

inductive MessageType
  | getChunk
  | prefetchChunk
  | registerChunk
  | unregisterChunk
  | registerChunks
  | unregisterChunks
  | healthCheck
  deriving DecidableEq

namespace MessageType

def toByte : MessageType → UInt8
  | .getChunk => 0x01
  | .prefetchChunk => 0x02
  | .registerChunk => 0x03
  | .unregisterChunk => 0x04
  | .registerChunks => 0x05
  | .unregisterChunks => 0x06
  | .healthCheck => 0x07

/-- The type that a byte stands for. -/
def tryFrom (value : UInt8) : Except IoError MessageType :=
  match value with
  | 0x01 => .ok .getChunk
  | 0x02 => .ok .prefetchChunk
  | 0x03 => .ok .registerChunk
  | 0x04 => .ok .unregisterChunk
  | 0x05 => .ok .registerChunks
  | 0x06 => .ok .unregisterChunks
  | 0x07 => .ok .healthCheck
  | _ => .error ⟨.invalidData, s!"invalid message type: {value}"⟩

theorem tryFrom_toByte (t : MessageType) : tryFrom t.toByte = .ok t := by
  cases t <;> rfl

/-- Whether checksums follow the request. -/
def isBatch : MessageType → Bool
  | .registerChunks | .unregisterChunks => true
  | _ => false

end MessageType

@[ext] structure Request where
  requestId : UInt64
  messageType : MessageType
  checksum : CheckSum
  offset : UInt32
  length : UInt32

namespace Request

/-- A request for a whole chunk. -/
def wholeChunk (messageType : MessageType) (checksum : CheckSum) : Request :=
  ⟨0, messageType, checksum, 0, 0⟩

/-- The request in front of `count` checksums. -/
def controlBatch (messageType : MessageType) (count : ℕ) : Request :=
  ⟨0, messageType, .empty, 0, UInt32.ofNat count⟩

def ensureFullChunk (r : Request) : Except IoError Unit :=
  if r.offset = 0 ∧ r.length = 0 then .ok ()
  else
    let offset := r.offset
    let length := r.length
    .error ⟨.invalidInput, "chunk peer protocol only supports full-chunk requests, got " ++
      s!"offset={offset} length={length}"⟩

/-- The number of checksums that follow. -/
def ensureControlBatch (r : Request) : Except IoError ℕ :=
  let offset := r.offset
  if offset ≠ 0 then .error ⟨.invalidInput, s!"invalid batch control request offset={offset}"⟩
  else .ok r.length.toNat

def encode (r : Request) : List UInt8 :=
  toBytes 8 r.requestId.toNat ++ r.messageType.toByte :: r.checksum.method.toByte ::
    (r.checksum.raw.toList ++ toBytes 4 r.offset.toNat ++ toBytes 4 r.length.toNat)

/-- The request in a buffer of 50 bytes. -/
def decode (buf : List UInt8) : Except IoError Request := do
  let requestId := UInt64.ofNat (ofBytes (buf.take 8))
  let messageType ← MessageType.tryFrom (buf.getD 8 0)
  let checksum ← CheckSum.new ((buf.drop 10).take 32) (.ofByte (buf.getD 9 0))
  let offset := UInt32.ofNat (ofBytes ((buf.drop 42).take 4))
  let length := UInt32.ofNat (ofBytes ((buf.drop 46).take 4))
  return ⟨requestId, messageType, checksum, offset, length⟩

theorem length_encode (r : Request) : r.encode.length = requestLen := by
  simp [encode, requestLen]

theorem uint32_ofBytes (n : UInt32) : UInt32.ofNat (ofBytes (toBytes 4 n.toNat)) = n := by
  have hlt : n.toNat < 256 ^ 4 := n.toNat_lt
  rw [ofBytes_toBytes, Nat.mod_eq_of_lt hlt, UInt32.ofNat_toNat]

theorem uint64_ofBytes (n : UInt64) : UInt64.ofNat (ofBytes (toBytes 8 n.toNat)) = n := by
  have hlt : n.toNat < 256 ^ 8 := n.toNat_lt
  rw [ofBytes_toBytes, Nat.mod_eq_of_lt hlt, UInt64.ofNat_toNat]

/-- A request survives the trip through its bytes. -/
theorem decode_encode (r : Request) : decode r.encode = .ok r := by
  have hid : r.encode.take 8 = toBytes 8 r.requestId.toNat := List.take_left' (length_toBytes ..)
  have hdrop : r.encode.drop 8 = r.messageType.toByte :: r.checksum.method.toByte ::
      (r.checksum.raw.toList ++ toBytes 4 r.offset.toNat ++ toBytes 4 r.length.toNat) :=
    List.drop_left' (length_toBytes ..)
  have htype : r.encode.getD 8 0 = r.messageType.toByte := by
    rw [List.getD_eq_getElem?_getD, ← List.head?_drop, hdrop]
    rfl
  have hmethod : r.encode.getD 9 0 = r.checksum.method.toByte := by
    rw [List.getD_eq_getElem?_getD, ← List.head?_drop, show 9 = 8 + 1 from rfl, ← List.drop_drop,
      hdrop]
    rfl
  have htail : r.encode.drop 10 =
      r.checksum.raw.toList ++ (toBytes 4 r.offset.toNat ++ toBytes 4 r.length.toNat) := by
    rw [show 10 = 8 + 2 from rfl, ← List.drop_drop, hdrop]
    exact List.append_assoc ..
  have hraw : (r.encode.drop 10).take 32 = r.checksum.raw.toList := by
    rw [htail]
    exact List.take_left' (Vector.length_toList)
  have hfields : r.encode.drop 42 = toBytes 4 r.offset.toNat ++ toBytes 4 r.length.toNat := by
    rw [show 42 = 10 + 32 from rfl, ← List.drop_drop, htail]
    exact List.drop_left' (Vector.length_toList)
  have hoffset : (r.encode.drop 42).take 4 = toBytes 4 r.offset.toNat := by
    rw [hfields]
    exact List.take_left' (length_toBytes ..)
  have hlength : (r.encode.drop 46).take 4 = toBytes 4 r.length.toNat := by
    rw [show 46 = 42 + 4 from rfl, ← List.drop_drop, hfields, List.drop_left' (length_toBytes ..)]
    exact List.take_of_length_le (length_toBytes ..).le
  simp only [decode, hid, htype, hmethod, hraw, hoffset, hlength, MessageType.tryFrom_toByte,
    CheckSumMethod.ofByte_toByte, CheckSum.new_toList, uint32_ofBytes, uint64_ofBytes, bind,
    Except.bind]
  rfl

end Request

/-! ### The reading loop of the server -/

/-- `read_exact` as a step of the server. -/
def readBytes (n : ℕ) (bytes : List UInt8) : Except IoError (List UInt8 × List UInt8) :=
  match readExact n bytes with
  | .ok result => .ok result
  | .error e => .error ⟨.unexpectedEof, e.message⟩

theorem readBytes_append {n : ℕ} {first : List UInt8} (h : first.length = n) (rest : List UInt8) :
    readBytes n (first ++ rest) = .ok (first, rest) := by
  rw [readBytes, readExact_append h]

theorem length_of_readBytes {n : ℕ} {bytes first rest : List UInt8}
    (h : readBytes n bytes = .ok (first, rest)) : bytes.length = n + rest.length := by
  unfold readBytes readExact at h
  split_ifs at h with hn
  · obtain ⟨-, rfl⟩ := Prod.mk.inj (Except.ok.inj h)
    rw [List.length_drop]
    omega

def Request.readFrom (bytes : List UInt8) : Except IoError (Request × List UInt8) := do
  let (buf, rest) ← readBytes requestLen bytes
  let request ← decode buf
  return (request, rest)

/-- The checksums of a batch. -/
def readChecksumBatch : ℕ → List UInt8 → Except IoError (List CheckSum × List UInt8)
  | 0, bytes => .ok ([], bytes)
  | count + 1, bytes => do
    let (method, bytes) ← readBytes 1 bytes
    let (raw, bytes) ← readBytes 32 bytes
    let checksum ← CheckSum.new raw (.ofByte (method.getD 0 0))
    let (checksums, bytes) ← readChecksumBatch count bytes
    return (checksum :: checksums, bytes)

/-- What follows a request. -/
def readChecksums (request : Request) (bytes : List UInt8) :
    Except IoError (Option (List CheckSum) × List UInt8) :=
  match request.messageType with
  | .registerChunks | .unregisterChunks => do
    let count ← request.ensureControlBatch
    let (checksums, bytes) ← readChecksumBatch count bytes
    return (some checksums, bytes)
  | _ => .ok (none, bytes)

/-- A request as it is handled. -/
structure InboundRequest where
  request : Request
  checksums : Option (List CheckSum)

/-- How the loop ends: the requests that it has passed on, its result, and the bytes that belong to
none of them. -/
structure ReadLoop where
  inbound : List InboundRequest
  result : Except IoError Unit
  left : List UInt8

theorem bind_eq_ok {α β ε : Type} {x : Except ε α} {f : α → Except ε β} {b : β} :
    x >>= f = .ok b ↔ ∃ a, x = .ok a ∧ f a = .ok b := by
  cases x with
  | error e =>
    constructor
    · intro h
      cases h
    · rintro ⟨_, h, _⟩
      cases h
  | ok a => exact ⟨fun h => ⟨a, rfl, h⟩, fun ⟨_, h, hf⟩ => Except.ok.inj h ▸ hf⟩

theorem Request.length_of_readFrom {bytes rest : List UInt8} {request : Request}
    (h : readFrom bytes = .ok (request, rest)) : rest.length < bytes.length := by
  obtain ⟨⟨buf, rest'⟩, hread, h⟩ := bind_eq_ok.mp h
  obtain ⟨r, -, h⟩ := bind_eq_ok.mp h
  obtain ⟨-, rfl⟩ := Prod.mk.inj (Except.ok.inj h)
  rw [length_of_readBytes hread, requestLen]
  omega

theorem length_of_readChecksumBatch {count : ℕ} {bytes rest : List UInt8}
    {checksums : List CheckSum} (h : readChecksumBatch count bytes = .ok (checksums, rest)) :
    rest.length ≤ bytes.length := by
  induction count generalizing bytes checksums with
  | zero =>
    obtain ⟨-, rfl⟩ := Prod.mk.inj (Except.ok.inj h)
    exact le_rfl
  | succ count ih =>
    obtain ⟨⟨method, bytes₁⟩, hmethod, h⟩ := bind_eq_ok.mp h
    obtain ⟨⟨raw, bytes₂⟩, hraw, h⟩ := bind_eq_ok.mp h
    obtain ⟨checksum, -, h⟩ := bind_eq_ok.mp h
    obtain ⟨⟨checksums', bytes₃⟩, hbatch, h⟩ := bind_eq_ok.mp h
    obtain ⟨-, rfl⟩ := Prod.mk.inj (Except.ok.inj h)
    have hle := ih hbatch
    rw [length_of_readBytes hmethod, length_of_readBytes hraw]
    omega

theorem length_of_readChecksums {request : Request} {bytes rest : List UInt8}
    {checksums : Option (List CheckSum)} (h : readChecksums request bytes = .ok (checksums, rest)) :
    rest.length ≤ bytes.length := by
  unfold readChecksums at h
  split at h
  · obtain ⟨count, -, h⟩ := bind_eq_ok.mp h
    obtain ⟨⟨checksums', bytes'⟩, hbatch, h⟩ := bind_eq_ok.mp h
    obtain ⟨-, rfl⟩ := Prod.mk.inj (Except.ok.inj h)
    exact length_of_readChecksumBatch hbatch
  · obtain ⟨count, -, h⟩ := bind_eq_ok.mp h
    obtain ⟨⟨checksums', bytes'⟩, hbatch, h⟩ := bind_eq_ok.mp h
    obtain ⟨-, rfl⟩ := Prod.mk.inj (Except.ok.inj h)
    exact length_of_readChecksumBatch hbatch
  · obtain ⟨-, rfl⟩ := Prod.mk.inj (Except.ok.inj h)
    exact le_rfl

/-- The reading loop of `handle`. It ends well when the stream ends in front of a request or within
it. -/
def readRequests (bytes : List UInt8) : ReadLoop :=
  match _hread : Request.readFrom bytes with
  | .error e => ⟨[], if e.kind = .unexpectedEof then .ok () else .error e, bytes⟩
  | .ok (request, rest) =>
    match _hsums : readChecksums request rest with
    | .error e => ⟨[], .error e, rest⟩
    | .ok (checksums, rest) =>
      let loop := readRequests rest
      { loop with inbound := ⟨request, checksums⟩ :: loop.inbound }
  termination_by bytes.length
  decreasing_by
    exact (length_of_readChecksums _hsums).trans_lt (Request.length_of_readFrom _hread)

/-- One round of the loop. -/
theorem readRequests_of_ok {bytes rest rest' : List UInt8} {request : Request}
    {checksums : Option (List CheckSum)} (hread : Request.readFrom bytes = .ok (request, rest))
    (hsums : readChecksums request rest = .ok (checksums, rest')) :
    readRequests bytes =
      { readRequests rest' with
        inbound := ⟨request, checksums⟩ :: (readRequests rest').inbound } := by
  rw [readRequests]
  split
  · rename_i e he
    rw [hread] at he
    cases he
  · rename_i request₁ rest₁ h₁
    rw [hread] at h₁
    cases h₁
    split
    · rename_i e he
      rw [hsums] at he
      cases he
    · rename_i checksums₂ rest₂ h₂
      rw [hsums] at h₂
      cases h₂
      rfl

/-! ### What a client writes -/

/-- The bytes of the checksums of a batch. -/
def checksumPayload (checksums : List CheckSum) : List UInt8 :=
  checksums.flatMap fun cs => cs.method.toByte :: cs.raw.toList

namespace InboundRequest

/-- The bytes of a request with its checksums. -/
def bytes (r : InboundRequest) : List UInt8 :=
  r.request.encode ++ checksumPayload (r.checksums.getD [])

/-- What a client writes: a batch request with the checksums that it counts, or any other request
with none. -/
def Writable (r : InboundRequest) : Prop :=
  if r.request.messageType.isBatch then
    ∃ checksums, r.checksums = some checksums ∧ r.request.offset = 0 ∧
      r.request.length.toNat = checksums.length
  else r.checksums = none

/-- `send_control_batch` writes such a request for a list that can be counted. -/
theorem writable_controlBatch {messageType : MessageType} (hbatch : messageType.isBatch = true)
    (requestId : UInt64) {checksums : List CheckSum} (hlen : checksums.length < 2 ^ 32) :
    Writable ⟨{ Request.controlBatch messageType checksums.length with requestId := requestId },
      some checksums⟩ := by
  have hcount : ∃ sums, some checksums = some sums ∧ (0 : UInt32) = 0 ∧
      (UInt32.ofNat checksums.length).toNat = sums.length :=
    ⟨checksums, rfl, rfl, UInt32.toNat_ofNat_of_lt' hlen⟩
  cases messageType with
  | registerChunks | unregisterChunks => exact hcount
  | _ => cases hbatch

end InboundRequest

theorem readChecksumBatch_payload (checksums : List CheckSum) (rest : List UInt8) :
    readChecksumBatch checksums.length (checksumPayload checksums ++ rest) =
      .ok (checksums, rest) := by
  induction checksums with
  | nil => rfl
  | cons cs checksums ih =>
    have hbytes : checksumPayload (cs :: checksums) ++ rest =
        [cs.method.toByte] ++ (cs.raw.toList ++ (checksumPayload checksums ++ rest)) := by
      simp [checksumPayload]
    have hmethod := readBytes_append (show [cs.method.toByte].length = 1 from rfl)
      (cs.raw.toList ++ (checksumPayload checksums ++ rest))
    rw [hbytes, List.length_cons, readChecksumBatch, hmethod]
    simp only [bind, Except.bind, readBytes_append Vector.length_toList, List.getD_cons_zero,
      CheckSumMethod.ofByte_toByte, CheckSum.new_toList, ih]
    rfl

theorem readChecksums_payload {r : InboundRequest} (h : r.Writable) (rest : List UInt8) :
    readChecksums r.request (checksumPayload (r.checksums.getD []) ++ rest) =
      .ok (r.checksums, rest) := by
  obtain ⟨⟨requestId, messageType, checksum, offset, length⟩, checksums⟩ := r
  cases messageType with
  | registerChunks | unregisterChunks =>
    obtain ⟨sums, rfl, rfl, hlen⟩ := h
    have hbatch := readChecksumBatch_payload sums rest
    rw [← hlen] at hbatch
    exact bind_eq_ok.mpr ⟨_, rfl, bind_eq_ok.mpr ⟨_, hbatch, rfl⟩⟩
  | _ =>
    obtain rfl : checksums = none := h
    rfl

/-- **Both ends agree on the framing of requests.** From the bytes of any requests that clients
write, one after the other, the server reads these requests with their checksums, and no byte is
left. -/
theorem readRequests_bytes (rs : List InboundRequest) (h : ∀ r ∈ rs, r.Writable) :
    readRequests (rs.flatMap InboundRequest.bytes) = ⟨rs, .ok (), []⟩ := by
  induction rs with
  | nil =>
    rw [readRequests]
    rfl
  | cons r rs ih =>
    obtain ⟨hr, hrs⟩ := List.forall_mem_cons.mp h
    have hread : Request.readFrom ((r :: rs).flatMap InboundRequest.bytes) =
        .ok (r.request, checksumPayload (r.checksums.getD []) ++
          rs.flatMap InboundRequest.bytes) := by
      rw [List.flatMap_cons, InboundRequest.bytes, List.append_assoc, Request.readFrom,
        readBytes_append (Request.length_encode _)]
      simp only [bind, Except.bind, Request.decode_encode]
      rfl
    rw [readRequests_of_ok hread (readChecksums_payload hr _), ih hrs]

/-- A batch of two checksums and a request for a chunk. -/
def batchAndGet : List InboundRequest :=
  [⟨{ Request.controlBatch .registerChunks 2 with requestId := 7 }, some [.empty, .empty]⟩,
    ⟨{ Request.wholeChunk .getChunk .empty with requestId := 8 }, none⟩]

theorem readRequests_bytes_batchAndGet :
    readRequests (batchAndGet.flatMap InboundRequest.bytes) = ⟨batchAndGet, .ok (), []⟩ := by
  refine readRequests_bytes batchAndGet fun r hr => ?_
  rcases List.mem_pair.mp hr with rfl | rfl
  · exact InboundRequest.writable_controlBatch rfl 7 (by decide)
  · rfl

end DistillFs
