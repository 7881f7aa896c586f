import DistillFs.Backend.Peer.ResponseStream
import DistillFs.Foundation.Framing

/-!
# The frames of the peer protocol

Both directions of a connection carry frames: requests with their checksums, and responses. Each end
reads exactly the bytes of a frame, so that it reads a frame whatever follows it, and both keep
their place in the stream. A client refuses a response that is too large; it never takes it for
another one.

## Main definitions

* `readInbound`: a round of the reading loop of `handle`.
* `requestFrames`, `responseFrames`: the two directions as readers of frames.

## Main results

* `keeps_request`, `keeps_response`: what is read from the frames that are written.
-/

namespace DistillFs

open Foundation

/-! ### Reading with more to come -/

section Append

variable {bytes rest : List UInt8} (extra : List UInt8)

theorem readExact_append_extra {n : ℕ} {first : List UInt8}
    (h : readExact n bytes = .ok (first, rest)) :
    readExact n (bytes ++ extra) = .ok (first, rest ++ extra) := by
  unfold readExact at h
  split_ifs at h with hn
  obtain ⟨rfl, rfl⟩ := Prod.mk.inj (Except.ok.inj h)
  calc
    readExact n (bytes ++ extra)
      = readExact n (bytes.take n ++ (bytes.drop n ++ extra)) := by
        rw [← List.append_assoc, List.take_append_drop]
    _ = .ok (bytes.take n, bytes.drop n ++ extra) := readExact_append (List.length_take_of_le hn) _

theorem readBytes_append_extra {n : ℕ} {first : List UInt8}
    (h : readBytes n bytes = .ok (first, rest)) :
    readBytes n (bytes ++ extra) = .ok (first, rest ++ extra) := by
  unfold readBytes at h ⊢
  split at h
  · rename_i result hread
    obtain rfl := Except.ok.inj h
    rw [readExact_append_extra extra hread]
  · cases h

theorem Request.readFrom_append {request : Request} (h : readFrom bytes = .ok (request, rest)) :
    readFrom (bytes ++ extra) = .ok (request, rest ++ extra) := by
  obtain ⟨⟨buf, rest'⟩, hread, h⟩ := bind_eq_ok.mp h
  obtain ⟨request', hdecode, h⟩ := bind_eq_ok.mp h
  obtain ⟨rfl, rfl⟩ := Prod.mk.inj (Except.ok.inj h)
  exact bind_eq_ok.mpr ⟨_, readBytes_append_extra extra hread, bind_eq_ok.mpr ⟨_, hdecode, rfl⟩⟩

theorem readChecksumBatch_append {count : ℕ} {checksums : List CheckSum}
    (h : readChecksumBatch count bytes = .ok (checksums, rest)) :
    readChecksumBatch count (bytes ++ extra) = .ok (checksums, rest ++ extra) := by
  induction count generalizing bytes checksums with
  | zero =>
    obtain ⟨rfl, rfl⟩ := Prod.mk.inj (Except.ok.inj h)
    rfl
  | succ count ih =>
    obtain ⟨⟨method, bytes₁⟩, hmethod, h⟩ := bind_eq_ok.mp h
    obtain ⟨⟨raw, bytes₂⟩, hraw, h⟩ := bind_eq_ok.mp h
    obtain ⟨checksum, hnew, h⟩ := bind_eq_ok.mp h
    obtain ⟨⟨others, bytes₃⟩, hbatch, h⟩ := bind_eq_ok.mp h
    obtain ⟨rfl, rfl⟩ := Prod.mk.inj (Except.ok.inj h)
    exact bind_eq_ok.mpr ⟨_, readBytes_append_extra extra hmethod,
      bind_eq_ok.mpr ⟨_, readBytes_append_extra extra hraw,
        bind_eq_ok.mpr ⟨_, hnew, bind_eq_ok.mpr ⟨_, ih hbatch, rfl⟩⟩⟩⟩

theorem readChecksums_append {request : Request} {checksums : Option (List CheckSum)}
    (h : readChecksums request bytes = .ok (checksums, rest)) :
    readChecksums request (bytes ++ extra) = .ok (checksums, rest ++ extra) := by
  cases htype : request.messageType with
  | registerChunks | unregisterChunks =>
    simp only [readChecksums, htype] at h ⊢
    obtain ⟨count, hcount, h⟩ := bind_eq_ok.mp h
    obtain ⟨⟨sums, bytes'⟩, hsums, h⟩ := bind_eq_ok.mp h
    obtain ⟨rfl, rfl⟩ := Prod.mk.inj (Except.ok.inj h)
    exact bind_eq_ok.mpr ⟨_, hcount, bind_eq_ok.mpr ⟨_, readChecksumBatch_append extra hsums, rfl⟩⟩
  | _ =>
    simp only [readChecksums, htype] at h ⊢
    obtain ⟨rfl, rfl⟩ := Prod.mk.inj (Except.ok.inj h)
    rfl

theorem WireResponse.readFrom_append {r : WireResponse} (h : readFrom bytes = .ok (r, rest)) :
    readFrom (bytes ++ extra) = .ok (r, rest ++ extra) := by
  obtain ⟨⟨header, rest'⟩, hheader, h⟩ := bind_eq_ok.mp h
  refine bind_eq_ok.mpr ⟨_, readExact_append_extra extra hheader, ?_⟩
  dsimp only at h ⊢
  split_ifs at h ⊢
  · cases h
  · obtain ⟨⟨payload, rest''⟩, hpayload, h⟩ := bind_eq_ok.mp h
    obtain ⟨rfl, rfl⟩ := Prod.mk.inj (Except.ok.inj h)
    exact bind_eq_ok.mpr ⟨_, readExact_append_extra extra hpayload, rfl⟩

end Append

/-! ### Requests -/

/-- A round of the reading loop of `handle`: the next request, and the bytes after it. -/
def readInbound (bytes : List UInt8) : Option (InboundRequest × List UInt8) :=
  match Request.readFrom bytes with
  | .error _ => none
  | .ok (request, rest) =>
    match readChecksums request rest with
    | .error _ => none
    | .ok (checksums, rest) => some (⟨request, checksums⟩, rest)

theorem readInbound_eq_some {bytes rest : List UInt8} {inbound : InboundRequest} :
    readInbound bytes = some (inbound, rest) ↔ ∃ middle,
      Request.readFrom bytes = .ok (inbound.request, middle) ∧
        readChecksums inbound.request middle = .ok (inbound.checksums, rest) := by
  constructor
  · intro h
    unfold readInbound at h
    split at h
    · cases h
    · rename_i request middle hread
      split at h
      · cases h
      · rename_i checksums rest' hsums
        obtain ⟨rfl, rfl⟩ := Prod.mk.inj (Option.some.inj h)
        exact ⟨middle, hread, hsums⟩
  · rintro ⟨middle, hread, hsums⟩
    simp only [readInbound, hread, hsums]

/-- The rounds are those of the loop. -/
theorem readRequests_of_readInbound {bytes rest : List UInt8} {inbound : InboundRequest}
    (h : readInbound bytes = some (inbound, rest)) :
    readRequests bytes =
      { readRequests rest with inbound := inbound :: (readRequests rest).inbound } := by
  obtain ⟨middle, hread, hsums⟩ := readInbound_eq_some.mp h
  exact readRequests_of_ok hread hsums

/-- The requests that the server reads. -/
def requestFrames : FrameReader InboundRequest UInt8 where
  bytes := InboundRequest.bytes
  read := readInbound
  read_nil := rfl
  read_append h extra := by
    obtain ⟨middle, hread, hsums⟩ := readInbound_eq_some.mp h
    exact readInbound_eq_some.mpr
      ⟨middle ++ extra, Request.readFrom_append extra hread, readChecksums_append extra hsums⟩

/-- The server reads every request that a client writes. -/
theorem readInbound_bytes {r : InboundRequest} (h : r.Writable) (rest : List UInt8) :
    readInbound (r.bytes ++ rest) = some (r, rest) := by
  refine readInbound_eq_some.mpr
    ⟨checksumPayload (r.checksums.getD []) ++ rest, ?_, readChecksums_payload h rest⟩
  rw [InboundRequest.bytes, List.append_assoc]
  exact bind_eq_ok.mpr ⟨_, readBytes_append (Request.length_encode _) _,
    bind_eq_ok.mpr ⟨_, Request.decode_encode _, rfl⟩⟩

theorem keeps_request {r : InboundRequest} (h : r.Writable) : requestFrames.Keeps r :=
  fun rest _ hp => Option.some.inj (hp.symm.trans (readInbound_bytes h rest))

/-! ### Responses -/

theorem toOption_eq_some {ε α : Type*} {x : Except ε α} {a : α} :
    x.toOption = some a ↔ x = .ok a := by
  cases x with
  | error e => exact ⟨nofun, nofun⟩
  | ok b => exact ⟨fun h => Option.some.inj h ▸ rfl, fun h => Except.ok.inj h ▸ rfl⟩

/-- The responses that a client reads. -/
def responseFrames : FrameReader WireResponse UInt8 where
  bytes := WireResponse.bytes
  read bytes := (WireResponse.readFrom bytes).toOption
  read_nil := rfl
  read_append h extra :=
    toOption_eq_some.mpr (WireResponse.readFrom_append extra (toOption_eq_some.mp h))

/-- A client takes a well-formed response for nothing else. -/
theorem keeps_response {r : WireResponse} (h : r.WellFormed) : responseFrames.Keeps r := by
  intro rest p hp
  have hread := toOption_eq_some.mp hp
  change WireResponse.readFrom (r.bytes ++ rest) = .ok p at hread
  rw [WireResponse.bytes, List.append_assoc, readFrom_encode _ _ h.2] at hread
  split_ifs at hread
  exact (Except.ok.inj hread).symm

end DistillFs
