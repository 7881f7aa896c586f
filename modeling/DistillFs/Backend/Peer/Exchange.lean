import DistillFs.Backend.Peer.Replies
import DistillFs.Backend.Peer.SessionMatch
import DistillFs.Backend.Peer.WireFrames

/-!
# A client and its server

The session of a client and a connection of the server, put together. Calls write the bytes of their
requests one after the other, the server reads requests from what has arrived, processes them in any
order and writes frames, and the reader of the session reads responses from these. Bytes are delayed
as long as one likes, and neither end sees where the other one began a write.

What a call returns is then what the server has made of the request of this very call. This fails
only if an end goes on writing after it has given up within a frame: the session does so when a
call is already past the check of `closed` when the write of another one times out, the server when
it reports the error of a hit.

## Main definitions

* `Exchange`, `ExchangeStep`, `exchange`: the two ends and the bytes between them.
* `Exchange.Orderly`: the guard of the runs in which no end goes on after a cut.

## Main results

* `exchange_answers`: a call returns the answer to its own request.
-/

namespace DistillFs

open Foundation

/-- A session, a connection of the server, and the bytes between them. -/
structure Exchange (τ : Type*) where
  client : Config τ (MultiplexedSession τ) (CallPc τ)
  server : Connection
  /-- The bytes of the client that the server has not read. -/
  inflight : List UInt8
  /-- The number of bytes of the server that the client has read. -/
  taken : ℕ
  /-- A write was given up within a request. -/
  torn : Bool

section Steps

variable {τ : Type*} [DecidableEq τ]

/-- The request that a call writes under an id. -/
def outgoing (request : τ → InboundRequest) (t : τ) (id : UInt64) : InboundRequest :=
  { request t with request := { (request t).request with requestId := id } }

/-- What a step of a call adds to the bytes of the client, and whether it leaves a request within. A
write that fails may have written any part of the request. -/
inductive Writes (r : UInt64 → InboundRequest) : CallPc τ → CallPc τ → List UInt8 → Bool → Prop
  | whole {id : UInt64} : Writes r (.writing id) (.waiting id) (r id).bytes false
  | part {id : UInt64} {err : IoError} (n : ℕ) :
      Writes r (.writing id) (.writeFailed id err) ((r id).bytes.take n)
        (decide (0 < n ∧ n < (r id).bytes.length))
  | other {pc pc' : CallPc τ} (h : ∀ id, pc ≠ .writing id) : Writes r pc pc' [] false

inductive ExchangeAct (τ : Type*)
  | call (t : τ)
  | reader
  /-- A response has arrived. -/
  | respond
  /-- The server reads a request. -/
  | receive
  | server (event : Connection.Event)

/-- The steps of a client and its server. -/
inductive ExchangeStep (transport : Transport) (request : τ → InboundRequest) :
    Exchange τ → ExchangeAct τ → Exchange τ → Prop
  | call {s : Exchange τ} {t : τ} {s' : MultiplexedSession τ} {pc' : CallPc τ} {out : List UInt8}
      {torn : Bool} (h : CallStep t s.client.shared (s.client.loc t) s' pc')
      (hout : Writes (outgoing request t) (s.client.loc t) pc' out torn) :
      ExchangeStep transport request s (.call t)
        { s with
          client := ⟨s', Function.update s.client.loc t pc'⟩
          inflight := s.inflight ++ out
          torn := s.torn || torn }
  | reader {s : Exchange τ} {s' : MultiplexedSession τ} (h : ReaderStep s.client.shared s')
      (hsame : s'.responses = s.client.shared.responses) :
      ExchangeStep transport request s .reader { s with client := ⟨s', s.client.loc⟩ }
  | respond {s : Exchange τ} {r : WireResponse} {rest : List UInt8}
      (h : WireResponse.readFrom (s.server.sent.drop s.taken) = .ok (r, rest)) :
      ExchangeStep transport request s .respond
        { s with
          client := ⟨{ s.client.shared with responses := s.client.shared.responses ++ [r] },
            s.client.loc⟩
          taken := s.server.sent.length - rest.length }
  | receive {s : Exchange τ} {inbound : InboundRequest} {rest : List UInt8} {server' : Connection}
      (h : readInbound s.inflight = some (inbound, rest))
      (hserver : Connection.Step transport s.server (.receive inbound) server') :
      ExchangeStep transport request s .receive { s with server := server', inflight := rest }
  | server {s : Exchange τ} {event : Connection.Event} {server' : Connection}
      (hserver : Connection.Step transport s.server event server')
      (hevent : ∀ inbound, event ≠ .receive inbound) :
      ExchangeStep transport request s (.server event) { s with server := server' }

/-- A new session and a new connection. The call `t` makes the request `request t`. -/
def exchange (transport : Transport) (request : τ → InboundRequest) :
    System (Exchange τ) (ExchangeAct τ) where
  init s := (sessionProgram τ).init s.client ∧ (∃ db, s.server = .new db) ∧ s.inflight = [] ∧
    s.taken = 0 ∧ s.torn = false
  step := ExchangeStep transport request

/-- No end goes on writing after a cut, fewer than 2^64 calls are made, the database is one of `D`,
and what the rest of the node does for a request is in `E`. -/
structure Exchange.Orderly (D : StoredChunks → Prop) (E : InboundRequest → Effects → Prop)
    (s : Exchange τ) (a : ExchangeAct τ) : Prop where
  fewCalls : ∀ t, a = .call t → MultiplexedSession.FewCalls s.client (.inl t)
  untorn : ∀ t id, a = .call t → s.client.loc t = .writing id → s.torn = false
  cutsSilent : ∀ event, a = .server event → s.server.CutsSilent event
  stored : D s.server.db
  effects : ∀ inbound effects, a = .server (.process inbound effects) → E inbound effects

end Steps

/-- The call is past the write of its request. -/
def CallPc.hasWritten {τ : Type*} : CallPc τ → Bool
  | .writeFailed .. | .removed .. | .waiting _ | .received .. | .expired _ | .expiredUncounted _
  | .closing .. | .returned .. => true
  | _ => false

theorem CallStep.hasWritten {τ : Type*} [DecidableEq τ] {t : τ} {s s' : MultiplexedSession τ}
    {pc pc' : CallPc τ} (h : CallStep t s pc s' pc') (hpc : pc.hasWritten) : pc'.hasWritten := by
  cases h with
  | call | refuse | check | allocate | insert | count | lockWriter | writeOk | writeError
  | writeTimeout | startShutdown | shutdown => cases hpc
  | _ => rfl

namespace Exchange

open MultiplexedSession (IdInv FewCalls)

variable {τ : Type*} [DecidableEq τ] {transport : Transport} {request : τ → InboundRequest}
  {D : StoredChunks → Prop} {E : InboundRequest → Effects → Prop} {s : Exchange τ}

/-! ### The two ends -/

/-- The client makes a run of a session. -/
theorem client_reach (h : (exchange transport request).Reach (Orderly D E) s) :
    (sessionProgram τ).toSystem.Reach FewCalls s.client := by
  refine System.Reach.simulate (M := exchange transport request)
    (N := (sessionProgram τ).toSystem) Exchange.client (fun s hinit => hinit.1)
    (fun s a s' hok hstep => ?_) h
  cases hstep with
  | @call t _ _ _ _ hcall => exact Or.inr ⟨.inl t, hok.fewCalls t rfl, .thread hcall⟩
  | reader hreader => exact Or.inr ⟨.inr (), trivial, .env hreader⟩
  | respond => exact Or.inr ⟨.inr (), trivial, .env (.respond _)⟩
  | receive | server => exact Or.inl rfl

/-- A guarded step is one of the server as well, or it leaves the server alone. -/
theorem server_step {s' : Exchange τ} {a : ExchangeAct τ} (hok : Orderly D E s a)
    (h : ExchangeStep transport request s a s') : s'.server = s.server ∨
      ∃ event, s.server.CutsSilent event ∧
        (∀ inbound effects, event = .process inbound effects → E inbound effects) ∧
        Connection.Step transport s.server event s'.server := by
  cases h with
  | call | reader | respond => exact Or.inl rfl
  | receive _ hserver =>
    exact Or.inr ⟨_, fun _ _ _ _ _ h => (by cases h), fun _ _ h => (by cases h), hserver⟩
  | server hserver =>
    exact Or.inr ⟨_, hok.cutsSilent _ rfl, fun _ _ h => hok.effects _ _ (h ▸ rfl), hserver⟩

theorem server_inv (h : (exchange transport request).Reach (Orderly D E) s) :
    s.server.Inv ∧ s.server.ReplyInv transport D E := by
  refine System.Reach.invariant (I := fun s => s.server.Inv ∧ s.server.ReplyInv transport D E)
    (fun s hinit => ?_) (fun s a s' hI hok hstep => ?_) h
  · obtain ⟨-, ⟨db, hdb⟩, -⟩ := hinit
    rw [hdb]
    exact ⟨Connection.inv_new db, Connection.replyInv_new db⟩
  · rcases server_step hok hstep with hsame | ⟨event, hsilent, heffects, hserver⟩
    · rwa [hsame]
    · exact ⟨hI.1.step hsilent hserver, hI.2.step hok.stored heffects hserver⟩

/-! ### The bytes between them -/

/-- The request of a call that has begun to write it, with the id that the call has allocated. -/
def Own (request : τ → InboundRequest) (loc : τ → CallPc τ) (inbound : InboundRequest) : Prop :=
  ∃ t id, (loc t).hasWritten ∧ (loc t).requestId = some id ∧ inbound = outgoing request t id

/-- Requests of calls, at most one of each. -/
structure Sent (request : τ → InboundRequest) (loc : τ → CallPc τ) (frames : List InboundRequest) :
    Prop where
  own : ∀ f ∈ frames, Own request loc f
  once : (frames.map fun f => f.request.requestId).Nodup

section Calls

variable {client : Config τ (MultiplexedSession τ) (CallPc τ)} {frames : List InboundRequest}
  {t : τ} {s' : MultiplexedSession τ} {pc' : CallPc τ}
  (hstep : CallStep t client.shared (client.loc t) s' pc')

include hstep

theorem Own.call {inbound : InboundRequest} (h : Own request client.loc inbound) :
    Own request (Function.update client.loc t pc') inbound := by
  obtain ⟨u, id, hwritten, hid, rfl⟩ := h
  refine ⟨u, id, ?_⟩
  by_cases hut : u = t
  · subst hut
    rw [Function.update_self]
    refine ⟨hstep.hasWritten hwritten, ?_, rfl⟩
    rcases hstep.ids with ⟨-, hsame⟩ | ⟨hpc, -⟩
    · rwa [hsame]
    · rw [hpc] at hid
      cases hid
  · rw [Function.update_of_ne hut]
    exact ⟨hwritten, hid, rfl⟩

theorem Sent.call (h : Sent request client.loc frames) :
    Sent request (Function.update client.loc t pc') frames :=
  ⟨fun f hf => (h.own f hf).call hstep, h.once⟩

/-- The request that a call writes is a new one. -/
theorem Sent.write (h : Sent request client.loc frames) (hids : IdInv client) {id : UInt64}
    (hpc : client.loc t = .writing id) (hwritten : pc'.hasWritten) (hid : pc'.requestId = some id) :
    Sent request (Function.update client.loc t pc') (frames ++ [outgoing request t id]) := by
  have hown : Own request (Function.update client.loc t pc') (outgoing request t id) :=
    ⟨t, id, by rwa [Function.update_self], by rwa [Function.update_self], rfl⟩
  refine ⟨List.forall_mem_append.mpr ⟨(h.call hstep).own, List.forall_mem_singleton.mpr hown⟩, ?_⟩
  rw [List.map_append, List.nodup_append]
  refine ⟨h.once, List.nodup_singleton _, fun a ha b hb heq => ?_⟩
  obtain ⟨f, hf, rfl⟩ := List.mem_map.mp ha
  obtain ⟨u, id', hwritten', hid', rfl⟩ := h.own f hf
  -- the call of an old frame with this id would be past its write
  obtain rfl : id' = id := heq.trans (List.mem_singleton.mp hb)
  obtain rfl := hids.unique u t id' hid' (by rw [hpc]; rfl)
  rw [hpc] at hwritten'
  cases hwritten'

end Calls

/-- What the ends have read is what the other ones have written. -/
structure Inv (request : τ → InboundRequest) (s : Exchange τ) : Prop where
  inflight : ∃ frames : List InboundRequest,
    Sent request s.client.loc (s.server.received ++ frames) ∧
    s.inflight <+: frames.flatMap InboundRequest.bytes ∧
    (s.torn = false → s.inflight = frames.flatMap InboundRequest.bytes)
  responses : s.client.shared.responses <+: s.server.started
  taken : s.taken = (s.client.shared.responses.flatMap WireResponse.bytes).length

omit [DecidableEq τ] in
theorem Inv.sent (h : s.Inv request) : Sent request s.client.loc s.server.received := by
  obtain ⟨frames, hsent, -⟩ := h.inflight
  refine ⟨fun f hf => hsent.own f (List.mem_append_left _ hf), ?_⟩
  have honce := hsent.once
  rw [List.map_append] at honce
  exact honce.of_append_left

/-- A write goes on after whole requests. -/
theorem Inv.written (h : s.Inv request) (hids : IdInv s.client) {t : τ}
    {s' : MultiplexedSession τ} {pc' : CallPc τ} {out : List UInt8} {torn : Bool}
    (hok : ∀ id, s.client.loc t = .writing id → s.torn = false)
    (hstep : CallStep t s.client.shared (s.client.loc t) s' pc')
    (hout : Writes (outgoing request t) (s.client.loc t) pc' out torn) :
    ∃ frames : List InboundRequest,
      Sent request (Function.update s.client.loc t pc') (s.server.received ++ frames) ∧
      s.inflight ++ out <+: frames.flatMap InboundRequest.bytes ∧
      ((s.torn || torn) = false → s.inflight ++ out = frames.flatMap InboundRequest.bytes) := by
  obtain ⟨frames, hsent, hfront, hwhole⟩ := h.inflight
  generalize hpc : s.client.loc t = pc at hout
  cases hout with
  | @whole id =>
    have hbytes : s.inflight ++ (outgoing request t id).bytes =
        (frames ++ [outgoing request t id]).flatMap InboundRequest.bytes := by
      rw [hwhole (hok id hpc), List.flatMap_append, List.flatMap_singleton]
    refine ⟨frames ++ [outgoing request t id], ?_, hbytes ▸ List.prefix_rfl, fun _ => hbytes⟩
    rw [← List.append_assoc]
    exact hsent.write hstep hids hpc rfl rfl
  | @part id err n =>
    have hbytes := hwhole (hok id hpc)
    by_cases hnone : n = 0
    · subst hnone
      rw [List.take_zero, List.append_nil]
      exact ⟨frames, hsent.call hstep, hfront, fun _ => hbytes⟩
    · refine ⟨frames ++ [outgoing request t id], ?_, ?_, fun htorn => ?_⟩
      · rw [← List.append_assoc]
        exact hsent.write hstep hids hpc rfl rfl
      · rw [hbytes, List.flatMap_append, List.flatMap_singleton]
        exact (List.prefix_append_right_inj _).mpr (List.take_prefix ..)
      · have hle : (outgoing request t id).bytes.length ≤ n := by
          have hpart := of_decide_eq_false (Bool.or_eq_false_iff.mp htorn).2
          omega
        rw [hbytes, List.flatMap_append, List.flatMap_singleton, List.take_of_length_le hle]
  | other =>
    rw [List.append_nil, Bool.or_false]
    exact ⟨frames, hsent.call hstep, hfront, hwhole⟩

theorem Inv.call (h : s.Inv request) (hids : IdInv s.client) {t : τ} {s' : MultiplexedSession τ}
    {pc' : CallPc τ} {out : List UInt8} {torn : Bool}
    (hok : ∀ id, s.client.loc t = .writing id → s.torn = false)
    (hstep : CallStep t s.client.shared (s.client.loc t) s' pc')
    (hout : Writes (outgoing request t) (s.client.loc t) pc' out torn) :
    Inv request { s with
      client := ⟨s', Function.update s.client.loc t pc'⟩
      inflight := s.inflight ++ out
      torn := s.torn || torn } := by
  have hresponses : s'.responses = s.client.shared.responses := hstep.reader.2.1
  refine ⟨h.written hids hok hstep hout, ?_, ?_⟩
  · dsimp only
    rw [hresponses]
    exact h.responses
  · dsimp only
    rw [hresponses]
    exact h.taken

omit [DecidableEq τ] in
/-- The reader takes the next frame that the server has started. -/
theorem Inv.respond (h : s.Inv request) (hserver : s.server.Inv) {r : WireResponse}
    {rest : List UInt8}
    (hread : WireResponse.readFrom (s.server.sent.drop s.taken) = .ok (r, rest)) :
    Inv request { s with
      client := ⟨{ s.client.shared with responses := s.client.shared.responses ++ [r] },
        s.client.loc⟩
      taken := s.server.sent.length - rest.length } := by
  obtain ⟨others, hothers⟩ := h.responses
  have hfront : s.server.sent.drop s.taken <+: others.flatMap WireResponse.bytes := by
    have hdrop := hserver.accounted.front.drop s.taken
    rw [← hothers, List.flatMap_append, h.taken, List.drop_left' rfl] at hdrop
    rwa [h.taken]
  have hkeeps : ∀ f ∈ others, responseFrames.Keeps f := fun f hf =>
    keeps_response (hserver.wellFormed f (hothers ▸ List.mem_append_right _ hf))
  obtain ⟨others', rfl, hbytes, -⟩ :=
    FrameReader.read_front hkeeps hfront (toOption_eq_some.mpr hread)
  refine ⟨h.inflight, ⟨others', ?_⟩, ?_⟩
  · rw [← hothers, List.append_assoc]
    rfl
  · have hlen := congrArg List.length hbytes
    have hpos := List.length_pos_iff.mpr r.bytes_ne_nil
    change _ = (r.bytes ++ rest).length at hlen
    rw [List.length_drop, List.length_append] at hlen
    dsimp only
    rw [List.flatMap_append, List.flatMap_singleton, List.length_append, ← h.taken]
    omega

omit [DecidableEq τ] in
/-- The server reads the next request that was written. -/
theorem Inv.receive (h : s.Inv request) (hwritable : ∀ t, (request t).Writable)
    {inbound : InboundRequest} {rest : List UInt8} {server' : Connection}
    (hread : readInbound s.inflight = some (inbound, rest))
    (hstep : Connection.Step transport s.server (.receive inbound) server') :
    Inv request { s with server := server', inflight := rest } := by
  obtain ⟨frames, hsent, hfront, hwhole⟩ := h.inflight
  have hkeeps : ∀ f ∈ frames, requestFrames.Keeps f := by
    intro f hf
    obtain ⟨t, id, -, -, rfl⟩ := hsent.own f (List.mem_append_right _ hf)
    exact keeps_request (hwritable t)
  obtain ⟨others, rfl, hbytes, hrest⟩ := FrameReader.read_front hkeeps hfront hread
  cases hstep with
  | receive =>
    refine ⟨⟨others, ?_, hrest, fun htorn => ?_⟩, h.responses, h.taken⟩
    · dsimp only
      rwa [List.append_assoc]
    · have heq := hwhole htorn
      rw [hbytes, List.flatMap_cons] at heq
      exact List.append_cancel_left heq

theorem inv_of_reach (hwritable : ∀ t, (request t).Writable)
    (h : (exchange transport request).Reach (Orderly D E) s) : s.Inv request := by
  refine System.Reach.invariant_reach (fun s hinit => ?_) (fun s a s' hreach hI hok hstep => ?_) h
  · obtain ⟨⟨hclient, -⟩, ⟨db, hdb⟩, hinflight, htaken, -⟩ := hinit
    refine ⟨⟨[], ?_, ?_, fun _ => hinflight⟩, ?_, ?_⟩
    · rw [hdb]
      exact ⟨List.forall_mem_nil _, List.nodup_nil⟩
    · rw [hinflight]
      exact List.prefix_rfl
    · rw [hclient]
      exact List.nil_prefix
    · rw [htaken, hclient]
      rfl
  · cases hstep with
    | call hcall hout =>
      exact hI.call (MultiplexedSession.idInv_of_reach (client_reach hreach))
        (fun id hpc => hok.untorn _ id rfl hpc) hcall hout
    | reader hreader hsame =>
      refine ⟨hI.inflight, ?_, ?_⟩
      · dsimp only
        rw [hsame]
        exact hI.responses
      · dsimp only
        rw [hsame]
        exact hI.taken
    | respond hread => exact hI.respond (server_inv hreach).1 hread
    | receive hread hserver => exact hI.receive hwritable hread hserver
    | server hserver hevent =>
      obtain ⟨hreceived, hstarted⟩ := hserver.frame hevent
      refine ⟨?_, hI.responses.trans hstarted, hI.taken⟩
      dsimp only
      rw [hreceived]
      exact hI.inflight

/-- What a call returns is a frame of the server for the request of the call. -/
theorem answers_of_returned (hwritable : ∀ t, (request t).Writable)
    (h : (exchange transport request).Reach (Orderly D E) s) {t : τ} {id : UInt64}
    {r : WireResponse}
    (ht : s.client.loc t = .returned id (.ok r)) :
    ∃ branch, Answers transport D E (outgoing request t id) branch r := by
  have hclient := client_reach h
  have hinv := inv_of_reach hwritable h
  obtain ⟨hid, hfirst⟩ := (MultiplexedSession.matchInv_of_reach hclient).answer t id r
    (by rw [ht]; rfl)
  have hstarted : r ∈ s.server.started := hinv.responses.subset (List.mem_of_find?_eq_some hfirst)
  obtain ⟨inbound, hin, branch, hanswers⟩ := (server_inv h).2.started r hstarted
  obtain ⟨u, id', -, hu, rfl⟩ := hinv.sent.own inbound hin
  obtain rfl : id' = id := hanswers.requestId.symm.trans hid
  obtain rfl : u = t := (MultiplexedSession.idInv_of_reach hclient).unique u t id' hu
    (by rw [ht]; rfl)
  exact ⟨branch, hanswers⟩

/-- **A call returns the answer to its own request.** Any number of calls share a session, and any
answers of the two sockets delay and cut what is sent. In every run in which no end goes on writing
after a cut, the response that a call returns is the frame of the request that this call has made,
as the server has processed it: for a chunk, a hit carries the bytes that the database of the server
has under the checksum of the call, and a miss tells that there are none. -/
theorem exchange_answers (hwritable : ∀ t, (request t).Writable)
    (h : (exchange transport request).Reach (Orderly D E) s) {t : τ} {id : UInt64}
    {r : WireResponse}
    (ht : s.client.loc t = .returned id (.ok r)) :
    (∃ branch, Answers transport D E (outgoing request t id) branch r) ∧
    ((request t).request.messageType = .getChunk →
      (r.status = statusHit →
        ∃ db, D db ∧ db.store.getChunk (request t).request.checksum = some r.payload) ∧
      (r.status = statusMiss →
        ∃ db, D db ∧ db.store.getChunk (request t).request.checksum = none)) := by
  obtain ⟨branch, hanswers⟩ := answers_of_returned hwritable h ht
  exact ⟨⟨branch, hanswers⟩, hanswers.getChunk⟩

/-! ### Runs of one call -/

section Run

/-- A state of the exchange of one call. -/
abbrev during (session : MultiplexedSession Unit) (pc : CallPc Unit) (server : Connection)
    (bytes : List UInt8) (n : ℕ) : Exchange Unit :=
  ⟨⟨session, fun _ => pc⟩, server, bytes, n, false⟩

/-- The session of a call that waits for its response. -/
def waitingSession : MultiplexedSession Unit :=
  { ({ MultiplexedSession.new Unit with nextRequestId := 2 }).insertPending 1 () with
    inflight := 1 }

/-- `P` goes on along the steps of the exchange of one call in which no request is processed. -/
def GoesOn (transport : Transport) (inbound : InboundRequest) (D : StoredChunks → Prop)
    (P : Exchange Unit → Prop) : Prop :=
  ∀ s a s', P s → Orderly D (fun _ _ => True) s a →
    (∀ inbound effects, a ≠ .server (.process inbound effects)) →
    ExchangeStep transport (fun _ => inbound) s a s' → P s'

/-- A step that is none of the call, and writes nothing on the side of the server, is allowed. -/
theorem orderly_of_quiet {s : Exchange Unit} {a : ExchangeAct Unit}
    (hcall : ∀ t, a ≠ .call t) (hserver : ∀ event, a = .server event → s.server.CutsSilent event)
    (hdb : D s.server.db) : Orderly D (fun _ _ => True) s a where
  fewCalls t h := absurd h (hcall t)
  untorn t _ h := absurd h (hcall t)
  cutsSilent := hserver
  stored := hdb
  effects _ _ _ := trivial

variable {inbound : InboundRequest} {P : Exchange Unit → Prop}
  {session session' : MultiplexedSession Unit} {pc pc' : CallPc Unit} {server server' : Connection}
  {bytes rest : List UInt8} {n : ℕ}

namespace GoesOn

section Steps

variable (hP : GoesOn transport inbound D P) (h : P (during session pc server bytes n))
  (hdb : D server.db)

include hP h hdb

theorem call {out : List UInt8} (hstep : CallStep () session pc session' pc')
    (hout : Writes (outgoing (fun _ => inbound) ()) pc pc' out false)
    (hfew : session.nextRequestId < 2 ^ 64) : P (during session' pc' server (bytes ++ out) n) := by
  have hok : Orderly D (fun _ _ => True) (during session pc server bytes n) (.call ()) :=
    { fewCalls := fun t _ (_ : pc = .checked) => hfew
      untorn := fun _ _ _ _ => rfl
      cutsSilent := fun _ h => (by cases h)
      stored := hdb
      effects := fun _ _ _ => trivial }
  have hnext := hP _ _ _ h hok (fun _ _ h => (by cases h)) (ExchangeStep.call hstep hout)
  have hloc : Function.update (fun _ => pc) () pc' = fun _ : Unit => pc' := funext fun _ => rfl
  dsimp only at hnext
  rwa [hloc] at hnext

theorem quiet (hstep : CallStep () session pc session' pc') (hpc : ∀ id, pc ≠ .writing id)
    (hfew : session.nextRequestId < 2 ^ 64) : P (during session' pc' server bytes n) := by
  have hnext := hP.call h hdb hstep (.other hpc) hfew
  rwa [List.append_nil] at hnext

theorem reader (hstep : ReaderStep session session')
    (hsame : session'.responses = session.responses) : P (during session' pc server bytes n) :=
  hP _ .reader _ h (orderly_of_quiet nofun (fun _ h => (by cases h)) hdb)
    (fun _ _ h => (by cases h)) (ExchangeStep.reader hstep hsame)

theorem serverStep (event : Connection.Event)
    (hstep : Connection.Step transport server event server')
    (hevent : ∀ inbound, event ≠ .receive inbound)
    (hprocess : ∀ inbound effects, event ≠ .process inbound effects)
    (hsilent : server.CutsSilent event) : P (during session pc server' bytes n) :=
  hP _ (.server event) _ h
    (orderly_of_quiet nofun (fun _ heq => ExchangeAct.server.inj heq ▸ hsilent) hdb)
    (fun _ _ heq => hprocess _ _ (ExchangeAct.server.inj heq)) (ExchangeStep.server hstep hevent)

theorem receive {r : InboundRequest} (hread : readInbound bytes = some (r, rest))
    (hstep : Connection.Step transport server (.receive r) server') :
    P (during session pc server' rest n) :=
  hP _ .receive _ h (orderly_of_quiet nofun (fun _ h => (by cases h)) hdb)
    (fun _ _ h => (by cases h)) (ExchangeStep.receive hread hstep)

theorem respond {r : WireResponse}
    (hread : WireResponse.readFrom (server.sent.drop n) = .ok (r, rest)) :
    P (during { session with responses := session.responses ++ [r] } pc server bytes
      (server.sent.length - rest.length)) :=
  hP _ .respond _ h (orderly_of_quiet nofun (fun _ h => (by cases h)) hdb)
    (fun _ _ h => (by cases h)) (ExchangeStep.respond hread)

end Steps

variable (hP : GoesOn transport inbound D P)

include hP

/-- The call is made. -/
theorem sent (h : P (during (.new Unit) .idle server [] n)) (hdb : D server.db) :
    P (during waitingSession (.waiting 1) server
      (outgoing (fun _ : Unit => inbound) () 1).bytes n) := by
  have h₁ := hP.quiet h hdb .call nofun (by decide)
  have h₂ := hP.quiet h₁ hdb (.check rfl) nofun (by decide)
  have h₃ := hP.quiet h₂ hdb .allocate nofun (by decide)
  have h₄ := hP.quiet h₃ hdb .insert nofun (by decide)
  have h₅ := hP.quiet h₄ hdb .count nofun (by decide)
  have h₆ := hP.quiet h₅ hdb (.lockWriter rfl) nofun (by decide)
  exact hP.call h₆ hdb .writeOk .whole (by decide)

/-- The call returns the response that has arrived. -/
theorem returned {r : WireResponse} (h : P (during waitingSession (.waiting 1) server bytes n))
    (hdb : D server.db) (hid : r.requestId = 1)
    (hread : WireResponse.readFrom (server.sent.drop n) = .ok (r, rest)) :
    ∃ s, P s ∧ s.client.loc () = .returned 1 (.ok r) ∧ s.server = server := by
  have hpending : waitingSession.pending r.requestId = some () := by
    rw [hid]
    rfl
  have h₁ := hP.respond h hdb hread
  have h₂ := hP.reader h₁ hdb (.read rfl rfl) rfl
  have h₃ := hP.reader h₂ hdb (.route rfl hpending) rfl
  have h₄ := hP.reader h₃ hdb (.send rfl) rfl
  have hfew : 2 < 2 ^ 64 := by decide
  have h₅ := hP.quiet h₄ hdb (.receive rfl) nofun hfew
  exact ⟨_, hP.quiet h₅ hdb .uncount nofun hfew, rfl, rfl⟩

end GoesOn

end Run

/-! ### A call for a chunk -/

open Connection (oneByte getOneByte hitOneByte)

/-- The exchange of one call, with a server that has one chunk. -/
abbrev fetching : System (Exchange Unit) (ExchangeAct Unit) := exchange .tcp fun _ => getOneByte

/-- The guard of its runs. -/
abbrev UndisturbedFetch : Exchange Unit → ExchangeAct Unit → Prop :=
  Orderly (· = oneByte) fun _ _ => True

/-- The call is made, its request is answered, and it returns the chunk. -/
theorem reach_returned : ∃ s, fetching.Reach UndisturbedFetch s ∧
    s.client.loc () = .returned 1 (.ok hitOneByte) := by
  have hwritable : getOneByte.Writable := rfl
  have hread : readInbound getOneByte.bytes = some (getOneByte, []) := by
    have hbytes := readInbound_bytes hwritable []
    rwa [List.append_nil] at hbytes
  have hfrom : WireResponse.readFrom hitOneByte.bytes = .ok (hitOneByte, []) :=
    (@readFrom_encode 1 statusHit [0] (by decide) []).trans
      (if_pos (by rw [maxChunkPayloadSize, chunkSize]; decide))
  have hP : GoesOn .tcp getOneByte (· = oneByte) (fetching.Reach UndisturbedFetch) :=
    fun _ _ _ h hok _ hstep => h.step hok hstep
  have h₀ : fetching.Reach UndisturbedFetch (during (.new Unit) .idle (.new oneByte) [] 0) :=
    .init ⟨⟨rfl, fun _ => rfl⟩, ⟨_, rfl⟩, rfl, rfl, rfl⟩
  have h₁ := hP.receive (hP.sent h₀ rfl) rfl hread .receive
  have h₂ := h₁.step (a := .server (.process getOneByte ⟨.ok true, .ok ()⟩))
    (orderly_of_quiet (fun _ h => (by cases h)) (fun _ heq => ExchangeAct.server.inj heq ▸
      Connection.cutsSilent_recv rfl) rfl)
    (ExchangeStep.server (.process (show _ = [] ++ getOneByte :: [] from rfl))
      (fun _ h => (by cases h)))
  have hstart : WriterTask.start oneByte false (.getChunk 1 .empty) =
      .writing .hit hitOneByte 0 := by
    simp only [WriterTask.start, if_neg Bool.false_ne_true]
    rw [show oneByte.store.getChunk .empty = some [0] from getChunk_zerosStore 1]
    rfl
  have h₃ : fetching.Reach UndisturbedFetch (during _ _ { Connection.new oneByte with
      writer := .start oneByte false (.getChunk 1 .empty), received := [getOneByte] } _ _) :=
    hP.serverStep h₂ rfl (.recv false) (.recv rfl rfl)
      (fun _ h => (by cases h)) (fun _ _ h => (by cases h)) (Connection.cutsSilent_recv rfl)
  rw [hstart] at h₃
  have h₄ := hP.serverStep h₃ rfl (.tryWrite (.wrote 13)) (.tryWrite rfl rfl)
    (fun _ h => (by cases h)) (fun _ _ h => (by cases h)) (Connection.cutsSilent_hit rfl)
  have h₅ := hP.serverStep h₄ rfl (.tryWrite (.wrote 1)) (.tryWrite rfl rfl)
    (fun _ h => (by cases h)) (fun _ _ h => (by cases h)) (Connection.cutsSilent_hit rfl)
  obtain ⟨s, hs, ht, -⟩ := hP.returned h₅ rfl rfl hfrom
  exact ⟨s, hs, ht⟩

theorem exchange_answers_hit : ∃ s, fetching.Reach UndisturbedFetch s ∧
    s.client.loc () = .returned 1 (.ok hitOneByte) ∧
    oneByte.store.getChunk getOneByte.request.checksum = some hitOneByte.payload := by
  obtain ⟨s, hs, ht⟩ := reach_returned
  have hwritable : ∀ _ : Unit, getOneByte.Writable := fun _ => rfl
  obtain ⟨db, rfl, hstored⟩ := ((exchange_answers hwritable hs ht).2 rfl).1 rfl
  exact ⟨s, hs, ht, hstored⟩

end Exchange

end DistillFs
