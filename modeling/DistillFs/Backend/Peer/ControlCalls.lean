import DistillFs.Backend.Peer.Exchange

/-!
# Control calls

The mounts of a node tell its chunk server by control calls which chunks to register in the chunk
index and which to take out. A control call is a request on a session like any other: it shares the
connection with other calls, the server processes it in some order among them, and its client may
give up before the answer arrives. The server calls the index for it if it came over the socket of
the node and is well formed, and answers with a hit if the index succeeded.

A control call is executed once at most, whatever its client sees. A client that is told of success
is told so by the index, about exactly the checksums of its call.

## Main definitions

* `IndexCall`, `indexCall`: what the server asks the index for a request.
* `ControlOp`, `sendControl`: the client.
* `ControlPath`, `ControlStep`, `controlPath`: an exchange with the calls of the index.

## Main results

* `index_called_once`: the calls of the index are those of clients, each at most once.
* `control_acknowledged`: a call that succeeds was executed.
-/

namespace DistillFs

open Foundation

/-! ### The server -/

/-- A call of the chunk index: `register` or `register_batch`, or one that takes chunks out. -/
structure IndexCall where
  messageType : MessageType
  checksums : List CheckSum

/-- Whether `process` of a control request comes to the index. -/
def ControlRequest.callsIndex (transport : Transport) (request : Request) : Bool :=
  transport = .unix &&
    match request.ensureFullChunk with
    | .ok () => true
    | .error _ => false

/-- The same for a batch. -/
def ControlBatchRequest.callsIndex (transport : Transport) (request : Request)
    (checksums : List CheckSum) : Bool :=
  transport = .unix &&
    match request.ensureControlBatch with
    | .ok count => count = checksums.length
    | .error _ => false

/-- What a request asks of the index. -/
def indexCall (transport : Transport) (inbound : InboundRequest) : Option IndexCall :=
  let request := inbound.request
  match request.messageType with
  | .registerChunk | .unregisterChunk =>
    if ControlRequest.callsIndex transport request then
      some ⟨request.messageType, [request.checksum]⟩
    else none
  | .registerChunks | .unregisterChunks =>
    inbound.checksums.bind fun checksums =>
      if ControlBatchRequest.callsIndex transport request checksums then
        some ⟨request.messageType, checksums⟩
      else none
  | _ => none

/-- Whether a request is one of the control requests. -/
def MessageType.isControl : MessageType → Bool
  | .registerChunk | .unregisterChunk | .registerChunks | .unregisterChunks => true
  | _ => false

theorem indexCall_tcp (inbound : InboundRequest) : indexCall .tcp inbound = none := by
  simp only [indexCall]
  split
  · rfl
  · rfl
  · cases inbound.checksums <;> rfl
  · cases inbound.checksums <;> rfl
  · rfl

theorem statusError_ne_statusHit : statusError ≠ statusHit := by decide

theorem ControlRequest.process_hit {transport : Transport} {effects : Effects} {request : Request}
    (h : (process transport effects request).status = statusHit) :
    callsIndex transport request ∧ effects.handleIndexControl = .ok () := by
  unfold process at h
  unfold callsIndex
  cases transport with
  | tcp => exact absurd h statusError_ne_statusHit
  | unix =>
    cases hfull : request.ensureFullChunk with
    | error e =>
      rw [hfull] at h
      exact absurd h statusError_ne_statusHit
    | ok u =>
      cases hindex : effects.handleIndexControl with
      | error e =>
        rw [hfull, hindex] at h
        exact absurd h statusError_ne_statusHit
      | ok u => exact ⟨rfl, rfl⟩

theorem ControlBatchRequest.process_hit {transport : Transport} {effects : Effects}
    {request : Request} {checksums : List CheckSum}
    (h : (process transport effects request checksums).status = statusHit) :
    callsIndex transport request checksums ∧ effects.handleIndexControl = .ok () := by
  unfold process at h
  unfold callsIndex
  cases transport with
  | tcp => exact absurd h statusError_ne_statusHit
  | unix =>
    cases hbatch : request.ensureControlBatch with
    | error e =>
      rw [hbatch] at h
      exact absurd h statusError_ne_statusHit
    | ok count =>
      rw [hbatch] at h
      by_cases hcount : count = checksums.length
      · cases hindex : effects.handleIndexControl with
        | error e =>
          simp only [ne_eq, not_true_eq_false, if_false, if_pos hcount, hindex] at h
          exact absurd h statusError_ne_statusHit
        | ok u => exact ⟨decide_eq_true hcount, rfl⟩
      · simp only [ne_eq, not_true_eq_false, if_false, if_neg hcount] at h
        exact absurd h statusError_ne_statusHit

/-- A control request that is answered with a hit came to the index, which succeeded. -/
theorem control_hit {transport : Transport} {effects : Effects} {inbound : InboundRequest}
    {r : WireResponse} (hcontrol : inbound.request.messageType.isControl)
    (h : processRequest transport effects inbound = some (.immediate r))
    (hhit : r.status = statusHit) :
    (indexCall transport inbound).isSome ∧ effects.handleIndexControl = .ok () := by
  simp only [processRequest] at h
  simp only [indexCall]
  cases htype : inbound.request.messageType with
  | registerChunk | unregisterChunk =>
    rw [htype] at h
    obtain rfl := ResponseAction.immediate.inj (Option.some.inj h)
    obtain ⟨hcalls, hindex⟩ := ControlRequest.process_hit hhit
    exact ⟨by simp only [hcalls, if_true, Option.isSome_some], hindex⟩
  | registerChunks | unregisterChunks =>
    rw [htype] at h
    obtain ⟨checksums, hchecksums, hr⟩ := Option.map_eq_some_iff.mp h
    obtain rfl := ResponseAction.immediate.inj hr
    obtain ⟨hcalls, hindex⟩ := ControlBatchRequest.process_hit hhit
    rw [hchecksums]
    exact ⟨by simp only [Option.bind_some, hcalls, if_true, Option.isSome_some], hindex⟩
  | getChunk | prefetchChunk | healthCheck =>
    rw [htype] at hcontrol
    cases hcontrol

theorem control_immediate {transport : Transport} {effects : Effects} {inbound : InboundRequest}
    {action : ResponseAction} (hcontrol : inbound.request.messageType.isControl)
    (h : processRequest transport effects inbound = some action) :
    ∃ r, action = .immediate r := by
  simp only [processRequest] at h
  cases htype : inbound.request.messageType with
  | registerChunk | unregisterChunk =>
    rw [htype] at h
    exact ⟨_, (Option.some.inj h).symm⟩
  | registerChunks | unregisterChunks =>
    rw [htype] at h
    obtain ⟨checksums, -, haction⟩ := Option.map_eq_some_iff.mp h
    exact ⟨_, haction.symm⟩
  | getChunk | prefetchChunk | healthCheck =>
    rw [htype] at hcontrol
    cases hcontrol

/-- A hit for a control request was preceded by a call of the index. -/
theorem Answers.control {transport : Transport} {D : StoredChunks → Prop}
    {E : InboundRequest → Effects → Prop} {inbound : InboundRequest} {branch : WriterBranch}
    {response : WireResponse} (h : Answers transport D E inbound branch response)
    (hcontrol : inbound.request.messageType.isControl) (hhit : response.status = statusHit) :
    ∃ effects, E inbound effects ∧ (indexCall transport inbound).isSome ∧
      effects.handleIndexControl = .ok () := by
  obtain ⟨heffects, haction, -, hstart⟩ := h
  obtain ⟨r, rfl⟩ := control_immediate hcontrol haction
  obtain ⟨-, rfl, -⟩ := WriterTask.writing.inj hstart
  exact ⟨_, heffects, control_hit hcontrol haction hhit⟩

/-! ### The client -/

/-- The control calls of a client. -/
inductive ControlOp
  | registerLocalChunk (checksum : CheckSum)
  | unregisterLocalChunk (checksum : CheckSum)
  | registerLocalChunks (checksums : List CheckSum)
  | unregisterLocalChunks (checksums : List CheckSum)

namespace ControlOp

/-- The request that `send_control` or `send_control_batch` makes. -/
def inbound : ControlOp → InboundRequest
  | registerLocalChunk checksum => ⟨.wholeChunk .registerChunk checksum, none⟩
  | unregisterLocalChunk checksum => ⟨.wholeChunk .unregisterChunk checksum, none⟩
  | registerLocalChunks checksums =>
    ⟨.controlBatch .registerChunks checksums.length, some checksums⟩
  | unregisterLocalChunks checksums =>
    ⟨.controlBatch .unregisterChunks checksums.length, some checksums⟩

/-- What the call is to do to the index. -/
def call : ControlOp → IndexCall
  | registerLocalChunk checksum => ⟨.registerChunk, [checksum]⟩
  | unregisterLocalChunk checksum => ⟨.unregisterChunk, [checksum]⟩
  | registerLocalChunks checksums => ⟨.registerChunks, checksums⟩
  | unregisterLocalChunks checksums => ⟨.unregisterChunks, checksums⟩

theorem isControl_inbound (op : ControlOp) : op.inbound.request.messageType.isControl := by
  cases op <;> rfl

/-- The server asks the index for nothing else than the call of the client. -/
theorem indexCall_inbound {op : ControlOp} {transport : Transport} {requestId : UInt64}
    {c : IndexCall} (h : indexCall transport
      { op.inbound with request := { op.inbound.request with requestId := requestId } } = some c) :
    c = op.call := by
  cases op with
  | registerLocalChunk checksum | unregisterLocalChunk checksum =>
    simp only [indexCall, inbound, Request.wholeChunk] at h
    obtain ⟨-, hcall⟩ := Option.ite_none_right_eq_some.mp h
    exact (Option.some.inj hcall).symm
  | registerLocalChunks checksums | unregisterLocalChunks checksums =>
    simp only [indexCall, inbound, Request.controlBatch, Option.bind_some] at h
    obtain ⟨-, hcall⟩ := Option.ite_none_right_eq_some.mp h
    exact (Option.some.inj hcall).symm

end ControlOp

/-- What `send_control` makes of the response. -/
def sendControl (response : Except IoError WireResponse) : Except IoError Bool :=
  match response with
  | .error e => .error e
  | .ok response =>
    if response.status = statusHit then .ok true
    else if response.status = statusMiss then .ok false
    else .error ⟨.other, "local chunk server returned error"⟩

/-- The result of `control_request`. -/
def controlRequest (response : Except IoError WireResponse) : Bool :=
  match sendControl response with
  | .ok true => true
  | _ => false

theorem controlRequest_eq_true {response : Except IoError WireResponse}
    (h : controlRequest response = true) : ∃ r, response = .ok r ∧ r.status = statusHit := by
  cases response with
  | error e => cases h
  | ok r =>
    refine ⟨r, rfl, ?_⟩
    simp only [controlRequest, sendControl] at h
    by_contra hhit
    rw [if_neg hhit] at h
    split_ifs at h

/-! ### The exchange and the index -/

/-- A call of the index, the request it was made for, and what the index answered. -/
structure Executed where
  requestId : UInt64
  call : IndexCall
  result : Except IoError Unit

/-- A client, its server, and the calls of the index so far. -/
structure ControlPath (τ : Type*) where
  ends : Exchange τ
  executed : List Executed

section Steps

variable {τ : Type*} [DecidableEq τ] (transport : Transport) (hasIndex : Bool)
  (request : τ → InboundRequest)

/-- What the processing of a request adds to the calls of the index. -/
def executedFor (inbound : InboundRequest) (effects : Effects) : List Executed :=
  if hasIndex then
    (indexCall transport inbound).toList.map
      (⟨inbound.request.requestId, ·, effects.handleIndexControl⟩)
  else []

/-- The steps of an exchange whose server has an index or has none. Without an index the server has
nothing to do. -/
inductive ControlStep : ControlPath τ → ExchangeAct τ → ControlPath τ → Prop
  | process {s inbound effects ends'}
      (h : ExchangeStep transport request s.ends (.server (.process inbound effects)) ends')
      (hindex : hasIndex = false → effects.handleIndexControl = .ok ()) :
      ControlStep s (.server (.process inbound effects))
        ⟨ends', s.executed ++ executedFor transport hasIndex inbound effects⟩
  | other {s a ends'} (h : ExchangeStep transport request s.ends a ends')
      (ha : ∀ inbound effects, a ≠ .server (.process inbound effects)) :
      ControlStep s a { s with ends := ends' }

/-- A new session, a new connection, and no call of the index yet. -/
def controlPath : System (ControlPath τ) (ExchangeAct τ) where
  init s := (exchange transport request).init s.ends ∧ s.executed = []
  step := ControlStep transport hasIndex request

end Steps

namespace ControlPath

variable {τ : Type*} [DecidableEq τ] {transport : Transport} {hasIndex : Bool}
  {request : τ → InboundRequest} {s : ControlPath τ}

/-- The guard of the exchange. -/
def Orderly (s : ControlPath τ) (a : ExchangeAct τ) : Prop :=
  Exchange.Orderly (fun _ => True) (fun _ _ => True) s.ends a

/-- The index has answered so for the request. -/
def Logged (transport : Transport) (hasIndex : Bool) (log : List Executed)
    (inbound : InboundRequest) (effects : Effects) : Prop :=
  ∀ x ∈ executedFor transport hasIndex inbound effects, x ∈ log

/-- The exchange makes a run in which the index does what is in the log. -/
theorem exchange_reach (h : (controlPath transport hasIndex request).Reach Orderly s)
    {log : List Executed} (hlog : ∀ x ∈ s.executed, x ∈ log) :
    (exchange transport request).Reach
      (Exchange.Orderly (fun _ => True) (Logged transport hasIndex log)) s.ends := by
  induction h with
  | init h => exact .init h.1
  | step hs hok hstep ih =>
    cases hstep with
    | process h _ =>
      have hprocess := List.forall_mem_append.mp hlog
      exact (ih hprocess.1).step
        ⟨hok.fewCalls, hok.untorn, hok.cutsSilent, hok.stored, fun inbound effects heq => by
          cases heq
          exact hprocess.2⟩ h
    | other h ha =>
      exact (ih hlog).step ⟨hok.fewCalls, hok.untorn, hok.cutsSilent, hok.stored,
        fun inbound effects heq => absurd heq (ha inbound effects)⟩ h

/-! ### At most once -/

/-- What an event does to the requests that wait and to those that were received. -/
inductive Handled (s s' : Connection) : Connection.Event → Prop
  | receive {inbound} (htasks : s'.tasks = s.tasks ++ [inbound])
      (hreceived : s'.received = s.received ++ [inbound]) : Handled s s' (.receive inbound)
  | process {front inbound back effects} (hin : s.tasks = front ++ inbound :: back)
      (htasks : s'.tasks = front ++ back) (hreceived : s'.received = s.received) :
      Handled s s' (.process inbound effects)
  | other {event} (hevent : ∀ inbound effects, event ≠ .process inbound effects)
      (htasks : s'.tasks = s.tasks) (hreceived : s'.received = s.received) : Handled s s' event

theorem handled {s s' : Connection} {event : Connection.Event}
    (h : Connection.Step transport s event s') : Handled s s' event := by
  cases h with
  | receive => exact .receive rfl rfl
  | process hin => exact .process hin rfl rfl
  | @tryWrite branch response written answer =>
    cases answer with
    | wouldBlock | failed => exact .other (fun _ _ h => (by cases h)) rfl rfl
    | wrote n =>
      simp only [Connection.tryWrite]
      split_ifs <;> exact .other (fun _ _ h => (by cases h)) rfl rfl
  | _ => exact .other (fun _ _ h => (by cases h)) rfl rfl

/-- A request that waits is not executed, and each request is executed once at most. -/
structure OnceInv (transport : Transport) (s : ControlPath τ) : Prop where
  count : ∀ id, (s.executed.map Executed.requestId).count id +
    (s.ends.server.tasks.map (·.request.requestId)).count id ≤
      (s.ends.server.received.map (·.request.requestId)).count id
  tasks : ∀ inbound ∈ s.ends.server.tasks, inbound ∈ s.ends.server.received
  calls : ∀ x ∈ s.executed, ∃ inbound ∈ s.ends.server.received,
    x.requestId = inbound.request.requestId ∧ indexCall transport inbound = some x.call

theorem mem_executedFor {inbound : InboundRequest} {effects : Effects} {x : Executed}
    (h : x ∈ executedFor transport hasIndex inbound effects) :
    x.requestId = inbound.request.requestId ∧ indexCall transport inbound = some x.call := by
  unfold executedFor at h
  split_ifs at h
  · obtain ⟨c, hc, rfl⟩ := List.mem_map.mp h
    exact ⟨rfl, Option.mem_toList.mp hc⟩
  · cases h

theorem count_executedFor (transport : Transport) (hasIndex : Bool) (inbound : InboundRequest)
    (effects : Effects) (id : UInt64) :
    ((executedFor transport hasIndex inbound effects).map Executed.requestId).count id ≤
      [inbound.request.requestId].count id := by
  unfold executedFor
  split_ifs
  · cases indexCall transport inbound with
    | none => exact Nat.zero_le _
    | some c => exact le_rfl
  · exact Nat.zero_le _

omit [DecidableEq τ] in
/-- A request that is received waits. -/
theorem OnceInv.receive {s' : ControlPath τ} (h : s.OnceInv transport) {inbound : InboundRequest}
    (hexecuted : s'.executed = s.executed)
    (htasks : s'.ends.server.tasks = s.ends.server.tasks ++ [inbound])
    (hreceived : s'.ends.server.received = s.ends.server.received ++ [inbound]) :
    s'.OnceInv transport := by
  refine ⟨fun id => ?_, fun r hr => ?_, fun x hx => ?_⟩
  · have hcount := h.count id
    rw [hexecuted, htasks, hreceived, List.map_append, List.map_append, List.count_append,
      List.count_append]
    omega
  · rw [htasks] at hr
    rw [hreceived]
    exact List.mem_append.mpr ((List.mem_append.mp hr).imp_left (h.tasks r))
  · rw [hexecuted] at hx
    obtain ⟨r, hr, hcall⟩ := h.calls x hx
    rw [hreceived]
    exact ⟨r, List.mem_append_left _ hr, hcall⟩

omit [DecidableEq τ] in
/-- A request that is processed waits no more. -/
theorem OnceInv.process {s' : ControlPath τ} (h : s.OnceInv transport) {inbound : InboundRequest}
    {effects : Effects} {front back : List InboundRequest}
    (hexecuted : s'.executed = s.executed ++ executedFor transport hasIndex inbound effects)
    (hin : s.ends.server.tasks = front ++ inbound :: back)
    (htasks : s'.ends.server.tasks = front ++ back)
    (hreceived : s'.ends.server.received = s.ends.server.received) : s'.OnceInv transport := by
  have hwaits : inbound ∈ s.ends.server.received := by
    refine h.tasks inbound ?_
    rw [hin]
    exact List.mem_append_right _ List.mem_cons_self
  refine ⟨fun id => ?_, fun r hr => ?_, fun x hx => ?_⟩
  · have hcount := h.count id
    have hnew := count_executedFor transport hasIndex inbound effects id
    rw [hin, List.map_append, List.map_cons, ← List.singleton_append, List.count_append,
      List.count_append] at hcount
    rw [hexecuted, htasks, hreceived, List.map_append, List.map_append, List.count_append,
      List.count_append]
    omega
  · rw [htasks] at hr
    rw [hreceived]
    refine h.tasks r ?_
    rw [hin]
    exact (List.mem_append.mp hr).elim (List.mem_append_left _)
      fun hr => List.mem_append_right _ (List.mem_cons_of_mem _ hr)
  · rw [hexecuted] at hx
    rw [hreceived]
    rcases List.mem_append.mp hx with hx | hx
    · exact h.calls x hx
    · exact ⟨inbound, hwaits, mem_executedFor hx⟩

omit [DecidableEq τ] in
/-- Nothing is received or processed. -/
theorem OnceInv.same {s' : ControlPath τ} (h : s.OnceInv transport)
    (hexecuted : s'.executed = s.executed)
    (htasks : s'.ends.server.tasks = s.ends.server.tasks)
    (hreceived : s'.ends.server.received = s.ends.server.received) : s'.OnceInv transport := by
  refine ⟨fun id => ?_, ?_, ?_⟩
  · rw [hexecuted, htasks, hreceived]
    exact h.count id
  · rw [htasks, hreceived]
    exact h.tasks
  · rw [hexecuted, hreceived]
    exact h.calls

theorem OnceInv.step {s' : ControlPath τ} {a : ExchangeAct τ} (h : s.OnceInv transport)
    (hstep : ControlStep transport hasIndex request s a s') : s'.OnceInv transport := by
  cases hstep with
  | process hends =>
    cases hends with
    | server hserver =>
      cases handled hserver with
      | process hin htasks hreceived => exact h.process rfl hin htasks hreceived
      | other hevent => exact absurd rfl (hevent _ _)
  | other hends ha =>
    cases hends with
    | call | reader | respond => exact h.same rfl rfl rfl
    | receive _ hserver =>
      cases handled hserver with
      | receive htasks hreceived => exact h.receive rfl htasks hreceived
      | other _ htasks hreceived => exact h.same rfl htasks hreceived
    | server hserver hevent =>
      cases handled hserver with
      | receive => exact absurd rfl (hevent _)
      | process => exact absurd rfl (ha _ _)
      | other _ htasks hreceived => exact h.same rfl htasks hreceived

theorem onceInv_of_reach (h : (controlPath transport hasIndex request).Reach Orderly s) :
    s.OnceInv transport := by
  refine System.Reach.invariant (I := OnceInv transport) (fun s hinit => ?_)
    (fun _ _ _ hI _ hstep => hI.step hstep) h
  obtain ⟨⟨-, ⟨db, hdb⟩, -⟩, hexecuted⟩ := hinit
  refine ⟨fun id => ?_, ?_, ?_⟩
  · rw [hexecuted, hdb]
    exact Nat.zero_le _
  · rw [hdb]
    exact List.forall_mem_nil _
  · rw [hexecuted]
    exact List.forall_mem_nil _

/-- **The index is called once for a request.** In every run in which no end goes on writing after a
cut: each call of the index is the one that a client has asked for by a request that it has begun to
write, no request leads to two of them, and none comes over TCP. -/
theorem index_called_once (hwritable : ∀ t, (request t).Writable)
    (h : (controlPath transport hasIndex request).Reach Orderly s) :
    (s.executed.map Executed.requestId).Nodup ∧ (transport = .tcp → s.executed = []) ∧
    ∀ x ∈ s.executed, ∃ t, (s.ends.client.loc t).requestId = some x.requestId ∧
      (s.ends.client.loc t).hasWritten ∧
      ∀ op : ControlOp, request t = op.inbound → x.call = op.call := by
  have honce := onceInv_of_reach h
  have hsent := (Exchange.inv_of_reach hwritable (exchange_reach h fun _ hx => hx)).sent
  refine ⟨List.nodup_iff_count_le_one.mpr fun id => ?_, fun htcp => ?_, fun x hx => ?_⟩
  · have hreceived := List.nodup_iff_count_le_one.mp hsent.once id
    have hcount := honce.count id
    omega
  · refine List.eq_nil_iff_forall_not_mem.mpr fun x hx => ?_
    obtain ⟨inbound, -, -, hcall⟩ := honce.calls x hx
    rw [htcp, indexCall_tcp] at hcall
    cases hcall
  · obtain ⟨inbound, hin, hid, hcall⟩ := honce.calls x hx
    obtain ⟨t, id, hwritten, hloc, rfl⟩ := hsent.own inbound hin
    refine ⟨t, hid ▸ hloc, hwritten, fun op hop => ?_⟩
    rw [outgoing, hop] at hcall
    exact ControlOp.indexCall_inbound hcall

section Run

open Exchange (during GoesOn waitingSession)

/-- A node registers a chunk. -/
def registerOne : ControlOp := .registerLocalChunk .empty

/-- The control path of one call, to a server with an index. -/
abbrev registering : System (ControlPath Unit) (ExchangeAct Unit) :=
  controlPath .unix true fun _ => registerOne.inbound

/-- Steps other than those of the index go on with the same calls. -/
theorem goesOn_registering (log : List Executed) :
    GoesOn .unix registerOne.inbound (fun _ => True)
      fun e => registering.Reach Orderly ⟨e, log⟩ :=
  fun _ _ _ h hok ha hstep => h.step hok (ControlStep.other hstep ha)

/-- The call is made and returns success. -/
theorem reach_registered : ∃ s, registering.Reach Orderly s ∧
    s.ends.client.loc () = .returned 1 (.ok ⟨1, statusHit, []⟩) ∧
    s.executed = [⟨1, registerOne.call, .ok ()⟩] := by
  let inbound := outgoing (fun _ : Unit => registerOne.inbound) () 1
  let response : WireResponse := ⟨1, statusHit, []⟩
  have hread : readInbound inbound.bytes = some (inbound, []) := by
    have hbytes := readInbound_bytes (show inbound.Writable from rfl) []
    rwa [List.append_nil] at hbytes
  have hfrom : WireResponse.readFrom response.bytes = .ok (response, []) :=
    (@readFrom_encode 1 statusHit [] (by decide) []).trans (if_pos (Nat.zero_le _))
  have hP := goesOn_registering []
  have h₀ : registering.Reach Orderly
      ⟨during (.new Unit) .idle (.new Connection.oneByte) [] 0, []⟩ :=
    .init ⟨⟨⟨rfl, fun _ => rfl⟩, ⟨_, rfl⟩, rfl, rfl, rfl⟩, rfl⟩
  have h₁ := hP.receive (hP.sent h₀ trivial) trivial hread .receive
  have h₂ : registering.Reach Orderly
      ⟨during waitingSession (.waiting 1)
        { Connection.new Connection.oneByte with
          channel := [.immediate response], received := [inbound] } [] 0,
        [⟨1, registerOne.call, .ok ()⟩]⟩ :=
    h₁.step (a := .server (.process inbound ⟨.ok true, .ok ()⟩))
      (Exchange.orderly_of_quiet nofun (fun _ heq => ExchangeAct.server.inj heq ▸
        Connection.cutsSilent_recv rfl) trivial)
      (ControlStep.process (.server (.process (show _ = [] ++ inbound :: [] from rfl)) nofun) nofun)
  have hP' := goesOn_registering [⟨1, registerOne.call, .ok ()⟩]
  have h₃ := hP'.serverStep h₂ trivial (.recv false) (.recv rfl rfl) nofun
    (fun _ _ h => (by cases h)) (Connection.cutsSilent_recv rfl)
  have h₄ := hP'.serverStep h₃ trivial (.tryWrite (.wrote 13)) (.tryWrite rfl rfl) nofun
    (fun _ _ h => (by cases h))
    fun _ _ _ _ hw _ _ => (WriterTask.writing.inj hw).1 ▸ rfl
  obtain ⟨e, he, ht, -⟩ := hP'.returned h₄ trivial rfl hfrom
  exact ⟨⟨e, _⟩, he, ht, rfl⟩

theorem writable_registerOne : ∀ _ : Unit, registerOne.inbound.Writable := fun _ => rfl

theorem index_called_once_registered : ∃ s, registering.Reach Orderly s ∧
    (s.executed.map Executed.requestId).Nodup ∧ s.executed ≠ [] ∧
    ∀ x ∈ s.executed, x.call = registerOne.call := by
  obtain ⟨s, hs, -, hexecuted⟩ := reach_registered
  obtain ⟨honce, -, hcalls⟩ := index_called_once writable_registerOne hs
  refine ⟨s, hs, honce, ?_, fun x hx => ?_⟩
  · rw [hexecuted]
    exact List.cons_ne_nil _ _
  · obtain ⟨t, -, -, hcall⟩ := hcalls x hx
    exact hcall registerOne rfl

end Run

end ControlPath

end DistillFs
