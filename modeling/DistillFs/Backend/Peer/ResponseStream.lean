import DistillFs.Backend.Peer.Request
import DistillFs.Foundation.Transition

/-!
# The response stream of a connection

The server handles the requests of a connection at the same time and sends what they come to through
a channel to one writer task. The task takes one action after the other and writes a frame for it. A
chunk is written from inside the database read, so the error of that read is either one of the
database or one of the socket. In both cases the task goes on with a frame that reports an error;
the error of any other write ends the task.

An error of the socket can come after a part of the chunk's frame was taken. The frame that reports
the error then lands in the middle of the other one. This is the only way in which the stream is
damaged: if the socket takes nothing of these reports, it only ever gets whole frames one after the
other, the last one perhaps not to its end.

Flushing is left out, since it does nothing on these sockets.

## Main definitions

* `processRequest`: the action that a request comes to.
* `Connection`, `Connection.Step`: the tasks of a connection, with any answer of the socket.
* `Frames`: the bytes of a stream are the front of frames, one for each request at most.
* `Connection.CutsSilent`: the guard of the runs that damage nothing.

## Main results

* `Connection.frames_started`: the frames of such runs.
* `Connection.error_within_hit`: a run that damages the stream.
-/

namespace DistillFs

open Foundation

/-- The database of the server. LMDB refuses values of 4 GiB and more. -/
structure StoredChunks where
  store : Store
  length_lt : ∀ {cs : CheckSum} {data : List UInt8}, store.getChunk cs = some data →
    data.length < 2 ^ 32

/-! ### From requests to actions -/

inductive Transport
  | tcp
  | unix
  deriving DecidableEq

/-- What the rest of the node does for a request. -/
structure Effects where
  prefetchFromPeer : Except IoError Bool
  handleIndexControl : Except IoError Unit

/-- What the writer task is asked to do. -/
inductive ResponseAction
  | immediate (response : WireResponse)
  | getChunk (requestId : UInt64) (checksum : CheckSum)

/-- The id of the request that it answers. -/
def ResponseAction.requestId : ResponseAction → UInt64
  | .immediate response => response.requestId
  | .getChunk requestId _ => requestId

def GetRequest.action (request : Request) : ResponseAction :=
  match request.ensureFullChunk with
  | .ok () => .getChunk request.requestId request.checksum
  | .error _ => .immediate ⟨request.requestId, statusError, []⟩

def PrefetchRequest.process (effects : Effects) (request : Request) : WireResponse :=
  let status :=
    match request.ensureFullChunk with
    | .ok () =>
      match effects.prefetchFromPeer with
      | .ok true => statusHit
      | .ok false => statusMiss
      | .error _ => statusError
    | .error _ => statusError
  ⟨request.requestId, status, []⟩

def HealthCheckRequest.process (request : Request) : WireResponse :=
  let status :=
    match request.ensureFullChunk with
    | .ok () => statusHit
    | .error _ => statusError
  ⟨request.requestId, status, []⟩

def ControlRequest.process (transport : Transport) (effects : Effects) (request : Request) :
    WireResponse :=
  let status :=
    if transport ≠ .unix then statusError
    else
      match request.ensureFullChunk with
      | .ok () =>
        match effects.handleIndexControl with
        | .ok () => statusHit
        | .error _ => statusError
      | .error _ => statusError
  ⟨request.requestId, status, []⟩

def ControlBatchRequest.process (transport : Transport) (effects : Effects) (request : Request)
    (checksums : List CheckSum) : WireResponse :=
  let status :=
    if transport ≠ .unix then statusError
    else
      match request.ensureControlBatch with
      | .ok count =>
        if count = checksums.length then
          match effects.handleIndexControl with
          | .ok () => statusHit
          | .error _ => statusError
        else statusError
      | .error _ => statusError
  ⟨request.requestId, status, []⟩

/-- The action for a request. The task panics on a batch without checksums and then sends none. -/
def processRequest (transport : Transport) (effects : Effects) (inbound : InboundRequest) :
    Option ResponseAction :=
  let request := inbound.request
  match request.messageType with
  | .getChunk => some (GetRequest.action request)
  | .prefetchChunk => some (.immediate (PrefetchRequest.process effects request))
  | .healthCheck => some (.immediate (HealthCheckRequest.process request))
  | .registerChunk | .unregisterChunk =>
    some (.immediate (ControlRequest.process transport effects request))
  | .registerChunks | .unregisterChunks =>
    inbound.checksums.map fun checksums =>
      .immediate (ControlBatchRequest.process transport effects request checksums)

/-! ### Frames -/

namespace WireResponse

/-- The bytes of a response. -/
def bytes (r : WireResponse) : List UInt8 :=
  encodeResponseHeader r.requestId r.status r.payload.length ++ r.payload

/-- A hit, or a bare report of one of the other outcomes. The header can tell its length. -/
def WellFormed (r : WireResponse) : Prop :=
  (r.status = statusHit ∨ (r.status = statusMiss ∨ r.status = statusError) ∧ r.payload = []) ∧
    r.payload.length < 2 ^ 32

theorem wellFormed_of_status {status : UInt8}
    (h : status = statusHit ∨ status = statusMiss ∨ status = statusError) (requestId : UInt64) :
    WellFormed ⟨requestId, status, []⟩ :=
  ⟨h.imp_right fun h => ⟨h, rfl⟩, (by decide : 0 < 2 ^ 32)⟩

/-- The cursor of `write_response_parts` when `written` bytes of a response were taken. -/
def cursor (r : WireResponse) (written : ℕ) : VectoredWriteCursor :=
  ⟨encodeResponseHeader r.requestId r.status r.payload.length, r.payload, written⟩

theorem left_cursor (r : WireResponse) (written : ℕ) :
    (r.cursor written).left = r.bytes.drop written := rfl

/-- The bytes taken in one round follow those taken before. -/
theorem take_add_taken (r : WireResponse) (written n : ℕ) :
    r.bytes.take (written + ((r.bytes.drop written).take n).length) =
      r.bytes.take written ++ (r.bytes.drop written).take n := by
  rw [List.take_add, List.append_cancel_left_eq, List.take_eq_take_iff, List.length_take]
  omega

theorem written_advance (r : WireResponse) {written : ℕ} (h : written < r.bytes.length) (n : ℕ) :
    ((r.cursor written).advance ((r.bytes.drop written).take n).length).written =
      written + ((r.bytes.drop written).take n).length := by
  have hle : ((r.bytes.drop written).take n).length ≤ r.bytes.length - written :=
    (List.length_take_le' ..).trans (List.length_drop ..).le
  have htotal : (r.cursor written).header.length + (r.cursor written).payload.length =
      r.bytes.length := List.length_append.symm
  rw [VectoredWriteCursor.advance, htotal]
  exact Nat.min_eq_left (Nat.add_le_of_le_sub' h.le hle)

theorem lt_length_of_cursor {r : WireResponse} {written : ℕ}
    (h : (r.cursor written).isEmpty = false) : written < r.bytes.length := by
  have hne : ¬(r.cursor written).left = [] := fun hnil =>
    Bool.false_ne_true (h.symm.trans (VectoredWriteCursor.isEmpty_iff.mpr hnil))
  rw [left_cursor, List.drop_eq_nil_iff] at hne
  exact Nat.lt_of_not_le hne

theorem bytes_ne_nil (r : WireResponse) : r.bytes ≠ [] := by
  intro h
  have hlen := congrArg List.length (List.append_eq_nil_iff.mp h).1
  rw [length_encodeResponseHeader] at hlen
  cases hlen

end WireResponse

/-- The bytes `sent` on a connection are the front of well-formed frames, with one frame at most for
each request `received`. -/
structure Frames (received : List InboundRequest) (sent : List UInt8)
    (frames : List WireResponse) : Prop where
  wellFormed : ∀ f ∈ frames, f.WellFormed
  front : sent <+: frames.flatMap WireResponse.bytes
  once : ∀ id : UInt64, (frames.map WireResponse.requestId).count id ≤
    (received.map fun r => r.request.requestId).count id

section Report

variable (transport : Transport) (effects : Effects) (request : Request)

theorem PrefetchRequest.wellFormed_process : (process effects request).WellFormed := by
  refine WireResponse.wellFormed_of_status ?_ _
  split
  · split
    · exact .inl rfl
    · exact .inr (.inl rfl)
    · exact .inr (.inr rfl)
  · exact .inr (.inr rfl)

theorem HealthCheckRequest.wellFormed_process : (process request).WellFormed := by
  refine WireResponse.wellFormed_of_status ?_ _
  split
  · exact .inl rfl
  · exact .inr (.inr rfl)

theorem ControlRequest.wellFormed_process : (process transport effects request).WellFormed := by
  refine WireResponse.wellFormed_of_status ?_ _
  split_ifs
  · exact .inr (.inr rfl)
  · split
    · split
      · exact .inl rfl
      · exact .inr (.inr rfl)
    · exact .inr (.inr rfl)

theorem ControlBatchRequest.wellFormed_process (checksums : List CheckSum) :
    (process transport effects request checksums).WellFormed := by
  refine WireResponse.wellFormed_of_status ?_ _
  split_ifs
  · exact .inr (.inr rfl)
  · split
    · split_ifs
      · split
        · exact .inl rfl
        · exact .inr (.inr rfl)
      · exact .inr (.inr rfl)
    · exact .inr (.inr rfl)

end Report

/-- An action answers the request `id`, at once only with a well-formed response. -/
structure ResponseAction.Answers (action : ResponseAction) (id : UInt64) : Prop where
  requestId : action.requestId = id
  wellFormed : ∀ response, action = .immediate response → response.WellFormed

theorem ResponseAction.Answers.immediate {response : WireResponse} (h : response.WellFormed) :
    Answers (.immediate response) response.requestId where
  requestId := rfl
  wellFormed _ heq := ResponseAction.immediate.inj heq ▸ h

theorem GetRequest.answers_action (request : Request) :
    (action request).Answers request.requestId := by
  unfold action
  split
  · exact ⟨rfl, fun _ heq => by cases heq⟩
  · exact ResponseAction.Answers.immediate (WireResponse.wellFormed_of_status (.inr (.inr rfl)) _)

/-- The action for a request answers this request. -/
theorem answers_processRequest {transport : Transport} {effects : Effects}
    {inbound : InboundRequest} {action : ResponseAction}
    (h : processRequest transport effects inbound = some action) :
    action.Answers inbound.request.requestId := by
  simp only [processRequest] at h
  split at h
  · exact Option.some.inj h ▸ GetRequest.answers_action _
  · exact Option.some.inj h ▸ .immediate (PrefetchRequest.wellFormed_process ..)
  · exact Option.some.inj h ▸ .immediate (HealthCheckRequest.wellFormed_process ..)
  · exact Option.some.inj h ▸ .immediate (ControlRequest.wellFormed_process ..)
  · exact Option.some.inj h ▸ .immediate (ControlRequest.wellFormed_process ..)
  · obtain ⟨checksums, -, rfl⟩ := Option.map_eq_some_iff.mp h
    exact .immediate (ControlBatchRequest.wellFormed_process ..)
  · obtain ⟨checksums, -, rfl⟩ := Option.map_eq_some_iff.mp h
    exact .immediate (ControlBatchRequest.wellFormed_process ..)

/-! ### The tasks of a connection -/

/-- Where the writer task writes a frame. -/
inductive WriterBranch
  | immediate
  /-- Inside `with_chunk`. -/
  | hit
  | miss
  /-- After an error of `with_chunk`. Before it, the socket has taken `cut` bytes of the hit. -/
  | error (cut : ℕ)

/-- The number of bytes of a hit that was given up. -/
def WriterBranch.cut : WriterBranch → ℕ
  | .error cut => cut
  | _ => 0

inductive WriterTask
  | recv
  /-- The socket has taken `written` bytes of the response. -/
  | writing (branch : WriterBranch) (response : WireResponse) (written : ℕ)
  | stopped

namespace WriterTask

/-- What the writer task does first for an action. The read of the database fails or not. -/
def start (db : StoredChunks) (readFails : Bool) : ResponseAction → WriterTask
  | .immediate response => .writing .immediate response 0
  | .getChunk requestId checksum =>
    if readFails then .writing (.error 0) ⟨requestId, statusError, []⟩ 0
    else
      match db.store.getChunk checksum with
      | some data => .writing .hit ⟨requestId, statusHit, data⟩ 0
      | none => .writing .miss ⟨requestId, statusMiss, []⟩ 0

/-- What an error of the socket leads to. In a hit it is the error of `with_chunk`. -/
def onWriteError (branch : WriterBranch) (response : WireResponse) (written : ℕ) : WriterTask :=
  match branch with
  | .hit => .writing (.error written) ⟨response.requestId, statusError, []⟩ 0
  | _ => .stopped

/-- The id of the response of which nothing was taken. There is none after a cut. -/
def owed : WriterTask → List UInt64
  | .writing branch response written =>
    if branch.cut = 0 ∧ written = 0 then [response.requestId] else []
  | _ => []

end WriterTask

/-- A connection with the tasks that handle its requests, the channel to the writer task, and the
bytes that the socket has taken. -/
structure Connection where
  db : StoredChunks
  tasks : List InboundRequest
  channel : List ResponseAction
  writer : WriterTask
  sent : List UInt8
  /-- All requests that were read. -/
  received : List InboundRequest
  /-- The frames of which the socket has taken a byte, in order. -/
  started : List WireResponse

namespace Connection

/-- A new connection. -/
def new (db : StoredChunks) : Connection := ⟨db, [], [], .recv, [], [], []⟩

/-- One round of the loop of `write_response_parts`. -/
def tryWrite (s : Connection) (branch : WriterBranch) (response : WireResponse) (written : ℕ) :
    TryWrite → Connection
  | .wrote n =>
    let cursor := response.cursor written
    let taken := cursor.fillIoSlices.flatten.take n
    if taken.length = 0 then
      { s with writer := .onWriteError branch response written }
    else
      { s with
        writer := .writing branch response (cursor.advance taken.length).written
        sent := s.sent ++ taken
        started := if written = 0 then s.started ++ [response] else s.started }
  | .wouldBlock => s
  | .failed => { s with writer := .onWriteError branch response written }

inductive Event
  | receive (inbound : InboundRequest)
  | process (inbound : InboundRequest) (effects : Effects)
  /-- Other users of the database change it. -/
  | database (db : StoredChunks)
  | recv (readFails : Bool)
  | tryWrite (answer : TryWrite)
  | finish

variable (transport : Transport)

/-- The steps of a connection. Requests are processed in any order. -/
inductive Step : Connection → Event → Connection → Prop
  | receive {s : Connection} {inbound : InboundRequest} :
      Step s (.receive inbound)
        { s with tasks := s.tasks ++ [inbound], received := s.received ++ [inbound] }
  | process {s : Connection} {front back : List InboundRequest} {inbound : InboundRequest}
      {effects : Effects} (h : s.tasks = front ++ inbound :: back) :
      Step s (.process inbound effects)
        { s with
          tasks := front ++ back
          channel := s.channel ++ (processRequest transport effects inbound).toList }
  | database {s : Connection} {db : StoredChunks} : Step s (.database db) { s with db := db }
  | recv {s : Connection} {action : ResponseAction} {rest : List ResponseAction}
      {readFails : Bool} (hw : s.writer = .recv) (h : s.channel = action :: rest) :
      Step s (.recv readFails) { s with channel := rest, writer := .start s.db readFails action }
  | tryWrite {s : Connection} {branch : WriterBranch} {response : WireResponse} {written : ℕ}
      {answer : TryWrite} (hw : s.writer = .writing branch response written)
      (h : (response.cursor written).isEmpty = false) :
      Step s (.tryWrite answer) (s.tryWrite branch response written answer)
  | finish {s : Connection} {branch : WriterBranch} {response : WireResponse} {written : ℕ}
      (hw : s.writer = .writing branch response written)
      (h : (response.cursor written).isEmpty = true) :
      Step s .finish { s with writer := .recv }

/-- The connections of a server, from any database. -/
def system : System Connection Event where
  init s := ∃ db, s = new db
  step := Step transport

/-- The socket takes nothing of a frame that reports the error of a hit of which it has taken a
part. -/
def CutsSilent (s : Connection) (event : Event) : Prop :=
  ∀ branch response written n, s.writer = .writing branch response written →
    event = .tryWrite (.wrote n) → n ≠ 0 → branch.cut = 0

/-! ### The frames of a stream -/

end Connection

/-- What the socket has taken when the writer task is where it is. -/
inductive WriterTask.Accounted : WriterTask → List UInt8 → List WireResponse → Prop
  | recv {started : List WireResponse} :
      Accounted .recv (started.flatMap WireResponse.bytes) started
  | fresh {branch : WriterBranch} {response : WireResponse} {started : List WireResponse}
      (hcut : branch.cut = 0) (h : response.WellFormed) :
      Accounted (.writing branch response 0) (started.flatMap WireResponse.bytes) started
  | begun {branch : WriterBranch} {response : WireResponse} {written : ℕ}
      {before : List WireResponse} (hcut : branch.cut = 0) (hpos : written ≠ 0) :
      Accounted (.writing branch response written)
        (before.flatMap WireResponse.bytes ++ response.bytes.take written) (before ++ [response])
  /-- The last frame will never be whole. -/
  | cut {branch : WriterBranch} {response : WireResponse} {sent : List UInt8}
      {started : List WireResponse} (hcut : branch.cut ≠ 0)
      (h : sent <+: started.flatMap WireResponse.bytes) :
      Accounted (.writing branch response 0) sent started
  | stopped {sent : List UInt8} {started : List WireResponse}
      (h : sent <+: started.flatMap WireResponse.bytes) : Accounted .stopped sent started

namespace WriterTask

variable {branch : WriterBranch} {response : WireResponse} {written : ℕ} {w : WriterTask}
  {sent : List UInt8} {started before : List WireResponse}

theorem begun_front : before.flatMap WireResponse.bytes ++ response.bytes.take written <+:
    (before ++ [response]).flatMap WireResponse.bytes := by
  rw [List.flatMap_append, List.flatMap_singleton]
  exact (List.prefix_append_right_inj _).mpr (List.take_prefix ..)

theorem Accounted.front (h : Accounted w sent started) :
    sent <+: started.flatMap WireResponse.bytes := by
  cases h with
  | recv | fresh => exact List.prefix_rfl
  | begun => exact begun_front
  | cut _ h | stopped h => exact h

/-- An error of the socket is accounted for: after it comes a frame that has not begun, or none. -/
theorem Accounted.onWriteError (h : Accounted (.writing branch response written) sent started) :
    Accounted (onWriteError branch response written) sent started := by
  have hstop := Accounted.stopped h.front
  cases branch with
  | hit =>
    have hreport := WireResponse.wellFormed_of_status (.inr (.inr rfl)) response.requestId
    by_cases hpos : written = 0
    · subst hpos
      cases h with
      | fresh => exact .fresh rfl hreport
      | begun _ hpos => exact absurd rfl hpos
      | cut hcut => exact absurd rfl hcut
    · exact .cut hpos h.front
  | immediate | miss | error => exact hstop

theorem Accounted.wellFormed (h : Accounted (.writing branch response 0) sent started)
    (hcut : branch.cut = 0) : response.WellFormed := by
  cases h with
  | fresh _ h => exact h
  | begun _ hpos => exact absurd rfl hpos
  | cut hne => exact absurd hcut hne

/-- Bytes of a frame that was not given up come after the bytes before them. -/
theorem Accounted.wrote (h : Accounted (.writing branch response written) sent started)
    (hcut : branch.cut = 0) {n : ℕ} (htaken : ((response.bytes.drop written).take n).length ≠ 0) :
    Accounted (.writing branch response (written + ((response.bytes.drop written).take n).length))
      (sent ++ (response.bytes.drop written).take n)
      (if written = 0 then started ++ [response] else started) := by
  have hbegun : ∀ before, Accounted
      (.writing branch response (written + ((response.bytes.drop written).take n).length))
      (before.flatMap WireResponse.bytes ++
        (response.bytes.take written ++ (response.bytes.drop written).take n))
      (before ++ [response]) := by
    intro before
    rw [← response.take_add_taken]
    exact .begun hcut (by omega)
  cases h with
  | fresh => exact hbegun started
  | begun _ hwritten =>
    rw [if_neg hwritten, List.append_assoc]
    exact hbegun _
  | cut hne => exact absurd hcut hne

theorem count_owed_onWriteError (id : UInt64) :
    (onWriteError branch response written).owed.count id ≤
      (WriterTask.writing branch response written).owed.count id := by
  cases branch with
  | hit =>
    refine le_of_eq (congrArg (List.count id) ?_)
    exact if_congr and_comm rfl rfl
  | immediate | miss | error => exact Nat.zero_le _

end WriterTask

namespace Connection

variable {transport : Transport} {s s' : Connection} {branch : WriterBranch}
  {response : WireResponse} {written : ℕ}

/-- The ids of the frames that may still begin. -/
def owed (s : Connection) : List UInt64 :=
  s.tasks.map (fun r => r.request.requestId) ++
    (s.channel.map ResponseAction.requestId ++ s.writer.owed)

/-- The frames are well formed and followed byte by byte, and with those that may still begin there
is one at most for each request. -/
structure Inv (s : Connection) : Prop where
  wellFormed : ∀ f ∈ s.started, f.WellFormed
  replies : ∀ response, .immediate response ∈ s.channel → response.WellFormed
  accounted : s.writer.Accounted s.sent s.started
  once : ∀ id, (s.started.map WireResponse.requestId).count id + s.owed.count id ≤
    (s.received.map fun r => r.request.requestId).count id

/-- The invariant after a step of the writer task on its frame. -/
theorem Inv.of_writer (h : s.Inv) {w : WriterTask} {sent : List UInt8} {started : List WireResponse}
    (hwf : ∀ f ∈ started, f.WellFormed) (hacc : w.Accounted sent started)
    (honce : ∀ id, (started.map WireResponse.requestId).count id + w.owed.count id ≤
      (s.started.map WireResponse.requestId).count id + s.writer.owed.count id) :
    Inv { s with writer := w, sent := sent, started := started } where
  wellFormed := hwf
  replies := h.replies
  accounted := hacc
  once id := by
    have hbefore := h.once id
    have hstep := honce id
    simp only [owed, List.count_append] at hbefore ⊢
    omega

/-- The socket takes bytes of a frame that was not given up. -/
theorem Inv.wrote (h : s.Inv) (hw : s.writer = .writing branch response written)
    (hcut : branch.cut = 0) {n : ℕ} (htaken : ((response.bytes.drop written).take n).length ≠ 0) :
    Inv { s with
      writer := .writing branch response (written + ((response.bytes.drop written).take n).length)
      sent := s.sent ++ (response.bytes.drop written).take n
      started := if written = 0 then s.started ++ [response] else s.started } := by
  have hacc := hw ▸ h.accounted
  have howed : (WriterTask.writing branch response
      (written + ((response.bytes.drop written).take n).length)).owed = [] :=
    if_neg fun h => absurd h.2 (by omega)
  refine h.of_writer ?_ (hacc.wrote hcut htaken) fun id => ?_
  · split_ifs with hzero
    · subst hzero
      exact List.forall_mem_append.mpr
        ⟨h.wellFormed, List.forall_mem_singleton.mpr (hacc.wellFormed hcut)⟩
    · exact h.wellFormed
  · rw [howed, hw, WriterTask.owed]
    split_ifs with hzero hfresh hfresh
    · rw [List.map_append, List.count_append]
      exact le_rfl
    · exact absurd ⟨hcut, hzero⟩ hfresh
    · exact absurd hfresh.2 hzero
    · exact le_rfl

theorem Inv.onWriteError (h : s.Inv) (hw : s.writer = .writing branch response written) :
    Inv { s with writer := .onWriteError branch response written } := by
  refine h.of_writer h.wellFormed (hw ▸ h.accounted).onWriteError fun id => ?_
  rw [hw]
  exact Nat.add_le_add_left (WriterTask.count_owed_onWriteError id) _

/-- One round of writing under the guard. -/
theorem Inv.tryWrite (h : s.Inv) (hw : s.writer = .writing branch response written)
    (hempty : (response.cursor written).isEmpty = false) {answer : TryWrite}
    (hok : s.CutsSilent (.tryWrite answer)) :
    (s.tryWrite branch response written answer).Inv := by
  cases answer with
  | wouldBlock => exact h
  | failed => exact h.onWriteError hw
  | wrote n =>
    have hlt := WireResponse.lt_length_of_cursor hempty
    simp only [Connection.tryWrite, VectoredWriteCursor.flatten_fillIoSlices,
      WireResponse.left_cursor]
    by_cases htaken : ((response.bytes.drop written).take n).length = 0
    · rw [if_pos htaken]
      exact h.onWriteError hw
    · rw [if_neg htaken, response.written_advance hlt]
      have hn : n ≠ 0 := by
        rintro rfl
        exact htaken rfl
      exact h.wrote hw (hok _ _ _ n hw rfl hn) htaken

/-- The writer task starts a well-formed frame for the request of an action. -/
theorem start_eq (db : StoredChunks) (readFails : Bool) {action : ResponseAction}
    (h : ∀ response, action = .immediate response → response.WellFormed) :
    ∃ branch response, WriterTask.start db readFails action = .writing branch response 0 ∧
      branch.cut = 0 ∧ response.requestId = action.requestId ∧ response.WellFormed := by
  cases action with
  | immediate response => exact ⟨.immediate, response, rfl, rfl, rfl, h response rfl⟩
  | getChunk requestId checksum =>
    have hreport : ∀ status, status = statusHit ∨ status = statusMiss ∨ status = statusError →
        WireResponse.WellFormed ⟨requestId, status, []⟩ := fun _ h =>
      WireResponse.wellFormed_of_status h requestId
    cases readFails with
    | true => exact ⟨.error 0, _, rfl, rfl, rfl, hreport _ (.inr (.inr rfl))⟩
    | false =>
      simp only [WriterTask.start, if_neg Bool.false_ne_true]
      cases hdata : db.store.getChunk checksum with
      | some data => exact ⟨.hit, _, rfl, rfl, rfl, .inl rfl, db.length_lt hdata⟩
      | none => exact ⟨.miss, _, rfl, rfl, rfl, hreport _ (.inr (.inl rfl))⟩

theorem Inv.process (h : s.Inv) {front back : List InboundRequest} {inbound : InboundRequest}
    (hin : s.tasks = front ++ inbound :: back) (effects : Effects) :
    Inv { s with
      tasks := front ++ back
      channel := s.channel ++ (processRequest transport effects inbound).toList } where
  wellFormed := h.wellFormed
  replies response hmem := by
    rcases List.mem_append.mp hmem with hmem | hmem
    · exact h.replies response hmem
    · exact (answers_processRequest (Option.mem_toList.mp hmem)).wellFormed response rfl
  accounted := h.accounted
  once id := by
    have honce := h.once id
    have hone : ((processRequest transport effects inbound).toList.map
        ResponseAction.requestId).count id ≤ [inbound.request.requestId].count id := by
      cases haction : processRequest transport effects inbound with
      | none => exact Nat.zero_le _
      | some action =>
        rw [← (answers_processRequest haction).requestId]
        exact le_rfl
    simp only [owed, hin, List.map_append, List.map_cons, List.count_append,
      List.count_cons, List.count_nil] at honce hone ⊢
    omega

theorem Inv.recv (h : s.Inv) {action : ResponseAction} {rest : List ResponseAction}
    (hw : s.writer = .recv) (hchannel : s.channel = action :: rest) (readFails : Bool) :
    Inv { s with channel := rest, writer := .start s.db readFails action } := by
  have haction : ∀ response, action = .immediate response → response.WellFormed := by
    rintro response rfl
    exact h.replies response (hchannel ▸ List.mem_cons_self)
  obtain ⟨branch, response, hstart, hcut, hid, hwf⟩ := start_eq s.db readFails haction
  have hacc := hw ▸ h.accounted
  refine ⟨h.wellFormed, fun r hr => h.replies r (hchannel ▸ List.mem_cons_of_mem _ hr), ?_,
    fun id => ?_⟩
  · rw [hstart]
    generalize s.sent = sent at hacc ⊢
    cases hacc with
    | recv => exact .fresh hcut hwf
  · have honce := h.once id
    have howed : (WriterTask.writing branch response 0).owed = [action.requestId] :=
      (if_pos ⟨hcut, rfl⟩).trans (congrArg (fun id => [id]) hid)
    simp only [owed, hw, hchannel, hstart, howed, List.map_cons, List.count_append,
      List.count_cons, List.count_nil] at honce ⊢
    omega

theorem Inv.finish (h : s.Inv) (hw : s.writer = .writing branch response written)
    (hempty : (response.cursor written).isEmpty = true) : Inv { s with writer := .recv } := by
  have hlen : response.bytes.length ≤ written :=
    List.drop_eq_nil_iff.mp (VectoredWriteCursor.isEmpty_iff.mp hempty)
  have hwritten : written ≠ 0 := by
    rintro rfl
    exact response.bytes_ne_nil (List.length_eq_zero_iff.mp (Nat.le_zero.mp hlen))
  have hacc := hw ▸ h.accounted
  refine h.of_writer h.wellFormed ?_ fun id => Nat.add_le_add_left (Nat.zero_le _) _
  generalize s.sent = sent at hacc ⊢
  generalize s.started = started at hacc ⊢
  cases hacc with
  | fresh | cut => exact absurd rfl hwritten
  | @begun _ _ _ before =>
    rw [List.take_of_length_le hlen, ← List.flatMap_singleton WireResponse.bytes,
      ← List.flatMap_append]
    exact .recv

/-- The step of the invariant. -/
theorem Inv.step (h : s.Inv) {event : Event} (hok : s.CutsSilent event)
    (hstep : Step transport s event s') : s'.Inv := by
  cases hstep with
  | receive =>
    refine ⟨h.wellFormed, h.replies, h.accounted, fun id => ?_⟩
    have honce := h.once id
    simp only [owed, List.map_append, List.count_append] at honce ⊢
    omega
  | process hin => exact h.process hin _
  | database => exact ⟨h.wellFormed, h.replies, h.accounted, h.once⟩
  | recv hw hchannel => exact h.recv hw hchannel _
  | tryWrite hw hempty => exact h.tryWrite hw hempty hok
  | finish hw hempty => exact h.finish hw hempty

theorem inv_new (db : StoredChunks) : (new db).Inv where
  wellFormed := List.forall_mem_nil _
  replies _ h := absurd h List.not_mem_nil
  accounted := (.recv : WriterTask.Accounted .recv (List.flatMap WireResponse.bytes []) [])
  once _ := le_rfl

/-- **Only reports of cut hits damage the stream.** In every run in which the socket takes nothing
of a frame that reports the error of a hit already begun, the bytes on the connection are the front
of whole, well-formed frames, one at most for each request received, and these are the frames that
were started. -/
theorem frames_started (h : (system transport).Reach CutsSilent s) :
    Frames s.received s.sent s.started := by
  have hinv : s.Inv := by
    refine System.Reach.invariant ?_ (fun _ _ _ hI hok hstep => hI.step hok hstep) h
    rintro _ ⟨db, rfl⟩
    exact inv_new db
  exact ⟨hinv.wellFormed, hinv.accounted.front,
    fun id => (Nat.le_add_right ..).trans (hinv.once id)⟩

/-! ### A hit that is cut -/

/-- A database with one chunk of one byte. -/
def oneByte : StoredChunks where
  store := zerosStore 1
  length_lt {cs data} h := by
    rw [Store.getChunk, zerosStore, Store.data_getOrPut] at h
    split_ifs at h with hcs
    · obtain rfl := Option.some.inj h
      exact (by decide : 1 < 2 ^ 32)
    · cases h

/-- A request for that chunk. -/
def getOneByte : InboundRequest :=
  ⟨{ Request.wholeChunk .getChunk .empty with requestId := 1 }, none⟩

/-- The frame that answers it. -/
def hitOneByte : WireResponse := ⟨1, statusHit, [0]⟩

/-- The report of an error for it. -/
def errorOneByte : WireResponse := ⟨1, statusError, []⟩

/-- The socket has taken the header of the frame. -/
def hitBegun : Connection :=
  { new oneByte with
    writer := .writing .hit hitOneByte 13
    sent := encodeResponseHeader 1 statusHit 1
    received := [getOneByte]
    started := [hitOneByte] }

/-- The socket has taken all of it, and the writer task waits for the next action. -/
def hitSent : Connection :=
  { hitBegun with writer := .recv, sent := hitOneByte.bytes }

/-- The socket has failed after the header, and then has taken a report. -/
def errorWithinHit : Connection :=
  { hitBegun with
    writer := .writing (.error 13) errorOneByte 13
    sent := encodeResponseHeader 1 statusHit 1 ++ encodeResponseHeader 1 statusError 0
    started := [hitOneByte, errorOneByte] }

theorem cutsSilent_recv {event : Event} (hw : s.writer = .recv) : s.CutsSilent event := by
  intro branch response written n hwriting
  rw [hw] at hwriting
  cases hwriting

theorem cutsSilent_hit {event : Event} (hw : s.writer = .writing .hit response written) :
    s.CutsSilent event := by
  intro branch response written n hwriting
  rw [hw] at hwriting
  cases hwriting
  exact fun _ _ => rfl

/-- A round of writing extends a run. -/
theorem reach_tryWrite {ok : Connection → Event → Prop} (h : (system transport).Reach ok s)
    (answer : TryWrite) (hw : s.writer = .writing branch response written)
    (hempty : (response.cursor written).isEmpty = false) (hok : ok s (.tryWrite answer))
    (heq : s.tryWrite branch response written answer = s') :
    (system transport).Reach ok s' :=
  heq ▸ h.step hok (.tryWrite hw hempty)

/-- The request is received, processed and taken by the writer task, and the header is written. -/
theorem reach_hitBegun : (system .tcp).Reach CutsSilent hitBegun := by
  have h₁ : (system .tcp).Reach CutsSilent
      { new oneByte with tasks := [getOneByte], received := [getOneByte] } :=
    .step (.init ⟨oneByte, rfl⟩) (cutsSilent_recv rfl) Step.receive
  have h₂ : (system .tcp).Reach CutsSilent
      { new oneByte with channel := [.getChunk 1 .empty], received := [getOneByte] } :=
    h₁.step (a := .process getOneByte ⟨.ok true, .ok ()⟩) (cutsSilent_recv rfl)
      (Step.process (show _ = [] ++ getOneByte :: [] from rfl))
  have hstart : WriterTask.start oneByte false (.getChunk 1 .empty) =
      .writing .hit hitOneByte 0 := by
    simp only [WriterTask.start, if_neg Bool.false_ne_true]
    rw [show oneByte.store.getChunk .empty = some [0] from getChunk_zerosStore 1]
    rfl
  have h₃ : (system .tcp).Reach CutsSilent
      { new oneByte with
        writer := .start oneByte false (.getChunk 1 .empty), received := [getOneByte] } :=
    h₂.step (a := .recv false) (cutsSilent_recv rfl) (Step.recv rfl rfl)
  rw [hstart] at h₃
  exact reach_tryWrite h₃ (.wrote 13) rfl rfl (cutsSilent_hit rfl) rfl

/-- The socket takes the byte of the chunk after it would have blocked. -/
theorem frames_started_hitSent : Frames hitSent.received hitSent.sent hitSent.started := by
  have h₁ := reach_tryWrite reach_hitBegun .wouldBlock rfl rfl (cutsSilent_hit rfl) rfl
  have h₂ : (system .tcp).Reach CutsSilent
      { hitBegun with writer := .writing .hit hitOneByte 14, sent := hitOneByte.bytes } :=
    reach_tryWrite h₁ (.wrote 1) rfl rfl (cutsSilent_hit rfl) rfl
  have h₃ : (system .tcp).Reach CutsSilent hitSent :=
    h₂.step (a := .finish) (cutsSilent_hit rfl) (Step.finish rfl rfl)
  exact frames_started h₃

/-- The field of a header tells a length that fits in it. -/
theorem payloadLen_eq_of_header {requestId requestId' : UInt64} {status status' : UInt8} {n m : ℕ}
    (hn : n < 2 ^ 32) (hm : m < 2 ^ 32)
    (h : encodeResponseHeader requestId status n = encodeResponseHeader requestId' status' m) :
    n = m := by
  have hfields := congrArg (fun header => ofBytes (header.drop 9)) h
  simp only [drop_encodeResponseHeader, ofBytes_toBytes, UInt32.toNat_ofNat_of_lt' hn,
    UInt32.toNat_ofNat_of_lt' hm] at hfields
  calc
    n = n % 256 ^ 4 := (Nat.mod_eq_of_lt hn).symm
    _ = m % 256 ^ 4 := hfields
    _ = m := Nat.mod_eq_of_lt hm

/-- The socket fails after the header of a hit, and then takes the report of the error. The bytes
on the connection are no front of well-formed frames, one for each request, whichever these are. -/
theorem error_within_hit : (system .tcp).Reachable errorWithinHit ∧
    ∀ frames, ¬Frames errorWithinHit.received errorWithinHit.sent frames := by
  constructor
  · have h₁ : (system .tcp).Reachable hitBegun := reach_hitBegun.mono fun _ _ _ => trivial
    have h₂ : (system .tcp).Reachable
        { hitBegun with writer := .writing (.error 13) errorOneByte 0 } :=
      reach_tryWrite h₁ .failed rfl rfl trivial rfl
    exact reach_tryWrite h₂ (.wrote 13) rfl rfl trivial rfl
  · rintro frames ⟨hwf, hfront, honce⟩
    have hlen := (List.subperm_iff_count.mpr honce).length_le
    rw [List.length_map] at hlen
    match frames with
    | [] => exact absurd (List.prefix_nil.mp hfront) (by decide)
    | [f] =>
      obtain ⟨rest, hrest⟩ := hfront
      rw [List.flatMap_singleton, WireResponse.bytes, errorWithinHit, List.append_assoc] at hrest
      obtain ⟨hheader, hpayload⟩ := List.append_inj hrest (by simp [length_encodeResponseHeader])
      have hone := payloadLen_eq_of_header (by decide) (hwf f List.mem_cons_self).2 hheader
      rw [← hpayload, List.length_append, length_encodeResponseHeader] at hone
      exact absurd hone (by rw [responseHeaderLen]; omega)
    | _ :: _ :: _ => exact absurd hlen (by simp [errorWithinHit, hitBegun])

end Connection

end DistillFs
