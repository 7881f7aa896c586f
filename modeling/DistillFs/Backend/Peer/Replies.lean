import DistillFs.Backend.Peer.ResponseStream

/-!
# What the frames of a connection say

A frame on a connection answers a request that was read from it, with the outcome of this request:
a hit carries what the database had under the checksum when the writer task read it, a miss tells
that it had nothing, and the other requests are answered by what the rest of the node did for them.
No frame is made up, and none is mixed up with that of another request, in whatever order requests
are processed.

A connection whose socket does not fail leaves no request behind either. When all requests are
processed and their actions written, there is one frame for each of them.

## Main definitions

* `Answers`: the frame of a request.
* `InboundRequest.Complete`: a batch comes with its checksums.

## Main results

* `Connection.frames_answer`: every frame is that of a request.
* `Connection.answered_once`: every request has its frame.
-/

namespace DistillFs

open Foundation

/-- The response with which the writer task answers a request, after effects of `E`, and a read of a
database of `D` if the request is one for a chunk. -/
inductive Answers (transport : Transport) (D : StoredChunks → Prop)
    (E : InboundRequest → Effects → Prop) (inbound : InboundRequest)
    (branch : WriterBranch) (response : WireResponse) : Prop
  | intro {effects : Effects} {action : ResponseAction} {db : StoredChunks} {readFails : Bool}
      (heffects : E inbound effects)
      (haction : processRequest transport effects inbound = some action) (hdb : D db)
      (hstart : WriterTask.start db readFails action = .writing branch response 0)

/-- A batch has its checksums. The reading loop passes on no other requests. -/
def InboundRequest.Complete (inbound : InboundRequest) : Prop :=
  inbound.request.messageType.isBatch = true → inbound.checksums.isSome

theorem InboundRequest.complete_of_readChecksums {request : Request} {bytes rest : List UInt8}
    {checksums : Option (List CheckSum)} (h : readChecksums request bytes = .ok (checksums, rest)) :
    Complete ⟨request, checksums⟩ := by
  intro hbatch
  unfold readChecksums at h
  split at h
  · obtain ⟨count, -, h⟩ := bind_eq_ok.mp h
    obtain ⟨⟨sums, bytes'⟩, -, h⟩ := bind_eq_ok.mp h
    exact (Prod.mk.inj (Except.ok.inj h)).1 ▸ rfl
  · obtain ⟨count, -, h⟩ := bind_eq_ok.mp h
    obtain ⟨⟨sums, bytes'⟩, -, h⟩ := bind_eq_ok.mp h
    exact (Prod.mk.inj (Except.ok.inj h)).1 ▸ rfl
  · rename_i hregister hunregister
    cases htype : request.messageType with
    | registerChunks => exact absurd htype hregister
    | unregisterChunks => exact absurd htype hunregister
    | _ =>
      rw [htype] at hbatch
      cases hbatch

/-- The task of a complete request sends an action. -/
theorem isSome_processRequest {inbound : InboundRequest} (h : inbound.Complete)
    (transport : Transport) (effects : Effects) :
    (processRequest transport effects inbound).isSome := by
  simp only [processRequest]
  split
  · rfl
  · rfl
  · rfl
  · rfl
  · rfl
  · rename_i htype
    rw [Option.isSome_map]
    exact h (by rw [htype]; rfl)
  · rename_i htype
    rw [Option.isSome_map]
    exact h (by rw [htype]; rfl)

/-- The writer task has given up no frame. -/
def WriterTask.Alive : WriterTask → Prop
  | .recv => True
  | .writing branch _ _ => branch.cut = 0
  | .stopped => False

namespace Answers

variable {transport : Transport} {D : StoredChunks → Prop} {E : InboundRequest → Effects → Prop}
  {inbound : InboundRequest} {branch : WriterBranch} {response : WireResponse}

theorem requestId (h : Answers transport D E inbound branch response) :
    response.requestId = inbound.request.requestId := by
  obtain ⟨-, haction, -, hstart⟩ := h
  have hanswers := answers_processRequest haction
  obtain ⟨branch', response', hstart', -, hid, -⟩ :=
    Connection.start_eq _ _ hanswers.wellFormed
  obtain ⟨-, rfl, -⟩ := WriterTask.writing.inj (hstart.symm.trans hstart')
  exact hid.trans hanswers.requestId

theorem wellFormed (h : Answers transport D E inbound branch response) : response.WellFormed := by
  obtain ⟨-, haction, -, hstart⟩ := h
  obtain ⟨branch', response', hstart', -, -, hwf⟩ :=
    Connection.start_eq _ _ (answers_processRequest haction).wellFormed
  obtain ⟨-, rfl, -⟩ := WriterTask.writing.inj (hstart.symm.trans hstart')
  exact hwf

/-- A hit that fails is followed by a frame that answers the same request. -/
theorem report (h : Answers transport D E inbound .hit response) :
    Answers transport D E inbound (.error 0) ⟨response.requestId, statusError, []⟩ := by
  obtain ⟨heffects, haction, hdb, hstart⟩ := h
  rename_i effects action db readFails
  cases action with
  | immediate r => cases hstart
  | getChunk requestId checksum =>
    refine .intro heffects haction hdb (?_ : WriterTask.start db true _ = _)
    have hid : response.requestId = requestId := by
      cases readFails with
      | true => cases hstart
      | false =>
        simp only [WriterTask.start, if_neg Bool.false_ne_true] at hstart
        split at hstart
        · exact (WriterTask.writing.inj hstart).2.1 ▸ rfl
        · cases hstart
    rw [hid]
    rfl

/-- What a request for a chunk is answered with. -/
theorem getChunk (h : Answers transport D E inbound branch response)
    (htype : inbound.request.messageType = .getChunk) :
    (response.status = statusHit →
      ∃ db, D db ∧ db.store.getChunk inbound.request.checksum = some response.payload) ∧
    (response.status = statusMiss →
      ∃ db, D db ∧ db.store.getChunk inbound.request.checksum = none) := by
  have hne : statusError ≠ statusHit ∧ statusError ≠ statusMiss ∧ statusHit ≠ statusMiss := by
    decide
  obtain ⟨heffects, haction, hdb, hstart⟩ := h
  rename_i effects action db readFails
  rw [processRequest, htype] at haction
  obtain rfl := Option.some.inj haction
  unfold GetRequest.action at hstart
  split at hstart
  · cases readFails with
    | true =>
      obtain ⟨-, rfl, -⟩ := WriterTask.writing.inj hstart
      exact ⟨fun h => absurd h hne.1, fun h => absurd h hne.2.1⟩
    | false =>
      simp only [WriterTask.start, if_neg Bool.false_ne_true] at hstart
      split at hstart
      · rename_i data hdata
        obtain ⟨-, rfl, -⟩ := WriterTask.writing.inj hstart
        exact ⟨fun _ => ⟨db, hdb, hdata⟩, fun h => absurd h hne.2.2⟩
      · rename_i hnone
        obtain ⟨-, rfl, -⟩ := WriterTask.writing.inj hstart
        exact ⟨fun h => absurd h.symm hne.2.2, fun _ => ⟨db, hdb, hnone⟩⟩
  · obtain ⟨-, rfl, -⟩ := WriterTask.writing.inj hstart
    exact ⟨fun h => absurd h hne.1, fun h => absurd h hne.2.1⟩

end Answers

namespace Connection

variable {transport : Transport} {D : StoredChunks → Prop} {E : InboundRequest → Effects → Prop}
  {s s' : Connection}
  {branch : WriterBranch} {response : WireResponse} {written : ℕ}

/-! ### Every frame is that of a request -/

/-- The database is one of `D`. -/
def StoredIn (D : StoredChunks → Prop) (s : Connection) (_ : Event) : Prop := D s.db

/-- Actions and frames are those of requests that were received. -/
structure ReplyInv (transport : Transport) (D : StoredChunks → Prop)
    (E : InboundRequest → Effects → Prop) (s : Connection) : Prop where
  tasks : ∀ inbound ∈ s.tasks, inbound ∈ s.received
  channel : ∀ action ∈ s.channel, ∃ inbound ∈ s.received, ∃ effects,
    E inbound effects ∧ processRequest transport effects inbound = some action
  writer : ∀ branch response written, s.writer = .writing branch response written →
    ∃ inbound ∈ s.received, ∃ branch', (branch = .hit → branch' = .hit) ∧
      Answers transport D E inbound branch' response
  started : ∀ response ∈ s.started, ∃ inbound ∈ s.received, ∃ branch,
    Answers transport D E inbound branch response

theorem ReplyInv.onWriteError (h : s.ReplyInv transport D E)
    (hw : s.writer = .writing branch response written) :
    ReplyInv transport D E { s with writer := .onWriteError branch response written } := by
  refine ⟨h.tasks, h.channel, fun branch₂ response₂ written₂ hwriting => ?_, h.started⟩
  obtain ⟨inbound, hin, branch', hhit, hanswers⟩ := h.writer _ _ _ hw
  cases branch with
  | hit =>
    obtain ⟨rfl, rfl, -⟩ := WriterTask.writing.inj hwriting
    rw [hhit rfl] at hanswers
    exact ⟨inbound, hin, _, nofun, hanswers.report⟩
  | immediate | miss | error => cases hwriting

theorem ReplyInv.tryWrite (h : s.ReplyInv transport D E)
    (hw : s.writer = .writing branch response written) (answer : TryWrite) :
    (s.tryWrite branch response written answer).ReplyInv transport D E := by
  cases answer with
  | wouldBlock => exact h
  | failed => exact h.onWriteError hw
  | wrote n =>
    obtain ⟨inbound, hin, branch', hhit, hanswers⟩ := h.writer _ _ _ hw
    have hwriter : ∀ n branch₂ response₂ written₂,
        WriterTask.writing branch response n = .writing branch₂ response₂ written₂ →
        ∃ inbound ∈ s.received, ∃ branch', (branch₂ = .hit → branch' = .hit) ∧
          Answers transport D E inbound branch' response₂ := by
      intro n branch₂ response₂ written₂ hwriting
      obtain ⟨rfl, rfl, -⟩ := WriterTask.writing.inj hwriting
      exact ⟨inbound, hin, branch', hhit, hanswers⟩
    simp only [Connection.tryWrite]
    split_ifs
    · exact h.onWriteError hw
    · refine ⟨h.tasks, h.channel, hwriter _, List.forall_mem_append.mpr ⟨h.started, ?_⟩⟩
      exact List.forall_mem_singleton.mpr ⟨inbound, hin, branch', hanswers⟩
    · exact ⟨h.tasks, h.channel, hwriter _, h.started⟩

theorem ReplyInv.step (h : s.ReplyInv transport D E) {event : Event} (hdb : D s.db)
    (heffects : ∀ inbound effects, event = .process inbound effects → E inbound effects)
    (hstep : Step transport s event s') : s'.ReplyInv transport D E := by
  cases hstep with
  | receive =>
    have hgrow {P : InboundRequest → Prop} {received : List InboundRequest}
        (inbound : InboundRequest) (hex : ∃ r ∈ received, P r) : ∃ r ∈ received ++ [inbound], P r :=
      hex.imp fun r hr => ⟨List.mem_append_left _ hr.1, hr.2⟩
    refine ⟨fun r hr => ?_, fun action haction => hgrow _ (h.channel action haction),
      fun branch r n hw => hgrow _ (h.writer branch r n hw), fun r hr => hgrow _ (h.started r hr)⟩
    exact List.mem_append.mpr ((List.mem_append.mp hr).imp_left (h.tasks r))
  | @process front back inbound effects hin =>
    refine ⟨fun r hr => h.tasks r ?_, fun action haction => ?_, h.writer, h.started⟩
    · rw [hin]
      exact (List.mem_append.mp hr).elim (List.mem_append_left _)
        fun hr => List.mem_append_right _ (List.mem_cons_of_mem _ hr)
    · rcases List.mem_append.mp haction with haction | haction
      · exact h.channel action haction
      · refine ⟨inbound, h.tasks inbound ?_, effects, heffects _ _ rfl,
          Option.mem_toList.mp haction⟩
        rw [hin]
        exact List.mem_append_right _ List.mem_cons_self
  | database => exact ⟨h.tasks, h.channel, h.writer, h.started⟩
  | @recv action rest readFails hw hchannel =>
    refine ⟨h.tasks, fun a ha => h.channel a (hchannel ▸ List.mem_cons_of_mem _ ha),
      fun branch r n hstart => ?_, h.started⟩
    obtain ⟨inbound, hin, effects, heffects, haction⟩ :=
      h.channel action (hchannel ▸ List.mem_cons_self)
    obtain ⟨branch', r', hstart', -⟩ :=
      start_eq s.db readFails (answers_processRequest haction).wellFormed
    obtain ⟨rfl, rfl, -⟩ := WriterTask.writing.inj (hstart'.symm.trans hstart)
    exact ⟨inbound, hin, branch', id, .intro heffects haction hdb hstart'⟩
  | tryWrite hw _ => exact h.tryWrite hw _
  | finish => exact ⟨h.tasks, h.channel, nofun, h.started⟩

theorem replyInv_new (db : StoredChunks) : (new db).ReplyInv transport D E :=
  ⟨List.forall_mem_nil _, List.forall_mem_nil _, nofun, List.forall_mem_nil _⟩

/-- **Every frame is that of a request.** In every run in which the database is always one of `D`,
whatever the socket does: a frame on the connection has the id of a request that was received from
it, and if that is a request for a chunk, a hit carries the bytes that a database of `D` has under
its checksum, and after a miss there is a database of `D` that has none. -/
theorem frames_answer (h : (system transport).Reach (StoredIn D) s) :
    ∀ response ∈ s.started, ∃ inbound ∈ s.received,
      response.requestId = inbound.request.requestId ∧
      (inbound.request.messageType = .getChunk →
        (response.status = statusHit →
          ∃ db, D db ∧ db.store.getChunk inbound.request.checksum = some response.payload) ∧
        (response.status = statusMiss →
          ∃ db, D db ∧ db.store.getChunk inbound.request.checksum = none)) := by
  have hinv : s.ReplyInv transport D fun _ _ => True := by
    refine System.Reach.invariant ?_
      (fun _ _ _ hI hok hstep => hI.step hok (fun _ _ _ => trivial) hstep) h
    rintro _ ⟨db, rfl⟩
    exact replyInv_new db
  intro response hmem
  obtain ⟨inbound, hin, branch, hanswers⟩ := hinv.started response hmem
  exact ⟨inbound, hin, hanswers.requestId, hanswers.getChunk⟩

/-- A step that is not the read of a request begins a frame at most. -/
theorem Step.frame {event : Event} (h : Step transport s event s')
    (hevent : ∀ inbound, event ≠ .receive inbound) :
    s'.received = s.received ∧ s.started <+: s'.started := by
  cases h with
  | receive => exact absurd rfl (hevent _)
  | @tryWrite branch response written answer =>
    cases answer with
    | wouldBlock | failed => exact ⟨rfl, List.prefix_rfl⟩
    | wrote n =>
      simp only [Connection.tryWrite]
      split_ifs
      · exact ⟨rfl, List.prefix_rfl⟩
      · exact ⟨rfl, List.prefix_append ..⟩
      · exact ⟨rfl, List.prefix_rfl⟩
  | _ => exact ⟨rfl, List.prefix_rfl⟩

/-! ### A request that is answered -/

/-- The run in which the request for a chunk of one byte is answered, if the guard allows it. -/
theorem reach_hitSent {ok : Connection → Event → Prop}
    (hok : ∀ s event, s.db = oneByte →
      (∀ inbound, event = .receive inbound → inbound = getOneByte) →
      (∀ branch response n, s.writer = .writing branch response n → branch = .hit) → ok s event) :
    (system .tcp).Reach ok hitSent := by
  have h₁ : (system .tcp).Reach ok
      { new oneByte with tasks := [getOneByte], received := [getOneByte] } :=
    .step (.init ⟨oneByte, rfl⟩) (hok _ _ rfl (fun _ h => (Event.receive.inj h).symm)
      (fun _ _ _ h => (by cases h)))
      Step.receive
  have h₂ : (system .tcp).Reach ok
      { new oneByte with channel := [.getChunk 1 .empty], received := [getOneByte] } :=
    h₁.step (a := .process getOneByte ⟨.ok true, .ok ()⟩) (hok _ _ rfl (fun _ h => (by cases h))
      (fun _ _ _ h => (by cases h)))
      (Step.process (show _ = [] ++ getOneByte :: [] from rfl))
  have hstart : WriterTask.start oneByte false (.getChunk 1 .empty) =
      .writing .hit hitOneByte 0 := by
    simp only [WriterTask.start, if_neg Bool.false_ne_true]
    rw [show oneByte.store.getChunk .empty = some [0] from getChunk_zerosStore 1]
    rfl
  have h₃ : (system .tcp).Reach ok
      { new oneByte with
        writer := .start oneByte false (.getChunk 1 .empty), received := [getOneByte] } :=
    h₂.step (a := .recv false) (hok _ _ rfl (fun _ h => (by cases h))
      (fun _ _ _ h => (by cases h))) (Step.recv rfl rfl)
  rw [hstart] at h₃
  have hhit {s : Connection} {n : ℕ} (hw : s.writer = .writing .hit hitOneByte n)
      (branch : WriterBranch) (response : WireResponse) (m : ℕ)
      (h : s.writer = .writing branch response m) : branch = .hit :=
    (WriterTask.writing.inj (h.symm.trans hw)).1
  have h₄ : (system .tcp).Reach ok hitBegun :=
    reach_tryWrite h₃ (.wrote 13) rfl rfl (hok _ _ rfl (fun _ h => (by cases h)) (hhit rfl)) rfl
  have h₅ : (system .tcp).Reach ok
      { hitBegun with writer := .writing .hit hitOneByte 14, sent := hitOneByte.bytes } :=
    reach_tryWrite h₄ (.wrote 1) rfl rfl (hok _ _ rfl (fun _ h => (by cases h)) (hhit rfl)) rfl
  exact h₅.step (a := .finish) (hok _ _ rfl (fun _ h => (by cases h)) (hhit rfl))
    (Step.finish rfl rfl)

theorem frames_answer_hitSent : ∃ inbound ∈ hitSent.received,
    hitOneByte.requestId = inbound.request.requestId ∧
    oneByte.store.getChunk inbound.request.checksum = some hitOneByte.payload := by
  have h : (system .tcp).Reach (StoredIn (· = oneByte)) hitSent :=
    reach_hitSent fun _ _ hdb _ _ => hdb
  obtain ⟨inbound, hin, hid, hget⟩ := frames_answer h hitOneByte List.mem_cons_self
  obtain rfl : inbound = getOneByte := List.mem_singleton.mp hin
  obtain ⟨db, rfl, hstored⟩ := (hget rfl).1 rfl
  exact ⟨getOneByte, hin, hid, hstored⟩

/-! ### Every request has its frame -/

/-- The guard of a connection that reads complete requests and damages nothing. -/
structure Orderly (s : Connection) (event : Event) : Prop where
  cutsSilent : s.CutsSilent event
  complete : ∀ inbound, event = .receive inbound → inbound.Complete

/-- As long as no frame was given up, there is a frame for each request, begun or owed. -/
structure OnceInv (s : Connection) : Prop where
  inv : s.Inv
  complete : ∀ inbound ∈ s.tasks, inbound.Complete
  exact : s.writer.Alive → ∀ id, (s.started.map WireResponse.requestId).count id +
    s.owed.count id = (s.received.map fun r => r.request.requestId).count id

/-- The invariant after a step of the writer task on its frame. -/
theorem OnceInv.of_writer (h : s.OnceInv) {w : WriterTask} {sent : List UInt8}
    {started : List WireResponse}
    (hinv : Inv { s with writer := w, sent := sent, started := started })
    (hexact : w.Alive → s.writer.Alive ∧ ∀ id,
      (started.map WireResponse.requestId).count id + w.owed.count id =
        (s.started.map WireResponse.requestId).count id + s.writer.owed.count id) :
    OnceInv { s with writer := w, sent := sent, started := started } where
  inv := hinv
  complete := h.complete
  exact halive id := by
    obtain ⟨hbefore, hsame⟩ := hexact halive
    have hcount := h.exact hbefore id
    have hid := hsame id
    simp only [owed, List.count_append] at hcount ⊢
    omega

theorem OnceInv.onWriteError (h : s.OnceInv) (hw : s.writer = .writing branch response written) :
    OnceInv { s with writer := .onWriteError branch response written } := by
  refine h.of_writer (h.inv.onWriteError hw) fun halive => ?_
  cases branch with
  | hit =>
    obtain rfl : written = 0 := halive
    exact ⟨hw ▸ rfl, fun id => by rw [hw]; rfl⟩
  | immediate | miss | error => exact absurd halive id

theorem OnceInv.tryWrite (h : s.OnceInv) (hw : s.writer = .writing branch response written)
    (hempty : (response.cursor written).isEmpty = false) {answer : TryWrite}
    (hok : s.CutsSilent (.tryWrite answer)) :
    (s.tryWrite branch response written answer).OnceInv := by
  have hinv := h.inv.tryWrite hw hempty hok
  cases answer with
  | wouldBlock => exact h
  | failed => exact h.onWriteError hw
  | wrote n =>
    have hlt := WireResponse.lt_length_of_cursor hempty
    simp only [Connection.tryWrite, VectoredWriteCursor.flatten_fillIoSlices,
      WireResponse.left_cursor] at hinv ⊢
    by_cases htaken : ((response.bytes.drop written).take n).length = 0
    · rw [if_pos htaken]
      exact h.onWriteError hw
    · rw [if_neg htaken, response.written_advance hlt] at hinv ⊢
      have hn : n ≠ 0 := by
        rintro rfl
        exact htaken rfl
      have hcut : branch.cut = 0 := hok _ _ _ n hw rfl hn
      have howed : (WriterTask.writing branch response
          (written + ((response.bytes.drop written).take n).length)).owed = [] :=
        if_neg fun h => absurd h.2 (by omega)
      refine h.of_writer hinv fun _ => ⟨hw ▸ hcut, fun id => ?_⟩
      rw [howed, hw, WriterTask.owed]
      by_cases hzero : written = 0
      · rw [if_pos hzero, if_pos ⟨hcut, hzero⟩, List.map_append, List.count_append]
        rfl
      · rw [if_neg hzero, if_neg fun h => hzero h.2]

theorem OnceInv.process (h : s.OnceInv) {front back : List InboundRequest}
    {inbound : InboundRequest} (hin : s.tasks = front ++ inbound :: back) (effects : Effects) :
    OnceInv { s with
      tasks := front ++ back
      channel := s.channel ++ (processRequest transport effects inbound).toList } where
  inv := h.inv.process hin effects
  complete r hr := by
    refine h.complete r ?_
    rw [hin]
    exact (List.mem_append.mp hr).elim (List.mem_append_left _)
      fun hr => List.mem_append_right _ (List.mem_cons_of_mem _ hr)
  exact halive id := by
    have hcount := h.exact halive id
    have hcomplete : inbound.Complete := by
      refine h.complete inbound ?_
      rw [hin]
      exact List.mem_append_right _ List.mem_cons_self
    obtain ⟨action, haction⟩ :=
      Option.isSome_iff_exists.mp (isSome_processRequest hcomplete transport effects)
    have hid := (answers_processRequest haction).requestId
    simp only [owed, hin, haction, Option.toList_some, List.map_append, List.map_cons, List.map_nil,
      List.count_append, List.count_cons, List.count_nil, hid] at hcount ⊢
    omega

theorem OnceInv.recv (h : s.OnceInv) {action : ResponseAction} {rest : List ResponseAction}
    (hw : s.writer = .recv) (hchannel : s.channel = action :: rest) (readFails : Bool) :
    OnceInv { s with channel := rest, writer := .start s.db readFails action } where
  inv := h.inv.recv hw hchannel readFails
  complete := h.complete
  exact _ id := by
    have hcount := h.exact (hw ▸ trivial) id
    have haction : ∀ response, action = .immediate response → response.WellFormed := by
      rintro response rfl
      exact h.inv.replies response (hchannel ▸ List.mem_cons_self)
    obtain ⟨branch, response, hstart, hcut, hid, -⟩ := start_eq s.db readFails haction
    have howed : (WriterTask.writing branch response 0).owed = [action.requestId] :=
      (if_pos ⟨hcut, rfl⟩).trans (congrArg (fun id => [id]) hid)
    have hnone : WriterTask.recv.owed = [] := rfl
    simp only [owed, hw, hchannel, hstart, howed, hnone, List.map_cons, List.count_append,
      List.count_cons, List.count_nil] at hcount ⊢
    omega

theorem OnceInv.finish (h : s.OnceInv) (hw : s.writer = .writing branch response written)
    (hempty : (response.cursor written).isEmpty = true) : OnceInv { s with writer := .recv } := by
  have hwritten : written ≠ 0 := by
    rintro rfl
    exact response.bytes_ne_nil (VectoredWriteCursor.isEmpty_iff.mp hempty)
  refine h.of_writer (h.inv.finish hw hempty) fun _ => ?_
  have hacc := hw ▸ h.inv.accounted
  generalize s.sent = sent at hacc
  generalize s.started = started at hacc ⊢
  cases hacc with
  | fresh | cut => exact absurd rfl hwritten
  | begun hcut =>
    refine ⟨hw ▸ hcut, fun id => ?_⟩
    rw [hw, WriterTask.owed, if_neg fun h => hwritten h.2]
    rfl

theorem OnceInv.step (h : s.OnceInv) {event : Event} (hok : s.Orderly event)
    (hstep : Step transport s event s') : s'.OnceInv := by
  have hinv := h.inv.step hok.cutsSilent hstep
  cases hstep with
  | receive =>
    refine ⟨hinv, List.forall_mem_append.mpr
      ⟨h.complete, List.forall_mem_singleton.mpr (hok.complete _ rfl)⟩, fun halive id => ?_⟩
    have hcount := h.exact halive id
    simp only [owed, List.map_append, List.count_append] at hcount ⊢
    omega
  | process hin => exact h.process hin _
  | database => exact ⟨hinv, h.complete, h.exact⟩
  | recv hw hchannel => exact h.recv hw hchannel _
  | tryWrite hw hempty => exact h.tryWrite hw hempty hok.cutsSilent
  | finish hw hempty => exact h.finish hw hempty

/-- **Every request has its frame.** In every run in which the socket takes nothing of a frame that
reports the error of a hit already begun: when all requests are processed, all actions are taken and
the writer task waits for the next one, which is how `handle` ends without an error, the bytes on
the connection are whole frames, and there is exactly one for each request received. -/
theorem answered_once (h : (system transport).Reach Orderly s) (htasks : s.tasks = [])
    (hchannel : s.channel = []) (hw : s.writer = .recv) :
    s.sent = s.started.flatMap WireResponse.bytes ∧
      (s.started.map WireResponse.requestId).Perm
        (s.received.map fun r => r.request.requestId) := by
  have hinv : s.OnceInv := by
    refine System.Reach.invariant ?_ (fun _ _ _ hI hok hstep => hI.step hok hstep) h
    rintro _ ⟨db, rfl⟩
    exact ⟨inv_new db, List.forall_mem_nil _, fun _ _ => rfl⟩
  refine ⟨?_, List.perm_iff_count.mpr fun id => ?_⟩
  · have hacc := hw ▸ hinv.inv.accounted
    generalize s.sent = sent at hacc ⊢
    cases hacc with
    | recv => rfl
  · have hcount := hinv.exact (hw ▸ trivial) id
    rw [owed, htasks, hchannel, hw] at hcount
    exact hcount

theorem answered_once_hitSent : hitSent.sent = hitSent.started.flatMap WireResponse.bytes ∧
    (hitSent.started.map WireResponse.requestId).Perm
      (hitSent.received.map fun r => r.request.requestId) := by
  have h : (system .tcp).Reach Orderly hitSent := reach_hitSent fun s event _ hreceive hhit =>
    ⟨fun branch _ _ _ hw _ _ => hhit branch _ _ hw ▸ rfl, fun inbound heq => by
      rw [hreceive inbound heq]
      nofun⟩
  exact answered_once h rfl rfl rfl

end Connection

end DistillFs
