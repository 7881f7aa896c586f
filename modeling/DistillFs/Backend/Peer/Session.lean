import DistillFs.Backend.Peer.Wire
import DistillFs.Foundation.Transition

/-!
# Multiplexed sessions

Many calls share one connection to a peer. A call takes a fresh request id, leaves the sending end
of a channel in the map `pending` under it, writes its request under the writer lock, and waits on
its channel, both for a limited time. A reader task takes the responses of the peer one by one and
hands each to the call registered under its id; a response nobody waits for, or a read that fails,
closes the session. `close` sets the flag, takes the map, and sends an error to every call in it.

A call is a thread of the program `sessionProgram`, and the reader and the peer are its
environment. The peer sends whatever responses it likes. Each lock of the map, each access to an
atomic and each use of a channel is a step of its own.

## Main definitions

* `MultiplexedSession`: the state the calls share, with the reader and the responses of the peer.
* `ClosePc`, `CloseStep`: the program of `close`.
* `CallPc`, `CallStep`: the program of a call.
* `ReaderStep`: the reader and the peer.
* `Effect`: what a step of a call does to the map, the channels, and what the call holds of them.
-/

namespace DistillFs

open Foundation

/-- The error of a call on a closed session. -/
def sessionClosed : IoError := ⟨.brokenPipe, "session is closed"⟩

/-- The error of a call whose sender was dropped. -/
def channelClosed : IoError := ⟨.brokenPipe, "response channel closed"⟩

def timeoutError (op : String) : IoError := ⟨.timedOut, op ++ " timed out"⟩

/-- The error with which the reader closes on a response that nobody waits for. -/
def unknownResponse (r : WireResponse) : IoError :=
  ⟨.invalidData, "unknown response request_id=" ++ toString r.requestId⟩

/-- The one-shot channel of a call. -/
inductive Channel
  /-- The sender may still send. -/
  | waiting
  | sent (result : Except IoError WireResponse)
  /-- The sender was dropped without sending. -/
  | dropped

/-- A run of `close`, with the senders it took and has not used. -/
inductive ClosePc (τ : Type*)
  | swap (err : IoError)
  | drain (err : IoError)
  | sending (err : IoError) (todo : UInt64 → Option τ)
  | done

/-- The senders a run of `close` has taken and not used. -/
def ClosePc.todo {τ : Type*} : ClosePc τ → UInt64 → Option τ
  | .sending _ todo => todo
  | _ => fun _ => none

/-- The reader task. -/
inductive ReaderPc (τ : Type*)
  | reading
  /-- It has read a response. -/
  | routing (response : WireResponse)
  /-- It has taken the sender of a call out of the map. -/
  | sending (call : τ) (response : WireResponse)
  /-- It runs `close`, and stops when that is done. -/
  | closing (pc : ClosePc τ)

/-- A session, its reader, and the responses of the peer. A call stands for the sender of its
channel. -/
structure MultiplexedSession (τ : Type*) where
  /-- The lock of the writing half. -/
  writer : Option τ
  pending : UInt64 → Option τ
  /-- The counter of requests. An id is its value in 64 bits. -/
  nextRequestId : ℕ
  closed : Bool
  inflight : ℕ
  channel : τ → Channel
  reader : ReaderPc τ
  /-- All responses the peer has sent, in order. -/
  responses : List WireResponse
  /-- The number of responses the reader has routed. -/
  routed : ℕ

/-- The program of a call to `send_request_with_payload`, or of a task that closes the session. -/
inductive CallPc (τ : Type*)
  | idle
  | called
  /-- It has seen the session open. -/
  | checked
  | allocated (id : UInt64)
  | inserted (id : UInt64)
  /-- It is counted and waits for the writer lock. -/
  | counted (id : UInt64)
  | writing (id : UInt64)
  | writeFailed (id : UInt64) (err : IoError)
  | removed (id : UInt64) (err : IoError)
  | waiting (id : UInt64)
  | received (id : UInt64) (result : Except IoError WireResponse)
  | expired (id : UInt64)
  /-- It is not counted any more and its entry is still in the map. -/
  | expiredUncounted (id : UInt64)
  | closing (id : UInt64) (err : IoError) (pc : ClosePc τ)
  | returned (id : UInt64) (result : Except IoError WireResponse)
  /-- The call was refused before it allocated an id. -/
  | refused (err : IoError)
  /-- A task that runs `close`. -/
  | shutdown (pc : ClosePc τ)

namespace MultiplexedSession

variable {τ : Type*} [DecidableEq τ]

/-- The channels after a sender, if there is one, is dropped. -/
def dropSender (channel : τ → Channel) : Option τ → τ → Channel
  | none => channel
  | some t => Function.update channel t .dropped

variable (s : MultiplexedSession τ)

/-- The call `t` leaves its sender under `id`. -/
def insertPending (id : UInt64) (t : τ) : MultiplexedSession τ :=
  { s with
    pending := Function.update s.pending id (some t)
    channel := dropSender s.channel (s.pending id) }

/-- The entry of `id` is removed and its sender dropped. -/
def removePending (id : UInt64) : MultiplexedSession τ :=
  { s with
    pending := Function.update s.pending id none
    channel := dropSender s.channel (s.pending id) }

/-- A result is sent to the call `t`. -/
def send (t : τ) (result : Except IoError WireResponse) : MultiplexedSession τ :=
  { s with channel := Function.update s.channel t (.sent result) }

@[simp] theorem pending_insertPending (id : UInt64) (t : τ) :
    (s.insertPending id t).pending = Function.update s.pending id (some t) := rfl

@[simp] theorem channel_insertPending (id : UInt64) (t : τ) :
    (s.insertPending id t).channel = dropSender s.channel (s.pending id) := rfl

@[simp] theorem pending_removePending (id : UInt64) :
    (s.removePending id).pending = Function.update s.pending id none := rfl

@[simp] theorem channel_removePending (id : UInt64) :
    (s.removePending id).channel = dropSender s.channel (s.pending id) := rfl

@[simp] theorem pending_send (t : τ) (result : Except IoError WireResponse) :
    (s.send t result).pending = s.pending := rfl

@[simp] theorem channel_send (t : τ) (result : Except IoError WireResponse) :
    (s.send t result).channel = Function.update s.channel t (.sent result) := rfl

/-- A channel is dropped or stays as it is. -/
theorem dropSender_cases (channel : τ → Channel) (o : Option τ) (u : τ) :
    dropSender channel o u = channel u ∨ (o = some u ∧ dropSender channel o u = .dropped) := by
  cases o with
  | none => exact Or.inl rfl
  | some t =>
    by_cases hu : u = t
    · subst hu
      exact Or.inr ⟨rfl, Function.update_self ..⟩
    · exact Or.inl (Function.update_of_ne hu ..)

/-- The session `new` makes. -/
def new (τ : Type*) : MultiplexedSession τ where
  writer := none
  pending _ := none
  nextRequestId := 1
  closed := false
  inflight := 0
  channel _ := .waiting
  reader := .reading
  responses := []
  routed := 0

end MultiplexedSession

section Steps

variable {τ : Type*} [DecidableEq τ]

/-- The steps of `close`. -/
inductive CloseStep : MultiplexedSession τ → ClosePc τ → MultiplexedSession τ → ClosePc τ → Prop
  | already {s : MultiplexedSession τ} {err : IoError} (h : s.closed = true) :
      CloseStep s (.swap err) s .done
  | swap {s : MultiplexedSession τ} {err : IoError} (h : s.closed = false) :
      CloseStep s (.swap err) { s with closed := true } (.drain err)
  | drain {s : MultiplexedSession τ} {err : IoError} :
      CloseStep s (.drain err) { s with pending := fun _ => none } (.sending err s.pending)
  | send {s : MultiplexedSession τ} {err : IoError} {todo : UInt64 → Option τ} (id : UInt64) {t : τ}
      (h : todo id = some t) : CloseStep s (.sending err todo) (s.send t (.error err))
        (.sending err (Function.update todo id none))
  | finish {s : MultiplexedSession τ} {err : IoError} {todo : UInt64 → Option τ}
      (h : ∀ id, todo id = none) : CloseStep s (.sending err todo) s .done

/-- The steps of a call. How long the writer takes, and whether it fails, is not determined. -/
inductive CallStep (t : τ) :
    MultiplexedSession τ → CallPc τ → MultiplexedSession τ → CallPc τ → Prop
  | call {s : MultiplexedSession τ} : CallStep t s .idle s .called
  | refuse {s : MultiplexedSession τ} (h : s.closed = true) :
      CallStep t s .called s (.refused sessionClosed)
  | check {s : MultiplexedSession τ} (h : s.closed = false) : CallStep t s .called s .checked
  | allocate {s : MultiplexedSession τ} :
      CallStep t s .checked { s with nextRequestId := s.nextRequestId + 1 }
        (.allocated (UInt64.ofNat s.nextRequestId))
  | insert {s : MultiplexedSession τ} {id : UInt64} :
      CallStep t s (.allocated id) (s.insertPending id t) (.inserted id)
  | count {s : MultiplexedSession τ} {id : UInt64} :
      CallStep t s (.inserted id) { s with inflight := s.inflight + 1 } (.counted id)
  | lockWriter {s : MultiplexedSession τ} {id : UInt64} (h : s.writer = none) :
      CallStep t s (.counted id) { s with writer := some t } (.writing id)
  | writeOk {s : MultiplexedSession τ} {id : UInt64} :
      CallStep t s (.writing id) { s with writer := none } (.waiting id)
  | writeError {s : MultiplexedSession τ} {id : UInt64} (err : IoError) :
      CallStep t s (.writing id) { s with writer := none } (.writeFailed id err)
  | writeTimeout {s : MultiplexedSession τ} {id : UInt64} :
      CallStep t s (.writing id) { s with writer := none }
        (.writeFailed id (timeoutError "request write"))
  | removeFailed {s : MultiplexedSession τ} {id : UInt64} {err : IoError} :
      CallStep t s (.writeFailed id err) (s.removePending id) (.removed id err)
  | uncountFailed {s : MultiplexedSession τ} {id : UInt64} {err : IoError} :
      CallStep t s (.removed id err) { s with inflight := s.inflight - 1 }
        (.closing id err (.swap err))
  | receive {s : MultiplexedSession τ} {id : UInt64} {result : Except IoError WireResponse}
      (h : s.channel t = .sent result) : CallStep t s (.waiting id) s (.received id result)
  | receiveDropped {s : MultiplexedSession τ} {id : UInt64} (h : s.channel t = .dropped) :
      CallStep t s (.waiting id) s (.received id (.error channelClosed))
  | uncount {s : MultiplexedSession τ} {id : UInt64} {result : Except IoError WireResponse} :
      CallStep t s (.received id result) { s with inflight := s.inflight - 1 }
        (.returned id result)
  | timeout {s : MultiplexedSession τ} {id : UInt64} : CallStep t s (.waiting id) s (.expired id)
  | uncountExpired {s : MultiplexedSession τ} {id : UInt64} :
      CallStep t s (.expired id) { s with inflight := s.inflight - 1 } (.expiredUncounted id)
  | removeExpired {s : MultiplexedSession τ} {id : UInt64} :
      CallStep t s (.expiredUncounted id) (s.removePending id)
        (.closing id (timeoutError "response read") (.swap (timeoutError "response read")))
  | close {s s' : MultiplexedSession τ} {id : UInt64} {err : IoError} {pc pc' : ClosePc τ}
      (h : CloseStep s pc s' pc') : CallStep t s (.closing id err pc) s' (.closing id err pc')
  | giveUp {s : MultiplexedSession τ} {id : UInt64} {err : IoError} :
      CallStep t s (.closing id err .done) s (.returned id (.error err))
  | startShutdown {s : MultiplexedSession τ} (err : IoError) :
      CallStep t s .idle s (.shutdown (.swap err))
  | shutdown {s s' : MultiplexedSession τ} {pc pc' : ClosePc τ} (h : CloseStep s pc s' pc') :
      CallStep t s (.shutdown pc) s' (.shutdown pc')

/-- The steps of the reader, and of the peer. -/
inductive ReaderStep : MultiplexedSession τ → MultiplexedSession τ → Prop
  | respond {s : MultiplexedSession τ} (r : WireResponse) :
      ReaderStep s { s with responses := s.responses ++ [r] }
  | read {s : MultiplexedSession τ} {r : WireResponse} (h : s.reader = .reading)
      (hr : s.responses[s.routed]? = some r) : ReaderStep s { s with reader := .routing r }
  | readError {s : MultiplexedSession τ} (err : IoError) (h : s.reader = .reading) :
      ReaderStep s { s with reader := .closing (.swap err) }
  | route {s : MultiplexedSession τ} {r : WireResponse} {t : τ} (h : s.reader = .routing r)
      (ht : s.pending r.requestId = some t) :
      ReaderStep s { s with
        pending := Function.update s.pending r.requestId none
        reader := .sending t r
        routed := s.routed + 1 }
  | unknown {s : MultiplexedSession τ} {r : WireResponse} (h : s.reader = .routing r)
      (ht : s.pending r.requestId = none) :
      ReaderStep s { s with reader := .closing (.swap (unknownResponse r)) }
  | send {s : MultiplexedSession τ} {r : WireResponse} {t : τ} (h : s.reader = .sending t r) :
      ReaderStep s { s.send t (.ok r) with reader := .reading }
  | close {s s' : MultiplexedSession τ} {pc pc' : ClosePc τ} (h : s.reader = .closing pc)
      (hstep : CloseStep s pc s' pc') : ReaderStep s { s' with reader := .closing pc' }

/-- A session with any number of calls. -/
def sessionProgram (τ : Type*) [DecidableEq τ] :
    Program τ Unit (MultiplexedSession τ) (CallPc τ) where
  init c := c.shared = .new τ ∧ ∀ t, c.loc t = .idle
  step := CallStep
  env _ := ReaderStep

end Steps

/-! ### What a task holds -/

section Tasks

variable {τ : Type*}

/-- It has set the flag and not taken the map. -/
def ClosePc.draining : ClosePc τ → Bool
  | .drain _ => true
  | _ => false

/-- The senders the reader's `close` has taken and not used. -/
def ReaderPc.todo : ReaderPc τ → UInt64 → Option τ
  | .closing pc => pc.todo
  | _ => fun _ => none

def ReaderPc.draining : ReaderPc τ → Bool
  | .closing pc => pc.draining
  | _ => false

namespace CallPc

/-- The id a call has registered itself under, now or earlier. -/
def entered : CallPc τ → Option UInt64
  | .inserted id | .counted id | .writing id | .writeFailed id _ | .removed id _ | .waiting id
  | .received id _ | .expired id | .expiredUncounted id | .closing id _ _ | .returned id _ =>
      some id
  | _ => none

/-- The id a call has allocated. -/
def requestId : CallPc τ → Option UInt64
  | .allocated id => some id
  | pc => pc.entered

/-- The id under which a call may still be in the map: it is registered, and has neither been
answered nor removed its entry. -/
def holds : CallPc τ → Option UInt64
  | .inserted id | .counted id | .writing id | .writeFailed id _ | .waiting id | .expired id
  | .expiredUncounted id => some id
  | _ => none

/-- The senders the `close` of a call has taken and not used. -/
def todo : CallPc τ → UInt64 → Option τ
  | .closing _ _ pc | .shutdown pc => pc.todo
  | _ => fun _ => none

def draining : CallPc τ → Bool
  | .closing _ _ pc | .shutdown pc => pc.draining
  | _ => false

/-- The id and the response of a call that was answered. -/
def answer : CallPc τ → Option (UInt64 × WireResponse)
  | .received id (.ok r) | .returned id (.ok r) => some (id, r)
  | _ => none

/-- The call is counted in `inflight`. -/
def isCounted : CallPc τ → Bool
  | .counted _ | .writing _ | .writeFailed _ _ | .removed _ _ | .waiting _ | .received _ _
  | .expired _ => true
  | _ => false

/-- `send_request_with_payload` was called and has not returned. -/
def inProgress : CallPc τ → Bool
  | .idle | .returned _ _ | .refused _ | .shutdown _ => false
  | _ => true

theorem inProgress_of_isCounted {pc : CallPc τ} (h : pc.isCounted = true) :
    pc.inProgress = true := by
  cases pc <;> first | rfl | cases h

theorem inProgress_of_holds {pc : CallPc τ} {id : UInt64} (h : pc.holds = some id) :
    pc.inProgress = true := by
  cases pc <;> first | rfl | cases h

theorem requestId_of_entered {pc : CallPc τ} {id : UInt64} (h : pc.entered = some id) :
    pc.requestId = some id := by
  cases pc <;> first | exact h | cases h

theorem entered_of_holds {pc : CallPc τ} {id : UInt64} (h : pc.holds = some id) :
    pc.entered = some id := by
  cases pc <;> first | exact h | cases h

end CallPc

/-- A task has the sender of the call `u`, taken out of the map from under `id`. -/
inductive MultiplexedSession.Taken (c : Config τ (MultiplexedSession τ) (CallPc τ)) (id : UInt64)
    (u : τ) : Prop
  | call (t : τ) (h : (c.loc t).todo id = some u)
  | reader (h : c.shared.reader.todo id = some u)
  | sending (r : WireResponse) (h : c.shared.reader = .sending u r) (hr : r.requestId = id)

/-- What a step of `close` does to the session, to the senders its task holds, and to whether the
task is about to take the map. -/
inductive CloseEffect (s s' : MultiplexedSession τ) (todo todo' : UInt64 → Option τ)
    (draining draining' : Bool) [DecidableEq τ] : Prop
  | keep (hpending : s'.pending = s.pending) (hchannel : s'.channel = s.channel)
      (hclosed : s'.closed = s.closed) (htodo : todo' = todo) (hdraining : draining' = draining)
  | swap (hs : s' = { s with closed := true }) (hopen : s.closed = false) (htodo : todo' = todo)
      (hdraining : draining' = true)
  | drain (hs : s' = { s with pending := fun _ => none }) (hdraining : draining = true)
      (htodo : todo = fun _ => none) (htodo' : todo' = s.pending) (hdraining' : draining' = false)
  | send (id : UInt64) (u : τ) (err : IoError) (hs : s' = s.send u (.error err))
      (hu : todo id = some u) (htodo : todo' = Function.update todo id none)
      (hdraining : draining' = draining)

variable [DecidableEq τ]

theorem CloseStep.effect {s s' : MultiplexedSession τ} {pc pc' : ClosePc τ}
    (h : CloseStep s pc s' pc') :
    CloseEffect s s' pc.todo pc'.todo pc.draining pc'.draining := by
  cases h with
  | already => exact .keep rfl rfl rfl rfl rfl
  | swap hopen => exact .swap rfl hopen rfl rfl
  | drain => exact .drain rfl rfl rfl rfl rfl
  | send _ hu => exact .send _ _ _ rfl hu rfl rfl
  | finish hnone => exact .keep rfl rfl rfl (funext fun id => (hnone id).symm) rfl

/-- What a step of a call does to the map and the channels, and to what the call holds of them. -/
inductive Effect (t : τ) (s s' : MultiplexedSession τ) (pc pc' : CallPc τ) : Prop
  | close (hholds : pc'.holds = pc.holds)
      (h : CloseEffect s s' pc.todo pc'.todo pc.draining pc'.draining)
  | insert (id : UInt64) (hpc : pc = .allocated id) (hpc' : pc' = .inserted id)
      (hs : s' = s.insertPending id t)
  | remove (id : UInt64) (hholds : pc.holds = some id) (hs : s' = s.removePending id)
      (hholds' : pc'.holds = none) (htodo : pc'.todo = pc.todo)
      (hdraining : pc'.draining = pc.draining)
  | receive (id : UInt64) (hpc : pc = .waiting id) (hchannel : s.channel t ≠ .waiting)
      (hs : s' = s) (hholds' : pc'.holds = none) (htodo : pc'.todo = pc.todo)
      (hdraining : pc'.draining = pc.draining)

theorem CallStep.effect {t : τ} {s s' : MultiplexedSession τ} {pc pc' : CallPc τ}
    (h : CallStep t s pc s' pc') : Effect t s s' pc pc' := by
  cases h with
  | insert => exact .insert _ rfl rfl rfl
  | removeFailed | removeExpired => exact .remove _ rfl rfl rfl rfl rfl
  | receive h | receiveDropped h => exact .receive _ rfl (by simp [h]) rfl rfl rfl rfl
  | close h | shutdown h => exact .close rfl h.effect
  | _ => exact .close rfl (.keep rfl rfl rfl rfl rfl)

theorem CloseStep.reader {s s' : MultiplexedSession τ} {pc pc' : ClosePc τ}
    (h : CloseStep s pc s' pc') : s'.reader = s.reader ∧ s'.responses = s.responses ∧
      s'.routed = s.routed ∧ s'.nextRequestId = s.nextRequestId ∧ s'.inflight = s.inflight := by
  cases h <;> exact ⟨rfl, rfl, rfl, rfl, rfl⟩

/-- A step of a call leaves the reader and the responses alone. -/
theorem CallStep.reader {t : τ} {s s' : MultiplexedSession τ} {pc pc' : CallPc τ}
    (h : CallStep t s pc s' pc') :
    s'.reader = s.reader ∧ s'.responses = s.responses ∧ s'.routed = s.routed := by
  cases h with
  | close h | shutdown h => exact ⟨h.reader.1, h.reader.2.1, h.reader.2.2.1⟩
  | _ => exact ⟨rfl, rfl, rfl⟩

end Tasks

/-! ### Runs of two calls -/

section Runs

variable {ok : Config Bool (MultiplexedSession Bool) (CallPc Bool) → Bool ⊕ Unit → Prop}
  {s s' : MultiplexedSession Bool} {a b a' b' : CallPc Bool}

theorem session_start
    (ok : Config Bool (MultiplexedSession Bool) (CallPc Bool) → Bool ⊕ Unit → Prop) :
    (sessionProgram Bool).toSystem.Reach ok ⟨.new Bool, fun t => cond t .idle .idle⟩ :=
  .init ⟨rfl, fun t => by cases t <;> rfl⟩

theorem session_fst (hc : (sessionProgram Bool).toSystem.Reach ok ⟨s, fun t => cond t a b⟩)
    (hok : ok ⟨s, fun t => cond t a b⟩ (.inl true)) (h : CallStep true s a s' a') :
    (sessionProgram Bool).toSystem.Reach ok ⟨s', fun t => cond t a' b⟩ :=
  Program.Reach.fst hc hok h

theorem session_snd (hc : (sessionProgram Bool).toSystem.Reach ok ⟨s, fun t => cond t a b⟩)
    (hok : ok ⟨s, fun t => cond t a b⟩ (.inl false)) (h : CallStep false s b s' b') :
    (sessionProgram Bool).toSystem.Reach ok ⟨s', fun t => cond t a b'⟩ :=
  Program.Reach.snd hc hok h

theorem session_reader {loc : Bool → CallPc Bool}
    (hc : (sessionProgram Bool).toSystem.Reach ok ⟨s, loc⟩) (hok : ok ⟨s, loc⟩ (.inr ()))
    (h : ReaderStep s s') : (sessionProgram Bool).toSystem.Reach ok ⟨s', loc⟩ :=
  Program.Reach.env hc hok h

end Runs

end DistillFs
