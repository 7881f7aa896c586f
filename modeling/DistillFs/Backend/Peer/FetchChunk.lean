import DistillFs.Backend.Peer.Candidates
import DistillFs.Backend.Peer.HitHints
import DistillFs.Backend.Peer.Exchange
import DistillFs.Foundation.Conservation

/-!
# Fetching a chunk from peers

A call asks its candidates one after the other until one has the chunk. What each of them answers
goes into the health of the peers, a hit also into the hints, and how the call ends into the
metrics. All calls of a node share these, each record is one access under a lock, and the background
task of the hints runs beside the calls.

The network is a relation: what a peer may answer to a query for a chunk.

## Main definitions

* `queryPeer`: what a query makes of the answer of a session.
* `FetchPc`, `FetchStep`, `fetchProgram`: any number of calls.
* `FetchReport`: what a call has done when it returns.
* `SessionAnswers`, `answeredBy`: the answers that the session of a peer can give.

## Main results

* `fetch_reported`: what a call returns, whom it has asked, and what it has recorded.
* `peers_accounted`: the health and the hints of a peer are made of the records of all calls.
* `fetched_stored`: what a call returns is what some peer has stored for the chunk.
-/

namespace DistillFs

open Foundation

/-- What a peer answers to a query: the chunk, that it has none, or an error. -/
abbrev PeerAnswer : Type := Except IoError (Option (List UInt8))

/-- `query_peer`. A session is got in time, or not at all, or there is an error; the answer is that
of the session. -/
def queryPeer (acquired : Option (Except IoError Unit)) (response : Except IoError WireResponse) :
    PeerAnswer :=
  match acquired with
  | none => .error (timeoutError "peer connect")
  | some (.error e) => .error e
  | some (.ok ()) =>
    match response with
    | .error e => .error e
    | .ok r =>
      if r.status = statusHit then .ok (some r.payload)
      else if r.status = statusMiss then .ok none
      else .error ⟨.other, "peer returned error"⟩

inductive QueryResult
  | hit
  | miss
  | timeout
  | error
  deriving DecidableEq, Repr

/-- The name of a result in the metrics. -/
def QueryResult.text : QueryResult → String
  | hit => "hit"
  | miss => "miss"
  | timeout => "timeout"
  | error => "error"

def PeerAnswer.result : PeerAnswer → QueryResult
  | .ok (some _) => .hit
  | .ok none => .miss
  | .error e => if e.kind = .timedOut then .timeout else .error

/-- What the metrics of a call count. -/
inductive FetchMetric
  | retry (source : CandidateSource)
  | query (result : QueryResult)
  | fetch (source : CandidateSource) (result : QueryResult)
  deriving DecidableEq

/-- The flags of a call. -/
structure SawAnswers where
  miss : Bool
  timeout : Bool
  error : Bool

def SawAnswers.none : SawAnswers := ⟨false, false, false⟩

def SawAnswers.failed (seen : SawAnswers) (e : IoError) : SawAnswers :=
  if e.kind = .timedOut then { seen with timeout := true } else { seen with error := true }

/-- The result of a call without a hit. -/
def SawAnswers.result (seen : SawAnswers) : QueryResult :=
  if seen.miss then .miss else if seen.timeout then .timeout else if seen.error then .error
  else .miss

/-- What the calls share. Each record is kept with the call that made it. -/
structure FetchShared (τ α F : Type*) where
  health : PeerHealthTracker α F
  hitHints : PeerHitHints α
  /-- The outcomes that were recorded. -/
  records : List (τ × PeerRecord α F)
  /-- The hits that were recorded, and the collections. -/
  hints : List (Option τ × HintEvent α)
  metrics : List (τ × FetchMetric)

namespace FetchShared

variable {τ α F : Type*} [DecidableEq α] [Add F] [Mul F] [Div F] [NatCast F]
  (s : FetchShared τ α F)

def new : FetchShared τ α F := ⟨.new, fun _ => none, [], [], []⟩

/-- Record the outcome of a query. -/
def record (t : τ) (r : PeerRecord α F) : FetchShared τ α F :=
  { s with health := s.health.record r, records := s.records ++ [(t, r)] }

/-- Record a hit, or collect the old ones. -/
def hint (t : Option τ) (e : HintEvent α) : FetchShared τ α F :=
  { s with hitHints := s.hitHints.apply e, hints := s.hints ++ [(t, e)] }

def count (t : τ) (m : FetchMetric) : FetchShared τ α F :=
  { s with metrics := s.metrics ++ [(t, m)] }

end FetchShared

/-- Where a call stands. It carries what it read when it chose its candidates, those that it has not
asked yet, and the answers of the others. -/
inductive FetchPc (α F : Type*)
  | idle
  | querying (call : CandidateCall α F) (rest : List α) (asked : List (α × PeerAnswer))
    (seen : SawAnswers)
  | waiting (call : CandidateCall α F) (peer : α) (rest : List α) (asked : List (α × PeerAnswer))
    (seen : SawAnswers)
  | answered (call : CandidateCall α F) (peer : α) (answer : PeerAnswer) (rest : List α)
    (asked : List (α × PeerAnswer)) (seen : SawAnswers)
  /-- A hit went into the health of the peer, and goes into the hints. -/
  | hinting (call : CandidateCall α F) (peer : α) (data : List UInt8)
    (asked : List (α × PeerAnswer))
  | counting (call : CandidateCall α F) (asked : List (α × PeerAnswer)) (result : QueryResult)
    (res : Option (List UInt8))
  | returned (call : CandidateCall α F) (asked : List (α × PeerAnswer))
    (res : Option (List UInt8))

section Steps

variable {τ α F : Type*} [DecidableEq α] [LinearOrder F] [Add F] [Mul F] [Div F] [NatCast F]
  (client : PeerClient α) (network : α → CheckSum → PeerAnswer → Prop) (checksum : τ → CheckSum)

/-- The steps of the call `t`. -/
inductive FetchStep (t : τ) :
    FetchShared τ α F → FetchPc α F → FetchShared τ α F → FetchPc α F → Prop
  | candidates {s} (call : CandidateCall α F) :
      FetchStep t s .idle s (.querying call (client.candidatePeers call).1 [] .none)
  | attempt {s call peer rest asked seen} :
      FetchStep t s (.querying call (peer :: rest) asked seen)
        (if (client.candidatePeers call).2 = .index ∧ asked ≠ [] then
          s.count t (.retry (client.candidatePeers call).2) else s)
        (.waiting call peer rest asked seen)
  | answer {s call peer rest asked seen} (answer : PeerAnswer)
      (h : network peer (checksum t) answer) :
      FetchStep t s (.waiting call peer rest asked seen)
        (s.count t (.query answer.result)) (.answered call peer answer rest asked seen)
  | hit {s call peer data rest asked seen} (rttMs : F) (now : ℕ) :
      FetchStep t s (.answered call peer (.ok (some data)) rest asked seen)
        (s.record t ⟨peer, .success rttMs, now⟩) (.hinting call peer data asked)
  | hint {s call peer data asked} (now : ℕ) :
      FetchStep t s (.hinting call peer data asked)
        (s.hint (some t) (.hit peer (checksum t) now))
        (.counting call (asked ++ [(peer, .ok (some data))]) .hit (some data))
  | miss {s call peer rest asked seen} (now : ℕ) :
      FetchStep t s (.answered call peer (.ok none) rest asked seen)
        (s.record t ⟨peer, .miss, now⟩)
        (.querying call rest (asked ++ [(peer, .ok none)]) { seen with miss := true })
  | failure {s call peer e rest asked seen} (now : ℕ) :
      FetchStep t s (.answered call peer (.error e) rest asked seen)
        (s.record t ⟨peer, .failure, now⟩)
        (.querying call rest (asked ++ [(peer, .error e)]) (seen.failed e))
  | exhausted {s call asked seen} :
      FetchStep t s (.querying call [] asked seen) s (.counting call asked seen.result none)
  | count {s call asked result res} :
      FetchStep t s (.counting call asked result res)
        (s.count t (.fetch (client.candidatePeers call).2 result)) (.returned call asked res)

/-- The calls of a node and the background task of its hints. -/
def fetchProgram : Program τ ℕ (FetchShared τ α F) (FetchPc α F) where
  init c := c.shared = .new ∧ ∀ t, c.loc t = .idle
  step := FetchStep client network checksum
  env now s s' := s' = s.hint none (.gc now)

end Steps

/-! ### The counters of a peer -/

namespace PeerHealth

variable {α F : Type*} [Add F] [Mul F] [Div F] [NatCast F]

theorem totalRequests_after (own : List (PeerRecord α F)) :
    (after own).totalRequests = own.length := by
  induction own using List.reverseRecOn with
  | nil => rfl
  | append_singleton own r ih =>
    rw [after_concat, record, List.length_append, ← ih]
    cases r.outcome <;> rfl

theorem totalHits_after (own : List (PeerRecord α F)) :
    (after own).totalHits = own.countP fun r => r.outcome.isSuccess := by
  induction own using List.reverseRecOn with
  | nil => rfl
  | append_singleton own r ih =>
    rw [after_concat, record, List.countP_append, List.countP_singleton, ← ih]
    cases r.outcome <;> rfl

end PeerHealth

/-! ### What a call has recorded -/

/-- The kinds of outcomes that the health of a peer tells apart. -/
inductive QueryKind
  | hit
  | miss
  | failure
  deriving DecidableEq

def PeerAnswer.kind : PeerAnswer → QueryKind
  | .ok (some _) => .hit
  | .ok none => .miss
  | .error _ => .failure

def PeerOutcome.kind {F : Type*} : PeerOutcome F → QueryKind
  | success _ => .hit
  | miss => .miss
  | failure => .failure

/-- The entries of one owner in a log. -/
def ownEntries {κ β : Type*} [DecidableEq κ] (k : κ) (log : List (κ × β)) : List β :=
  (log.filter fun e => e.1 = k).map Prod.snd

section OwnEntries

variable {κ β : Type*} [DecidableEq κ] {k k' : κ} (log : List (κ × β)) (b : β)

theorem ownEntries_concat_self : ownEntries k (log ++ [(k, b)]) = ownEntries k log ++ [b] := by
  simp [ownEntries]

theorem ownEntries_concat_ne (h : k' ≠ k) : ownEntries k (log ++ [(k', b)]) = ownEntries k log := by
  simp [ownEntries, h]

end OwnEntries

/-- The flags of a call after some answers. -/
def SawAnswers.of {α : Type*} (asked : List (α × PeerAnswer)) : SawAnswers where
  miss := asked.any fun q => q.2.result = .miss
  timeout := asked.any fun q => q.2.result = .timeout
  error := asked.any fun q => q.2.result = .error

/-- What the metrics count for the queries of a call. -/
def queryMetrics {α : Type*} (source : CandidateSource) (asked : List (α × PeerAnswer)) :
    List FetchMetric :=
  asked.zipIdx.flatMap fun q =>
    (if source = .index ∧ q.2 ≠ 0 then [.retry source] else []) ++ [.query q.1.2.result]

theorem queryMetrics_concat {α : Type*} (source : CandidateSource)
    (asked : List (α × PeerAnswer)) (q : α × PeerAnswer) :
    queryMetrics source (asked ++ [q]) = queryMetrics source asked ++
      (if source = .index ∧ asked ≠ [] then [.retry source] else []) ++ [.query q.2.result] := by
  have hne : asked.length ≠ 0 ↔ asked ≠ [] := List.length_eq_zero_iff.not
  simp only [queryMetrics, List.zipIdx_append, List.flatMap_append, List.zipIdx_singleton,
    List.flatMap_singleton, Nat.zero_add, hne, List.append_assoc]

section Report

variable {τ α F : Type*} [DecidableEq τ] [DecidableEq α] [LinearOrder F] [Add F] [Mul F] [Div F]
  [NatCast F] (client : PeerClient α) (network : α → CheckSum → PeerAnswer → Prop)
  (checksum : τ → CheckSum)

/-- The logs of a call: the outcomes of its queries, its hit, and its metrics. -/
structure Logged (t : τ) (s : FetchShared τ α F) (asked : List (α × PeerAnswer))
    (hints : List (HintEvent α)) (metrics : List FetchMetric) : Prop where
  records : ((ownEntries t s.records).map fun r => (r.addr, r.outcome.kind)) =
    asked.map fun q => (q.1, q.2.kind)
  hints : ownEntries (some t) s.hints = hints
  metrics : ownEntries t s.metrics = metrics

/-- What is true of the answers of a call that had no hit so far. -/
structure Asking (t : τ) (call : CandidateCall α F) (rest : List α)
    (asked : List (α × PeerAnswer)) : Prop where
  candidates : (client.candidatePeers call).1 = asked.map Prod.fst ++ rest
  answers : ∀ q ∈ asked, network q.1 (checksum t) q.2
  noHit : ∀ q ∈ asked, q.2.result ≠ .hit

/-- The answers of a call that ends with `res`. With a hit, it is the first one, and its peer was
asked last; without one, all candidates were asked. -/
structure Concluded (t : τ) (call : CandidateCall α F) (asked : List (α × PeerAnswer))
    (res : Option (List UInt8)) : Prop where
  candidates : asked.map Prod.fst <+: (client.candidatePeers call).1
  answers : ∀ q ∈ asked, network q.1 (checksum t) q.2
  hit : ∀ data, res = some data → ∃ front peer, asked = front ++ [(peer, .ok (some data))] ∧
    ∀ q ∈ front, q.2.result ≠ .hit
  noHit : res = none → asked.map Prod.fst = (client.candidatePeers call).1 ∧
    ∀ q ∈ asked, q.2.result ≠ .hit

/-- The result that a call counts. -/
def resultOf (asked : List (α × PeerAnswer)) (res : Option (List UInt8)) : QueryResult :=
  if res.isSome then .hit else (SawAnswers.of asked).result

/-- The hits that a call with these answers puts into the hints. -/
def hintsOf (cs : CheckSum) (now : ℕ) (asked : List (α × PeerAnswer)) : List (HintEvent α) :=
  (asked.filter fun q => q.2.result = .hit).map fun q => .hit q.1 cs now

/-- What a call has done when it returns `res`. -/
structure FetchReport (t : τ) (s : FetchShared τ α F) (call : CandidateCall α F)
    (asked : List (α × PeerAnswer)) (res : Option (List UInt8)) : Prop where
  concluded : Concluded client network checksum t call asked res
  logged : ∃ now, Logged t s asked (hintsOf (checksum t) now asked)
    (queryMetrics (client.candidatePeers call).2 asked ++
      [.fetch (client.candidatePeers call).2 (resultOf asked res)])

/-- The assertion of a call at each point. -/
def FetchAssertion (t : τ) (s : FetchShared τ α F) : FetchPc α F → Prop
  | .idle => Logged t s [] [] []
  | .querying call rest asked seen =>
    Asking client network checksum t call rest asked ∧ seen = .of asked ∧
      Logged t s asked [] (queryMetrics (client.candidatePeers call).2 asked)
  | .waiting call peer rest asked seen =>
    Asking client network checksum t call (peer :: rest) asked ∧ seen = .of asked ∧
      Logged t s asked [] (queryMetrics (client.candidatePeers call).2 asked ++
        if (client.candidatePeers call).2 = .index ∧ asked ≠ [] then
          [.retry (client.candidatePeers call).2] else [])
  | .answered call peer answer rest asked seen =>
    Asking client network checksum t call (peer :: rest) asked ∧ seen = .of asked ∧
      network peer (checksum t) answer ∧
      Logged t s asked [] (queryMetrics (client.candidatePeers call).2 (asked ++ [(peer, answer)]))
  | .hinting call peer data asked =>
    (∃ rest, Asking client network checksum t call (peer :: rest) asked) ∧
      network peer (checksum t) (.ok (some data)) ∧
      Logged t s (asked ++ [(peer, .ok (some data))]) []
        (queryMetrics (client.candidatePeers call).2 (asked ++ [(peer, .ok (some data))]))
  | .counting call asked result res =>
    Concluded client network checksum t call asked res ∧ result = resultOf asked res ∧
      ∃ now, Logged t s asked (hintsOf (checksum t) now asked)
        (queryMetrics (client.candidatePeers call).2 asked)
  | .returned call asked res => FetchReport client network checksum t s call asked res

variable {client network checksum} {t u : τ} {s s' : FetchShared τ α F} {pc pc' : FetchPc α F}
  {call : CandidateCall α F} {peer : α} {rest : List α} {asked : List (α × PeerAnswer)}
  {hints : List (HintEvent α)} {metrics : List FetchMetric}

omit [LinearOrder F] in
theorem Logged.record (h : Logged t s asked hints metrics) (r : PeerRecord α F)
    {answer : PeerAnswer} (hkind : r.outcome.kind = answer.kind) :
    Logged t (s.record t r) (asked ++ [(r.addr, answer)]) hints metrics where
  records := by
    rw [FetchShared.record, ownEntries_concat_self, List.map_append, List.map_append, h.records]
    exact congrArg (fun k => _ ++ [(r.addr, k)]) hkind
  hints := h.hints
  metrics := h.metrics

omit [LinearOrder F] [Add F] [Mul F] [Div F] [NatCast F] in
theorem Logged.hint (h : Logged t s asked hints metrics) (e : HintEvent α) :
    Logged t (s.hint (some t) e) asked (hints ++ [e]) metrics where
  records := h.records
  hints := by rw [FetchShared.hint, ownEntries_concat_self, h.hints]
  metrics := h.metrics

omit [LinearOrder F] [Add F] [Mul F] [Div F] [NatCast F] [DecidableEq α] in
theorem Logged.count (h : Logged t s asked hints metrics) (m : FetchMetric) :
    Logged t (s.count t m) asked hints (metrics ++ [m]) where
  records := h.records
  hints := h.hints
  metrics := by rw [FetchShared.count, ownEntries_concat_self, h.metrics]

/-- What the log of a call says is kept by the others. -/
theorem FetchStep.logged (hstep : FetchStep client network checksum t s pc s' pc') (hne : t ≠ u)
    (h : Logged u s asked hints metrics) : Logged u s' asked hints metrics := by
  have hrecord (r : PeerRecord α F) : Logged u (s.record t r) asked hints metrics :=
    { h with records := by rw [FetchShared.record, ownEntries_concat_ne _ _ hne, h.records] }
  have hcount (m : FetchMetric) : Logged u (s.count t m) asked hints metrics :=
    { h with metrics := by rw [FetchShared.count, ownEntries_concat_ne _ _ hne, h.metrics] }
  cases hstep with
  | candidates | exhausted => exact h
  | attempt =>
    split_ifs
    · exact hcount _
    · exact h
  | answer | count => exact hcount _
  | hit | miss | failure => exact hrecord _
  | hint now =>
    have hsome : some t ≠ some u := fun heq => hne (Option.some.inj heq)
    exact { h with hints := by rw [FetchShared.hint, ownEntries_concat_ne _ _ hsome, h.hints] }

/-- An assertion needs of the shared state only the log of its call. -/
theorem FetchAssertion.mono (h : FetchAssertion client network checksum u s pc)
    (hlogged : ∀ asked hints metrics, Logged u s asked hints metrics →
      Logged u s' asked hints metrics) : FetchAssertion client network checksum u s' pc := by
  cases pc with
  | idle => exact hlogged _ _ _ h
  | querying | waiting => exact ⟨h.1, h.2.1, hlogged _ _ _ h.2.2⟩
  | answered => exact ⟨h.1, h.2.1, h.2.2.1, hlogged _ _ _ h.2.2.2⟩
  | hinting => exact ⟨h.1, h.2.1, hlogged _ _ _ h.2.2⟩
  | counting => exact ⟨h.1, h.2.1, h.2.2.imp fun _ => hlogged _ _ _⟩
  | returned => exact ⟨h.concluded, h.logged.imp fun _ => hlogged _ _ _⟩

omit [DecidableEq τ] in
/-- A candidate that had no hit was asked. -/
theorem Asking.concat (h : Asking client network checksum t call (peer :: rest) asked)
    {answer : PeerAnswer} (hanswer : network peer (checksum t) answer)
    (hmiss : answer.result ≠ .hit) :
    Asking client network checksum t call rest (asked ++ [(peer, answer)]) where
  candidates := by
    rw [h.candidates, List.map_append, List.append_assoc]
    rfl
  answers := List.forall_mem_append.mpr ⟨h.answers, List.forall_mem_singleton.mpr hanswer⟩
  noHit := List.forall_mem_append.mpr ⟨h.noHit, List.forall_mem_singleton.mpr hmiss⟩

omit [DecidableEq τ] in
theorem Asking.concluded_hit (h : Asking client network checksum t call (peer :: rest) asked)
    {data : List UInt8} (hanswer : network peer (checksum t) (.ok (some data))) :
    Concluded client network checksum t call (asked ++ [(peer, .ok (some data))]) (some data) where
  candidates := by
    rw [h.candidates, List.map_append]
    exact List.prefix_append_right_inj _ |>.mpr ⟨rest, rfl⟩
  answers := List.forall_mem_append.mpr ⟨h.answers, List.forall_mem_singleton.mpr hanswer⟩
  hit _ hdata := ⟨asked, peer, by rw [Option.some.inj hdata], h.noHit⟩
  noHit := nofun

omit [DecidableEq τ] in
theorem Asking.concluded_none (h : Asking client network checksum t call [] asked) :
    Concluded client network checksum t call asked none where
  candidates := by rw [h.candidates, List.append_nil]
  answers := h.answers
  hit := nofun
  noHit _ := ⟨by rw [h.candidates, List.append_nil], h.noHit⟩

omit [DecidableEq α] in
theorem hintsOf_of_noHit (cs : CheckSum) (now : ℕ) (h : ∀ q ∈ asked, q.2.result ≠ .hit) :
    hintsOf cs now asked = [] := by
  rw [hintsOf, List.filter_eq_nil_iff.mpr fun q hq => by simpa using h q hq, List.map_nil]

omit [DecidableEq α] in
theorem hintsOf_concat_hit (cs : CheckSum) (now : ℕ) (h : ∀ q ∈ asked, q.2.result ≠ .hit)
    (peer : α) (data : List UInt8) :
    hintsOf cs now (asked ++ [(peer, .ok (some data))]) = [.hit peer cs now] := by
  rw [hintsOf, List.filter_append, List.map_append]
  exact congrArg (· ++ _) (hintsOf_of_noHit cs now h)

omit [DecidableEq α] in
theorem SawAnswers.of_concat (q : α × PeerAnswer) : SawAnswers.of (asked ++ [q]) =
    ⟨(SawAnswers.of asked).miss || decide (q.2.result = .miss),
      (SawAnswers.of asked).timeout || decide (q.2.result = .timeout),
      (SawAnswers.of asked).error || decide (q.2.result = .error)⟩ := by
  simp [SawAnswers.of]

omit [DecidableEq α] in
theorem failed_of (peer : α) (e : IoError) :
    (SawAnswers.of asked).failed e = .of (asked ++ [(peer, .error e)]) := by
  rw [SawAnswers.of_concat, SawAnswers.failed, PeerAnswer.result]
  split_ifs <;> simp

theorem result_ne_hit_of_error (e : IoError) : PeerAnswer.result (.error e) ≠ .hit := by
  rw [PeerAnswer.result]
  split_ifs <;> exact nofun

/-- A step of a call establishes its next assertion. -/
theorem FetchStep.own (h : FetchAssertion client network checksum t s pc)
    (hstep : FetchStep client network checksum t s pc s' pc') :
    FetchAssertion client network checksum t s' pc' := by
  cases hstep with
  | candidates call =>
    exact ⟨⟨rfl, List.forall_mem_nil _, List.forall_mem_nil _⟩, rfl, h⟩
  | attempt =>
    obtain ⟨hasking, hseen, hlogged⟩ := h
    refine ⟨hasking, hseen, ?_⟩
    split_ifs
    · exact hlogged.count _
    · rwa [List.append_nil]
  | answer answer hanswer =>
    obtain ⟨hasking, hseen, hlogged⟩ := h
    refine ⟨hasking, hseen, hanswer, ?_⟩
    rw [queryMetrics_concat]
    exact hlogged.count _
  | hit =>
    obtain ⟨hasking, -, hanswer, hlogged⟩ := h
    exact ⟨⟨_, hasking⟩, hanswer, hlogged.record _ rfl⟩
  | hint now =>
    obtain ⟨⟨rest, hasking⟩, hanswer, hlogged⟩ := h
    refine ⟨hasking.concluded_hit hanswer, rfl, now, ?_⟩
    rw [hintsOf_concat_hit _ _ hasking.noHit]
    exact hlogged.hint _
  | miss now =>
    obtain ⟨hasking, rfl, hanswer, hlogged⟩ := h
    refine ⟨hasking.concat hanswer nofun, ?_, hlogged.record _ rfl⟩
    rw [SawAnswers.of_concat]
    simp [PeerAnswer.result]
  | failure now =>
    obtain ⟨hasking, rfl, hanswer, hlogged⟩ := h
    exact ⟨hasking.concat hanswer (result_ne_hit_of_error _), failed_of _ _, hlogged.record _ rfl⟩
  | exhausted =>
    obtain ⟨hasking, rfl, hlogged⟩ := h
    refine ⟨hasking.concluded_none, rfl, 0, ?_⟩
    rwa [hintsOf_of_noHit _ _ hasking.noHit]
  | count =>
    obtain ⟨hconcluded, rfl, now, hlogged⟩ := h
    exact ⟨hconcluded, now, hlogged.count _⟩

/-- The health and the hints are made of the logs. -/
structure FetchInv (s : FetchShared τ α F) : Prop where
  health : s.health = .recorded (s.records.map Prod.snd)
  hitHints : s.hitHints = PeerHitHints.replay (s.hints.map Prod.snd)

omit [DecidableEq τ] [LinearOrder F] in
theorem FetchInv.record (h : FetchInv s) (t : τ) (r : PeerRecord α F) :
    FetchInv (s.record t r) where
  health := by
    rw [FetchShared.record, h.health, List.map_append, PeerHealthTracker.recorded,
      PeerHealthTracker.recorded, List.foldl_append]
    rfl
  hitHints := h.hitHints

omit [DecidableEq τ] [LinearOrder F] in
theorem FetchInv.hint (h : FetchInv s) (t : Option τ) (e : HintEvent α) :
    FetchInv (s.hint t e) where
  health := h.health
  hitHints := by
    rw [FetchShared.hint, h.hitHints, List.map_append]
    exact (PeerHitHints.replay_concat _ _).symm

omit [DecidableEq τ] in
theorem FetchStep.inv (h : FetchInv s)
    (hstep : FetchStep client network checksum t s pc s' pc') : FetchInv s' := by
  have hcount (m : FetchMetric) : FetchInv (s.count t m) := ⟨h.health, h.hitHints⟩
  cases hstep with
  | candidates | exhausted => exact h
  | attempt =>
    split_ifs
    · exact hcount _
    · exact h
  | answer | count => exact hcount _
  | hit | miss | failure => exact h.record _ _
  | hint now => exact h.hint _ _

theorem fetchProgram_holds {c : Config τ (FetchShared τ α F) (FetchPc α F)}
    (hc : (fetchProgram client network checksum).toSystem.Reachable c) :
    Program.Holds FetchInv (FetchAssertion client network checksum) c := by
  refine Program.invariant ?_ ?_ ?_ ?_ hc
  · rintro c ⟨hshared, hidle⟩
    rw [Program.Holds, hshared]
    refine ⟨⟨rfl, rfl⟩, fun t => ?_⟩
    rw [hidle t]
    exact ⟨rfl, rfl, rfl⟩
  · exact fun c t s' pc' h _ hstep => ⟨hstep.inv h.1, hstep.own (h.2 t)⟩
  · exact fun c t u s' pc' h _ hne hstep =>
      (h.2 u).mono fun _ _ _ => hstep.logged (Ne.symm hne)
  · rintro c now s' h - rfl
    refine ⟨h.1.hint _ _, fun t => (h.2 t).mono fun asked hints metrics hlogged => ?_⟩
    exact { hlogged with
      hints := by
        rw [FetchShared.hint, ownEntries_concat_ne _ _ (Option.some_ne_none t).symm,
          hlogged.hints] }

/-- **A fetch.** However the calls of a node interleave, and whatever the peers answer: a call that
returns has asked its candidates in their order, up to the first one that has the chunk, or all of
them; it returns the bytes of that one; and it has recorded the outcome of each query once, its hit
once, and how it ended. -/
theorem fetch_reported {c : Config τ (FetchShared τ α F) (FetchPc α F)}
    (hc : (fetchProgram client network checksum).toSystem.Reachable c) {t : τ}
    {call : CandidateCall α F} {asked : List (α × PeerAnswer)} {res : Option (List UInt8)}
    (ht : c.loc t = .returned call asked res) :
    FetchReport client network checksum t c.shared call asked res := by
  have h := (fetchProgram_holds hc).2 t
  rwa [ht] at h

/-! ### All calls together -/

/-- A call that has recorded a hit of a peer, but not yet put it into the hints. -/
def FetchPc.isHinting (addr : α) : FetchPc α F → Bool
  | .hinting _ peer _ _ => decide (peer = addr)
  | _ => false

/-- The hits in the hints that are still missing in the health of the peer, as a balance. -/
def unhinted (addr : α) (s : FetchShared τ α F) : ℤ :=
  (HintEvent.hits addr (s.hints.map Prod.snd)).length -
    s.records.countP fun e => decide (e.2.addr = addr) && e.2.outcome.isSuccess

omit [DecidableEq τ] [LinearOrder F] in
theorem unhinted_record (addr : α) (t : τ) (r : PeerRecord α F) :
    unhinted addr (s.record t r) = unhinted addr s -
      if r.addr = addr ∧ r.outcome.isSuccess = true then 1 else 0 := by
  have hentry : (decide (r.addr = addr) && r.outcome.isSuccess) = true ↔
      r.addr = addr ∧ r.outcome.isSuccess = true := by
    rw [Bool.and_eq_true, decide_eq_true_iff]
  rw [unhinted, unhinted, FetchShared.record, List.countP_append, List.countP_singleton]
  simp only [hentry]
  push_cast
  ring

omit [DecidableEq τ] [LinearOrder F] [Add F] [Mul F] [Div F] [NatCast F] in
theorem unhinted_hint (addr : α) (t : Option τ) (e : HintEvent α) :
    unhinted addr (s.hint t e) = unhinted addr s + (HintEvent.hit? addr e).toList.length := by
  rw [unhinted, unhinted, FetchShared.hint, List.map_append, List.map_singleton,
    HintEvent.hits_concat, List.length_append]
  push_cast
  ring

omit [DecidableEq τ] in
theorem FetchStep.balance (addr : α) (hstep : FetchStep client network checksum t s pc s' pc') :
    unhinted addr s' + (if pc'.isHinting addr = true then 1 else 0) =
      unhinted addr s + (if pc.isHinting addr = true then 1 else 0) := by
  cases hstep with
  | candidates | exhausted | answer | count => rfl
  | attempt =>
    refine congrArg₂ (· + ·) ?_ rfl
    split_ifs <;> rfl
  | hit =>
    rw [unhinted_record]
    simp only [FetchPc.isHinting, PeerOutcome.isSuccess, and_true, decide_eq_true_iff,
      Bool.false_eq_true, if_false, sub_add_cancel, add_zero]
  | miss | failure =>
    rw [unhinted_record]
    simp only [FetchPc.isHinting, PeerOutcome.isSuccess, Bool.false_eq_true, and_false, if_false,
      sub_zero]
  | @hint _ peer =>
    rw [unhinted_hint, HintEvent.hit?]
    by_cases ha : peer = addr
    · simp [FetchPc.isHinting, ha]
    · simp [FetchPc.isHinting, ha]

/-- The hits of a peer in its health, and those in the hints, differ by the calls in between. -/
theorem exists_hinting {c : Config τ (FetchShared τ α F) (FetchPc α F)}
    (hc : (fetchProgram client network checksum).toSystem.Reachable c) (addr : α) :
    ∃ T : Finset τ, (∀ t, t ∈ T ↔ (c.loc t).isHinting addr = true) ∧
      (c.shared.records.countP fun e => decide (e.2.addr = addr) && e.2.outcome.isSuccess) =
        (HintEvent.hits addr (c.shared.hints.map Prod.snd)).length + T.card := by
  have hbalanced : Program.Balanced (unhinted addr)
      (fun pc => if pc.isHinting addr = true then 1 else 0) 0 c := by
    refine Program.conserved (fun c hinit => ?_) (fun _ _ _ _ _ => FetchStep.balance addr)
      (fun now s s' h => ?_) hc
    · refine ⟨by rw [hinit.1]; rfl, fun t => ?_⟩
      rw [hinit.2 t]
      rfl
    · obtain rfl := h
      exact (unhinted_hint addr none _).trans (add_zero _)
  obtain ⟨T, hT, hsum⟩ := hbalanced.exists_holders
  refine ⟨T, hT, ?_⟩
  rw [unhinted] at hsum
  omega

/-- **Nothing is lost.** However the calls interleave, the health of a peer counts each recorded
query of it once, and each hit once. The hints have the hits of all calls, but for those that are on
their way from one record to the other. -/
theorem peers_accounted {c : Config τ (FetchShared τ α F) (FetchPc α F)}
    (hc : (fetchProgram client network checksum).toSystem.Reachable c) (addr : α) :
    (c.shared.health.health addr).totalRequests =
      (c.shared.records.countP fun e => decide (e.2.addr = addr)) ∧
    c.shared.hitHints = PeerHitHints.replay (c.shared.hints.map Prod.snd) ∧
    ∃ T : Finset τ, (∀ t, t ∈ T ↔ (c.loc t).isHinting addr = true) ∧
      (c.shared.health.health addr).totalHits =
        (HintEvent.hits addr (c.shared.hints.map Prod.snd)).length + T.card := by
  have hinv := (fetchProgram_holds hc).1
  obtain ⟨T, hT, hcount⟩ := exists_hinting hc addr
  have hafter := PeerHealthTracker.health_recorded (c.shared.records.map Prod.snd) addr
  rw [← hinv.health] at hafter
  refine ⟨?_, hinv.hitHints, T, hT, ?_⟩
  · rw [hafter, PeerHealth.totalRequests_after, ← List.countP_eq_length_filter, List.countP_map]
    rfl
  · rw [hafter, PeerHealth.totalHits_after, List.countP_filter, List.countP_map, ← hcount]
    exact List.countP_congr fun e _ => by simp [and_comm]

end Report

/-! ### Where the bytes come from -/

/-- A session with a server whose database is always one of `D` answers a request for the chunk
with `r`. -/
def SessionAnswers (D : StoredChunks → Prop) (cs : CheckSum) (r : WireResponse) : Prop :=
  ∃ (κ : Type) (_ : DecidableEq κ) (request : κ → InboundRequest) (s : Exchange κ) (t : κ)
    (id : UInt64), (∀ t, (request t).Writable) ∧
    (exchange .tcp request).Reach (Exchange.Orderly D fun _ _ => True) s ∧
    (outgoing request t id).request = { Request.wholeChunk .getChunk cs with requestId := id } ∧
    s.client.loc t = .returned id (.ok r)

/-- The answers to the queries of peers whose databases are always among `D peer`. -/
def answeredBy {α : Type*} (D : α → StoredChunks → Prop) (peer : α) (cs : CheckSum)
    (answer : PeerAnswer) : Prop :=
  ∃ acquired response, answer = queryPeer acquired response ∧
    ∀ r, response = .ok r → SessionAnswers (D peer) cs r

section Answers

variable {α : Type*} {D : α → StoredChunks → Prop} {peer : α} {cs : CheckSum}

theorem SessionAnswers.getChunk {D : StoredChunks → Prop} {r : WireResponse}
    (h : SessionAnswers D cs r) :
    (r.status = statusHit → ∃ db, D db ∧ db.store.getChunk cs = some r.payload) ∧
    (r.status = statusMiss → ∃ db, D db ∧ db.store.getChunk cs = none) := by
  obtain ⟨κ, _, request, s, t, id, hwritable, hs, hrequest, ht⟩ := h
  obtain ⟨branch, hanswers⟩ := Exchange.answers_of_returned hwritable hs ht
  have hget := hanswers.getChunk (congrArg Request.messageType hrequest)
  rwa [show (outgoing request t id).request.checksum = cs from
    congrArg Request.checksum hrequest] at hget

/-- An answer other than an error comes from a session. -/
theorem answeredBy.session {data : Option (List UInt8)} (h : answeredBy D peer cs (.ok data)) :
    ∃ r, SessionAnswers (D peer) cs r ∧
      (r.status = statusHit ∧ data = some r.payload ∨ r.status = statusMiss ∧ data = none) := by
  obtain ⟨acquired, response, hquery, hsession⟩ := h
  unfold queryPeer at hquery
  split at hquery
  · cases hquery
  · cases hquery
  · split at hquery
    · cases hquery
    · rename_i r
      refine ⟨r, hsession r rfl, ?_⟩
      split_ifs at hquery with hhit hmiss
      · exact .inl ⟨hhit, Except.ok.inj hquery⟩
      · exact .inr ⟨hmiss, Except.ok.inj hquery⟩

theorem answeredBy.stored {data : List UInt8} (h : answeredBy D peer cs (.ok (some data))) :
    ∃ db, D peer db ∧ db.store.getChunk cs = some data := by
  obtain ⟨r, hsession, ⟨hstatus, hdata⟩ | ⟨-, hdata⟩⟩ := h.session
  · rw [Option.some.inj hdata]
    exact hsession.getChunk.1 hstatus
  · cases hdata

theorem answeredBy.notStored (h : answeredBy D peer cs (.ok none)) :
    ∃ db, D peer db ∧ db.store.getChunk cs = none := by
  obtain ⟨r, hsession, ⟨-, hdata⟩ | ⟨hstatus, -⟩⟩ := h.session
  · cases hdata
  · exact hsession.getChunk.2 hstatus

end Answers

/-- The index lists two owners. -/
def twoOwners : CandidateCall ℕ ℚ where
  scores _ := none
  lookupOwners := some (.ok [1, 2])
  ownersHealth := ⟨[], 0, 0⟩
  getPeers := []
  peersHealth := ⟨[], 0, 0⟩
  shuffle l := l
  shuffle_perm _ := .refl _

/-- A client that does not know its own address. -/
def anyClient : PeerClient ℕ := ⟨3, none⟩

theorem candidatePeers_twoOwners : anyClient.candidatePeers twoOwners = ([1, 2], .index) := by
  have hranked : (anyClient.ownersRanking twoOwners).rankedPeersWithScores [1, 2] = [1, 2] := by
    have htie : ∀ a b, (anyClient.ownersRanking twoOwners).Before a b :=
      fun _ _ => .inr ⟨rfl, le_rfl⟩
    rw [PeerRanking.rankedPeersWithScores, List.mergeSort_of_pairwise]
    · rfl
    · exact List.pairwise_of_forall fun a b =>
        (PeerRanking.isLE_comparePeers _ a b).mpr (htie a b)
  rw [PeerClient.candidatePeers, twoOwners]
  change (if !((anyClient.ownersRanking twoOwners).rankedPeersWithScores [1, 2]).isEmpty then
    (((anyClient.ownersRanking twoOwners).rankedPeersWithScores [1, 2]).take 3,
      CandidateSource.index) else _) = _
  rw [hranked]
  rfl

/-- The calls of a client, each for the chunk that the servers have. -/
abbrev fetchingTwice : Program Unit ℕ (FetchShared Unit ℕ ℚ) (FetchPc ℕ ℚ) :=
  fetchProgram anyClient (answeredBy fun _ => (· = Connection.oneByte)) fun _ => .empty

/-- The answers of the two owners: no session with the first, and the chunk from the second. -/
def twoAnswers : List (ℕ × PeerAnswer) :=
  [(1, .error (timeoutError "peer connect")), (2, .ok (some [0]))]

theorem sessionAnswers_hitOneByte :
    SessionAnswers (· = Connection.oneByte) .empty Connection.hitOneByte := by
  obtain ⟨s, hs, ht⟩ := Exchange.reach_returned
  exact ⟨Unit, inferInstance, fun _ => Connection.getOneByte, s, (), 1, fun _ => rfl, hs, rfl, ht⟩

/-- A step of the call extends a run. -/
theorem reach_fetchStep {s s' : FetchShared Unit ℕ ℚ} {pc pc' : FetchPc ℕ ℚ}
    (h : fetchingTwice.toSystem.Reachable ⟨s, fun _ => pc⟩)
    (hstep : FetchStep anyClient (answeredBy fun _ => (· = Connection.oneByte)) (fun _ => .empty)
      () s pc s' pc') : fetchingTwice.toSystem.Reachable ⟨s', fun _ => pc'⟩ :=
  Program.Reach.thread () h trivial hstep (funext fun _ => rfl)

/-- The call asks both owners. -/
theorem reach_twoAnswers : ∃ s : FetchShared Unit ℕ ℚ,
    fetchingTwice.toSystem.Reachable
      ⟨s, fun _ => .returned twoOwners twoAnswers (some [0])⟩ := by
  have hfails : answeredBy (fun _ : ℕ => (· = Connection.oneByte)) 1 .empty
      (.error (timeoutError "peer connect")) :=
    ⟨none, .error (timeoutError "peer connect"), rfl, nofun⟩
  have hhit : answeredBy (fun _ : ℕ => (· = Connection.oneByte)) 2 .empty (.ok (some [0])) :=
    ⟨some (.ok ()), .ok Connection.hitOneByte, rfl, fun r hr =>
      Except.ok.inj hr ▸ sessionAnswers_hitOneByte⟩
  have h₀ : fetchingTwice.toSystem.Reachable ⟨.new, fun _ => .idle⟩ := .init ⟨rfl, fun _ => rfl⟩
  have h₁ := reach_fetchStep h₀ (.candidates twoOwners)
  rw [candidatePeers_twoOwners] at h₁
  have h₂ := reach_fetchStep h₁ .attempt
  have h₃ := reach_fetchStep h₂ (.answer _ hfails)
  have h₄ := reach_fetchStep h₃ (.failure 5)
  have h₅ := reach_fetchStep h₄ .attempt
  have h₆ := reach_fetchStep h₅ (.answer _ hhit)
  have h₇ := reach_fetchStep h₆ (.hit 2 6)
  have h₈ := reach_fetchStep h₇ (.hint 6)
  have h₉ := reach_fetchStep h₈ .count
  exact ⟨_, h₉⟩

theorem fetch_reported_twoAnswers : ∃ s : FetchShared Unit ℕ ℚ,
    ownEntries () s.metrics =
      [.query .timeout, .retry .index, .query .hit, .fetch .index .hit] := by
  obtain ⟨s, h⟩ := reach_twoAnswers
  obtain ⟨now, hlogged⟩ := (fetch_reported h (t := ()) rfl).logged
  have hmetrics := hlogged.metrics
  rw [candidatePeers_twoOwners] at hmetrics
  exact ⟨s, hmetrics⟩

theorem peers_accounted_twoAnswers : ∃ s : FetchShared Unit ℕ ℚ,
    fetchingTwice.toSystem.Reachable ⟨s, fun _ => .returned twoOwners twoAnswers (some [0])⟩ ∧
    (s.health.health 2).totalHits = (HintEvent.hits 2 (s.hints.map Prod.snd)).length := by
  obtain ⟨s, h⟩ := reach_twoAnswers
  obtain ⟨-, -, T, hT, hhits⟩ := peers_accounted h 2
  have hnone : T = ∅ := Finset.eq_empty_of_forall_notMem fun t ht =>
    Bool.false_ne_true ((hT t).mp ht)
  rw [hnone] at hhits
  exact ⟨s, h, hhits⟩

end DistillFs
