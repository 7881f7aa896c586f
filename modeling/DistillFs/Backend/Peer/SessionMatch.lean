import DistillFs.Backend.Peer.Session

/-!
# Requests match their responses

A call that returns a response returns the first one the peer sent under the id the call allocated,
and no response goes to two calls, as long as ids are not used up (`responses_match`). The proof
follows the sender of a call. Before the call registers, nobody has it; then the map has it under
the id of the call; and once it has left the map the id is spent (`Spent`): no entry comes back
under it, since ids are allocated once and registered once. The reader finds a sender for a
response only while its id is not spent, so for the first response with that id.

## Main definitions

* `IdInv`: allocated ids are distinct.
* `Spent`: an id whose call has registered and is in the map no more.
* `MatchInv`: where the senders are, and what they were used for.
* `CountInv`: `inflight` counts the calls between two of their steps.

## Main results

* `responses_match`: responses are returned to the calls they answer, and nothing is left behind.
-/

namespace DistillFs

open Foundation

section Effects

variable {τ : Type*} [DecidableEq τ] {t : τ} {s s' : MultiplexedSession τ} {pc pc' : CallPc τ}

/-- What a step of a call does to the counter of ids and to the id of the call. -/
theorem CallStep.ids (h : CallStep t s pc s' pc') :
    (s'.nextRequestId = s.nextRequestId ∧ pc'.requestId = pc.requestId) ∨
    (pc = .checked ∧ s'.nextRequestId = s.nextRequestId + 1 ∧
      pc'.requestId = some (UInt64.ofNat s.nextRequestId)) := by
  cases h with
  | allocate => exact Or.inr ⟨rfl, rfl, rfl⟩
  | close h | shutdown h => exact Or.inl ⟨h.reader.2.2.2.1, rfl⟩
  | _ => exact Or.inl ⟨rfl, rfl⟩

theorem ReaderStep.nextRequestId (h : ReaderStep s s') : s'.nextRequestId = s.nextRequestId := by
  cases h with
  | close _ h => exact h.reader.2.2.2.1
  | _ => rfl

theorem ReaderStep.inflight (h : ReaderStep s s') : s'.inflight = s.inflight := by
  cases h with
  | close _ h => exact h.reader.2.2.2.2
  | _ => rfl

section Close

variable {todo todo' : UInt64 → Option τ} {draining draining' : Bool}

theorem CloseEffect.pending_none (h : CloseEffect s s' todo todo' draining draining') {id : UInt64}
    (hnone : s.pending id = none) : s'.pending id = none := by
  cases h with
  | keep hpending => rwa [hpending]
  | swap hs | send _ _ _ hs =>
    subst hs
    exact hnone
  | drain hs =>
    subst hs
    rfl

/-- What is in the map was there before. -/
theorem CloseEffect.pending (h : CloseEffect s s' todo todo' draining draining') {id : UInt64}
    {u : τ} (hu : s'.pending id = some u) : s.pending id = some u := by
  cases h with
  | keep hpending => rwa [hpending] at hu
  | swap hs | send _ _ _ hs =>
    subst hs
    exact hu
  | drain hs =>
    subst hs
    cases hu

/-- A sender in the hands of the task was there before, or comes out of the map. -/
theorem CloseEffect.taken (h : CloseEffect s s' todo todo' draining draining') {id : UInt64}
    {u : τ} (hu : todo' id = some u) :
    todo id = some u ∨ (s.pending id = some u ∧ s'.pending id = none) := by
  cases h with
  | keep _ _ _ htodo | swap _ _ htodo =>
    subst htodo
    exact Or.inl hu
  | drain hs _ _ htodo' =>
    subst hs htodo'
    exact Or.inr ⟨hu, rfl⟩
  | send id' _ _ _ _ htodo =>
    subst htodo
    by_cases hid : id = id'
    · rw [hid, Function.update_self] at hu
      cases hu
    · rw [Function.update_of_ne hid] at hu
      exact Or.inl hu

/-- A channel stays as it is, or an error is sent with a sender of the task. -/
theorem CloseEffect.channel (h : CloseEffect s s' todo todo' draining draining') (u : τ) :
    s'.channel u = s.channel u ∨
      ∃ id err, todo id = some u ∧ s'.channel u = .sent (.error err) := by
  cases h with
  | keep _ hchannel => exact Or.inl (by rw [hchannel])
  | swap hs | drain hs =>
    subst hs
    exact Or.inl rfl
  | send id v err hs hv =>
    subst hs
    by_cases hu : u = v
    · subst hu
      exact Or.inr ⟨id, err, hv, Function.update_self ..⟩
    · exact Or.inl (Function.update_of_ne hu ..)

end Close

/-- A call stays registered under its id. -/
theorem CallStep.entered (h : CallStep t s pc s' pc') {id : UInt64} (hid : pc.entered = some id) :
    pc'.entered = some id := by
  cases h with
  | call | refuse | check | allocate | insert | startShutdown | shutdown => cases hid
  | _ => exact hid

/-- A sender in the hands of a call was there before, or comes out of the map. -/
theorem CallStep.todo (h : CallStep t s pc s' pc') {id : UInt64} {u : τ}
    (hu : pc'.todo id = some u) :
    pc.todo id = some u ∨ (s.pending id = some u ∧ s'.pending id = none) := by
  cases h.effect with
  | close _ heffect => exact heffect.taken hu
  | insert _ _ hpc' =>
    subst hpc'
    cases hu
  | remove _ _ _ _ htodo | receive _ _ _ _ _ htodo => exact Or.inl (htodo ▸ hu)

/-- A call sends no responses. -/
theorem CallStep.channel_ok (h : CallStep t s pc s' pc') {u : τ} {r : WireResponse}
    (hr : s'.channel u = .sent (.ok r)) : s.channel u = .sent (.ok r) := by
  cases h.effect with
  | close _ heffect =>
    rcases heffect.channel u with hsame | ⟨-, err, -, herr⟩
    · exact hsame ▸ hr
    · rw [herr] at hr
      cases hr
  | insert id _ _ hs | remove id _ hs =>
    subst hs
    rcases MultiplexedSession.dropSender_cases s.channel (s.pending id) u with hsame | ⟨-, hdropped⟩
    · exact hsame ▸ hr
    · rw [← hr]
      exact absurd (hdropped.symm.trans hr) (by simp)
  | receive _ _ _ hs =>
    subst hs
    exact hr

/-- What a step of a call does to `inflight`. -/
theorem CallStep.inflight (h : CallStep t s pc s' pc') :
    (pc'.isCounted = pc.isCounted ∧ s'.inflight = s.inflight) ∨
    (pc.isCounted = false ∧ pc'.isCounted = true ∧ s'.inflight = s.inflight + 1) ∨
    (pc.isCounted = true ∧ pc'.isCounted = false ∧ s'.inflight = s.inflight - 1) := by
  cases h with
  | count => exact Or.inr (Or.inl ⟨rfl, rfl, rfl⟩)
  | uncountFailed | uncount | uncountExpired => exact Or.inr (Or.inr ⟨rfl, rfl, rfl⟩)
  | close h | shutdown h => exact Or.inl ⟨rfl, h.reader.2.2.2.2⟩
  | _ => exact Or.inl ⟨rfl, rfl⟩

/-- A call gets its answer from its channel. -/
theorem CallStep.answer (h : CallStep t s pc s' pc') {id : UInt64} {r : WireResponse}
    (hr : pc'.answer = some (id, r)) :
    pc.answer = some (id, r) ∨ (pc = .waiting id ∧ s.channel t = .sent (.ok r)) := by
  cases h with
  | uncount =>
    rename_i id' result
    cases result with
    | ok r' => exact Or.inl hr
    | error err => cases hr
  | receive hsent =>
    rename_i id' result
    cases result with
    | ok r' =>
      obtain ⟨rfl, rfl⟩ := Prod.mk.inj (Option.some.inj hr)
      exact Or.inr ⟨rfl, hsent⟩
    | error err => cases hr
  | _ => cases hr

end Effects

namespace MultiplexedSession

variable {τ : Type*} [DecidableEq τ] {c : Config τ (MultiplexedSession τ) (CallPc τ)} {t u : τ}
  {s' : MultiplexedSession τ} {pc' : CallPc τ} {id : UInt64}

/-! ### Request ids -/

/-- A call that is about to allocate an id is not the 2^64-th. -/
def FewCalls (c : Config τ (MultiplexedSession τ) (CallPc τ)) : τ ⊕ Unit → Prop
  | .inl t => c.loc t = .checked → c.shared.nextRequestId < 2 ^ 64
  | .inr _ => True

/-- Allocated ids are distinct, and below the counter. -/
structure IdInv (c : Config τ (MultiplexedSession τ) (CallPc τ)) : Prop where
  known : ∀ t id, (c.loc t).requestId = some id → id.toNat < c.shared.nextRequestId
  unique : ∀ t u id, (c.loc t).requestId = some id → (c.loc u).requestId = some id → t = u

theorem IdInv.thread (h : IdInv c) (hok : FewCalls c (.inl t))
    (hstep : CallStep t c.shared (c.loc t) s' pc') : IdInv ⟨s', Function.update c.loc t pc'⟩ := by
  rcases hstep.ids with ⟨hnext, hid⟩ | ⟨hpc, hnext, hid⟩
  · have hloc : ∀ u, (Function.update c.loc t pc' u).requestId = (c.loc u).requestId := by
      intro u
      by_cases hu : u = t
      · rw [hu, Function.update_self, hid]
      · rw [Function.update_of_ne hu]
    refine ⟨fun u id hu => ?_, fun u v id hu hv => ?_⟩
    · dsimp only at hu ⊢
      rw [hnext]
      exact h.known u id (hloc u ▸ hu)
    · exact h.unique u v id (hloc u ▸ hu) (hloc v ▸ hv)
  · -- the new id is the counter, which is above all ids
    have hnew : (UInt64.ofNat c.shared.nextRequestId).toNat = c.shared.nextRequestId :=
      UInt64.toNat_ofNat_of_lt' (hok hpc)
    have hfresh : ∀ u, u ≠ t →
        (c.loc u).requestId ≠ some (UInt64.ofNat c.shared.nextRequestId) := by
      intro u _ hu
      have hlt := h.known u _ hu
      omega
    refine ⟨fun u id hu => ?_, fun u v id hu hv => ?_⟩
    · dsimp only at hu ⊢
      by_cases hut : u = t
      · rw [hut, Function.update_self, hid] at hu
        rw [← Option.some.inj hu, hnew, hnext]
        exact Nat.lt_succ_self _
      · rw [Function.update_of_ne hut] at hu
        have hlt := h.known u id hu
        omega
    · dsimp only at hu hv
      by_cases hut : u = t <;> by_cases hvt : v = t
      · rw [hut, hvt]
      · rw [hut, Function.update_self, hid] at hu
        rw [Function.update_of_ne hvt, ← hu] at hv
        exact absurd hv (hfresh v hvt)
      · rw [hvt, Function.update_self, hid] at hv
        rw [Function.update_of_ne hut, ← hv] at hu
        exact absurd hu (hfresh u hut)
      · rw [Function.update_of_ne hut] at hu
        rw [Function.update_of_ne hvt] at hv
        exact h.unique u v id hu hv

theorem idInv_of_reach (hc : (sessionProgram τ).toSystem.Reach FewCalls c) : IdInv c := by
  refine System.Reach.invariant ?_ (fun c a c' h hok hstep => ?_) hc
  · rintro c ⟨-, hidle⟩
    refine ⟨fun t id ht => ?_, fun t u id ht => ?_⟩ <;>
      simp [hidle, CallPc.requestId, CallPc.entered] at ht
  · cases hstep with
    | thread h' => exact h.thread hok h'
    | env h' =>
      refine ⟨fun u id hu => ?_, h.unique⟩
      dsimp only
      rw [ReaderStep.nextRequestId h']
      exact h.known u id hu

/-! ### Spent ids -/

/-- The call `u` has registered under `id`, and is in the map no more. -/
def Spent (c : Config τ (MultiplexedSession τ) (CallPc τ)) (id : UInt64) (u : τ) : Prop :=
  (c.loc u).entered = some id ∧ c.shared.pending id = none

/-- A call that has registered stays registered when some call makes a step. -/
theorem entered_update (hstep : CallStep t c.shared (c.loc t) s' pc')
    (hu : (c.loc u).entered = some id) : (Function.update c.loc t pc' u).entered = some id := by
  by_cases hut : u = t
  · subst hut
    rw [Function.update_self]
    exact hstep.entered hu
  · rwa [Function.update_of_ne hut]

/-- A spent id stays spent. -/
theorem Spent.thread (hid : IdInv c) (h : Spent c id u)
    (hstep : CallStep t c.shared (c.loc t) s' pc') :
    Spent ⟨s', Function.update c.loc t pc'⟩ id u := by
  obtain ⟨hu, hnone⟩ := h
  refine ⟨entered_update hstep hu, ?_⟩
  · dsimp only
    cases hstep.effect with
    | close _ h => exact h.pending_none hnone
    | insert id' hpc _ hs =>
      subst hs
      -- only the owner of an id inserts it, and once
      have hne : id ≠ id' := by
        rintro rfl
        have hut := hid.unique u t id (CallPc.requestId_of_entered hu) (by rw [hpc]; rfl)
        rw [hut, hpc] at hu
        cases hu
      rw [pending_insertPending, Function.update_of_ne hne, hnone]
    | remove id' _ hs =>
      subst hs
      simp only [pending_removePending, Function.update_apply, hnone, ite_self]
    | receive _ _ _ hs =>
      subst hs
      exact hnone

theorem Spent.reader (h : Spent c id u) (hstep : ReaderStep c.shared s') :
    Spent ⟨s', c.loc⟩ id u := by
  obtain ⟨hu, hnone⟩ := h
  refine ⟨hu, ?_⟩
  dsimp only
  cases hstep with
  | route => simp only [Function.update_apply, hnone, ite_self]
  | close _ h => exact h.effect.pending_none hnone
  | _ => exact hnone

/-! ### The senders -/

/-- `r` is the first response with its id that the peer has sent. -/
def First (s : MultiplexedSession τ) (r : WireResponse) : Prop :=
  s.responses.find? (fun x => x.requestId == r.requestId) = some r

omit [DecidableEq τ] in
theorem First.append {s : MultiplexedSession τ} {r : WireResponse} (h : First s r)
    (extra : List WireResponse) : First { s with responses := s.responses ++ extra } r := by
  rw [First, List.find?_append, h]
  rfl

/-- Where the senders are, and what they were used for. -/
structure MatchInv (c : Config τ (MultiplexedSession τ) (CallPc τ)) : Prop where
  /-- The map has senders of registered calls. -/
  held : ∀ id t, c.shared.pending id = some t → (c.loc t).holds = some id
  /-- Senders taken out of the map belong to spent ids. -/
  taken : ∀ id t, Taken c id t → Spent c id t
  /-- So do senders that were used or dropped. -/
  used : ∀ t, c.shared.channel t ≠ .waiting → ∃ id, Spent c id t
  routed_le : c.shared.routed ≤ c.shared.responses.length
  /-- The ids of the responses that found a call are spent. -/
  routed : ∀ r ∈ c.shared.responses.take c.shared.routed, ∃ t, Spent c r.requestId t
  /-- The response in the hands of the reader is the next one. -/
  routing : ∀ r, c.shared.reader = .routing r → c.shared.responses[c.shared.routed]? = some r
  sending : ∀ t r, c.shared.reader = .sending t r → First c.shared r
  answered : ∀ t r, c.shared.channel t = .sent (.ok r) →
    (c.loc t).entered = some r.requestId ∧ First c.shared r
  answer : ∀ t id r, (c.loc t).answer = some (id, r) → r.requestId = id ∧ First c.shared r

/-- After a step of a call the map has senders of registered calls. -/
theorem MatchInv.held_thread (h : MatchInv c) (hstep : CallStep t c.shared (c.loc t) s' pc')
    (hu : s'.pending id = some u) : (Function.update c.loc t pc' u).holds = some id := by
  cases hstep.effect with
  | close hholds heffect =>
    have hold := h.held id u (heffect.pending hu)
    by_cases hut : u = t
    · subst hut
      rwa [Function.update_self, hholds]
    · rwa [Function.update_of_ne hut]
  | insert id' hpc hpc' hs =>
    subst hs hpc'
    by_cases hid' : id = id'
    · subst hid'
      rw [pending_insertPending, Function.update_self] at hu
      rw [← Option.some.inj hu, Function.update_self]
      rfl
    · rw [pending_insertPending, Function.update_of_ne hid'] at hu
      have hold := h.held id u hu
      have hut : u ≠ t := by
        rintro rfl
        rw [hpc] at hold
        cases hold
      rwa [Function.update_of_ne hut]
  | remove id' hholds hs =>
    subst hs
    have hid' : id ≠ id' := by
      rintro rfl
      rw [pending_removePending, Function.update_self] at hu
      cases hu
    rw [pending_removePending, Function.update_of_ne hid'] at hu
    have hold := h.held id u hu
    have hut : u ≠ t := by
      rintro rfl
      rw [hholds] at hold
      exact hid' (Option.some.inj hold).symm
    rwa [Function.update_of_ne hut]
  | receive id' hpc hchannel hs =>
    subst hs
    have hold := h.held id u hu
    -- the channel of a call in the map was not used
    have hut : u ≠ t := by
      rintro rfl
      obtain ⟨id'', hin, hnone⟩ := h.used u hchannel
      rw [CallPc.entered_of_holds hold] at hin
      rw [← Option.some.inj hin, hu] at hnone
      cases hnone
    rwa [Function.update_of_ne hut]

/-- Senders that a step of a call uses or drops belong to spent ids. -/
theorem MatchInv.used_thread (hid : IdInv c) (h : MatchInv c)
    (hstep : CallStep t c.shared (c.loc t) s' pc') (hu : s'.channel u ≠ .waiting) :
    ∃ id, Spent ⟨s', Function.update c.loc t pc'⟩ id u := by
  have hspent : ∀ {id u}, Spent c id u → Spent ⟨s', Function.update c.loc t pc'⟩ id u :=
    fun hu => hu.thread hid hstep
  cases hstep.effect with
  | close hholds heffect =>
    rcases heffect.channel u with hsame | ⟨id, err, htodo, -⟩
    · obtain ⟨id, hid'⟩ := h.used u (hsame ▸ hu)
      exact ⟨id, hspent hid'⟩
    · exact ⟨id, hspent (h.taken id u (.call t htodo))⟩
  | insert id hpc hpc' hs =>
    subst hs
    rcases dropSender_cases c.shared.channel (c.shared.pending id) u with hsame | ⟨hin, -⟩
    · rw [channel_insertPending, hsame] at hu
      obtain ⟨id', hid'⟩ := h.used u hu
      exact ⟨id', hspent hid'⟩
    · -- nobody is registered under the id that `t` has just allocated
      have hholds := h.held id u hin
      have hut := hid.unique u t id
        (CallPc.requestId_of_entered (CallPc.entered_of_holds hholds)) (by rw [hpc]; rfl)
      rw [hut, hpc] at hholds
      cases hholds
  | remove id hholds hs =>
    subst hs
    rcases dropSender_cases c.shared.channel (c.shared.pending id) u with hsame | ⟨hin, -⟩
    · rw [channel_removePending, hsame] at hu
      obtain ⟨id', hid'⟩ := h.used u hu
      exact ⟨id', hspent hid'⟩
    · exact ⟨id, entered_update hstep (CallPc.entered_of_holds (h.held id u hin)), by simp⟩
  | receive id hpc hchannel hs =>
    subst hs
    obtain ⟨id', hid'⟩ := h.used u hu
    exact ⟨id', hspent hid'⟩

/-- Senders that are out of the map after a step of a call belong to spent ids. -/
theorem MatchInv.taken_thread (hid : IdInv c) (h : MatchInv c)
    (hstep : CallStep t c.shared (c.loc t) s' pc')
    (hu : Taken ⟨s', Function.update c.loc t pc'⟩ id u) :
    Spent ⟨s', Function.update c.loc t pc'⟩ id u := by
  have hreader := hstep.reader.1
  have hspent : ∀ {id u}, Spent c id u → Spent ⟨s', Function.update c.loc t pc'⟩ id u :=
    fun hu => hu.thread hid hstep
  have hother : ∀ v, v ≠ t → (Function.update c.loc t pc' v).todo = (c.loc v).todo := by
    intro v hv
    rw [Function.update_of_ne hv]
  cases hu with
  | reader hu =>
    dsimp only at hu
    rw [hreader] at hu
    exact hspent (h.taken id u (.reader hu))
  | sending r hu hr =>
    dsimp only at hu
    rw [hreader] at hu
    exact hspent (h.taken id u (.sending r hu hr))
  | call v hu =>
    dsimp only at hu
    by_cases hvt : v = t
    · subst hvt
      rw [Function.update_self] at hu
      rcases hstep.todo hu with hold | ⟨hold, hnone⟩
      · exact hspent (h.taken id u (.call v hold))
      · exact ⟨entered_update hstep (CallPc.entered_of_holds (h.held id u hold)), hnone⟩
    · rw [hother v hvt] at hu
      exact hspent (h.taken id u (.call v hu))

theorem MatchInv.thread (hid : IdInv c) (h : MatchInv c)
    (hstep : CallStep t c.shared (c.loc t) s' pc') :
    MatchInv ⟨s', Function.update c.loc t pc'⟩ := by
  obtain ⟨hreader, hresponses, hrouted⟩ := hstep.reader
  have hspent : ∀ {id u}, Spent c id u → Spent ⟨s', Function.update c.loc t pc'⟩ id u :=
    fun hu => hu.thread hid hstep
  have hfirst : ∀ {r}, First c.shared r → First s' r := by
    intro r hr
    rwa [First, hresponses]
  refine ⟨fun id u hu => h.held_thread hstep hu, fun id u hu => h.taken_thread hid hstep hu,
    fun u hu => h.used_thread hid hstep hu, ?routed_le, fun r hr => ?routed, fun r hr => ?routing,
    fun u r hr => ?sending, fun u r hr => ?answered, fun u id r hr => ?answer⟩
  case routed_le =>
    dsimp only
    rw [hrouted, hresponses]
    exact h.routed_le
  case routed =>
    dsimp only at hr
    rw [hrouted, hresponses] at hr
    obtain ⟨u, hu⟩ := h.routed r hr
    exact ⟨u, hspent hu⟩
  case routing =>
    dsimp only at hr ⊢
    rw [hrouted, hresponses]
    exact h.routing r (hreader ▸ hr)
  case sending => exact hfirst (h.sending u r (hreader ▸ hr))
  case answered =>
    dsimp only at hr
    obtain ⟨hin, hr'⟩ := h.answered u r (hstep.channel_ok hr)
    exact ⟨entered_update hstep hin, hfirst hr'⟩
  case answer =>
    dsimp only at hr
    by_cases hut : u = t
    · subst hut
      rw [Function.update_self] at hr
      rcases hstep.answer hr with hold | ⟨hpc, hsent⟩
      · exact (h.answer u id r hold).imp_right hfirst
      · obtain ⟨hin, hr'⟩ := h.answered u r hsent
        rw [hpc] at hin
        exact ⟨(Option.some.inj hin).symm, hfirst hr'⟩
    · rw [Function.update_of_ne hut] at hr
      exact (h.answer u id r hr).imp_right hfirst

omit [DecidableEq τ] in
/-- No response handled before has the id of one that finds a call. -/
theorem MatchInv.first (h : MatchInv c) {r : WireResponse} (hr : c.shared.reader = .routing r)
    (ht : c.shared.pending r.requestId = some t) : First c.shared r := by
  have hnext := h.routing r hr
  obtain ⟨hlt, hget⟩ := List.getElem?_eq_some_iff.mp hnext
  have hsplit : c.shared.responses = c.shared.responses.take c.shared.routed ++
      r :: c.shared.responses.drop (c.shared.routed + 1) := by
    rw [← hget, ← List.drop_eq_getElem_cons hlt, List.take_append_drop]
  have hbefore : (c.shared.responses.take c.shared.routed).find?
      (fun x => x.requestId == r.requestId) = none := by
    refine List.find?_eq_none.mpr fun x hx hsame => ?_
    obtain ⟨u, -, hnone⟩ := h.routed x hx
    rw [beq_iff_eq.mp hsame, ht] at hnone
    cases hnone
  rw [First, hsplit, List.find?_append, hbefore]
  simp

theorem MatchInv.reader (h : MatchInv c) (hstep : ReaderStep c.shared s') :
    MatchInv ⟨s', c.loc⟩ := by
  have hspent : ∀ {id u}, Spent c id u → Spent ⟨s', c.loc⟩ id u := fun hu => hu.reader hstep
  have hused : ∀ u, c.shared.channel u ≠ .waiting → ∃ id, Spent ⟨s', c.loc⟩ id u := by
    intro u hu
    obtain ⟨id, hid⟩ := h.used u hu
    exact ⟨id, hspent hid⟩
  have hrouted : ∀ r ∈ c.shared.responses.take c.shared.routed,
      ∃ u, Spent ⟨s', c.loc⟩ r.requestId u := by
    intro r hr
    obtain ⟨u, hu⟩ := h.routed r hr
    exact ⟨u, hspent hu⟩
  have hcalls : ∀ {id u} v, (c.loc v).todo id = some u → Spent ⟨s', c.loc⟩ id u :=
    fun v hv => hspent (h.taken _ _ (.call v hv))
  cases hstep with
  | respond extra =>
    refine ⟨h.held, fun id u hu => ?_, hused, ?_, fun r hr => ?_, fun r hr => ?_,
      fun u r hr => (h.sending u r hr).append _,
      fun u r hr => (h.answered u r hr).imp_right fun hf => hf.append _,
      fun u id r hr => (h.answer u id r hr).imp_right fun hf => hf.append _⟩
    · cases hu with
      | call v hv => exact hcalls v hv
      | reader hu => exact hspent (h.taken id u (.reader hu))
      | sending r hu hr => exact hspent (h.taken id u (.sending r hu hr))
    · exact h.routed_le.trans (by simp)
    · dsimp only at hr
      rw [List.take_append_of_le_length h.routed_le] at hr
      exact hrouted r hr
    · have hnext := h.routing r hr
      exact (List.getElem?_append_left (List.getElem?_eq_some_iff.mp hnext).1).trans hnext
  | read hreader hnext =>
    refine ⟨h.held, fun id u hu => ?_, hused, h.routed_le, hrouted, fun r' hr => ?_,
      fun u r' hr => (by cases hr), h.answered, h.answer⟩
    · cases hu with
      | call v hv => exact hcalls v hv
      | reader hu => cases hu
      | sending r hu hr => cases hu
    · cases hr
      exact hnext
  | readError err hreader | unknown hreader hnone =>
    refine ⟨h.held, fun id u hu => ?_, hused, h.routed_le, hrouted, fun r' hr => (by cases hr),
      fun u r' hr => (by cases hr), h.answered, h.answer⟩
    cases hu with
    | call v hv => exact hcalls v hv
    | reader hu => cases hu
    | sending r hu hr => cases hu
  | @route r u hreader hu =>
    have hlt := (List.getElem?_eq_some_iff.mp (h.routing r hreader)).1
    have hnew : Spent ⟨{ c.shared with
        pending := Function.update c.shared.pending r.requestId none
        reader := .sending u r
        routed := c.shared.routed + 1 }, c.loc⟩ r.requestId u :=
      ⟨CallPc.entered_of_holds (h.held _ u hu), Function.update_self ..⟩
    refine ⟨fun id v hv => ?_, fun id v hv => ?_, hused, hlt, fun r' hr => ?_,
      fun r' hr => (by cases hr), fun v r' hr => ?_, h.answered, h.answer⟩
    · have hne : id ≠ r.requestId := by
        rintro rfl
        simp at hv
      dsimp only at hv
      rw [Function.update_of_ne hne] at hv
      exact h.held id v hv
    · cases hv with
      | call v hv => exact hcalls v hv
      | reader hv => cases hv
      | sending r' hv hr =>
        cases hv
        exact hr ▸ hnew
    · dsimp only at hr
      rw [List.take_add_one, h.routing r hreader, Option.toList_some, List.mem_append,
        List.mem_singleton] at hr
      rcases hr with hr | rfl
      · exact hrouted r' hr
      · exact ⟨u, hnew⟩
    · cases hr
      exact h.first hreader hu
  | @send r u hreader =>
    have htaken := hspent (h.taken _ u (.sending r hreader rfl))
    refine ⟨h.held, fun id v hv => ?_, fun v hv => ?_, h.routed_le, hrouted,
      fun r' hr => (by cases hr), fun v r' hr => (by cases hr), fun v r' hr => ?_, h.answer⟩
    · cases hv with
      | call v hv => exact hcalls v hv
      | reader hv => cases hv
      | sending r hv hr => cases hv
    · dsimp only at hv
      by_cases hvu : v = u
      · subst hvu
        exact ⟨_, htaken⟩
      · rw [channel_send, Function.update_of_ne hvu] at hv
        exact hused v hv
    · dsimp only at hr
      by_cases hvu : v = u
      · subst hvu
        rw [channel_send, Function.update_self] at hr
        cases hr
        exact ⟨htaken.1, h.sending v r hreader⟩
      · rw [channel_send, Function.update_of_ne hvu] at hr
        exact h.answered v r' hr
  | @close s' pc pc' hreader hclose =>
    obtain ⟨-, hresponses, hroutedEq, -, -⟩ := hclose.reader
    have heffect := hclose.effect
    have hfirst : ∀ {r}, First c.shared r → First { s' with reader := .closing pc' } r := by
      intro r hr
      rwa [First, hresponses]
    have htodo : ∀ {id v}, pc.todo id = some v → Taken c id v := by
      intro id v hv
      exact .reader (by rw [hreader]; exact hv)
    refine ⟨fun id v hv => h.held id v (heffect.pending hv), fun id v hv => ?_, fun v hv => ?_,
      ?_, fun r hr => ?_, fun r hr => (by cases hr), fun v r hr => (by cases hr), fun v r hr => ?_,
      fun v id r hr => (h.answer v id r hr).imp_right hfirst⟩
    · cases hv with
      | call w hw => exact hcalls w hw
      | reader hv =>
        rcases heffect.taken hv with hold | ⟨hold, hnone⟩
        · exact hspent (h.taken id v (htodo hold))
        · exact ⟨CallPc.entered_of_holds (h.held id v hold), hnone⟩
      | sending r hv hr => cases hv
    · rcases heffect.channel v with hsame | ⟨id, err, hv', -⟩
      · exact hused v (hsame ▸ hv)
      · exact ⟨id, hspent (h.taken id v (htodo hv'))⟩
    · dsimp only
      rw [hroutedEq, hresponses]
      exact h.routed_le
    · dsimp only at hr
      rw [hroutedEq, hresponses] at hr
      exact hrouted r hr
    · dsimp only at hr
      rcases heffect.channel v with hsame | ⟨-, err, -, herr⟩
      · exact (h.answered v r (hsame ▸ hr)).imp_right hfirst
      · rw [herr] at hr
        cases hr

theorem matchInv_of_reach (hc : (sessionProgram τ).toSystem.Reach FewCalls c) : MatchInv c := by
  refine System.Reach.invariant_reach ?_ (fun c a c' hc h _ hstep => ?_) hc
  · rintro ⟨s, loc⟩ ⟨rfl, hidle⟩
    refine ⟨fun id t ht => (by cases ht), fun id t ht => ?_, fun t ht => absurd rfl ht, le_rfl,
      fun r hr => (by cases hr), fun r hr => (by cases hr), fun t r hr => (by cases hr),
      fun t r hr => (by cases hr), fun t id r hr => ?_⟩
    · cases ht with
      | call v hv =>
        rw [hidle] at hv
        cases hv
      | reader hv | sending r hv hr => cases hv
    · rw [hidle] at hr
      cases hr
  · cases hstep with
    | thread h' => exact h.thread (idInv_of_reach hc) h'
    | env h' => exact h.reader h'

/-! ### Calls in progress -/

/-- `inflight` is the number of counted calls. -/
def CountInv (c : Config τ (MultiplexedSession τ) (CallPc τ)) : Prop :=
  ∃ calls : Finset τ, (∀ t, t ∈ calls ↔ (c.loc t).isCounted = true) ∧
    c.shared.inflight = calls.card

theorem CountInv.thread (h : CountInv c) (hstep : CallStep t c.shared (c.loc t) s' pc') :
    CountInv ⟨s', Function.update c.loc t pc'⟩ := by
  obtain ⟨calls, hmem, hcard⟩ := h
  have hother : ∀ u, u ≠ t → (u ∈ calls ↔ (Function.update c.loc t pc' u).isCounted = true) := by
    intro u hu
    rw [Function.update_of_ne hu]
    exact hmem u
  rcases hstep.inflight with ⟨hcounted, hcount⟩ | ⟨hold, hnew, hcount⟩ |
    ⟨hold, hnew, hcount⟩
  · refine ⟨calls, fun u => ?_, hcount.trans hcard⟩
    by_cases hu : u = t
    · subst hu
      dsimp only
      rw [Function.update_self, hcounted]
      exact hmem u
    · exact hother u hu
  · have hnot : t ∉ calls := by
      rw [hmem, hold]
      exact Bool.false_ne_true
    refine ⟨insert t calls, fun u => ?_, ?_⟩
    · by_cases hu : u = t
      · subst hu
        simp [hnew]
      · rw [Finset.mem_insert, or_iff_right hu]
        exact hother u hu
    · rw [Finset.card_insert_of_notMem hnot, ← hcard]
      exact hcount
  · have hin : t ∈ calls := (hmem t).mpr hold
    refine ⟨calls.erase t, fun u => ?_, ?_⟩
    · by_cases hu : u = t
      · subst hu
        simp [hnew]
      · rw [Finset.mem_erase, and_iff_right hu]
        exact hother u hu
    · rw [Finset.card_erase_of_mem hin, ← hcard]
      exact hcount

theorem countInv_of_reach {ok : Config τ (MultiplexedSession τ) (CallPc τ) → τ ⊕ Unit → Prop}
    (hc : (sessionProgram τ).toSystem.Reach ok c) : CountInv c := by
  refine System.Reach.invariant ?_ (fun c a c' h _ hstep => ?_) hc
  · rintro ⟨s, loc⟩ ⟨rfl, hidle⟩
    refine ⟨∅, fun t => ?_, rfl⟩
    rw [hidle t]
    simp [CallPc.isCounted]
  · cases hstep with
    | thread h' => exact h.thread h'
    | env h' =>
      obtain ⟨calls, hmem, hcard⟩ := h
      exact ⟨calls, hmem, (ReaderStep.inflight h').trans hcard⟩

/-- **Requests match their responses.** In every state that fewer than 2^64 calls, whatever their
writes, timeouts and closes, and the responses of the peer can reach: a call that returns a
response returns the first one the peer sent with the id of the call; two calls never return the
same response; and while no call is in progress `inflight` is zero and the map is empty. -/
theorem responses_match (hc : (sessionProgram τ).toSystem.Reach FewCalls c) :
    (∀ t id r, c.loc t = .returned id (.ok r) →
      r.requestId = id ∧ c.shared.responses.find? (fun x => x.requestId == id) = some r) ∧
    (∀ t u id id' r r', t ≠ u → c.loc t = .returned id (.ok r) →
      c.loc u = .returned id' (.ok r') → r ≠ r') ∧
    ((∀ t, (c.loc t).inProgress = false) →
      c.shared.inflight = 0 ∧ ∀ id, c.shared.pending id = none) := by
  have hid := idInv_of_reach hc
  have h := matchInv_of_reach hc
  obtain ⟨calls, hmem, hcard⟩ := countInv_of_reach hc
  have hanswer : ∀ t id r, c.loc t = .returned id (.ok r) →
      r.requestId = id ∧ First c.shared r := by
    intro t id r ht
    exact h.answer t id r (by rw [ht]; rfl)
  refine ⟨fun t id r ht => ?_, fun t u id id' r r' htu ht hu => ?_,
    fun hidle => ⟨?_, fun id => ?_⟩⟩
  · obtain ⟨rfl, hfirst⟩ := hanswer t id r ht
    exact ⟨rfl, hfirst⟩
  · rintro rfl
    obtain ⟨rfl, -⟩ := hanswer t id r ht
    obtain ⟨rfl, -⟩ := hanswer u id' r hu
    exact htu (hid.unique t u _ (by rw [ht]; rfl) (by rw [hu]; rfl))
  · have hnone : calls = ∅ := by
      refine Finset.eq_empty_of_forall_notMem fun t ht => ?_
      rw [hmem] at ht
      exact Bool.false_ne_true ((hidle t).symm.trans (CallPc.inProgress_of_isCounted ht))
    rw [hcard, hnone, Finset.card_empty]
  · cases hp : c.shared.pending id with
    | none => rfl
    | some t =>
      have hholds := CallPc.inProgress_of_holds (h.held id t hp)
      rw [hidle t] at hholds
      cases hholds

/-- Two calls are written, the peer answers the second one first, and both return. -/
theorem responses_match_run : ∃ c : Config Bool (MultiplexedSession Bool) (CallPc Bool),
    c.loc true = .returned 1 (.ok ⟨1, statusHit, [7]⟩) ∧
    c.loc false = .returned 2 (.ok ⟨2, statusMiss, []⟩) ∧
    c.shared.responses.map (fun r => r.requestId) = [2, 1] ∧
    c.shared.inflight = 0 ∧ ∀ id, c.shared.pending id = none := by
  have hfst : ∀ {s : MultiplexedSession Bool} {a b : CallPc Bool}, s.nextRequestId < 2 ^ 64 →
      FewCalls ⟨s, fun t => cond t a b⟩ (.inl true) := fun h _ => h
  have hsnd : ∀ {s : MultiplexedSession Bool} {a b : CallPc Bool}, s.nextRequestId < 2 ^ 64 →
      FewCalls ⟨s, fun t => cond t a b⟩ (.inl false) := fun h _ => h
  have h₀ := session_start FewCalls
  have h₁ := session_fst h₀ (hfst (by decide)) .call
  have h₂ := session_fst h₁ (hfst (by decide)) (.check rfl)
  have h₃ := session_fst h₂ (hfst (by decide)) .allocate
  have h₄ := session_snd h₃ (hsnd (by decide)) .call
  have h₅ := session_snd h₄ (hsnd (by decide)) (.check rfl)
  have h₆ := session_snd h₅ (hsnd (by decide)) .allocate
  have h₇ := session_fst h₆ (hfst (by decide)) .insert
  have h₈ := session_fst h₇ (hfst (by decide)) .count
  have h₉ := session_snd h₈ (hsnd (by decide)) .insert
  have h₁₀ := session_snd h₉ (hsnd (by decide)) .count
  have h₁₁ := session_fst h₁₀ (hfst (by decide)) (.lockWriter rfl)
  have h₁₂ := session_fst h₁₁ (hfst (by decide)) .writeOk
  have h₁₃ := session_snd h₁₂ (hsnd (by decide)) (.lockWriter rfl)
  have h₁₄ := session_snd h₁₃ (hsnd (by decide)) .writeOk
  have h₁₅ := session_reader h₁₄ trivial (.respond ⟨2, statusMiss, []⟩)
  have h₁₆ := session_reader h₁₅ trivial (.respond ⟨1, statusHit, [7]⟩)
  have h₁₇ := session_reader h₁₆ trivial (.read rfl rfl)
  have h₁₈ := session_reader h₁₇ trivial (.route rfl rfl)
  have h₁₉ := session_reader h₁₈ trivial (.send rfl)
  have h₂₀ := session_snd h₁₉ (hsnd (by decide)) (.receive rfl)
  have h₂₁ := session_snd h₂₀ (hsnd (by decide)) .uncount
  have h₂₂ := session_reader h₂₁ trivial (.read rfl rfl)
  have h₂₃ := session_reader h₂₂ trivial (.route rfl rfl)
  have h₂₄ := session_reader h₂₃ trivial (.send rfl)
  have h₂₅ := session_fst h₂₄ (hfst (by decide)) (.receive rfl)
  have h₂₆ := session_fst h₂₅ (hfst (by decide)) .uncount
  have hidle := (responses_match h₂₆).2.2 fun t => by cases t <;> rfl
  exact ⟨_, rfl, rfl, rfl, hidle.1, hidle.2⟩

end MultiplexedSession

end DistillFs
