import DistillFs.Backend.Peer.Session

/-!
# Closed sessions

`close` sets the flag and then takes the map, and answers every call it finds there. A call looks
at the flag first and registers later, without looking again, so it may register after the map was
taken (`caller_stranded`): nobody closes the session a second time, and if the reader has stopped
nobody takes the entry out, so the call waits for its timeout. When calls register before the map is
taken, nobody is left behind (`no_caller_stranded`).

## Main definitions

* `Drained`, `CloseFinished`: the map was taken, and every call in it was answered.
* `InsertsBeforeDrain`: the condition on runs.
* `Attended`: the call has its answer, or somebody has its sender.

## Main results

* `no_caller_stranded`: a closed session has an empty map, and its callers are answered.
* `caller_stranded`: a run in which a call registers on a closed session.
-/

namespace DistillFs

open Foundation

section Effects

variable {τ : Type*} [DecidableEq τ] {t : τ} {s s' : MultiplexedSession τ} {pc pc' : CallPc τ}
  {todo todo' : UInt64 → Option τ} {draining draining' : Bool}

/-- A sender in the map stays there, or the task takes it. -/
theorem CloseEffect.pending_or_todo (h : CloseEffect s s' todo todo' draining draining')
    {id : UInt64} {u : τ} (hu : s.pending id = some u) :
    s'.pending id = some u ∨ todo' id = some u := by
  cases h with
  | keep hpending => exact Or.inl (by rwa [hpending])
  | swap hs | send _ _ _ hs =>
    subst hs
    exact Or.inl hu
  | drain _ _ _ htodo' =>
    subst htodo'
    exact Or.inr hu

/-- A channel in use stays in use. -/
theorem CloseEffect.channel_ne (h : CloseEffect s s' todo todo' draining draining') {u : τ}
    (hu : s.channel u ≠ .waiting) : s'.channel u ≠ .waiting := by
  cases h with
  | keep _ hchannel => rwa [hchannel]
  | swap hs | drain hs =>
    subst hs
    exact hu
  | send _ v _ hs =>
    subst hs
    by_cases huv : u = v
    · subst huv
      simp
    · rwa [MultiplexedSession.channel_send, Function.update_of_ne huv]

/-- The task keeps a sender until it uses it. -/
theorem CloseEffect.todo_or_channel (h : CloseEffect s s' todo todo' draining draining')
    {id : UInt64} {u : τ} (hu : todo id = some u) :
    todo' id = some u ∨ s'.channel u ≠ .waiting := by
  cases h with
  | keep _ _ _ htodo | swap _ _ htodo =>
    subst htodo
    exact Or.inl hu
  | drain _ _ htodo =>
    subst htodo
    cases hu
  | send id' v err hs hv htodo =>
    subst hs htodo
    by_cases hid : id = id'
    · subst hid
      rw [hv] at hu
      cases hu
      exact Or.inr (by simp)
    · exact Or.inl (by rwa [Function.update_of_ne hid])

/-- A call comes into the map by its own entry. -/
theorem CallStep.holds (h : CallStep t s pc s' pc') {id : UInt64} (hu : pc'.holds = some id) :
    pc.holds = some id ∨ s'.pending id = some t := by
  cases h.effect with
  | close hholds => exact Or.inl (hholds.symm.trans hu)
  | insert id' _ hpc' hs =>
    subst hs hpc'
    cases hu
    exact Or.inr (Function.update_self ..)
  | remove _ _ _ hholds | receive _ _ _ _ hholds =>
    rw [hholds] at hu
    cases hu

end Effects

namespace MultiplexedSession

variable {τ : Type*} [DecidableEq τ] {c : Config τ (MultiplexedSession τ) (CallPc τ)} {t u : τ}
  {s' : MultiplexedSession τ} {pc' : CallPc τ} {id : UInt64}

/-- A task has set the flag and is about to take the map. -/
def Draining (c : Config τ (MultiplexedSession τ) (CallPc τ)) : Prop :=
  (∃ t, (c.loc t).draining = true) ∨ c.shared.reader.draining = true

/-- The session is closed and its map was taken. -/
def Drained (c : Config τ (MultiplexedSession τ) (CallPc τ)) : Prop :=
  c.shared.closed = true ∧ ¬Draining c

/-- The session is closed, its map was taken, and every sender in it was used. -/
def CloseFinished (c : Config τ (MultiplexedSession τ) (CallPc τ)) : Prop :=
  Drained c ∧ (∀ t id, (c.loc t).todo id = none) ∧ ∀ id, c.shared.reader.todo id = none

/-- A call that is about to register does so before the map is taken. -/
def InsertsBeforeDrain (c : Config τ (MultiplexedSession τ) (CallPc τ)) : τ ⊕ Unit → Prop
  | .inl t => ∀ id, c.loc t = .allocated id → ¬Drained c
  | .inr _ => True

omit [DecidableEq τ] in
theorem not_draining (h : ¬Draining c) (t : τ) : (c.loc t).draining = false := by
  cases ht : (c.loc t).draining with
  | false => rfl
  | true => exact absurd (Or.inl ⟨t, ht⟩) h

/-- Whether a task is about to take the map depends on the others and on the one that moves. -/
theorem draining_update (hreader : s'.reader = c.shared.reader)
    (hpc : pc'.draining = (c.loc t).draining) :
    Draining ⟨s', Function.update c.loc t pc'⟩ ↔ Draining c := by
  have hloc : ∀ u, (Function.update c.loc t pc' u).draining = (c.loc u).draining := by
    intro u
    by_cases hu : u = t
    · rw [hu, Function.update_self, hpc]
    · rw [Function.update_of_ne hu]
  simp only [Draining, hloc, hreader]

/-- Once the map was taken it stays so: the flag lets no task take it again. -/
theorem Drained.thread (h : Drained c) (hstep : CallStep t c.shared (c.loc t) s' pc') :
    Drained ⟨s', Function.update c.loc t pc'⟩ := by
  obtain ⟨hclosed, hnot⟩ := h
  have hreader := hstep.reader.1
  cases hstep.effect with
  | close _ heffect =>
    cases heffect with
    | keep _ _ hsame _ hdraining =>
      exact ⟨hsame.trans hclosed, (draining_update hreader hdraining).not.mpr hnot⟩
    | swap _ hopen =>
      rw [hclosed] at hopen
      cases hopen
    | drain _ hdraining =>
      rw [not_draining hnot t] at hdraining
      cases hdraining
    | send _ _ _ hs _ _ hdraining =>
      subst hs
      exact ⟨hclosed, (draining_update hreader hdraining).not.mpr hnot⟩
  | insert _ hpc hpc' hs =>
    subst hs hpc'
    exact ⟨hclosed, (draining_update hreader (by rw [hpc]; rfl)).not.mpr hnot⟩
  | remove _ _ hs _ _ hdraining | receive _ _ _ hs _ _ hdraining =>
    subst hs
    exact ⟨hclosed, (draining_update hreader hdraining).not.mpr hnot⟩

omit [DecidableEq τ] in
/-- Whether a task is about to take the map, when the reader moves. -/
theorem draining_reader (hreader : s'.reader.draining = c.shared.reader.draining) :
    Draining ⟨s', c.loc⟩ ↔ Draining c := by
  simp only [Draining, hreader]

theorem Drained.reader (h : Drained c) (hstep : ReaderStep c.shared s') :
    Drained ⟨s', c.loc⟩ := by
  obtain ⟨hclosed, hnot⟩ := h
  cases hstep with
  | respond => exact ⟨hclosed, hnot⟩
  | read hreader | readError _ hreader | route hreader | unknown hreader | send hreader =>
    exact ⟨hclosed, (draining_reader (by rw [hreader]; rfl)).not.mpr hnot⟩
  | @close s' pc pc' hreader hclose =>
    have hpc : pc.draining = false := by
      cases hd : pc.draining with
      | false => rfl
      | true => exact absurd (Or.inr (by rw [hreader]; exact hd)) hnot
    cases hclose.effect with
    | keep _ _ hsame _ hdraining =>
      exact ⟨hsame.trans hclosed,
        (draining_reader (by rw [hreader]; exact hdraining)).not.mpr hnot⟩
    | swap _ hopen =>
      rw [hclosed] at hopen
      cases hopen
    | drain _ hdraining =>
      rw [hpc] at hdraining
      cases hdraining
    | send _ _ _ hs _ _ hdraining =>
      subst hs
      exact ⟨hclosed, (draining_reader (by rw [hreader]; exact hdraining)).not.mpr hnot⟩

theorem Drained.step {a : τ ⊕ Unit} {c' : Config τ (MultiplexedSession τ) (CallPc τ)}
    (h : Drained c) (hstep : (sessionProgram τ).Step c a c') : Drained c' := by
  cases hstep with
  | thread h' => exact h.thread h'
  | env h' => exact h.reader h'

/-! ### The map of a closed session -/

/-- After the map was taken it is empty. -/
def EmptyInv (c : Config τ (MultiplexedSession τ) (CallPc τ)) : Prop :=
  Drained c → ∀ id, c.shared.pending id = none

theorem EmptyInv.thread (h : EmptyInv c) (hok : InsertsBeforeDrain c (.inl t))
    (hstep : CallStep t c.shared (c.loc t) s' pc') :
    EmptyInv ⟨s', Function.update c.loc t pc'⟩ := by
  rintro ⟨hclosed, hnot⟩ id
  have hreader := hstep.reader.1
  dsimp only at hclosed ⊢
  cases hstep.effect with
  | close _ heffect =>
    cases heffect with
    | keep hpending _ hsame _ hdraining =>
      rw [hpending]
      exact h ⟨hsame.symm.trans hclosed, (draining_update hreader hdraining).not.mp hnot⟩ id
    | swap _ _ _ hdraining =>
      exact absurd (Or.inl ⟨t, by simpa using hdraining⟩) hnot
    | drain hs =>
      subst hs
      rfl
    | send _ _ _ hs _ _ hdraining =>
      subst hs
      exact h ⟨hclosed, (draining_update hreader hdraining).not.mp hnot⟩ id
  | insert id' hpc hpc' hs =>
    subst hs hpc'
    have hdrained : Drained c :=
      ⟨hclosed, (draining_update hreader (by rw [hpc]; rfl)).not.mp hnot⟩
    exact absurd hdrained (hok id' hpc)
  | remove id' _ hs _ _ hdraining =>
    subst hs
    have hnone := h ⟨hclosed, (draining_update hreader hdraining).not.mp hnot⟩ id
    simp only [pending_removePending, Function.update_apply, hnone, ite_self]
  | receive _ _ _ hs _ _ hdraining =>
    subst hs
    exact h ⟨hclosed, (draining_update hreader hdraining).not.mp hnot⟩ id

theorem EmptyInv.reader (h : EmptyInv c) (hstep : ReaderStep c.shared s') :
    EmptyInv ⟨s', c.loc⟩ := by
  rintro ⟨hclosed, hnot⟩ id
  dsimp only at hclosed ⊢
  cases hstep with
  | respond => exact h ⟨hclosed, hnot⟩ id
  | read hreader | readError _ hreader | unknown hreader | send hreader =>
    exact h ⟨hclosed, (draining_reader (by rw [hreader]; rfl)).not.mp hnot⟩ id
  | route hreader =>
    have hnone := h ⟨hclosed, (draining_reader (by rw [hreader]; rfl)).not.mp hnot⟩ id
    simp only [Function.update_apply, hnone, ite_self]
  | close hreader hclose =>
    cases hclose.effect with
    | keep hpending _ hsame _ hdraining =>
      dsimp only
      rw [hpending]
      exact h ⟨hsame.symm.trans hclosed,
        (draining_reader (by rw [hreader]; exact hdraining)).not.mp hnot⟩ id
    | swap _ _ _ hdraining => exact absurd (Or.inr hdraining) hnot
    | drain hs =>
      subst hs
      rfl
    | send _ _ _ hs _ _ hdraining =>
      subst hs
      exact h ⟨hclosed, (draining_reader (by rw [hreader]; exact hdraining)).not.mp hnot⟩ id

/-! ### Callers that wait -/

/-- The call has its answer, or somebody has its sender. -/
def Attended (c : Config τ (MultiplexedSession τ) (CallPc τ)) (id : UInt64) (u : τ) : Prop :=
  c.shared.channel u ≠ .waiting ∨ c.shared.pending id = some u ∨ Taken c id u

/-- A sender that goes out of the map is used, dropped, or taken by a task. -/
theorem Attended.thread (h : Attended c id u) (hstep : CallStep t c.shared (c.loc t) s' pc') :
    Attended ⟨s', Function.update c.loc t pc'⟩ id u := by
  have hreader := hstep.reader.1
  -- the senders of the other tasks stay, so it is enough to look at the map and at `t`
  suffices hmove : (c.shared.channel u ≠ .waiting → s'.channel u ≠ .waiting) ∧
      (c.shared.pending id = some u → s'.channel u ≠ .waiting ∨ s'.pending id = some u ∨
        pc'.todo id = some u) ∧
      ((c.loc t).todo id = some u → pc'.todo id = some u ∨ s'.channel u ≠ .waiting) by
    have hnew : pc'.todo id = some u → Taken ⟨s', Function.update c.loc t pc'⟩ id u :=
      fun hu => .call t (by simpa using hu)
    obtain ⟨hchannel, hpending, htodo⟩ := hmove
    rcases h with hu | hu | hu
    · exact Or.inl (hchannel hu)
    · exact (hpending hu).imp_right fun hu => hu.imp_right hnew
    · cases hu with
      | call v hv =>
        by_cases hvt : v = t
        · subst hvt
          exact (htodo hv).symm.imp_right fun hu => Or.inr (hnew hu)
        · refine Or.inr (Or.inr (.call v ?_))
          dsimp only
          rwa [Function.update_of_ne hvt]
      | reader hu => exact Or.inr (Or.inr (.reader (hreader ▸ hu)))
      | sending r hu hr => exact Or.inr (Or.inr (.sending r (hreader.trans hu) hr))
  have hdrop : ∀ o, c.shared.channel u ≠ .waiting →
      dropSender c.shared.channel o u ≠ .waiting := by
    intro o hu
    rcases dropSender_cases c.shared.channel o u with hsame | ⟨-, hdropped⟩
    · rwa [hsame]
    · rw [hdropped]
      exact Channel.noConfusion
  cases hstep.effect with
  | close _ heffect =>
    exact ⟨heffect.channel_ne, fun hu => Or.inr (heffect.pending_or_todo hu),
      heffect.todo_or_channel⟩
  | insert id' hpc hpc' hs =>
    subst hs
    refine ⟨hdrop _, fun hu => ?_, fun hu => ?_⟩
    · by_cases hid : id = id'
      · subst hid
        rw [channel_insertPending, hu]
        exact Or.inl (by simp [dropSender])
      · rw [pending_insertPending, Function.update_of_ne hid]
        exact Or.inr (Or.inl hu)
    · rw [hpc] at hu
      cases hu
  | remove id' _ hs _ htodo =>
    subst hs
    refine ⟨hdrop _, fun hu => ?_, fun hu => Or.inl (htodo ▸ hu)⟩
    by_cases hid : id = id'
    · subst hid
      rw [channel_removePending, hu]
      exact Or.inl (by simp [dropSender])
    · rw [pending_removePending, Function.update_of_ne hid]
      exact Or.inr (Or.inl hu)
  | receive _ _ _ hs _ htodo =>
    subst hs
    exact ⟨fun hu => hu, fun hu => Or.inr (Or.inl hu), fun hu => Or.inl (htodo ▸ hu)⟩

theorem Attended.reader (h : Attended c id u) (hstep : ReaderStep c.shared s') :
    Attended ⟨s', c.loc⟩ id u := by
  have hcalls : ∀ {v}, (c.loc v).todo id = some u → Attended ⟨s', c.loc⟩ id u :=
    fun hv => Or.inr (Or.inr (.call _ hv))
  cases hstep with
  | respond =>
    refine h.imp_right fun hu => hu.imp_right fun hu => ?_
    cases hu with
    | call v hv => exact .call v hv
    | reader hu => exact .reader hu
    | sending r hu hr => exact .sending r hu hr
  | read hreader | readError _ hreader | unknown hreader =>
    refine h.imp_right fun hu => hu.imp_right fun hu => ?_
    cases hu with
    | call v hv => exact .call v hv
    | reader hu =>
      rw [hreader] at hu
      cases hu
    | sending r hu =>
      rw [hreader] at hu
      cases hu
  | @route r v hreader hv =>
    rcases h with hu | hu | hu
    · exact Or.inl hu
    · by_cases hid : id = r.requestId
      · subst hid
        rw [hv] at hu
        cases hu
        exact Or.inr (Or.inr (.sending r rfl rfl))
      · exact Or.inr (Or.inl ((Function.update_of_ne hid ..).trans hu))
    · cases hu with
      | call v hv => exact hcalls hv
      | reader hu =>
        rw [hreader] at hu
        cases hu
      | sending r hu =>
        rw [hreader] at hu
        cases hu
  | @send r v hreader =>
    have hsent : u = v → (c.shared.send v (.ok r)).channel u ≠ .waiting := by
      rintro rfl
      simp
    rcases h with hu | hu | hu
    · by_cases huv : u = v
      · exact Or.inl (hsent huv)
      · refine Or.inl ?_
        dsimp only
        rwa [channel_send, Function.update_of_ne huv]
    · exact Or.inr (Or.inl hu)
    · cases hu with
      | call v hv => exact hcalls hv
      | reader hu =>
        rw [hreader] at hu
        cases hu
      | sending r hu =>
        rw [hreader] at hu
        cases hu
        exact Or.inl (hsent rfl)
  | @close s' pc pc' hreader hclose =>
    have heffect := hclose.effect
    rcases h with hu | hu | hu
    · exact Or.inl (heffect.channel_ne hu)
    · exact Or.inr ((heffect.pending_or_todo hu).imp_right fun hu => .reader hu)
    · cases hu with
      | call v hv => exact hcalls hv
      | reader hu =>
        rw [hreader] at hu
        exact (heffect.todo_or_channel hu).symm.imp_right fun hu => Or.inr (.reader hu)
      | sending r hu =>
        rw [hreader] at hu
        cases hu

/-- In every run, a registered call has its answer, or somebody has its sender. -/
theorem attended_of_reach {ok : Config τ (MultiplexedSession τ) (CallPc τ) → τ ⊕ Unit → Prop}
    (hc : (sessionProgram τ).toSystem.Reach ok c) :
    ∀ u id, (c.loc u).holds = some id → Attended c id u := by
  refine System.Reach.invariant (I := fun c => ∀ u id, (c.loc u).holds = some id → Attended c id u)
    ?_ (fun c a c' h _ hstep u id hu => ?_) hc
  · rintro ⟨s, loc⟩ ⟨rfl, hidle⟩ u id hu
    rw [hidle] at hu
    cases hu
  · cases hstep with
    | env h' => exact (h u id hu).reader h'
    | thread h' =>
      rename_i t _ _ _
      dsimp only at hu
      by_cases hut : u = t
      · subst hut
        rw [Function.update_self] at hu
        rcases CallStep.holds h' hu with hold | hin
        · exact (h u id hold).thread h'
        · exact Or.inr (Or.inl hin)
      · rw [Function.update_of_ne hut] at hu
        exact (h u id hu).thread h'

/-! ### Closing -/

/-- **A closed session strands nobody, if calls register before its map is taken.** In the runs in
which no call registers after the map of the closed session was taken: once it was taken, it is
empty, and stays so; once every sender in it was used, each call that waits has been sent its
result, or the reader is about to send it; and a call that starts is refused. -/
theorem no_caller_stranded (hc : (sessionProgram τ).toSystem.Reach InsertsBeforeDrain c)
    (hclosed : Drained c) :
    (∀ id, c.shared.pending id = none) ∧
    (∀ a c', (sessionProgram τ).Step c a c' → Drained c') ∧
    (CloseFinished c → ∀ t id, c.loc t = .waiting id →
      c.shared.channel t ≠ .waiting ∨ ∃ r, c.shared.reader = .sending t r) ∧
    (∀ t s' pc', c.loc t = .called → CallStep t c.shared (c.loc t) s' pc' →
      pc' = .refused sessionClosed) := by
  have hempty : EmptyInv c := by
    refine System.Reach.invariant ?_ (fun c a c' h hok hstep => ?_) hc
    · rintro ⟨s, loc⟩ ⟨rfl, -⟩ hdrained
      cases hdrained.1
    · cases hstep with
      | thread h' => exact h.thread hok h'
      | env h' => exact h.reader h'
  refine ⟨hempty hclosed, fun a c' hstep => hclosed.step hstep, fun hdone t id ht => ?_,
    fun t s' pc' ht hstep => ?_⟩
  · obtain ⟨-, hcalls, hreader⟩ := hdone
    rcases attended_of_reach hc t id (by rw [ht]; rfl) with hu | hu | hu
    · exact Or.inl hu
    · rw [hempty hclosed] at hu
      cases hu
    · cases hu with
      | call v hv =>
        rw [hcalls] at hv
        cases hv
      | reader hu =>
        rw [hreader] at hu
        cases hu
      | sending r hu => exact Or.inr ⟨r, hu⟩
  · rw [ht] at hstep
    cases hstep with
    | refuse => rfl
    | check hopen =>
      rw [hclosed.1] at hopen
      cases hopen

omit [DecidableEq τ] in
private theorem not_draining_two {s : MultiplexedSession Bool} {a b : CallPc Bool}
    (ha : a.draining = false) (hb : b.draining = false) (hs : s.reader.draining = false) :
    ¬Draining ⟨s, fun t => cond t a b⟩ := by
  rintro (⟨t, ht⟩ | ht)
  · cases t
    · exact Bool.false_ne_true (hb.symm.trans ht)
    · exact Bool.false_ne_true (ha.symm.trans ht)
  · exact Bool.false_ne_true (hs.symm.trans ht)

/-- A call registers, is written, and waits; then the read fails and the reader closes the
session. -/
theorem no_caller_stranded_run : ∃ c : Config Bool (MultiplexedSession Bool) (CallPc Bool),
    c.loc true = .waiting 1 ∧ c.shared.closed = true ∧
    c.shared.channel true = .sent (.error ⟨.unexpectedEof, "early eof"⟩) ∧
    ∀ id, c.shared.pending id = none := by
  have hopen : ∀ {s : MultiplexedSession Bool} {loc : Bool → CallPc Bool} {t : Bool},
      s.closed = false → InsertsBeforeDrain ⟨s, loc⟩ (.inl t) := by
    intro s loc t hs id _ hdrained
    have hclosed := hdrained.1
    dsimp only at hclosed
    rw [hs] at hclosed
    cases hclosed
  let err : IoError := ⟨.unexpectedEof, "early eof"⟩
  have h₀ := session_start InsertsBeforeDrain
  have h₁ := session_fst h₀ (hopen rfl) .call
  have h₂ := session_fst h₁ (hopen rfl) (.check rfl)
  have h₃ := session_fst h₂ (hopen rfl) .allocate
  have h₄ := session_fst h₃ (hopen rfl) .insert
  have h₅ := session_fst h₄ (hopen rfl) .count
  have h₆ := session_fst h₅ (hopen rfl) (.lockWriter rfl)
  have h₇ := session_fst h₆ (hopen rfl) .writeOk
  have h₈ := session_reader h₇ trivial (.readError err rfl)
  have h₉ := session_reader h₈ trivial (.close rfl (.swap rfl))
  have h₁₀ := session_reader h₉ trivial (.close rfl .drain)
  have h₁₁ := session_reader h₁₀ trivial (.close rfl (.send 1 rfl))
  have h₁₂ := session_reader h₁₁ trivial (.close rfl (.finish fun id => by
    by_cases hid : id = 1
    · rw [hid, Function.update_self]
    · rw [Function.update_of_ne hid]
      exact Function.update_of_ne hid ..))
  have hempty := no_caller_stranded h₁₂ ⟨rfl, not_draining_two rfl rfl rfl⟩
  exact ⟨_, rfl, rfl, rfl, hempty.1⟩

/-- A call sees the session open. The read fails, and the reader closes the session, which has no
calls, and stops. Then the call registers and writes its request. It waits, and nobody will answer
it or take its entry out before its timeout. -/
theorem caller_stranded : ∃ c : Config Bool (MultiplexedSession Bool) (CallPc Bool),
    (sessionProgram Bool).toSystem.Reachable c ∧ CloseFinished c ∧
    c.shared.reader = .closing .done ∧ c.shared.pending 1 = some true ∧
    c.loc true = .waiting 1 ∧ c.shared.channel true = .waiting := by
  have h₀ := session_start fun _ _ => True
  have h₁ := session_fst h₀ trivial .call
  have h₂ := session_fst h₁ trivial (.check rfl)
  have h₃ := session_fst h₂ trivial .allocate
  have h₄ := session_reader h₃ trivial (.readError ⟨.unexpectedEof, "early eof"⟩ rfl)
  have h₅ := session_reader h₄ trivial (.close rfl (.swap rfl))
  have h₆ := session_reader h₅ trivial (.close rfl .drain)
  have h₇ := session_reader h₆ trivial (.close rfl (.finish fun _ => rfl))
  have h₈ := session_fst h₇ trivial .insert
  have h₉ := session_fst h₈ trivial .count
  have h₁₀ := session_fst h₉ trivial (.lockWriter rfl)
  have h₁₁ := session_fst h₁₀ trivial .writeOk
  refine ⟨_, h₁₁, ⟨⟨rfl, not_draining_two rfl rfl rfl⟩, fun t id => ?_, fun _ => rfl⟩,
    rfl, rfl, rfl, rfl⟩
  cases t <;> rfl

end MultiplexedSession

end DistillFs
