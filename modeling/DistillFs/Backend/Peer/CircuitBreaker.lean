import DistillFs.Foundation.Transition

/-!
# The circuit breaker of the local client

A node that cannot reach its chunk server stops trying for a while. Every request that fails opens
the breaker and leaves the time, every one that is answered closes it, and a task in the background
probes the server on its own. A call first asks the breaker, and is rejected if the breaker is open
and the last failure is less than the cooldown ago.

The flag and the time are two atomics. A failure reads the clock, stores the time and then sets the
flag; a call loads the flag, the time and the clock. Other tasks come in between: a failure that is
slow to store its time can put an older one over that of a later failure.

A task makes one request here, either a call or a probe. A batch without checksums counts as
answered; the code does not send it.

## Main definitions

* `CircuitBreaker`, `BreakerPc`, `BreakerStep`, `breakerProgram`: the requests of a client.
* `NoSuccess`: nobody records that the server has answered.

## Main results

* `breaker_rejects_after_failure`: a call is rejected for a failure of the last moments only.
* `breaker_spares_server`: no call goes to a server that is down before the cooldown is over.
-/

namespace DistillFs

open Foundation

/-- A breaker with the clock of its `epoch`, in milliseconds. -/
structure CircuitBreaker (τ : Type*) where
  isOpen : Bool
  lastFailureMs : ℕ
  clock : ℕ
  /-- The times that failures have stored, in order. -/
  failures : List ℕ
  /-- The calls that went on to the server, with the times at which they did. -/
  sent : List (τ × ℕ)

/-- Where a request stands. -/
inductive BreakerPc
  | idle
  /-- It is in `should_reject`. -/
  | checking
  | sawOpen
  | sawLast (last : ℕ)
  | rejected (last now : ℕ)
  | sending
  /-- It is about to call `record_success`. -/
  | succeeded
  /-- It is about to call `record_failure`. -/
  | failed
  | stamped (now : ℕ)
  | stored
  | returned
  deriving DecidableEq

section Steps

variable {τ : Type*}

/-- The steps of a request. -/
inductive BreakerStep (cooldown : ℕ) (t : τ) :
    CircuitBreaker τ → BreakerPc → CircuitBreaker τ → BreakerPc → Prop
  | call {s : CircuitBreaker τ} : BreakerStep cooldown t s .idle s .checking
  | probe {s : CircuitBreaker τ} : BreakerStep cooldown t s .idle s .sending
  | closed {s : CircuitBreaker τ} (h : s.isOpen = false) :
      BreakerStep cooldown t s .checking { s with sent := s.sent ++ [(t, s.clock)] } .sending
  | loadOpen {s : CircuitBreaker τ} (h : s.isOpen = true) :
      BreakerStep cooldown t s .checking s .sawOpen
  | loadLast {s : CircuitBreaker τ} :
      BreakerStep cooldown t s .sawOpen s (.sawLast s.lastFailureMs)
  | reject {s : CircuitBreaker τ} {last : ℕ} (h : s.clock - last < cooldown) :
      BreakerStep cooldown t s (.sawLast last) s (.rejected last s.clock)
  | cooledDown {s : CircuitBreaker τ} {last : ℕ} (h : ¬s.clock - last < cooldown) :
      BreakerStep cooldown t s (.sawLast last) { s with sent := s.sent ++ [(t, s.clock)] } .sending
  | answered {s : CircuitBreaker τ} : BreakerStep cooldown t s .sending s .succeeded
  | unanswered {s : CircuitBreaker τ} : BreakerStep cooldown t s .sending s .failed
  | recordSuccess {s : CircuitBreaker τ} :
      BreakerStep cooldown t s .succeeded { s with isOpen := false } .returned
  | readClock {s : CircuitBreaker τ} : BreakerStep cooldown t s .failed s (.stamped s.clock)
  | storeLast {s : CircuitBreaker τ} {now : ℕ} :
      BreakerStep cooldown t s (.stamped now)
        { s with
          lastFailureMs := now
          failures := s.failures ++ [now] }
        .stored
  | storeOpen {s : CircuitBreaker τ} :
      BreakerStep cooldown t s .stored { s with isOpen := true } .returned

/-- The requests of a client; time passes at any rate. -/
def breakerProgram (τ : Type*) (cooldown : ℕ) : Program τ Unit (CircuitBreaker τ) BreakerPc where
  init c := c.shared = ⟨false, 0, 0, [], []⟩ ∧ ∀ t, c.loc t = .idle
  step := BreakerStep cooldown
  env _ s s' := ∃ time, s.clock ≤ time ∧ s' = { s with clock := time }

/-- No request records a success. -/
def NoSuccess (c : Config τ (CircuitBreaker τ) BreakerPc) (a : τ ⊕ Unit) : Prop :=
  ∀ t, a = .inl t → c.loc t ≠ .succeeded

end Steps

namespace CircuitBreaker

variable {τ : Type*} {cooldown : ℕ} {s s' : CircuitBreaker τ} {pc pc' pcu : BreakerPc} {t u : τ}

/-! ### Rejections -/

/-- An open breaker knows a failure, and no failure is in the future. -/
structure Inv (s : CircuitBreaker τ) : Prop where
  last_mem : s.failures ≠ [] → s.lastFailureMs ∈ s.failures
  failures_ne_nil : s.isOpen = true → s.failures ≠ []
  le_clock : ∀ time ∈ s.failures, time ≤ s.clock

/-- What a request knows of the failures. -/
def Own (cooldown : ℕ) (t : τ) (s : CircuitBreaker τ) : BreakerPc → Prop
  | .idle | .checking => ∀ time, (t, time) ∉ s.sent
  | .sawOpen => (∀ time, (t, time) ∉ s.sent) ∧ s.failures ≠ []
  | .sawLast last => (∀ time, (t, time) ∉ s.sent) ∧ last ∈ s.failures
  | .rejected last now => last ∈ s.failures ∧ last ≤ now ∧ now < last + cooldown
  | .stamped now => now ≤ s.clock
  | .stored => s.failures ≠ []
  | _ => True

theorem Inv.step (hinv : s.Inv) (hown : s.Own cooldown t pc)
    (h : BreakerStep cooldown t s pc s' pc') : s'.Inv ∧ s'.Own cooldown t pc' := by
  cases h with
  | call => exact ⟨hinv, hown⟩
  | probe | answered | unanswered => exact ⟨hinv, trivial⟩
  | closed | cooledDown =>
    exact ⟨⟨hinv.last_mem, hinv.failures_ne_nil, hinv.le_clock⟩, trivial⟩
  | loadOpen hopen => exact ⟨hinv, hown, hinv.failures_ne_nil hopen⟩
  | loadLast => exact ⟨hinv, hown.1, hinv.last_mem hown.2⟩
  | reject hlt =>
    have hle := hinv.le_clock _ hown.2
    exact ⟨hinv, hown.2, hle, by omega⟩
  | recordSuccess => exact ⟨⟨hinv.last_mem, nofun, hinv.le_clock⟩, trivial⟩
  | readClock => exact ⟨hinv, le_rfl⟩
  | @storeLast now =>
    refine ⟨⟨fun _ => List.mem_append_right _ (List.mem_singleton_self now),
      fun _ => List.append_ne_nil_of_right_ne_nil _ (List.cons_ne_nil now []), ?_⟩,
      List.append_ne_nil_of_right_ne_nil _ (List.cons_ne_nil now [])⟩
    exact List.forall_mem_append.mpr ⟨hinv.le_clock, List.forall_mem_singleton.mpr hown⟩
  | storeOpen => exact ⟨⟨hinv.last_mem, fun _ => hown, hinv.le_clock⟩, trivial⟩

/-- What one request knows stays true when the failures grow, time passes and others are sent. -/
theorem Own.mono (hown : s.Own cooldown u pcu) (hclock : s.clock ≤ s'.clock)
    (hfailures : s.failures ⊆ s'.failures)
    (hsent : ∀ time, (u, time) ∈ s'.sent → (u, time) ∈ s.sent) :
    s'.Own cooldown u pcu := by
  have hnotSent (h : ∀ time, (u, time) ∉ s.sent) : ∀ time, (u, time) ∉ s'.sent :=
    fun time hin => h time (hsent time hin)
  have hne (h : s.failures ≠ []) : s'.failures ≠ [] := fun hnil =>
    h (List.subset_nil.mp (hnil ▸ hfailures))
  cases pcu with
  | idle | checking => exact hnotSent hown
  | sawOpen => exact ⟨hnotSent hown.1, hne hown.2⟩
  | sawLast last => exact ⟨hnotSent hown.1, hfailures hown.2⟩
  | rejected last now => exact ⟨hfailures hown.1, hown.2⟩
  | stamped now => exact hown.trans hclock
  | stored => exact hne hown
  | sending | succeeded | failed | returned => trivial

/-- A step of a request forgets no failure and sends only the request itself. -/
theorem frame_of_step (h : BreakerStep cooldown t s pc s' pc') :
    s'.clock = s.clock ∧ s.failures ⊆ s'.failures ∧
      ∀ p ∈ s'.sent, p ∈ s.sent ∨ p = (t, s.clock) ∧ pc' = .sending := by
  cases h with
  | closed | cooledDown =>
    refine ⟨rfl, List.Subset.refl _, fun p hp => ?_⟩
    exact (List.mem_append.mp hp).imp_right fun h => ⟨List.mem_singleton.mp h, rfl⟩
  | storeLast => exact ⟨rfl, List.subset_append_left _ _, fun p hp => Or.inl hp⟩
  | _ => exact ⟨rfl, List.Subset.refl _, fun p hp => Or.inl hp⟩

theorem Own.other (hown : s.Own cooldown u pcu) (hne : u ≠ t)
    (h : BreakerStep cooldown t s pc s' pc') : s'.Own cooldown u pcu := by
  obtain ⟨hclock, hfailures, hsent⟩ := frame_of_step h
  refine hown.mono hclock.ge hfailures fun time hin => (hsent _ hin).resolve_right fun heq => ?_
  exact hne (congrArg Prod.fst heq.1)

variable [DecidableEq τ] {c : Config τ (CircuitBreaker τ) BreakerPc}

theorem holds_of_reach {ok : Config τ (CircuitBreaker τ) BreakerPc → τ ⊕ Unit → Prop}
    (hc : (breakerProgram τ cooldown).toSystem.Reach ok c) :
    Program.Holds Inv (Own cooldown) c := by
  refine Program.invariant (fun c hinit => ?_)
    (fun c t s' pc' hholds _ h => hholds.1.step (hholds.2 t) h)
    (fun c t u s' pc' hholds _ hne h => (hholds.2 u).other hne h)
    (fun c _ s' hholds _ h => ?_) hc
  · refine ⟨?_, fun t => ?_⟩
    · rw [hinit.1]
      exact ⟨fun h => absurd rfl h, nofun, fun _ h => absurd h List.not_mem_nil⟩
    · rw [hinit.1, hinit.2 t]
      exact fun _ h => absurd h List.not_mem_nil
  · obtain ⟨time, hle, rfl⟩ := h
    refine ⟨⟨hholds.1.last_mem, hholds.1.failures_ne_nil, fun f hf => ?_⟩, fun u => ?_⟩
    · exact (hholds.1.le_clock f hf).trans hle
    · exact (hholds.2 u).mono hle (List.Subset.refl _) fun _ h => h

/-! ### A server that is down -/

section Down

variable {c₀ : Config τ (CircuitBreaker τ) BreakerPc} {last₀ : ℕ}

/-- The breaker stays open, its last failure is not before `last₀`, and the requests that begin
after `c₀` go to the server after the cooldown. -/
structure DownInv (cooldown : ℕ) (c₀ : Config τ (CircuitBreaker τ) BreakerPc) (last₀ : ℕ)
    (s : CircuitBreaker τ) : Prop where
  isOpen : s.isOpen = true
  le_last : last₀ ≤ s.lastFailureMs
  le_clock : last₀ ≤ s.clock
  le_sent : ∀ p ∈ s.sent, c₀.loc p.1 = .idle → last₀ + cooldown ≤ p.2

/-- What a request has read, and when it failed. -/
def DownOwn (c₀ : Config τ (CircuitBreaker τ) BreakerPc) (last₀ : ℕ) (t : τ) : BreakerPc → Prop
  | .sawLast last => c₀.loc t = .idle → last₀ ≤ last
  | .stamped now => last₀ ≤ now
  | _ => True

omit [DecidableEq τ] in
theorem DownInv.step (hinv : s.DownInv cooldown c₀ last₀) (hown : DownOwn c₀ last₀ t pc)
    (hsuccess : pc ≠ .succeeded) (h : BreakerStep cooldown t s pc s' pc') :
    s'.DownInv cooldown c₀ last₀ ∧ DownOwn c₀ last₀ t pc' := by
  cases h with
  | closed hclosed => exact absurd (hinv.isOpen.symm.trans hclosed) (Bool.false_ne_true ·.symm)
  | loadLast => exact ⟨hinv, fun _ => hinv.le_last⟩
  | @cooledDown last hpassed =>
    refine ⟨⟨hinv.isOpen, hinv.le_last, hinv.le_clock, fun p hp hidle => ?_⟩, trivial⟩
    rcases List.mem_append.mp hp with hold | hnew
    · exact hinv.le_sent p hold hidle
    · obtain rfl := List.mem_singleton.mp hnew
      have hlast : last₀ ≤ last := hown hidle
      have hclock := hinv.le_clock
      change last₀ + cooldown ≤ s.clock
      omega
  | recordSuccess => exact absurd rfl hsuccess
  | readClock => exact ⟨hinv, hinv.le_clock⟩
  | storeLast => exact ⟨⟨hinv.isOpen, hown, hinv.le_clock, hinv.le_sent⟩, trivial⟩
  | storeOpen => exact ⟨⟨rfl, hinv.le_last, hinv.le_clock, hinv.le_sent⟩, trivial⟩
  | call | probe | loadOpen | reject | answered | unanswered => exact ⟨hinv, trivial⟩

end Down

end CircuitBreaker

open CircuitBreaker

section Results

variable {τ : Type*} [DecidableEq τ] {cooldown : ℕ} {c c₀ : Config τ (CircuitBreaker τ) BreakerPc}

/-- **Rejections are justified.** However the requests interleave, a call is rejected only for a
failure that was stored, and less than the cooldown after it. So the next call after the cooldown
of the last failure goes to the server again. -/
theorem breaker_rejects_after_failure
    (hc : (breakerProgram τ cooldown).toSystem.Reachable c) {t : τ} {last now : ℕ}
    (ht : c.loc t = .rejected last now) :
    last ∈ c.shared.failures ∧ last ≤ now ∧ now < last + cooldown := by
  have hown := (holds_of_reach hc).2 t
  rw [ht] at hown
  exact hown

/-- **A server that is down is left alone.** From any state in which the breaker is open, and no
older failure is about to be stored, as long as no request records a success, every call that begins
from then on and goes to the server does so after the cooldown of the failure in the breaker. -/
theorem breaker_spares_server (hc₀ : (breakerProgram τ cooldown).toSystem.Reachable c₀)
    (hopen : c₀.shared.isOpen = true)
    (hstamped : ∀ t now, c₀.loc t = .stamped now → c₀.shared.lastFailureMs ≤ now)
    (hc : ((breakerProgram τ cooldown).startAt c₀).toSystem.Reach NoSuccess c) {t : τ}
    (ht : c₀.loc t = .idle) {time : ℕ} (hsent : (t, time) ∈ c.shared.sent) :
    c₀.shared.lastFailureMs + cooldown ≤ time := by
  have hholds₀ := holds_of_reach hc₀
  have hholds := Program.invariant
    (I := DownInv cooldown c₀ c₀.shared.lastFailureMs)
    (A := fun t _ => DownOwn c₀ c₀.shared.lastFailureMs t) (fun c hinit => ?_)
    (fun c t s' pc' hholds hok h => hholds.1.step (hholds.2 t) (hok t rfl) h)
    (fun c t u s' pc' hholds _ _ _ => hholds.2 u) (fun c _ s' hholds _ h => ?_) hc
  · exact hholds.1.le_sent _ hsent ht
  · obtain rfl : c = c₀ := hinit
    have hlast := hholds₀.1.last_mem (hholds₀.1.failures_ne_nil hopen)
    refine ⟨⟨hopen, le_rfl, hholds₀.1.le_clock _ hlast, fun p hp hidle => ?_⟩, fun t => ?_⟩
    · have hown := hholds₀.2 p.1
      rw [hidle] at hown
      exact absurd hp (hown p.2)
    · cases hpc : c.loc t with
      | sawLast last => exact fun hidle => absurd (hidle.symm.trans hpc) nofun
      | stamped now => exact hstamped t now hpc
      | _ => trivial
  · obtain ⟨time, hle, rfl⟩ := h
    exact ⟨⟨hholds.1.isOpen, hholds.1.le_last, hholds.1.le_clock.trans hle, hholds.1.le_sent⟩,
      hholds.2⟩

end Results

/-! ### A request that fails, and a call after it -/

/-- The first request has failed at the time 5. -/
def afterFailure : Config Bool (CircuitBreaker Bool) BreakerPc :=
  ⟨⟨true, 5, 5, [5], []⟩, fun t => cond t .returned .idle⟩

theorem reachable_afterFailure : (breakerProgram Bool 30).toSystem.Reachable afterFailure := by
  have h₀ : (breakerProgram Bool 30).toSystem.Reachable
      ⟨⟨false, 0, 0, [], []⟩, fun t => cond t .idle .idle⟩ :=
    .init ⟨rfl, fun t => by cases t <;> rfl⟩
  have h₁ := Program.Reach.env (e := ()) h₀ trivial ⟨5, Nat.zero_le 5, rfl⟩
  have h₂ := Program.Reach.fst h₁ trivial .probe
  have h₃ := Program.Reach.fst h₂ trivial .unanswered
  have h₄ := Program.Reach.fst h₃ trivial .readClock
  have h₅ := Program.Reach.fst h₄ trivial .storeLast
  exact Program.Reach.fst h₅ trivial .storeOpen

theorem breaker_rejects_after_failure_run : ∃ c : Config Bool (CircuitBreaker Bool) BreakerPc,
    c.loc false = .rejected 5 9 ∧ 9 < 5 + 30 ∧ 5 ∈ c.shared.failures := by
  have h₁ := Program.Reach.env (e := ()) reachable_afterFailure trivial
    ⟨9, Nat.le_add_right 5 4, rfl⟩
  have h₂ := Program.Reach.snd h₁ trivial .call
  have h₃ := Program.Reach.snd h₂ trivial (.loadOpen rfl)
  have h₄ := Program.Reach.snd h₃ trivial .loadLast
  have h₅ := Program.Reach.snd h₄ trivial (.reject (by decide))
  obtain ⟨hmem, -, hlt⟩ := breaker_rejects_after_failure h₅ (t := false) rfl
  exact ⟨_, rfl, hlt, hmem⟩

theorem breaker_spares_server_run : ∃ c : Config Bool (CircuitBreaker Bool) BreakerPc,
    (false, 35) ∈ c.shared.sent ∧ afterFailure.shared.lastFailureMs + 30 ≤ 35 := by
  have h₀ : ((breakerProgram Bool 30).startAt afterFailure).toSystem.Reach NoSuccess
      ⟨afterFailure.shared, fun t => cond t .returned .idle⟩ := .init rfl
  have hok {s : CircuitBreaker Bool} {pc : BreakerPc} (h : pc ≠ .succeeded) :
      NoSuccess ⟨s, fun t => cond t .returned pc⟩ (.inl false) := fun t heq => by
    cases heq
    exact h
  have h₁ := Program.Reach.env (e := ()) h₀ nofun ⟨35, Nat.le_add_right 5 30, rfl⟩
  have h₂ := Program.Reach.snd h₁ (hok nofun) .call
  have h₃ := Program.Reach.snd h₂ (hok nofun) (.loadOpen rfl)
  have h₄ := Program.Reach.snd h₃ (hok nofun) .loadLast
  have h₅ := Program.Reach.snd h₄ (hok nofun) (.cooledDown (by decide))
  exact ⟨⟨⟨true, 5, 35, [5], [(false, 35)]⟩, fun t => cond t .returned .sending⟩,
    List.mem_singleton_self _, breaker_spares_server reachable_afterFailure rfl
      (fun t now h => by cases t <;> cases h) h₅ (t := false) rfl (List.mem_singleton_self _)⟩

end DistillFs
