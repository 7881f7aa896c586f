import DistillFs.Foundation.Transition

/-!
# Shutting down

Tasks wait for the shutdown of a server in `wait`: they read a flag, and if it is not set they
register with a notification and park. `shutdown` sets the flag and then wakes the tasks that are
registered at that moment. The wait is one branch of a select, so a parked task may leave for
another branch, and wait again later.

A task that has read the flag before it was set, and registers after the wakeup, is not woken.

## Main definitions

* `ShutdownState`, `ShutdownPc`, `ShutdownStep`, `shutdownProgram`: the tasks.
* `NoneUnregistered`: the condition on wakeups.

## Main results

* `none_parked_after_shutdown`: who is parked once `shutdown` has returned.
* `wakeup_lost`: a task that stays parked.
-/

namespace DistillFs

open Foundation

/-- The state behind a `ShutdownHandle`. -/
structure ShutdownState (τ : Type*) where
  stopped : Bool
  /-- The tasks that the next call of `notify_waiters` wakes. -/
  registered : Finset τ
  /-- A call of `shutdown` has returned. -/
  returned : Bool

/-- The program of a task, which may call `wait` or `shutdown`. -/
inductive ShutdownPc
  | idle
  /-- It has read in `wait` that the flag is not set. -/
  | checked
  /-- It awaits its notification, which has come if the task is not registered any more. -/
  | parked
  /-- Its call of `wait` has returned. -/
  | left
  /-- It has set the flag in `shutdown`. -/
  | stopping
  deriving DecidableEq

variable {τ : Type*} [DecidableEq τ]

/-- The steps of a task. -/
inductive ShutdownStep (t : τ) :
    ShutdownState τ → ShutdownPc → ShutdownState τ → ShutdownPc → Prop
  | readSet {s : ShutdownState τ} (h : s.stopped = true) : ShutdownStep t s .idle s .left
  | readClear {s : ShutdownState τ} (h : s.stopped = false) : ShutdownStep t s .idle s .checked
  /-- `notified` creates the future that `notify_waiters` reaches from then on. -/
  | register {s : ShutdownState τ} :
      ShutdownStep t s .checked { s with registered := insert t s.registered } .parked
  | woken {s : ShutdownState τ} (h : t ∉ s.registered) : ShutdownStep t s .parked s .left
  /-- The select takes another branch. -/
  | drop {s : ShutdownState τ} :
      ShutdownStep t s .parked { s with registered := s.registered.erase t } .idle
  | again {s : ShutdownState τ} : ShutdownStep t s .left s .idle
  | store {s : ShutdownState τ} : ShutdownStep t s .idle { s with stopped := true } .stopping
  /-- `notify_waiters`, with which `shutdown` returns. -/
  | notify {s : ShutdownState τ} :
      ShutdownStep t s .stopping
        { s with
          registered := ∅
          returned := true }
        .idle

variable (τ) in
/-- The tasks that have a handle. -/
def shutdownProgram : Program τ Empty (ShutdownState τ) ShutdownPc where
  init c := c.shared = ⟨false, ∅, false⟩ ∧ ∀ t, c.loc t = .idle
  step := ShutdownStep
  env e _ _ := e.elim

/-- A call of `shutdown` wakes the tasks at a moment at which none has read the flag and not yet
registered. -/
def NoneUnregistered (c : Config τ (ShutdownState τ) ShutdownPc) : τ ⊕ Empty → Prop
  | .inl t => c.loc t = .stopping → ∀ u, c.loc u ≠ .checked
  | .inr _ => True

/-- Once `shutdown` has returned the flag is set and nobody is registered. -/
def ShutdownInv (s : ShutdownState τ) : Prop :=
  s.returned = true → s.stopped = true ∧ s.registered = ∅

/-- A task that is about to wake the others has set the flag, and a task that is about to register
does so before `shutdown` has returned. -/
def ShutdownOwn (_ : τ) (s : ShutdownState τ) : ShutdownPc → Prop
  | .stopping => s.stopped = true
  | .checked => s.returned = false
  | _ => True

variable {s s' : ShutdownState τ} {pc pc' : ShutdownPc} {t u : τ}

theorem ShutdownInv.step (hinv : ShutdownInv s) (hown : ShutdownOwn t s pc)
    (h : ShutdownStep t s pc s' pc') : ShutdownInv s' ∧ ShutdownOwn t s' pc' := by
  cases h with
  | readClear hclear =>
    refine ⟨hinv, Bool.eq_false_iff.mpr fun hret => ?_⟩
    rw [(hinv hret).1] at hclear
    cases hclear
  | register =>
    refine ⟨fun hret => ?_, trivial⟩
    rw [show s.returned = false from hown] at hret
    cases hret
  | drop =>
    refine ⟨fun hret => ⟨(hinv hret).1, ?_⟩, trivial⟩
    change s.registered.erase t = ∅
    rw [(hinv hret).2, Finset.erase_empty]
  | store => exact ⟨fun hret => ⟨rfl, (hinv hret).2⟩, rfl⟩
  | notify => exact ⟨fun _ => ⟨hown, rfl⟩, trivial⟩
  | readSet | woken | again => exact ⟨hinv, trivial⟩

/-- A step keeps what another task knows, unless it is a wakeup and the other has yet to
register. -/
theorem ShutdownOwn.other {pcu : ShutdownPc} (hown : ShutdownOwn u s pcu)
    (hok : pc = .stopping → pcu ≠ .checked) (h : ShutdownStep t s pc s' pc') :
    ShutdownOwn u s' pcu := by
  cases pcu with
  | stopping =>
    cases h with
    | store => rfl
    | _ => exact hown
  | checked =>
    cases h with
    | notify => exact absurd rfl (hok rfl)
    | _ => exact hown
  | _ => trivial

/-- **A shutdown wakes the tasks that wait.** In runs in which no task stands between its look at
the flag and its registration when `shutdown` wakes the others, no task is parked once a call of
`shutdown` has returned. -/
theorem none_parked_after_shutdown {c : Config τ (ShutdownState τ) ShutdownPc}
    (hc : (shutdownProgram τ).toSystem.Reach NoneUnregistered c)
    (hreturned : c.shared.returned = true) (t : τ) :
    ¬(c.loc t = .parked ∧ t ∈ c.shared.registered) := by
  have hholds := Program.invariant (I := ShutdownInv) (A := ShutdownOwn) (fun c hinit => ?_)
    (fun c t s' pc' hholds _ h => hholds.1.step (hholds.2 t) h)
    (fun c t u s' pc' hholds hok _ h => (hholds.2 u).other (fun hpc => hok hpc u) h)
    (fun _ e => Empty.elim e) hc
  · rintro ⟨-, hin⟩
    rw [(hholds.1 hreturned).2] at hin
    exact absurd hin (Finset.notMem_empty t)
  · refine ⟨fun hret => ?_, fun t => ?_⟩
    · rw [hinit.1] at hret
      cases hret
    · rw [hinit.2 t]
      trivial

/-! ### One task that waits and one that shuts down -/

section Run

theorem run_checked (ok : Config Bool (ShutdownState Bool) ShutdownPc → Bool ⊕ Empty → Prop)
    (hok : ∀ c a, (∀ t, c.loc t ≠ .stopping) → ok c a) :
    (shutdownProgram Bool).toSystem.Reach ok
      ⟨⟨false, ∅, false⟩, fun t => cond t .checked .idle⟩ := by
  have h₀ : (shutdownProgram Bool).toSystem.Reach ok
      ⟨⟨false, ∅, false⟩, fun t => cond t .idle .idle⟩ := .init ⟨rfl, fun t => by cases t <;> rfl⟩
  exact Program.Reach.fst h₀ (hok _ _ fun t => by cases t <;> decide) (.readClear rfl)

theorem none_parked_after_shutdown_run : ∃ c : Config Bool (ShutdownState Bool) ShutdownPc,
    c.loc true = .parked ∧ c.shared.returned = true ∧
      ¬(c.loc true = .parked ∧ true ∈ c.shared.registered) := by
  have h₁ := run_checked NoneUnregistered fun c a h => by
    cases a with
    | inl t => exact fun heq => absurd heq (h t)
    | inr e => exact e.elim
  have h₂ := Program.Reach.fst h₁ nofun .register
  have h₃ := Program.Reach.snd h₂ nofun .store
  have h₄ := Program.Reach.snd h₃ (fun _ u => by cases u <;> decide) .notify
  exact ⟨_, rfl, rfl, none_parked_after_shutdown h₄ rfl true⟩

/-- The task reads the flag, the other one sets it and wakes nobody, and the task parks. -/
theorem wakeup_lost : ∃ c : Config Bool (ShutdownState Bool) ShutdownPc,
    (shutdownProgram Bool).toSystem.Reachable c ∧ c.shared.returned = true ∧
      c.loc true = .parked ∧ true ∈ c.shared.registered := by
  have h₁ := run_checked (fun _ _ => True) fun _ _ _ => trivial
  have h₂ := Program.Reach.snd h₁ trivial .store
  have h₃ := Program.Reach.snd h₂ trivial .notify
  have h₄ := Program.Reach.fst h₃ trivial .register
  exact ⟨_, h₄, rfl, rfl, Finset.mem_insert_self ..⟩

end Run

end DistillFs
