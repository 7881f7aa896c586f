import Mathlib

/-!
# Labelled transition systems and interleaved threads

A labelled transition system is a predicate for its initial states and a step relation.
`System.Reach ok` collects the states reached by runs all of whose steps meet the guard `ok`,
so that a property of all runs and a property of the runs that respect some condition are the
same induction. The guard reads the state before the step and the label of the step.

A `Program` is a family of threads that run the same code over one shared state, together with
an environment that may change the shared state on its own. Its system moves one thread, or the
environment, at a time. `Program.invariant` is the proof rule used for every interleaving result:
an invariant of the shared state and an assertion for each thread hold in every reachable
configuration once each step of a thread keeps them for that thread and does not interfere with
the assertions of the others.

## Main definitions

* `System`, `System.Reach`, `System.Reachable`: systems and their reachable states.
* `System.Run`: infinite runs.
* `System.Inevitable`: every run comes to a state.
* `Program`, `Config`, `Program.toSystem`: threads over a shared state.
* `Program.startAt`: the runs from a configuration.

## Main results

* `System.Reach.invariant`: an inductive invariant holds in every reached state.
* `System.Inevitable.of_rank`: a rank that falls in every step ends every run.
* `System.Run.eventually`: a well-founded rank and fair moves lead to a goal.
* `Program.invariant`: invariants and thread assertions without interference.
-/

namespace DistillFs.Foundation

/-- A labelled transition system. -/
structure System (σ α : Type*) where
  /-- The states a run may start in. -/
  init : σ → Prop
  /-- `step s a s'`: the system can move from `s` to `s'` by the action `a`. -/
  step : σ → α → σ → Prop

namespace System

variable {σ α : Type*} {M : System σ α} {ok ok' : σ → α → Prop}

/-- The states reached by the runs of `M` whose steps all meet `ok`. -/
inductive Reach (M : System σ α) (ok : σ → α → Prop) : σ → Prop
  | init {s : σ} (h : M.init s) : Reach M ok s
  | step {s s' : σ} {a : α} (hs : Reach M ok s) (hok : ok s a) (h : M.step s a s') : Reach M ok s'

/-- The states reached by any run of `M`. -/
abbrev Reachable (M : System σ α) : σ → Prop := M.Reach fun _ _ => True

/-- An unguarded step extends a run. -/
theorem Reachable.next {s s' : σ} {a : α} (hs : M.Reachable s) (h : M.step s a s') :
    M.Reachable s' :=
  .step hs trivial h

/-- A property of the initial states that every guarded step preserves holds in every state the
guarded runs reach. -/
theorem Reach.invariant {I : σ → Prop} (hinit : ∀ s, M.init s → I s)
    (hstep : ∀ s a s', I s → ok s a → M.step s a s' → I s') {s : σ} (h : M.Reach ok s) : I s := by
  induction h with
  | init h => exact hinit _ h
  | step _ hok h ih => exact hstep _ _ _ ih hok h

/-- The rule of invariants with the run so far at hand. -/
theorem Reach.invariant_reach {I : σ → Prop} (hinit : ∀ s, M.init s → I s)
    (hstep : ∀ s a s', M.Reach ok s → I s → ok s a → M.step s a s' → I s') {s : σ}
    (h : M.Reach ok s) : I s := by
  induction h with
  | init h => exact hinit _ h
  | step hs hok h ih => exact hstep _ _ _ hs ih hok h

/-- A map of states that carries initial states to initial states and every step to a step carries
runs to runs. -/
theorem Reach.map {σ' α' : Type*} {N : System σ' α'} (f : σ → σ')
    (hinit : ∀ s, M.init s → N.init (f s))
    (hstep : ∀ s a s', M.step s a s' → ∃ b, N.step (f s) b (f s')) {s : σ} (h : M.Reach ok s) :
    N.Reachable (f s) := by
  induction h with
  | init h => exact .init (hinit _ h)
  | step _ _ h ih =>
    obtain ⟨b, hb⟩ := hstep _ _ _ h
    exact Reachable.next ih hb

/-- A map of states that carries every step to a step or to none carries runs to runs. -/
theorem Reach.simulate {σ' α' : Type*} {N : System σ' α'} {okN : σ' → α' → Prop} (f : σ → σ')
    (hinit : ∀ s, M.init s → N.init (f s))
    (hstep : ∀ s a s', ok s a → M.step s a s' →
      f s' = f s ∨ ∃ b, okN (f s) b ∧ N.step (f s) b (f s')) {s : σ} (h : M.Reach ok s) :
    N.Reach okN (f s) := by
  induction h with
  | init h => exact .init (hinit _ h)
  | step _ hok h ih =>
    rcases hstep _ _ _ hok h with hsame | ⟨b, hokN, hb⟩
    · exact hsame ▸ ih
    · exact ih.step hokN hb

/-- Runs that meet a stronger guard are runs that meet a weaker one. -/
theorem Reach.mono (hle : ∀ s a, ok s a → ok' s a) {s : σ} (h : M.Reach ok s) : M.Reach ok' s := by
  induction h with
  | init h => exact .init h
  | step _ hok h ih => exact .step ih (hle _ _ hok) h

/-- Every run from the state comes to `P`: it can go on until then, and it does so only finitely
often. -/
inductive Inevitable (M : System σ α) (P : σ → Prop) : σ → Prop
  | now {s : σ} (h : P s) : Inevitable M P s
  | later {s : σ} (hmove : ∃ a s', M.step s a s')
      (h : ∀ a s', M.step s a s' → Inevitable M P s') : Inevitable M P s

/-- What every run comes to may be weakened by an invariant. -/
theorem Inevitable.imp {I P Q : σ → Prop} (hkeep : ∀ s a s', I s → M.step s a s' → I s')
    (hPQ : ∀ s, I s → P s → Q s) {s : σ} (h : M.Inevitable P s) (hs : I s) :
    M.Inevitable Q s := by
  induction h with
  | now h => exact .now (hPQ _ hs h)
  | later hmove _ ih => exact .later hmove fun a s' h => ih a s' h (hkeep _ _ _ hs h)

/-- **Termination.** If every step from the states of an invariant lowers a well-founded rank, and
there is a step until `P` holds, then every run comes to `P`. -/
theorem Inevitable.of_rank {β : Type*} [Preorder β] [WellFoundedLT β] {I P : σ → Prop}
    (rank : σ → β) (hkeep : ∀ s a s', I s → M.step s a s' → I s')
    (hlt : ∀ s a s', I s → M.step s a s' → rank s' < rank s)
    (hmove : ∀ s, I s → P s ∨ ∃ a s', M.step s a s') {s : σ} (hs : I s) : M.Inevitable P s := by
  generalize hb : rank s = b
  induction b using WellFoundedLT.induction generalizing s with
  | ind b ih =>
    rcases hmove s hs with hP | hnext
    · exact .now hP
    · exact .later hnext fun a s' h => ih _ (hb ▸ hlt s a s' hs h) (hkeep s a s' hs h) rfl

/-- An infinite run. -/
structure Run (M : System σ α) where
  state : ℕ → σ
  act : ℕ → α
  init : M.init (state 0)
  step : ∀ n, M.step (state n) (act n) (state (n + 1))

theorem Run.reachable (r : M.Run) (n : ℕ) : M.Reachable (r.state n) := by
  induction n with
  | zero => exact .init r.init
  | succ n ih => exact ih.next (r.step n)

/-- A quantity that no step decreases only grows along a run. -/
theorem Run.monotone (r : M.Run) (f : σ → ℕ) (h : ∀ s a s', M.step s a s' → f s ≤ f s') {n m : ℕ}
    (hnm : n ≤ m) : f (r.state n) ≤ f (r.state m) :=
  monotone_nat_of_le_succ (fun n => h _ _ _ (r.step n)) hnm

/-- **Progress.** If every step before `P` holds lowers a well-founded rank or keeps it without
being one of the moves, and moves happen again and again, then `P` holds at some later time. -/
theorem Run.eventually {β : Type*} [Preorder β] [WellFoundedLT β] (r : M.Run) (rank : σ → β)
    (P : σ → Prop) (move : α → Prop)
    (hrank : ∀ n, ¬P (r.state n) → rank (r.state (n + 1)) < rank (r.state n) ∨
      (rank (r.state (n + 1)) = rank (r.state n) ∧ ¬move (r.act n)))
    (hfair : ∀ n, P (r.state n) ∨ ∃ m, n ≤ m ∧ move (r.act m)) (n : ℕ) :
    ∃ m, n ≤ m ∧ P (r.state m) := by
  generalize hb : rank (r.state n) = b
  induction b using WellFoundedLT.induction generalizing n with
  | ind b ih =>
    -- up to the next move the rank stays, falls, or `P` holds on the way
    have hwalk : ∀ k, (∃ m, n ≤ m ∧ P (r.state m)) ∨ rank (r.state (n + k)) = b := by
      intro k
      induction k with
      | zero => exact Or.inr hb
      | succ k ihk =>
        rcases ihk with hfound | hsame
        · exact Or.inl hfound
        · by_cases hP : P (r.state (n + k))
          · exact Or.inl ⟨n + k, by omega, hP⟩
          · rcases hrank (n + k) hP with hlt | ⟨heq, -⟩
            · obtain ⟨m, hm, hPm⟩ := ih _ (hsame ▸ hlt) (n + (k + 1)) rfl
              exact Or.inl ⟨m, by omega, hPm⟩
            · exact Or.inr (heq.trans hsame)
    rcases hfair n with hP | ⟨m, hnm, hmove⟩
    · exact ⟨n, le_rfl, hP⟩
    · obtain ⟨k, rfl⟩ := Nat.exists_eq_add_of_le hnm
      rcases hwalk k with hfound | hsame
      · exact hfound
      · by_cases hP : P (r.state (n + k))
        · exact ⟨n + k, hnm, hP⟩
        · rcases hrank (n + k) hP with hlt | ⟨-, hno⟩
          · obtain ⟨m, hm, hPm⟩ := ih _ (hsame ▸ hlt) (n + k + 1) rfl
            exact ⟨m, by omega, hPm⟩
          · exact absurd hmove hno

/-- What only moves can end holds until the next move. -/
theorem Run.until_move (r : M.Run) (Q : σ → Prop) {move : α → Prop}
    (hkeep : ∀ n, Q (r.state n) → ¬move (r.act n) → Q (r.state (n + 1))) {n m : ℕ} (hnm : n ≤ m)
    (hmove : move (r.act m)) (hQ : Q (r.state n)) :
    ∃ k, n ≤ k ∧ move (r.act k) ∧ Q (r.state k) := by
  obtain ⟨k, rfl⟩ := Nat.exists_eq_add_of_le hnm
  induction k generalizing n with
  | zero => exact ⟨n, le_rfl, hmove, hQ⟩
  | succ k ih =>
    by_cases hn : move (r.act n)
    · exact ⟨n, le_rfl, hn, hQ⟩
    · rw [← Nat.add_assoc, Nat.add_right_comm] at hmove
      obtain ⟨j, hj, hfound⟩ := ih (hkeep n hQ hn) (Nat.le_add_right (n + 1) k) hmove
      exact ⟨j, by omega, hfound⟩

end System

/-- A configuration of a program: the shared state and the local state of every thread. -/
@[ext] structure Config (τ σ ℓ : Type*) where
  /-- The state all threads share. -/
  shared : σ
  /-- The local state of each thread. -/
  loc : τ → ℓ

/-- Threads named by `τ`, with local states `ℓ`, over a shared state `σ`. The environment acts
on the shared state by the events `ε`. -/
structure Program (τ ε σ ℓ : Type*) where
  /-- The configurations a run may start in. -/
  init : Config τ σ ℓ → Prop
  /-- `step t s l s' l'`: thread `t` moves from `l` to `l'` and changes the shared state. -/
  step : τ → σ → ℓ → σ → ℓ → Prop
  /-- `env e s s'`: the environment changes the shared state. -/
  env : ε → σ → σ → Prop

namespace Program

variable {τ ε σ ℓ : Type*} [DecidableEq τ]

/-- One step of a program: some thread moves, or the environment does. -/
inductive Step (P : Program τ ε σ ℓ) : Config τ σ ℓ → τ ⊕ ε → Config τ σ ℓ → Prop
  | thread {c : Config τ σ ℓ} {t : τ} {s' : σ} {l' : ℓ} (h : P.step t c.shared (c.loc t) s' l') :
      Step P c (.inl t) ⟨s', Function.update c.loc t l'⟩
  | env {c : Config τ σ ℓ} {e : ε} {s' : σ} (h : P.env e c.shared s') :
      Step P c (.inr e) ⟨s', c.loc⟩

/-- The transition system of a program: any interleaving of its threads and the environment. -/
def toSystem (P : Program τ ε σ ℓ) : System (Config τ σ ℓ) (τ ⊕ ε) where
  init := P.init
  step := P.Step

/-- The program that starts in a configuration. -/
def startAt (P : Program τ ε σ ℓ) (c : Config τ σ ℓ) : Program τ ε σ ℓ where
  init c' := c' = c
  step := P.step
  env := P.env

variable {P : Program τ ε σ ℓ} {ok : Config τ σ ℓ → τ ⊕ ε → Prop} {I : σ → Prop}
  {A : τ → σ → ℓ → Prop}

/-- The invariant of the shared state and the assertions of all threads. -/
def Holds (I : σ → Prop) (A : τ → σ → ℓ → Prop) (c : Config τ σ ℓ) : Prop :=
  I c.shared ∧ ∀ t, A t c.shared (c.loc t)

/-- **Threads that do not interfere**, with the run so far at hand. The invariant `I` of the shared
state and the assertion `A t` of every thread hold in every configuration the guarded runs reach,
once a step of a thread keeps `I` and its own assertion (`hown`), keeps the assertions of the other
threads (`hother`), and the environment keeps them all (`henv`). -/
theorem invariant_reach (hinit : ∀ c, P.init c → Holds I A c)
    (hown : ∀ c t s' l', P.toSystem.Reach ok c → Holds I A c → ok c (.inl t) →
      P.step t c.shared (c.loc t) s' l' → I s' ∧ A t s' l')
    (hother : ∀ c t u s' l', P.toSystem.Reach ok c → Holds I A c → ok c (.inl t) → u ≠ t →
      P.step t c.shared (c.loc t) s' l' → A u s' (c.loc u))
    (henv : ∀ c e s', P.toSystem.Reach ok c → Holds I A c → ok c (.inr e) →
      P.env e c.shared s' → I s' ∧ ∀ u, A u s' (c.loc u))
    {c : Config τ σ ℓ} (hc : P.toSystem.Reach ok c) : Holds I A c := by
  refine System.Reach.invariant_reach hinit (fun c a c' hreach hI hok hstep => ?_) hc
  cases hstep with
  | thread h =>
    rename_i t s' l'
    obtain ⟨hI', hA'⟩ := hown c t s' l' hreach hI hok h
    refine ⟨hI', fun u => ?_⟩
    by_cases hu : u = t
    · subst hu
      simpa only [Function.update_self] using hA'
    · simpa only [Function.update_of_ne hu] using hother c t u s' l' hreach hI hok hu h
  | env h => exact henv c _ _ hreach hI hok h

/-- The rule of invariants without the run. -/
theorem invariant (hinit : ∀ c, P.init c → Holds I A c)
    (hown : ∀ c t s' l', Holds I A c → ok c (.inl t) →
      P.step t c.shared (c.loc t) s' l' → I s' ∧ A t s' l')
    (hother : ∀ c t u s' l', Holds I A c → ok c (.inl t) → u ≠ t →
      P.step t c.shared (c.loc t) s' l' → A u s' (c.loc u))
    (henv : ∀ c e s', Holds I A c → ok c (.inr e) → P.env e c.shared s' →
      I s' ∧ ∀ u, A u s' (c.loc u))
    {c : Config τ σ ℓ} (hc : P.toSystem.Reach ok c) : Holds I A c :=
  invariant_reach hinit (fun c t s' l' _ => hown c t s' l')
    (fun c t u s' l' _ => hother c t u s' l') (fun c e s' _ => henv c e s') hc

/-- A step of a thread extends a run. -/
theorem Reach.thread {s s' : σ} {loc loc' : τ → ℓ} {l' : ℓ} (t : τ)
    (hc : P.toSystem.Reach ok ⟨s, loc⟩) (hok : ok ⟨s, loc⟩ (.inl t)) (h : P.step t s (loc t) s' l')
    (hloc : Function.update loc t l' = loc') : P.toSystem.Reach ok ⟨s', loc'⟩ :=
  hloc ▸ System.Reach.step hc hok (Step.thread h)

/-- A step of the environment extends a run. -/
theorem Reach.env {s s' : σ} {loc : τ → ℓ} {e : ε} (hc : P.toSystem.Reach ok ⟨s, loc⟩)
    (hok : ok ⟨s, loc⟩ (.inr e)) (h : P.env e s s') : P.toSystem.Reach ok ⟨s', loc⟩ :=
  System.Reach.step hc hok (Step.env h)

section TwoThreads

variable {P : Program Bool ε σ ℓ} {ok : Config Bool σ ℓ → Bool ⊕ ε → Prop} {s s' : σ} {a b l' : ℓ}

/-- A step of the first of two threads extends a run. -/
theorem Reach.fst (hc : P.toSystem.Reach ok ⟨s, fun t => cond t a b⟩)
    (hok : ok ⟨s, fun t => cond t a b⟩ (.inl true)) (h : P.step true s a s' l') :
    P.toSystem.Reach ok ⟨s', fun t => cond t l' b⟩ :=
  Reach.thread true hc hok h (funext fun t => by cases t <;> rfl)

/-- A step of the second of two threads extends a run. -/
theorem Reach.snd (hc : P.toSystem.Reach ok ⟨s, fun t => cond t a b⟩)
    (hok : ok ⟨s, fun t => cond t a b⟩ (.inl false)) (h : P.step false s b s' l') :
    P.toSystem.Reach ok ⟨s', fun t => cond t a l'⟩ :=
  Reach.thread false hc hok h (funext fun t => by cases t <;> rfl)

end TwoThreads

end Program

end DistillFs.Foundation
