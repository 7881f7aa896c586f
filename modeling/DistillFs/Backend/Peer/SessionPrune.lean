import DistillFs.Backend.Peer.SessionPool

/-!
# Pruning idle sessions

A task that has the lock of a pool drops the closed sessions and those that have been idle for too
long; of these it keeps as many as bring the sessions kept to the least number of idle ones. Here
the sessions do not change while it looks at them.

## Main definitions

* `SessionState`, `SessionState.reading`: a session at an instant, and what it answers.
* `prune`: the pruning at an instant.
* `Pruned`: what it keeps.

## Main results

* `prune_pruned`.
-/

namespace DistillFs

/-- A session. Its last use and the instants are in the unit of the time to live. -/
structure SessionState where
  isClosed : Bool
  inflight : ℕ
  lastUsed : ℕ

namespace SessionState

/-- The answers of the session at an instant. -/
def reading (now : ℕ) (s : SessionState) : SessionReading where
  closed := s.isClosed
  inflight := s.inflight
  idle := now - s.lastUsed
  closedAgain := s.isClosed
  closedLater := s.isClosed
  inflightKey := s.inflight
  inflightLater := s.inflight

/-- The session is open, without requests, and was last used too long ago. -/
def isExpired (config : PoolConfig) (now : ℕ) (s : SessionState) : Bool :=
  !s.isClosed && decide (s.inflight = 0) && decide (config.idleTtl < now - s.lastUsed)

/-- The session is open, and busy or used within the time to live. -/
def isActive (config : PoolConfig) (now : ℕ) (s : SessionState) : Bool :=
  !s.isClosed && (decide (s.inflight ≠ 0) || decide (now - s.lastUsed ≤ config.idleTtl))

theorem isActive_iff {config : PoolConfig} {now : ℕ} {s : SessionState} :
    s.isActive config now = true ↔ s.isClosed = false ∧ s.isExpired config now = false := by
  cases hclosed : s.isClosed with
  | true => simp [isActive, hclosed]
  | false =>
    simp only [isActive, isExpired, hclosed, Bool.not_false, Bool.true_and, Bool.or_eq_true,
      decide_eq_true_eq, Bool.and_eq_false_iff, decide_eq_false_iff_not, not_lt, true_and]

end SessionState

variable {S : Type*}

/-- The loop at the instant `now`, after it has kept `n` sessions. -/
abbrev pruneFrom (config : PoolConfig) (now : ℕ) (state : S → SessionState) (sessions : List S)
    (n : ℕ) : List S :=
  pruneIdle config (fun s => (state s).reading now) sessions n

/-- `prune_idle_locked` at the instant `now`. -/
def prune (config : PoolConfig) (now : ℕ) (state : S → SessionState) (sessions : List S) : List S :=
  pruneFrom config now state sessions 0

/-- What pruning keeps of some sessions. -/
structure Pruned (config : PoolConfig) (now : ℕ) (state : S → SessionState)
    (sessions kept : List S) : Prop where
  sublist : kept.Sublist sessions
  not_closed : ∀ s ∈ kept, (state s).isClosed = false
  active : kept.filter (fun s => (state s).isActive config now) =
    sessions.filter fun s => (state s).isActive config now
  minIdle_le : min config.minIdle (sessions.countP fun s => !(state s).isClosed) ≤ kept.length
  expired_le : (kept.countP fun s => (state s).isExpired config now) ≤ config.minIdle
  again : prune config now state kept = kept

section

variable (config : PoolConfig) (now : ℕ) (state : S → SessionState)

/-- What the loop does with a session after it has kept `n`: a closed one is dropped, an expired one
is dropped if there are enough, any other one is kept. -/
theorem pruneFrom_cases (s : S) (rest : List S) (n : ℕ) :
    ((state s).isClosed = true ∧
      pruneFrom config now state (s :: rest) n = pruneFrom config now state rest n) ∨
    ((state s).isExpired config now = true ∧ config.minIdle ≤ n ∧
      pruneFrom config now state (s :: rest) n = pruneFrom config now state rest n) ∨
    ((state s).isClosed = false ∧ ((state s).isExpired config now = true → n < config.minIdle) ∧
      pruneFrom config now state (s :: rest) n = s :: pruneFrom config now state rest (n + 1)) := by
  have hexpired : (!((state s).reading now).closed && decide (((state s).reading now).inflight = 0)
      && decide (config.idleTtl < ((state s).reading now).idle)) = (state s).isExpired config now :=
    rfl
  have hclosed : ((state s).reading now).closedAgain = (state s).isClosed := rfl
  simp only [pruneFrom, pruneIdle, hexpired, hclosed]
  by_cases hc : (state s).isClosed = true
  · exact Or.inl ⟨hc, by simp only [hc, Bool.true_or, if_true]⟩
  · rw [Bool.not_eq_true] at hc
    by_cases he : (state s).isExpired config now = true ∧ config.minIdle ≤ n
    · refine Or.inr (Or.inl ⟨he.1, he.2, ?_⟩)
      simp only [he.1, he.2, decide_true, Bool.true_and, Bool.or_true, if_true]
    · refine Or.inr (Or.inr ⟨hc, fun h => ?_, ?_⟩)
      · exact lt_of_not_ge fun hle => he ⟨h, hle⟩
      · rw [if_neg]
        simpa only [hc, Bool.false_or, Bool.and_eq_true, decide_eq_true_eq] using he

variable (sessions : List S) (n : ℕ)

theorem not_closed_of_mem_pruneFrom :
    ∀ s ∈ pruneFrom config now state sessions n, (state s).isClosed = false := by
  induction sessions generalizing n with
  | nil => exact List.forall_mem_nil _
  | cons s rest ih =>
    obtain ⟨-, h⟩ | ⟨-, -, h⟩ | ⟨hopen, -, h⟩ := pruneFrom_cases config now state s rest n
    · rw [h]
      exact ih n
    · rw [h]
      exact ih n
    · rw [h]
      exact List.forall_mem_cons.mpr ⟨hopen, ih (n + 1)⟩

/-- The active sessions are kept. -/
theorem filter_pruneFrom :
    (pruneFrom config now state sessions n).filter (fun s => (state s).isActive config now) =
      sessions.filter fun s => (state s).isActive config now := by
  induction sessions generalizing n with
  | nil => rfl
  | cons s rest ih =>
    obtain ⟨hclosed, h⟩ | ⟨hexpired, -, h⟩ | ⟨-, -, h⟩ := pruneFrom_cases config now state s rest n
    · have hs : ¬(state s).isActive config now = true := fun hactive =>
        Bool.false_ne_true ((SessionState.isActive_iff.mp hactive).1.symm.trans hclosed)
      rw [h, List.filter_cons, if_neg hs, ih]
    · have hs : ¬(state s).isActive config now = true := fun hactive =>
        Bool.false_ne_true ((SessionState.isActive_iff.mp hactive).2.symm.trans hexpired)
      rw [h, List.filter_cons, if_neg hs, ih]
    · rw [h, List.filter_cons, List.filter_cons, ih]

/-- With the sessions kept before there are enough, or all open ones are kept. -/
theorem min_le_length_pruneFrom :
    min config.minIdle (n + sessions.countP fun s => !(state s).isClosed) ≤
      n + (pruneFrom config now state sessions n).length := by
  induction sessions generalizing n with
  | nil => exact min_le_right _ _
  | cons s rest ih =>
    obtain ⟨hclosed, h⟩ | ⟨-, hle, -⟩ | ⟨hopen, -, h⟩ := pruneFrom_cases config now state s rest n
    · rw [h, List.countP_cons, hclosed, Bool.not_true, if_neg Bool.false_ne_true]
      exact ih n
    · exact (min_le_left _ _).trans (hle.trans (Nat.le_add_right _ _))
    · have hrest := ih (n + 1)
      rw [h, List.countP_cons, hopen, Bool.not_false, if_pos rfl, List.length_cons]
      omega

/-- The expired sessions that are kept bring the number of sessions kept to the least one. -/
theorem countP_isExpired_pruneFrom_le :
    (pruneFrom config now state sessions n).countP (fun s => (state s).isExpired config now) ≤
      config.minIdle - n := by
  induction sessions generalizing n with
  | nil => exact Nat.zero_le _
  | cons s rest ih =>
    obtain ⟨-, h⟩ | ⟨-, -, h⟩ | ⟨-, hlt, h⟩ := pruneFrom_cases config now state s rest n
    · rw [h]
      exact ih n
    · rw [h]
      exact ih n
    · have hrest := ih (n + 1)
      rw [h]
      by_cases hexpired : (state s).isExpired config now = true
      · have hroom := hlt hexpired
        rw [List.countP_cons, if_pos hexpired]
        omega
      · rw [List.countP_cons, if_neg hexpired]
        omega

theorem pruneFrom_pruneFrom :
    pruneFrom config now state (pruneFrom config now state sessions n) n =
      pruneFrom config now state sessions n := by
  induction sessions generalizing n with
  | nil => rfl
  | cons s rest ih =>
    obtain ⟨-, h⟩ | ⟨-, -, h⟩ | ⟨hopen, hlt, h⟩ := pruneFrom_cases config now state s rest n
    · rw [h, ih]
    · rw [h, ih]
    · rw [h]
      -- the session meets the same count again
      obtain ⟨hclosed, -⟩ | ⟨hexpired, hle, -⟩ | ⟨-, -, hagain⟩ :=
        pruneFrom_cases config now state s (pruneFrom config now state rest (n + 1)) n
      · exact absurd (hopen.symm.trans hclosed) Bool.false_ne_true
      · exact absurd (hlt hexpired) hle.not_gt
      · rw [hagain, ih]

/-- **Pruning.** It keeps some sessions in their order: no closed one, all that are busy or were
used within the time to live, at least the least number of idle ones or all that are open, and at
most that number of expired ones. At the same instant there is nothing more to prune. -/
theorem prune_pruned : Pruned config now state sessions (prune config now state sessions) where
  sublist := pruneIdle_sublist config _ sessions 0
  not_closed := not_closed_of_mem_pruneFrom config now state sessions 0
  active := filter_pruneFrom config now state sessions 0
  minIdle_le := by
    have h := min_le_length_pruneFrom config now state sessions 0
    rwa [Nat.zero_add, Nat.zero_add] at h
  expired_le := countP_isExpired_pruneFrom_le config now state sessions 0
  again := pruneFrom_pruneFrom config now state sessions 0

end

end DistillFs
