import DistillFs.Foundation.Transition

/-!
# The pool of sessions

A client keeps its sessions to a peer in a pool. A call to `acquire` takes the lock of the pool,
drops what is closed or was idle for too long, and picks a session: one in use by few requests, or a
new one if there is none or all are busy and the pool has room. For a new one it gives the lock up,
connects, takes the lock again and pushes the session. If there is no room it waits to be notified.

The comparison with the size of the pool counts the sessions in the pool, and not the tasks that are
connecting for it. So several tasks may find room for the same session.

What a session says about itself may change at any time, also while a task has the lock; here each
question has any answer.

## Main definitions

* `PoolConfig`, `SessionReading`, `pruneIdle`, `pick`.
* `SessionPool`, `PoolPc`, `PoolStep`, `poolProgram`: the tasks.
* `RoomForConnecting`: the condition on tasks that start to connect.

## Main results

* `pool_size_le`: the size of the pool in runs that meet the condition.
* `pool_exceeded`: a pool of size 1 with two sessions.
-/

namespace DistillFs

open Foundation

/-- The number of requests at which a session is busy. -/
def sessionMaxInflight : ℕ := 32

/-- `ConnectionPoolConfig`. -/
structure PoolConfig where
  minIdle : ℕ := 1
  maxSize : ℕ := 8
  /-- In microseconds. -/
  idleTtl : ℕ := 30000000

/-- The answers of a session to the questions of one task that has the lock, in their order. -/
structure SessionReading where
  closed : Bool
  inflight : ℕ
  idle : ℕ
  closedAgain : Bool
  /-- The question of the search for a session. -/
  closedLater : Bool
  /-- The key of the search. -/
  inflightKey : ℕ
  /-- The question whether the session found is busy. -/
  inflightLater : ℕ

variable {τ S : Type*}

/-- The loop of `prune_idle_locked`, where `survivors` counts the sessions kept so far. -/
def pruneIdle (config : PoolConfig) (read : S → SessionReading) : List S → ℕ → List S
  | [], _ => []
  | s :: rest, survivors =>
    let expired := !(read s).closed && decide ((read s).inflight = 0) &&
      decide (config.idleTtl < (read s).idle)
    if (read s).closedAgain || (expired && decide (config.minIdle ≤ survivors)) then
      pruneIdle config read rest survivors
    else s :: pruneIdle config read rest (survivors + 1)

/-- What a task that has the lock decides. -/
inductive PoolDecision (S : Type*)
  | reuse (s : S)
  | connect
  | wait

/-- The decision of `acquire` over the sessions that are left. -/
def pick (config : PoolConfig) (read : S → SessionReading) (sessions : List S) : PoolDecision S :=
  let room := decide (sessions.length < config.maxSize)
  match (sessions.filter fun s => !(read s).closedLater).argmin fun s => (read s).inflightKey with
  | some s =>
    if room && decide (sessionMaxInflight ≤ (read s).inflightLater) then .connect else .reuse s
  | none => if room then .connect else .wait

/-- The state that the tasks share. -/
structure SessionPool (τ S : Type*) where
  sessions : List S
  /-- The task that has the lock. -/
  holder : Option τ
  /-- The tasks that are connecting or have a session to push. -/
  connecting : Finset τ

/-- The program of a task. -/
inductive PoolPc (S : Type*)
  | idle
  /-- At the beginning of the loop of `acquire`. -/
  | acquiring
  /-- With the lock. -/
  | decided (d : PoolDecision S)
  | connecting
  | connected (s : S)
  | waiting

section Tasks

variable [DecidableEq τ]

/-- The steps of a task. -/
inductive PoolStep (config : PoolConfig) (t : τ) :
    SessionPool τ S → PoolPc S → SessionPool τ S → PoolPc S → Prop
  | acquire {p : SessionPool τ S} : PoolStep config t p .idle p .acquiring
  | look {p : SessionPool τ S} (read : S → SessionReading) (hfree : p.holder = none) :
      PoolStep config t p .acquiring
        { p with
          sessions := pruneIdle config read p.sessions 0
          holder := some t }
        (.decided (pick config read (pruneIdle config read p.sessions 0)))
  | reuse {p : SessionPool τ S} {s : S} :
      PoolStep config t p (.decided (.reuse s)) { p with holder := none } .idle
  | connect {p : SessionPool τ S} :
      PoolStep config t p (.decided .connect)
        { p with
          holder := none
          connecting := insert t p.connecting }
        .connecting
  | wait {p : SessionPool τ S} :
      PoolStep config t p (.decided .wait) { p with holder := none } .waiting
  | notified {p : SessionPool τ S} : PoolStep config t p .waiting p .acquiring
  | connected {p : SessionPool τ S} (s : S) : PoolStep config t p .connecting p (.connected s)
  | push {p : SessionPool τ S} {s : S} (hfree : p.holder = none) :
      PoolStep config t p (.connected s)
        { p with
          sessions := p.sessions ++ [s]
          connecting := p.connecting.erase t }
        .idle
  | connectFails {p : SessionPool τ S} :
      PoolStep config t p .connecting { p with connecting := p.connecting.erase t } .idle
  /-- The future of the call is dropped where it waits. -/
  | drop {p : SessionPool τ S} {pc : PoolPc S} (h : ∀ d, pc ≠ .decided d) :
      PoolStep config t p pc { p with connecting := p.connecting.erase t } .idle
  | prune {p : SessionPool τ S} (read : S → SessionReading) (hfree : p.holder = none) :
      PoolStep config t p .idle { p with sessions := pruneIdle config read p.sessions 0 } .idle

variable (τ S) in
/-- The tasks of a client. -/
def poolProgram (config : PoolConfig) : Program τ Empty (SessionPool τ S) (PoolPc S) where
  init c := c.shared = ⟨[], none, ∅⟩ ∧ ∀ t, c.loc t = .idle
  step := PoolStep config
  env e _ _ := e.elim

/-- A task that goes on to connect has room for its session beside the sessions in the pool and
those that other tasks are connecting. -/
def RoomForConnecting (config : PoolConfig) (c : Config τ (SessionPool τ S) (PoolPc S)) :
    τ ⊕ Empty → Prop
  | .inl t => c.loc t = .decided .connect →
      c.shared.sessions.length + c.shared.connecting.card < config.maxSize
  | .inr _ => True

/-! ### The size of the pool -/

theorem pruneIdle_sublist (config : PoolConfig) (read : S → SessionReading) (sessions : List S)
    (survivors : ℕ) : (pruneIdle config read sessions survivors).Sublist sessions := by
  induction sessions generalizing survivors with
  | nil => exact List.Sublist.refl _
  | cons s rest ih =>
    rw [pruneIdle]
    split_ifs
    · exact (ih survivors).cons s
    · exact (ih (survivors + 1)).cons_cons s

/-- The sessions in the pool and those to come are not more than the pool may have. -/
def PoolInv (config : PoolConfig) (p : SessionPool τ S) : Prop :=
  p.sessions.length + p.connecting.card ≤ config.maxSize

/-- A task that has a session to push is counted. -/
def PoolOwn (t : τ) (p : SessionPool τ S) : PoolPc S → Prop
  | .connecting | .connected _ => t ∈ p.connecting
  | _ => True

variable {config : PoolConfig} {p p' : SessionPool τ S} {pc pc' : PoolPc S} {t u : τ}

/-- A step of a task counts itself in or out, or leaves the count. -/
theorem PoolStep.connecting_cases (h : PoolStep config t p pc p' pc') :
    p'.connecting = p.connecting ∨ p'.connecting = insert t p.connecting ∨
      p'.connecting = p.connecting.erase t := by
  cases h with
  | connect => exact Or.inr (Or.inl rfl)
  | push | connectFails | drop => exact Or.inr (Or.inr rfl)
  | _ => exact Or.inl rfl

theorem PoolInv.step (hinv : PoolInv config p) (hown : PoolOwn t p pc)
    (hroom : pc = .decided .connect → p.sessions.length + p.connecting.card < config.maxSize)
    (h : PoolStep config t p pc p' pc') : PoolInv config p' ∧ PoolOwn t p' pc' := by
  have hprune : ∀ read, (pruneIdle config read p.sessions 0).length ≤ p.sessions.length :=
    fun read => (pruneIdle_sublist config read p.sessions 0).length_le
  unfold PoolInv at *
  cases h with
  | look read => exact ⟨(Nat.add_le_add_right (hprune read) _).trans hinv, trivial⟩
  | prune read => exact ⟨(Nat.add_le_add_right (hprune read) _).trans hinv, trivial⟩
  | connect =>
    refine ⟨?_, Finset.mem_insert_self ..⟩
    have hcard := Finset.card_insert_le t p.connecting
    have hlt := hroom rfl
    change p.sessions.length + (insert t p.connecting).card ≤ _
    omega
  | push =>
    -- the session takes the place of its task
    refine ⟨?_, trivial⟩
    have hcard := Finset.card_erase_add_one (show t ∈ p.connecting from hown)
    change (p.sessions ++ _).length + (p.connecting.erase t).card ≤ _
    rw [List.length_append, List.length_singleton]
    omega
  | connectFails | drop =>
    exact ⟨(Nat.add_le_add_left (Finset.card_erase_le) _).trans hinv, trivial⟩
  | connected => exact ⟨hinv, hown⟩
  | acquire | reuse | wait | notified => exact ⟨hinv, trivial⟩

omit [DecidableEq τ] in
theorem PoolOwn.of_connecting (hown : PoolOwn u p pc) (h : u ∈ p.connecting → u ∈ p'.connecting) :
    PoolOwn u p' pc := by
  cases pc with
  | connecting | connected => exact h hown
  | _ => trivial

theorem PoolOwn.other (hown : PoolOwn u p pc) (hne : u ≠ t) {own own' : PoolPc S}
    (h : PoolStep config t p own p' own') : PoolOwn u p' pc := by
  refine hown.of_connecting fun hu => ?_
  rcases h.connecting_cases with heq | heq | heq
  · exact heq ▸ hu
  · exact heq ▸ Finset.mem_insert_of_mem hu
  · exact heq ▸ Finset.mem_erase.mpr ⟨hne, hu⟩

/-- **The size of the pool.** In runs in which no task goes on to connect without room for its
session beside those in the pool and those being connected, the pool keeps its size. -/
theorem pool_size_le {c : Config τ (SessionPool τ S) (PoolPc S)}
    (hc : (poolProgram τ S config).toSystem.Reach (RoomForConnecting config) c) :
    c.shared.sessions.length ≤ config.maxSize := by
  refine le_trans (Nat.le_add_right _ c.shared.connecting.card)
    (Program.invariant (I := PoolInv config) (A := PoolOwn) (fun c hinit => ?_)
      (fun c t p' pc' hholds hok h => ?_) (fun c t u p' pc' hholds hok hne h => ?_)
      (fun _ e => Empty.elim e) hc).1
  · refine ⟨?_, fun t => ?_⟩
    · rw [hinit.1]
      exact Nat.zero_le _
    · rw [hinit.2 t]
      trivial
  · exact hholds.1.step (hholds.2 t) hok h
  · exact (hholds.2 u).other hne h

end Tasks

/-! ### Two tasks and a pool of size 1 -/

section Run

/-- A session that is idle and open. -/
def freshSession (_ : ℕ) : SessionReading := ⟨false, 0, 0, false, false, 0, 0⟩

/-- A pool of one session. -/
def poolOfOne : PoolConfig := { maxSize := 1 }

/-- An empty pool makes a task connect. -/
theorem run_to_connect (ok : Config Bool (SessionPool Bool ℕ) (PoolPc ℕ) → Bool ⊕ Empty → Prop)
    (hok : ∀ c a, (∀ t, a = .inl t → c.loc t ≠ .decided .connect) → ok c a) :
    ((poolProgram Bool ℕ poolOfOne).toSystem.Reach ok
      ⟨⟨[], some true, ∅⟩, fun t => cond t (.decided .connect) .idle⟩) := by
  have h₀ : (poolProgram Bool ℕ poolOfOne).toSystem.Reach ok
      ⟨⟨[], none, ∅⟩, fun t => cond t .idle .idle⟩ := .init ⟨rfl, fun t => by cases t <;> rfl⟩
  have h₁ := Program.Reach.fst h₀ (hok _ _ fun t ht => by cases ht; exact nofun) .acquire
  exact Program.Reach.fst h₁ (hok _ _ fun t ht => by cases ht; exact nofun)
    (.look freshSession rfl)

theorem pool_size_le_run : ∃ c : Config Bool (SessionPool Bool ℕ) (PoolPc ℕ),
    c.shared.sessions = [5] ∧ c.shared.sessions.length ≤ 1 := by
  have h₂ := run_to_connect (RoomForConnecting poolOfOne) fun c a h => by
    cases a with
    | inl t => exact fun heq => absurd heq (h t rfl)
    | inr e => exact e.elim
  have h₃ := Program.Reach.fst h₂ (fun _ => by decide) .connect
  have h₄ := Program.Reach.fst h₃ nofun (.connected 5)
  have h₅ := Program.Reach.fst h₄ nofun (.push rfl)
  exact ⟨_, rfl, pool_size_le h₅⟩

/-- Both tasks look at the empty pool before either has connected, and both push a session. -/
theorem pool_exceeded : ∃ c : Config Bool (SessionPool Bool ℕ) (PoolPc ℕ),
    (poolProgram Bool ℕ poolOfOne).toSystem.Reachable c ∧
      poolOfOne.maxSize < c.shared.sessions.length := by
  have h₂ := run_to_connect (fun _ _ => True) fun _ _ _ => trivial
  have h₃ := Program.Reach.fst h₂ trivial .connect
  have h₄ := Program.Reach.snd h₃ trivial .acquire
  have h₅ := Program.Reach.snd h₄ trivial (.look freshSession rfl)
  have h₆ := Program.Reach.snd h₅ trivial .connect
  have h₇ := Program.Reach.fst h₆ trivial (.connected 5)
  have h₈ := Program.Reach.snd h₇ trivial (.connected 6)
  have h₉ := Program.Reach.fst h₈ trivial (.push rfl)
  have h₁₀ := Program.Reach.snd h₉ trivial (.push rfl)
  exact ⟨_, h₁₀, by decide⟩

end Run

end DistillFs
