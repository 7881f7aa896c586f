import DistillFs.Foundation.Transition

/-!
# The rate limiter of log messages

Messages that could flood the log are guarded by a limiter. It keeps the time of the last message in
an atomic, and lets a message through when this time is an interval ago and it can exchange it for
the present time. A limiter is used by any number of threads without a lock. The clock is the one of
the system, which can be set forward and back at any moment.

The sum of the last time and the interval is one of 64 bits; a release build lets it wrap around.

## Main definitions

* `RateLimitedLog`, `ShouldLogPc`, `ShouldLogStep`, `rateLimitedLog`: the calls of a limiter.
* `ClockFits`: the clock is so far below 2^64 that no sum wraps around.

## Main results

* `rateLimitedLog_spaced`: how far messages are apart, and why a call is refused.
-/

namespace DistillFs

open Foundation

/-- A limiter with the clock that its calls read. -/
structure RateLimitedLog where
  lastEpochSecs : ℕ
  /-- `now_epoch_secs`. -/
  clock : ℕ
  /-- The times of the messages that were let through, in order. -/
  logged : List ℕ

/-- Where a call of `should_log` stands. It keeps the number of messages that were let through when
it began. -/
inductive ShouldLogPc
  | idle
  | called (since : ℕ)
  | timed (since now : ℕ)
  | loaded (since now prev : ℕ)
  | returned (since now : ℕ) (result : Bool)

/-- The comparison of `should_log`. -/
def intervalPassed (intervalSecs now prev : ℕ) : Prop := (prev + intervalSecs) % 2 ^ 64 ≤ now

/-- The steps of a call. -/
inductive ShouldLogStep (intervalSecs : ℕ) :
    RateLimitedLog → ShouldLogPc → RateLimitedLog → ShouldLogPc → Prop
  | call {s : RateLimitedLog} : ShouldLogStep intervalSecs s .idle s (.called s.logged.length)
  | readClock {s : RateLimitedLog} {n : ℕ} :
      ShouldLogStep intervalSecs s (.called n) s (.timed n s.clock)
  | load {s : RateLimitedLog} {n now : ℕ} :
      ShouldLogStep intervalSecs s (.timed n now) s (.loaded n now s.lastEpochSecs)
  | tooEarly {s : RateLimitedLog} {n now prev : ℕ} (h : ¬intervalPassed intervalSecs now prev) :
      ShouldLogStep intervalSecs s (.loaded n now prev) s (.returned n now false)
  | exchange {s : RateLimitedLog} {n now prev : ℕ} (h : intervalPassed intervalSecs now prev)
      (hsame : s.lastEpochSecs = prev) :
      ShouldLogStep intervalSecs s (.loaded n now prev)
        { s with
          lastEpochSecs := now
          logged := s.logged ++ [now] }
        (.returned n now true)
  | overtaken {s : RateLimitedLog} {n now prev : ℕ} (h : intervalPassed intervalSecs now prev)
      (hother : s.lastEpochSecs ≠ prev) :
      ShouldLogStep intervalSecs s (.loaded n now prev) s (.returned n now false)

/-- The calls of a new limiter. The clock is set to any time at any moment. -/
def rateLimitedLog (τ : Type*) (intervalSecs : ℕ) : Program τ ℕ RateLimitedLog ShouldLogPc where
  init c := c.shared = ⟨0, 0, []⟩ ∧ ∀ t, c.loc t = .idle
  step _ := ShouldLogStep intervalSecs
  env time s s' := s' = { s with clock := time }

/-- The clock and the interval together stay below 2^64. -/
def ClockFits {τ : Type*} (intervalSecs : ℕ) (_ : Config τ RateLimitedLog ShouldLogPc) :
    τ ⊕ ℕ → Prop
  | .inl _ => True
  | .inr time => time + intervalSecs < 2 ^ 64

namespace RateLimitedLog

variable {τ : Type*} {intervalSecs : ℕ} {s s' : RateLimitedLog} {pc pc' : ShouldLogPc} {n : ℕ}

/-- The last time is that of the last message, and of the messages each is an interval after those
before it. -/
structure Inv (intervalSecs : ℕ) (s : RateLimitedLog) : Prop where
  clock_lt : s.clock + intervalSecs < 2 ^ 64
  last_lt : s.lastEpochSecs + intervalSecs < 2 ^ 64
  last_mem : s.lastEpochSecs ∈ 0 :: s.logged
  last_le : ∀ time ∈ s.logged, time ≤ s.lastEpochSecs
  spaced : s.logged.Pairwise fun a b => a + intervalSecs ≤ b

/-- A call has been overtaken since it loaded the last time, or this is still the last time. A call
that is refused was overtaken, or it came too early after a message. -/
def Own (intervalSecs : ℕ) (s : RateLimitedLog) : ShouldLogPc → Prop
  | .idle => True
  | .called n => n ≤ s.logged.length
  | .timed n now => n ≤ s.logged.length ∧ now + intervalSecs < 2 ^ 64
  | .loaded n now prev => (n < s.logged.length ∨ n ≤ s.logged.length ∧ s.lastEpochSecs = prev) ∧
      now + intervalSecs < 2 ^ 64 ∧ prev + intervalSecs < 2 ^ 64 ∧ prev ∈ 0 :: s.logged
  | .returned _ now true => now ∈ s.logged
  | .returned n now false =>
      n < s.logged.length ∨ ∃ prev ∈ 0 :: s.logged, now < prev + intervalSecs

theorem intervalPassed_iff {now prev : ℕ} (h : prev + intervalSecs < 2 ^ 64) :
    intervalPassed intervalSecs now prev ↔ prev + intervalSecs ≤ now := by
  rw [intervalPassed, Nat.mod_eq_of_lt h]

/-- What a call knows is not lost when another one logs. -/
theorem Own.append {now : ℕ} (h : s.Own intervalSecs pc)
    (hlogged : s'.logged = s.logged ++ [now]) : s'.Own intervalSecs pc := by
  have hlen : s'.logged.length = s.logged.length + 1 := by
    rw [hlogged, List.length_append, List.length_singleton]
  have hmem {time : ℕ} (htime : time ∈ 0 :: s.logged) : time ∈ 0 :: s'.logged := by
    rw [hlogged, ← List.cons_append]
    exact List.mem_append_left _ htime
  cases pc with
  | idle => trivial
  | called n => exact (Nat.le_succ_of_le h).trans hlen.ge
  | timed n now => exact ⟨(Nat.le_succ_of_le h.1).trans hlen.ge, h.2⟩
  | loaded n now prev =>
    obtain ⟨hn, hnow, hprev, hin⟩ := h
    refine ⟨Or.inl ?_, hnow, hprev, hmem hin⟩
    rw [hlen]
    exact Nat.lt_succ_of_le (hn.elim Nat.le_of_lt And.left)
  | returned n now result =>
    cases result with
    | true =>
      change now ∈ s'.logged
      rw [hlogged]
      exact List.mem_append_left _ h
    | false =>
      refine h.imp (fun hn => ?_) fun ⟨prev, hprev, hnow⟩ => ⟨prev, hmem hprev, hnow⟩
      rw [hlen]
      exact Nat.lt_succ_of_lt hn

/-- A message is let through an interval after all messages before. -/
theorem Inv.log (h : s.Inv intervalSecs) {now : ℕ} (hnow : now + intervalSecs < 2 ^ 64)
    (hpassed : s.lastEpochSecs + intervalSecs ≤ now) :
    Inv intervalSecs
      { s with
        lastEpochSecs := now
        logged := s.logged ++ [now] } where
  clock_lt := h.clock_lt
  last_lt := hnow
  last_mem := List.mem_cons_of_mem _ (List.mem_append_right _ (List.mem_singleton_self now))
  last_le time htime := by
    rcases List.mem_append.mp htime with hold | hnew
    · exact (h.last_le time hold).trans (Nat.le_of_add_right_le hpassed)
    · exact (List.mem_singleton.mp hnew).le
  spaced := by
    refine List.pairwise_append.mpr ⟨h.spaced, List.pairwise_singleton _ now, ?_⟩
    intro a ha b hb
    rw [List.mem_singleton.mp hb]
    exact (Nat.add_le_add_right (h.last_le a ha) intervalSecs).trans hpassed

theorem Inv.step (hinv : s.Inv intervalSecs) (hown : s.Own intervalSecs pc)
    (h : ShouldLogStep intervalSecs s pc s' pc') :
    s'.Inv intervalSecs ∧ s'.Own intervalSecs pc' := by
  cases h with
  | call => exact ⟨hinv, le_rfl⟩
  | readClock => exact ⟨hinv, hown, hinv.clock_lt⟩
  | load => exact ⟨hinv, Or.inr ⟨hown.1, rfl⟩, hown.2, hinv.last_lt, hinv.last_mem⟩
  | tooEarly hearly =>
    obtain ⟨-, -, hprev, hin⟩ := hown
    rw [intervalPassed_iff hprev, not_le] at hearly
    exact ⟨hinv, Or.inr ⟨_, hin, hearly⟩⟩
  | exchange hpassed hsame =>
    subst hsame
    rw [intervalPassed_iff hinv.last_lt] at hpassed
    exact ⟨hinv.log hown.2.1 hpassed, List.mem_append_right _ (List.mem_singleton_self _)⟩
  | overtaken _ hother =>
    exact ⟨hinv, Or.inl (hown.1.resolve_right fun hsame => hother hsame.2)⟩

/-- A step of a call lets a message through or leaves the limiter alone. -/
theorem Own.other (hown : s.Own intervalSecs pc) {pcu : ShouldLogPc}
    (hu : s.Own intervalSecs pcu) (h : ShouldLogStep intervalSecs s pc s' pc') :
    s'.Own intervalSecs pcu := by
  cases h with
  | exchange => exact hu.append rfl
  | call | readClock | load | tooEarly | overtaken => exact hu

/-- The clock is not part of what a call knows. -/
theorem Own.setClock (h : s.Own intervalSecs pc) (time : ℕ) :
    Own intervalSecs { s with clock := time } pc := by
  cases pc with
  | returned n now result => cases result <;> exact h
  | idle | called | timed | loaded => exact h

end RateLimitedLog

open RateLimitedLog in
/-- **Messages are spaced.** However the calls of a limiter interleave and the clock is set, any two
messages are an interval apart, the later one after the earlier one by the clock; and a call that is
refused saw a message less than an interval before its own time, or another call has logged
meanwhile. -/
theorem rateLimitedLog_spaced {τ : Type*} [DecidableEq τ] {intervalSecs : ℕ}
    (hinterval : intervalSecs < 2 ^ 64) {c : Config τ RateLimitedLog ShouldLogPc}
    (hc : (rateLimitedLog τ intervalSecs).toSystem.Reach (ClockFits intervalSecs) c) :
    (c.shared.logged.Pairwise fun a b => a + intervalSecs ≤ b) ∧
    ∀ t since now result, c.loc t = .returned since now result →
      if result = true then now ∈ c.shared.logged
      else since < c.shared.logged.length ∨
        ∃ prev ∈ 0 :: c.shared.logged, now < prev + intervalSecs := by
  have hholds := Program.invariant (I := Inv intervalSecs) (A := fun _ => Own intervalSecs)
    (fun c hinit => ?_) (fun c t s' pc' hholds _ h => hholds.1.step (hholds.2 t) h)
    (fun c t u s' pc' hholds _ _ h => (hholds.2 t).other (hholds.2 u) h)
    (fun c time s' hholds hok h => ?_) hc
  · refine ⟨hholds.1.spaced, fun t since now result ht => ?_⟩
    have hown := hholds.2 t
    rw [ht] at hown
    cases result with
    | true => exact hown
    | false => exact hown
  · refine ⟨?_, fun t => ?_⟩
    · rw [hinit.1]
      exact ⟨(Nat.zero_add _).trans_lt hinterval, (Nat.zero_add _).trans_lt hinterval,
        List.mem_singleton_self 0, fun _ h => absurd h List.not_mem_nil, List.Pairwise.nil⟩
    · rw [hinit.2 t]
      trivial
  · subst h
    refine ⟨⟨hok, hholds.1.last_lt, hholds.1.last_mem, hholds.1.last_le, hholds.1.spaced⟩,
      fun u => (hholds.2 u).setClock time⟩

/-- Two calls at the same time, one of which is overtaken. -/
theorem rateLimitedLog_spaced_twoCalls : ∃ c : Config Bool RateLimitedLog ShouldLogPc,
    c.shared.logged = [100] ∧ c.loc true = .returned 0 100 false ∧
      (c.shared.logged.Pairwise fun a b => a + 30 ≤ b) := by
  have h₀ : (rateLimitedLog Bool 30).toSystem.Reach (ClockFits 30)
      ⟨⟨0, 0, []⟩, fun t => cond t .idle .idle⟩ := .init ⟨rfl, fun t => by cases t <;> rfl⟩
  have h₁ := Program.Reach.env (e := 100) h₀ (by simp [ClockFits]) rfl
  have h₂ := Program.Reach.fst h₁ trivial .call
  have h₃ := Program.Reach.fst h₂ trivial .readClock
  have h₄ := Program.Reach.fst h₃ trivial .load
  have h₅ := Program.Reach.snd h₄ trivial .call
  have h₆ := Program.Reach.snd h₅ trivial .readClock
  have h₇ := Program.Reach.snd h₆ trivial .load
  have h₈ := Program.Reach.snd h₇ trivial (.exchange (by simp [intervalPassed]) rfl)
  have h₉ := Program.Reach.fst h₈ trivial (.overtaken (by simp [intervalPassed]) (by decide))
  exact ⟨_, rfl, rfl, (rateLimitedLog_spaced (by decide) h₉).1⟩

end DistillFs
