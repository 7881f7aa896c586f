import DistillFs.Backend.Peer.ResponseStream
import DistillFs.Foundation.Conservation

/-!
# The connections of a server

A server has an accept loop for each of its two transports, and both take the permits of one
semaphore. A loop accepts a connection first and waits for a permit then, in which it does not look
at the shutdown. With the permit it spawns a task that counts the connection, handles it, takes it
off the count again and drops the permit. The error of one accept ends the loop, and with it the
transport; the other loop goes on.

Nobody closes the semaphore, so that the wait for a permit never fails.

## Main definitions

* `ServerState`, `ServerTask`, `ServerPc`, `ServerStep`, `serverProgram`: the tasks of a server.
* `ServerPc.permit`, `ServerPc.counted`: what a task holds.

## Main results

* `connections_bounded`: there are never too many connections, and the counters tell how many.
-/

namespace DistillFs

open Foundation

/-- What the accept loops and the connections of a server share. -/
structure ServerState where
  /-- The permits of the semaphore that are free. -/
  permits : ℕ
  /-- The transports of the tasks that are spawned and have not begun. Each has its permit. -/
  spawned : Multiset Transport
  /-- The counter of the metrics. -/
  activeConnections : Transport → ℤ
  isShutdown : Bool

/-- The accept loops, and the tasks of the connections. -/
inductive ServerTask (H : Type*)
  | acceptLoop (transport : Transport)
  | connection (task : H)
  deriving DecidableEq

inductive ServerPc
  | selecting
  /-- It has accepted a connection and waits for a permit. -/
  | acquiring
  | acquired
  | returned (result : Except IoError Unit)
  /-- A task that is not spawned yet. -/
  | unspawned
  | begun (transport : Transport)
  | handling (transport : Transport)
  | handled (transport : Transport)
  /-- It is about to drop its permit. -/
  | uncounted
  | done

/-- The permits of a task. -/
def ServerPc.permit : ServerPc → ℕ
  | .acquired | .begun _ | .handling _ | .handled _ | .uncounted => 1
  | _ => 0

/-- What a task adds to the counter of a transport. -/
def ServerPc.counted (transport : Transport) : ServerPc → ℕ
  | .handling transport' | .handled transport' => if transport' = transport then 1 else 0
  | _ => 0

section Steps

variable {H : Type*}

/-- The steps of the tasks of a server. -/
inductive ServerStep :
    ServerTask H → ServerState → ServerPc → ServerState → ServerPc → Prop
  | accept {tr : Transport} {s : ServerState} :
      ServerStep (.acceptLoop tr) s .selecting s .acquiring
  | acceptError {tr : Transport} {s : ServerState} (err : IoError) :
      ServerStep (.acceptLoop tr) s .selecting s (.returned (.error err))
  | stop {tr : Transport} {s : ServerState} (h : s.isShutdown = true) :
      ServerStep (.acceptLoop tr) s .selecting s (.returned (.ok ()))
  | acquire {tr : Transport} {s : ServerState} {n : ℕ} (h : s.permits = n + 1) :
      ServerStep (.acceptLoop tr) s .acquiring { s with permits := n } .acquired
  | spawn {tr : Transport} {s : ServerState} :
      ServerStep (.acceptLoop tr) s .acquired { s with spawned := tr ::ₘ s.spawned } .selecting
  | start {task : H} {s : ServerState} {tr : Transport} {rest : Multiset Transport}
      (h : s.spawned = tr ::ₘ rest) :
      ServerStep (.connection task) s .unspawned { s with spawned := rest } (.begun tr)
  | count {task : H} {s : ServerState} {tr : Transport} :
      ServerStep (.connection task) s (.begun tr)
        { s with
          activeConnections := Function.update s.activeConnections tr (s.activeConnections tr + 1) }
        (.handling tr)
  | handle {task : H} {s : ServerState} {tr : Transport} :
      ServerStep (.connection task) s (.handling tr) s (.handled tr)
  | uncount {task : H} {s : ServerState} {tr : Transport} :
      ServerStep (.connection task) s (.handled tr)
        { s with
          activeConnections := Function.update s.activeConnections tr (s.activeConnections tr - 1) }
        .uncounted
  | dropPermit {task : H} {s : ServerState} :
      ServerStep (.connection task) s .uncounted { s with permits := s.permits + 1 } .done

/-- Where a task starts. -/
def ServerTask.start : ServerTask H → ServerPc
  | .acceptLoop _ => .selecting
  | .connection _ => .unspawned

/-- The tasks of a server, which somebody may shut down. -/
def serverProgram (H : Type*) (maxConnections : ℕ) :
    Program (ServerTask H) Unit ServerState ServerPc where
  init c := c.shared = ⟨maxConnections, 0, fun _ => 0, false⟩ ∧ ∀ t, c.loc t = t.start
  step := ServerStep
  env _ s s' := s' = { s with isShutdown := true }

end Steps

section Results

variable {H : Type*} [DecidableEq H] {maxConnections : ℕ}
  {c : Config (ServerTask H) ServerState ServerPc} {pc : ServerPc} {tr : Transport}

/-! ### Permits and counters -/

omit [DecidableEq H] in
/-- A step moves permits only between the task and the semaphore. -/
theorem ServerStep.permits {t : ServerTask H} {s s' : ServerState} {pc pc' : ServerPc}
    (h : ServerStep t s pc s' pc') :
    s'.permits + s'.spawned.card + pc'.permit = s.permits + s.spawned.card + pc.permit := by
  cases h with
  | acquire h =>
    rw [h]
    simp only [ServerPc.permit]
    omega
  | spawn =>
    simp only [Multiset.card_cons, ServerPc.permit]
    omega
  | start h =>
    rw [h]
    simp only [Multiset.card_cons, ServerPc.permit]
    omega
  | dropPermit =>
    simp only [ServerPc.permit]
    omega
  | _ => rfl

omit [DecidableEq H] in
/-- A step changes a counter by what the task adds to it. -/
theorem ServerStep.counted {t : ServerTask H} {s s' : ServerState} {pc pc' : ServerPc}
    (h : ServerStep t s pc s' pc') (tr : Transport) :
    -s'.activeConnections tr + (pc'.counted tr : ℤ) =
      -s.activeConnections tr + (pc.counted tr : ℤ) := by
  cases h with
  | @count _ _ tr' =>
    by_cases heq : tr' = tr
    · subst heq
      simp only [ServerPc.counted, Function.update_self, if_true]
      push_cast
      ring
    · simp only [ServerPc.counted, Function.update_of_ne (Ne.symm heq), if_neg heq]
  | @uncount _ _ tr' =>
    by_cases heq : tr' = tr
    · subst heq
      simp only [ServerPc.counted, Function.update_self, if_true]
      push_cast
      ring
    · simp only [ServerPc.counted, Function.update_of_ne (Ne.symm heq), if_neg heq]
  | _ => rfl

theorem permits_balanced (hc : (serverProgram H maxConnections).toSystem.Reachable c) :
    Program.Balanced (fun s => s.permits + s.spawned.card) ServerPc.permit maxConnections c := by
  refine Program.conserved (fun c hinit => ?_) (fun _ _ _ _ _ => ServerStep.permits)
    (fun _ s s' h => ?_) hc
  · refine ⟨by rw [hinit.1]; rfl, fun t => ?_⟩
    rw [hinit.2 t]
    cases t <;> rfl
  · obtain rfl := h
    rfl

theorem counted_balanced (hc : (serverProgram H maxConnections).toSystem.Reachable c)
    (tr : Transport) :
    Program.Balanced (fun s => -s.activeConnections tr) (fun pc => (pc.counted tr : ℤ)) 0 c := by
  refine Program.conserved (fun c hinit => ?_) (fun _ _ _ _ _ h => ServerStep.counted h tr)
    (fun _ s s' h => ?_) hc
  · refine ⟨by rw [hinit.1]; rfl, fun t => ?_⟩
    rw [hinit.2 t]
    cases t <;> rfl
  · obtain rfl := h
    rfl

/-! ### Connections -/

omit [DecidableEq H] in
theorem ServerPc.counted_le_permit : pc.counted tr ≤ pc.permit := by
  cases pc with
  | handling tr' | handled tr' =>
    change (if tr' = tr then 1 else 0) ≤ 1
    split_ifs
    · exact le_rfl
    · exact Nat.zero_le 1
  | _ => exact Nat.zero_le _

omit [DecidableEq H] in
theorem ServerPc.permit_le_one : pc.permit ≤ 1 := by
  cases pc with
  | acquired | begun | handling | handled | uncounted => exact le_rfl
  | _ => exact Nat.zero_le 1

/-- The tasks with permits are not more than there are permits. -/
theorem card_permits_le (hc : (serverProgram H maxConnections).toSystem.Reachable c)
    {F : Finset (ServerTask H)} (hF : ∀ t ∈ F, (c.loc t).permit = 1) : F.card ≤ maxConnections := by
  have hsum : ∑ t ∈ F, (c.loc t).permit = F.card := by
    rw [Finset.sum_congr rfl hF, Finset.sum_const, smul_eq_mul, mul_one]
  have hle := (permits_balanced hc).sum_held_le F
  omega

/-- The counter of a transport is the number of its tasks that are counted. -/
theorem exists_counted (hc : (serverProgram H maxConnections).toSystem.Reachable c)
    (tr : Transport) : ∃ F : Finset (ServerTask H), (∀ t, t ∈ F ↔ (c.loc t).counted tr = 1) ∧
      c.shared.activeConnections tr = F.card := by
  have hheld : (fun pc : ServerPc => (pc.counted tr : ℤ)) =
      fun pc => if pc.counted tr = 1 then 1 else 0 := by
    funext pc
    have hle : pc.counted tr ≤ 1 := ServerPc.counted_le_permit.trans ServerPc.permit_le_one
    rcases Nat.le_one_iff_eq_zero_or_eq_one.mp hle with h | h
    · rw [h]
      rfl
    · rw [h]
      rfl
  have hbalanced := counted_balanced hc tr
  rw [hheld] at hbalanced
  obtain ⟨F, hF, hsum⟩ := hbalanced.exists_holders
  exact ⟨F, hF, neg_add_eq_zero.mp hsum⟩

/-- **Connections.** However the tasks of a server interleave, never more tasks than
`max_connections` are at work, on both transports together. The counter of a transport is the number
of its connections that are handled, so that it is never negative and the two together never exceed
`max_connections`. And no permit is lost: when no task has one, and none waits to begin, all are
free. -/
theorem connections_bounded (hc : (serverProgram H maxConnections).toSystem.Reachable c) :
    (∀ F : Finset (ServerTask H), (∀ t ∈ F, (c.loc t).permit = 1) → F.card ≤ maxConnections) ∧
    (∀ tr, ∃ F : Finset (ServerTask H), (∀ t, t ∈ F ↔ (c.loc t).counted tr = 1) ∧
      c.shared.activeConnections tr = F.card) ∧
    c.shared.activeConnections .tcp + c.shared.activeConnections .unix ≤ maxConnections ∧
    (c.shared.spawned = 0 → (∀ t, (c.loc t).permit = 0) → c.shared.permits = maxConnections) := by
  refine ⟨fun F hF => card_permits_le hc hF, exists_counted hc, ?_, fun hspawned hnone => ?_⟩
  · obtain ⟨F, hmemF, hF⟩ := exists_counted hc .tcp
    obtain ⟨G, hmemG, hG⟩ := exists_counted hc .unix
    have hdisjoint : Disjoint F G := by
      refine Finset.disjoint_left.mpr fun t htF htG => ?_
      have htcp := (hmemF t).mp htF
      have hunix := (hmemG t).mp htG
      cases hpc : c.loc t with
      | handling tr | handled tr =>
        rw [hpc] at htcp hunix
        cases tr <;> simp [ServerPc.counted] at htcp hunix
      | _ =>
        rw [hpc] at htcp
        cases htcp
    have hpermit (tr : Transport) (t : ServerTask H) (h : (c.loc t).counted tr = 1) :
        (c.loc t).permit = 1 :=
      le_antisymm ServerPc.permit_le_one (h.ge.trans ServerPc.counted_le_permit)
    have hle : (F ∪ G).card ≤ maxConnections := card_permits_le hc fun t ht =>
      (Finset.mem_union.mp ht).elim (fun h => hpermit _ t ((hmemF t).mp h))
        (fun h => hpermit _ t ((hmemG t).mp h))
    rw [Finset.card_union_of_disjoint hdisjoint] at hle
    rw [hF, hG]
    exact_mod_cast hle
  · obtain ⟨T, -, hsum⟩ := permits_balanced hc
    change c.shared.permits + c.shared.spawned.card + _ = maxConnections at hsum
    rw [hspawned, Multiset.card_zero, Finset.sum_congr rfl fun t _ => hnone t,
      Finset.sum_const_zero] at hsum
    exact hsum

end Results

/-- One connection is handled and another one waits for the only permit. -/
theorem connections_bounded_run : ∃ c : Config (ServerTask ℕ) ServerState ServerPc,
    c.loc (.connection 0) = .handling .tcp ∧ c.loc (.acceptLoop .unix) = .acquiring ∧
    c.shared.activeConnections .tcp = 1 ∧
    ∀ F : Finset (ServerTask ℕ), (∀ t ∈ F, (c.loc t).permit = 1) → F.card ≤ 1 := by
  have h₀ : (serverProgram ℕ 1).toSystem.Reachable ⟨⟨1, 0, fun _ => 0, false⟩, ServerTask.start⟩ :=
    .init ⟨rfl, fun _ => rfl⟩
  have hnext {s s' : ServerState} {loc : ServerTask ℕ → ServerPc} {pc : ServerPc} (t : ServerTask ℕ)
      (h : (serverProgram ℕ 1).toSystem.Reachable ⟨s, loc⟩) (hstep : ServerStep t s (loc t) s' pc) :
      (serverProgram ℕ 1).toSystem.Reachable ⟨s', Function.update loc t pc⟩ :=
    Program.Reach.thread t h trivial hstep rfl
  have h₁ := hnext (.acceptLoop .tcp) h₀ .accept
  have h₂ := hnext (.acceptLoop .tcp) h₁ (.acquire rfl)
  have h₃ := hnext (.acceptLoop .tcp) h₂ .spawn
  have h₄ := hnext (.connection 0) h₃ (.start (Multiset.cons_zero Transport.tcp).symm)
  have h₅ := hnext (.connection 0) h₄ .count
  have h₆ := hnext (.acceptLoop .unix) h₅ .accept
  exact ⟨_, rfl, rfl, rfl, (connections_bounded h₆).1⟩

end DistillFs
