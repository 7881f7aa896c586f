import DistillFs.Backend.Peer.Owners
import DistillFs.Foundation.Pipeline

/-!
# Registrations that fail

`register_many` runs the script of a registration for each checksum, in pipelines of 1000, and then
enters the checksums that were retained into the tracker. `unregister_many` removes the address
under each key, in pipelines as well, and then takes the checksums out of the tracker. A pipeline
that fails ends the call with an error, and the tracker is left as it was, while the pipelines
before it have changed Redis.

The functions here are whole calls with nobody else at Redis. Which of their requests fail is part
of the input. Calls that do not fail are steps of a task.

## Main definitions

* `RedisChunkIndex.registerMany`, `RedisChunkIndex.unregisterMany`.
* `IndexNode.Agrees`: the tracker has the checksums that Redis lists for the node.
* `RedisChunkIndex.FailsAfter`: the condition on failures.
* `RedisChunkIndex.CallEnds`: how a call ends.
* `RedisChunkIndex.IndexSteps`: some steps of a task.

## Main results

* `RedisChunkIndex.steps_registerMany`, `RedisChunkIndex.steps_unregisterMany`: calls as steps.
* `RedisChunkIndex.agreement_kept_iff`: which calls keep tracker and Redis in agreement.
* `RedisChunkIndex.registered_untracked`: a failing call after which they disagree.
-/

namespace DistillFs

open Foundation

namespace RedisChunkIndex

variable {α : Type*} [LinearOrder α] (addr : α) (ttl : ℕ)

/-- The command that registers a checksum at time `now`. It answers the checksum if it was
retained. -/
def registerCommand (now : ℕ) (cs : CheckSum) (owners : SortedSet α) :
    List CheckSum × SortedSet α :=
  let r := registerScript owners addr now ttl maxChunkOwners
  (if r.2 then [cs] else [], r.1)

/-- The command that unregisters a checksum. -/
def unregisterCommand (_ : CheckSum) (owners : SortedSet α) : List Unit × SortedSet α :=
  ([], owners.rem addr)

/-- `register_many`. The first two requests connect and load the script. -/
def registerMany (faults : ℕ → Option IoError) (checksums : List CheckSum) (s : IndexNode α) :
    Except IoError ℕ × IndexNode α :=
  if checksums = [] then (.ok 0, s)
  else
    match faults 0 with
    | some e => (.error e, s)
    | none =>
      match faults 1 with
      | some e => (.error e, s)
      | none =>
        match pipelines (onKey (registerCommand addr ttl s.clock)) (fun i => faults (i + 2))
          (batches redisRegisterBatchSize checksums) [] s.redis with
        | (.error e, redis) => (.error e, { s with redis := redis })
        | (.ok retained, redis) =>
          (.ok retained.length,
            { s with
              redis := redis
              tracker := s.tracker ∪ retained.toFinset })

/-- `unregister_many`. The first request connects. -/
def unregisterMany (faults : ℕ → Option IoError) (checksums : List CheckSum) (s : IndexNode α) :
    Except IoError Unit × IndexNode α :=
  if checksums = [] then (.ok (), s)
  else
    match faults 0 with
    | some e => (.error e, s)
    | none =>
      match pipelines (onKey (unregisterCommand addr)) (fun i => faults (i + 1))
        (batches redisRegisterBatchSize checksums) [] s.redis with
      | (.error e, redis) => (.error e, { s with redis := redis })
      | (.ok _, redis) =>
        (.ok (),
          { s with
            redis := redis
            tracker := s.tracker \ checksums.toFinset })

end RedisChunkIndex

/-- The tracker has the checksums for which Redis lists the address. -/
def IndexNode.Agrees {α : Type*} (s : IndexNode α) (addr : α) : Prop :=
  ∀ cs, cs ∈ s.tracker ↔ addr ∈ s.redis cs

/-- No other address owns a chunk. -/
def IndexNode.Sole {α : Type*} (s : IndexNode α) (addr : α) : Prop :=
  ∀ cs, ∀ a ∈ s.redis cs, a = addr

namespace RedisChunkIndex

/-- A pipeline of a call fails, the first of them request number `start`, when those before it have
been executed for a checksum with a property. -/
def FailsAfter (start : ℕ) (faults : ℕ → Option IoError) (checksums : List CheckSum)
    (P : CheckSum → Prop) : Prop :=
  ∃ i < (batches redisRegisterBatchSize checksums).length, (∀ j < i + start, faults j = none) ∧
    faults (i + start) ≠ none ∧ ∃ cs ∈ checksums.take (i * redisRegisterBatchSize), P cs

/-! ### What the pipelines do -/

section Calls

variable {α : Type*} [LinearOrder α] {addr : α} {ttl : ℕ} {s : IndexNode α}
  {faults : ℕ → Option IoError}

/-- An address without others is retained. -/
theorem registerCommand_of_sole (ttl now : ℕ) (cs : CheckSum) {owners : SortedSet α}
    (h : ∀ a ∈ owners, a = addr) :
    (registerCommand addr ttl now cs owners).1 = [cs] ∧
      addr ∈ (registerCommand addr ttl now cs owners).2 ∧
      ∀ a ∈ (registerCommand addr ttl now cs owners).2, a = addr := by
  have hnewer : newerOwners owners addr now (now - ttl) = ∅ :=
    Finset.filter_eq_empty_iff.mpr fun p hp hnew => hnew.1 (h p.1 ⟨p, hp, rfl⟩)
  have hfew : (newerOwners owners addr now (now - ttl)).card < maxChunkOwners := by
    rw [hnewer, Finset.card_empty]
    exact Nat.zero_lt_succ 2
  have hmem := mem_registerScript hfew
  refine ⟨if_pos (registerScript_snd_iff.mpr hmem), hmem, ?_⟩
  rintro a ⟨p, hp, rfl⟩
  rcases mem_entries_liveOwners.mp (SortedSet.mem_of_mem_trim hp) with rfl | ⟨⟨hold, -⟩, -⟩
  · rfl
  · exact h p.1 ⟨p, hold, rfl⟩

theorem pipeline_registerCommand (ttl now : ℕ) {redis : CheckSum → SortedSet α}
    (h : ∀ cs, ∀ a ∈ redis cs, a = addr) (l : List CheckSum) :
    (pipeline (onKey (registerCommand addr ttl now)) l redis).1 = l ∧
      ∀ cs, addr ∈ (pipeline (onKey (registerCommand addr ttl now)) l redis).2 cs ↔
        addr ∈ redis cs ∨ cs ∈ l := by
  induction l generalizing redis with
  | nil => exact ⟨rfl, fun cs => by simp [pipeline]⟩
  | cons first rest ih =>
    obtain ⟨hretained, hmem, hsole⟩ := registerCommand_of_sole ttl now first (h first)
    have hnext : ∀ cs, ∀ a ∈ (onKey (registerCommand addr ttl now) first redis).2 cs,
        a = addr := fun cs => by
      by_cases hcs : cs = first
      · subst hcs
        rw [onKey_self]
        exact hsole
      · rw [onKey_of_ne hcs]
        exact h cs
    obtain ⟨hrest, hiff⟩ := ih hnext
    refine ⟨?_, fun cs => (hiff cs).trans ?_⟩
    · rw [pipeline, hrest]
      exact congrArg (· ++ rest) hretained
    · rw [List.mem_cons]
      by_cases hcs : cs = first
      · subst hcs
        rw [onKey_self]
        exact iff_of_true (Or.inl hmem) (Or.inr (Or.inl rfl))
      · rw [onKey_of_ne hcs, or_iff_right hcs]

theorem pipeline_unregisterCommand {redis : CheckSum → SortedSet α} (l : List CheckSum)
    (cs : CheckSum) : addr ∈ (pipeline (onKey (unregisterCommand addr)) l redis).2 cs ↔
      addr ∈ redis cs ∧ cs ∉ l := by
  induction l generalizing redis with
  | nil => simp [pipeline]
  | cons first rest ih =>
    refine ih.trans ?_
    rw [List.mem_cons, not_or]
    by_cases hcs : cs = first
    · subst hcs
      rw [onKey_self]
      exact iff_of_false (fun h => SortedSet.notMem_rem _ _ h.1) fun h => h.2.1 rfl
    · rw [onKey_of_ne hcs, and_iff_right hcs]

/-! ### How a call ends -/

/-- How a call ends whose pipelines begin with request `start`: `executed l` is the state after the
commands for `l`, and `finished` the result and the state after all of them and the use of the
tracker. -/
inductive CallEnds {ρ : Type*} (start : ℕ) (faults : ℕ → Option IoError)
    (checksums : List CheckSum) (executed : List CheckSum → IndexNode α)
    (finished : ρ × IndexNode α) : Except IoError ρ × IndexNode α → Prop
  | early {j : ℕ} {e : IoError} (hj : j < start) (h : faults j = some e) :
      CallEnds start faults checksums executed finished (.error e, executed [])
  | failed {i : ℕ} {e : IoError} (hi : i < (batches redisRegisterBatchSize checksums).length)
      (hearly : ∀ j < start, faults j = none) (hbefore : ∀ j < i, faults (j + start) = none)
      (hfault : faults (i + start) = some e) :
      CallEnds start faults checksums executed finished
        (.error e, executed (checksums.take (i * redisRegisterBatchSize)))
  | finished
      (h : ∀ i < (batches redisRegisterBatchSize checksums).length, faults (i + start) = none) :
      CallEnds start faults checksums executed finished (.ok finished.1, finished.2)

omit [LinearOrder α] in
theorem CallEnds.nothing {ρ : Type*} (faults : ℕ → Option IoError) (start : ℕ)
    (executed : List CheckSum → IndexNode α) (finished : ρ × IndexNode α) :
    CallEnds start faults [] executed finished (.ok finished.1, finished.2) :=
  .finished fun _ hi => absurd hi (Nat.not_lt_zero _)

omit [LinearOrder α] in
/-- When the commands for some checksums keep tracker and Redis in agreement unless one of them has
a property, and the whole call does so, then the call does so unless it fails after a checksum with
the property. -/
theorem CallEnds.agrees_iff {ρ : Type*} {start : ℕ} {checksums : List CheckSum}
    {P : CheckSum → Prop} {executed : List CheckSum → IndexNode α} {finished : ρ × IndexNode α}
    {r : Except IoError ρ × IndexNode α}
    (h : CallEnds start faults checksums executed finished r)
    (hexecuted : ∀ l, (executed l).Agrees addr ↔ ¬∃ cs ∈ l, P cs)
    (hfinished : finished.2.Agrees addr) :
    r.2.Agrees addr ↔ ¬FailsAfter start faults checksums P := by
  cases h with
  | early hj hfault =>
    refine iff_of_true ((hexecuted []).mpr (by simp)) ?_
    rintro ⟨i, -, hbefore, -, -⟩
    have hnone := hbefore _ (hj.trans_le (Nat.le_add_left start i))
    rw [hfault] at hnone
    cases hnone
  | finished hok =>
    refine iff_of_true hfinished ?_
    rintro ⟨i, hi, -, hfault, -⟩
    exact hfault (hok i hi)
  | @failed i e hi hearly hbefore hfault =>
    rw [hexecuted, not_iff_not]
    have hfail : faults (i + start) ≠ none := by simp [hfault]
    have hall : ∀ j < i + start, faults j = none := fun j hj => by
      by_cases hlt : j < start
      · exact hearly j hlt
      · obtain ⟨d, rfl⟩ := Nat.exists_eq_add_of_le' (not_lt.mp hlt)
        exact hbefore d (by omega)
    refine ⟨fun hP => ⟨i, hi, hall, hfail, hP⟩, ?_⟩
    -- the call fails at one request
    rintro ⟨i', -, hbefore', hfail', hP⟩
    rcases lt_trichotomy i' i with hlt | rfl | hgt
    · exact absurd (hbefore i' hlt) hfail'
    · exact hP
    · exact absurd (hbefore' (i + start) (by omega)) hfail

theorem batchSize_pos : 0 < redisRegisterBatchSize := Nat.zero_lt_succ 999

omit [LinearOrder α] in
/-- A call whose first requests succeed ends as its pipelines do. -/
theorem callEnds_of_pipelines {ρ ρ' : Type*} {start : ℕ} {checksums : List CheckSum}
    {command : CheckSum → (CheckSum → SortedSet α) → List ρ' × (CheckSum → SortedSet α)}
    (finish : List ρ' × (CheckSum → SortedSet α) → ρ × IndexNode α)
    {r : Except IoError ρ × IndexNode α} (hearly : ∀ j < start, faults j = none)
    (herr : ∀ e redis, pipelines command (fun i => faults (i + start))
      (batches redisRegisterBatchSize checksums) [] s.redis = (.error e, redis) →
        r = (.error e, { s with redis := redis }))
    (hok : ∀ done redis, pipelines command (fun i => faults (i + start))
      (batches redisRegisterBatchSize checksums) [] s.redis = (.ok done, redis) →
        r = (.ok (finish (done, redis)).1, (finish (done, redis)).2)) :
    CallEnds start faults checksums (fun l => { s with redis := (pipeline command l s.redis).2 })
      (finish (pipeline command checksums s.redis)) r := by
  obtain ⟨i, hi, hbefore, hstate, hresult⟩ := pipelines_cases command
    (fun i => faults (i + start)) s.redis batchSize_pos checksums
  rcases hresult with ⟨rfl, hdone, htake⟩ | ⟨hlt, e, hfault, hfail⟩
  · rw [htake] at hstate
    rw [hok _ _ (Prod.ext hdone hstate)]
    exact .finished hbefore
  · rw [herr _ _ (Prod.ext hfail hstate)]
    exact .failed hlt hearly hbefore hfault

theorem registerMany_ends (checksums : List CheckSum) :
    CallEnds 2 faults checksums
      (fun l =>
        { s with redis := (pipeline (onKey (registerCommand addr ttl s.clock)) l s.redis).2 })
      ((pipeline (onKey (registerCommand addr ttl s.clock)) checksums s.redis).1.length,
        { s with
          redis := (pipeline (onKey (registerCommand addr ttl s.clock)) checksums s.redis).2
          tracker := s.tracker ∪
            (pipeline (onKey (registerCommand addr ttl s.clock)) checksums s.redis).1.toFinset })
      (registerMany addr ttl faults checksums s) := by
  unfold registerMany
  split_ifs with hnil
  · subst hnil
    simpa [pipeline] using CallEnds.nothing faults 2 _ _
  cases hconn : faults 0 with
  | some e => exact .early Nat.two_pos hconn
  | none =>
    cases hload : faults 1 with
    | some e => exact .early one_lt_two hload
    | none =>
      have hearly : ∀ j < 2, faults j = none := fun j hj => by
        interval_cases j
        · exact hconn
        · exact hload
      refine callEnds_of_pipelines (fun p => (p.1.length,
        { s with
          redis := p.2
          tracker := s.tracker ∪ p.1.toFinset })) hearly (fun e redis h => ?_)
        fun done redis h => ?_
      · simp only [h]
      · simp only [h]

theorem unregisterMany_ends (checksums : List CheckSum) :
    CallEnds 1 faults checksums
      (fun l => { s with redis := (pipeline (onKey (unregisterCommand addr)) l s.redis).2 })
      ((), { s with
        redis := (pipeline (onKey (unregisterCommand addr)) checksums s.redis).2
        tracker := s.tracker \ checksums.toFinset })
      (unregisterMany addr faults checksums s) := by
  unfold unregisterMany
  split_ifs with hnil
  · subst hnil
    simpa [pipeline] using CallEnds.nothing faults 1 _ _
  cases hconn : faults 0 with
  | some e => exact .early Nat.one_pos hconn
  | none =>
    have hearly : ∀ j < 1, faults j = none := fun j hj => by
      obtain rfl := Nat.lt_one_iff.mp hj
      exact hconn
    refine callEnds_of_pipelines (fun p => ((), { s with
      redis := p.2
      tracker := s.tracker \ checksums.toFinset })) hearly (fun e redis h => ?_)
      fun done redis h => ?_
    · simp only [h]
    · simp only [h]

omit [LinearOrder α] in
theorem CallEnds.eq_finished {ρ : Type*} {start : ℕ} {checksums : List CheckSum}
    {executed : List CheckSum → IndexNode α} {finished : ρ × IndexNode α}
    {r : Except IoError ρ × IndexNode α}
    (h : CallEnds start (fun _ => none) checksums executed finished r) :
    r = (.ok finished.1, finished.2) := by
  cases h with
  | early _ hfault => cases hfault
  | failed _ _ _ hfault => cases hfault
  | finished => rfl

/-! ### Calls as steps -/

/-- Some steps of a task. -/
def IndexSteps (addr : α) (ttl : ℕ) : IndexNode α × IndexPc α → IndexNode α × IndexPc α → Prop :=
  Relation.ReflTransGen fun c c' => IndexStep addr ttl c.1 c.2 c'.1 c'.2

theorem steps_scripts (k : IndexCont) (now : ℕ) (todo retained : List CheckSum) :
    IndexSteps addr ttl (s, .registering k now todo retained)
      ({ s with redis := (pipeline (onKey (registerCommand addr ttl now)) todo s.redis).2 },
        .registering k now []
          (retained ++ (pipeline (onKey (registerCommand addr ttl now)) todo s.redis).1)) := by
  induction todo generalizing s retained with
  | nil =>
    rw [pipeline, List.append_nil]
    exact .refl
  | cons cs rest ih =>
    have hstep : IndexStep addr ttl s (.registering k now (cs :: rest) retained)
        { s with redis := (onKey (registerCommand addr ttl now) cs s.redis).2 }
        (.registering k now rest (if (registerScript (s.redis cs) addr now ttl maxChunkOwners).2
          then retained ++ [cs] else retained)) := .script rfl
    have hretained : (if (registerScript (s.redis cs) addr now ttl maxChunkOwners).2
        then retained ++ [cs] else retained) =
          retained ++ (onKey (registerCommand addr ttl now) cs s.redis).1 := by
      simp only [onKey, registerCommand]
      split_ifs
      · rfl
      · rw [List.append_nil]
    rw [pipeline, ← List.append_assoc, ← hretained]
    exact .head (b := (_, _)) hstep (ih _)

/-- A task takes the steps of a registration. -/
theorem steps_registerMany (k : IndexCont) (checksums : List CheckSum) :
    IndexSteps addr ttl (s, .register k checksums)
      ((registerMany addr ttl (fun _ => none) checksums s).2, k.resume) := by
  by_cases hnil : checksums = []
  · subst hnil
    exact .single .registerNone
  · rw [(registerMany_ends checksums).eq_finished]
    exact .head (.registerSome hnil) ((steps_scripts k s.clock checksums []).tail .registered)

theorem steps_zrems (checksums todo : List CheckSum) :
    IndexSteps addr ttl (s, .unregistering checksums todo)
      ({ s with redis := (pipeline (onKey (unregisterCommand addr)) todo s.redis).2 },
        .unregistering checksums []) := by
  induction todo generalizing s with
  | nil => exact .refl
  | cons cs rest ih =>
    have hstep : IndexStep addr ttl s (.unregistering checksums (cs :: rest))
        { s with redis := (onKey (unregisterCommand addr) cs s.redis).2 }
        (.unregistering checksums rest) := .zrem
    exact .head (b := (_, _)) hstep ih

/-- A task takes the steps of an unregistration. -/
theorem steps_unregisterMany {checksums : List CheckSum} (hne : checksums ≠ []) :
    IndexSteps addr ttl (s, .idle)
      ({ (unregisterMany addr (fun _ => none) checksums s).2 with
          unregistered := fun cs => decide (cs ∈ checksums) || s.unregistered cs }, .idle) := by
  rw [(unregisterMany_ends checksums).eq_finished]
  have hstart : IndexStep addr ttl s .idle s (.unregistering checksums checksums) :=
    .unregisterBatch checksums hne
  exact .head hstart ((steps_zrems checksums checksums).tail .unregistered)

/-! ### Agreement -/

theorem agrees_registerMany_iff (hsole : s.Sole addr) (hagrees : s.Agrees addr)
    (checksums : List CheckSum) : (registerMany addr ttl faults checksums s).2.Agrees addr ↔
      ¬FailsAfter 2 faults checksums fun cs => cs ∉ s.tracker := by
  refine (registerMany_ends checksums).agrees_iff (fun l => ?_) fun cs => ?_
  · simp only [IndexNode.Agrees, (pipeline_registerCommand ttl s.clock hsole l).2, ← hagrees _]
    push Not
    exact forall_congr' fun cs => by tauto
  · obtain ⟨hretained, hredis⟩ := pipeline_registerCommand ttl s.clock hsole checksums
    rw [hretained, hredis, Finset.mem_union, List.mem_toFinset, hagrees cs]

theorem agrees_unregisterMany_iff (hagrees : s.Agrees addr) (checksums : List CheckSum) :
    (unregisterMany addr faults checksums s).2.Agrees addr ↔
      ¬FailsAfter 1 faults checksums fun cs => cs ∈ s.tracker := by
  refine (unregisterMany_ends checksums).agrees_iff (fun l => ?_) fun cs => ?_
  · simp only [IndexNode.Agrees, pipeline_unregisterCommand, ← hagrees _]
    push Not
    exact forall_congr' fun cs => by tauto
  · rw [pipeline_unregisterCommand, ← hagrees, Finset.mem_sdiff, List.mem_toFinset]

/-- **Tracker and Redis.** When they agree and the node is the only owner, they agree again when a
call returns, exactly if it does not fail with a pipeline after others have registered a checksum
that is not in the tracker, or unregistered one that is. -/
theorem agreement_kept_iff (hsole : s.Sole addr) (hagrees : s.Agrees addr)
    (faults : ℕ → Option IoError) (checksums : List CheckSum) :
    ((registerMany addr ttl faults checksums s).2.Agrees addr ↔
        ¬FailsAfter 2 faults checksums fun cs => cs ∉ s.tracker) ∧
      ((unregisterMany addr faults checksums s).2.Agrees addr ↔
        ¬FailsAfter 1 faults checksums fun cs => cs ∈ s.tracker) :=
  ⟨agrees_registerMany_iff hsole hagrees checksums, agrees_unregisterMany_iff hagrees checksums⟩

end Calls

/-! ### A node with the address 7 -/

/-- A node that has registered nothing, and nobody else has. -/
def freshNode : IndexNode ℕ := ⟨fun _ => ∅, ∅, ∅, 100, fun _ => false⟩

theorem sole_freshNode : freshNode.Sole 7 := fun _ a ha => absurd ha (SortedSet.notMem_empty a)

theorem agrees_freshNode : freshNode.Agrees 7 := fun cs =>
  iff_of_false (Finset.notMem_empty cs) (SortedSet.notMem_empty 7)

theorem agreement_kept_iff_freshNode :
    (registerMany 7 3600 (fun _ => none) [⟨.replicate 32 1, .sha256⟩] freshNode).2.Agrees 7 ∧
      (unregisterMany 7 (fun _ => none) [⟨.replicate 32 1, .sha256⟩] freshNode).2.Agrees 7 := by
  obtain ⟨hregister, hunregister⟩ := @agreement_kept_iff ℕ _ 7 3600 freshNode sole_freshNode
    agrees_freshNode (fun _ => none) [⟨.replicate 32 1, .sha256⟩]
  refine ⟨hregister.mpr ?_, hunregister.mpr ?_⟩
  · rintro ⟨i, -, -, hfault, -⟩
    exact hfault rfl
  · rintro ⟨i, -, -, hfault, -⟩
    exact hfault rfl

/-- More checksums than fit into a pipeline. -/
def manyChecksums : List CheckSum := (List.range 1001).map fun i =>
  ⟨((Vector.replicate 32 0).set 0 (.ofNat i)).set 1 (.ofNat (i / 256)), .sha256⟩

/-- The second pipeline of a registration fails. The node has registered 1000 checksums, and its
tracker is empty. -/
theorem registered_untracked :
    freshNode.Sole 7 ∧ freshNode.Agrees 7 ∧
      ¬(registerMany 7 3600 (fun i => if i = 3 then some ⟨.other, "broken pipe"⟩ else none)
        manyChecksums freshNode).2.Agrees 7 := by
  refine ⟨sole_freshNode, agrees_freshNode, ?_⟩
  rw [agrees_registerMany_iff sole_freshNode agrees_freshNode, not_not]
  have hlen : manyChecksums.length = 1001 := by simp [manyChecksums]
  have hne : manyChecksums.take (1 * redisRegisterBatchSize) ≠ [] := by
    rw [← List.length_pos_iff, List.length_take, hlen]
    decide
  obtain ⟨cs, hcs⟩ := List.exists_mem_of_ne_nil _ hne
  refine ⟨1, ?_, fun j hj => if_neg (by omega), by simp, cs, hcs, Finset.notMem_empty cs⟩
  rw [batches, List.length_map, List.length_range, hlen]
  decide

end RedisChunkIndex

end DistillFs
