import Mathlib

/-!
# The health of the peers

A node records how each query of a peer ended: with data, without, or with an error. A peer counts
as unhealthy from three failures on, until its last failure is 30 seconds old.

The counter is called `consecutive_failures`, and a success sets it back to zero. A miss is a
complete answer of the peer as well, but it leaves the counter as it is. So failures with misses
between them are counted together. The counter has 32 bits.

## Main definitions

* `PeerHealth`, `PeerHealthTracker`, `PeerHealthSnapshot`.
* `PeerRecord`, `PeerHealthTracker.recorded`: a sequence of recorded outcomes.
* `failureRun`, `failuresSinceSuccess`, `lastFailure`: what a sequence of outcomes says.

## Main results

* `PeerHealthTracker.health_recorded`: the entry of a peer depends on its own outcomes only.
* `PeerHealthTracker.isUnhealthy_exact_iff`: when the verdict is the one about the last outcomes.
-/

namespace DistillFs

/-- The entry of a peer; the round-trip times are elements of `F`. -/
structure PeerHealth (F : Type*) where
  avgRttMs : F
  consecutiveFailures : UInt32
  lastFailureTime : ℕ
  totalRequests : ℕ
  totalHits : ℕ

structure PeerHealthSnapshotEntry (α F : Type*) where
  addr : α
  avgRttMs : F
  healthy : Bool

structure PeerHealthSnapshot (α F : Type*) where
  entries : List (PeerHealthSnapshotEntry α F)
  healthyCount : ℕ
  unhealthyCount : ℕ

/-- The map from the addresses to the entries. -/
structure PeerHealthTracker (α F : Type*) where
  peers : AList fun _ : α => PeerHealth F

/-- How a query of a peer ended. -/
inductive PeerOutcome (F : Type*)
  | success (rttMs : F)
  | failure
  | miss

/-- A recorded outcome, with the time in seconds. -/
structure PeerRecord (α F : Type*) where
  addr : α
  outcome : PeerOutcome F
  now : ℕ

namespace PeerOutcome

variable {F : Type*}

def isSuccess : PeerOutcome F → Bool
  | success _ => true
  | failure => false
  | miss => false

def isFailure : PeerOutcome F → Bool
  | success _ => false
  | failure => true
  | miss => false

def isMiss : PeerOutcome F → Bool
  | success _ => false
  | failure => false
  | miss => true

theorem isFailure_of_not {o : PeerOutcome F} (hsuccess : o.isSuccess = false)
    (hmiss : o.isMiss = false) : o.isFailure = true := by
  cases o with
  | success rttMs => cases hsuccess
  | failure => rfl
  | miss => cases hmiss

theorem isMiss_of_isFailure {o : PeerOutcome F} (h : o.isFailure = true) : o.isMiss = false := by
  cases o with
  | success rttMs => cases h
  | failure => rfl
  | miss => cases h

end PeerOutcome

section

variable {α F : Type*}

/-- The number of failures at the end of the outcomes. -/
def failureRun (own : List (PeerRecord α F)) : ℕ :=
  (own.rtakeWhile fun r => r.outcome.isFailure).length

/-- The number of failures since the last success. -/
def failuresSinceSuccess (own : List (PeerRecord α F)) : ℕ :=
  (own.rtakeWhile fun r => !r.outcome.isSuccess).countP fun r => r.outcome.isFailure

/-- The time of the last failure. -/
def lastFailure (own : List (PeerRecord α F)) : Option ℕ :=
  (own.filter fun r => r.outcome.isFailure).getLast?.map PeerRecord.now

/-- A miss is among the last three outcomes. -/
def MissAmongLastThree (own : List (PeerRecord α F)) : Prop :=
  ∃ r ∈ own.rtake 3, r.outcome.isMiss = true

/-- What the last outcomes say: there are three failures or more at their end, and the last failure
is less than 30 seconds before `now`. -/
def FailedLately (own : List (PeerRecord α F)) (now : ℕ) : Prop :=
  3 ≤ failureRun own ∧ ∃ last ∈ lastFailure own, now < last + 30

variable {own : List (PeerRecord α F)}

theorem exists_lastFailure (h : 0 < failuresSinceSuccess own) :
    ∃ last, lastFailure own = some last := by
  obtain ⟨r, hr, hfailure⟩ := List.countP_pos_iff.mp h
  have hmem : r ∈ own.filter fun r => r.outcome.isFailure :=
    List.mem_filter.mpr ⟨(List.rtakeWhile_suffix _ own).subset hr, hfailure⟩
  refine ⟨_, congrArg (Option.map PeerRecord.now)
    (List.getLast?_eq_some_getLast (List.ne_nil_of_mem hmem))⟩

/-- The last three outcomes are at the end of any end of the outcomes that is as long. -/
theorem rtake_three_subset {p : PeerRecord α F → Bool} (h : 3 ≤ (own.rtakeWhile p).length) :
    ∀ r ∈ own.rtake 3, p r = true := by
  intro r hr
  rw [List.rtakeWhile, List.length_reverse] at h
  rw [List.rtake_eq_reverse_take_reverse, List.mem_reverse] at hr
  have hinitial : own.reverse.take 3 <+: own.reverse.takeWhile p :=
    List.prefix_of_prefix_length_le (List.take_prefix 3 _) (List.takeWhile_prefix p)
      ((List.length_take_le 3 _).trans h)
  exact List.mem_takeWhile_imp (hinitial.subset hr)

/-- Three failures in a row leave no room for a miss. -/
theorem not_missAmongLastThree (h : 3 ≤ failureRun own) : ¬MissAmongLastThree own := by
  rintro ⟨r, hr, hmiss⟩
  rw [PeerOutcome.isMiss_of_isFailure (rtake_three_subset h r hr)] at hmiss
  exact Bool.false_ne_true hmiss

/-- Three failures since the last success, and no miss among the last three outcomes: these three
are failures. -/
theorem three_le_failureRun (h : 3 ≤ failuresSinceSuccess own)
    (hmiss : ¬MissAmongLastThree own) : 3 ≤ failureRun own := by
  have hlen : 3 ≤ (own.rtakeWhile fun r => !r.outcome.isSuccess).length :=
    h.trans List.countP_le_length
  have hfailure : ∀ r ∈ own.rtake 3, r.outcome.isFailure = true := fun r hr => by
    refine PeerOutcome.isFailure_of_not ?_ ?_
    · simpa using rtake_three_subset hlen r hr
    · simpa using fun hm => hmiss ⟨r, hr, hm⟩
  have hown : 3 ≤ own.reverse.length := by
    rw [List.length_reverse]
    exact hlen.trans (List.rtakeWhile_suffix _ own).length_le
  rw [List.rtake_eq_reverse_take_reverse] at hfailure
  have htake : (own.reverse.take 3).takeWhile (fun r => r.outcome.isFailure) =
      own.reverse.take 3 :=
    List.takeWhile_eq_self_iff.mpr fun r hr => hfailure r (List.mem_reverse.mpr hr)
  rw [← List.take_takeWhile] at htake
  have hlen3 := congrArg List.length htake
  rw [List.length_take, List.length_take] at hlen3
  rw [failureRun, List.rtakeWhile, List.length_reverse]
  omega

end

/-! ### The entry of a peer -/

namespace PeerHealth

variable {α F : Type*} [Add F] [Mul F] [Div F] [NatCast F]

/-- The entry of a peer without outcomes. -/
def new : PeerHealth F where
  avgRttMs := (50 : ℕ)
  consecutiveFailures := 0
  lastFailureTime := 0
  totalRequests := 0
  totalHits := 0

def success (entry : PeerHealth F) (rttMs : F) : PeerHealth F :=
  { entry with
    avgRttMs := ((3 : ℕ) / (10 : ℕ) : F) * rttMs + ((7 : ℕ) / (10 : ℕ) : F) * entry.avgRttMs
    consecutiveFailures := 0
    totalRequests := entry.totalRequests + 1
    totalHits := entry.totalHits + 1 }

/-- The counter wraps around. -/
def failure (entry : PeerHealth F) (now : ℕ) : PeerHealth F :=
  { entry with
    consecutiveFailures := entry.consecutiveFailures + 1
    lastFailureTime := now
    totalRequests := entry.totalRequests + 1 }

def miss (entry : PeerHealth F) : PeerHealth F :=
  { entry with totalRequests := entry.totalRequests + 1 }

def record (entry : PeerHealth F) (r : PeerRecord α F) : PeerHealth F :=
  match r.outcome with
  | .success rttMs => entry.success rttMs
  | .failure => entry.failure r.now
  | .miss => entry.miss

/-- The entry after some outcomes of its peer. -/
def after (own : List (PeerRecord α F)) : PeerHealth F := own.foldl record new

theorem after_concat (own : List (PeerRecord α F)) (r : PeerRecord α F) :
    after (own ++ [r]) = (after own).record r := by
  rw [after, List.foldl_concat]
  rfl

/-- The counter has the failures since the last success. -/
theorem consecutiveFailures_after (own : List (PeerRecord α F)) :
    (after own).consecutiveFailures = .ofNat (failuresSinceSuccess own) := by
  induction own using List.reverseRecOn with
  | nil => rfl
  | append_singleton own r ih =>
    rw [after_concat, record]
    cases ho : r.outcome with
    | success rttMs =>
      have hsuccess : ¬(!r.outcome.isSuccess) = true := by rw [ho]; exact Bool.false_ne_true
      rw [failuresSinceSuccess,
        List.rtakeWhile_concat_neg (fun r => !r.outcome.isSuccess) own r hsuccess]
      rfl
    | failure =>
      have hsuccess : (!r.outcome.isSuccess) = true := by rw [ho]; rfl
      have hfailure : r.outcome.isFailure = true := by rw [ho]; rfl
      rw [failuresSinceSuccess,
        List.rtakeWhile_concat_pos (fun r => !r.outcome.isSuccess) own r hsuccess,
        List.countP_append, List.countP_singleton, if_pos hfailure, UInt32.ofNat_add]
      exact congrArg (· + 1) ih
    | miss =>
      have hsuccess : (!r.outcome.isSuccess) = true := by rw [ho]; rfl
      have hfailure : ¬r.outcome.isFailure = true := by rw [ho]; exact Bool.false_ne_true
      rw [failuresSinceSuccess,
        List.rtakeWhile_concat_pos (fun r => !r.outcome.isSuccess) own r hsuccess,
        List.countP_append, List.countP_singleton, if_neg hfailure]
      exact ih

/-- The entry has the time of the last failure, and before the first one zero. -/
theorem lastFailureTime_after (own : List (PeerRecord α F)) :
    (after own).lastFailureTime = (lastFailure own).getD 0 := by
  have hskip : ∀ (own : List (PeerRecord α F)) r, ¬r.outcome.isFailure = true →
      lastFailure (own ++ [r]) = lastFailure own := fun own r hr => by
    rw [lastFailure, List.filter_append,
      List.filter_cons_of_neg (p := fun r : PeerRecord α F => r.outcome.isFailure) hr,
      List.filter_nil, List.append_nil, lastFailure]
  induction own using List.reverseRecOn with
  | nil => rfl
  | append_singleton own r ih =>
    rw [after_concat, record]
    cases ho : r.outcome with
    | success rttMs =>
      rw [hskip own r (by rw [ho]; exact Bool.false_ne_true)]
      exact ih
    | failure =>
      have hfailure : r.outcome.isFailure = true := by rw [ho]; rfl
      rw [lastFailure, List.filter_append,
        List.filter_cons_of_pos (p := fun r : PeerRecord α F => r.outcome.isFailure) hfailure,
        List.filter_nil, List.getLast?_concat]
      rfl
    | miss =>
      rw [hskip own r (by rw [ho]; exact Bool.false_ne_true)]
      exact ih

end PeerHealth

/-! ### The tracker -/

namespace PeerHealthTracker

variable {α F : Type*} [DecidableEq α] [Add F] [Mul F] [Div F] [NatCast F]

def new : PeerHealthTracker α F := ⟨∅⟩

/-- The entry of an address, inserted if it is missing, is changed. -/
def update (t : PeerHealthTracker α F) (addr : α) (f : PeerHealth F → PeerHealth F) :
    PeerHealthTracker α F :=
  ⟨t.peers.insert addr (f ((t.peers.lookup addr).getD .new))⟩

def recordSuccess (t : PeerHealthTracker α F) (addr : α) (rttMs : F) : PeerHealthTracker α F :=
  t.update addr fun entry => entry.success rttMs

def recordFailure (t : PeerHealthTracker α F) (addr : α) (now : ℕ) : PeerHealthTracker α F :=
  t.update addr fun entry => entry.failure now

def recordMiss (t : PeerHealthTracker α F) (addr : α) : PeerHealthTracker α F :=
  t.update addr PeerHealth.miss

def isUnhealthy (t : PeerHealthTracker α F) (addr : α) (now : ℕ) : Bool :=
  match t.peers.lookup addr with
  | some peer => decide (3 ≤ peer.consecutiveFailures) && decide (now - peer.lastFailureTime < 30)
  | none => false

/-- The entry of a peer in a snapshot. -/
def snapshotEntry (now : ℕ) (addr : α) (peer : PeerHealth F) : PeerHealthSnapshotEntry α F :=
  let healthy :=
    !(decide (3 ≤ peer.consecutiveFailures) && decide (now - peer.lastFailureTime < 30))
  ⟨addr, peer.avgRttMs, healthy⟩

def snapshot (t : PeerHealthTracker α F) (now : ℕ) : PeerHealthSnapshot α F :=
  t.peers.entries.foldl (fun snapshot e =>
    let entry := snapshotEntry now e.1 e.2
    if entry.healthy then
      ⟨snapshot.entries ++ [entry], snapshot.healthyCount + 1, snapshot.unhealthyCount⟩
    else ⟨snapshot.entries ++ [entry], snapshot.healthyCount, snapshot.unhealthyCount + 1⟩)
    ⟨[], 0, 0⟩

/-- The outcome of a query is recorded. -/
def record (t : PeerHealthTracker α F) (r : PeerRecord α F) : PeerHealthTracker α F :=
  match r.outcome with
  | .success rttMs => t.recordSuccess r.addr rttMs
  | .failure => t.recordFailure r.addr r.now
  | .miss => t.recordMiss r.addr

/-- The tracker after some outcomes. -/
def recorded (records : List (PeerRecord α F)) : PeerHealthTracker α F := records.foldl record new

/-- The entry of an address. -/
def health (t : PeerHealthTracker α F) (addr : α) : PeerHealth F :=
  (t.peers.lookup addr).getD .new

omit [Add F] [Mul F] [Div F] in
theorem health_update (t : PeerHealthTracker α F) (addr a : α)
    (f : PeerHealth F → PeerHealth F) :
    (t.update addr f).health a = if a = addr then f (t.health addr) else t.health a := by
  split_ifs with h
  · rw [h, health, update, AList.lookup_insert]
    rfl
  · rw [health, update, AList.lookup_insert_ne h]
    rfl

theorem health_record (t : PeerHealthTracker α F) (r : PeerRecord α F) (a : α) :
    (t.record r).health a = if a = r.addr then (t.health a).record r else t.health a := by
  have hupdate : ∀ f : PeerHealth F → PeerHealth F,
      (t.update r.addr f).health a = if a = r.addr then f (t.health a) else t.health a :=
    fun f => by
      rw [health_update]
      split_ifs with h
      · rw [h]
      · rfl
  unfold record PeerHealth.record
  cases r.outcome with
  | success rttMs => exact hupdate _
  | failure => exact hupdate _
  | miss => exact hupdate _

/-- The entry of a peer is made from its own outcomes. -/
theorem health_recorded (records : List (PeerRecord α F)) (addr : α) :
    (recorded records).health addr = .after (records.filter fun r => decide (r.addr = addr)) := by
  induction records using List.reverseRecOn with
  | nil => rfl
  | append_singleton records r ih =>
    rw [recorded, List.foldl_concat, health_record, List.filter_append]
    split_ifs with h
    · rw [List.filter_cons_of_pos (by simp [h]), List.filter_nil, PeerHealth.after_concat, ← ih]
      rfl
    · rw [List.filter_cons_of_neg (by simpa using Ne.symm h), List.filter_nil, List.append_nil]
      exact ih

omit [Add F] [Mul F] [Div F] in
theorem isUnhealthy_eq (t : PeerHealthTracker α F) (addr : α) (now : ℕ) :
    t.isUnhealthy addr now = (decide (3 ≤ (t.health addr).consecutiveFailures) &&
      decide (now - (t.health addr).lastFailureTime < 30)) := by
  unfold isUnhealthy health
  cases t.peers.lookup addr with
  | some peer => rfl
  | none => rfl

/-! ### The snapshot -/

omit [DecidableEq α] [Add F] [Mul F] [Div F] [NatCast F] in
/-- A snapshot has an entry for each peer, and counts the two kinds. -/
theorem snapshot_eq (t : PeerHealthTracker α F) (now : ℕ) :
    let entries := t.peers.entries.map fun e => snapshotEntry now e.1 e.2
    t.snapshot now = ⟨entries, entries.countP fun e => e.healthy,
      entries.countP fun e => !e.healthy⟩ := by
  unfold snapshot
  generalize t.peers.entries = l
  induction l using List.reverseRecOn with
  | nil => rfl
  | append_singleton l e ih =>
    rw [List.foldl_concat, ih]
    cases h : (snapshotEntry now e.1 e.2).healthy with
    | true => simp [h]
    | false => simp [h]

end PeerHealthTracker

/-- The map into which `ranked_peers_with_scores` collects a snapshot. -/
def PeerHealthSnapshot.healthMap {α F : Type*} [DecidableEq α] (s : PeerHealthSnapshot α F) :
    α → Option (Bool × F) :=
  s.entries.foldl (fun health e => Function.update health e.addr (some (e.healthy, e.avgRttMs)))
    fun _ => none

namespace PeerHealthTracker

variable {α F : Type*} [DecidableEq α]

/-- The map has the entry of each peer; the addresses in a snapshot are distinct. -/
theorem healthMap_snapshot (t : PeerHealthTracker α F) (now : ℕ) (addr : α) :
    (t.snapshot now).healthMap addr = (t.peers.lookup addr).map fun peer =>
      ((snapshotEntry now addr peer).healthy, peer.avgRttMs) := by
  have hfold : ∀ (l : List (Sigma fun _ : α => PeerHealth F)) (m : α → Option (Bool × F)),
      l.NodupKeys → (l.map fun e => snapshotEntry now e.1 e.2).foldl
        (fun (health : α → Option (Bool × F)) e =>
          Function.update health e.addr (some (e.healthy, e.avgRttMs))) m addr =
      ((l.dlookup addr).map fun peer =>
        ((snapshotEntry now addr peer).healthy, peer.avgRttMs)).or (m addr) := by
    intro l
    induction l with
    | nil => exact fun m _ => rfl
    | cons e l ih =>
      intro m hnodup
      obtain ⟨hnot, hrest⟩ := List.nodupKeys_cons.mp hnodup
      rw [List.map_cons, List.foldl_cons, ih _ hrest]
      by_cases h : addr = e.1
      · subst h
        rw [List.dlookup_eq_none.mpr hnot, List.dlookup_cons_eq]
        exact Function.update_self ..
      · rw [List.dlookup_cons_ne _ _ h]
        exact congrArg _ (Function.update_of_ne h _ _)
  rw [PeerHealthSnapshot.healthMap, snapshot_eq]
  exact (hfold _ _ t.peers.nodupKeys).trans Option.or_none

/-- The snapshot classifies a peer as `is_unhealthy` does. -/
theorem healthy_healthMap (t : PeerHealthTracker α F) (addr : α) (now : ℕ) (rttMs : F) :
    (((t.snapshot now).healthMap addr).getD (true, rttMs)).1 = !t.isUnhealthy addr now := by
  rw [healthMap_snapshot, isUnhealthy]
  cases t.peers.lookup addr with
  | some peer => rfl
  | none => rfl

variable [Add F] [Mul F] [Div F] [NatCast F]

omit [DecidableEq α] in
/-- What the entry says. -/
theorem unhealthy_after (own : List (PeerRecord α F)) (now : ℕ) :
    (decide (3 ≤ (PeerHealth.after own).consecutiveFailures) &&
      decide (now - (PeerHealth.after own).lastFailureTime < 30)) = true ↔
    3 ≤ failuresSinceSuccess own % 2 ^ 32 ∧ ∃ last ∈ lastFailure own, now < last + 30 := by
  rw [Bool.and_eq_true, decide_eq_true_eq, decide_eq_true_eq, PeerHealth.lastFailureTime_after,
    PeerHealth.consecutiveFailures_after, UInt32.le_iff_toNat_le, UInt32.toNat_ofNat']
  refine and_congr_right fun hthree => ?_
  have hpos : 0 < failuresSinceSuccess own := by
    have hle := Nat.mod_le (failuresSinceSuccess own) (2 ^ 32)
    change 3 ≤ _ at hthree
    omega
  obtain ⟨last, hlast⟩ := exists_lastFailure hpos
  rw [hlast, Option.getD_some]
  constructor
  · exact fun h => ⟨last, rfl, by omega⟩
  · rintro ⟨last', hlast', h⟩
    obtain rfl := Option.some.inj hlast'
    omega

/-- **The verdict about a peer.** `is_unhealthy` holds exactly if the last outcomes are three
failures or more, the last one less than 30 seconds ago, unless there was such a failure and either
a miss is among the last three outcomes while the counter is at three or more, or three failures
stand at the end while the counter is below three after a turn. -/
theorem isUnhealthy_exact_iff (records : List (PeerRecord α F)) (addr : α) (now : ℕ)
    (rttMs : F) :
    let own := records.filter fun r => decide (r.addr = addr)
    (((recorded records).isUnhealthy addr now = true ↔ FailedLately own now) ∧
      ((((recorded records).snapshot now).healthMap addr).getD (true, rttMs)).1 =
        !(recorded records).isUnhealthy addr now) ↔
    (∀ last ∈ lastFailure own, last + 30 ≤ now) ∨
      ¬(MissAmongLastThree own ∧ 3 ≤ failuresSinceSuccess own % 2 ^ 32) ∧
      ¬(3 ≤ failureRun own ∧ failuresSinceSuccess own % 2 ^ 32 < 3) := by
  intro own
  have hcode := unhealthy_after own now
  rw [← health_recorded, ← isUnhealthy_eq] at hcode
  rw [and_iff_left (healthy_healthMap _ addr now rttMs), hcode, FailedLately]
  have hrun : 3 ≤ failuresSinceSuccess own % 2 ^ 32 → ¬MissAmongLastThree own →
      3 ≤ failureRun own := fun h =>
    three_le_failureRun (h.trans (Nat.mod_le _ _))
  have hmiss : 3 ≤ failureRun own → ¬MissAmongLastThree own := not_missAmongLastThree
  by_cases hlate : ∃ last ∈ lastFailure own, now < last + 30
  · have hnone : ¬∀ last ∈ lastFailure own, last + 30 ≤ now := by
      obtain ⟨last, hlast, hlt⟩ := hlate
      exact fun hall => absurd (hall last hlast) hlt.not_ge
    rw [or_iff_right hnone, and_iff_left hlate, and_iff_left hlate]
    constructor
    · exact fun h => ⟨fun hcount => hmiss (h.mp hcount.2) hcount.1,
        fun hturn => absurd (h.mpr hturn.1) hturn.2.not_ge⟩
    · rintro ⟨hcount, hturn⟩
      constructor
      · exact fun hthree => hrun hthree fun hmissed => hcount ⟨hmissed, hthree⟩
      · exact fun hthree => not_lt.mp fun hlt => hturn ⟨hthree, hlt⟩
  · have hall : ∀ last ∈ lastFailure own, last + 30 ≤ now := by
      push Not at hlate
      exact hlate
    exact iff_of_true ⟨fun h => absurd h.2 hlate, fun h => absurd h.2 hlate⟩ (Or.inl hall)

/-- Two failures, a miss, and a third failure. -/
def brokenRun : List (PeerRecord ℕ ℕ) :=
  [⟨0, .failure, 0⟩, ⟨0, .failure, 1⟩, ⟨0, .miss, 2⟩, ⟨0, .failure, 3⟩]

/-- The peer counts as unhealthy, though its last outcomes are a miss and one failure. -/
theorem unhealthy_after_miss : (recorded brokenRun).isUnhealthy 0 4 = true ∧
    ¬FailedLately (brokenRun.filter fun r => decide (r.addr = 0)) 4 := by
  refine ⟨by decide, fun h => ?_⟩
  exact absurd h.1 (by decide)

end PeerHealthTracker

end DistillFs
