import DistillFs.Backend.CheckSum

/-!
# Hints from earlier hits

A node remembers which peers have answered with a chunk lately: for each peer the number of hits,
the time of the last one, and the checksums of the last ones. A background task drops a peer whose
last hit is more than 300 seconds old, with its count.

The history of a node is the sequence of its hits and collections. The record of a peer is a summary
of the hits since it was last dropped.

## Main definitions

* `HitRecord`, `PeerHitHints`, `PeerHitHints.recordHit`, `PeerHitHints.gcExpired`.
* `HintEvent`, `PeerHitHints.replay`: the history of a node.
* `HintEvent.live`: the hits of a peer since it was last dropped.

## Main results

* `PeerHitHints.replay_eq_summary`: the record of a peer is the summary of these hits.
* `PeerHitHints.hints_recent`: no hit of the last 300 seconds is forgotten.
-/

namespace DistillFs

def hintMaxRecent : ℕ := 256

def hintTtlSecs : ℕ := 300

/-- What a node remembers of the hits of a peer. -/
structure HitRecord where
  hitCount : ℕ
  lastHitTime : ℕ
  recentChecksums : List CheckSumOnDisk

/-- The record before the first hit. -/
def HitRecord.new : HitRecord := ⟨0, 0, []⟩

/-- The loop of `record_hit` that drops the oldest checksums. -/
def popOldest : List CheckSumOnDisk → List CheckSumOnDisk
  | [] => []
  | cs :: rest => if hintMaxRecent < (cs :: rest).length then popOldest rest else cs :: rest

def HitRecord.hit (record : HitRecord) (checksum : CheckSumOnDisk) (now : ℕ) : HitRecord where
  hitCount := record.hitCount + 1
  lastHitTime := now
  recentChecksums := popOldest (record.recentChecksums ++ [checksum])

/-- The map from the peers to their records. -/
abbrev PeerHitHints (α : Type*) := α → Option HitRecord

/-- What happens to the hints, with the time in seconds. -/
inductive HintEvent (α : Type*)
  | hit (addr : α) (checksum : CheckSum) (now : ℕ)
  | gc (now : ℕ)

namespace PeerHitHints

variable {α F : Type*} [DecidableEq α]

def recordHit (hints : PeerHitHints α) (addr : α) (checksum : CheckSum) (now : ℕ) :
    PeerHitHints α :=
  Function.update hints addr
    (some (((hints addr).getD .new).hit (.ofCheckSum checksum) now))

def gcExpired (hints : PeerHitHints α) (now : ℕ) : PeerHitHints α :=
  let cutoff := now - hintTtlSecs
  fun addr => (hints addr).filter fun record => decide (cutoff ≤ record.lastHitTime)

/-- The score of each peer, from its count and the age of its last hit. -/
def scoreSnapshot (score : ℕ → ℕ → F) (hints : PeerHitHints α) (now : ℕ) : α → Option F :=
  fun addr => (hints addr).map fun record => score record.hitCount (now - record.lastHitTime)

def apply (hints : PeerHitHints α) : HintEvent α → PeerHitHints α
  | .hit addr checksum now => hints.recordHit addr checksum now
  | .gc now => hints.gcExpired now

/-- The hints after a history. -/
def replay (events : List (HintEvent α)) : PeerHitHints α := events.foldl apply fun _ => none

theorem replay_concat (events : List (HintEvent α)) (e : HintEvent α) :
    replay (events ++ [e]) = (replay events).apply e := by
  rw [replay, List.foldl_concat]
  rfl

end PeerHitHints

/-! ### Hits -/

namespace HintEvent

variable {α : Type*} [DecidableEq α] (addr : α)

def time : HintEvent α → ℕ
  | hit _ _ now => now
  | gc now => now

/-- A hit of a peer: the checksum and the time. -/
def hit? : HintEvent α → Option (CheckSumOnDisk × ℕ)
  | hit a checksum now => if a = addr then some (.ofCheckSum checksum, now) else none
  | gc _ => none

/-- The hits of a peer in a history. -/
def hits (events : List (HintEvent α)) : List (CheckSumOnDisk × ℕ) := events.filterMap (hit? addr)

/-- A collection drops all hits of a peer if the last one is too old. -/
def collect (now : ℕ) (hits : List (CheckSumOnDisk × ℕ)) : List (CheckSumOnDisk × ℕ) :=
  if hits.getLast?.all fun last => decide (now - hintTtlSecs ≤ last.2) then hits else []

/-- The hits of a peer since it was last dropped. -/
def live (events : List (HintEvent α)) : List (CheckSumOnDisk × ℕ) :=
  events.foldl (fun hits e =>
    match e with
    | hit a checksum now => if a = addr then hits ++ [(.ofCheckSum checksum, now)] else hits
    | gc now => collect now hits) []

theorem live_concat (events : List (HintEvent α)) (e : HintEvent α) :
    live addr (events ++ [e]) = match e with
      | hit a checksum now =>
        if a = addr then live addr events ++ [(.ofCheckSum checksum, now)] else live addr events
      | gc now => collect now (live addr events) := by
  rw [live, List.foldl_concat]
  rfl

end HintEvent

/-- The summary of the hits of a peer. -/
def HitRecord.summary (hits : List (CheckSumOnDisk × ℕ)) : Option HitRecord :=
  hits.getLast?.map fun last =>
    ⟨hits.length, last.2, (hits.map Prod.fst).rtake hintMaxRecent⟩

/-! ### The window of checksums -/

theorem popOldest_eq_rtake (l : List CheckSumOnDisk) : popOldest l = l.rtake hintMaxRecent := by
  induction l with
  | nil => rfl
  | cons cs rest ih =>
    rw [popOldest]
    split_ifs with hlong
    · rw [ih, List.rtake, List.rtake, List.length_cons,
        Nat.succ_sub (Nat.lt_succ_iff.mp hlong), List.drop_succ_cons]
    · rw [List.rtake, Nat.sub_eq_zero_of_le (not_lt.mp hlong), List.drop_zero]

/-- Appending to the last entries of a list and cutting again is cutting once. -/
theorem rtake_rtake_concat {β : Type*} (l : List β) (x : β) {n : ℕ} (hn : 0 < n) :
    (l.rtake n ++ [x]).rtake n = (l ++ [x]).rtake n := by
  obtain ⟨k, rfl⟩ := Nat.exists_eq_succ_of_ne_zero hn.ne'
  rw [List.rtake_concat_succ, List.rtake_concat_succ]
  refine congrArg (· ++ [x]) ?_
  simp only [List.rtake, List.length_drop, List.drop_drop]
  congr 1
  omega

namespace PeerHitHints

variable {α : Type*} [DecidableEq α]

theorem summary_append_singleton (hits : List (CheckSumOnDisk × ℕ)) (last : CheckSumOnDisk × ℕ) :
    HitRecord.summary (hits ++ [last]) =
      some ⟨hits.length + 1, last.2, ((hits ++ [last]).map Prod.fst).rtake hintMaxRecent⟩ := by
  rw [HitRecord.summary, List.getLast?_concat, Option.map_some, List.length_append]
  rfl

theorem summary_concat (hits : List (CheckSumOnDisk × ℕ)) (cs : CheckSumOnDisk) (now : ℕ) :
    HitRecord.summary (hits ++ [(cs, now)]) =
      some (((HitRecord.summary hits).getD .new).hit cs now) := by
  have hcount : ((HitRecord.summary hits).getD .new).hitCount = hits.length := by
    cases hits using List.reverseRecOn with
    | nil => rfl
    | append_singleton hits last =>
      rw [summary_append_singleton, Option.getD_some, List.length_append]
      rfl
  have hrecent : ((HitRecord.summary hits).getD .new).recentChecksums =
      (hits.map Prod.fst).rtake hintMaxRecent := by
    cases hits using List.reverseRecOn with
    | nil => rfl
    | append_singleton hits last => rw [summary_append_singleton, Option.getD_some]
  have hmax : 0 < hintMaxRecent := Nat.zero_lt_succ 255
  rw [summary_append_singleton, HitRecord.hit, hcount, hrecent, popOldest_eq_rtake,
    rtake_rtake_concat _ _ hmax, List.map_append, List.map_singleton]

theorem summary_collect (hits : List (CheckSumOnDisk × ℕ)) (now : ℕ) :
    HitRecord.summary (HintEvent.collect now hits) =
      (HitRecord.summary hits).filter fun record =>
        decide (now - hintTtlSecs ≤ record.lastHitTime) := by
  cases hits using List.reverseRecOn with
  | nil => rfl
  | append_singleton hits last =>
    rw [HintEvent.collect, List.getLast?_concat, Option.all_some, summary_append_singleton]
    by_cases hkeep : decide (now - hintTtlSecs ≤ last.2) = true
    · rw [if_pos hkeep, summary_append_singleton, Option.filter_some, if_pos hkeep]
    · rw [if_neg hkeep, Option.filter_some, if_neg hkeep]
      rfl

/-- The record of a peer is the summary of its hits since it was last dropped. -/
theorem replay_eq_summary (events : List (HintEvent α)) (addr : α) :
    replay events addr = HitRecord.summary (HintEvent.live addr events) := by
  induction events using List.reverseRecOn with
  | nil => rfl
  | append_singleton events e ih =>
    rw [replay_concat, HintEvent.live_concat]
    cases e with
    | hit a checksum now =>
      dsimp only [apply, recordHit]
      by_cases ha : a = addr
      · subst ha
        rw [Function.update_self, if_pos rfl, ih, summary_concat]
      · rw [Function.update_of_ne (Ne.symm ha), if_neg ha, ih]
    | gc now =>
      dsimp only [apply, gcExpired]
      rw [ih, summary_collect]

end PeerHitHints

/-! ### Histories along a clock -/

namespace HintEvent

variable {α : Type*} [DecidableEq α] {addr : α} {events : List (HintEvent α)} {now : ℕ}

theorem hits_concat (events : List (HintEvent α)) (e : HintEvent α) :
    hits addr (events ++ [e]) = hits addr events ++ (hit? addr e).toList := by
  rw [hits, List.filterMap_append]
  cases h : hit? addr e <;> simp [hits, h]

theorem time_eq_of_hit? {e : HintEvent α} {h : CheckSumOnDisk × ℕ} (heq : hit? addr e = some h) :
    h.2 = e.time := by
  cases e with
  | hit a checksum t =>
    rw [hit?] at heq
    split_ifs at heq
    exact (congrArg Prod.snd (Option.some.inj heq)).symm
  | gc t => cases heq

/-- Collected are hits of which the last one, and so each of them, is too old. -/
theorem old_of_not_kept {hits : List (CheckSumOnDisk × ℕ)}
    (hsorted : hits.Pairwise fun h h' => h.2 ≤ h'.2)
    (hkeep : ¬(hits.getLast?.all fun last => decide (now - hintTtlSecs ≤ last.2)) = true)
    {h : CheckSumOnDisk × ℕ} (hmem : h ∈ hits) : h.2 + hintTtlSecs < now := by
  cases hits using List.reverseRecOn with
  | nil => cases hmem
  | append_singleton hits last =>
    rw [List.getLast?_concat, Option.all_some, decide_eq_true_iff] at hkeep
    have hle : h.2 ≤ last.2 := by
      rcases List.mem_append.mp hmem with hmem | hmem
      · exact (List.pairwise_append.mp hsorted).2.2 h hmem last (List.mem_singleton_self last)
      · rw [List.mem_singleton.mp hmem]
    omega

variable (addr) in
theorem pairwise_hits (hclock : (events.map time).Pairwise (· ≤ ·)) :
    (hits addr events).Pairwise fun h h' => h.2 ≤ h'.2 := by
  refine (List.pairwise_map.mp hclock).filterMap _ fun d e hde h hh h' hh' => ?_
  rw [time_eq_of_hit? hh, time_eq_of_hit? hh']
  exact hde

variable (addr) in
/-- The hits that count no more are more than 300 seconds old. -/
theorem exists_forgotten (hclock : (events.map time).Pairwise (· ≤ ·))
    (hnow : ∀ e ∈ events, e.time ≤ now) : ∃ forgotten,
      hits addr events = forgotten ++ live addr events ∧
      ∀ h ∈ forgotten, h.2 + hintTtlSecs < now := by
  induction events using List.reverseRecOn generalizing now with
  | nil => exact ⟨[], rfl, List.forall_mem_nil _⟩
  | append_singleton events e ih =>
    rw [List.map_append, List.pairwise_append] at hclock
    have hbefore : ∀ d ∈ events, d.time ≤ e.time := fun d hd =>
      hclock.2.2 _ (List.mem_map_of_mem hd) _ (List.mem_singleton_self _)
    have he : e.time ≤ now := hnow e List.mem_concat_self
    obtain ⟨forgotten, hsplit, hold⟩ := ih hclock.1 hbefore
    have hold' : ∀ h ∈ forgotten, h.2 + hintTtlSecs < now := fun h hh =>
      (hold h hh).trans_le he
    rw [hits_concat, live_concat]
    cases e with
    | hit a checksum t =>
      refine ⟨forgotten, ?_, hold'⟩
      by_cases ha : a = addr
      · rw [hit?, if_pos ha, hsplit, List.append_assoc]
        dsimp only
        rw [if_pos ha]
        rfl
      · rw [hit?, if_neg ha, hsplit, Option.toList_none, List.append_nil]
        dsimp only
        rw [if_neg ha]
    | gc t =>
      dsimp only [hit?, Option.toList_none]
      rw [List.append_nil, collect]
      split_ifs with hkeep
      · exact ⟨forgotten, hsplit, hold'⟩
      · -- all hits that were left are as old as the last one, or older
        refine ⟨hits addr events, (List.append_nil _).symm, fun h hh => ?_⟩
        rw [hsplit] at hh
        rcases List.mem_append.mp hh with hh | hh
        · exact hold' h hh
        · have hsorted := pairwise_hits addr hclock.1
          rw [hsplit] at hsorted
          exact (old_of_not_kept (List.pairwise_append.mp hsorted).2.1 hkeep hh).trans_le he

end HintEvent

namespace PeerHitHints

variable {α : Type*} [DecidableEq α]

/-- **Hints are recent.** In every history along a clock, the record of a peer counts its last hits,
and a hit that it does not count is more than 300 seconds old. After a collection the peers with a
record are those with a hit in the last 300 seconds. -/
theorem hints_recent {events : List (HintEvent α)}
    (hclock : (events.map HintEvent.time).Pairwise (· ≤ ·)) {now : ℕ}
    (hnow : ∀ e ∈ events, e.time ≤ now) (addr : α) :
    (∃ forgotten counted, HintEvent.hits addr events = forgotten ++ counted ∧
      (∀ h ∈ forgotten, h.2 + hintTtlSecs < now) ∧
      replay events addr = HitRecord.summary counted) ∧
    (((replay events).gcExpired now addr).isSome = true ↔
      ∃ h ∈ HintEvent.hits addr events, now ≤ h.2 + hintTtlSecs) := by
  obtain ⟨forgotten, hsplit, hold⟩ := HintEvent.exists_forgotten addr hclock hnow
  have hsorted := HintEvent.pairwise_hits addr hclock
  have hcollected : (replay events).gcExpired now addr =
      HitRecord.summary (HintEvent.collect now (HintEvent.live addr events)) := by
    rw [summary_collect, ← replay_eq_summary]
    rfl
  refine ⟨⟨forgotten, _, hsplit, hold, replay_eq_summary events addr⟩, ?_⟩
  rw [hsplit] at hsorted
  rw [hcollected, hsplit, HintEvent.collect]
  generalize HintEvent.live addr events = counted at hsorted
  constructor
  · intro hsome
    split_ifs at hsome with hkeep
    · cases counted using List.reverseRecOn with
      | nil => cases hsome
      | append_singleton counted last =>
        rw [List.getLast?_concat, Option.all_some, decide_eq_true_iff] at hkeep
        exact ⟨last, List.mem_append_right _ List.mem_concat_self, by omega⟩
    · cases hsome
  · rintro ⟨h, hmem, hrecent⟩
    have hcounted : h ∈ counted := (List.mem_append.mp hmem).resolve_left fun hforgotten =>
      absurd (hold h hforgotten) (Nat.not_lt.mpr hrecent)
    have hkeep : (counted.getLast?.all fun last => decide (now - hintTtlSecs ≤ last.2)) = true := by
      by_contra hnot
      exact absurd (HintEvent.old_of_not_kept (List.pairwise_append.mp hsorted).2.1 hnot hcounted)
        (Nat.not_lt.mpr hrecent)
    rw [if_pos hkeep, HitRecord.summary, Option.isSome_map, List.getLast?_isSome]
    exact List.ne_nil_of_mem hcounted

/-- A peer that was dropped after its first hit, and has another one. -/
def droppedOnce : List (HintEvent ℕ) := [.hit 7 .empty 10, .gc 400, .hit 7 .empty 500]

theorem hints_recent_droppedOnce :
    (replay droppedOnce 7).map HitRecord.hitCount = some 1 ∧
      ((replay droppedOnce).gcExpired 600 7).isSome = true := by
  have hclock : (droppedOnce.map HintEvent.time).Pairwise (· ≤ ·) := by decide
  have hnow : ∀ e ∈ droppedOnce, e.time ≤ 600 := by decide
  obtain ⟨-, hiff⟩ := hints_recent hclock hnow 7
  exact ⟨rfl, hiff.mpr ⟨(.ofCheckSum .empty, 500), List.mem_cons_of_mem _ List.mem_cons_self,
    by decide⟩⟩

end PeerHitHints

end DistillFs
