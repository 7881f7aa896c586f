import DistillFs.Backend.Basic
import DistillFs.Backend.Peer.Ranking

/-!
# The candidates for a chunk

To fetch a chunk a node asks a few peers: the owners that the chunk index lists, in the order of the
ranking, or, if it lists no other node, peers of the discovery. Of these the ones with a positive
hint score come first, and the rest is drawn at random.

## Main definitions

* `PeerClient`, `CandidateCall`: what a call reads, the outcome of the shuffle included.
* `PeerClient.candidatePeers`.
* `PeerClient.CandidatesSound`: what a call may rely on.

## Main results

* `PeerClient.candidatePeers_sound`.
-/

namespace DistillFs

open Foundation List

structure PeerClient (α : Type*) where
  maxQueryPeers : ℕ
  localAddr : Option α

/-- Where the candidates of a call come from. -/
inductive CandidateSource
  | index
  | hithints
  | random
  deriving DecidableEq, Repr

/-- The name of a source in the metrics. -/
def CandidateSource.text : CandidateSource → String
  | index => "index"
  | hithints => "hithints"
  | random => "random"

/-- What a call of `candidate_peers` reads. -/
structure CandidateCall (α F : Type*) where
  /-- The snapshot of the hint scores. -/
  scores : α → Option F
  /-- The answer of the chunk index, if there is one. -/
  lookupOwners : Option (Except IoError (List α))
  /-- The health of the peers when the owners are ranked. -/
  ownersHealth : PeerHealthSnapshot α F
  getPeers : List α
  /-- The health of the peers when the discovery peers are ranked. -/
  peersHealth : PeerHealthSnapshot α F
  /-- The outcome of the shuffle. -/
  shuffle : List α → List α
  shuffle_perm : ∀ l, (shuffle l).Perm l

namespace PeerClient

variable {α F : Type*} [DecidableEq α] [LinearOrder F] [Add F] [Mul F] [Div F] [NatCast F]
  (client : PeerClient α) (call : CandidateCall α F)

def isSelf (addr : α) : Bool := client.localAddr.any fun self => decide (self = addr)

/-- What a call knows when it ranks the owners. -/
def ownersRanking : PeerRanking α F :=
  ⟨client.localAddr, call.ownersHealth.healthMap, call.scores⟩

/-- What a call knows when it ranks the discovery peers. -/
def peersRanking : PeerRanking α F :=
  ⟨client.localAddr, call.peersHealth.healthMap, call.scores⟩

def discoveryPeers : List α := call.getPeers.filter fun addr => !client.isSelf addr

/-- The discovery peers in the order of the ranking. -/
def ranked : List α :=
  (client.peersRanking call).rankedPeersWithScores (client.discoveryPeers call)

/-- The hint score of the address is positive. -/
def isHinted (addr : α) : Bool :=
  decide (((0 : ℕ) : F) < (call.scores addr).getD ((0 : ℕ) : F))

/-- `candidate_peers` without the chunk index, or when it lists no other node. -/
def discoveredPeers : List α × CandidateSource :=
  let ranked := client.ranked call
  if ranked.isEmpty then (ranked, .random)
  else
    let (hinted, unknown) := ranked.partition (isHinted call)
    if !hinted.isEmpty then
      let selected := if hinted.length < client.maxQueryPeers ∧ unknown.isEmpty = false then
        hinted ++ (call.shuffle unknown).take (client.maxQueryPeers - hinted.length) else hinted
      (selected.take client.maxQueryPeers, .hithints)
    else ((call.shuffle unknown).take client.maxQueryPeers, .random)

/-- `candidate_peers`. -/
def candidatePeers : List α × CandidateSource :=
  match call.lookupOwners with
  | some answer =>
    let owners := match answer with
      | .ok owners => (client.ownersRanking call).rankedPeersWithScores owners
      | .error _ => []
    if !owners.isEmpty then (owners.take client.maxQueryPeers, .index)
    else client.discoveredPeers call
  | none => client.discoveredPeers call

/-- The candidates of a call. There are few of them, the node is not among them, and each is from
where the source says; there are none only if there is no other node to ask; and of the discovery
peers those with a hint come first, in the order of the ranking, and others only after all these. -/
structure CandidatesSound (candidates : List α) (source : CandidateSource) : Prop where
  length_le : candidates.length ≤ client.maxQueryPeers
  not_self : ∀ addr ∈ candidates, client.isSelf addr = false
  from_index : source = .index →
    ∃ owners, call.lookupOwners = some (.ok owners) ∧ ∀ addr ∈ candidates, addr ∈ owners
  from_discovery : source ≠ .index → ∀ addr ∈ candidates, addr ∈ call.getPeers
  nobody : candidates = [] →
    (∀ owners, call.lookupOwners = some (.ok owners) → ∀ addr ∈ owners, client.isSelf addr = true) ∧
    ∀ addr ∈ call.getPeers, client.isSelf addr = true
  hinted : source = .hithints → ∃ rest,
    candidates = ((client.ranked call).filter (isHinted call)).take client.maxQueryPeers ++ rest ∧
    (∀ addr ∈ rest, isHinted call addr = false) ∧
    (rest ≠ [] → ∀ addr ∈ call.getPeers, client.isSelf addr = false → isHinted call addr = true →
      addr ∈ candidates)

variable {client call} {addr : α}

omit [LinearOrder F] [Add F] [Mul F] [Div F] [NatCast F] in
theorem mem_discoveryPeers :
    addr ∈ client.discoveryPeers call ↔ addr ∈ call.getPeers ∧ client.isSelf addr = false := by
  rw [discoveryPeers, List.mem_filter, Bool.not_eq_true']

theorem mem_ranked :
    addr ∈ client.ranked call ↔ addr ∈ call.getPeers ∧ client.isSelf addr = false := by
  rw [ranked, PeerRanking.mem_rankedPeersWithScores, mem_discoveryPeers, and_assoc]
  exact and_congr_right fun _ => and_self_iff

/-- With a hint, the candidates are the hinted peers, cut at the limit, and others after them only
below the limit. -/
theorem discoveredPeers_of_hinted
    (h : (client.ranked call).filter (isHinted call) ≠ []) :
    ∃ rest, client.discoveredPeers call =
      (((client.ranked call).filter (isHinted call)).take client.maxQueryPeers ++ rest,
        .hithints) ∧
      rest.length ≤ client.maxQueryPeers - ((client.ranked call).filter (isHinted call)).length ∧
      ∀ addr ∈ rest, addr ∈ client.ranked call ∧ isHinted call addr = false := by
  have hranked : (client.ranked call).isEmpty = false := by
    rw [List.isEmpty_eq_false_iff]
    exact fun hnil => h (by rw [hnil]; rfl)
  rw [discoveredPeers, hranked, List.partition_eq_filter_filter]
  dsimp only
  rw [if_neg Bool.false_ne_true, List.isEmpty_eq_false_iff.mpr h, if_pos Bool.not_false]
  split_ifs with hroom
  · refine ⟨(call.shuffle ((client.ranked call).filter (not ∘ isHinted call))).take
      (client.maxQueryPeers - ((client.ranked call).filter (isHinted call)).length), ?_,
      List.length_take_le .., fun addr haddr => ?_⟩
    · rw [List.take_append, List.take_take, min_self]
    · have hmem := (call.shuffle_perm _).mem_iff.mp (List.mem_of_mem_take haddr)
      obtain ⟨hin, hnot⟩ := List.mem_filter.mp hmem
      exact ⟨hin, by simpa using hnot⟩
  · exact ⟨[], by rw [List.append_nil], Nat.zero_le _, fun _ h => by cases h⟩

/-- Without a hint, they are any of the discovery peers. -/
theorem discoveredPeers_of_not_hinted
    (h : (client.ranked call).filter (isHinted call) = []) :
    (client.discoveredPeers call).2 = .random ∧
      (client.discoveredPeers call).1.length =
        min client.maxQueryPeers (client.ranked call).length ∧
      ∀ addr ∈ (client.discoveredPeers call).1, addr ∈ client.ranked call := by
  have hall : (client.ranked call).filter (not ∘ isHinted call) = client.ranked call :=
    List.filter_eq_self.mpr fun addr haddr => by
      simpa using List.filter_eq_nil_iff.mp h addr haddr
  rw [discoveredPeers, List.partition_eq_filter_filter, h, hall]
  dsimp only
  rw [List.isEmpty_nil, Bool.not_true, if_neg Bool.false_ne_true]
  split_ifs with hempty
  · rw [List.isEmpty_iff] at hempty
    rw [hempty]
    exact ⟨rfl, (Nat.min_zero _).symm, fun _ h => h⟩
  · refine ⟨rfl, ?_, fun addr haddr => ?_⟩
    · rw [List.length_take, (call.shuffle_perm _).length_eq]
    · exact (call.shuffle_perm _).mem_iff.mp (List.mem_of_mem_take haddr)

/-- The candidates from the discovery, if the index lists no other node. -/
theorem discoveredPeers_sound (hmax : 1 ≤ client.maxQueryPeers)
    (howners : ∀ owners, call.lookupOwners = some (.ok owners) →
      ∀ addr ∈ owners, client.isSelf addr = true) :
    client.CandidatesSound call (client.discoveredPeers call).1
      (client.discoveredPeers call).2 := by
  have hself : client.ranked call = [] → ∀ addr ∈ call.getPeers, client.isSelf addr = true :=
    fun hnil addr haddr => by
      by_contra hother
      have hmem := mem_ranked.mpr ⟨haddr, eq_false_of_ne_true hother⟩
      rw [hnil] at hmem
      cases hmem
  by_cases hhint : (client.ranked call).filter (isHinted call) = []
  · obtain ⟨hsource, hlen, hmem⟩ := discoveredPeers_of_not_hinted hhint
    refine ⟨hlen.trans_le (min_le_left ..), fun addr h => (mem_ranked.mp (hmem addr h)).2,
      fun h => ?_, fun _ addr h => (mem_ranked.mp (hmem addr h)).1, fun hnil => ⟨howners, ?_⟩,
      fun h => ?_⟩
    · rw [hsource] at h
      cases h
    · refine hself (List.length_eq_zero_iff.mp ?_)
      rw [hnil, List.length_nil] at hlen
      omega
    · rw [hsource] at h
      cases h
  · obtain ⟨rest, heq, hlen, hrest⟩ := discoveredPeers_of_hinted hhint
    have hmem : ∀ addr ∈ ((client.ranked call).filter (isHinted call)).take client.maxQueryPeers
        ++ rest, addr ∈ client.ranked call := by
      intro addr haddr
      rcases List.mem_append.mp haddr with h | h
      · exact List.mem_of_mem_filter (List.mem_of_mem_take h)
      · exact (hrest addr h).1
    rw [heq]
    refine ⟨?_, fun addr h => (mem_ranked.mp (hmem addr h)).2, (fun h => by cases h),
      fun _ addr h => (mem_ranked.mp (hmem addr h)).1, fun hnil => ?_, fun _ => ?_⟩
    · rw [List.length_append, List.length_take]
      omega
    · have htake := List.take_eq_nil_iff.mp (List.append_eq_nil_iff.mp hnil).1
      exact absurd (htake.resolve_left (by omega)) hhint
    · refine ⟨rest, rfl, fun addr h => (hrest addr h).2, fun hne addr haddr hother hhinted => ?_⟩
      have hpos := List.length_pos_iff.mpr hne
      rw [List.take_of_length_le (by omega)]
      exact List.mem_append_left _
        (List.mem_filter.mpr ⟨mem_ranked.mpr ⟨haddr, hother⟩, hhinted⟩)

/-- **The candidates.** Whatever the index, the discovery and the shuffle answer, the candidates of
a call are sound. -/
theorem candidatePeers_sound (client : PeerClient α) (call : CandidateCall α F)
    (hmax : 1 ≤ client.maxQueryPeers) :
    client.CandidatesSound call (client.candidatePeers call).1 (client.candidatePeers call).2 := by
  rw [candidatePeers]
  cases hlookup : call.lookupOwners with
  | none => exact discoveredPeers_sound hmax fun owners h => by rw [hlookup] at h; cases h
  | some answer =>
    cases answer with
    | error err => exact discoveredPeers_sound hmax fun owners h => by rw [hlookup] at h; cases h
    | ok owners =>
      have hmem : ∀ addr, addr ∈ (client.ownersRanking call).rankedPeersWithScores owners ↔
          addr ∈ owners ∧ client.isSelf addr = false := fun addr =>
        PeerRanking.mem_rankedPeersWithScores _
      dsimp only
      split_ifs with hempty
      · rw [Bool.not_eq_true', List.isEmpty_eq_false_iff] at hempty
        refine ⟨List.length_take_le .., fun addr h => ((hmem addr).mp (List.mem_of_mem_take h)).2,
          fun _ => ⟨owners, hlookup, fun addr h => ((hmem addr).mp (List.mem_of_mem_take h)).1⟩,
          fun h => absurd rfl h, fun hnil => ?_, fun h => by cases h⟩
        exact absurd ((List.take_eq_nil_iff.mp hnil).resolve_left (by omega)) hempty
      · rw [Bool.not_eq_true', Bool.not_eq_false, List.isEmpty_iff] at hempty
        refine discoveredPeers_sound hmax fun owners' h addr haddr => ?_
        rw [hlookup] at h
        obtain rfl : owners = owners' := by injection h with h; injection h
        by_contra hother
        have hin := (hmem addr).mpr ⟨haddr, eq_false_of_ne_true hother⟩
        rw [hempty] at hin
        cases hin

/-- The index lists only the node itself; of three discovery peers the second one has a hint. -/
def hintedCall : CandidateCall ℕ ℚ where
  scores addr := if addr = 2 then some 1 else none
  lookupOwners := some (.ok [7])
  ownersHealth := ⟨[], 0, 0⟩
  getPeers := [1, 2, 3]
  peersHealth := ⟨[], 0, 0⟩
  shuffle := List.reverse
  shuffle_perm := List.reverse_perm

theorem candidatePeers_sound_hintedCall :
    CandidatesSound ⟨2, some 7⟩ hintedCall (candidatePeers ⟨2, some 7⟩ hintedCall).1
      (candidatePeers ⟨2, some 7⟩ hintedCall).2 :=
  candidatePeers_sound ⟨2, some 7⟩ hintedCall (by decide)

end PeerClient

end DistillFs
