import DistillFs.Backend.Peer.Health
import DistillFs.Foundation.StableSort

/-!
# Ranking the peers

`ranked_peers_with_scores` drops the address of the node, sorts the peers by their health and then
by a score, and removes repeated neighbours. The sort is stable, so two copies of an address stay
apart where a peer of the same health and the same score stood between them.

## Main definitions

* `PeerRanking`: what the ranking knows about the peers.
* `PeerRanking.rankedPeersWithScores`.
* `PeerRanking.RankedOnce`: each peer once, in the order of the ranking.

## Main results

* `PeerRanking.pairwise_rankedPeersWithScores`, `PeerRanking.mem_rankedPeersWithScores`.
* `PeerRanking.rankedOnce_iff`: when each peer is kept once.
-/

namespace DistillFs

open Foundation List

/-- What the ranking knows about the peers; scores and round-trip times are elements of `F`. -/
structure PeerRanking (α F : Type*) where
  localAddr : Option α
  /-- The snapshot of the health, collected into a map. -/
  health : α → Option (Bool × F)
  /-- The snapshot of the hint scores. -/
  scores : α → Option F

namespace PeerRanking

variable {α F : Type*} [DecidableEq α] [LinearOrder F] [Add F] [Mul F] [Div F] [NatCast F]
  (r : PeerRanking α F)

def isSelf (addr : α) : Bool := r.localAddr.any fun self => decide (self = addr)

def unhealthy (addr : α) : Bool := !((r.health addr).getD (true, ((50 : ℕ) : F))).1

/-- The score by which peers of the same health are compared. -/
def score (addr : α) : F :=
  let rttMs := ((r.health addr).getD (true, ((50 : ℕ) : F))).2
  (r.scores addr).getD ((0 : ℕ) : F) * ((10 : ℕ) : F) + ((100 : ℕ) : F) / max rttMs ((1 : ℕ) : F)

/-- How two peers are compared. -/
def comparePeers (a b : α) : Ordering :=
  match compare (r.unhealthy a) (r.unhealthy b) with
  | .eq => compare (r.score b) (r.score a)
  | other => other

/-- `ranked_peers_with_scores`. -/
def rankedPeersWithScores (peers : List α) : List α :=
  let peers := peers.filter fun addr => !r.isSelf addr
  let peers := peers.mergeSort fun a b => (r.comparePeers a b).isLE
  peers.destutter (· ≠ ·)

/-- One peer may stand before another one: it is healthy and the other one is not, or they agree in
their health and its score is not below. -/
def Before (a b : α) : Prop :=
  r.unhealthy a < r.unhealthy b ∨ r.unhealthy a = r.unhealthy b ∧ r.score b ≤ r.score a

/-- The ranking has each peer other than the node once, the healthy ones first, and those of the
same health by their score. -/
structure RankedOnce (peers ranked : List α) : Prop where
  count : ∀ addr, ranked.count addr = if addr ∈ peers ∧ r.isSelf addr = false then 1 else 0
  order : ranked.Pairwise r.Before

omit [DecidableEq α] in
theorem isLE_comparePeers (a b : α) : (r.comparePeers a b).isLE = true ↔ r.Before a b := by
  rw [comparePeers, Before]
  rcases lt_trichotomy (r.unhealthy a) (r.unhealthy b) with hlt | heq | hgt
  · rw [compare_lt_iff_lt.mpr hlt]
    simp [hlt]
  · rw [compare_eq_iff_eq.mpr heq]
    simp [heq, Ordering.isLE_iff_eq_lt_or_eq_eq, compare_lt_iff_lt, le_iff_lt_or_eq]
  · rw [compare_gt_iff_gt.mpr hgt]
    simp [hgt.not_gt, hgt.ne']

omit [DecidableEq α] in
theorem before_trans {a b c : α} (hab : r.Before a b) (hbc : r.Before b c) : r.Before a c := by
  rcases hab with hab | ⟨heq, hab⟩
  · rcases hbc with hbc | ⟨heq, -⟩
    · exact Or.inl (hab.trans hbc)
    · exact Or.inl (heq ▸ hab)
  · rcases hbc with hbc | ⟨heq', hbc⟩
    · exact Or.inl (heq ▸ hbc)
    · exact Or.inr ⟨heq.trans heq', hbc.trans hab⟩

omit [DecidableEq α] in
theorem before_total (a b : α) : r.Before a b ∨ r.Before b a := by
  rcases lt_trichotomy (r.unhealthy a) (r.unhealthy b) with hlt | heq | hgt
  · exact Or.inl (Or.inl hlt)
  · exact (le_total (r.score b) (r.score a)).imp (fun h => Or.inr ⟨heq, h⟩)
      fun h => Or.inr ⟨heq.symm, h⟩
  · exact Or.inr (Or.inl hgt)

omit [DecidableEq α] in
theorem before_both_iff (a b : α) :
    r.Before a b ∧ r.Before b a ↔ r.unhealthy a = r.unhealthy b ∧ r.score a = r.score b := by
  constructor
  · rintro ⟨hab | ⟨heq, hab⟩, hba | ⟨heq', hba⟩⟩
    · exact absurd hab hba.not_gt
    · exact absurd hab (heq' ▸ lt_irrefl _)
    · exact absurd hba (heq ▸ lt_irrefl _)
    · exact ⟨heq, le_antisymm hba hab⟩
  · rintro ⟨heq, hscore⟩
    exact ⟨Or.inr ⟨heq, hscore.ge⟩, Or.inr ⟨heq.symm, hscore.le⟩⟩

variable (peers : List α)

omit [DecidableEq α] in
theorem isLE_trans (a b c : α) (hab : (r.comparePeers a b).isLE = true)
    (hbc : (r.comparePeers b c).isLE = true) : (r.comparePeers a c).isLE = true :=
  (r.isLE_comparePeers a c).mpr (r.before_trans ((r.isLE_comparePeers a b).mp hab)
    ((r.isLE_comparePeers b c).mp hbc))

omit [DecidableEq α] in
theorem isLE_total (a b : α) :
    ((r.comparePeers a b).isLE || (r.comparePeers b a).isLE) = true := by
  rw [Bool.or_eq_true, isLE_comparePeers, isLE_comparePeers]
  exact r.before_total a b

/-- Healthy peers come first, and peers of the same health in the order of their scores. -/
theorem pairwise_rankedPeersWithScores : (r.rankedPeersWithScores peers).Pairwise r.Before := by
  have hsorted : ((peers.filter fun addr => !r.isSelf addr).mergeSort fun a b =>
      (r.comparePeers a b).isLE).Pairwise fun a b => (r.comparePeers a b).isLE = true :=
    pairwise_mergeSort r.isLE_trans r.isLE_total _
  exact (hsorted.imp fun {a b} => (r.isLE_comparePeers a b).mp).sublist (destutter_sublist _ _)

variable {peers} in
/-- The ranking has the peers other than the node. -/
theorem mem_rankedPeersWithScores {addr : α} :
    addr ∈ r.rankedPeersWithScores peers ↔ addr ∈ peers ∧ r.isSelf addr = false := by
  rw [rankedPeersWithScores, mem_destutter, mem_mergeSort, List.mem_filter, Bool.not_eq_true']

theorem rankedOnce_iff_nodup :
    r.RankedOnce peers (r.rankedPeersWithScores peers) ↔ (r.rankedPeersWithScores peers).Nodup := by
  constructor
  · intro h
    rw [List.nodup_iff_count_le_one]
    intro addr
    rw [h.count]
    split_ifs
    · exact le_rfl
    · exact Nat.zero_le 1
  · refine fun hnodup => ⟨fun addr => ?_, r.pairwise_rankedPeersWithScores peers⟩
    rw [hnodup.count]
    exact if_congr r.mem_rankedPeersWithScores rfl rfl

/-- **Each peer once.** The ranking keeps each peer once exactly if the list has no two peers of the
same health and the same score, one of which stands between two copies of the other. -/
theorem rankedOnce_iff : r.RankedOnce peers (r.rankedPeersWithScores peers) ↔
    ∀ x y, x ≠ y → r.isSelf x = false → r.isSelf y = false → [x, y, x] <+ peers →
      ¬(r.unhealthy x = r.unhealthy y ∧ r.score x = r.score y) := by
  have hlocal : ∀ x y, [x, y, x] <+ peers.filter (fun addr => !r.isSelf addr) ↔
      r.isSelf x = false ∧ r.isSelf y = false ∧ [x, y, x] <+ peers := by
    intro x y
    constructor
    · intro h
      have hmem := fun a ha => (List.mem_filter.mp (h.subset ha) : a ∈ peers ∧ _).2
      refine ⟨?_, ?_, h.trans filter_sublist⟩
      · simpa using hmem x (by simp)
      · simpa using hmem y (by simp)
    · rintro ⟨hx, hy, h⟩
      simpa [hx, hy] using h.filter fun addr => !r.isSelf addr
  rw [rankedOnce_iff_nodup, rankedPeersWithScores, nodup_destutter_iff]
  refine forall₂_congr fun x y => imp_congr_right fun _ => ?_
  rw [sandwich_sublist_mergeSort r.isLE_trans r.isLE_total, isLE_comparePeers, isLE_comparePeers,
    before_both_iff, hlocal]
  tauto

/-- A ranking that knows nothing about the peers. -/
def unknownPeers : PeerRanking ℕ ℚ := ⟨none, fun _ => none, fun _ => none⟩

/-- Two peers in a tie: the copies of the first one stay apart. -/
theorem peer_ranked_twice : unknownPeers.rankedPeersWithScores [1, 2, 1] = [1, 2, 1] ∧
    ¬unknownPeers.RankedOnce [1, 2, 1] (unknownPeers.rankedPeersWithScores [1, 2, 1]) := by
  have hranked : unknownPeers.rankedPeersWithScores [1, 2, 1] = [1, 2, 1] := by
    have hfilter : [1, 2, 1].filter (fun addr => !unknownPeers.isSelf addr) = [1, 2, 1] := rfl
    have htie : ∀ a b, unknownPeers.Before a b := fun _ _ => Or.inr ⟨rfl, le_rfl⟩
    rw [rankedPeersWithScores, hfilter, mergeSort_of_pairwise]
    · rfl
    · exact List.pairwise_of_forall fun a b => (unknownPeers.isLE_comparePeers a b).mpr (htie a b)
  refine ⟨hranked, fun h => ?_⟩
  have hcount := h.count 1
  rw [hranked] at hcount
  exact absurd hcount (by decide)

end PeerRanking

end DistillFs
