import DistillFs.Backend.Peer.RegisterMany

/-!
# Looking up before registering

`sync_chunks` looks up the live owners of its checksums, enters into the tracker those that the
node already owns, and registers those that have neither the node nor enough others as owners. The
lookup and the script compute the same time limit, and both take the owners at the limit as theirs:
the lookup as live ones, the script as ones to drop.

The functions here are whole calls with nobody else at Redis, in one second of the clock.

## Main definitions

* `RedisChunkIndex.lookupOwnerValues`, `RedisChunkIndex.syncChunks`,
  `RedisChunkIndex.repairMissingChunks`.
* `IndexNode.live`: the owners that a lookup answers.
* `Synced`: what a call is to do.
* `IndexNode.NoneAtLimit`: the condition on owners.

## Main results

* `RedisChunkIndex.sync_exact_iff`: which calls do so.
* `RedisChunkIndex.tracked_repairMissingChunks`: the tracker after a repair.
* `RedisChunkIndex.live_owner_dropped`: a call that drops a live owner.
-/

namespace DistillFs

open Foundation SortedSet

namespace RedisChunkIndex

variable {α : Type*} [LinearOrder α] (addr : α) (ttl : ℕ)

/-- The command that reads the owners of a checksum from a time on. -/
def lookupCommand (cutoff : ℕ) (_ : CheckSum) (owners : SortedSet α) :
    List (Finset α) × SortedSet α :=
  ([owners.rangeByScore cutoff], owners)

/-- `lookup_owner_values`. The first request connects. -/
def lookupOwnerValues (faults : ℕ → Option IoError) (checksums : List CheckSum)
    (s : IndexNode α) : Except IoError (List (Finset α)) :=
  if checksums = [] then .ok []
  else
    match faults 0 with
    | some e => .error e
    | none =>
      (pipelines (onKey (lookupCommand (s.clock - ttl))) (fun i => faults (i + 1))
        (batches redisRegisterBatchSize checksums) [] s.redis).1

/-- `sync_chunks`. -/
def syncChunks (lookupFaults registerFaults : ℕ → Option IoError) (checksums : List CheckSum)
    (s : IndexNode α) : Except IoError ℕ × IndexNode α :=
  match lookupOwnerValues ttl lookupFaults checksums s with
  | .error e => (.error e, s)
  | .ok ownerSets =>
    let found := checksums.zip ownerSets
    let r := registerMany addr ttl registerFaults (missing addr found)
      { s with tracker := s.tracker ∪ (tracked addr found).toFinset }
    (r.1.map fun registered => (tracked addr found).length + registered, r.2)

/-- `repair_missing_chunks`. -/
def repairMissingChunks (lookupFaults registerFaults : ℕ → Option IoError)
    (checksums : List CheckSum) (s : IndexNode α) : Except IoError ℕ × IndexNode α :=
  syncChunks addr ttl lookupFaults registerFaults (checksums.filter fun cs => cs ∉ s.tracker) s

end RedisChunkIndex

section Conditions

variable {α : Type*} [LinearOrder α]

/-- The owners that a lookup answers. -/
def IndexNode.live (s : IndexNode α) (ttl : ℕ) (cs : CheckSum) : Finset α :=
  (s.redis cs).rangeByScore (s.clock - ttl : ℕ)

/-- No live owner is lost, and chunks with enough other owners are left as they are. -/
structure OwnersKept (addr : α) (ttl : ℕ) (s s' : IndexNode α) : Prop where
  kept : ∀ cs, ∀ a ∈ s.live ttl cs, a ∈ s'.redis cs
  full : ∀ cs, addr ∉ s.live ttl cs → maxChunkOwners ≤ (s.live ttl cs).card →
    s'.redis cs = s.redis cs ∧ (cs ∈ s'.tracker ↔ cs ∈ s.tracker)

/-- What a call for some checksums that answers `count` is to do. -/
structure Synced (addr : α) (ttl : ℕ) (s s' : IndexNode α) (checksums : List CheckSum)
    (count : ℕ) : Prop extends OwnersKept addr ttl s s' where
  tracked : ∀ cs ∈ checksums, addr ∈ s'.live ttl cs → cs ∈ s'.tracker
  count_eq : count = (checksums.filter fun cs => addr ∈ s'.live ttl cs).length

/-- No checksum that is to be registered has an owner whose time is just at the limit. -/
def IndexNode.NoneAtLimit (s : IndexNode α) (addr : α) (ttl : ℕ) (checksums : List CheckSum) :
    Prop :=
  ttl ≤ s.clock → ∀ cs ∈ checksums, addr ∉ s.live ttl cs →
    (s.live ttl cs).card < maxChunkOwners → ∀ a, (a, (s.clock - ttl : ℤ)) ∉ (s.redis cs).entries

end Conditions

/-! ### The script after a lookup -/

section Script

variable {α : Type*} [LinearOrder α] {owners : SortedSet α} {a addr : α} {now ttl cutoff : ℤ}
  {maxOwners : ℕ}

/-- The address is entered when a lookup finds fewer owners than the limit. -/
theorem mem_registerScript_of_card_lt (hnow : cutoff ≤ now)
    (h : (owners.rangeByScore cutoff).card < maxOwners) :
    addr ∈ (registerScript owners addr now ttl maxOwners).1 := by
  refine mem_registerScript (lt_of_le_of_lt ?_ h)
  have hsub : newerOwners owners addr now (now - ttl) ⊆ owners.entries := Finset.filter_subset ..
  rw [← Finset.card_image_of_injOn (injOn_fst hsub)]
  refine Finset.card_le_card fun b hb => ?_
  obtain ⟨⟨b, score⟩, hp, rfl⟩ := Finset.mem_image.mp hb
  obtain ⟨hold, -, -, hnewer⟩ := Finset.mem_filter.mp hp
  exact mem_rangeByScore.mpr ⟨score, hold, hnow.trans (snd_le_of_pos_lt hnewer)⟩

/-- The address is entered with the present time. -/
theorem eq_now_of_mem_registerScript {score : ℤ}
    (h : (addr, score) ∈ (registerScript owners addr now ttl maxOwners).1.entries) :
    score = now := by
  rcases mem_entries_liveOwners.mp (mem_of_mem_trim h) with heq | ⟨-, hne⟩
  · exact (Prod.mk.inj heq).2
  · exact absurd rfl hne

/-- When a lookup finds fewer owners than the limit, the script keeps those it finds that are not
too old. -/
theorem kept_registerScript {score : ℤ} (hout : addr ∉ owners.rangeByScore cutoff)
    (h : (owners.rangeByScore cutoff).card < maxOwners) (ha : (a, score) ∈ owners.entries)
    (hcutoff : cutoff ≤ score) (hlive : now - ttl < score) :
    a ∈ (registerScript owners addr now ttl maxOwners).1 := by
  have hfound : a ∈ owners.rangeByScore cutoff := mem_rangeByScore.mpr ⟨score, ha, hcutoff⟩
  have hne : a ≠ addr := by
    rintro rfl
    exact hout hfound
  have hin : (a, score) ∈ (liveOwners owners addr now ttl).entries :=
    mem_entries_liveOwners.mpr (Or.inr ⟨⟨ha, hlive⟩, hne⟩)
  refine mem_of_mem_entries (mem_trim_of_card_lt hin (lt_of_le_of_lt ?_ h))
  rw [← Finset.card_image_of_injOn (injOn_fst (Finset.filter_subset ..)),
    ← Finset.card_erase_add_one hfound]
  refine (Finset.card_le_card fun b hb => ?_).trans (Finset.card_insert_le addr _)
  -- the address may stand behind the owner, which does not stand behind itself
  obtain ⟨⟨b, score'⟩, hp, rfl⟩ := Finset.mem_image.mp hb
  obtain ⟨hp, hbehind⟩ := Finset.mem_filter.mp hp
  rcases mem_entries_liveOwners.mp hp with heq | ⟨⟨hold, -⟩, -⟩
  · exact Finset.mem_insert.mpr (Or.inl (Prod.mk.inj heq).1)
  · refine Finset.mem_insert_of_mem (Finset.mem_erase.mpr ⟨?_, ?_⟩)
    · rintro heq
      rw [owners.unique _ hold _ ha heq] at hbehind
      exact lt_irrefl _ hbehind
    · exact mem_rangeByScore.mpr ⟨score', hold, hcutoff.trans (snd_le_of_pos_lt hbehind)⟩

/-- The script drops an owner that is too old. -/
theorem notMem_registerScript {score : ℤ} (hne : a ≠ addr) (ha : (a, score) ∈ owners.entries)
    (hold : score ≤ now - ttl) : a ∉ (registerScript owners addr now ttl maxOwners).1 := by
  rintro ⟨p, hp, rfl⟩
  rcases mem_entries_liveOwners.mp (mem_of_mem_trim hp) with rfl | ⟨⟨hin, hlive⟩, -⟩
  · exact hne rfl
  · rw [owners.unique p hin _ ha rfl] at hlive
    exact not_le.mpr hlive hold

end Script

/-! ### A call with nobody else -/

namespace RedisChunkIndex

section Calls

variable {α : Type*} [LinearOrder α] {addr : α} {ttl count : ℕ} {s : IndexNode α}
  {faults lookupFaults registerFaults : ℕ → Option IoError} {checksums : List CheckSum}

/-- A lookup answers the live owners of each checksum. -/
theorem lookupOwnerValues_ok {ownerSets : List (Finset α)} (hnodup : checksums.Nodup)
    (h : lookupOwnerValues ttl faults checksums s = .ok ownerSets) :
    checksums.zip ownerSets = checksums.map fun cs => (cs, s.live ttl cs) := by
  have hsets : ownerSets = checksums.map (s.live ttl) := by
    unfold lookupOwnerValues at h
    split_ifs at h with hnil
    · subst hnil
      exact (Except.ok.inj h).symm
    cases hconn : faults 0 with
    | some e => simp [hconn] at h
    | none =>
      simp only [hconn] at h
      obtain ⟨i, -, -, -, ⟨-, hok, -⟩ | ⟨-, e, -, herr⟩⟩ := pipelines_cases
        (onKey (lookupCommand (α := α) (s.clock - ttl))) (fun i => faults (i + 1)) s.redis
        batchSize_pos checksums
      · rw [hok] at h
        rw [← Except.ok.inj h, pipeline_results s.redis hnodup]
        exact List.map_eq_flatMap.symm
      · rw [herr] at h
        cases h
  have hzip := @List.zip_map' _ _ _ id (s.live ttl) checksums
  rwa [List.map_id, ← hsets] at hzip

/-- The checksums that a call only enters into the tracker. -/
def owned (addr : α) (ttl : ℕ) (s : IndexNode α) (checksums : List CheckSum) : List CheckSum :=
  checksums.filter fun cs => addr ∈ s.live ttl cs

/-- The checksums that a call registers. -/
def unowned (addr : α) (ttl : ℕ) (s : IndexNode α) (checksums : List CheckSum) : List CheckSum :=
  checksums.filter fun cs => addr ∉ s.live ttl cs ∧ (s.live ttl cs).card < maxChunkOwners

theorem tracked_live : tracked addr (checksums.map fun cs => (cs, s.live ttl cs)) =
    owned addr ttl s checksums := by
  simp [tracked, owned, List.filter_map, Function.comp_def]

theorem missing_live : missing addr (checksums.map fun cs => (cs, s.live ttl cs)) =
    unowned addr ttl s checksums := by
  simp [missing, unowned, List.filter_map, Function.comp_def]

variable {cs : CheckSum}

theorem mem_owned : cs ∈ owned addr ttl s checksums ↔ cs ∈ checksums ∧ addr ∈ s.live ttl cs := by
  simp [owned]

theorem mem_unowned : cs ∈ unowned addr ttl s checksums ↔
    cs ∈ checksums ∧ addr ∉ s.live ttl cs ∧ (s.live ttl cs).card < maxChunkOwners := by
  simp [unowned]

theorem nodup_unowned (hnodup : checksums.Nodup) : (unowned addr ttl s checksums).Nodup :=
  hnodup.filter _

omit [LinearOrder α] in
theorem limit_le_clock (s : IndexNode α) (ttl : ℕ) : ((s.clock - ttl : ℕ) : ℤ) ≤ s.clock :=
  Int.ofNat_le.mpr (Nat.sub_le ..)

/-- The registered checksums are all retained. -/
theorem pipeline_unowned (hnodup : checksums.Nodup) :
    (pipeline (onKey (registerCommand addr ttl s.clock)) (unowned addr ttl s checksums) s.redis).1 =
      unowned addr ttl s checksums := by
  rw [pipeline_results s.redis (nodup_unowned hnodup)]
  have hall : ∀ cs ∈ unowned addr ttl s checksums,
      (registerCommand addr ttl s.clock cs (s.redis cs)).1 = [cs] := fun cs hcs =>
    if_pos (registerScript_snd_iff.mpr (mem_registerScript_of_card_lt (limit_le_clock s ttl)
      (mem_unowned.mp hcs).2.2))
  rw [List.flatMap_congr hall]
  exact List.flatMap_singleton' _

/-- The script keeps the live owners that were looked up, unless one stands at the limit. -/
theorem kept_iff (hout : addr ∉ s.live ttl cs) (hfew : (s.live ttl cs).card < maxChunkOwners) :
    (∀ a ∈ s.live ttl cs,
        a ∈ (registerScript (s.redis cs) addr s.clock ttl maxChunkOwners).1) ↔
      (ttl ≤ s.clock → ∀ a, (a, (s.clock - ttl : ℤ)) ∉ (s.redis cs).entries) := by
  constructor
  · intro hkept hle a ha
    have hlive : a ∈ s.live ttl cs := mem_rangeByScore.mpr ⟨_, ha, by omega⟩
    have hne : a ≠ addr := by
      rintro rfl
      exact hout hlive
    exact notMem_registerScript hne ha le_rfl (hkept a hlive)
  · intro hnone a ha
    obtain ⟨score, hin, hcutoff⟩ := mem_rangeByScore.mp ha
    refine kept_registerScript hout hfew hin hcutoff (not_le.mp fun hold => ?_)
    have hle : ttl ≤ s.clock := by omega
    have heq : score = s.clock - ttl := by omega
    exact hnone hle a (heq ▸ hin)

theorem syncChunks_of_lookup {ownerSets : List (Finset α)} (hnodup : checksums.Nodup)
    (h : lookupOwnerValues ttl lookupFaults checksums s = .ok ownerSets)
    {r : Except IoError ℕ × IndexNode α}
    (hr : registerMany addr ttl registerFaults (unowned addr ttl s checksums)
      { s with tracker := s.tracker ∪ (owned addr ttl s checksums).toFinset } = r) :
    syncChunks addr ttl lookupFaults registerFaults checksums s =
      (r.1.map fun registered => (owned addr ttl s checksums).length + registered, r.2) := by
  unfold syncChunks
  simp only [h, lookupOwnerValues_ok hnodup h, tracked_live, missing_live, hr]

/-- What a call does to the state. -/
theorem syncChunks_cases (hnodup : checksums.Nodup) :
    ∃ (l : List CheckSum) (t : Finset CheckSum), l.Sublist (unowned addr ttl s checksums) ∧
      t ⊆ (owned addr ttl s checksums ++ unowned addr ttl s checksums).toFinset ∧
      (syncChunks addr ttl lookupFaults registerFaults checksums s).2 =
        { s with
          redis := (pipeline (onKey (registerCommand addr ttl s.clock)) l s.redis).2
          tracker := s.tracker ∪ t } ∧
      ∀ count, (syncChunks addr ttl lookupFaults registerFaults checksums s).1 = .ok count →
        l = unowned addr ttl s checksums ∧
          t = (owned addr ttl s checksums ++ unowned addr ttl s checksums).toFinset ∧
          count = (owned addr ttl s checksums).length +
            (unowned addr ttl s checksums).length := by
  cases hlookup : lookupOwnerValues ttl lookupFaults checksums s with
  | error e =>
    have heq : syncChunks addr ttl lookupFaults registerFaults checksums s = (.error e, s) := by
      rw [syncChunks, hlookup]
    rw [heq]
    refine ⟨[], ∅, List.nil_sublist _, Finset.empty_subset _, by simp [pipeline], ?_⟩
    exact fun _ h => by cases h
  | ok ownerSets =>
    have hends := @registerMany_ends α _ addr ttl { s with
      tracker := s.tracker ∪ (owned addr ttl s checksums).toFinset } registerFaults
      (unowned addr ttl s checksums)
    rw [syncChunks_of_lookup hnodup hlookup rfl]
    generalize registerMany addr ttl registerFaults (unowned addr ttl s checksums) _ = r at hends ⊢
    have howned : (owned addr ttl s checksums).toFinset ⊆
        (owned addr ttl s checksums ++ unowned addr ttl s checksums).toFinset := by simp
    cases hends with
    | early => exact ⟨[], _, List.nil_sublist _, howned, rfl, fun _ h => by cases h⟩
    | failed => exact ⟨_, _, List.take_sublist .., howned, rfl, fun _ h => by cases h⟩
    | finished =>
      refine ⟨_, _, List.Sublist.refl _, Finset.Subset.refl _, ?_, fun count hcount => ?_⟩
      · simp only [pipeline_unowned hnodup, List.toFinset_append, Finset.union_assoc]
      · refine ⟨rfl, rfl, (Except.ok.inj hcount).symm.trans ?_⟩
        simp only [pipeline_unowned hnodup]

/-! ### A call as steps -/

theorem lookupOwnerValues_noFaults (ttl : ℕ) (checksums : List CheckSum) (s : IndexNode α) :
    ∃ ownerSets, lookupOwnerValues ttl (fun _ => none) checksums s = .ok ownerSets := by
  unfold lookupOwnerValues
  split_ifs
  · exact ⟨[], rfl⟩
  · obtain ⟨i, -, -, -, ⟨-, hok, -⟩ | ⟨-, e, hfault, -⟩⟩ := pipelines_cases
      (onKey (lookupCommand (s.clock - ttl))) (fun _ => (none : Option IoError)) s.redis
      batchSize_pos checksums
    · exact ⟨_, hok⟩
    · cases hfault

theorem steps_lookups (k : IndexCont) (cutoff : ℕ) (todo : List CheckSum)
    (found : List (CheckSum × Finset α)) :
    IndexSteps addr ttl (s, .looking k cutoff todo found)
      (s, .looking k cutoff []
        (found ++ todo.map fun cs => (cs, (s.redis cs).rangeByScore cutoff))) := by
  induction todo generalizing found with
  | nil =>
    rw [List.map_nil, List.append_nil]
    exact .refl
  | cons cs rest ih =>
    rw [List.map_cons, List.append_cons]
    exact .head (b := (_, _)) .look (ih _)

/-- A task takes the steps of a call that does not fail. -/
theorem steps_syncChunks (k : IndexCont) (hnodup : checksums.Nodup) :
    IndexSteps addr ttl (s, .looking k (s.clock - ttl) checksums [])
      ((syncChunks addr ttl (fun _ => none) (fun _ => none) checksums s).2, k.resume) := by
  obtain ⟨ownerSets, hlookup⟩ := lookupOwnerValues_noFaults ttl checksums s
  rw [syncChunks_of_lookup hnodup hlookup rfl, ← tracked_live, ← missing_live]
  exact ((steps_lookups k _ checksums []).tail (c := (_, _)) .looked).trans
    (steps_registerMany k _)

/-! ### After a call -/

section After

variable {l : List CheckSum} {t : Finset CheckSum}

/-- The state after the script for some checksums. -/
def afterSync (addr : α) (ttl : ℕ) (s : IndexNode α) (l : List CheckSum) (t : Finset CheckSum) :
    IndexNode α :=
  { s with
    redis := (pipeline (onKey (registerCommand addr ttl s.clock)) l s.redis).2
    tracker := s.tracker ∪ t }

theorem redis_afterSync_of_notMem (h : cs ∉ l) :
    (afterSync addr ttl s l t).redis cs = s.redis cs :=
  pipeline_apply_of_notMem s.redis h

theorem redis_afterSync_of_mem (hnodup : l.Nodup) (h : cs ∈ l) :
    (afterSync addr ttl s l t).redis cs =
      (registerScript (s.redis cs) addr s.clock ttl maxChunkOwners).1 :=
  pipeline_apply_of_mem s.redis hnodup h

theorem mem_live_afterSync (hnodup : checksums.Nodup) (hcs : cs ∈ checksums) :
    addr ∈ (afterSync addr ttl s (unowned addr ttl s checksums) t).live ttl cs ↔
      addr ∈ s.live ttl cs ∨ addr ∉ s.live ttl cs ∧ (s.live ttl cs).card < maxChunkOwners := by
  by_cases hmem : cs ∈ unowned addr ttl s checksums
  · refine iff_of_true ?_ (Or.inr (mem_unowned.mp hmem).2)
    have hin : addr ∈ (registerScript (s.redis cs) addr s.clock ttl maxChunkOwners).1 :=
      mem_registerScript_of_card_lt (limit_le_clock s ttl) (mem_unowned.mp hmem).2.2
    obtain ⟨score, hscore⟩ := mem_iff.mp hin
    have hnow := eq_now_of_mem_registerScript hscore
    rw [IndexNode.live, redis_afterSync_of_mem (nodup_unowned hnodup) hmem]
    exact mem_rangeByScore.mpr ⟨score, hscore, hnow ▸ limit_le_clock s ttl⟩
  · rw [IndexNode.live, redis_afterSync_of_notMem hmem]
    refine (or_iff_left fun h => ?_).symm
    exact hmem (mem_unowned.mpr ⟨hcs, h⟩)

theorem ownersKept_afterSync (hnodup : checksums.Nodup)
    (hl : l.Sublist (unowned addr ttl s checksums))
    (ht : t ⊆ (owned addr ttl s checksums ++ unowned addr ttl s checksums).toFinset)
    (hnone : s.NoneAtLimit addr ttl checksums) :
    OwnersKept addr ttl s (afterSync addr ttl s l t) := by
  refine ⟨fun cs => ?_, fun cs hout hfull => ⟨?_, ?_⟩⟩
  · by_cases hmem : cs ∈ l
    · obtain ⟨hcs, hout, hfew⟩ := mem_unowned.mp (hl.subset hmem)
      rw [redis_afterSync_of_mem ((nodup_unowned hnodup).sublist hl) hmem]
      exact (kept_iff hout hfew).mpr fun hle => hnone hle cs hcs hout hfew
    · intro a ha
      obtain ⟨score, hin, -⟩ := mem_rangeByScore.mp ha
      rw [redis_afterSync_of_notMem hmem]
      exact mem_of_mem_entries hin
  · refine redis_afterSync_of_notMem fun hmem => ?_
    exact absurd (mem_unowned.mp (hl.subset hmem)).2.2 (not_lt.mpr hfull)
  · refine Finset.mem_union.trans (or_iff_left fun hmem => ?_)
    rcases List.mem_append.mp (List.mem_toFinset.mp (ht hmem)) with howned | hunowned
    · exact hout (mem_owned.mp howned).2
    · exact absurd (mem_unowned.mp hunowned).2.2 (not_lt.mpr hfull)

/-- A live owner at the limit is dropped. -/
theorem noneAtLimit_of_kept (hnodup : checksums.Nodup)
    (h : OwnersKept addr ttl s (afterSync addr ttl s (unowned addr ttl s checksums) t)) :
    s.NoneAtLimit addr ttl checksums := fun hle cs hcs hout hfew => by
  refine (kept_iff hout hfew).mp (fun a ha => ?_) hle
  rw [← redis_afterSync_of_mem (nodup_unowned hnodup) (mem_unowned.mpr ⟨hcs, hout, hfew⟩)]
  exact h.kept cs a ha

theorem length_live_afterSync (hnodup : checksums.Nodup) :
    (checksums.filter fun cs =>
        addr ∈ (afterSync addr ttl s (unowned addr ttl s checksums) t).live ttl cs).length =
      (owned addr ttl s checksums).length + (unowned addr ttl s checksums).length := by
  rw [List.length_eq_length_filter_add fun cs => decide (addr ∈ s.live ttl cs), List.filter_filter,
    List.filter_filter]
  congr 2
  · refine List.filter_congr fun cs hcs => ?_
    by_cases h : addr ∈ s.live ttl cs <;> simp [h, mem_live_afterSync hnodup hcs]
  · refine List.filter_congr fun cs hcs => ?_
    by_cases h : addr ∈ s.live ttl cs <;> simp [h, mem_live_afterSync hnodup hcs]

theorem tracked_afterSync (hnodup : checksums.Nodup) (hcs : cs ∈ checksums)
    (h : addr ∈ (afterSync addr ttl s (unowned addr ttl s checksums) t).live ttl cs)
    (ht : t = (owned addr ttl s checksums ++ unowned addr ttl s checksums).toFinset) :
    cs ∈ (afterSync addr ttl s (unowned addr ttl s checksums) t).tracker := by
  subst ht
  refine Finset.mem_union_right _ (List.mem_toFinset.mpr (List.mem_append.mpr ?_))
  exact ((mem_live_afterSync hnodup hcs).mp h).imp (fun hin => mem_owned.mpr ⟨hcs, hin⟩)
    fun hout => mem_unowned.mpr ⟨hcs, hout⟩

end After

theorem ownersKept_syncChunks (hnodup : checksums.Nodup)
    (hnone : s.NoneAtLimit addr ttl checksums) :
    OwnersKept addr ttl s (syncChunks addr ttl lookupFaults registerFaults checksums s).2 := by
  obtain ⟨l, t, hl, ht, hstate, -⟩ := @syncChunks_cases α _ addr ttl s lookupFaults
    registerFaults checksums hnodup
  rw [hstate]
  exact ownersKept_afterSync hnodup hl ht hnone

theorem synced_syncChunks_iff (hnodup : checksums.Nodup)
    (hcount : (syncChunks addr ttl lookupFaults registerFaults checksums s).1 = .ok count) :
    Synced addr ttl s (syncChunks addr ttl lookupFaults registerFaults checksums s).2
      checksums count ↔ s.NoneAtLimit addr ttl checksums := by
  obtain ⟨l, t, hl, ht, hstate, hok⟩ := @syncChunks_cases α _ addr ttl s lookupFaults
    registerFaults checksums hnodup
  obtain ⟨rfl, ht', rfl⟩ := hok count hcount
  rw [hstate]
  refine ⟨fun h => noneAtLimit_of_kept hnodup h.toOwnersKept, fun hnone => ?_⟩
  exact {
    toOwnersKept := ownersKept_afterSync hnodup hl ht hnone
    tracked := fun cs hcs h => tracked_afterSync hnodup hcs h ht'
    count_eq := (length_live_afterSync hnodup).symm }

/-- After a repair the checksums of which Redis lists the node are in the tracker. -/
theorem tracked_repairMissingChunks (hnodup : checksums.Nodup)
    (hcount : (repairMissingChunks addr ttl lookupFaults registerFaults checksums s).1 = .ok count)
    (hcs : cs ∈ checksums)
    (h : addr ∈ (repairMissingChunks addr ttl lookupFaults registerFaults checksums s).2.live ttl
      cs) :
    cs ∈ (repairMissingChunks addr ttl lookupFaults registerFaults checksums s).2.tracker := by
  have hcandidates : (checksums.filter fun cs => cs ∉ s.tracker).Nodup := hnodup.filter _
  obtain ⟨l, t, -, -, hstate, hok⟩ := @syncChunks_cases α _ addr ttl s lookupFaults
    registerFaults _ hcandidates
  obtain ⟨rfl, ht, -⟩ := hok count hcount
  rw [repairMissingChunks, hstate] at h ⊢
  by_cases htracked : cs ∈ s.tracker
  · exact Finset.mem_union_left t htracked
  · exact tracked_afterSync hcandidates (List.mem_filter.mpr ⟨hcs, by simp [htracked]⟩) h ht

/-- **Live owners are kept.** A call that returns a count does what it is to do exactly if no
checksum that it registers has an owner at the limit, and under this condition a call that fails
keeps the live owners, too. -/
theorem sync_exact_iff (hnodup : checksums.Nodup) :
    (s.NoneAtLimit addr ttl checksums →
        OwnersKept addr ttl s (syncChunks addr ttl lookupFaults registerFaults checksums s).2) ∧
      ∀ count, (syncChunks addr ttl lookupFaults registerFaults checksums s).1 = .ok count →
        (Synced addr ttl s (syncChunks addr ttl lookupFaults registerFaults checksums s).2
            checksums count ↔ s.NoneAtLimit addr ttl checksums) :=
  ⟨ownersKept_syncChunks hnodup, fun _ => synced_syncChunks_iff hnodup⟩

end Calls

/-! ### A node with the address 7 -/

/-- A chunk with the node 9 as its owner since time 40. -/
def ownedByNine : IndexNode ℕ :=
  ⟨fun _ => (∅ : SortedSet ℕ).add 9 40, ∅, ∅, 100, fun _ => false⟩

theorem sync_exact_iff_ownedByNine :
    Synced 7 61 ownedByNine
      (syncChunks 7 61 (fun _ => none) (fun _ => none) [⟨.replicate 32 1, .sha256⟩]
        ownedByNine).2 [⟨.replicate 32 1, .sha256⟩] 1 := by
  obtain ⟨-, hexact⟩ := @sync_exact_iff ℕ _ 7 61 ownedByNine (fun _ => none) (fun _ => none)
    [⟨.replicate 32 1, .sha256⟩] (List.nodup_singleton _)
  refine (hexact 1 (by decide)).mpr fun _ cs _ _ _ a ha => ?_
  rcases mem_entries_add.mp ha with heq | ⟨hin, -⟩
  · exact absurd (Prod.mk.inj heq).2 (by decide)
  · exact absurd hin (Finset.notMem_empty _)

/-- The owner has stood for just the time to live. The lookup answers it, and the script of the
registration that follows drops it. -/
theorem live_owner_dropped :
    9 ∈ ownedByNine.live 60 ⟨.replicate 32 1, .sha256⟩ ∧
      (syncChunks 7 60 (fun _ => none) (fun _ => none) [⟨.replicate 32 1, .sha256⟩]
        ownedByNine).1 = .ok 1 ∧
      9 ∉ (syncChunks 7 60 (fun _ => none) (fun _ => none) [⟨.replicate 32 1, .sha256⟩]
        ownedByNine).2.redis ⟨.replicate 32 1, .sha256⟩ := by
  refine ⟨by decide, by decide, by decide⟩

end RedisChunkIndex

end DistillFs
