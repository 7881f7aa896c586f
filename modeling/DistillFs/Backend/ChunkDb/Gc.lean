import DistillFs.Backend.Basic
import DistillFs.Backend.ChunkDb.AddChunks

/-!
# A pass of garbage collection

A pass first deletes the chunks that were not used since its cutoff, in requests of 128 keys. Then,
while the usage of the database is above the high watermark, it deletes the 128 least recently used
chunks, until the usage is at most the low watermark or there is nothing to delete. After each of
these batches it starts again with the comparison against the high watermark, so it stops as soon as
the usage is not above that, wherever it is between the two.

The checksums of what was deleted are then unregistered, so that no peer asks for these chunks any
more. Those of the first part are unregistered together when all requests have succeeded. A request
that fails ends the pass, and what the requests before it have deleted stays registered.

The functions here are the pass of one worker, with nobody else at the database. Which calls of the
database fail is part of the input.

## Main definitions

* `GcWorker`, `GcPass`, `GcWorker.gcExpired`, `GcWorker.gcLru`, `GcWorker.gcLoop`, `GcWorker.run`.

## Main results

* `GcWorker.gcLoop_ok`, `GcWorker.gc_hysteresis_iff`: where a pass stops.
* `GcWorker.gc_unregisters_iff`: what a pass unregisters.
-/

namespace DistillFs

open Foundation

/-- A worker for garbage collection. -/
structure GcWorker where
  /-- The seconds after which a chunk expires. -/
  expireAfter : ℕ
  highWatermark : ℚ
  lowWatermark : ℚ
  /-- Whether there is a client that unregisters chunks. -/
  localChunkClient : Bool
  low_nonneg : 0 ≤ lowWatermark
  low_le_high : lowWatermark ≤ highWatermark
  high_le_one : highWatermark ≤ 1

/-- A pass between two calls. -/
@[ext] structure GcPass where
  store : Store
  /-- The number of calls of the database that the pass has made. -/
  calls : ℕ
  /-- The checksums that the pass has unregistered. -/
  unregistered : List CheckSum

namespace GcPass

/-- Make a call of the database. -/
def tick (g : GcPass) : GcPass := { g with calls := g.calls + 1 }

/-- A pass at its start. -/
def start (s : Store) : GcPass := ⟨s, 0, []⟩

@[simp] theorem store_tick (g : GcPass) : g.tick.store = g.store := rfl

@[simp] theorem calls_tick (g : GcPass) : g.tick.calls = g.calls + 1 := rfl

@[simp] theorem unregistered_tick (g : GcPass) : g.tick.unregistered = g.unregistered := rfl

end GcPass

namespace GcWorker

variable (w : GcWorker) (faults : ℕ → Option IoError) (usage : Store → ℚ)

/-- `unregister_chunks`. -/
def unregisterChunks (g : GcPass) (checksums : List CheckSum) : GcPass :=
  if w.localChunkClient then { g with unregistered := g.unregistered ++ checksums } else g

/-- `delete_keys`: a request to the writer. -/
def deleteKeys (g : GcPass) (keys : List AccessKey) : Except IoError (List CheckSum) × GcPass :=
  if keys = [] then (.ok [], g)
  else
    match faults g.calls with
    | some e => (.error e, g.tick)
    | none =>
      (.ok (keys.map fun key => key.cs.checkSum), { g.tick with store := g.store.deleteKeys keys })

/-- The loop of `gc_expired` over its batches. -/
def deleteBatches (g : GcPass) (done : List CheckSum) :
    List (List AccessKey) → Except IoError (List CheckSum) × GcPass
  | [] => (.ok done, g)
  | keys :: rest =>
    match deleteKeys faults g keys with
    | (.error e, g') => (.error e, g')
    | (.ok checksums, g') => deleteBatches g' (done ++ checksums) rest

/-- `gc_expired`. -/
def gcExpired (g : GcPass) (cutoff : ℕ) : Except IoError (List CheckSum) × GcPass :=
  match faults g.calls with
  | some e => (.error e, g.tick)
  | none => deleteBatches faults g.tick [] (batches gcBatch (g.store.scanExpired cutoff))

/-- `gc_lru`. -/
def gcLru (g : GcPass) (maxDelete : ℕ) : Except IoError (List CheckSum) × GcPass :=
  match faults g.calls with
  | some e => (.error e, g.tick)
  | none => deleteKeys faults g.tick (g.store.scanLru maxDelete)

/-- One turn of the loop of `run`, and whether the loop goes on. -/
def gcRound (g : GcPass) : Except IoError Bool × GcPass :=
  match faults g.calls with
  | some e => (.error e, g.tick)
  | none =>
    if usage g.store ≤ w.highWatermark then (.ok false, g.tick)
    else
      match gcLru faults g.tick gcBatch with
      | (.error e, g') => (.error e, g')
      | (.ok checksums, g') =>
        let g'' := w.unregisterChunks g' checksums
        if checksums = [] then (.ok false, g'')
        else
          match faults g''.calls with
          | some e => (.error e, g''.tick)
          | none => (.ok (!decide (usage g''.store ≤ w.lowWatermark)), g''.tick)

variable {w faults usage} {g g' : GcPass}

@[simp] theorem store_unregisterChunks (checksums : List CheckSum) :
    (w.unregisterChunks g checksums).store = g.store := by
  unfold unregisterChunks
  split_ifs <;> rfl

/-- A request of no keys is not sent; any other one fails, or deletes its keys. -/
theorem deleteKeys_cases {keys : List AccessKey} {r : Except IoError (List CheckSum)}
    (h : deleteKeys faults g keys = (r, g')) :
    g'.unregistered = g.unregistered ∧
    ((∃ e, keys ≠ [] ∧ faults g.calls = some e ∧ r = .error e ∧ g'.store = g.store) ∨
      (r = .ok (keys.map fun key => key.cs.checkSum) ∧ g'.store = g.store.deleteKeys keys ∧
        (keys ≠ [] → faults g.calls = none ∧ g'.calls = g.calls + 1))) := by
  unfold deleteKeys at h
  split_ifs at h with hkeys
  · obtain ⟨rfl, rfl⟩ := Prod.mk.inj h
    subst hkeys
    exact ⟨rfl, Or.inr ⟨rfl, rfl, fun hne => absurd rfl hne⟩⟩
  · split at h
    · next e hfault =>
      obtain ⟨rfl, rfl⟩ := Prod.mk.inj h
      exact ⟨rfl, Or.inl ⟨e, hkeys, hfault, rfl, rfl⟩⟩
    · next hnone =>
      obtain ⟨rfl, rfl⟩ := Prod.mk.inj h
      exact ⟨rfl, Or.inr ⟨rfl, rfl, fun _ => ⟨hnone, rfl⟩⟩⟩

theorem gcLru_cases {n : ℕ} {r : Except IoError (List CheckSum)}
    (h : gcLru faults g n = (r, g')) :
    g'.unregistered = g.unregistered ∧
    ((∃ e, r = .error e ∧ g'.store = g.store) ∨
      (r = .ok ((g.store.scanLru n).map fun key => key.cs.checkSum) ∧
        g'.store = g.store.gcLruDirect n)) := by
  unfold gcLru at h
  split at h
  · next e _ =>
    obtain ⟨rfl, rfl⟩ := Prod.mk.inj h
    exact ⟨rfl, Or.inl ⟨e, rfl, rfl⟩⟩
  · obtain ⟨hsame, ⟨e, -, -, hr, hstore⟩ | ⟨hr, hstore, -⟩⟩ := deleteKeys_cases h
    · exact ⟨hsame, Or.inl ⟨e, hr, hstore⟩⟩
    · exact ⟨hsame, Or.inr ⟨hr, hstore⟩⟩

/-- What a turn of the loop does: nothing but calls, or the deletion of a batch. -/
theorem gcRound_cases {r : Except IoError Bool} (h : gcRound w faults usage g = (r, g')) :
    (g'.store = g.store ∧ (w.localChunkClient = true → g'.unregistered = g.unregistered) ∧
      r ≠ .ok true ∧
      (r = .ok false → usage g.store ≤ w.highWatermark ∨ g.store.index = ∅)) ∨
    (g'.store = g.store.gcLruDirect gcBatch ∧ (w.localChunkClient = true →
        g'.unregistered = g.unregistered ++
          (g.store.scanLru gcBatch).map fun key => key.cs.checkSum) ∧
      g.store.scanLru gcBatch ≠ [] ∧ w.highWatermark < usage g.store ∧
      (r = .ok false → usage g'.store ≤ w.lowWatermark)) := by
  unfold gcRound at h
  split at h
  · obtain ⟨rfl, rfl⟩ := Prod.mk.inj h
    exact Or.inl ⟨rfl, fun _ => rfl, by simp, by simp⟩
  · split_ifs at h with hhigh
    · obtain ⟨rfl, rfl⟩ := Prod.mk.inj h
      exact Or.inl ⟨rfl, fun _ => rfl, by simp, fun _ => Or.inl hhigh⟩
    · rcases hlru : gcLru faults g.tick gcBatch with ⟨r', g₁⟩
      rw [hlru] at h
      obtain ⟨hsame, ⟨e, rfl, hstore⟩ | ⟨rfl, hstore⟩⟩ := gcLru_cases hlru
      · obtain ⟨rfl, rfl⟩ := Prod.mk.inj h
        exact Or.inl ⟨hstore, fun _ => hsame, by simp, by simp⟩
      · rw [GcPass.store_tick] at h hstore
        rw [GcPass.unregistered_tick] at hsame
        have hunreg : ∀ checksums, w.localChunkClient = true →
            (w.unregisterChunks g₁ checksums).unregistered = g.unregistered ++ checksums :=
          fun checksums hclient => by rw [unregisterChunks, if_pos hclient, hsame]
        dsimp only at h
        split_ifs at h with hnil
        · obtain ⟨rfl, rfl⟩ := Prod.mk.inj h
          rw [List.map_eq_nil_iff] at hnil
          refine Or.inl ⟨?_, fun hclient => ?_, by simp, fun _ =>
            Or.inr (Store.scanLru_eq_nil_iff.mp hnil)⟩
          · rw [store_unregisterChunks, hstore, Store.gcLruDirect, hnil]
            rfl
          · rw [hunreg _ hclient, hnil, List.map_nil, List.append_nil]
        · rw [List.map_eq_nil_iff] at hnil
          refine Or.inr ?_
          split at h
          · obtain ⟨rfl, rfl⟩ := Prod.mk.inj h
            refine ⟨?_, hunreg _, hnil, not_le.mp hhigh, by simp⟩
            rw [GcPass.store_tick, store_unregisterChunks, hstore]
          · obtain ⟨rfl, rfl⟩ := Prod.mk.inj h
            refine ⟨?_, hunreg _, hnil, not_le.mp hhigh, fun hlow => ?_⟩
            · rw [GcPass.store_tick, store_unregisterChunks, hstore]
            · rw [GcPass.store_tick]
              simpa using hlow

variable (w faults usage) in
/-- The loop of `run`. -/
def gcLoop (g : GcPass) : Except IoError Unit × GcPass :=
  match _h : gcRound w faults usage g with
  | (.error e, g') => (.error e, g')
  | (.ok false, g') => (.ok (), g')
  | (.ok true, g') => gcLoop g'
  termination_by g.store.index.card
  decreasing_by
    rcases gcRound_cases _h with ⟨-, -, htrue, -⟩ | ⟨hstore, -, hne, -⟩
    · exact absurd rfl htrue
    · rw [hstore]
      exact Store.card_index_gcLruDirect_lt hne

variable (w faults usage) in
/-- `run`, where `now` is the time of the call. -/
def run (now : ℕ) (s : Store) : Except IoError Unit × GcPass :=
  match gcExpired faults (.start s) (now - w.expireAfter) with
  | (.error e, g') => (.error e, g')
  | (.ok checksums, g') => gcLoop w faults usage (w.unregisterChunks g' checksums)

/-- A pass ends with the error of the expired keys. -/
theorem run_of_error {now : ℕ} {s : Store} {e : IoError}
    (h : gcExpired faults (.start s) (now - w.expireAfter) = (.error e, g')) :
    run w faults usage now s = (.error e, g') := by
  rw [run, h]

/-! ### Where a pass stops -/

/-- The loop stops after the first eviction that leaves the usage at or below the high watermark, or
when there is nothing left. -/
theorem gcLoop_ok (h : gcLoop w faults usage g = (.ok (), g')) :
    ∃ n, g'.store = g.store.evict n ∧ (∀ m < n, w.highWatermark < usage (g.store.evict m)) ∧
      (usage g'.store ≤ w.highWatermark ∨ g'.store.index = ∅) := by
  fun_induction gcLoop w faults usage g with
  | case1 g e g₁ hround => cases h
  | case2 g g₁ hround =>
    obtain rfl := (Prod.mk.inj h).2
    rcases gcRound_cases hround with ⟨hstore, -, -, hstop⟩ | ⟨hstore, -, -, hhigh, hlow⟩
    · exact ⟨0, hstore, by simp, hstore ▸ hstop rfl⟩
    · refine ⟨1, hstore, fun m hm => ?_, Or.inl ((hlow rfl).trans w.low_le_high)⟩
      obtain rfl : m = 0 := by omega
      exact hhigh
  | case3 g g₁ hround ih =>
    rcases gcRound_cases hround with ⟨-, -, htrue, -⟩ | ⟨hstore, -, -, hhigh, -⟩
    · exact absurd rfl htrue
    · obtain ⟨n, hn, habove, hstop⟩ := ih h
      rw [hstore] at hn habove
      refine ⟨n + 1, hn, fun m hm => ?_, hstop⟩
      cases m with
      | zero => exact hhigh
      | succ m => exact habove m (by omega)

/-- What the loop of `gc_expired` does when all its requests succeed. -/
theorem deleteBatches_ok {bs : List (List AccessKey)} (hbs : ∀ keys ∈ bs, keys ≠ [])
    {done checksums : List CheckSum} (h : deleteBatches faults g done bs = (.ok checksums, g')) :
    g'.store = g.store.deleteKeys bs.flatten ∧ g'.unregistered = g.unregistered ∧
      checksums = done ++ bs.flatten.map (fun key => key.cs.checkSum) ∧
      ∀ i < bs.length, faults (g.calls + i) = none := by
  induction bs generalizing g done with
  | nil =>
    obtain ⟨hdone, rfl⟩ := Prod.mk.inj h
    exact ⟨rfl, rfl, by simpa using (Except.ok.inj hdone).symm, by simp⟩
  | cons keys rest ih =>
    obtain ⟨hkeys, hrest⟩ := List.forall_mem_cons.mp hbs
    rw [deleteBatches] at h
    rcases hdel : deleteKeys faults g keys with ⟨r, g₁⟩
    rw [hdel] at h
    obtain ⟨hsame, ⟨e, -, -, rfl, -⟩ | ⟨rfl, hstore, hcalls⟩⟩ := deleteKeys_cases hdel
    · cases h
    · obtain ⟨hnone, hcalls⟩ := hcalls hkeys
      obtain ⟨hstore', hsame', hsums, hall⟩ := ih hrest h
      refine ⟨?_, hsame'.trans hsame, ?_, fun i hi => ?_⟩
      · rw [hstore', hstore, List.flatten_cons]
        exact (List.foldl_append ..).symm
      · rw [hsums, List.flatten_cons, List.map_append, List.append_assoc]
      · cases i with
        | zero => exact hnone
        | succ i =>
          have hi' := hall i (by simpa using hi)
          rwa [hcalls, Nat.add_right_comm] at hi'

/-- What it does when a request fails. -/
theorem deleteBatches_error {bs : List (List AccessKey)} (hbs : ∀ keys ∈ bs, keys ≠ [])
    {done : List CheckSum} {e : IoError} (h : deleteBatches faults g done bs = (.error e, g')) :
    g'.unregistered = g.unregistered ∧ ∃ i < bs.length, (∀ j < i, faults (g.calls + j) = none) ∧
      faults (g.calls + i) ≠ none ∧ g'.store = g.store.deleteKeys (bs.take i).flatten := by
  induction bs generalizing g done with
  | nil => cases h
  | cons keys rest ih =>
    obtain ⟨hkeys, hrest⟩ := List.forall_mem_cons.mp hbs
    rw [deleteBatches] at h
    rcases hdel : deleteKeys faults g keys with ⟨r, g₁⟩
    rw [hdel] at h
    obtain ⟨hsame, ⟨e', -, hfault, rfl, hstore⟩ | ⟨rfl, hstore, hcalls⟩⟩ := deleteKeys_cases hdel
    · obtain ⟨-, rfl⟩ := Prod.mk.inj h
      exact ⟨hsame, 0, Nat.zero_lt_succ _, by simp, by simp [hfault], hstore⟩
    · obtain ⟨hnone, hcalls⟩ := hcalls hkeys
      obtain ⟨hsame', i, hi, hbefore, hfault, hstore'⟩ := ih hrest h
      refine ⟨hsame'.trans hsame, i + 1, Nat.succ_lt_succ hi, fun j hj => ?_, ?_, ?_⟩
      · cases j with
        | zero => exact hnone
        | succ j =>
          have hj' := hbefore j (by omega)
          rwa [hcalls, Nat.add_right_comm] at hj'
      · rwa [hcalls, Nat.add_right_comm] at hfault
      · rw [hstore', hstore, List.take_succ_cons, List.flatten_cons]
        exact (List.foldl_append ..).symm

theorem ne_nil_of_mem_batches {α : Type*} {n : ℕ} (hn : 0 < n) {l b : List α}
    (hb : b ∈ batches n l) : b ≠ [] := by
  obtain ⟨i, hi, rfl⟩ := List.mem_map.mp hb
  rw [List.mem_range] at hi
  have hlt : i * n < l.length := by
    have hle := (Nat.le_div_iff_mul_le hn).mp (Nat.succ_le_of_lt hi)
    rw [Nat.succ_mul] at hle
    omega
  rw [← List.length_pos_iff, List.length_take, List.length_drop]
  omega

/-- The requests of `gc_expired`. -/
def expiredBatches (s : Store) (cutoff : ℕ) : List (List AccessKey) :=
  batches gcBatch (s.scanExpired cutoff)

theorem gcExpired_ok {cutoff : ℕ} {checksums : List CheckSum}
    (h : gcExpired faults g cutoff = (.ok checksums, g')) :
    g'.store = g.store.deleteKeys (g.store.scanExpired cutoff) ∧
      g'.unregistered = g.unregistered ∧
      checksums = (g.store.scanExpired cutoff).map (fun key => key.cs.checkSum) ∧
      ∀ i < (expiredBatches g.store cutoff).length, faults (g.calls + 1 + i) = none := by
  unfold gcExpired at h
  split at h
  · cases h
  · obtain ⟨hstore, hsame, hsums, hall⟩ :=
      deleteBatches_ok (fun _ => ne_nil_of_mem_batches (by decide)) h
    rw [flatten_batches (by decide)] at hstore hsums
    exact ⟨hstore, hsame, hsums, hall⟩

theorem gcExpired_error {cutoff : ℕ} {e : IoError}
    (h : gcExpired faults g cutoff = (.error e, g')) :
    g'.unregistered = g.unregistered ∧ ((faults g.calls ≠ none ∧ g'.store = g.store) ∨
      faults g.calls = none ∧ ∃ i < (expiredBatches g.store cutoff).length,
        (∀ j < i, faults (g.calls + 1 + j) = none) ∧ faults (g.calls + 1 + i) ≠ none ∧
        g'.store = g.store.deleteKeys ((expiredBatches g.store cutoff).take i).flatten) := by
  unfold gcExpired at h
  split at h
  · next e' hfault =>
    obtain ⟨-, rfl⟩ := Prod.mk.inj h
    exact ⟨rfl, Or.inl ⟨by simp [hfault], rfl⟩⟩
  · next hnone =>
    obtain ⟨hsame, hfailed⟩ :=
      deleteBatches_error (fun _ => ne_nil_of_mem_batches (by decide)) h
    exact ⟨hsame, Or.inr ⟨hnone, hfailed⟩⟩

end GcWorker

namespace Store

variable {s : Store}

theorem evict_add (n m : ℕ) : s.evict (n + m) = (s.evict n).evict m := by
  rw [evict, Nat.add_comm, Function.iterate_add_apply]
  rfl

theorem card_evict (n : ℕ) : (s.evict n).index.card = s.index.card - gcBatch * n := by
  rw [← Finset.length_sort (· ≤ ·), sort_evict, List.length_drop, Finset.length_sort]

theorem index_evict_eq_empty_iff (n : ℕ) :
    (s.evict n).index = ∅ ↔ s.index.card ≤ gcBatch * n := by
  rw [← Finset.card_eq_zero, card_evict, Nat.sub_eq_zero_iff_le]

/-- Evictions do not increase the usage if no deletion does. -/
theorem usage_evict_le {usage : Store → ℚ} (h : ∀ s keys, usage (s.deleteKeys keys) ≤ usage s)
    (s : Store) (n : ℕ) : usage (s.evict n) ≤ usage s := by
  induction n generalizing s with
  | zero => exact le_rfl
  | succ n ih => exact (ih (s.gcLruDirect gcBatch)).trans (h s _)

end Store

namespace GcWorker

variable {w : GcWorker} {faults : ℕ → Option IoError} {usage : Store → ℚ} {g g' : GcPass}

/-- What is left when the expired chunks are deleted. -/
def unexpired (w : GcWorker) (now : ℕ) (s : Store) : Store :=
  s.deleteKeys (s.scanExpired (now - w.expireAfter))

/-- Where a pass that succeeds stops. -/
theorem run_stop {s : Store} {now : ℕ} (h : run w faults usage now s = (.ok (), g)) :
    ∃ n, g.store = (w.unexpired now s).evict n ∧
      (∀ m < n, w.highWatermark < usage ((w.unexpired now s).evict m)) ∧
      (usage g.store ≤ w.highWatermark ∨ g.store.index = ∅) := by
  unfold run at h
  rcases hexp : gcExpired faults (.start s) (now - w.expireAfter) with ⟨_ | checksums, g₁⟩
  · rw [hexp] at h
    cases h
  · rw [hexp] at h
    have hstart : (w.unregisterChunks g₁ checksums).store = w.unexpired now s :=
      (store_unregisterChunks _).trans (gcExpired_ok hexp).1
    have hstop := gcLoop_ok h
    rwa [hstart] at hstop

/-- The checksums of all chunks that lost their data since `s` are unregistered. -/
def Retracted (s : Store) (g : GcPass) : Prop :=
  ∀ cs, (s.data cs).isSome → g.store.data cs = none → cs.checkSum ∈ g.unregistered

theorem Retracted.deleteKeys {s : Store} (hg : Retracted s g) {keys : List AccessKey}
    (hstore : g'.store = g.store.deleteKeys keys)
    (hsums : g'.unregistered = g.unregistered ++ keys.map fun key => key.cs.checkSum) :
    Retracted s g' := by
  intro cs hdata hgone
  rw [hsums, List.mem_append, List.mem_map]
  rw [hstore, Store.data_deleteKeys] at hgone
  split_ifs at hgone with hkey
  · obtain ⟨key, hkey, rfl⟩ := hkey
    exact Or.inr ⟨key, hkey, rfl⟩
  · exact Or.inl (hg cs hdata hgone)

/-- The loop unregisters what it deletes. -/
theorem gcLoop_retracted (hclient : w.localChunkClient = true) {s : Store} (hg : Retracted s g) :
    Retracted s (gcLoop w faults usage g).2 := by
  have hround : ∀ g r g₁, Retracted s g → gcRound w faults usage g = (r, g₁) → Retracted s g₁ := by
    intro g r g₁ hg hround
    rcases gcRound_cases hround with ⟨hstore, hsame, -, -⟩ | ⟨hstore, hsums, -⟩
    · intro cs hdata hgone
      rw [hsame hclient]
      exact hg cs hdata (hstore ▸ hgone)
    · exact hg.deleteKeys hstore (hsums hclient)
  fun_induction gcLoop w faults usage g with
  | case1 g e g₁ h => exact hround g _ g₁ hg h
  | case2 g g₁ h => exact hround g _ g₁ hg h
  | case3 g g₁ h ih => exact ih (hround g _ g₁ hg h)

/-- **What a pass deletes, it unregisters**, whether it succeeds or fails, exactly if no request of
its first part fails after an earlier one has deleted data. -/
theorem gc_unregisters_iff (hclient : w.localChunkClient = true) (now : ℕ) (s : Store) :
    Retracted s (run w faults usage now s).2 ↔
      (faults 0 = none → ∀ i < (expiredBatches s (now - w.expireAfter)).length,
        (∀ j < i, faults (1 + j) = none) → faults (1 + i) ≠ none →
          ∀ key ∈ ((expiredBatches s (now - w.expireAfter)).take i).flatten,
            s.data key.cs = none) := by
  have hstart : (GcPass.start s).calls = 0 := rfl
  have hnew : Retracted s (.start s) := fun cs hdata hgone => by
    rw [show (GcPass.start s).store = s from rfl] at hgone
    simp [hgone] at hdata
  unfold run
  rcases hexp : gcExpired faults (.start s) (now - w.expireAfter) with ⟨_ | checksums, g₁⟩
  · obtain ⟨hsame, ⟨hfault, hstore⟩ | ⟨hnone, i, hi, hbefore, hfault, hstore⟩⟩ :=
      gcExpired_error hexp
    · refine iff_of_true (fun cs hdata hgone => ?_) fun hnone => absurd hnone hfault
      rw [hsame]
      exact hnew cs hdata (hstore ▸ hgone)
    · constructor
      · intro hret _ i' hi' hbefore' hfault' key hkey
        -- both are the first request that fails
        obtain rfl : i = i' := by
          rcases Nat.lt_trichotomy i i' with hlt | heq | hlt
          · exact absurd (hbefore' i hlt) hfault
          · exact heq
          · exact absurd (hbefore i' hlt) hfault'
        by_contra hdata
        refine absurd (hret key.cs (Option.isSome_iff_ne_none.mpr hdata) ?_) ?_
        · rw [hstore, Store.data_deleteKeys, if_pos ⟨key, hkey, rfl⟩]
        · rw [hsame]
          exact List.not_mem_nil
      · intro hempty cs hdata hgone
        rw [hstore, Store.data_deleteKeys] at hgone
        split_ifs at hgone with hkey
        · obtain ⟨key, hkey, rfl⟩ := hkey
          rw [hempty hnone i hi hbefore hfault key hkey] at hdata
          cases hdata
        · rw [show (GcPass.start s).store = s from rfl] at hgone
          simp [hgone] at hdata
  · obtain ⟨hstore, hsame, rfl, hall⟩ := gcExpired_ok hexp
    refine iff_of_true (gcLoop_retracted hclient (hnew.deleteKeys
      ((store_unregisterChunks _).trans hstore) ?_)) fun _ i hi _ hfault =>
        absurd (hall i hi) hfault
    rw [unregisterChunks, if_pos hclient, hsame]

/-! ### Passes in which no call fails -/

theorem gcRound_ok (w : GcWorker) (usage : Store → ℚ) (g : GcPass) :
    ∃ b g', gcRound w (fun _ => none) usage g = (.ok b, g') := by
  have hlru : ∃ checksums g', gcLru (fun _ => none) g.tick gcBatch = (.ok checksums, g') := by
    unfold gcLru deleteKeys
    dsimp only
    split_ifs
    · exact ⟨_, _, rfl⟩
    · exact ⟨_, _, rfl⟩
  obtain ⟨checksums, g', hlru⟩ := hlru
  unfold gcRound
  simp only [hlru]
  split_ifs
  · exact ⟨_, _, rfl⟩
  · exact ⟨_, _, rfl⟩
  · exact ⟨_, _, rfl⟩

/-- A pass succeeds if no call fails. -/
theorem run_ok (w : GcWorker) (usage : Store → ℚ) (now : ℕ) (s : Store) :
    ∃ g, run w (fun _ => none) usage now s = (.ok (), g) := by
  have hloop : ∀ g, (gcLoop w (fun _ => none) usage g).1 = .ok () := fun g => by
    fun_induction gcLoop w (fun _ => none) usage g with
    | case1 g e g₁ h =>
      obtain ⟨b, g', hok⟩ := gcRound_ok w usage g
      rw [hok] at h
      cases h
    | case2 => rfl
    | case3 g g₁ h ih => exact ih
  unfold run
  rcases hexp : gcExpired (fun _ => none) (.start s) (now - w.expireAfter) with ⟨_ | checksums, g₁⟩
  · obtain ⟨-, ⟨hfault, -⟩ | ⟨-, i, -, -, hfault, -⟩⟩ := gcExpired_error hexp
    · exact absurd rfl hfault
    · exact absurd rfl hfault
  · exact ⟨_, Prod.ext (hloop _) rfl⟩

/-! ### A database of some chunks -/

/-- The worker of the command, with the documented watermarks. -/
def defaultWorker : GcWorker where
  expireAfter := 24 * 60 * 60
  highWatermark := 9 / 10
  lowWatermark := 8 / 10
  localChunkClient := true
  low_nonneg := by norm_num
  low_le_high := by norm_num
  high_le_one := by norm_num

/-- The index key of the chunk number `i`, last used at time `i`. -/
def chunkNumber (i : ℕ) : AccessKey :=
  ⟨i, .ofCheckSum ⟨Vector.replicate 32 (UInt8.ofNat i), .blake3⟩⟩

/-- The first `n` chunks. -/
def someChunks (n : ℕ) : Store where
  data cs := if ∃ i < n, (chunkNumber i).cs = cs then some [7] else none
  access cs := (List.range n).find? fun i => (chunkNumber i).cs = cs
  index := (Finset.range n).image chunkNumber

theorem card_someChunks (n : ℕ) : (someChunks n).index.card = n := by
  have hinj : Function.Injective chunkNumber := fun i j h => congrArg AccessKey.lastAccess h
  rw [someChunks, Finset.card_image_of_injective _ hinj, Finset.card_range]

theorem unexpired_someChunks (n : ℕ) : defaultWorker.unexpired 0 (someChunks n) = someChunks n := by
  have hnone : (someChunks n).scanExpired (0 - defaultWorker.expireAfter) = [] := by
    refine List.eq_nil_iff_forall_not_mem.mpr fun key hkey => ?_
    have hlt := (Store.mem_scanExpired.mp hkey).2
    omega
  rw [unexpired, hnone]
  rfl

theorem mem_someChunks {n : ℕ} {key : AccessKey} :
    key ∈ (someChunks n).index ↔ ∃ i < n, chunkNumber i = key := by
  simp [someChunks]

theorem isSome_data_someChunks {n i : ℕ} (h : i < n) :
    ((someChunks n).data (chunkNumber i).cs).isSome := by
  have hdata : (someChunks n).data (chunkNumber i).cs = some [7] := if_pos ⟨i, h, rfl⟩
  rw [hdata]
  rfl

/-- Long after their last access all chunks are expired. -/
theorem length_scanExpired_someChunks {n cutoff : ℕ} (h : n ≤ cutoff) :
    ((someChunks n).scanExpired cutoff).length = n := by
  have hall : (someChunks n).scanExpired cutoff = (someChunks n).index.sort := by
    refine List.takeWhile_eq_self_iff.mpr fun key hkey => ?_
    obtain ⟨i, hi, rfl⟩ := mem_someChunks.mp ((Finset.mem_sort _).mp hkey)
    rw [Bool.not_eq_true', decide_eq_false_iff_not, not_le]
    exact hi.trans_le h
  rw [hall, Finset.length_sort, card_someChunks]

/-- A database of which all but one chunk take up little space. -/
def mostlyOne (s : Store) : ℚ := if 1 < s.index.card then 95 / 100 else 85 / 100

/-- A pass that fails at its first request has deleted nothing. -/
theorem gc_unregisters_iff_first :
    Retracted (someChunks 129)
      (run defaultWorker (fun n => if n = 1 then some ⟨.other, "MDB_MAP_FULL"⟩ else none)
        (fun _ => 0) (2 ^ 32) (someChunks 129)).2 := by
  refine (gc_unregisters_iff rfl _ _).mpr fun _ i hi hbefore hfault key hkey => ?_
  obtain rfl : i = 0 := by
    by_contra hne
    exact absurd (hbefore 0 (Nat.pos_of_ne_zero hne)) (by simp)
  simp at hkey

/-- All 129 chunks are expired. The first request deletes 128 of them and the second one fails: the
pass ends, and nothing is unregistered. -/
theorem gc_failure_unretracted :
    ¬Retracted (someChunks 129)
      (run defaultWorker (fun n => if n = 2 then some ⟨.other, "MDB_MAP_FULL"⟩ else none)
        (fun _ => 0) (2 ^ 32) (someChunks 129)).2 := by
  intro hret
  have hlen :
      (expiredBatches (someChunks 129) (2 ^ 32 - defaultWorker.expireAfter)).length = 2 := by
    rw [expiredBatches, batches, List.length_map, List.length_range, length_scanExpired_someChunks]
    · rfl
    · decide
  rcases hexp : gcExpired (fun n => if n = 2 then some ⟨.other, "MDB_MAP_FULL"⟩ else none)
    (.start (someChunks 129)) (2 ^ 32 - defaultWorker.expireAfter) with ⟨e | checksums, g⟩
  · rw [run_of_error hexp] at hret
    obtain ⟨hsame, ⟨hfault, -⟩ | ⟨-, i, -, -, hfault, hstore⟩⟩ := gcExpired_error hexp
    · exact absurd rfl hfault
    · obtain rfl : i = 1 := by
        by_contra hne
        refine hfault (if_neg ?_)
        change 0 + 1 + i ≠ 2
        omega
      obtain ⟨keys, rest, hbatches⟩ := List.exists_cons_of_length_eq_add_one hlen
      have hkeys : keys ∈ expiredBatches (someChunks 129) (2 ^ 32 - defaultWorker.expireAfter) :=
        hbatches ▸ List.mem_cons_self
      obtain ⟨key, hkey⟩ := List.exists_mem_of_ne_nil _ (ne_nil_of_mem_batches (by decide) hkeys)
      obtain ⟨i, hi, rfl⟩ := mem_someChunks.mp
        (Store.mem_scanExpired.mp (mem_of_mem_batches hkeys hkey)).1
      have hstore : g.store = (someChunks 129).deleteKeys [keys].flatten := by
        rw [hstore]
        exact congrArg (fun bs => (someChunks 129).deleteKeys (List.take 1 bs).flatten) hbatches
      have hmem := hret _ (isSome_data_someChunks hi) (by
        rw [hstore, Store.data_deleteKeys, if_pos ⟨_, by simpa using hkey, rfl⟩])
      rw [hsame] at hmem
      exact absurd hmem List.not_mem_nil
  · have hnone := (gcExpired_ok hexp).2.2.2 1 (Nat.one_lt_two.trans_eq hlen.symm)
    simp [GcPass.start] at hnone

end GcWorker

end DistillFs
