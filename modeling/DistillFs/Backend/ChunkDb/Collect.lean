import DistillFs.Backend.ChunkDb.Gc
import DistillFs.Foundation.PagedScan

/-!
# What a collection deletes

The two collections of the chunk database read the access index from its beginning and delete what
they read: `gc_expired` reads the keys older than its cutoff and deletes them in requests of 128,
`gc_lru` and `gc_lru_direct` read a number of keys and delete them in one transaction. The database
lists the keys of the index in the order of their encoded bytes, that is by time.

Each function here is one call with nobody else at the database; which of its calls to the database
fail is part of the input. When the index mirrors the access table, the first keys of the index name
the least recently used chunks, each one once.

## Main definitions

* `AccessKey.bytesEncode`, `Store.iter`, `GcDeleteResult`.
* `ChunkDb.gcExpired`, `ChunkDb.gcLru`, `WriterThread.doDeleteKeys`, `WriterThread.gcLruDirect`.
* `Store.Without`, `Store.EvictsLru`.

## Main results

* `Store.iter_eq_sort`: the order of the bytes is the order of the keys.
* `ChunkDb.gc_expired_exact`: what `gc_expired` deletes and returns.
* `ChunkDb.gc_lru_least_recent`: what `gc_lru` and `gc_lru_direct` delete and return.
-/

namespace DistillFs

open Foundation

namespace AccessKey

/-- The bytes of a key. -/
def bytesEncode (k : AccessKey) : List UInt8 := toBytes 8 k.lastAccess ++ k.cs.bytes

/-- Keys with 64-bit times are ordered as their bytes are. -/
theorem le_iff_bytesEncode {a b : AccessKey} (ha : a.lastAccess < 256 ^ 8)
    (hb : b.lastAccess < 256 ^ 8) : a ≤ b ↔ (compare a.bytesEncode b.bytesEncode).isLE := by
  change rank a ≤ rank b ↔ _
  rw [bytesEncode, bytesEncode, compare_append (by simp), compare_toBytes ha hb,
    Ordering.isLE_then_iff_or, compare_lt_iff_lt, compare_eq_iff_eq,
    ← CheckSumOnDisk.le_iff_bytes]
  exact Prod.Lex.toLex_le_toLex

theorem map_checkSum (keys : List AccessKey) : (keys.map fun key => key.cs.checkSum) =
    (keys.map AccessKey.cs).map CheckSumOnDisk.checkSum := by
  rw [List.map_map]
  rfl

end AccessKey

namespace Store

/-- The keys of the index as the database lists them: in the order of their bytes. -/
def iter (s : Store) : List AccessKey :=
  (listing s.index).mergeSort fun a b => (compare a.bytesEncode b.bytesEncode).isLE

/-- The times of the index are 64-bit numbers. -/
def Timed (s : Store) : Prop := ∀ key ∈ s.index, key.lastAccess < 256 ^ 8

variable {s : Store}

theorem iter_eq_sort (h : s.Timed) : s.iter = s.index.sort := by
  refine List.mergeSort_of_pairwise ((s.index.pairwise_sort (· ≤ ·)).imp_of_mem ?_)
  intro a b ha hb hab
  exact (AccessKey.le_iff_bytesEncode (h a ((Finset.mem_sort _).mp ha))
    (h b ((Finset.mem_sort _).mp hb))).mp hab

end Store

/-- What a deletion reports. -/
structure GcDeleteResult where
  removed : ℕ
  checksums : List CheckSum
  deriving DecidableEq

namespace WriterThread

variable (fault : Option IoError) (faults : ℕ → Option IoError)

/-- `do_delete_keys`: one transaction. -/
def doDeleteKeys (keys : List AccessKey) (s : Store) : Except IoError GcDeleteResult × Store :=
  if keys = [] then (.ok ⟨0, []⟩, s)
  else
    match fault with
    | some e => (.error e, s)
    | none => (.ok ⟨keys.length, keys.map fun key => key.cs.checkSum⟩, s.deleteKeys keys)

/-- `gc_lru_direct`: the number of chunks, and the checksums that it passes to the chunk index. -/
def gcLruDirect (maxDelete : ℕ) (s : Store) : Except IoError ℕ × List CheckSum × Store :=
  match faults 0 with
  | some e => (.error e, [], s)
  | none =>
    -- the limit is checked after a key is collected
    let targets := s.iter.take (max maxDelete 1)
    if targets = [] then (.ok 0, [], s)
    else
      match faults 1 with
      | some e => (.error e, [], s)
      | none =>
        (.ok targets.length, targets.map fun key => key.cs.checkSum, s.deleteKeys targets)

end WriterThread

namespace ChunkDb

variable (faults : ℕ → Option IoError)

/-- The loop of `gc_expired` over its batches. -/
def deleteChunks (faults : ℕ → Option IoError) :
    List (List AccessKey) → GcDeleteResult → Store → Except IoError GcDeleteResult × Store
  | [], total, s => (.ok total, s)
  | batch :: rest, total, s =>
    match WriterThread.doDeleteKeys (faults 0) batch s with
    | (.error e, s') => (.error e, s')
    | (.ok result, s') =>
      deleteChunks (fun i => faults (i + 1)) rest
        ⟨total.removed + result.removed, total.checksums ++ result.checksums⟩ s'

/-- `gc_expired`, where `now` is the clock of the call. -/
def gcExpired (now timeout : ℕ) (s : Store) : Except IoError GcDeleteResult × Store :=
  match faults 0 with
  | some e => (.error e, s)
  | none =>
    let cutoff := now - timeout
    let expired := s.iter.takeWhile fun key => !decide (cutoff ≤ key.lastAccess)
    deleteChunks (fun i => faults (i + 1)) (batches gcBatch expired) ⟨0, []⟩ s

/-- `gc_lru`. -/
def gcLru (maxDelete : ℕ) (s : Store) : Except IoError GcDeleteResult × Store :=
  match faults 0 with
  | some e => (.error e, s)
  | none => WriterThread.doDeleteKeys (faults 1) (s.iter.take (max maxDelete 1)) s

end ChunkDb

/-! ### What is left of a store -/

namespace Store

/-- `s'` is `s` without the chunks `gone`. -/
structure Without (s : Store) (gone : List CheckSumOnDisk) (s' : Store) : Prop where
  data : ∀ k, s'.data k = if k ∈ gone then none else s.data k
  access : ∀ k, s'.access k = if k ∈ gone then none else s.access k
  index : ∀ key, key ∈ s'.index ↔ key ∈ s.index ∧ key.cs ∉ gone

/-- `s'` is `s` without its `n` least recently used chunks `gone`, which are listed by time. -/
structure EvictsLru (s : Store) (n : ℕ) (gone : List CheckSumOnDisk) (s' : Store) : Prop where
  without : s.Without gone s'
  nodup : gone.Nodup
  length_eq : gone.length = min n s.index.card
  recorded : ∀ k ∈ gone, (s.access k).isSome
  least : ∀ k ∈ gone, ∀ k' t t', s.access k = some t → s'.access k' = some t' → t ≤ t'
  sorted : gone.Pairwise fun a b => ∀ t t', s.access a = some t → s.access b = some t' → t ≤ t'

variable {s s' : Store}

namespace Mirror

/-- A chunk has one key in the index. -/
theorem key_unique (h : s.Mirror) {a b : AccessKey} (ha : a ∈ s.index) (hb : b ∈ s.index)
    (hcs : a.cs = b.cs) : a = b := by
  have hta := (h a.lastAccess a.cs).mp ha
  have htb := (h b.lastAccess b.cs).mp hb
  rw [hcs, htb] at hta
  exact AccessKey.ext (Option.some.inj hta).symm hcs

/-- The deletion of keys of the index is the deletion of their chunks. -/
theorem without_deleteKeys (h : s.Mirror) {keys : List AccessKey}
    (hkeys : ∀ key ∈ keys, key ∈ s.index) :
    s.Without (keys.map AccessKey.cs) (s.deleteKeys keys) where
  data k := by simp only [data_deleteKeys, List.mem_map]
  access k := by simp only [access_deleteKeys, List.mem_map]
  index key := by
    rw [mem_index_deleteKeys]
    refine and_congr_right fun hkey => not_congr ⟨List.mem_map_of_mem, fun hmem => ?_⟩
    obtain ⟨key', hkey', hcs⟩ := List.mem_map.mp hmem
    exact h.key_unique (hkeys key' hkey') hkey hcs ▸ hkey'

theorem nodup_map (h : s.Mirror) {keys : List AccessKey} (hkeys : ∀ key ∈ keys, key ∈ s.index)
    (hnodup : keys.Nodup) : (keys.map AccessKey.cs).Nodup :=
  hnodup.map_on fun a ha b hb => h.key_unique (hkeys a ha) (hkeys b hb)

/-- The first keys of the index name the least recently used chunks. -/
theorem evictsLru_take (h : s.Mirror) (n : ℕ) :
    s.EvictsLru n ((s.index.sort.take n).map AccessKey.cs)
      (s.deleteKeys (s.index.sort.take n)) := by
  have hmem : ∀ key ∈ s.index.sort.take n, key ∈ s.index := fun key hkey =>
    (Finset.mem_sort _).mp (List.mem_of_mem_take hkey)
  have htime : ∀ key ∈ s.index.sort.take n, s.access key.cs = some key.lastAccess := fun key hkey =>
    (h key.lastAccess key.cs).mp (hmem key hkey)
  have hsorted : (s.index.sort.take n ++ s.index.sort.drop n).Pairwise (· ≤ ·) := by
    rw [List.take_append_drop]
    exact s.index.pairwise_sort _
  have hwithout := h.without_deleteKeys hmem
  refine ⟨hwithout, h.nodup_map hmem ((s.index.sort_nodup _).sublist (List.take_sublist ..)), ?_,
    fun k hk => ?_, fun k hk k' t t' ht ht' => ?_, ?_⟩
  · rw [List.length_map, List.length_take, Finset.length_sort]
  · obtain ⟨key, hkey, rfl⟩ := List.mem_map.mp hk
    rw [htime key hkey]
    rfl
  · obtain ⟨key, hkey, rfl⟩ := List.mem_map.mp hk
    rw [hwithout.access] at ht'
    split_ifs at ht' with hgone
    have hkey' : (⟨t', k'⟩ : AccessKey) ∈ s.index.sort.take n ++ s.index.sort.drop n := by
      rw [List.take_append_drop, Finset.mem_sort]
      exact (h t' k').mpr ht'
    rcases List.mem_append.mp hkey' with hin | hdrop
    · exact absurd (List.mem_map_of_mem hin) hgone
    · have hle := (List.pairwise_append.mp hsorted).2.2 key hkey _ hdrop
      rw [htime key hkey, Option.some.injEq] at ht
      exact ht ▸ AccessKey.lastAccess_le_of_le hle
  · rw [List.pairwise_map]
    refine (List.pairwise_append.mp hsorted).1.imp_of_mem fun {a b} ha hb hab t t' ht ht' => ?_
    rw [htime a ha, Option.some.injEq] at ht
    rw [htime b hb, Option.some.injEq] at ht'
    exact ht ▸ ht' ▸ AccessKey.lastAccess_le_of_le hab

end Mirror

end Store

/-! ### What the calls delete -/

theorem WriterThread.doDeleteKeys_ok {fault : Option IoError} {keys : List AccessKey} {s s' : Store}
    {r : GcDeleteResult} (h : doDeleteKeys fault keys s = (.ok r, s')) :
    r = ⟨keys.length, keys.map fun key => key.cs.checkSum⟩ ∧ s' = s.deleteKeys keys := by
  unfold doDeleteKeys at h
  split_ifs at h with hnil
  · obtain ⟨hr, rfl⟩ := Prod.mk.inj h
    subst hnil
    exact ⟨(Except.ok.inj hr).symm, rfl⟩
  · split at h
    · cases h
    · obtain ⟨hr, rfl⟩ := Prod.mk.inj h
      exact ⟨(Except.ok.inj hr).symm, rfl⟩

namespace ChunkDb

theorem timed_agedStore : agedStore.Timed := by
  intro key hkey
  obtain rfl := Finset.mem_singleton.mp hkey
  decide

variable {faults : ℕ → Option IoError} {s s' : Store} {r : GcDeleteResult}

/-- A loop of requests that all succeed deletes what they name, in whatever batches. -/
theorem deleteChunks_ok {bs : List (List AccessKey)} {total : GcDeleteResult}
    (h : deleteChunks faults bs total s = (.ok r, s')) :
    r = ⟨total.removed + bs.flatten.length,
        total.checksums ++ bs.flatten.map fun key => key.cs.checkSum⟩ ∧
      s' = s.deleteKeys bs.flatten := by
  induction bs generalizing faults total s with
  | nil =>
    obtain ⟨hr, rfl⟩ := Prod.mk.inj h
    obtain rfl := Except.ok.inj hr
    exact ⟨by simp, rfl⟩
  | cons batch rest ih =>
    rw [deleteChunks] at h
    rcases hdel : WriterThread.doDeleteKeys (faults 0) batch s with ⟨_ | result, s₁⟩
    · rw [hdel] at h
      cases h
    · rw [hdel] at h
      obtain ⟨rfl, rfl⟩ := WriterThread.doDeleteKeys_ok hdel
      obtain ⟨rfl, rfl⟩ := ih h
      refine ⟨?_, ?_⟩
      · simp [Nat.add_assoc]
      · rw [List.flatten_cons]
        exact (List.foldl_append ..).symm

/-- **Expiry.** A collection that returns `Ok` deletes exactly the chunks that were last used before
its cutoff, from all three tables, and returns their number and their checksums. -/
theorem gc_expired_exact (hmirror : s.Mirror) (htimes : s.Timed) {now timeout : ℕ}
    (h : gcExpired faults now timeout s = (.ok r, s')) :
    ∃ gone : List CheckSumOnDisk, gone.Nodup ∧
      (∀ k, k ∈ gone ↔ ∃ t, s.access k = some t ∧ t < now - timeout) ∧ s.Without gone s' ∧
      r.removed = gone.length ∧ r.checksums = gone.map CheckSumOnDisk.checkSum := by
  unfold gcExpired at h
  split at h
  · cases h
  · rw [Store.iter_eq_sort htimes] at h
    obtain ⟨rfl, rfl⟩ := deleteChunks_ok h
    rw [flatten_batches (by decide)]
    have hmem : ∀ key ∈ s.scanExpired (now - timeout), key ∈ s.index := fun key hkey =>
      (Store.mem_scanExpired.mp hkey).1
    refine ⟨(s.scanExpired (now - timeout)).map AccessKey.cs, hmirror.nodup_map hmem ?_,
      fun k => ?_, hmirror.without_deleteKeys hmem, ?_, ?_⟩
    · exact (s.index.sort_nodup _).sublist (List.takeWhile_sublist _)
    · rw [List.mem_map]
      constructor
      · rintro ⟨key, hkey, rfl⟩
        obtain ⟨hin, hlt⟩ := Store.mem_scanExpired.mp hkey
        exact ⟨key.lastAccess, (hmirror key.lastAccess key.cs).mp hin, hlt⟩
      · rintro ⟨t, ht, hlt⟩
        exact ⟨⟨t, k⟩, Store.mem_scanExpired.mpr ⟨(hmirror t k).mpr ht, hlt⟩, rfl⟩
    · exact (Nat.zero_add _).trans (List.length_map _).symm
    · exact (List.nil_append _).trans (AccessKey.map_checkSum _)

theorem gc_expired_exact_aged : ∃ gone : List CheckSumOnDisk, gone.Nodup ∧
    (∀ k, k ∈ gone ↔ ∃ t, agedStore.access k = some t ∧ t < 100 - 50) ∧
    agedStore.Without gone (agedStore.deleteKeys [⟨0, .ofCheckSum oneByte⟩]) ∧ 1 = gone.length ∧
    [oneByte] = gone.map CheckSumOnDisk.checkSum :=
  @gc_expired_exact (fun _ => none) agedStore _ ⟨1, [oneByte]⟩ mirror_agedStore timed_agedStore
    100 50
    (by
      rw [gcExpired, Store.iter_eq_sort timed_agedStore]
      change deleteChunks _ (batches gcBatch (agedStore.scanExpired (100 - 50))) _ _ = _
      rw [scanExpired_agedStore]
      rfl)

/-- **Eviction.** A collection that returns `Ok` deletes the least recently used chunks from all
three tables, as many as asked for or all there are, and what it reports are these chunks. -/
theorem gc_lru_least_recent (hmirror : s.Mirror) (htimes : s.Timed) {n : ℕ} (hn : 1 ≤ n) :
    (∀ faults r s', gcLru faults n s = (.ok r, s') → ∃ gone, s.EvictsLru n gone s' ∧
      r.removed = gone.length ∧ r.checksums = gone.map CheckSumOnDisk.checkSum) ∧
    ∀ faults count told s', WriterThread.gcLruDirect faults n s = (.ok count, told, s') →
      ∃ gone, s.EvictsLru n gone s' ∧ count = gone.length ∧
        told = gone.map CheckSumOnDisk.checkSum := by
  have hevicts := hmirror.evictsLru_take n
  refine ⟨fun faults r s' h => ?_, fun faults count told s' h => ?_⟩
  · unfold gcLru at h
    rw [Store.iter_eq_sort htimes, max_eq_left hn] at h
    split at h
    · cases h
    · obtain ⟨rfl, rfl⟩ := WriterThread.doDeleteKeys_ok h
      exact ⟨_, hevicts, (List.length_map _).symm, AccessKey.map_checkSum _⟩
  · unfold WriterThread.gcLruDirect at h
    rw [Store.iter_eq_sort htimes, max_eq_left hn] at h
    split at h
    · cases h
    · dsimp only at h
      split_ifs at h with hnil
      · obtain ⟨hcount, htold⟩ := Prod.mk.inj h
        obtain ⟨rfl, rfl⟩ := Prod.mk.inj htold
        obtain rfl := Except.ok.inj hcount
        rw [hnil] at hevicts
        exact ⟨_, hevicts, rfl, rfl⟩
      · split at h
        · cases h
        · obtain ⟨hcount, htold⟩ := Prod.mk.inj h
          obtain ⟨rfl, rfl⟩ := Prod.mk.inj htold
          obtain rfl := Except.ok.inj hcount
          exact ⟨_, hevicts, (List.length_map _).symm, AccessKey.map_checkSum _⟩

theorem gc_lru_least_recent_aged :
    (∃ gone, agedStore.EvictsLru 1 gone (agedStore.deleteKeys [⟨0, .ofCheckSum oneByte⟩]) ∧
      1 = gone.length ∧ [oneByte] = gone.map CheckSumOnDisk.checkSum) ∧
    ∃ gone, agedStore.EvictsLru 1 gone (agedStore.deleteKeys [⟨0, .ofCheckSum oneByte⟩]) ∧
      1 = gone.length ∧ [oneByte] = gone.map CheckSumOnDisk.checkSum := by
  obtain ⟨hlru, hdirect⟩ := gc_lru_least_recent mirror_agedStore timed_agedStore le_rfl
  have hiter : agedStore.iter.take 1 = [⟨0, .ofCheckSum oneByte⟩] := by
    rw [Store.iter_eq_sort timed_agedStore, agedStore, Finset.sort_singleton]
    rfl
  refine ⟨hlru (fun _ => none) ⟨1, [oneByte]⟩ _ ?_, hdirect (fun _ => none) 1 [oneByte] _ ?_⟩
  · rw [gcLru, max_self, hiter]
    rfl
  · rw [WriterThread.gcLruDirect, max_self, hiter]
    rfl

/-! ### The collections of the other modules -/

theorem deleteBatches_eq {bs : List (List AccessKey)} (hbs : ∀ keys ∈ bs, keys ≠ [])
    (g : GcPass) (total : GcDeleteResult) :
    (GcWorker.deleteBatches faults g total.checksums bs).1 =
        (deleteChunks (fun i => faults (g.calls + i)) bs total g.store).1.map
          GcDeleteResult.checksums ∧
      (GcWorker.deleteBatches faults g total.checksums bs).2.store =
        (deleteChunks (fun i => faults (g.calls + i)) bs total g.store).2 := by
  induction bs generalizing g total with
  | nil => exact ⟨rfl, rfl⟩
  | cons keys rest ih =>
    obtain ⟨hkeys, hrest⟩ := List.forall_mem_cons.mp hbs
    rw [GcWorker.deleteBatches, deleteChunks, GcWorker.deleteKeys]
    unfold WriterThread.doDeleteKeys
    rw [if_neg hkeys, if_neg hkeys, Nat.add_zero]
    cases hfault : faults g.calls with
    | some e => exact ⟨rfl, rfl⟩
    | none =>
      have hcalls : (fun i => faults (g.calls + (i + 1))) = fun i => faults (g.calls + 1 + i) := by
        funext i
        rw [Nat.add_comm i, Nat.add_assoc]
      dsimp only
      rw [hcalls]
      exact ih hrest { g.tick with store := g.store.deleteKeys keys } ⟨_, _⟩

/-- The pass of a worker makes the call `gc_expired`. -/
theorem gcExpired_eq (g : GcPass) (htimes : g.store.Timed) (now timeout : ℕ) :
    (GcWorker.gcExpired faults g (now - timeout)).1 =
        (gcExpired (fun i => faults (g.calls + i)) now timeout g.store).1.map
          GcDeleteResult.checksums ∧
      (GcWorker.gcExpired faults g (now - timeout)).2.store =
        (gcExpired (fun i => faults (g.calls + i)) now timeout g.store).2 := by
  rw [GcWorker.gcExpired, gcExpired, Nat.add_zero, Store.iter_eq_sort htimes]
  cases hfault : faults g.calls with
  | some e => exact ⟨rfl, rfl⟩
  | none =>
    have hcalls : (fun i => faults (g.calls + (i + 1))) = fun i => faults (g.tick.calls + i) := by
      funext i
      rw [GcPass.calls_tick, Nat.add_comm i, Nat.add_assoc]
    dsimp only
    rw [hcalls]
    exact deleteBatches_eq (fun keys => GcWorker.ne_nil_of_mem_batches (by decide)) g.tick ⟨0, []⟩

/-- It makes the call `gc_lru`. -/
theorem gcLru_eq (g : GcPass) (htimes : g.store.Timed) (n : ℕ) :
    (GcWorker.gcLru faults g n).1 =
        (gcLru (fun i => faults (g.calls + i)) n g.store).1.map GcDeleteResult.checksums ∧
      (GcWorker.gcLru faults g n).2.store =
        (gcLru (fun i => faults (g.calls + i)) n g.store).2 := by
  rw [GcWorker.gcLru, gcLru, Nat.add_zero, Store.iter_eq_sort htimes]
  cases hfault : faults g.calls with
  | some e => exact ⟨rfl, rfl⟩
  | none =>
    dsimp only
    rw [GcWorker.deleteKeys, Store.scanLru, GcPass.store_tick, GcPass.calls_tick]
    unfold WriterThread.doDeleteKeys
    split_ifs
    · exact ⟨rfl, rfl⟩
    · cases faults (g.calls + 1) with
      | some e => exact ⟨rfl, rfl⟩
      | none => exact ⟨rfl, rfl⟩

/-- The eviction of the writer thread, when it succeeds, is the one that the calls to add chunks
make room with. -/
theorem gcLruDirect_eq (htimes : s.Timed) {n count : ℕ} {told : List CheckSum}
    (h : WriterThread.gcLruDirect faults n s = (.ok count, told, s')) :
    s' = s.gcLruDirect n ∧ count = (s.scanLru n).length := by
  unfold WriterThread.gcLruDirect at h
  rw [Store.iter_eq_sort htimes] at h
  rw [Store.gcLruDirect, Store.scanLru]
  split at h
  · cases h
  · dsimp only at h
    split_ifs at h with hnil
    · cases h
      rw [hnil]
      exact ⟨rfl, rfl⟩
    · split at h
      · cases h
      · cases h
        exact ⟨rfl, rfl⟩

end ChunkDb

end DistillFs
