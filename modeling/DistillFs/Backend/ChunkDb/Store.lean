import DistillFs.Backend.CheckSum
import DistillFs.Foundation.Batches

/-!
# The tables of the chunk database

The database has three tables: the data of each chunk, the time of its last access, and an index of
the access times whose keys are pairs of a time and a checksum. Keys are ordered by their encoded
bytes; the time of an index key is encoded first and big-endian, so the index lists the chunks from
the least to the most recently used.

Each function here is the body of one transaction of the source, or one scan of a read
transaction. A transaction that fails changes nothing, so failures need no functions of their own.

## Main definitions

* `AccessKey`, `Store`.
* `Store.getOrPut`, `Store.putAll`, `Store.updateAccess`, `Store.commitAccessBatch`,
  `Store.deleteKeys`, `Store.scanExpired`, `Store.scanLru`, `Store.gcLruDirect`.

## Main results

* `Store.isSome_data_putAll`, `Store.data_deleteKeys`, `Store.mem_index_deleteKeys`,
  `Store.access_updateAccess`, `Store.mem_index_updateAccess`: what the transactions do.
-/

namespace DistillFs

open Foundation

/-- The number of keys that one deletion request of a garbage collection carries. -/
def gcBatch : ℕ := 128

/-- The number of access updates in one transaction. -/
def accessBatchSize : ℕ := 1024

/-- The number of chunks in one transaction of `add_chunks`. -/
def addChunksBatchSize : ℕ := 16

/-- The seconds within which a further access is not recorded. -/
def accessUpdateMinIntervalSecs : ℕ := 60

/-- A key of the access index. -/
@[ext] structure AccessKey where
  lastAccess : ℕ
  cs : CheckSumOnDisk
  deriving DecidableEq

namespace AccessKey

/-- The position of a key in the order of the index. -/
def rank (k : AccessKey) : ℕ ×ₗ CheckSumOnDisk := toLex (k.lastAccess, k.cs)

theorem rank_injective : Function.Injective rank := fun a b h => by
  obtain ⟨h1, h2⟩ := Prod.mk.inj (toLex.injective h)
  exact AccessKey.ext h1 h2

/-- The index is ordered by time first. -/
instance : LinearOrder AccessKey := LinearOrder.lift' rank rank_injective

theorem lastAccess_le_of_le {a b : AccessKey} (h : a ≤ b) : a.lastAccess ≤ b.lastAccess := by
  have h' : rank a ≤ rank b := h
  rcases (Prod.Lex.toLex_le_toLex).mp h' with hlt | heq
  · exact hlt.le
  · exact heq.1.le

end AccessKey

/-- A chunk with its checksum. -/
abbrev Chunk := CheckSum × List UInt8

/-- The three tables. -/
@[ext] structure Store where
  /-- The data of each chunk. -/
  data : CheckSumOnDisk → Option (List UInt8)
  /-- The time of the last access of each chunk. -/
  access : CheckSumOnDisk → Option ℕ
  /-- The keys of the access index. -/
  index : Finset AccessKey

namespace Store

/-- The tables of a new database. -/
def empty : Store := ⟨fun _ => none, fun _ => none, ∅⟩

variable (s : Store)

/-- `has_chunk`. -/
def hasChunk (cs : CheckSum) : Bool := (s.data (.ofCheckSum cs)).isSome

/-- `get_chunk`: the data of a chunk. -/
def getChunk (cs : CheckSum) : Option (List UInt8) := s.data (.ofCheckSum cs)

/-- Store a chunk unless its checksum is there already. -/
def getOrPut (cs : CheckSum) (data : List UInt8) : Store :=
  match s.data (.ofCheckSum cs) with
  | some _ => s
  | none => { s with data := Function.update s.data (.ofCheckSum cs) (some data) }

/-- The puts of one transaction of `add_chunk` or of a sub-batch of `add_chunks`. -/
def putAll (chunks : List Chunk) : Store := chunks.foldl (fun s c => s.getOrPut c.1 c.2) s

/-- Record an access of `cs` at time `now`, unless it is not later than the recorded one or follows
it within the minimal interval. -/
def updateAccess (cs : CheckSumOnDisk) (now : ℕ) : Store :=
  match s.access cs with
  | some old =>
    if now ≤ old ∨ now - old < accessUpdateMinIntervalSecs then s
    else
      { s with
        access := Function.update s.access cs (some now)
        index := insert ⟨now, cs⟩ (s.index.erase ⟨old, cs⟩) }
  | none =>
    { s with
      access := Function.update s.access cs (some now)
      index := insert ⟨now, cs⟩ s.index }

/-- The updates of `commit_access_batch`. -/
def commitAccessBatch (batch : List CheckSumOnDisk) (now : ℕ) : Store :=
  batch.foldl (fun s cs => s.updateAccess cs now) s

/-- Delete the chunk of an index key and the key itself. -/
def deleteKey (key : AccessKey) : Store where
  data := Function.update s.data key.cs none
  access := Function.update s.access key.cs none
  index := s.index.erase key

/-- The deletions of `do_delete_keys`. -/
def deleteKeys (keys : List AccessKey) : Store := keys.foldl deleteKey s

/-- The index keys a scan of `gc_expired` collects: those before the first one that is not older
than `cutoff`. -/
def scanExpired (cutoff : ℕ) : List AccessKey :=
  s.index.sort.takeWhile fun key => !decide (cutoff ≤ key.lastAccess)

/-- The index keys a scan of `gc_lru` or of `gc_lru_direct` collects. The limit is checked after a
key is collected. -/
def scanLru (maxDelete : ℕ) : List AccessKey := s.index.sort.take (max maxDelete 1)

/-- The deletion of the least recently used chunks within the writer thread. -/
def gcLruDirect (maxDelete : ℕ) : Store := s.deleteKeys (s.scanLru maxDelete)

/-- In a row of evictions, those after the first `a` and up to the first `b` do not name the chunk;
each takes the next 128 entries of the index. -/
def Spared (a b : ℕ) (k : CheckSumOnDisk) : Prop :=
  ∀ key ∈ (s.index.sort.take (gcBatch * b)).drop (gcBatch * a), key.cs ≠ k

/-! ### Puts -/

variable {s} {k : CheckSumOnDisk} {d : List UInt8}

theorem data_getOrPut (cs : CheckSum) (data : List UInt8) (k : CheckSumOnDisk) :
    (s.getOrPut cs data).data k =
      if k = .ofCheckSum cs then some ((s.data k).getD data) else s.data k := by
  unfold getOrPut
  split
  · next old hold =>
    split_ifs with hk
    · rw [hk, hold, Option.getD_some]
    · rfl
  · next hnone =>
    simp only [Function.update_apply]
    split_ifs with hk
    · rw [hk, hnone, Option.getD_none]
    · rfl

theorem hasChunk_getOrPut {cs cs' : CheckSum} {data : List UInt8} :
    (s.getOrPut cs' data).hasChunk cs = true ↔ cs = cs' ∨ s.hasChunk cs = true := by
  rw [hasChunk, data_getOrPut, hasChunk]
  split_ifs with heq
  · simp [CheckSumOnDisk.ofCheckSum_injective heq]
  · exact (or_iff_right fun h : cs = cs' => heq (congrArg _ h)).symm

/-- A chunk that is stored stays as it is. -/
theorem getOrPut_of_hasChunk {cs : CheckSum} (h : s.hasChunk cs = true) (data : List UInt8) :
    s.getOrPut cs data = s := by
  obtain ⟨old, hold⟩ := Option.isSome_iff_exists.mp h
  rw [getOrPut, hold]

@[simp] theorem access_getOrPut (cs : CheckSum) (data : List UInt8) :
    (s.getOrPut cs data).access = s.access := by
  unfold getOrPut
  split <;> rfl

@[simp] theorem index_getOrPut (cs : CheckSum) (data : List UInt8) :
    (s.getOrPut cs data).index = s.index := by
  unfold getOrPut
  split <;> rfl

@[simp] theorem access_putAll (chunks : List Chunk) : (s.putAll chunks).access = s.access := by
  induction chunks generalizing s with
  | nil => rfl
  | cons c rest ih => exact (ih (s := s.getOrPut c.1 c.2)).trans (access_getOrPut ..)

@[simp] theorem index_putAll (chunks : List Chunk) : (s.putAll chunks).index = s.index := by
  induction chunks generalizing s with
  | nil => rfl
  | cons c rest ih => exact (ih (s := s.getOrPut c.1 c.2)).trans (index_getOrPut ..)

/-- What is stored stays. -/
theorem data_putAll_of_some {chunks : List Chunk} (h : s.data k = some d) :
    (s.putAll chunks).data k = some d := by
  induction chunks generalizing s with
  | nil => exact h
  | cons c rest ih =>
    refine ih (s := s.getOrPut c.1 c.2) ?_
    rw [data_getOrPut, h, Option.getD_some, ite_self]

/-- The keys after the puts of a transaction are the old ones and those put. -/
theorem isSome_data_putAll {chunks : List Chunk} :
    ((s.putAll chunks).data k).isSome ↔
      (s.data k).isSome ∨ ∃ c ∈ chunks, k = .ofCheckSum c.1 := by
  induction chunks generalizing s with
  | nil => simp [putAll]
  | cons c rest ih =>
    refine (ih (s := s.getOrPut c.1 c.2)).trans ?_
    rw [data_getOrPut]
    split_ifs with hk
    · simp [hk]
    · simp [hk]

/-- What a transaction stored comes from its chunks. -/
theorem data_putAll_cases {chunks : List Chunk} (h : (s.putAll chunks).data k = some d) :
    s.data k = some d ∨ ∃ c ∈ chunks, k = .ofCheckSum c.1 ∧ d = c.2 := by
  induction chunks generalizing s with
  | nil => exact Or.inl h
  | cons c rest ih =>
    rcases ih (s := s.getOrPut c.1 c.2) h with hold | ⟨c', hc', heq⟩
    · rw [data_getOrPut] at hold
      split_ifs at hold with hk
      · cases hd : s.data k with
        | some d' =>
          rw [hd, Option.getD_some] at hold
          exact Or.inl hold
        | none =>
          rw [hd, Option.getD_none] at hold
          exact Or.inr ⟨c, List.mem_cons_self, hk, (Option.some.inj hold).symm⟩
      · exact Or.inl hold
    · exact Or.inr ⟨c', List.mem_cons_of_mem _ hc', heq⟩

/-- What an eviction leaves was stored before. -/
theorem data_of_evicted {s' : Store} (h : ∀ k, s'.data k = s.data k ∨ s'.data k = none)
    (hk : s'.data k = some d) : s.data k = some d := by
  obtain heq | hnone := h k
  · exact heq.symm.trans hk
  · rw [hnone] at hk
    cases hk

/-! ### Access updates -/

@[simp] theorem data_updateAccess (cs : CheckSumOnDisk) (now : ℕ) :
    (s.updateAccess cs now).data = s.data := by
  unfold updateAccess
  split
  · split_ifs <;> rfl
  · rfl

theorem access_updateAccess_of_ne {cs : CheckSumOnDisk} {now : ℕ} (h : k ≠ cs) :
    (s.updateAccess cs now).access k = s.access k := by
  unfold updateAccess
  split
  · split_ifs
    · rfl
    · exact Function.update_of_ne h ..
  · exact Function.update_of_ne h ..

/-- After an update the recorded time is the old one or the time of the update. -/
theorem access_updateAccess (cs : CheckSumOnDisk) (now : ℕ) :
    (s.updateAccess cs now = s ∧ (s.access cs).isSome) ∨
      (s.updateAccess cs now).access cs = some now := by
  unfold updateAccess
  split
  · next old hold =>
    split_ifs
    · exact Or.inl ⟨rfl, by rw [hold]; rfl⟩
    · exact Or.inr (Function.update_self ..)
  · exact Or.inr (Function.update_self ..)

/-- The index entries of other chunks stay. -/
theorem mem_index_updateAccess_of_ne {cs : CheckSumOnDisk} {now : ℕ} {key : AccessKey}
    (h : key.cs ≠ cs) : key ∈ (s.updateAccess cs now).index ↔ key ∈ s.index := by
  have hne : ∀ t, key ≠ ⟨t, cs⟩ := by
    rintro t rfl
    exact h rfl
  unfold updateAccess
  split
  · split_ifs
    · rfl
    · simp [hne]
  · simp [hne]

@[simp] theorem data_commitAccessBatch (batch : List CheckSumOnDisk) (now : ℕ) :
    (s.commitAccessBatch batch now).data = s.data := by
  induction batch generalizing s with
  | nil => rfl
  | cons cs rest ih => exact (ih (s := s.updateAccess cs now)).trans (data_updateAccess ..)

/-- An update at time `now` would not be recorded. -/
def Skips (s : Store) (cs : CheckSumOnDisk) (now : ℕ) : Prop :=
  ∃ old, s.access cs = some old ∧ (now ≤ old ∨ now - old < accessUpdateMinIntervalSecs)

theorem updateAccess_of_skips {cs : CheckSumOnDisk} {now : ℕ} (h : s.Skips cs now) :
    s.updateAccess cs now = s := by
  obtain ⟨old, hold, hskip⟩ := h
  unfold updateAccess
  rw [hold]
  exact if_pos hskip

theorem access_updateAccess_of_not_skips {cs : CheckSumOnDisk} {now : ℕ} (h : ¬s.Skips cs now) :
    (s.updateAccess cs now).access cs = some now := by
  unfold updateAccess
  split
  · next old hold =>
    rw [if_neg fun hskip => h ⟨old, hold, hskip⟩]
    exact Function.update_self ..
  · exact Function.update_self ..

theorem mem_index_updateAccess_of_not_skips {cs : CheckSumOnDisk} {now : ℕ}
    (h : ¬s.Skips cs now) : (⟨now, cs⟩ : AccessKey) ∈ (s.updateAccess cs now).index := by
  unfold updateAccess
  split
  · next old hold =>
    rw [if_neg fun hskip => h ⟨old, hold, hskip⟩]
    exact Finset.mem_insert_self ..
  · exact Finset.mem_insert_self ..

/-- The time recorded after the updates of a transaction is the old one or that of the updates. -/
theorem access_commitAccessBatch {batch : List CheckSumOnDisk} {now t : ℕ} {cs : CheckSumOnDisk}
    (h : (s.commitAccessBatch batch now).access cs = some t) :
    s.access cs = some t ∨ (t = now ∧ cs ∈ batch ∧ ¬s.Skips cs now) := by
  induction batch generalizing s with
  | nil => exact Or.inl h
  | cons first rest ih =>
    have hrest := ih (s := s.updateAccess first now) h
    by_cases hcs : cs = first
    · subst hcs
      by_cases hskip : s.Skips cs now
      · rw [updateAccess_of_skips hskip] at hrest
        exact hrest.imp_right fun ⟨ht, hmem, hno⟩ => ⟨ht, List.mem_cons_of_mem _ hmem, hno⟩
      · refine Or.inr ⟨?_, List.mem_cons_self, hskip⟩
        rw [access_updateAccess_of_not_skips hskip] at hrest
        rcases hrest with heq | ⟨heq, -⟩
        · exact (Option.some.inj heq).symm
        · exact heq
    · rw [access_updateAccess_of_ne hcs, Skips, access_updateAccess_of_ne hcs] at hrest
      exact hrest.imp_right fun ⟨ht, hmem, hno⟩ => ⟨ht, List.mem_cons_of_mem _ hmem, hno⟩

/-! ### Deletions -/

theorem data_deleteKeys (keys : List AccessKey) (k : CheckSumOnDisk) :
    (s.deleteKeys keys).data k = if ∃ key ∈ keys, key.cs = k then none else s.data k := by
  induction keys generalizing s with
  | nil => simp [deleteKeys]
  | cons key rest ih =>
    refine (ih (s := s.deleteKey key)).trans ?_
    simp only [deleteKey, Function.update_apply, List.mem_cons, exists_eq_or_imp]
    split_ifs <;> grind

theorem isSome_data_deleteKeys (keys : List AccessKey) (k : CheckSumOnDisk) :
    ((s.deleteKeys keys).data k).isSome ↔ (s.data k).isSome ∧ ∀ key ∈ keys, key.cs ≠ k := by
  rw [data_deleteKeys]
  split_ifs with hex
  · obtain ⟨key, hkey, hcs⟩ := hex
    simp only [Option.isSome_none, Bool.false_eq_true, false_iff, not_and, not_forall]
    exact fun _ => ⟨key, hkey, not_not.mpr hcs⟩
  · exact (and_iff_left fun key hkey hcs => hex ⟨key, hkey, hcs⟩).symm

theorem access_deleteKeys (keys : List AccessKey) (k : CheckSumOnDisk) :
    (s.deleteKeys keys).access k = if ∃ key ∈ keys, key.cs = k then none else s.access k := by
  induction keys generalizing s with
  | nil => simp [deleteKeys]
  | cons key rest ih =>
    refine (ih (s := s.deleteKey key)).trans ?_
    simp only [deleteKey, Function.update_apply, List.mem_cons, exists_eq_or_imp]
    split_ifs <;> grind

theorem mem_index_deleteKeys {keys : List AccessKey} {key : AccessKey} :
    key ∈ (s.deleteKeys keys).index ↔ key ∈ s.index ∧ key ∉ keys := by
  induction keys generalizing s with
  | nil => simp [deleteKeys]
  | cons key' rest ih =>
    refine (ih (s := s.deleteKey key')).trans ?_
    simp only [deleteKey, Finset.mem_erase, List.mem_cons, not_or]
    tauto

/-! ### Scans -/

theorem mem_index_of_mem_scanLru {n : ℕ} {key : AccessKey} (h : key ∈ s.scanLru n) :
    key ∈ s.index :=
  Finset.mem_sort _ |>.mp (List.mem_of_mem_take h)

/-- A scan for expired keys collects exactly the index keys older than the cutoff. -/
theorem mem_scanExpired {cutoff : ℕ} {key : AccessKey} :
    key ∈ s.scanExpired cutoff ↔ key ∈ s.index ∧ key.lastAccess < cutoff := by
  have hmem : ∀ key, key ∈ s.index.sort ↔ key ∈ s.index := fun key => Finset.mem_sort _
  have hsorted : s.index.sort.Pairwise (· ≤ ·) := Finset.pairwise_sort ..
  unfold scanExpired
  rw [← hmem]
  generalize s.index.sort = keys at hsorted
  induction keys with
  | nil => simp
  | cons first rest ih =>
    rw [List.pairwise_cons] at hsorted
    rw [List.takeWhile_cons]
    split_ifs with hfirst
    · simp only [Bool.not_eq_true', decide_eq_false_iff_not, not_le] at hfirst
      rw [List.mem_cons, List.mem_cons]
      constructor
      · rintro (rfl | h)
        · exact ⟨Or.inl rfl, hfirst⟩
        · exact ((ih hsorted.2).mp h).imp_left Or.inr
      · rintro ⟨rfl | h1, h2⟩
        · exact Or.inl rfl
        · exact Or.inr ((ih hsorted.2).mpr ⟨h1, h2⟩)
    · simp only [Bool.not_eq_true', decide_eq_false_iff_not, not_not] at hfirst
      refine ⟨fun h => absurd h List.not_mem_nil, fun ⟨h1, h2⟩ => ?_⟩
      have hle : first.lastAccess ≤ key.lastAccess := by
        rcases List.mem_cons.mp h1 with rfl | h1
        · exact le_rfl
        · exact AccessKey.lastAccess_le_of_le (hsorted.1 key h1)
      omega

/-- An eviction that finds something shrinks the index. -/
theorem card_index_gcLruDirect_lt {n : ℕ} (h : s.scanLru n ≠ []) :
    (s.gcLruDirect n).index.card < s.index.card := by
  obtain ⟨key, hkey⟩ := List.exists_mem_of_ne_nil _ h
  refine Finset.card_lt_card ⟨fun k hk => (mem_index_deleteKeys.mp hk).1, fun hsub => ?_⟩
  exact (mem_index_deleteKeys.mp (hsub (mem_index_of_mem_scanLru hkey))).2 hkey

/-- A scan of a nonempty index collects something. -/
theorem scanLru_eq_nil_iff {n : ℕ} : s.scanLru n = [] ↔ s.index = ∅ := by
  have hlen : (s.scanLru n).length = min (max n 1) s.index.card := by
    rw [scanLru, List.length_take, Finset.length_sort]
  rw [← List.length_eq_zero_iff, hlen, ← Finset.card_eq_zero]
  omega

end Store

end DistillFs
