import DistillFs.Backend.ChunkDb.Mirror

/-!
# Adding many chunks

`add_chunks` stores its chunks in transactions of 16. A transaction that finds the database full is
dropped, the 128 least recently used chunks are evicted, and the transaction is tried again. The
evictions of a later transaction do not spare the chunks of the earlier ones: a chunk of the list
that was stored before the call keeps its old place in the access index, since the writer gets to
access updates only after the call.

The functions here are the whole call, with no other client active. Which puts find the database
full is part of the input: for each transaction that commits, the positions of the puts at which the
attempts before it failed. Only the put of an absent key needs space.

## Main definitions

* `Store.doAddChunksSubBatch`, `Store.doAddChunksBatch`, `Store.addChunks`.
* `Store.evict`: evictions in a row.

## Main results

* `Store.add_chunks_stored_iff`: exactly when a successful call leaves all its chunks stored.
* `Store.add_chunks_loses_chunk`: a successful call that evicts one of its own chunks.
* `ChunkDb.doAddChunksBatch_run`: the writer takes the steps of the call.
-/

namespace DistillFs

open Foundation

namespace Store

/-- Whether the put at position `i` of a transaction is the put of an absent key. -/
def absentAt (s : Store) (batch : List Chunk) (i : ℕ) : Bool :=
  match batch[i]? with
  | some c => ((s.putAll (batch.take i)).data (.ofCheckSum c.1)).isNone
  | none => false

/-- `do_add_chunks_sub_batch`, where `full` lists the puts at which the attempts fail until one
commits. It fails when nothing is left to evict. -/
def doAddChunksSubBatch (batch : List Chunk) : List ℕ → Store → Option Store
  | [], s => some (s.putAll batch)
  | i :: full, s =>
    if s.absentAt batch i = true ∧ s.scanLru gcBatch ≠ [] then
      doAddChunksSubBatch batch full (s.gcLruDirect gcBatch)
    else none

/-- `do_add_chunks_batch`. -/
def doAddChunksBatch : List (List Chunk) → (ℕ → List ℕ) → Store → Option Store
  | [], _, s => some s
  | batch :: rest, full, s =>
    (doAddChunksSubBatch batch (full 0) s).bind (doAddChunksBatch rest fun i => full (i + 1))

/-- `add_chunks`: the tables when it returns `Ok`. -/
def addChunks (chunks : List Chunk) (full : ℕ → List ℕ) (s : Store) : Option Store :=
  doAddChunksBatch (batches addChunksBatchSize chunks) full s

/-- The number of evictions before the `n`-th transaction has committed. -/
def evictions (full : ℕ → List ℕ) (n : ℕ) : ℕ := ((List.range n).map fun i => (full i).length).sum

/-- Some evictions in a row. -/
def evict (n : ℕ) (s : Store) : Store := (fun s => s.gcLruDirect gcBatch)^[n] s

variable {s s' : Store} {k : CheckSumOnDisk}

theorem sort_gcLruDirect : (s.gcLruDirect gcBatch).index.sort = s.index.sort.drop gcBatch :=
  sort_eq_drop fun _ => mem_index_deleteKeys

theorem sort_evict (n : ℕ) : (s.evict n).index.sort = s.index.sort.drop (gcBatch * n) := by
  induction n generalizing s with
  | zero => rfl
  | succ n ih =>
    rw [evict, Function.iterate_succ_apply]
    refine (ih (s := s.gcLruDirect gcBatch)).trans ?_
    rw [sort_gcLruDirect, List.drop_drop, Nat.mul_succ, Nat.add_comm]

theorem spared_iff_window {a b : ℕ} : s.Spared a b k ↔
    ∀ key ∈ (s.index.sort.drop (gcBatch * a)).take (gcBatch * b - gcBatch * a), key.cs ≠ k := by
  rw [Spared, List.drop_take]

theorem spared_append {a b : ℕ} (hab : a ≤ b) :
    s.Spared 0 b k ↔ s.Spared 0 a k ∧ s.Spared a b k := by
  have hle := Nat.mul_le_mul_left gcBatch hab
  have hsplit : (s.index.sort.take (gcBatch * b)).take (gcBatch * a) =
      s.index.sort.take (gcBatch * a) := by
    rw [List.take_take, Nat.min_eq_left hle]
  have hcut := List.take_append_drop (gcBatch * a) (s.index.sort.take (gcBatch * b))
  rw [hsplit] at hcut
  simp only [Spared, Nat.mul_zero, List.drop_zero]
  rw [← hcut, List.forall_mem_append, hcut]

theorem Spared.mono {a a' b : ℕ} (h : s.Spared a b k) (ha : a ≤ a') : s.Spared a' b k := by
  intro key hkey
  have hle := Nat.mul_le_mul_left gcBatch ha
  refine h key ?_
  obtain ⟨m, hm⟩ := Nat.exists_eq_add_of_le hle
  rw [hm, ← List.drop_drop] at hkey
  exact List.mem_of_mem_drop hkey

theorem spared_self (a : ℕ) : s.Spared a a k := by
  rw [spared_iff_window, Nat.sub_self, List.take_zero]
  exact fun _ h => absurd h List.not_mem_nil

/-- After some evictions the next ones take what follows in the index. -/
theorem spared_of_sort {n a b : ℕ} (h : s'.index.sort = s.index.sort.drop (gcBatch * n)) :
    s'.Spared a b k ↔ s.Spared (n + a) (n + b) k := by
  rw [spared_iff_window, spared_iff_window, h, List.drop_drop, Nat.mul_add, Nat.mul_add,
    Nat.add_sub_add_left]

theorem isSome_data_gcLruDirect :
    ((s.gcLruDirect gcBatch).data k).isSome ↔ (s.data k).isSome ∧ s.Spared 0 1 k := by
  rw [gcLruDirect, isSome_data_deleteKeys]
  rfl

theorem isSome_data_evict (n : ℕ) :
    ((s.evict n).data k).isSome ↔ (s.data k).isSome ∧ s.Spared 0 n k := by
  induction n generalizing s with
  | zero => simp [evict, Spared]
  | succ n ih =>
    rw [evict, Function.iterate_succ_apply]
    refine (ih (s := s.gcLruDirect gcBatch)).trans ?_
    rw [isSome_data_gcLruDirect, spared_of_sort (n := 1) sort_gcLruDirect, Nat.add_comm 1 n,
      spared_append (b := n + 1) (Nat.le_add_left 1 n), and_assoc]

/-! ### What a call stores -/

theorem doAddChunksSubBatch_some {batch : List Chunk} {full : List ℕ}
    (h : doAddChunksSubBatch batch full s = some s') :
    s' = (s.evict full.length).putAll batch := by
  induction full generalizing s with
  | nil => exact (Option.some.inj h).symm
  | cons i full ih =>
    rw [doAddChunksSubBatch] at h
    split_ifs at h
    exact ih h

theorem evictions_succ (full : ℕ → List ℕ) (n : ℕ) :
    evictions full (n + 1) = (full 0).length + evictions (fun i => full (i + 1)) n := by
  rw [evictions, List.range_succ_eq_map, List.map_cons, List.sum_cons, List.map_map]
  rfl

theorem evictions_one (full : ℕ → List ℕ) : evictions full 1 = (full 0).length := by
  simp [evictions]

theorem exists_getElem?_cons {α : Type*} {a : α} {l : List α} {p : ℕ → α → Prop} :
    (∃ j b, (a :: l)[j]? = some b ∧ p j b) ↔ p 0 a ∨ ∃ j b, l[j]? = some b ∧ p (j + 1) b := by
  constructor
  · rintro ⟨j, b, hj, hp⟩
    cases j with
    | zero =>
      obtain rfl := Option.some.inj hj
      exact Or.inl hp
    | succ j => exact Or.inr ⟨j, b, hj, hp⟩
  · rintro (hp | ⟨j, b, hj, hp⟩)
    · exact ⟨0, a, rfl, hp⟩
    · exact ⟨j + 1, b, hj, hp⟩

/-- What is stored after the transactions of a call: what was stored before, and the chunks of each
transaction, unless the evictions since then name them. -/
theorem isSome_data_doAddChunksBatch {todo : List (List Chunk)} {full : ℕ → List ℕ}
    (h : doAddChunksBatch todo full s = some s') : (s'.data k).isSome ↔
      ((s.data k).isSome ∧ s.Spared 0 (evictions full todo.length) k) ∨
        ∃ j batch, todo[j]? = some batch ∧ (∃ c ∈ batch, k = .ofCheckSum c.1) ∧
          s.Spared (evictions full (j + 1)) (evictions full todo.length) k := by
  induction todo generalizing s full with
  | nil =>
    obtain rfl := Option.some.inj h
    simp [evictions, Spared]
  | cons batch rest ih =>
    obtain ⟨s₁, h₁, hrest⟩ := Option.bind_eq_some_iff.mp h
    have hs₁ := doAddChunksSubBatch_some h₁
    have hsort : s₁.index.sort = s.index.sort.drop (gcBatch * (full 0).length) := by
      rw [hs₁, index_putAll, sort_evict]
    have hdata : (s₁.data k).isSome ↔
        ((s.data k).isSome ∧ s.Spared 0 (full 0).length k) ∨ ∃ c ∈ batch, k = .ofCheckSum c.1 := by
      rw [hs₁, isSome_data_putAll, isSome_data_evict]
    have hlast := evictions_succ full rest.length
    rw [ih hrest, hdata, List.length_cons, hlast, exists_getElem?_cons, evictions_one,
      spared_append (b := (full 0).length + _) (Nat.le_add_right _ _)]
    simp only [spared_of_sort hsort, Nat.add_zero, evictions_succ full]
    rw [or_and_right, and_assoc, or_assoc]

/-- **When a successful call leaves all its chunks stored**: if and only if for every chunk of the
list there is a transaction with it after which no eviction of the call names it. -/
theorem add_chunks_stored_iff {chunks : List Chunk} {full : ℕ → List ℕ}
    (h : s.addChunks chunks full = some s') :
    (∀ c ∈ chunks, (s'.data (.ofCheckSum c.1)).isSome) ↔
      ∀ c ∈ chunks, ∃ j batch, (batches addChunksBatchSize chunks)[j]? = some batch ∧
        c.1 ∈ batch.map Prod.fst ∧
        s.Spared (evictions full (j + 1))
          (evictions full (batches addChunksBatchSize chunks).length) (.ofCheckSum c.1) := by
  refine forall₂_congr fun c hc => ?_
  have hput : ∀ batch : List Chunk, (∃ c' ∈ batch, CheckSumOnDisk.ofCheckSum c.1 =
      .ofCheckSum c'.1) ↔ c.1 ∈ batch.map Prod.fst := fun batch => by
    simp [CheckSumOnDisk.ofCheckSum_injective.eq_iff, eq_comm]
  rw [isSome_data_doAddChunksBatch h]
  simp only [hput]
  refine ⟨?_, Or.inr⟩
  rintro (⟨-, hspared⟩ | hstored)
  · -- a chunk that no eviction names is in some transaction
    rw [← flatten_batches (n := addChunksBatchSize) (by decide) chunks] at hc
    obtain ⟨batch, hbatch, hmem⟩ := List.mem_flatten.mp hc
    obtain ⟨j, hj⟩ := List.mem_iff_getElem?.mp hbatch
    exact ⟨j, batch, hj, List.mem_map_of_mem hmem, hspared.mono (Nat.zero_le _)⟩
  · exact hstored

/-! ### Calls on the aged chunk -/

theorem isSome_data_agedStore : (ChunkDb.agedStore.data k).isSome ↔
    k = .ofCheckSum ChunkDb.oneByte := by
  by_cases h : k = .ofCheckSum ChunkDb.oneByte <;> simp [ChunkDb.agedStore, h]

theorem absentAt_zero {c : Chunk} {batch : List Chunk}
    (h : ¬(s.data (.ofCheckSum c.1)).isSome) : s.absentAt (c :: batch) 0 = true :=
  Option.isNone_iff_eq_none.mpr (Option.not_isSome_iff_eq_none.mp h)

/-- The aged chunk is evicted to make room for the only chunk of the list. -/
theorem add_chunks_stored_iff_run : ∃ s', ChunkDb.agedStore.addChunks [(ChunkDb.otherByte, [8])]
      (fun _ => [0]) = some s' ∧ ∀ c ∈ ([(ChunkDb.otherByte, [8])] : List Chunk),
        (s'.data (.ofCheckSum c.1)).isSome := by
  have habsent : ChunkDb.agedStore.absentAt [(ChunkDb.otherByte, [8])] 0 = true := by
    refine absentAt_zero fun hsome => ?_
    exact absurd (CheckSumOnDisk.ofCheckSum_injective (isSome_data_agedStore.mp hsome)) (by decide)
  have hne : ChunkDb.agedStore.scanLru gcBatch ≠ [] := by
    rw [ChunkDb.scanLru_agedStore]
    exact List.cons_ne_nil _ _
  have h : ChunkDb.agedStore.addChunks [(ChunkDb.otherByte, [8])] (fun _ => [0]) =
      some ((ChunkDb.agedStore.gcLruDirect gcBatch).putAll [(ChunkDb.otherByte, [8])]) :=
    congrArg (Option.bind · _) (if_pos ⟨habsent, hne⟩)
  refine ⟨_, h, (add_chunks_stored_iff h).mpr fun c hc => ?_⟩
  obtain rfl := List.mem_singleton.mp hc
  exact ⟨0, _, rfl, List.mem_singleton_self _, spared_self _⟩

/-- The checksums of seventeen chunks. -/
def seventeen (i : ℕ) : CheckSum := ⟨Vector.replicate 32 (UInt8.ofNat i), .blake3⟩

/-- Seventeen chunks of one byte, of which the first is the aged one. -/
def seventeenChunks : List Chunk := (List.range 17).map fun i => (seventeen i, [7])

/-- The first transaction finds the aged chunk stored and commits; the second one finds the database
full and evicts it. -/
theorem add_chunks_loses_chunk : ∃ s', ChunkDb.agedStore.addChunks seventeenChunks
      (fun i => if i = 1 then [0] else []) = some s' ∧
    (ChunkDb.oneByte, [7]) ∈ seventeenChunks ∧
    s'.data (.ofCheckSum ChunkDb.oneByte) = none := by
  let s₁ := ChunkDb.agedStore.putAll (seventeenChunks.take 16)
  have habsent : s₁.absentAt [(seventeen 16, [7])] 0 = true := by
    refine absentAt_zero fun hsome => ?_
    rcases isSome_data_putAll.mp hsome with hold | ⟨c, hc, heq⟩
    · exact absurd (CheckSumOnDisk.ofCheckSum_injective (isSome_data_agedStore.mp hold)) (by decide)
    · have hother : ∀ c ∈ seventeenChunks.take 16, c.1 ≠ seventeen 16 := by decide
      exact hother c hc (CheckSumOnDisk.ofCheckSum_injective heq).symm
  have hscan : s₁.scanLru gcBatch = [⟨0, .ofCheckSum ChunkDb.oneByte⟩] := by
    rw [scanLru, index_putAll]
    exact ChunkDb.scanLru_agedStore
  have h : ChunkDb.agedStore.addChunks seventeenChunks (fun i => if i = 1 then [0] else []) =
      some ((s₁.gcLruDirect gcBatch).putAll [(seventeen 16, [7])]) :=
    congrArg (Option.bind · _) (if_pos ⟨habsent, hscan ▸ List.cons_ne_nil _ _⟩)
  refine ⟨_, h, by decide, Option.not_isSome_iff_eq_none.mp fun hsome => ?_⟩
  rcases isSome_data_putAll.mp hsome with hold | ⟨c, hc, heq⟩
  · refine ((isSome_data_deleteKeys _ _).mp hold).2 ⟨0, .ofCheckSum ChunkDb.oneByte⟩ ?_ rfl
    rw [hscan]
    exact List.mem_singleton_self _
  · obtain rfl := List.mem_singleton.mp hc
    exact absurd (CheckSumOnDisk.ofCheckSum_injective heq) (by decide)

end Store

namespace ChunkDb

variable {τ : Type*} [DecidableEq τ] {w : Work τ} {req : Request τ}

/-- Some steps of the writer. -/
def WriterSteps : Db τ → Db τ → Prop := Relation.ReflTransGen fun d d' => ∃ e, WriterStep e d d'

theorem doAddChunksSubBatch_run {batch : List Chunk} {todo : List (List Chunk)} {full : List ℕ}
    {s' : Store} {d : Db τ} (h : Store.doAddChunksSubBatch batch full d.store = some s')
    (hpc : d.writer = .put w req (batch :: todo)) :
    ∃ d', WriterSteps d d' ∧ d'.store = s' ∧ d'.writer = .put w req todo := by
  induction full generalizing d with
  | nil =>
    obtain rfl := Option.some.inj h
    exact ⟨_, .head ⟨_, .put hpc⟩ (.head ⟨_, .register rfl⟩ (.single ⟨_, .enqueue rfl⟩)), rfl, rfl⟩
  | cons i full ih =>
    rw [Store.doAddChunksSubBatch] at h
    split_ifs at h with hcond
    obtain ⟨d₁, hsteps₁, hstore₁, hpc₁⟩ : ∃ d₁, WriterSteps d d₁ ∧
        d₁.store = d.store.gcLruDirect gcBatch ∧ d₁.writer = .put w req (batch :: todo) :=
      ⟨_, .head ⟨_, .putMapFull hpc⟩
        (.head ⟨_, .evict rfl hcond.2⟩ (.single ⟨_, .unregister rfl⟩)), rfl, rfl⟩
    rw [← hstore₁] at h
    obtain ⟨d', hsteps, hstore, hpc'⟩ := ih h hpc₁
    exact ⟨d', hsteps₁.trans hsteps, hstore, hpc'⟩

/-- The writer takes the steps of a call of `add_chunks`. -/
theorem doAddChunksBatch_run {todo : List (List Chunk)} {full : ℕ → List ℕ} {s' : Store} {d : Db τ}
    (h : Store.doAddChunksBatch todo full d.store = some s') (hpc : d.writer = .put w req todo) :
    ∃ d', WriterSteps d d' ∧ d'.store = s' ∧ d'.writer = .put w req [] := by
  induction todo generalizing d full with
  | nil =>
    obtain rfl := Option.some.inj h
    exact ⟨d, .refl, rfl, hpc⟩
  | cons batch rest ih =>
    obtain ⟨s₁, h₁, hrest⟩ := Option.bind_eq_some_iff.mp h
    obtain ⟨d₁, hsteps₁, rfl, hpc₁⟩ := doAddChunksSubBatch_run h₁ hpc
    obtain ⟨d', hsteps, hstore, hpc'⟩ := ih hrest hpc₁
    exact ⟨d', hsteps₁.trans hsteps, hstore, hpc'⟩

end ChunkDb

end DistillFs
