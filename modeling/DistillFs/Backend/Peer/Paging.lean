import DistillFs.Backend.Peer.ChunkIndex
import DistillFs.Foundation.PagedScan

/-!
# Reading the keys of the chunk database in batches

`next_chunk_batch` lists the valid checksums behind a cursor, a number of them at most. `sync` and
`refresh` call it again and again, with the last checksum of each batch as the next cursor, until a
batch is empty. Chunks come and go between the calls.

The cursor is a checksum, and its stored form has zeros in the reserved bytes. So a stored key with
other reserved bytes lies behind the cursor that was made from it. No writer of this program stores
such a key.

## Main definitions

* `ChunkDb.nextChunkBatch`, `ChunkDb.scan`, `ChunkDb.ScanEnded`.

## Main results

* `ChunkDb.scan_exact`: what a scan returns, and that it ends.
* `ChunkDb.reserved_key_repeated`: a key with other reserved bytes is returned again and again.
-/

namespace DistillFs

open Foundation

/-- In the order of a finite set, the elements that pass a test come in the order of their set. -/
theorem filter_sort {α : Type*} [LinearOrder α] (s : Finset α) (p : α → Bool) :
    (s.sort (· ≤ ·)).filter p = (s.filter fun a => p a).sort := by
  have hset : ((s.sort (· ≤ ·)).filter p).toFinset = s.filter fun a => p a := by
    ext a
    simp
  rw [← hset]
  exact ((List.toFinset_sort (· ≤ ·) ((s.sort_nodup _).filter _)).mpr
    ((s.pairwise_sort _).filter _)).symm

namespace ChunkDb

/-- The loop of `next_chunk_batch` over the keys that the database lists. -/
def collectValid (batchSize : ℕ) : List CheckSumOnDisk → List CheckSum → List CheckSum
  | [], batch => batch
  | cs :: rest, batch =>
    if cs.isValid then
      let batch := batch ++ [cs.checkSum]
      if batchSize ≤ batch.length then batch else collectValid batchSize rest batch
    else collectValid batchSize rest batch

/-- `next_chunk_batch`. The database lists its keys in the order of their bytes. -/
def nextChunkBatch (keys : Finset CheckSumOnDisk) (cursor : Option CheckSum) (batchSize : ℕ) :
    List CheckSum :=
  let batchSize := max batchSize 1
  match cursor.map CheckSumOnDisk.ofCheckSum with
  | some last => collectValid batchSize (listing (keys.filter fun cs => last < cs)) []
  | none => collectValid batchSize (listing keys) []

theorem collectValid_eq {batchSize : ℕ} (l : List CheckSumOnDisk) {batch : List CheckSum}
    (h : batch.length < batchSize) :
    collectValid batchSize l batch = batch ++
      ((l.filter fun cs => cs.isValid).take (batchSize - batch.length)).map
        CheckSumOnDisk.checkSum := by
  induction l generalizing batch with
  | nil => simp [collectValid]
  | cons cs rest ih =>
    rw [collectValid]
    split_ifs with hvalid
    · have hlen : (batch ++ [cs.checkSum]).length = batch.length + 1 := by simp
      rw [List.filter_cons_of_pos hvalid]
      dsimp only
      split_ifs with hfull
      · rw [hlen] at hfull
        rw [show batchSize - batch.length = 1 by omega]
        rfl
      · rw [hlen] at hfull
        rw [ih (by omega), hlen,
          show batchSize - batch.length = batchSize - (batch.length + 1) + 1 by omega,
          List.take_succ_cons, List.map_cons, List.append_assoc]
        rfl
    · rw [ih h, List.filter_cons_of_neg hvalid]

/-- A batch is a page of the valid keys. -/
theorem nextChunkBatch_eq_page (keys : Finset CheckSumOnDisk) (cursor : Option CheckSum)
    (batchSize : ℕ) :
    nextChunkBatch keys cursor batchSize =
      (page (keys.filter fun cs => cs.isValid) (cursor.map CheckSumOnDisk.ofCheckSum)
        (max batchSize 1)).map CheckSumOnDisk.checkSum := by
  have hloop : ∀ s : Finset CheckSumOnDisk, collectValid (max batchSize 1) (listing s) [] =
      ((s.filter fun cs => cs.isValid).sort.take (max batchSize 1)).map
        CheckSumOnDisk.checkSum := fun s => by
    rw [collectValid_eq _ (by simp), List.length_nil, Nat.sub_zero, List.nil_append, listing,
      filter_sort]
  unfold nextChunkBatch page above
  cases cursor with
  | none =>
    refine (hloop keys).trans ?_
    rw [Finset.filter_true_of_mem (s := keys.filter _) fun _ _ _ h => by cases h]
  | some last =>
    refine (hloop _).trans ?_
    have hset : (keys.filter fun cs => .ofCheckSum last < cs).filter (fun cs => cs.isValid) =
        (keys.filter fun cs => cs.isValid).filter
          fun cs => ∀ l ∈ (some last).map CheckSumOnDisk.ofCheckSum, l < cs := by
      rw [Finset.filter_comm]
      exact Finset.filter_congr fun cs _ => by simp
    rw [hset]

/-- The tasks of a node read these batches. -/
theorem nextChunkBatch_eq (keys : Finset CheckSumOnDisk) (cursor : Option CheckSum)
    (batchSize : ℕ) :
    DistillFs.nextChunkBatch keys cursor batchSize = nextChunkBatch keys cursor batchSize := by
  have hset : keys.filter (fun cs => cs.isValid ∧ ∀ last ∈ cursor, .ofCheckSum last < cs) =
      above (keys.filter fun cs => cs.isValid) (cursor.map CheckSumOnDisk.ofCheckSum) := by
    rw [above, Finset.filter_filter]
    exact Finset.filter_congr fun cs _ => by cases cursor <;> simp
  rw [nextChunkBatch_eq_page, DistillFs.nextChunkBatch, page, hset]

/-! ### A whole scan -/

/-- The cursor, and the checksums returned, after `n` calls of a scan; the database has the keys
`keys i` at call `i`. -/
def scan (keys : ℕ → Finset CheckSumOnDisk) (batchSize : ℕ) : ℕ → Option CheckSum × List CheckSum
  | 0 => (none, [])
  | n + 1 =>
    let r := scan keys batchSize n
    let batch := nextChunkBatch (keys n) r.1 batchSize
    if batch = [] then r else (batch.getLast?, r.2 ++ batch)

/-- Call `n` of a scan returns an empty batch. -/
def ScanEnded (keys : ℕ → Finset CheckSumOnDisk) (batchSize n : ℕ) : Prop :=
  nextChunkBatch (keys n) (scan keys batchSize n).1 batchSize = []

/-- The reserved bytes of a valid key are zeros. -/
def ZeroReserved (keys : Finset CheckSumOnDisk) : Prop :=
  ∀ cs ∈ keys, cs.isValid → cs.reserved = .replicate 7 0

/-- The valid ones of some keys. -/
def validKeys (keys : Finset CheckSumOnDisk) : Finset CheckSumOnDisk :=
  keys.filter fun cs => cs.isValid

variable {keys : ℕ → Finset CheckSumOnDisk} {batchSize n : ℕ}

/-- A valid key whose reserved bytes are zeros is the stored form of its checksum. -/
theorem ofCheckSum_checkSum {cs : CheckSumOnDisk} (hvalid : cs.isValid = true)
    (hreserved : cs.reserved = .replicate 7 0) : .ofCheckSum cs.checkSum = cs := by
  refine CheckSumOnDisk.ext rfl ?_ hreserved.symm
  change (CheckSumMethod.ofByte cs.method).toByte = cs.method
  have hlt : cs.method < 2 := of_decide_eq_true hvalid
  by_cases h0 : cs.method = 0
  · rw [h0]
    rfl
  · by_cases h1 : cs.method = 1
    · rw [h1]
      rfl
    · rw [UInt8.lt_iff_toNat_lt] at hlt
      rw [← UInt8.toNat_inj] at h0 h1
      change cs.method.toNat < 2 at hlt
      change cs.method.toNat ≠ 0 at h0
      change cs.method.toNat ≠ 1 at h1
      omega

/-- A scan of the database is a scan of its valid keys. -/
theorem scan_eq (hreserved : ∀ i, ZeroReserved (keys i)) (n : ℕ) :
    (scan keys batchSize n).2.map CheckSumOnDisk.ofCheckSum =
        returned (fun i => validKeys (keys i)) (max batchSize 1) n ∧
      (scan keys batchSize n).1.map CheckSumOnDisk.ofCheckSum =
        (returned (fun i => validKeys (keys i)) (max batchSize 1) n).getLast? := by
  induction n with
  | zero => exact ⟨rfl, rfl⟩
  | succ n ih =>
    have hbatch : (nextChunkBatch (keys n) (scan keys batchSize n).1 batchSize).map
        CheckSumOnDisk.ofCheckSum = page (validKeys (keys n))
          (returned (fun i => validKeys (keys i)) (max batchSize 1) n).getLast?
          (max batchSize 1) := by
      rw [nextChunkBatch_eq_page, ih.2, List.map_map]
      refine (List.map_congr_left fun cs hcs => ?_).trans (List.map_id _)
      obtain ⟨hmem, hvalid⟩ := Finset.mem_filter.mp (mem_of_mem_page hcs).1
      exact ofCheckSum_checkSum hvalid (hreserved n cs hmem hvalid)
    rw [scan, returned]
    split_ifs with hnil
    · rw [hnil, List.map_nil] at hbatch
      rw [← hbatch, List.append_nil]
      exact ih
    · refine ⟨?_, ?_⟩
      · rw [List.map_append, ih.1, hbatch]
      · rw [← hbatch, List.getLast?_append, List.getLast?_map,
          List.getLast?_eq_some_getLast hnil]
        rfl

theorem scanEnded_iff (hreserved : ∀ i, ZeroReserved (keys i)) :
    ScanEnded keys batchSize n ↔ EndedAt (fun i => validKeys (keys i)) (max batchSize 1) n := by
  rw [ScanEnded, nextChunkBatch_eq_page, (scan_eq hreserved n).2, List.map_eq_nil_iff]
  rfl

/-- **A scan in batches.** Whatever happens to the chunks between its calls, a scan returns no
checksum twice and only valid ones that were there; when it ends, it has returned every valid
checksum that was there at each of its calls; and within a finite set of keys, such as those of a
store that does not change, it ends. -/
theorem scan_exact (hreserved : ∀ i, ZeroReserved (keys i)) :
    (∀ n, (scan keys batchSize n).2.Nodup ∧ ∀ cs ∈ (scan keys batchSize n).2,
      (CheckSumOnDisk.ofCheckSum cs).isValid ∧ ∃ i < n, .ofCheckSum cs ∈ keys i) ∧
    (∀ n, ScanEnded keys batchSize n → ∀ cs, (CheckSumOnDisk.ofCheckSum cs).isValid →
      (∀ i ≤ n, .ofCheckSum cs ∈ keys i) → (scan keys batchSize n).2.count cs = 1) ∧
    ∀ K : Finset CheckSumOnDisk, (∀ i, keys i ⊆ K) → ∃ n ≤ K.card, ScanEnded keys batchSize n := by
  have hnodup : ∀ n, (scan keys batchSize n).2.Nodup := fun n => by
    have hlt := pairwise_returned (fun i => validKeys (keys i)) (max batchSize 1) n
    rw [← (scan_eq hreserved n).1] at hlt
    exact List.Nodup.of_map _ (hlt.imp ne_of_lt)
  refine ⟨fun n => ⟨hnodup n, fun cs hcs => ?_⟩, fun n hend cs hvalid hkeys => ?_, fun K hK => ?_⟩
  · have hmem := List.mem_map_of_mem (f := CheckSumOnDisk.ofCheckSum) hcs
    rw [(scan_eq hreserved n).1] at hmem
    obtain ⟨i, hi, hin⟩ := exists_of_mem_returned hmem
    obtain ⟨hkey, hvalid⟩ := Finset.mem_filter.mp hin
    exact ⟨hvalid, i, hi, hkey⟩
  · have hmem : .ofCheckSum cs ∈ returned (fun i => validKeys (keys i)) (max batchSize 1) n :=
      mem_returned_of_endedAt (by omega)
        (fun i hi => Finset.mem_filter.mpr ⟨hkeys i hi, hvalid⟩) ((scanEnded_iff hreserved).mp hend)
    rw [← (scan_eq hreserved n).1, List.mem_map] at hmem
    obtain ⟨cs', hcs', heq⟩ := hmem
    rw [CheckSumOnDisk.ofCheckSum_injective heq] at hcs'
    exact List.count_eq_one_of_mem (hnodup n) hcs'
  · have hends : ∃ n ≤ K.card, EndedAt (fun i => validKeys (keys i)) (max batchSize 1) n :=
      exists_endedAt fun i => (Finset.filter_subset ..).trans (hK i)
    obtain ⟨n, hn, hend⟩ := hends
    exact ⟨n, hn, (scanEnded_iff hreserved).mpr hend⟩

/-- The keys of a store with one checksum, and with a key of an unknown method that goes after the
first call. -/
def twoKeys (i : ℕ) : Finset CheckSumOnDisk :=
  if i = 0 then {⟨.replicate 32 7, 0, .replicate 7 0⟩, ⟨.replicate 32 3, 9, .replicate 7 5⟩}
  else {⟨.replicate 32 7, 0, .replicate 7 0⟩}

theorem scan_exact_twoKeys : ∃ n, ScanEnded twoKeys 1 n ∧
    (scan twoKeys 1 n).2.count ⟨.replicate 32 7, .sha256⟩ = 1 := by
  have hreserved : ∀ i, ZeroReserved (twoKeys i) := by
    intro i cs hcs hvalid
    unfold twoKeys at hcs
    split_ifs at hcs
    · rcases Finset.mem_insert.mp hcs with rfl | hcs
      · rfl
      · obtain rfl := Finset.mem_singleton.mp hcs
        cases hvalid
    · obtain rfl := Finset.mem_singleton.mp hcs
      rfl
  have hsub : ∀ i, twoKeys i ⊆ twoKeys 0 := by
    intro i
    by_cases hi : i = 0
    · rw [hi]
    · rw [twoKeys, if_neg hi]
      exact Finset.singleton_subset_iff.mpr (Finset.mem_insert_self ..)
  obtain ⟨-, hcount, hends⟩ := @scan_exact twoKeys 1 hreserved
  obtain ⟨n, -, hend⟩ := hends (twoKeys 0) hsub
  refine ⟨n, hend, hcount n hend _ rfl fun i _ => ?_⟩
  unfold twoKeys
  split_ifs
  · exact Finset.mem_insert_self ..
  · exact Finset.mem_singleton_self _

/-- A key whose reserved bytes are not all zeros. -/
def reservedKey : CheckSumOnDisk := ⟨.replicate 32 0, 0, (Vector.replicate 7 0).set 6 1⟩

/-- Its batch has it, whether the scan begins or has just returned it. -/
theorem nextChunkBatch_reservedKey {cursor : Option CheckSum}
    (h : ∀ last ∈ cursor, last = reservedKey.checkSum) :
    nextChunkBatch {reservedKey} cursor 1 = [reservedKey.checkSum] := by
  have hbehind : CheckSumOnDisk.ofCheckSum reservedKey.checkSum < reservedKey :=
    CheckSumOnDisk.lt_iff_bytes.mpr (by decide)
  unfold nextChunkBatch
  cases cursor with
  | none =>
    change collectValid 1 (Finset.sort {reservedKey} _) [] = _
    rw [Finset.sort_singleton]
    rfl
  | some last =>
    obtain rfl := h last rfl
    change collectValid 1 (Finset.sort (Finset.filter _ {reservedKey}) _) [] = _
    rw [Finset.filter_singleton, if_pos hbehind, Finset.sort_singleton]
    rfl

/-- A store with this key only is scanned forever: each batch has its checksum again. -/
theorem reserved_key_repeated : reservedKey.isValid = true ∧
    (∀ n, (scan (fun _ => {reservedKey}) 1 n).2 = List.replicate n reservedKey.checkSum) ∧
    ¬∃ n, ScanEnded (fun _ => {reservedKey}) 1 n := by
  have hscan : ∀ n, (∀ last ∈ (scan (fun _ => {reservedKey}) 1 n).1,
      last = reservedKey.checkSum) ∧
      (scan (fun _ => {reservedKey}) 1 n).2 = List.replicate n reservedKey.checkSum := by
    intro n
    induction n with
    | zero => exact ⟨nofun, rfl⟩
    | succ n ih =>
      rw [scan, nextChunkBatch_reservedKey ih.1, if_neg (List.cons_ne_nil _ _)]
      refine ⟨fun last hlast => (Option.some.inj hlast).symm, ?_⟩
      rw [ih.2, List.replicate_succ']
  refine ⟨rfl, fun n => (hscan n).2, ?_⟩
  rintro ⟨n, hend⟩
  rw [ScanEnded, nextChunkBatch_reservedKey (hscan n).1] at hend
  cases hend

end ChunkDb

end DistillFs
