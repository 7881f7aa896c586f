import DistillFs.Backend.Peer.Paging

/-!
# Repair passes over the chunk database

`repair` takes one batch of the chunk database at each tick of the refresh loop and registers those
of its chunks of which the index does not list the node as an owner. It keeps its place in a cursor,
and the empty batch after the last key sets the cursor back to `None`: this ends a pass.

The cursor is moved before `repair_missing_owners` is called, so a batch for which this fails is not
taken again in the same pass, unlike in `refresh`, where the failure ends the pass and the next one
begins at the first key.

## Main definitions

* `repair`, `RepairCall`, `cursorAt`, `batchAt`.
* `Pass`: a pass of `repair`; `AllAnswered`, `Covered`: what a pass may achieve.

## Main results

* `mem_batchAt_or_lt`: in a pass, each valid key was read or is above the cursor.
* `repair_pass`: a pass covers the store if, and in a store of this program only if, no call of
  `repair_missing_owners` fails in it.
-/

namespace DistillFs

open Foundation

namespace CheckSumOnDisk

theorem replicate_zero_le (l : List ℕ) : List.replicate l.length 0 ≤ l := by
  induction l with
  | nil => exact le_rfl
  | cons a l ih =>
    rcases Nat.eq_zero_or_pos a with rfl | ha
    · rcases ih.eq_or_lt with heq | hlt
      · exact (congrArg (0 :: ·) heq).le
      · exact (List.cons_lt_cons_iff.mpr (Or.inr ⟨rfl, hlt⟩)).le
    · exact (List.cons_lt_cons_iff.mpr (Or.inl ha)).le

/-- The stored form of the checksum of a valid key is the key with zeros in the reserved bytes, so
it is not above the key. -/
theorem ofCheckSum_checkSum_le {cs : CheckSumOnDisk} (hvalid : cs.isValid = true) :
    .ofCheckSum cs.checkSum ≤ cs := by
  have hrank : ∀ k : CheckSumOnDisk, k.rank =
      (k.raw.toList ++ [k.method]).map UInt8.toNat ++ k.reserved.toList.map UInt8.toNat :=
    fun k => by rw [← List.map_append, List.append_assoc]; rfl
  have hzero : (CheckSumOnDisk.mk cs.raw cs.method (.replicate 7 0)).rank ≤ cs.rank := by
    rw [hrank, hrank]
    have hle := replicate_zero_le (cs.reserved.toList.map UInt8.toNat)
    rw [List.length_map, Vector.length_toList] at hle
    rcases hle.eq_or_lt with heq | hlt
    · exact (congrArg (_ ++ ·) heq).le
    · exact (List.append_left_lt hlt).le
  have hvalid' : (⟨cs.raw, cs.method, .replicate 7 0⟩ : CheckSumOnDisk).isValid = true := hvalid
  have hform := ChunkDb.ofCheckSum_checkSum hvalid' rfl
  exact hform.le.trans hzero

end CheckSumOnDisk

namespace ChunkDb

/-- What one call of `repair` meets. -/
structure RepairCall where
  /-- The failure to read the batch. -/
  read : Option IoError
  repairMissingOwners : List CheckSum → Except IoError (Option ℕ)

/-- `repair`: its result, and the repair cursor that it leaves. -/
def repair (keys : Finset CheckSumOnDisk) (call : RepairCall) (repairCursor : Option CheckSum) :
    Except IoError (Option ℕ) × Option CheckSum :=
  match call.read with
  | some err => (.error err, repairCursor)
  | none =>
    let batch := nextChunkBatch keys repairCursor indexRepairBatchSize
    if batch = [] then (.ok none, none) else (call.repairMissingOwners batch, batch.getLast?)

variable (keys : Finset CheckSumOnDisk) (calls : ℕ → RepairCall)

/-- The repair cursor after `n` calls. -/
def cursorAt : ℕ → Option CheckSum
  | 0 => none
  | n + 1 => (repair keys (calls n) (cursorAt n)).2

/-- The batch that call `n` reads, if it can read it. -/
def batchAt (n : ℕ) : List CheckSum :=
  nextChunkBatch keys (cursorAt keys calls n) indexRepairBatchSize

/-- The calls from `m` to `n` are a pass: it starts at the cursor `None`, and call `n` is the first
that reads an empty batch, which sets the cursor back to `None`. -/
structure Pass (m n : ℕ) : Prop where
  le : m ≤ n
  start : cursorAt keys calls m = none
  readLast : (calls n).read = none
  last : batchAt keys calls n = []
  inner : ∀ k, m ≤ k → k < n → (calls k).read = none → batchAt keys calls k ≠ []

/-- No call of `repair_missing_owners` fails in the pass. -/
def AllAnswered (m n : ℕ) : Prop :=
  ∀ k, m ≤ k → k < n → (calls k).read = none →
    ∃ count, (calls k).repairMissingOwners (batchAt keys calls k) = .ok count

/-- Each valid checksum of the store is in a batch of the pass for which `repair_missing_owners`
returned `Ok`. -/
def Covered (m n : ℕ) : Prop :=
  ∀ key ∈ keys, key.isValid = true → ∃ k, m ≤ k ∧ k < n ∧ (calls k).read = none ∧
    key.checkSum ∈ batchAt keys calls k ∧
    ∃ count, (calls k).repairMissingOwners (batchAt keys calls k) = .ok count

variable {keys calls} {m n k : ℕ} {key : CheckSumOnDisk}

theorem cursorAt_succ_of_read {err : IoError} (h : (calls k).read = some err) :
    cursorAt keys calls (k + 1) = cursorAt keys calls k := by
  rw [cursorAt, repair, h]

theorem cursorAt_succ (h : (calls k).read = none) :
    cursorAt keys calls (k + 1) = (batchAt keys calls k).getLast? := by
  rw [cursorAt, repair, h]
  dsimp only
  split_ifs with hnil
  · rw [batchAt, hnil]
    rfl
  · rfl

theorem batchAt_eq : batchAt keys calls k =
    (page (validKeys keys) ((cursorAt keys calls k).map .ofCheckSum)
      indexRepairBatchSize).map CheckSumOnDisk.checkSum :=
  nextChunkBatch_eq_page ..

/-- In a pass, a valid key is in a batch that was read, or above the cursor. -/
theorem mem_batchAt_or_lt (hstart : cursorAt keys calls m = none)
    (hinner : ∀ j, m ≤ j → j < k → (calls j).read = none → batchAt keys calls j ≠ [])
    (hmk : m ≤ k) (hkey : key ∈ validKeys keys) :
    (∃ j, m ≤ j ∧ j < k ∧ (calls j).read = none ∧ key.checkSum ∈ batchAt keys calls j) ∨
      ∀ last ∈ (cursorAt keys calls k).map CheckSumOnDisk.ofCheckSum, last < key := by
  induction k, hmk using Nat.le_induction with
  | base =>
    rw [hstart]
    exact Or.inr nofun
  | succ k hmk ih =>
    rcases ih fun j hmj hjk => hinner j hmj (Nat.lt_succ_of_lt hjk) with
      ⟨j, hmj, hjk, hread, hmem⟩ | habove
    · exact Or.inl ⟨j, hmj, Nat.lt_succ_of_lt hjk, hread, hmem⟩
    · cases hread : (calls k).read with
      | some err =>
        rw [cursorAt_succ_of_read hread]
        exact Or.inr habove
      | none =>
        have hcases : _ ∈ page _ _ indexRepairBatchSize ∨ _ := mem_page_or_lt hkey habove
        rcases hcases with hpage | hpage
        · refine Or.inl ⟨k, hmk, Nat.lt_succ_self k, hread, ?_⟩
          rw [batchAt_eq]
          exact List.mem_map_of_mem hpage
        · refine Or.inr fun last hlast => ?_
          obtain ⟨cs, hcs, rfl⟩ := Option.mem_map.mp hlast
          rw [cursorAt_succ hread, batchAt_eq] at hcs
          obtain ⟨b, hb, rfl⟩ := List.mem_map.mp (List.mem_of_getLast? hcs)
          have hvalid := (Finset.mem_filter.mp (mem_of_mem_page hb).1).2
          exact (CheckSumOnDisk.ofCheckSum_checkSum_le hvalid).trans_lt (hpage b hb)

/-- Whatever fails, each valid checksum is in a batch that the pass reads. -/
theorem Pass.exists_batchAt (h : Pass keys calls m n) (hkey : key ∈ validKeys keys) :
    ∃ k, m ≤ k ∧ k < n ∧ (calls k).read = none ∧ key.checkSum ∈ batchAt keys calls k := by
  refine (mem_batchAt_or_lt h.start h.inner h.le hkey).resolve_right ?_
  have hlast := h.last
  rw [batchAt_eq, List.map_eq_nil_iff] at hlast
  exact page_eq_nil (by decide) hlast hkey

/-! ### The batches of a pass -/

/-- The stored forms of a batch are a page of the valid keys. -/
theorem map_batchAt (hreserved : ZeroReserved keys) :
    (batchAt keys calls k).map CheckSumOnDisk.ofCheckSum =
      page (validKeys keys) ((cursorAt keys calls k).map .ofCheckSum) indexRepairBatchSize := by
  rw [batchAt_eq, List.map_map]
  refine (List.map_congr_left fun cs hcs => ?_).trans (List.map_id _)
  obtain ⟨hmem, hvalid⟩ := Finset.mem_filter.mp (mem_of_mem_page hcs).1
  exact ofCheckSum_checkSum hvalid (hreserved cs hmem hvalid)

/-- A checksum that a call of the pass has read is not above the cursor of the later ones. -/
theorem Pass.le_cursorAt (h : Pass keys calls m n) (hreserved : ZeroReserved keys) {j : ℕ}
    {cs : CheckSum} (hmj : m ≤ j) (hread : (calls j).read = none)
    (hcs : cs ∈ batchAt keys calls j) (hjk : j < k) (hkn : k ≤ n) :
    ∃ last ∈ (cursorAt keys calls k).map CheckSumOnDisk.ofCheckSum, .ofCheckSum cs ≤ last := by
  have hpage : ∀ k, (batchAt keys calls k).map CheckSumOnDisk.ofCheckSum = _ :=
    fun _ => map_batchAt hreserved
  have hcursor : ∀ k, (calls k).read = none → (cursorAt keys calls (k + 1)).map .ofCheckSum =
      ((batchAt keys calls k).map CheckSumOnDisk.ofCheckSum).getLast? := fun k hk => by
    rw [cursorAt_succ hk, List.getLast?_map]
  induction k, hjk using Nat.le_induction with
  | base =>
    rw [hcursor j hread]
    refine le_getLast ?_ (List.mem_map_of_mem hcs)
    rw [hpage j]
    exact pairwise_page ..
  | succ k hjk ih =>
    obtain ⟨last, hlast, hle⟩ := ih (by omega)
    cases hk : (calls k).read with
    | some err =>
      rw [cursorAt_succ_of_read hk]
      exact ⟨last, hlast, hle⟩
    | none =>
      have hne : (batchAt keys calls k).map CheckSumOnDisk.ofCheckSum ≠ [] :=
        mt List.map_eq_nil_iff.mp (h.inner k (by omega) (by omega) hk)
      obtain ⟨next, hnext⟩ := Option.ne_none_iff_exists'.mp (mt List.getLast?_eq_none_iff.mp hne)
      have hmem := List.mem_of_getLast? hnext
      rw [hpage k] at hmem
      rw [hcursor k hk, hnext]
      exact ⟨next, rfl, hle.trans ((mem_of_mem_page hmem).2 last hlast).le⟩

/-- No checksum is in two batches of a pass. -/
theorem Pass.eq_of_mem_batchAt (h : Pass keys calls m n) (hreserved : ZeroReserved keys) {j : ℕ}
    {cs : CheckSum} (hmj : m ≤ j) (hjn : j < n) (hreadj : (calls j).read = none)
    (hj : cs ∈ batchAt keys calls j) (hmk : m ≤ k) (hkn : k < n)
    (hreadk : (calls k).read = none) (hk : cs ∈ batchAt keys calls k) : j = k := by
  have hlate : ∀ i l, m ≤ i → (calls i).read = none → cs ∈ batchAt keys calls i → i < l → l < n →
      cs ∉ batchAt keys calls l := fun i l hmi hread hi hil hln hl => by
    obtain ⟨last, hlast, hle⟩ := h.le_cursorAt hreserved hmi hread hi hil hln.le
    have hpage := List.mem_map_of_mem (f := CheckSumOnDisk.ofCheckSum) hl
    rw [map_batchAt hreserved] at hpage
    exact absurd ((mem_of_mem_page hpage).2 last hlast) hle.not_gt
  rcases lt_trichotomy j k with hlt | heq | hgt
  · exact absurd hk (hlate j k hmj hreadj hj hlt hkn)
  · exact heq
  · exact absurd hj (hlate k j hmk hreadk hk hgt hjn)

/-- **A pass of `repair`.** If no call of `repair_missing_owners` fails in it, the pass covers the
store. Where the reserved bytes of the keys are zeros, as this program stores them, it covers the
store only then: the checksums of a failed call are in no other batch of the pass. -/
theorem repair_pass (h : Pass keys calls m n) :
    (AllAnswered keys calls m n → Covered keys calls m n) ∧
    (ZeroReserved keys → (Covered keys calls m n ↔ AllAnswered keys calls m n)) := by
  have hcovered : AllAnswered keys calls m n → Covered keys calls m n := by
    intro hanswered key hkey hvalid
    obtain ⟨k, hmk, hkn, hread, hmem⟩ :=
      h.exists_batchAt (Finset.mem_filter.mpr ⟨hkey, hvalid⟩)
    exact ⟨k, hmk, hkn, hread, hmem, hanswered k hmk hkn hread⟩
  refine ⟨hcovered, fun hreserved => ⟨fun hcov k hmk hkn hread => ?_, hcovered⟩⟩
  obtain ⟨cs, hcs⟩ := List.exists_mem_of_ne_nil _ (h.inner k hmk hkn hread)
  have hkey := List.mem_map_of_mem (f := CheckSumOnDisk.ofCheckSum) hcs
  rw [map_batchAt hreserved] at hkey
  obtain ⟨hmem, hvalid⟩ := Finset.mem_filter.mp (mem_of_mem_page hkey).1
  obtain ⟨j, hmj, hjn, hreadj, hcsj, hok⟩ := hcov _ hmem hvalid
  rw [CheckSumOnDisk.checkSum_ofCheckSum] at hcsj
  rwa [h.eq_of_mem_batchAt hreserved hmj hjn hreadj hcsj hmk hkn hread hcs] at hok

/-! ### A failed repair -/

/-- A key of the store. -/
def storedKey : CheckSumOnDisk := ⟨.replicate 32 0, 0, .replicate 7 0⟩

/-- The index does not answer the first call; the later ones find nothing to repair. -/
def firstFails (n : ℕ) : RepairCall where
  read := none
  repairMissingOwners _ := if n = 0 then .error ⟨.timedOut, "redis"⟩ else .ok (some 0)

theorem nextChunkBatch_storedKey :
    nextChunkBatch {storedKey} none indexRepairBatchSize = [storedKey.checkSum] ∧
      nextChunkBatch {storedKey} (some storedKey.checkSum) indexRepairBatchSize = [] := by
  have hlast : ¬CheckSumOnDisk.ofCheckSum storedKey.checkSum < storedKey := lt_irrefl storedKey
  constructor
  · change collectValid 256 (Finset.sort {storedKey} _) [] = _
    rw [Finset.sort_singleton]
    rfl
  · change collectValid 256 (Finset.sort (Finset.filter _ {storedKey}) _) [] = _
    rw [Finset.filter_singleton, if_neg hlast, Finset.sort_empty]
    rfl

theorem pass_of_answer (calls : ℕ → RepairCall) (hread : ∀ k, (calls k).read = none) :
    Pass {storedKey} calls 0 1 ∧ batchAt {storedKey} calls 0 = [storedKey.checkSum] := by
  have hfirst : batchAt {storedKey} calls 0 = [storedKey.checkSum] := nextChunkBatch_storedKey.1
  have hlast : batchAt {storedKey} calls 1 = [] := by
    rw [batchAt, cursorAt_succ (hread 0), hfirst]
    exact nextChunkBatch_storedKey.2
  refine ⟨⟨Nat.zero_le 1, rfl, hread 1, hlast, fun k _ hk _ => ?_⟩, hfirst⟩
  obtain rfl := Nat.lt_one_iff.mp hk
  rw [hfirst]
  exact List.cons_ne_nil _ _

/-- A pass with no failure. -/
theorem repair_pass_answered : Covered {storedKey} (fun n => firstFails (n + 1)) 0 1 :=
  (repair_pass (pass_of_answer _ fun _ => rfl).1).1 fun _ _ _ _ => ⟨some 0, rfl⟩

/-- The call fails for the only checksum, and the next one sets the cursor back: the pass is over
and has not covered the checksum. -/
theorem repair_skips : Pass {storedKey} firstFails 0 1 ∧ ¬Covered {storedKey} firstFails 0 1 := by
  refine ⟨(pass_of_answer _ fun _ => rfl).1, fun hcov => ?_⟩
  obtain ⟨k, -, hk, -, -, count, hok⟩ := hcov storedKey (Finset.mem_singleton_self _) rfl
  obtain rfl := Nat.lt_one_iff.mp hk
  cases hok

end ChunkDb

end DistillFs
