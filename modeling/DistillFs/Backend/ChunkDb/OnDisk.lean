import DistillFs.Backend.ChunkDb.Collect
import DistillFs.Backend.Peer.Paging
import DistillFs.Foundation.ByteTable

/-!
# The chunk database as bytes

The three tables of the chunk database are tables of bytes. A checksum is written in its layout, a
time as eight bytes, and a key of the access index as both. The transactions of the program encode
and decode whatever they touch, and what cannot be decoded is an error, or a panic where the layout
is cast.

The tables of the other modules have the values themselves. Here is the same database with the
bytes: whatever clients, the writer thread and other processes do, the bytes are those of the tables
at any time, and what the program reads out of the bytes is what it would read from the tables.
Nothing that it wrote ever fails to be decoded.

## Main definitions

* `CheckSumOnDisk.codec`, `AccessTime.codec`, `AccessKey.codec`.
* `ChunkTables` and its transactions.
* `ChunkTables.Holds`, `ChunkTables.Reads`.
* `ChunkDb.diskSystem`: a run of the program with its bytes.

## Main results

* `ChunkDb.bytes_hold_store`: the bytes hold the tables, and are read as them.
-/

namespace DistillFs

open Foundation

/-! ### Codecs -/

/-- A cast of the bytes. It panics if their number is not that of the layout. -/
def CheckSumOnDisk.bytesDecode (bytes : List UInt8) : Except String CheckSumOnDisk :=
  if h : bytes.length = 40 then
    .ok ⟨⟨(bytes.take 32).toArray, by simp [h]⟩, bytes[32],
      ⟨(bytes.drop 33).toArray, by simp [h]⟩⟩
  else .error "from_bytes>SizeMismatch"

theorem CheckSumOnDisk.bytesDecode_bytes (cs : CheckSumOnDisk) : bytesDecode cs.bytes = .ok cs := by
  have hraw : cs.raw.toList.length = 32 := by simp
  have hlen : cs.bytes.length = 40 := by simp [bytes]
  rw [bytesDecode, dif_pos hlen]
  refine congrArg Except.ok (CheckSumOnDisk.ext ?_ ?_ ?_)
  · exact Vector.toList_inj.mp (List.take_left' hraw)
  · exact (List.getElem_append_right hraw.le).trans (by simp)
  · refine Vector.toList_inj.mp ?_
    change cs.bytes.drop (32 + 1) = _
    rw [← List.drop_drop, bytes, List.drop_left' hraw]
    rfl

def CheckSumOnDisk.codec : Codec CheckSumOnDisk where
  encode := bytes
  decode := bytesDecode
  Fits _ := True
  decode_encode _ := bytesDecode_bytes _

theorem CheckSumOnDisk.codec_ordered : codec.Ordered := fun _ _ => le_iff_bytes

/-- The time of an access. -/
def AccessTime.codec : Codec ℕ where
  encode := toBytes 8
  decode bytes :=
    if bytes.length = 8 then .ok (ofBytes bytes) else .error "Invalid access time length"
  Fits secs := secs < 256 ^ 8
  decode_encode h := by rw [if_pos (length_toBytes ..), ofBytes_toBytes, Nat.mod_eq_of_lt h]

namespace AccessKey

def bytesDecode (bytes : List UInt8) : Except String AccessKey :=
  if bytes.length = 48 then
    (CheckSumOnDisk.bytesDecode (bytes.drop 8)).map fun cs => ⟨ofBytes (bytes.take 8), cs⟩
  else .error "Invalid access key length"

theorem bytesDecode_bytesEncode {key : AccessKey} (h : key.lastAccess < 256 ^ 8) :
    bytesDecode key.bytesEncode = .ok key := by
  have htime : (toBytes 8 key.lastAccess).length = 8 := length_toBytes ..
  have hlen : key.bytesEncode.length = 48 := by simp [bytesEncode, CheckSumOnDisk.bytes]
  rw [bytesDecode, if_pos hlen, bytesEncode, List.drop_left' htime, List.take_left' htime,
    CheckSumOnDisk.bytesDecode_bytes, ofBytes_toBytes, Nat.mod_eq_of_lt h]
  rfl

def codec : Codec AccessKey where
  encode := bytesEncode
  decode := bytesDecode
  Fits key := key.lastAccess < 256 ^ 8
  decode_encode := bytesDecode_bytesEncode

theorem codec_ordered : codec.Ordered := le_iff_bytesEncode

end AccessKey

/-! ### The tables -/

/-- The tables of the database: `data`, `chunk_access` and `chunk_access_index`. -/
structure ChunkTables where
  dataDb : ByteTable
  accessDb : ByteTable
  accessIndex : ByteTable

namespace ChunkTables

/-- The tables of a new database. -/
def new : ChunkTables := ⟨∅, ∅, ∅⟩

variable (t : ChunkTables)

/-- `has_chunk`. -/
def hasChunk (cs : CheckSum) : Except String Bool :=
  (t.dataDb.get CheckSumOnDisk.codec .bytes (.ofCheckSum cs)).map Option.isSome

/-- `get_chunk`. -/
def getChunk (cs : CheckSum) : Except String (Option (List UInt8)) :=
  t.dataDb.get CheckSumOnDisk.codec .bytes (.ofCheckSum cs)

/-- `get_or_put_reserved`, with the data written into the place reserved for it. -/
def getOrPutReserved (cs : CheckSum) (data : List UInt8) : ChunkTables :=
  match t.dataDb.lookup (CheckSumOnDisk.codec.encode (.ofCheckSum cs)) with
  | some _ => t
  | none => { t with dataDb := t.dataDb.put CheckSumOnDisk.codec .bytes (.ofCheckSum cs) data }

/-- The puts of one transaction of `add_chunk` or of a sub-batch of `add_chunks`. -/
def putAll (chunks : List Chunk) : ChunkTables :=
  chunks.foldl (fun t c => t.getOrPutReserved c.1 c.2) t

/-- `update_access`. -/
def updateAccess (cs : CheckSumOnDisk) (now : ℕ) : Except String ChunkTables :=
  let write (t : ChunkTables) : ChunkTables :=
    { t with
      accessDb := t.accessDb.put CheckSumOnDisk.codec AccessTime.codec cs now
      accessIndex := t.accessIndex.put AccessKey.codec .bytes ⟨now, cs⟩ [] }
  (t.accessDb.get CheckSumOnDisk.codec AccessTime.codec cs).map fun old =>
    match old with
    | some old =>
      if now ≤ old ∨ now - old < accessUpdateMinIntervalSecs then t
      else write { t with accessIndex := t.accessIndex.delete AccessKey.codec ⟨old, cs⟩ }
    | none => write t

/-- The updates of `commit_access_batch`. One that fails is left out. -/
def commitAccessBatch (batch : List CheckSumOnDisk) (now : ℕ) : ChunkTables :=
  batch.foldl (fun t cs =>
    match t.updateAccess cs now with
    | .ok t' => t'
    | .error _ => t) t

/-- Delete the chunk of an index key and the key itself. -/
def deleteKey (key : AccessKey) : ChunkTables where
  dataDb := t.dataDb.delete CheckSumOnDisk.codec key.cs
  accessDb := t.accessDb.delete CheckSumOnDisk.codec key.cs
  accessIndex := t.accessIndex.delete AccessKey.codec key

/-- The deletions of `do_delete_keys`. -/
def deleteKeys (keys : List AccessKey) : ChunkTables := keys.foldl deleteKey t

/-- The loop of `gc_expired` over the access index. -/
def scanExpired (cutoff : ℕ) : Except String (List AccessKey) :=
  scanItems (fun expired item =>
      if cutoff ≤ item.1.lastAccess then (expired, true) else (expired ++ [item.1], false))
    (t.accessIndex.items AccessKey.codec .bytes fun _ => true) []

/-- The loop of `gc_lru` and `gc_lru_direct` over the access index. -/
def scanLru (maxDelete : ℕ) : Except String (List AccessKey) :=
  scanItems (fun targets item =>
      (targets ++ [item.1], decide (maxDelete ≤ (targets ++ [item.1]).length)))
    (t.accessIndex.items AccessKey.codec .bytes fun _ => true) []

/-- `next_chunk_batch`. -/
def nextChunkBatch (cursor : Option CheckSum) (batchSize : ℕ) : Except String (List CheckSum) :=
  let batchSize := max batchSize 1
  scanItems (fun batch item =>
      if item.1.isValid then
        (batch ++ [item.1.checkSum], decide (batchSize ≤ (batch ++ [item.1.checkSum]).length))
      else (batch, false))
    (t.dataDb.items CheckSumOnDisk.codec .bytes fun key =>
      match cursor.map CheckSumOnDisk.ofCheckSum with
      | some last => compare (CheckSumOnDisk.codec.encode last) key = .lt
      | none => true) []

/-! ### What the bytes stand for -/

/-- The bytes are those of the tables. -/
structure Holds (t : ChunkTables) (s : Store) : Prop where
  data : t.dataDb.Holds CheckSumOnDisk.codec .bytes s.data
  access : t.accessDb.Holds CheckSumOnDisk.codec AccessTime.codec s.access
  index : t.accessIndex.Holds AccessKey.codec .bytes fun key =>
    if key ∈ s.index then some [] else none

variable {t} {s : Store}

theorem holds_new : new.Holds .empty where
  data := ByteTable.holds_empty
  access := ByteTable.holds_empty
  index := ByteTable.holds_empty

namespace Holds

theorem getOrPutReserved (h : t.Holds s) (cs : CheckSum) (data : List UInt8) :
    (t.getOrPutReserved cs data).Holds (s.getOrPut cs data) := by
  have hlookup := h.data.lookup (k := .ofCheckSum cs) trivial
  cases hold : s.data (.ofCheckSum cs) with
  | some old =>
    rw [hold, Option.map_some] at hlookup
    rw [ChunkTables.getOrPutReserved, Store.getOrPut, hlookup, hold]
    exact h
  | none =>
    rw [hold, Option.map_none] at hlookup
    rw [ChunkTables.getOrPutReserved, Store.getOrPut, hlookup, hold]
    exact ⟨h.data.put trivial trivial, h.access, h.index⟩

theorem putAll (h : t.Holds s) (chunks : List Chunk) :
    (t.putAll chunks).Holds (s.putAll chunks) := by
  induction chunks generalizing t s with
  | nil => exact h
  | cons c rest ih => exact ih (h.getOrPutReserved c.1 c.2)

/-- A new key of the access index. -/
theorem index_put {index : ByteTable} {keys : Finset AccessKey}
    (h : index.Holds AccessKey.codec .bytes fun key => if key ∈ keys then some [] else none)
    (key : AccessKey) (hkey : key.lastAccess < 256 ^ 8) :
    (index.put AccessKey.codec .bytes key []).Holds AccessKey.codec .bytes fun k =>
      if k ∈ insert key keys then some [] else none := by
  have hput := ByteTable.Holds.insert (g := fun _ => []) (v := []) h hkey trivial
  rwa [Function.update_eq_self key fun _ => []] at hput

theorem index_delete {index : ByteTable} {keys : Finset AccessKey}
    (h : index.Holds AccessKey.codec .bytes fun key => if key ∈ keys then some [] else none)
    (key : AccessKey) (hkey : key.lastAccess < 256 ^ 8) :
    (index.delete AccessKey.codec key).Holds AccessKey.codec .bytes fun k =>
      if k ∈ keys.erase key then some [] else none :=
  ByteTable.Holds.erase (g := fun _ => []) h hkey

theorem updateAccess (h : t.Holds s) (cs : CheckSumOnDisk) {now : ℕ} (hnow : now < 256 ^ 8) :
    ∃ t', t.updateAccess cs now = .ok t' ∧ t'.Holds (s.updateAccess cs now) := by
  rw [ChunkTables.updateAccess, h.access.get trivial, Store.updateAccess]
  refine ⟨_, rfl, ?_⟩
  cases hold : s.access cs with
  | none => exact ⟨h.data, h.access.put trivial hnow, index_put h.index ⟨now, cs⟩ hnow⟩
  | some old =>
    dsimp only
    split_ifs with hskip
    · exact h
    · exact ⟨h.data, h.access.put trivial hnow,
        index_put (index_delete h.index ⟨old, cs⟩ (h.access.fits _ _ hold).2) ⟨now, cs⟩ hnow⟩

theorem commitAccessBatch (h : t.Holds s) (batch : List CheckSumOnDisk) {now : ℕ}
    (hnow : now < 256 ^ 8) :
    (t.commitAccessBatch batch now).Holds (s.commitAccessBatch batch now) := by
  induction batch generalizing t s with
  | nil => exact h
  | cons cs rest ih =>
    obtain ⟨t', ht', hheld⟩ := h.updateAccess cs hnow
    rw [ChunkTables.commitAccessBatch, List.foldl_cons, ht']
    exact ih hheld

theorem deleteKeys (h : t.Holds s) {keys : List AccessKey}
    (hkeys : ∀ key ∈ keys, key.lastAccess < 256 ^ 8) :
    (t.deleteKeys keys).Holds (s.deleteKeys keys) := by
  induction keys generalizing t s with
  | nil => exact h
  | cons key rest ih =>
    exact ih (t := t.deleteKey key) (s := s.deleteKey key)
      ⟨h.data.delete trivial, h.access.delete trivial,
        index_delete h.index key (hkeys key List.mem_cons_self)⟩
      fun k hk => hkeys k (List.mem_cons_of_mem _ hk)

end Holds

/-! ### What is read -/

/-- What the program reads out of the bytes is what it would read from the tables. -/
structure Reads (t : ChunkTables) (s : Store) : Prop where
  hasChunk : ∀ cs, t.hasChunk cs = .ok (s.hasChunk cs)
  getChunk : ∀ cs, t.getChunk cs = .ok (s.getChunk cs)
  scanExpired : ∀ cutoff, t.scanExpired cutoff = .ok (s.scanExpired cutoff)
  scanLru : ∀ maxDelete, t.scanLru maxDelete = .ok (s.scanLru maxDelete)
  nextChunkBatch : ∀ keys : Finset CheckSumOnDisk, (∀ k, k ∈ keys ↔ (s.data k).isSome) →
    ∀ cursor batchSize,
      t.nextChunkBatch cursor batchSize = .ok (ChunkDb.nextChunkBatch keys cursor batchSize)

namespace Holds

/-- The access index is listed as it is ordered. -/
theorem index_items (h : t.Holds s) :
    t.accessIndex.items AccessKey.codec .bytes (fun _ => true) =
      (s.index.sort.map fun key => (key, [])).map .ok := by
  rw [h.index.items AccessKey.codec_ordered
      (fun _ _ => ByteTable.ite_mem_eq_some (g := fun _ => [])) (q := fun _ => true) fun _ _ => rfl,
    Finset.filter_true_of_mem fun _ _ => rfl, List.map_map]
  rfl

theorem scanExpired (h : t.Holds s) (cutoff : ℕ) :
    t.scanExpired cutoff = .ok (s.scanExpired cutoff) := by
  have hloop := scanItems_takeWhile (fun item : AccessKey × List UInt8 =>
    decide (cutoff ≤ item.1.lastAccess)) Prod.fst (s.index.sort.map fun key => (key, [])) []
  simp only [decide_eq_true_eq] at hloop
  rw [ChunkTables.scanExpired, h.index_items, hloop, List.takeWhile_map, List.map_map,
    List.nil_append]
  exact congrArg Except.ok (List.map_id _)

theorem scanLru (h : t.Holds s) (maxDelete : ℕ) :
    t.scanLru maxDelete = .ok (s.scanLru maxDelete) := by
  have hbody : (fun (targets : List AccessKey) (item : AccessKey × List UInt8) =>
      (targets ++ [item.1], decide (maxDelete ≤ (targets ++ [item.1]).length))) =
      fun targets item => if true then (targets ++ [item.1],
        decide (max maxDelete 1 ≤ (targets ++ [item.1]).length)) else (targets, false) := by
    funext targets item
    have hiff : maxDelete ≤ (targets ++ [item.1]).length ↔
        max maxDelete 1 ≤ (targets ++ [item.1]).length := by
      rw [List.length_append, List.length_singleton]
      omega
    rw [if_pos rfl, decide_eq_decide.mpr hiff]
  rw [ChunkTables.scanLru, h.index_items, hbody,
    scanItems_take (fun _ => true) Prod.fst _ (by simp), List.filter_true, ← List.map_take,
    List.map_map, List.length_nil, Nat.sub_zero, List.nil_append]
  exact congrArg Except.ok (List.map_id _)

theorem nextChunkBatch (h : t.Holds s) {keys : Finset CheckSumOnDisk}
    (hkeys : ∀ k, k ∈ keys ↔ (s.data k).isSome) (cursor : Option CheckSum) (batchSize : ℕ) :
    t.nextChunkBatch cursor batchSize = .ok (ChunkDb.nextChunkBatch keys cursor batchSize) := by
  have hdata : ∀ k v, s.data k = some v ↔ k ∈ keys ∧ (s.data k).getD [] = v := fun k v => by
    rw [hkeys]
    cases s.data k <;> simp
  have hread : ∀ l : List CheckSumOnDisk,
      scanItems (fun batch (item : CheckSumOnDisk × List UInt8) =>
        if item.1.isValid then (batch ++ [item.1.checkSum],
          decide (max batchSize 1 ≤ (batch ++ [item.1.checkSum]).length))
        else (batch, false))
      ((l.map fun k => (k, (s.data k).getD [])).map .ok) [] =
        .ok (ChunkDb.collectValid (max batchSize 1) l []) := fun l => by
    rw [scanItems_take (fun item : CheckSumOnDisk × List UInt8 => item.1.isValid)
        (fun item => item.1.checkSum) _ (by simp),
      ChunkDb.collectValid_eq _ (by simp), List.filter_map, ← List.map_take, List.map_map]
    rfl
  rw [ChunkTables.nextChunkBatch, ChunkDb.nextChunkBatch]
  cases cursor with
  | none =>
    have hitems := h.data.items CheckSumOnDisk.codec_ordered hdata (p := fun _ => true)
      (q := fun _ => true) fun _ _ => rfl
    rw [Finset.filter_true_of_mem fun _ _ => rfl] at hitems
    refine (congrArg (scanItems _ · []) (hitems.trans ?_)).trans (hread (listing keys))
    rw [List.map_map]
    rfl
  | some last =>
    have hitems := h.data.items CheckSumOnDisk.codec_ordered hdata
      (p := fun key => compare (CheckSumOnDisk.codec.encode (.ofCheckSum last)) key = .lt)
      (q := fun k => .ofCheckSum last < k) fun k _ =>
        decide_eq_decide.mpr CheckSumOnDisk.lt_iff_bytes.symm
    simp only [decide_eq_true_eq] at hitems
    refine (congrArg (scanItems _ · []) (hitems.trans ?_)).trans (hread (listing _))
    rw [List.map_map]
    rfl

theorem reads (h : t.Holds s) : t.Reads s where
  hasChunk cs := by rw [ChunkTables.hasChunk, h.data.get trivial]; rfl
  getChunk _ := h.data.get trivial
  scanExpired := h.scanExpired
  scanLru := h.scanLru
  nextChunkBatch _ := h.nextChunkBatch

end Holds

end ChunkTables

/-! ### Runs -/

namespace ChunkDb

/-- The events that begin a transaction which writes. -/
def WriterEvent.writes : WriterEvent → Bool
  | .put | .evict | .delete | .commitAccess | .foreign _ => true
  | _ => false

/-- What a step does to the bytes. -/
inductive DiskStep {τ : Type*} (d : Db τ) (t : ChunkTables) : τ ⊕ WriterEvent → ChunkTables → Prop
  | client {u} : DiskStep d t (.inl u) t
  | other {e} (h : e.writes = false) : DiskStep d t (.inr e) t
  | put {w req batch todo} (hpc : d.writer = .put w req (batch :: todo)) :
      DiskStep d t (.inr .put) (t.putAll batch)
  | evict {targets} (hscan : t.scanLru gcBatch = .ok targets) :
      DiskStep d t (.inr .evict) (t.deleteKeys targets)
  | delete {w req keys cutoff} (hpc : d.writer = .delete w req keys cutoff) :
      DiskStep d t (.inr .delete) (t.deleteKeys keys)
  | commitAccess {w now rest} (hpc : d.writer = .access w now rest) :
      DiskStep d t (.inr .commitAccess) (t.commitAccessBatch (rest.take accessBatchSize) now)
  | foreignPut (chunks : List Chunk) :
      DiskStep d t (.inr (.foreign (.putAll chunks))) (t.putAll chunks)
  | foreignAccess (batch : List CheckSumOnDisk) (now : ℕ) :
      DiskStep d t (.inr (.foreign (.commitAccess batch now))) (t.commitAccessBatch batch now)
  | foreignDelete (keys : List AccessKey) :
      DiskStep d t (.inr (.foreign (.deleteKeys keys))) (t.deleteKeys keys)

variable {τ : Type*} [DecidableEq τ]

/-- The program with the bytes of its tables. A run starts on the bytes that were there. -/
def diskSystem (τ : Type*) [DecidableEq τ] (foreign : Txn → Prop)
    (start : Store → (CheckSum → Bool) → Prop) :
    System (Config τ (Db τ) ClientPc × ChunkTables) (τ ⊕ WriterEvent) where
  init x := (program τ foreign start).init x.1 ∧ x.2.Holds x.1.shared.store
  step x a x' := (program τ foreign start).toSystem.step x.1 a x'.1 ∧
    DiskStep x.1.shared x.2 a x'.2

/-- Times are 64-bit numbers. -/
def TimesFit (x : Config τ (Db τ) ClientPc × ChunkTables) : τ ⊕ WriterEvent → Prop
  | .inr .commitAccess => ∀ w now rest, x.1.shared.writer = .access w now rest → now < 2 ^ 64
  | .inr .delete => ∀ w req keys cutoff, x.1.shared.writer = .delete w req keys cutoff →
      ∀ key ∈ keys, key.lastAccess < 2 ^ 64
  | .inr (.foreign (.commitAccess _ now)) => now < 2 ^ 64
  | .inr (.foreign (.deleteKeys keys)) => ∀ key ∈ keys, key.lastAccess < 2 ^ 64
  | _ => True

variable {foreign : Txn → Prop} {start : Store → (CheckSum → Bool) → Prop}
  {x x' : Config τ (Db τ) ClientPc × ChunkTables} {a : τ ⊕ WriterEvent}

omit [DecidableEq τ] in
theorem WriterStep.store_of_not_writes [DecidableEq τ] {e : WriterEvent} {d d' : Db τ}
    (h : WriterStep e d d') (he : e.writes = false) : d'.store = d.store := by
  cases h with
  | put | evict | delete | commitAccess | foreign => cases he
  | _ => rfl

/-- A step keeps the bytes those of the tables. -/
theorem holds_step (h : x.2.Holds x.1.shared.store) (hfit : TimesFit x a)
    (hstep : (diskSystem τ foreign start).step x a x') : x'.2.Holds x'.1.shared.store := by
  obtain ⟨c, t⟩ := x
  obtain ⟨c', t'⟩ := x'
  obtain ⟨hprogram, hdisk⟩ := hstep
  cases hprogram with
  | thread hclient =>
    cases hdisk
    dsimp only
    rw [(ClientStep.frame hclient).1]
    exact h
  | env henv =>
    obtain ⟨hwriter, -⟩ := henv
    cases hdisk with
    | other he =>
      dsimp only
      rw [hwriter.store_of_not_writes he]
      exact h
    | put hpc =>
      cases hwriter with
      | put hpc' =>
        rw [hpc] at hpc'
        cases hpc'
        exact h.putAll _
    | evict hscan =>
      cases hwriter with
      | evict =>
        rw [h.scanLru] at hscan
        cases hscan
        refine h.deleteKeys fun key hkey => ?_
        have hin := (Finset.mem_sort _).mp (List.mem_of_mem_take hkey)
        exact (h.index.fits key [] (if_pos hin)).1
    | delete hpc =>
      cases hwriter with
      | delete hpc' =>
        rw [hpc] at hpc'
        cases hpc'
        exact h.deleteKeys (hfit _ _ _ _ hpc)
    | commitAccess hpc =>
      cases hwriter with
      | commitAccess hpc' =>
        rw [hpc] at hpc'
        cases hpc'
        exact h.commitAccessBatch _ (hfit _ _ _ hpc)
    | foreignPut chunks =>
      cases hwriter
      exact h.putAll chunks
    | foreignAccess batch now =>
      cases hwriter
      exact h.commitAccessBatch batch hfit
    | foreignDelete keys =>
      cases hwriter
      exact h.deleteKeys hfit

/-- The bytes go along with every step of the program. -/
theorem exists_diskStep {c c' : Config τ (Db τ) ClientPc} {t : ChunkTables}
    (h : t.Holds c.shared.store) (hstep : (program τ foreign start).toSystem.step c a c') :
    ∃ t', DiskStep c.shared t a t' := by
  cases hstep with
  | thread => exact ⟨t, .client⟩
  | env henv =>
    cases henv.1 with
    | put hpc => exact ⟨_, .put hpc⟩
    | evict => exact ⟨_, .evict (h.scanLru gcBatch)⟩
    | delete hpc => exact ⟨_, .delete hpc⟩
    | commitAccess hpc => exact ⟨_, .commitAccess hpc⟩
    | @foreign _ txn =>
      cases txn with
      | putAll chunks => exact ⟨_, .foreignPut chunks⟩
      | commitAccess batch now => exact ⟨_, .foreignAccess batch now⟩
      | deleteKeys keys => exact ⟨_, .foreignDelete keys⟩
    | _ => exact ⟨t, .other rfl⟩

/-- **The bytes hold the tables.** Whatever the clients, the writer and other processes do: the
bytes of the database are those of the tables, each read of the program returns out of the bytes
what it would return from the tables, without an error, and there is a step of the bytes for each
step of the program. -/
theorem bytes_hold_store (h : (diskSystem τ foreign start).Reach TimesFit x) :
    x.2.Holds x.1.shared.store ∧ x.2.Reads x.1.shared.store ∧
    ∀ a c', (program τ foreign start).toSystem.step x.1 a c' →
      ∃ t', (diskSystem τ foreign start).step x a (c', t') := by
  have hholds : x.2.Holds x.1.shared.store :=
    System.Reach.invariant (M := diskSystem τ foreign start)
      (I := fun x => x.2.Holds x.1.shared.store) (fun _ hinit => hinit.2)
      (fun _ _ _ hI hfit hstep => holds_step hI hfit hstep) h
  refine ⟨hholds, hholds.reads, fun a c' hstep => ?_⟩
  obtain ⟨t', ht'⟩ := exists_diskStep hholds hstep
  exact ⟨t', hstep, ht'⟩

/-- Another process stores a chunk and records its access. Both are in the bytes. -/
theorem bytes_hold_store_foreign : ∃ x : Config Bool (Db Bool) ClientPc × ChunkTables,
    x.2.getChunk oneByte = .ok (some [7]) ∧
    x.2.scanExpired 101 = .ok [⟨100, .ofCheckSum oneByte⟩] ∧
    x.2.hasChunk otherByte = .ok false := by
  have hstart : (diskSystem Bool (fun _ => True) fun _ _ => True).Reach TimesFit
      (⟨newDb, fun _ => .idle⟩, .new) :=
    .init ⟨⟨rfl, rfl, rfl, fun _ => rfl, rfl, trivial, fun _ => rfl⟩, ChunkTables.holds_new⟩
  have hforeign : ∀ {d : Db Bool} {t t' : ChunkTables} (txn : Txn),
      (diskSystem Bool (fun _ => True) fun _ _ => True).Reach TimesFit (⟨d, fun _ => .idle⟩, t) →
      TimesFit (⟨d, fun _ => .idle⟩, t) (.inr (.foreign txn)) →
      DiskStep d t (.inr (.foreign txn)) t' →
      (diskSystem Bool (fun _ => True) fun _ _ => True).Reach TimesFit
        (⟨d.withStore (txn.apply d.store), fun _ => .idle⟩, t') :=
    fun _ h hfit hdisk => h.step hfit ⟨.env ⟨.foreign, fun _ _ => trivial⟩, hdisk⟩
  have hput := hforeign (.putAll [(oneByte, [7])]) hstart trivial (.foreignPut _)
  have haccess := hforeign (.commitAccess [.ofCheckSum oneByte] 100) hput
    (show 100 < 2 ^ 64 by norm_num) (.foreignAccess _ _)
  obtain ⟨-, hreads, -⟩ := bytes_hold_store haccess
  refine ⟨_, (hreads.getChunk oneByte).trans rfl, (hreads.scanExpired 101).trans ?_,
    (hreads.hasChunk otherByte).trans rfl⟩
  change Except.ok (List.takeWhile _
    ({⟨100, .ofCheckSum oneByte⟩} : Finset AccessKey).sort) = _
  rw [Finset.sort_singleton]
  rfl

end ChunkDb

end DistillFs
