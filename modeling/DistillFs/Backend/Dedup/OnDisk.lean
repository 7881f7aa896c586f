import DistillFs.Backend.Dedup.KeyCodec
import DistillFs.Backend.Dedup.Transparent
import DistillFs.Backend.ChunkDb.OnDisk

/-!
# The index database as bytes

A record of the index database is a key of 48 bytes and a value of 56. The key is written with
numbers from the most significant byte on, so that the order of the bytes is that of the ends of
the ranges. The value is a layout that is cast, its numbers in the order of the machine, the least
significant byte first.

`dedup_range` walks over the bytes from the encoded key of a lower bound on, and decodes key and
value of each record it comes to. Here it is computed so, beside the walk over records of the other
modules, in every run of a deduplicated image with its readers and workers.

## Main definitions

* `DedupRange.codec`, `DedupInfo.codec`.
* `IndexTable.addLocalDedupInfo`, `IndexTable.dedupRange`, `IndexTable.dedupCheckRange`.
* `Dedup.diskSystem`: a run with the bytes of the index.

## Main results

* `Dedup.bytes_hold_index`: the bytes hold the records, and the walk over them is that over records.
-/

namespace DistillFs

open Foundation

/-! ### Codecs -/

namespace DedupRange

def codec : Codec DedupRange where
  encode := bytesEncode
  decode := bytesDecode
  Fits r := r.start < 256 ^ 8 ∧ r.stop < 256 ^ 8
  decode_encode {r} h := DedupKey.bytesDecode_bytesEncode ⟨r, h.1, h.2⟩

theorem codec_ordered : codec.Ordered := fun {a b} ha hb =>
  DedupKey.le_iff_bytesEncode ⟨a, ha.1, ha.2⟩ ⟨b, hb.1, hb.2⟩

end DedupRange

namespace DedupInfo

/-- The layout: the offset, the length, a reserved word and the checksum. -/
def bytesEncode (info : DedupInfo) : List UInt8 :=
  (toBytes 8 info.off).reverse ++ ((toBytes 4 info.len).reverse ++ (toBytes 4 0 ++ info.cs.bytes))

/-- A cast of the bytes. It panics if their number is not that of the layout. -/
def bytesDecode (bytes : List UInt8) : Except String DedupInfo :=
  if bytes.length = 56 then
    (CheckSumOnDisk.bytesDecode (bytes.drop 16)).map fun cs =>
      ⟨ofBytes (bytes.take 8).reverse, ofBytes ((bytes.drop 8).take 4).reverse, cs⟩
  else .error "from_bytes>SizeMismatch"

theorem bytesDecode_bytesEncode {info : DedupInfo} (h : info.off < 256 ^ 8 ∧ info.len < 256 ^ 4) :
    bytesDecode info.bytesEncode = .ok info := by
  have hoff : (toBytes 8 info.off).reverse.length = 8 := by simp
  have hlen : (toBytes 4 info.len).reverse.length = 4 := by simp
  have hsize : info.bytesEncode.length = 56 := by simp [bytesEncode, CheckSumOnDisk.bytes]
  have hcs : info.bytesEncode.drop 16 = info.cs.bytes := by
    rw [show 16 = 8 + (4 + 4) from rfl, ← List.drop_drop, ← List.drop_drop, bytesEncode,
      List.drop_left' hoff, List.drop_left' hlen]
    exact List.drop_left' (length_toBytes ..)
  rw [bytesDecode, if_pos hsize, hcs, CheckSumOnDisk.bytesDecode_bytes, bytesEncode,
    List.take_left' hoff, List.drop_left' hoff, List.take_left' hlen, List.reverse_reverse,
    List.reverse_reverse, ofBytes_toBytes, ofBytes_toBytes, Nat.mod_eq_of_lt h.1,
    Nat.mod_eq_of_lt h.2]
  rfl

def codec : Codec DedupInfo where
  encode := bytesEncode
  decode := bytesDecode
  Fits info := info.off < 256 ^ 8 ∧ info.len < 256 ^ 4
  decode_encode := bytesDecode_bytesEncode

end DedupInfo

/-! ### The table -/

namespace IndexTable

variable (t : ByteTable) (id : Vector UInt8 32)

/-- `add_local_dedup_info`. -/
def addLocalDedupInfo (off n : ℕ) (cs : CheckSum) : ByteTable :=
  t.put DedupRange.codec DedupInfo.codec (.newWithId id off n) (.new off n cs)

/-- The state of the loop of `dedup_range`. -/
structure Walk where
  off : ℕ
  len : ℕ
  infos : List (DedupInfo × ℕ)

/-- Push a segment. -/
def Walk.push (w : Walk) (info : DedupInfo) (n : ℕ) : Walk :=
  ⟨w.off + n, w.len - n, w.infos ++ [(info, n)]⟩

/-- The segment of a gap. -/
def Walk.pushGap (w : Walk) (n : ℕ) : Walk := w.push (.new w.off (n % 2 ^ 32) .empty) n

/-- The test at the end of the body of the loop. -/
def Walk.done (w : Walk) (info : DedupInfo) : Bool :=
  decide (w.len = 0 ∨ w.off + w.len ≤ info.off)

/-- The body of the loop of `dedup_range`. -/
def walkBody (w : Walk) (item : DedupRange × DedupInfo) : Walk × Bool :=
  if item.1.id ≠ id then (w, true)
  else if w.off < item.2.off then
    let w' := w.pushGap (min (item.2.off - w.off) w.len)
    (w', w'.done item.2)
  else if item.2.stop ≤ w.off then (w, false)
  else
    let w' := w.push item.2 (min (item.2.stop - w.off) w.len)
    (w', w'.done item.2)

/-- What `dedup_range` returns after the loop. -/
def Walk.finish (w : Walk) : List (DedupInfo × ℕ) :=
  if w.len ≠ 0 then (w.pushGap w.len).infos else w.infos

/-- `dedup_range`. -/
def dedupRange (off len : ℕ) : Except String (List (DedupInfo × ℕ)) :=
  if len = 0 then .ok []
  else
    (scanItems (walkBody id)
      (t.items DedupRange.codec DedupInfo.codec fun key =>
        (compare (DedupRange.codec.encode (.newWithId id off 1)) key).isLE)
      ⟨off, len, []⟩).map Walk.finish

/-- `dedup_check_range`. What cannot be decoded is an error as well. -/
def dedupCheckRange (off len : ℕ) : Except IoError Bool :=
  match dedupRange t id off len with
  | .ok [(info, _)] => .ok info.cs.isValid
  | .ok _ => .error ⟨.invalidInput, "Invalid range"⟩
  | .error e => .error ⟨.other, e⟩

/-- The bytes are those of the records. -/
def Holds (t : ByteTable) (db : IndexDb) : Prop :=
  t.Holds DedupRange.codec DedupInfo.codec fun k => if k ∈ db.keys then some (db.info k) else none

variable {t id} {db : IndexDb}

theorem holds_new : Holds ∅ .empty := ByteTable.holds_empty

theorem Holds.addLocalDedupInfo (h : Holds t db) (id : Vector UInt8 32) {off n : ℕ} (cs : CheckSum)
    (hstop : off + n < 2 ^ 64) (hlen : n < 2 ^ 32) :
    Holds (addLocalDedupInfo t id off n cs) (db.addLocalDedupInfo id off n cs) := by
  have hkey : DedupRange.codec.Fits (.newWithId id off n) :=
    ⟨by simp only [DedupRange.newWithId]; omega, by simp only [DedupRange.newWithId]; omega⟩
  have hinfo : DedupInfo.codec.Fits (.new off n cs) :=
    ⟨by simp only [DedupInfo.new]; omega, by simp only [DedupInfo.new]; omega⟩
  exact ByteTable.Holds.insert h hkey hinfo

/-! ### The walk -/

theorem Walk.finish_eq (w : Walk) : w.finish = w.infos ++ IndexDb.scanEnd w.off w.len := by
  rw [Walk.finish, IndexDb.scanEnd]
  split_ifs
  · rfl
  · exact (List.append_nil _).symm

/-- The rest of the walk after a segment. -/
theorem finish_push (ks : List DedupRange) (w : Walk) (info v : DedupInfo) (n : ℕ)
    (ih : (scanItems (walkBody id) ((ks.map fun k => (k, db.info k)).map .ok) (w.push info n)).map
        Walk.finish = .ok ((w.push info n).infos ++ db.scan id ks (w.off + n) (w.len - n))) :
    (if (w.push info n).done v then .ok (w.push info n)
      else scanItems (walkBody id) ((ks.map fun k => (k, db.info k)).map .ok)
        (w.push info n)).map Walk.finish =
      .ok (w.infos ++ (info, n) ::
        if w.len - n = 0 ∨ w.off + n + (w.len - n) ≤ v.off then
          IndexDb.scanEnd (w.off + n) (w.len - n)
        else db.scan id ks (w.off + n) (w.len - n)) := by
  rw [List.append_cons]
  by_cases hdone : w.len - n = 0 ∨ w.off + n + (w.len - n) ≤ v.off
  · rw [if_pos hdone, if_pos (show (w.push info n).done v = true from decide_eq_true hdone)]
    exact congrArg Except.ok (Walk.finish_eq _)
  · rw [if_neg hdone, if_neg (by rwa [Walk.done, decide_eq_true_eq])]
    exact ih

/-- The walk over records that can be read is the walk over records. -/
theorem scanItems_walkBody (db : IndexDb) (id : Vector UInt8 32) (ks : List DedupRange) (w : Walk) :
    (scanItems (walkBody id) ((ks.map fun k => (k, db.info k)).map .ok) w).map Walk.finish =
      .ok (w.infos ++ db.scan id ks w.off w.len) := by
  induction ks generalizing w with
  | nil => exact congrArg Except.ok w.finish_eq
  | cons k ks ih =>
    rw [List.map_cons, List.map_cons, scanItems, walkBody, IndexDb.scan]
    by_cases hid : k.id = id
    · by_cases hgap : w.off < (db.info k).off
      · rw [if_neg (not_not.mpr hid), if_pos hgap, if_neg (not_not.mpr hid), if_pos hgap]
        exact finish_push ks w _ _ _ (ih _)
      · by_cases hpast : (db.info k).stop ≤ w.off
        · rw [if_neg (not_not.mpr hid), if_neg hgap, if_pos hpast, if_neg (not_not.mpr hid),
            if_neg hgap, if_pos hpast]
          exact ih w
        · rw [if_neg (not_not.mpr hid), if_neg hgap, if_neg hpast, if_neg (not_not.mpr hid),
            if_neg hgap, if_neg hpast]
          exact finish_push ks w _ _ _ (ih _)
    · rw [if_pos hid, if_pos hid]
      exact congrArg Except.ok w.finish_eq

/-- What the walk over the bytes finds. -/
theorem Holds.dedupRange (h : Holds t db) (id : Vector UInt8 32) {off : ℕ} (len : ℕ)
    (hoff : off + 1 < 2 ^ 64) :
    IndexTable.dedupRange t id off len = .ok (db.dedupRange id off len) := by
  have hlower : DedupRange.codec.Fits (.newWithId id off 1) :=
    ⟨by simp only [DedupRange.newWithId]; omega, by simp only [DedupRange.newWithId]; omega⟩
  have hitems := ByteTable.Holds.items h DedupRange.codec_ordered
    (fun _ _ => ByteTable.ite_mem_eq_some)
    (p := fun key => (compare (DedupRange.codec.encode (.newWithId id off 1)) key).isLE)
    (q := fun k => .newWithId id off 1 ≤ k) fun k hk => by
      rw [Bool.eq_iff_iff, decide_eq_true_eq]
      exact (DedupRange.codec_ordered hlower (h.fits k _ (if_pos hk)).1).symm
  simp only [decide_eq_true_eq] at hitems
  rw [IndexTable.dedupRange, IndexDb.dedupRange]
  split_ifs with hlen
  · rfl
  · have hwalk := scanItems_walkBody db id (db.keysFrom id off) ⟨off, len, []⟩
    rw [List.map_map] at hwalk
    rw [hitems]
    exact hwalk

theorem Holds.dedupCheckRange (h : Holds t db) (id : Vector UInt8 32) {off : ℕ} (len : ℕ)
    (hoff : off + 1 < 2 ^ 64) :
    IndexTable.dedupCheckRange t id off len = db.dedupCheckRange id off len := by
  rw [IndexTable.dedupCheckRange, h.dedupRange id len hoff, IndexDb.dedupCheckRange]
  rcases db.dedupRange id off len with _ | ⟨⟨info, n⟩, _ | ⟨seg, rest⟩⟩ <;> rfl

end IndexTable

/-! ### Runs -/

namespace Dedup

/-- The bytes of the index after a step from `c` to `c'`. The worker writes a record in the last
step of a request that found something new. -/
def indexAfter {ω : Type} {size : ℕ} {τ : Type*} (core : DedupCore)
    (c c' : Config (DedupTask τ) (DedupShared ω size) DedupPc) (t : ByteTable) :
    DedupTask τ ⊕ DedupEvent size → ByteTable
  | .inl u =>
    match c.loc u, c'.loc u with
    | .record req n cs, .deduped _ (.ok ()) => IndexTable.addLocalDedupInfo t core.id req.off n cs
    | _, _ => t
  | .inr (.otherImage id off n cs) => IndexTable.addLocalDedupInfo t id off n cs
  | .inr _ => t

/-- The readers and workers of an image with the bytes of the index. A run starts on the bytes that
were there. -/
def diskSystem {ω : Type} (B : Backend ω) (H : Hashes) (core : DedupCore) (faults : Prop)
    (τ : Type*) [DecidableEq τ] (start : DedupShared ω B.size → Prop) :
    System (Config (DedupTask τ) (DedupShared ω B.size) DedupPc × ByteTable)
      (DedupTask τ ⊕ DedupEvent B.size) where
  init x := (dedupProgram B H core faults τ start).init x.1 ∧
    IndexTable.Holds x.2 x.1.shared.indexDb
  step x a x' := (dedupProgram B H core faults τ start).toSystem.step x.1 a x'.1 ∧
    x'.2 = indexAfter core x.1 x'.1 x.2 a

/-- The numbers of a record that is written are those of its types. -/
def RangesFit {ω : Type} {size : ℕ} {τ : Type*}
    (x : Config (DedupTask τ) (DedupShared ω size) DedupPc × ByteTable) :
    DedupTask τ ⊕ DedupEvent size → Prop
  | .inl u => ∀ req n cs, x.1.loc u = .record req n cs → req.off + n < 2 ^ 64 ∧ n < 2 ^ 32
  | .inr (.otherImage _ off n _) => off + n < 2 ^ 64 ∧ n < 2 ^ 32
  | _ => True

variable {ω : Type} {B : Backend ω} {H : Hashes} {core : DedupCore} {faults : Prop} {τ : Type*}

/-- Only the end of a request that found something new changes the index. -/
theorem indexDb_step {u : DedupTask τ} {s s' : DedupShared ω B.size} {pc pc' : DedupPc}
    (h : DedupStep B H core faults u s pc s' pc') :
    (∃ req n cs, pc = .record req n cs ∧ pc' = .deduped req (.ok ()) ∧
      s'.indexDb = s.indexDb.addLocalDedupInfo core.id req.off n cs) ∨
    (s'.indexDb = s.indexDb ∧
      ∀ req n cs, pc = .record req n cs → ∀ req', pc' ≠ .deduped req' (.ok ())) := by
  cases h with
  | wasRecorded => exact Or.inl ⟨_, _, _, rfl, rfl, rfl⟩
  | recordFault => exact Or.inr ⟨rfl, fun _ _ _ _ _ h => by cases h⟩
  | killed => exact Or.inr ⟨rfl, fun _ _ _ _ _ h => by cases h⟩
  | _ => exact Or.inr ⟨rfl, fun _ _ _ h => by cases h⟩

variable [DecidableEq τ] {start : DedupShared ω B.size → Prop}
  {x x' : Config (DedupTask τ) (DedupShared ω B.size) DedupPc × ByteTable}
  {a : DedupTask τ ⊕ DedupEvent B.size}

/-- A step keeps the bytes those of the records. -/
theorem holds_step (h : IndexTable.Holds x.2 x.1.shared.indexDb) (hfit : RangesFit x a)
    (hstep : (diskSystem B H core faults τ start).step x a x') :
    IndexTable.Holds x'.2 x'.1.shared.indexDb := by
  obtain ⟨c, t⟩ := x
  obtain ⟨c', t'⟩ := x'
  obtain ⟨hprogram, hdisk⟩ := hstep
  cases hprogram with
  | @thread u s' pc' htask =>
    simp only [indexAfter, Function.update_self] at hdisk
    rcases indexDb_step htask with ⟨req, n, cs, hpc, rfl, hindex⟩ | ⟨hindex, hno⟩
    · rw [hpc] at hdisk
      dsimp only at hdisk ⊢
      rw [hdisk, hindex]
      exact h.addLocalDedupInfo _ cs (hfit req n cs hpc).1 (hfit req n cs hpc).2
    · split at hdisk
      · next hpc => exact absurd rfl (hno _ _ _ hpc _)
      · dsimp only at hdisk ⊢
        rw [hdisk, hindex]
        exact h
  | env henv =>
    cases henv with
    | otherImage off n cs =>
      dsimp only [indexAfter] at hdisk ⊢
      rw [hdisk]
      exact h.addLocalDedupInfo _ cs hfit.1 hfit.2
    | evict | addChunk | invalidate | remount =>
      dsimp only [indexAfter] at hdisk ⊢
      rw [hdisk]
      exact h

/-- **The bytes hold the records.** Whatever the readers and the workers do: the bytes of the index
are those of its records, and the walk over the bytes finds the segments that the walk over the
records finds, without an error, so that requests are checked alike. -/
theorem bytes_hold_index (h : (diskSystem B H core faults τ start).Reach RangesFit x) :
    IndexTable.Holds x.2 x.1.shared.indexDb ∧
    ∀ id off len, off + 1 < 2 ^ 64 →
      IndexTable.dedupRange x.2 id off len = .ok (x.1.shared.indexDb.dedupRange id off len) ∧
      IndexTable.dedupCheckRange x.2 id off len =
        x.1.shared.indexDb.dedupCheckRange id off len := by
  have hholds : IndexTable.Holds x.2 x.1.shared.indexDb :=
    System.Reach.invariant (M := diskSystem B H core faults τ start)
      (I := fun x => IndexTable.Holds x.2 x.1.shared.indexDb) (fun _ hinit => hinit.2)
      (fun _ _ _ hI hfit hstep => holds_step hI hfit hstep) h
  exact ⟨hholds, fun id off len hoff =>
    ⟨hholds.dedupRange id len hoff, hholds.dedupCheckRange id len hoff⟩⟩

/-- Another image of the database is deduplicated, and its range is found in the bytes. -/
theorem bytes_hold_index_otherImage : ∃ t : ByteTable,
    IndexTable.dedupRange t (Vector.replicate 32 1) 0 1 =
      .ok [(.new 0 1 (.fromData lengthHashes [7] .blake3), 1)] := by
  let core : DedupCore := ⟨Vector.replicate 32 0, false⟩
  let other : Vector UInt8 32 := Vector.replicate 32 1
  let cs : CheckSum := .fromData lengthHashes [7] .blake3
  let B : Backend Unit := .serve (.ofList [7])
  let s : DedupShared Unit B.size := ⟨.empty, .empty, .fresh 4096 1, ()⟩
  have hstart : (diskSystem B lengthHashes core False Unit fun _ => True).Reach RangesFit
      (⟨s, fun _ => .idle⟩, ∅) := .init ⟨⟨trivial, fun _ => rfl⟩, IndexTable.holds_new⟩
  have hevent : DedupEnv B core (.otherImage other 0 1 cs) s
      (s.withIndexDb (s.indexDb.addLocalDedupInfo other 0 1 cs)) := .otherImage 0 1 cs (by decide)
  have hother : (diskSystem B lengthHashes core False Unit fun _ => True).Reach RangesFit
      (⟨s.withIndexDb (s.indexDb.addLocalDedupInfo other 0 1 cs), fun _ => .idle⟩,
        IndexTable.addLocalDedupInfo ∅ other 0 1 cs) :=
    hstart.step (show RangesFit _ (.inr (.otherImage other 0 1 cs)) from
      ⟨by norm_num, by norm_num⟩) ⟨.env hevent, rfl⟩
  obtain ⟨hwalk, -⟩ := (bytes_hold_index hother).2 other 0 1 (by norm_num)
  refine ⟨_, hwalk.trans (congrArg Except.ok ?_)⟩
  change (IndexDb.empty.addLocalDedupInfo other 0 1 cs).dedupRange other 0 1 = _
  rw [IndexDb.dedupRange, IndexDb.keysFrom_add_empty]
  decide

end Dedup

end DistillFs
