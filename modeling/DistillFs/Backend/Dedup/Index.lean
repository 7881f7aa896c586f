import DistillFs.Backend.CheckSum

/-!
# The range index

The index database says which ranges of an image are stored as chunks, and under which checksums.
A record is a range with the checksum of its bytes; its key is the range, under the identity of the
image. Keys are ordered by their encoded bytes: the identity first, then the end of the range, then
its start.

`dedup_range` cuts a range into segments. It walks the records in the order of their keys, from the
key of a range of one byte at its offset. A segment is part of one record, or a gap between records.
What it says of a gap is sound, but it is not complete, for two reasons: the walk starts behind a
record that ends right after the offset and began before it; and the record behind a gap is not
looked at again.

## Main definitions

* `DedupRange`, `DedupInfo`, `IndexDb`, `IndexDb.addLocalDedupInfo`.
* `IndexDb.dedupRange`, `Tiles`: the segments of a range.
* `IndexDb.Covered`, `IndexDb.Unnested`.

## Main results

* `IndexDb.tiles_dedupRange`: segments tile the range, and those with a checksum lie in records.
* `IndexDb.missed_dedupRange`: a byte without a checksum comes after a byte without a record.
* `IndexDb.alone_of_dedupRange`: a range that is one gap meets no record the walk starts before.
-/

namespace DistillFs

/-- A range of the bytes of an image. -/
@[ext] structure DedupRange where
  id : Vector UInt8 32
  start : ℕ
  stop : ℕ
  deriving DecidableEq

namespace DedupRange

/-- The range of `len` bytes at `off`. -/
def newWithId (id : Vector UInt8 32) (off len : ℕ) : DedupRange := ⟨id, off, off + len⟩

/-- The position of a range in the order of the keys. -/
def rank (r : DedupRange) : List ℕ ×ₗ ℕ ×ₗ ℕ :=
  toLex (r.id.toList.map UInt8.toNat, toLex (r.stop, r.start))

theorem rank_injective : Function.Injective rank := fun a b h => by
  obtain ⟨hid, hrest⟩ := Prod.mk.inj (toLex.injective h)
  obtain ⟨hstop, hstart⟩ := Prod.mk.inj (toLex.injective hrest)
  have hbytes := List.map_injective_iff.mpr (fun _ _ => UInt8.toNat_inj.mp) hid
  exact DedupRange.ext (Vector.toList_inj.mp hbytes) hstart hstop

/-- The database orders its keys by the encoded bytes. -/
instance : LinearOrder DedupRange := LinearOrder.lift' rank rank_injective

/-- Ranges of one image are ordered by their ends, then by their starts. -/
theorem le_iff {a b : DedupRange} (hid : a.id = b.id) :
    a ≤ b ↔ a.stop < b.stop ∨ a.stop = b.stop ∧ a.start ≤ b.start := by
  change rank a ≤ rank b ↔ _
  rw [rank, rank, Prod.Lex.toLex_le_toLex, hid]
  simp only [lt_irrefl, true_and, false_or]
  exact Prod.Lex.toLex_le_toLex

/-- What lies between two ranges of an image is a range of that image. -/
theorem id_eq_of_le {a b c : DedupRange} (hab : a ≤ b) (hbc : b ≤ c) (hid : c.id = a.id) :
    b.id = a.id := by
  have hle : ∀ {x y : DedupRange}, x ≤ y → x.id.toList.map UInt8.toNat ≤ y.id.toList.map UInt8.toNat
    := fun {x y} hxy => by
      rcases Prod.Lex.toLex_le_toLex.mp (show rank x ≤ rank y from hxy) with hlt | heq
      · exact hlt.le
      · exact heq.1.le
  have heq := le_antisymm (hid ▸ hle hbc) (hle hab)
  exact Vector.toList_inj.mp (List.map_injective_iff.mpr (fun _ _ => UInt8.toNat_inj.mp) heq)

end DedupRange

/-- A record: a range and the checksum of its bytes. -/
structure DedupInfo where
  off : ℕ
  len : ℕ
  cs : CheckSumOnDisk
  deriving DecidableEq

/-- The record of a range. -/
def DedupInfo.new (off len : ℕ) (cs : CheckSum) : DedupInfo := ⟨off, len, .ofCheckSum cs⟩

/-- Where the range of a record ends. -/
def DedupInfo.stop (info : DedupInfo) : ℕ := info.off + info.len

/-- Segments tile a range, and each has a property. -/
def Tiles (P : DedupInfo → ℕ → ℕ → Prop) : ℕ → ℕ → List (DedupInfo × ℕ) → Prop
  | _, len, [] => len = 0
  | off, len, (i, n) :: rest =>
    0 < n ∧ n ≤ len ∧ P i off n ∧ Tiles P (off + n) (len - n) rest

theorem Tiles.mono {P Q : DedupInfo → ℕ → ℕ → Prop} (hPQ : ∀ i o n, P i o n → Q i o n)
    {off len : ℕ} {segs : List (DedupInfo × ℕ)} (h : Tiles P off len segs) :
    Tiles Q off len segs := by
  induction segs generalizing off len with
  | nil => exact h
  | cons seg rest ih => exact ⟨h.1, h.2.1, hPQ _ _ _ h.2.2.1, ih h.2.2.2⟩

theorem Tiles.and {P Q : DedupInfo → ℕ → ℕ → Prop} {off len : ℕ} {segs : List (DedupInfo × ℕ)}
    (hP : Tiles P off len segs) (hQ : Tiles Q off len segs) :
    Tiles (fun i o n => P i o n ∧ Q i o n) off len segs := by
  induction segs generalizing off len with
  | nil => exact hP
  | cons seg rest ih =>
    exact ⟨hP.1, hP.2.1, ⟨hP.2.2.1, hQ.2.2.1⟩, ih hP.2.2.2 hQ.2.2.2⟩

/-- The index database: the keys with their records. -/
structure IndexDb where
  keys : Finset DedupRange
  info : DedupRange → DedupInfo
  /-- A record repeats the range of its key. -/
  repeats : ∀ k ∈ keys, (info k).off = k.start ∧ (info k).stop = k.stop

namespace IndexDb

/-- A new database. -/
def empty : IndexDb := ⟨∅, fun _ => .new 0 0 .empty, fun _ hk => absurd hk (Finset.notMem_empty _)⟩

variable (db : IndexDb) (id : Vector UInt8 32)

/-- Record the checksum of a range. -/
def addLocalDedupInfo (off len : ℕ) (cs : CheckSum) : IndexDb where
  keys := insert (.newWithId id off len) db.keys
  info := Function.update db.info (.newWithId id off len) (.new off len cs)
  repeats k hk := by
    by_cases heq : k = .newWithId id off len
    · subst heq
      rw [Function.update_self]
      exact ⟨rfl, rfl⟩
    · rw [Function.update_of_ne heq]
      exact db.repeats k (Finset.mem_of_mem_insert_of_ne hk heq)

/-- The segment of a gap. The length in the record has 32 bits and is not read. -/
def gap (off len : ℕ) : DedupInfo × ℕ := (.new off (len % 2 ^ 32) .empty, len)

/-- What is left when the walk ends. -/
def scanEnd (off len : ℕ) : List (DedupInfo × ℕ) := if len ≠ 0 then [gap off len] else []

/-- The walk of `dedup_range` over the keys. -/
def scan : List DedupRange → ℕ → ℕ → List (DedupInfo × ℕ)
  | [], off, len => scanEnd off len
  | k :: ks, off, len =>
    let v := db.info k
    if k.id ≠ id then scanEnd off len
    else if off < v.off then
      let n := min (v.off - off) len
      -- the record behind the gap is consumed with it
      gap off n ::
        if len - n = 0 ∨ off + n + (len - n) ≤ v.off then scanEnd (off + n) (len - n)
        else scan ks (off + n) (len - n)
    else if v.stop ≤ off then scan ks off len
    else
      let n := min (v.stop - off) len
      (v, n) ::
        if len - n = 0 ∨ off + n + (len - n) ≤ v.off then scanEnd (off + n) (len - n)
        else scan ks (off + n) (len - n)

/-- The keys that `dedup_range` walks over. -/
def keysFrom (off : ℕ) : List DedupRange :=
  (db.keys.filter fun k => .newWithId id off 1 ≤ k).sort

/-- The segments of a range. -/
def dedupRange (off len : ℕ) : List (DedupInfo × ℕ) :=
  if len = 0 then [] else db.scan id (db.keysFrom id off) off len

/-! ### The walk -/

variable {db id} {P : DedupInfo → ℕ → ℕ → Prop}

@[simp] theorem isValid_gap (off len : ℕ) : (gap off len).1.cs.isValid = false := by
  rw [gap, DedupInfo.new, CheckSumOnDisk.isValid_ofCheckSum]
  rfl

theorem tiles_scanEnd {off len : ℕ} (h : 0 < len → P (gap off len).1 off len) :
    Tiles P off len (scanEnd off len) := by
  unfold scanEnd
  split_ifs with hlen
  · exact ⟨by omega, le_rfl, h (by omega), Nat.sub_self len⟩
  · exact not_not.mp hlen

/-- To show that the segments of a walk have a property, find an assertion that holds whenever the
walk looks at the next key. -/
theorem tiles_scan {J : List DedupRange → ℕ → Prop}
    (hend : ∀ ks off len, J ks off → (∀ k ∈ ks.head?, k.id ≠ id) → 0 < len →
      P (gap off len).1 off len)
    (hgap : ∀ k ks off n, J (k :: ks) off → k.id = id → 0 < n → off + n ≤ (db.info k).off →
      P (gap off n).1 off n ∧ (off + n = (db.info k).off → J ks (off + n)))
    (hskip : ∀ k ks off, J (k :: ks) off → k.id = id → (db.info k).stop ≤ off → J ks off)
    (hseg : ∀ k ks off n, J (k :: ks) off → k.id = id → (db.info k).off ≤ off → 0 < n →
      off + n ≤ (db.info k).stop →
      P (db.info k) off n ∧ (off + n = (db.info k).stop → J ks (off + n)))
    {ks : List DedupRange} {off len : ℕ} (hJ : J ks off) (hlen : 0 < len) :
    Tiles P off len (db.scan id ks off len) := by
  induction ks generalizing off len with
  | nil => exact tiles_scanEnd fun _ => hend _ _ _ hJ (by simp) hlen
  | cons k ks ih =>
    simp only [scan]
    split_ifs with hid hbefore hstop₁ hpast hstop₂
    · exact tiles_scanEnd fun _ => hend _ _ _ hJ (by simpa using hid) hlen
    · obtain ⟨hP, -⟩ := hgap k ks off (min ((db.info k).off - off) len) hJ (not_not.mp hid)
        (by omega) (by omega)
      exact ⟨by omega, by omega, hP, tiles_scanEnd fun h => absurd h (by omega)⟩
    · obtain ⟨hP, hJ'⟩ := hgap k ks off (min ((db.info k).off - off) len) hJ (not_not.mp hid)
        (by omega) (by omega)
      exact ⟨by omega, by omega, hP, ih (hJ' (by omega)) (by omega)⟩
    · exact ih (hskip k ks off hJ (not_not.mp hid) hpast) hlen
    · obtain ⟨hP, -⟩ := hseg k ks off (min ((db.info k).stop - off) len) hJ (not_not.mp hid)
        (by omega) (by omega) (by omega)
      exact ⟨by omega, by omega, hP, tiles_scanEnd fun h => absurd h (by omega)⟩
    · obtain ⟨hP, hJ'⟩ := hseg k ks off (min ((db.info k).stop - off) len) hJ (not_not.mp hid)
        (by omega) (by omega) (by omega)
      exact ⟨by omega, by omega, hP, ih (hJ' (by omega)) (by omega)⟩

theorem mem_keysFrom {off : ℕ} {k : DedupRange} :
    k ∈ db.keysFrom id off ↔ k ∈ db.keys ∧ .newWithId id off 1 ≤ k := by
  rw [keysFrom, Finset.mem_sort, Finset.mem_filter]

theorem sorted_keysFrom (off : ℕ) : (db.keysFrom id off).Pairwise (· ≤ ·) :=
  Finset.pairwise_sort ..

/-! ### What segments say -/

/-- A segment with a checksum lies in a record. -/
def InRecord (db : IndexDb) (id : Vector UInt8 32) (i : DedupInfo) (off n : ℕ) : Prop :=
  i.cs.isValid = true →
    ∃ k ∈ db.keys, k.id = id ∧ db.info k = i ∧ k.start ≤ off ∧ off + n ≤ k.stop

/-- The segments of a range tile it, and those with a checksum lie in records. -/
theorem tiles_dedupRange {off len : ℕ} :
    Tiles (db.InRecord id) off len (db.dedupRange id off len) := by
  unfold dedupRange
  split_ifs with hlen
  · exact hlen
  · refine tiles_scan (J := fun ks _ => ∀ k ∈ ks, k ∈ db.keys) ?_ ?_ ?_ ?_
      (fun k hk => (mem_keysFrom.mp hk).1) (by omega)
    · intro ks off len _ _ _ hvalid
      simp at hvalid
    · intro k ks off n hJ _ _ _
      refine ⟨fun hvalid => ?_, fun _ k' hk' => hJ k' (List.mem_cons_of_mem _ hk')⟩
      simp at hvalid
    · exact fun k ks off hJ _ _ k' hk' => hJ k' (List.mem_cons_of_mem _ hk')
    · intro k ks off n hJ hid hoff _ hstop
      have hk := hJ k List.mem_cons_self
      obtain ⟨hstart, hend⟩ := db.repeats k hk
      exact ⟨fun _ => ⟨k, hk, hid, rfl, hstart ▸ hoff, hend ▸ hstop⟩,
        fun _ k' hk' => hJ k' (List.mem_cons_of_mem _ hk')⟩

/-- A byte lies in a record of the image. -/
def Covered (db : IndexDb) (id : Vector UInt8 32) (x : ℕ) : Prop :=
  ∃ k ∈ db.keys, k.id = id ∧ k.start ≤ x ∧ x < k.stop

/-- A byte lies in a record of the image that a walk from `off` comes to. -/
def CoveredFrom (db : IndexDb) (id : Vector UInt8 32) (off x : ℕ) : Prop :=
  ∃ k ∈ db.keysFrom id off, k.id = id ∧ k.start ≤ x ∧ x < k.stop

/-- No record of the image lies inside another one: one that starts later ends no earlier. -/
def Unnested (db : IndexDb) (id : Vector UInt8 32) : Prop :=
  ∀ a ∈ db.keys, ∀ b ∈ db.keys, a.id = id → b.id = id → a.start < b.start → a.stop ≤ b.stop

/-- The records of the image have checksums. -/
def AllValid (db : IndexDb) (id : Vector UInt8 32) : Prop :=
  ∀ k ∈ db.keys, k.id = id → (db.info k).cs.isValid = true

/-- A segment of a walk from `a` without a checksum is a gap: no byte of it lies in a record, or a
byte before it lies in none. -/
def Missed (db : IndexDb) (id : Vector UInt8 32) (a : ℕ) (i : DedupInfo) (off n : ℕ) : Prop :=
  i.cs.isValid = false → i.off = off ∧
    ((∀ x, off ≤ x → x < off + n → ¬db.CoveredFrom id a x) ∨
      ∃ y, a ≤ y ∧ y < off ∧ ¬db.CoveredFrom id a y)

/-- The walk has come to `off` with the keys `ks` left. It has passed a byte without a record, or
the keys hold every record with a byte from `off` on. -/
private def Ahead (db : IndexDb) (id : Vector UInt8 32) (a : ℕ) (ks : List DedupRange) (off : ℕ) :
    Prop :=
  a ≤ off ∧ (∀ k ∈ ks, k ∈ db.keysFrom id a) ∧
    ((∃ y, a ≤ y ∧ y < off ∧ ¬db.CoveredFrom id a y) ∨
      ks.Pairwise (· ≤ ·) ∧ ∀ r ∈ db.keysFrom id a, r.id = id → off < r.stop → r ∈ ks)

/-- A walk that comes to a record of another image, or to no record, has passed all records of the
image. -/
private theorem not_coveredFrom_of_end {a off x : ℕ} {ks : List DedupRange}
    (hmem : ∀ k ∈ ks, k ∈ db.keysFrom id a) (hsorted : ks.Pairwise (· ≤ ·))
    (hleft : ∀ r ∈ db.keysFrom id a, r.id = id → off < r.stop → r ∈ ks)
    (hhead : ∀ k ∈ ks.head?, k.id ≠ id) (hx : off ≤ x) : ¬db.CoveredFrom id a x := by
  rintro ⟨r, hr, hid, -, hstop⟩
  have hin := hleft r hr hid (by omega)
  cases ks with
  | nil => cases hin
  | cons k ks =>
    have hne : k.id ≠ id := hhead k rfl
    have hlower := (mem_keysFrom.mp (hmem k List.mem_cons_self)).2
    rcases List.mem_cons.mp hin with rfl | hin
    · exact hne hid
    · have hle := (List.pairwise_cons.mp hsorted).1 r hin
      exact hne (DedupRange.id_eq_of_le hlower hle hid)

/-- No byte before the next record of the image lies in a record. -/
private theorem not_coveredFrom_of_gap (hun : db.Unnested id) {a off x : ℕ} {k : DedupRange}
    {ks : List DedupRange} (hmem : ∀ k' ∈ k :: ks, k' ∈ db.keysFrom id a)
    (hsorted : (k :: ks).Pairwise (· ≤ ·))
    (hleft : ∀ r ∈ db.keysFrom id a, r.id = id → off < r.stop → r ∈ k :: ks) (hid : k.id = id)
    (hx : off ≤ x) (hk : x < k.start) : ¬db.CoveredFrom id a x := by
  rintro ⟨r, hr, hrid, hstart, hstop⟩
  rcases List.mem_cons.mp (hleft r hr hrid (by omega)) with rfl | hin
  · omega
  · have hle := (List.pairwise_cons.mp hsorted).1 r hin
    have hkdb := (mem_keysFrom.mp (hmem k List.mem_cons_self)).1
    have hends := hun r (mem_keysFrom.mp hr).1 k hkdb hrid hid (by omega)
    rw [DedupRange.le_iff (hid.trans hrid.symm)] at hle
    omega

/-- Where a segment of a range has no checksum, no byte lies in a record, or a byte before it lies
in none. -/
theorem missed_dedupRange (hun : db.Unnested id) (hval : db.AllValid id) {a len : ℕ} :
    Tiles (db.Missed id a) a len (db.dedupRange id a len) := by
  unfold dedupRange
  split_ifs with hlen
  · exact hlen
  · refine tiles_scan (J := db.Ahead id a) ?last ?gap ?skip ?seg ⟨le_rfl, fun _ hk => hk, Or.inr
      ⟨sorted_keysFrom a, fun r hr _ _ => hr⟩⟩ (by omega)
    case last =>
      rintro ks off len ⟨-, hmem, hpast | ⟨hsorted, hleft⟩⟩ hhead - -
      · exact ⟨rfl, Or.inr hpast⟩
      · exact ⟨rfl, Or.inl fun x hx _ => not_coveredFrom_of_end hmem hsorted hleft hhead hx⟩
    case gap =>
      rintro k ks off n ⟨ha, hmem, hahead⟩ hid hn hoff
      have hmem' : ∀ k' ∈ ks, k' ∈ db.keysFrom id a := fun k' hk' =>
        hmem k' (List.mem_cons_of_mem _ hk')
      rcases hahead with ⟨y, hy, hlt, hno⟩ | ⟨hsorted, hleft⟩
      · exact ⟨fun _ => ⟨rfl, Or.inr ⟨y, hy, hlt, hno⟩⟩,
          fun _ => ⟨by omega, hmem', Or.inl ⟨y, hy, by omega, hno⟩⟩⟩
      · have hk := (mem_keysFrom.mp (hmem k List.mem_cons_self)).1
        rw [(db.repeats k hk).1] at hoff
        have hno : ∀ x, off ≤ x → x < off + n → ¬db.CoveredFrom id a x := fun x hx hx' =>
          not_coveredFrom_of_gap hun hmem hsorted hleft hid hx (by omega)
        exact ⟨fun _ => ⟨rfl, Or.inl hno⟩,
          fun _ => ⟨by omega, hmem', Or.inl ⟨off, ha, by omega, hno off le_rfl (by omega)⟩⟩⟩
    case skip =>
      rintro k ks off ⟨ha, hmem, hahead⟩ - hstop
      have hk := (mem_keysFrom.mp (hmem k List.mem_cons_self)).1
      rw [(db.repeats k hk).2] at hstop
      refine ⟨ha, fun k' hk' => hmem k' (List.mem_cons_of_mem _ hk'), ?_⟩
      refine hahead.imp_right fun ⟨hsorted, hleft⟩ => ⟨(List.pairwise_cons.mp hsorted).2, ?_⟩
      intro r hr hrid hrstop
      rcases List.mem_cons.mp (hleft r hr hrid hrstop) with rfl | hin
      · omega
      · exact hin
    case seg =>
      rintro k ks off n ⟨ha, hmem, hahead⟩ hid - hn -
      have hk := (mem_keysFrom.mp (hmem k List.mem_cons_self)).1
      refine ⟨fun hinvalid => absurd (hval k hk hid) (by simp [hinvalid]), fun hstop => ?_⟩
      rw [(db.repeats k hk).2] at hstop
      refine ⟨by omega, fun k' hk' => hmem k' (List.mem_cons_of_mem _ hk'), ?_⟩
      rcases hahead with ⟨y, hy, hlt, hno⟩ | ⟨hsorted, hleft⟩
      · exact Or.inl ⟨y, hy, by omega, hno⟩
      · refine Or.inr ⟨(List.pairwise_cons.mp hsorted).2, fun r hr hrid hrstop => ?_⟩
        rcases List.mem_cons.mp (hleft r hr hrid (by omega)) with rfl | hin
        · omega
        · exact hin

/-- What lies in a record is found by a walk from a byte before it, unless that byte is the last one
of a record. -/
theorem Covered.from {a x : ℕ} (h : db.Covered id x) (hx : a ≤ x)
    (hskip : ∀ k ∈ db.keys, k.id = id → k.start ≤ x → x < k.stop → k.stop = a + 1 → a ≤ k.start) :
    db.CoveredFrom id a x := by
  obtain ⟨k, hk, hid, hstart, hstop⟩ := h
  refine ⟨k, mem_keysFrom.mpr ⟨hk, ?_⟩, hid, hstart, hstop⟩
  rw [DedupRange.le_iff (show (DedupRange.newWithId id a 1).id = k.id from hid.symm)]
  by_cases hlast : k.stop = a + 1
  · exact Or.inr ⟨hlast.symm, hskip k hk hid hstart hstop hlast⟩
  · exact Or.inl (show a + 1 < k.stop by omega)

/-- A range of which all segments have checksums lies in records. -/
theorem covered_of_valid {off len x : ℕ} {segs : List (DedupInfo × ℕ)}
    (h : Tiles (db.InRecord id) off len segs)
    (hvalid : segs.all (fun seg => seg.1.cs.isValid) = true) (hx : off ≤ x) (hx' : x < off + len) :
    db.Covered id x := by
  induction segs generalizing off len with
  | nil =>
    have hlen : len = 0 := h
    omega
  | cons seg rest ih =>
    obtain ⟨hpos, hle, hrecord, hrest⟩ := h
    rw [List.all_cons, Bool.and_eq_true] at hvalid
    by_cases hin : x < off + seg.2
    · obtain ⟨k, hk, hid, -, hstart, hstop⟩ := hrecord hvalid.1
      exact ⟨k, hk, hid, by omega, by omega⟩
    · exact ih hrest hvalid.2 (by omega) (by omega)

/-- A range that is one gap lies in no record that the walk comes to. -/
theorem alone_of_dedupRange (hun : db.Unnested id) (hval : db.AllValid id) {a len x n : ℕ}
    {i : DedupInfo} (h : db.dedupRange id a len = [(i, n)]) (hi : i.cs.isValid = false)
    (hx : a ≤ x) (hx' : x < a + len) : ¬db.CoveredFrom id a x := by
  have htiles : Tiles (db.Missed id a) a len (db.dedupRange id a len) := missed_dedupRange hun hval
  rw [h] at htiles
  obtain ⟨-, -, hmissed, hrest⟩ := htiles
  have hlen : len - n = 0 := hrest
  rcases (hmissed hi).2 with hno | ⟨y, hy, hlt, -⟩
  · exact hno x hx (by omega)
  · omega

/-! ### Adding records -/

/-- What the records of an image are like if `dedup` made them: they are not empty, none lies inside
another one, and all have checksums. -/
structure Regular (db : IndexDb) (id : Vector UInt8 32) : Prop where
  nonempty : ∀ k ∈ db.keys, k.id = id → k.start < k.stop
  unnested : db.Unnested id
  allValid : db.AllValid id

theorem mem_keys_add {off n : ℕ} {cs : CheckSum} {id' : Vector UInt8 32} {k : DedupRange} :
    k ∈ (db.addLocalDedupInfo id' off n cs).keys ↔ k = .newWithId id' off n ∨ k ∈ db.keys :=
  Finset.mem_insert

theorem info_add_self (off n : ℕ) (cs : CheckSum) :
    (db.addLocalDedupInfo id off n cs).info (.newWithId id off n) = .new off n cs :=
  Function.update_self ..

theorem info_add_of_ne {off n : ℕ} {cs : CheckSum} {id' : Vector UInt8 32} {k : DedupRange}
    (h : k ≠ .newWithId id' off n) :
    (db.addLocalDedupInfo id' off n cs).info k = db.info k :=
  Function.update_of_ne h ..

theorem ne_newWithId {off n : ℕ} {id' : Vector UInt8 32} (h : id' ≠ id) {k : DedupRange}
    (hid : k.id = id) : k ≠ .newWithId id' off n := by
  rintro rfl
  exact h hid

theorem covered_add {off n x : ℕ} {cs : CheckSum} :
    (db.addLocalDedupInfo id off n cs).Covered id x ↔
      (off ≤ x ∧ x < off + n) ∨ db.Covered id x := by
  constructor
  · rintro ⟨k, hk, hid, hstart, hstop⟩
    rcases mem_keys_add.mp hk with rfl | hk
    · exact Or.inl ⟨hstart, hstop⟩
    · exact Or.inr ⟨k, hk, hid, hstart, hstop⟩
  · rintro (⟨hstart, hstop⟩ | ⟨k, hk, hid, hstart, hstop⟩)
    · exact ⟨.newWithId id off n, mem_keys_add.mpr (Or.inl rfl), rfl, hstart, hstop⟩
    · exact ⟨k, mem_keys_add.mpr (Or.inr hk), hid, hstart, hstop⟩

theorem covered_add_of_ne {off n x : ℕ} {cs : CheckSum} {id' : Vector UInt8 32} (h : id' ≠ id) :
    (db.addLocalDedupInfo id' off n cs).Covered id x ↔ db.Covered id x := by
  constructor
  · rintro ⟨k, hk, hid, hx⟩
    exact ⟨k, (mem_keys_add.mp hk).resolve_left (ne_newWithId h hid), hid, hx⟩
  · rintro ⟨k, hk, hid, hx⟩
    exact ⟨k, mem_keys_add.mpr (Or.inr hk), hid, hx⟩

/-- A record that is made where the walk found a gap keeps the records regular. -/
theorem Regular.add (hr : db.Regular id) {off n : ℕ} {cs : CheckSum} (hn : 0 < n)
    (hcs : cs.method ≠ .unknown)
    (hgap : ∀ x, off ≤ x → x < off + n → ¬db.CoveredFrom id off x) :
    (db.addLocalDedupInfo id off n cs).Regular id := by
  have hfrom : ∀ k ∈ db.keys, k.id = id → off + 1 < k.stop → k ∈ db.keysFrom id off := by
    intro k hk hid hstop
    rw [mem_keysFrom, DedupRange.le_iff (show (DedupRange.newWithId id off 1).id = k.id from
      hid.symm)]
    exact ⟨hk, Or.inl hstop⟩
  refine ⟨fun k hk hid => ?_, fun a ha b hb hida hidb hlt => ?_, fun k hk hid => ?_⟩
  · rcases mem_keys_add.mp hk with rfl | hk
    · exact Nat.lt_add_of_pos_right hn
    · exact hr.nonempty k hk hid
  · rcases mem_keys_add.mp ha with rfl | ha <;> rcases mem_keys_add.mp hb with rfl | hb
    · exact absurd hlt (lt_irrefl _)
    · change off < b.start at hlt
      change off + n ≤ b.stop
      have hb' := hr.nonempty b hb hidb
      by_contra hout
      exact hgap b.start hlt.le (by omega) ⟨b, hfrom b hb hidb (by omega), hidb, le_rfl, hb'⟩
    · change a.start < off at hlt
      change a.stop ≤ off + n
      by_contra hout
      exact hgap off le_rfl (by omega) ⟨a, hfrom a ha hida (by omega), hida, hlt.le, by omega⟩
    · exact hr.unnested a ha b hb hida hidb hlt
  · by_cases heq : k = .newWithId id off n
    · rw [heq, info_add_self, DedupInfo.new, CheckSumOnDisk.isValid_ofCheckSum]
      exact decide_eq_true hcs
    · rw [info_add_of_ne heq]
      exact hr.allValid k ((mem_keys_add.mp hk).resolve_left heq) hid

/-- Records of other images do not matter. -/
theorem Regular.add_of_ne (hr : db.Regular id) {off n : ℕ} {cs : CheckSum}
    {id' : Vector UInt8 32} (h : id' ≠ id) : (db.addLocalDedupInfo id' off n cs).Regular id := by
  have hold : ∀ k ∈ (db.addLocalDedupInfo id' off n cs).keys, k.id = id → k ∈ db.keys :=
    fun k hk hid => (mem_keys_add.mp hk).resolve_left (ne_newWithId h hid)
  refine ⟨fun k hk hid => hr.nonempty k (hold k hk hid) hid, fun a ha b hb hida hidb =>
    hr.unnested a (hold a ha hida) b (hold b hb hidb) hida hidb, fun k hk hid => ?_⟩
  rw [info_add_of_ne (ne_newWithId h hid)]
  exact hr.allValid k (hold k hk hid) hid

/-- The walk over a single record. -/
theorem keysFrom_add_empty (id : Vector UInt8 32) (a n off : ℕ) (cs : CheckSum) :
    (empty.addLocalDedupInfo id a n cs).keysFrom id off =
      if off + 1 < a + n ∨ off + 1 = a + n ∧ off ≤ a then [.newWithId id a n] else [] := by
  have hle : DedupRange.newWithId id off 1 ≤ DedupRange.newWithId id a n ↔
      off + 1 < a + n ∨ off + 1 = a + n ∧ off ≤ a := DedupRange.le_iff rfl
  have hkeys : (empty.addLocalDedupInfo id a n cs).keys = {DedupRange.newWithId id a n} := rfl
  rw [keysFrom, hkeys, Finset.filter_singleton]
  simp only [hle]
  split_ifs
  · exact Finset.sort_singleton _ _
  · exact Finset.sort_empty _

end IndexDb

end DistillFs
