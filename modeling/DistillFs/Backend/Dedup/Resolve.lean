import DistillFs.Backend.Basic
import DistillFs.Backend.Dedup.Index

/-!
# What the segments of a range say

The segments that `dedup_range` returns partition the range, and a segment with a checksum lies in
its record. They depend on no record of another image.

Whether a byte in a record gets the checksum of the record is another matter. It does if the walk
comes to the record, and there is no gap before it: the walk consumes the record behind a gap, and
all records that follow begin behind the position the walk has then. For records that do not
overlap, these are the only reasons.

## Main definitions

* `IndexDb.segmentAt`, `IndexDb.Resolves`: what a lookup says of a byte.
* `IndexDb.Separate`: records that do not overlap.
* `IndexDb.FoundFirst`, `IndexDb.Gapless`: the lookups that report every record.

## Main results

* `IndexDb.partition_dedupRange`, `IndexDb.dedupRange_isolated`, `IndexDb.resolves_iff`.
-/

namespace DistillFs

/-! ### Tilings -/

section Tiles

variable {P : DedupInfo → ℕ → ℕ → Prop} {off len : ℕ} {segs : List (DedupInfo × ℕ)}

theorem Tiles.pos (h : Tiles P off len segs) : ∀ seg ∈ segs, 0 < seg.2 := by
  induction segs generalizing off len with
  | nil => simp
  | cons seg rest ih =>
    obtain ⟨hpos, -, -, hrest⟩ := h
    exact List.forall_mem_cons.mpr ⟨hpos, ih hrest⟩

theorem Tiles.sum (h : Tiles P off len segs) : (segs.map Prod.snd).sum = len := by
  induction segs generalizing off len with
  | nil => exact (show len = 0 from h).symm
  | cons seg rest ih =>
    obtain ⟨-, hle, -, hrest⟩ := h
    rw [List.map_cons, List.sum_cons, ih hrest]
    omega

theorem Tiles.of_append {pre post : List (DedupInfo × ℕ)} {seg : DedupInfo × ℕ}
    (h : Tiles P off len (pre ++ seg :: post)) : P seg.1 (off + (pre.map Prod.snd).sum) seg.2 := by
  induction pre generalizing off len with
  | nil => exact h.2.2.1
  | cons first rest ih =>
    rw [List.map_cons, List.sum_cons, ← Nat.add_assoc]
    exact ih h.2.2.2

theorem Tiles.and_forall {Q : DedupInfo → Prop} (h : Tiles P off len segs)
    (hQ : ∀ seg ∈ segs, Q seg.1) : Tiles (fun i o n => P i o n ∧ Q i) off len segs := by
  induction segs generalizing off len with
  | nil => exact h
  | cons seg rest ih =>
    obtain ⟨hpos, hle, hP, hrest⟩ := h
    obtain ⟨hseg, hQ⟩ := List.forall_mem_cons.mp hQ
    exact ⟨hpos, hle, ⟨hP, hseg⟩, ih hrest hQ⟩

/-- Where a segment lies. -/
theorem Tiles.exists_of_mem (h : Tiles P off len segs) {seg : DedupInfo × ℕ} (hseg : seg ∈ segs) :
    ∃ o, 0 < seg.2 ∧ off ≤ o ∧ o + seg.2 ≤ off + len ∧ P seg.1 o seg.2 := by
  induction segs generalizing off len with
  | nil => cases hseg
  | cons first rest ih =>
    obtain ⟨hpos, hle, hP, hrest⟩ := h
    rcases List.mem_cons.mp hseg with rfl | hseg
    · exact ⟨off, hpos, le_rfl, by omega, hP⟩
    · obtain ⟨o, hpos', hle', hend, hP'⟩ := ih hrest hseg
      exact ⟨o, hpos', by omega, by omega, hP'⟩

end Tiles

namespace IndexDb

variable {db db' : IndexDb} {id : Vector UInt8 32}

/-- The segments of a range are not empty, and their lengths add up to its length. A segment with a
checksum is a part of a record of the image: its offset in the record does not underflow, and it
ends within the record. -/
theorem partition_dedupRange (db : IndexDb) (id : Vector UInt8 32) (off len : ℕ) :
    (∀ seg ∈ db.dedupRange id off len, 0 < seg.2) ∧
    ((db.dedupRange id off len).map Prod.snd).sum = len ∧
    ∀ pre i n post, db.dedupRange id off len = pre ++ (i, n) :: post → i.cs.isValid = true →
      (∃ k ∈ db.keys, k.id = id ∧ db.info k = i) ∧
      i.off ≤ off + (pre.map Prod.snd).sum ∧ off + (pre.map Prod.snd).sum + n ≤ i.stop ∧
      off + (pre.map Prod.snd).sum - i.off + n ≤ i.len := by
  have htiles : Tiles (db.InRecord id) off len (db.dedupRange id off len) := tiles_dedupRange
  refine ⟨htiles.pos, htiles.sum, fun pre i n post hsegs hvalid => ?_⟩
  rw [hsegs] at htiles
  obtain ⟨k, hk, hid, hinfo, hstart, hstop⟩ := htiles.of_append hvalid
  obtain ⟨hoff, hend⟩ : i.off = k.start ∧ i.stop = k.stop :=
    (show db.info k = i from hinfo) ▸ db.repeats k hk
  have hlen : i.stop = i.off + i.len := rfl
  exact ⟨⟨k, hk, hid, hinfo⟩, by omega, by omega, by omega⟩

/-! ### Isolation -/

/-- Whether a key belongs to the image. -/
private def own (id : Vector UInt8 32) (k : DedupRange) : Bool := decide (k.id = id)

/-- The walk ends at the first key of another image. -/
private theorem scan_takeWhile (ks : List DedupRange) (off len : ℕ) :
    db.scan id (ks.takeWhile (own id)) off len = db.scan id ks off len := by
  induction ks generalizing off len with
  | nil => rfl
  | cons k ks ih =>
    by_cases hid : k.id = id
    · rw [List.takeWhile_cons_of_pos (by simpa [own] using hid)]
      simp only [scan, ih]
    · rw [List.takeWhile_cons_of_neg (by simpa [own] using hid)]
      rw [scan, scan, if_pos hid]

/-- The walk reads the records of its keys only. -/
private theorem scan_congr {ks : List DedupRange} (h : ∀ k ∈ ks, db.info k = db'.info k)
    (off len : ℕ) : db.scan id ks off len = db'.scan id ks off len := by
  induction ks generalizing off len with
  | nil => rfl
  | cons k ks ih =>
    obtain ⟨hk, hks⟩ := List.forall_mem_cons.mp h
    simp only [scan, hk, ih hks]

/-- In key order the keys of the image come first: a key of another image is followed by none of
them. -/
private theorem takeWhile_own {lower : DedupRange} (hlower : lower.id = id) {ks : List DedupRange}
    (hmem : ∀ k ∈ ks, lower ≤ k) (hsorted : ks.Pairwise (· ≤ ·)) :
    ks.takeWhile (own id) = ks.filter (own id) := by
  induction ks with
  | nil => rfl
  | cons k ks ih =>
    obtain ⟨hk, hks⟩ := List.forall_mem_cons.mp hmem
    obtain ⟨hle, hsorted⟩ := List.pairwise_cons.mp hsorted
    by_cases hid : k.id = id
    · have hown : own id k = true := by simpa [own] using hid
      rw [List.takeWhile_cons_of_pos hown, List.filter_cons_of_pos hown, ih hks hsorted]
    · have hown : ¬own id k = true := by simpa [own] using hid
      rw [List.takeWhile_cons_of_neg hown, List.filter_cons_of_neg hown, eq_comm,
        List.filter_eq_nil_iff]
      intro k' hk' hown'
      have hid' : k'.id = id := by simpa [own] using hown'
      exact hid ((DedupRange.id_eq_of_le hk (hle k' hk') (hid'.trans hlower.symm)).trans hlower)

/-- Two databases with the same keys of the image are walked in the same order. -/
private theorem filter_keysFrom (h : ∀ k, k.id = id → (k ∈ db.keys ↔ k ∈ db'.keys)) (off : ℕ) :
    (db.keysFrom id off).filter (own id) = (db'.keysFrom id off).filter (own id) := by
  have hsort : ∀ db : IndexDb, ((db.keysFrom id off).filter (own id)).toFinset.sort =
      (db.keysFrom id off).filter (own id) := fun db =>
    (List.toFinset_sort _ ((Finset.sort_nodup ..).filter _)).mpr
      ((sorted_keysFrom off).sublist List.filter_sublist)
  rw [← hsort db, ← hsort db']
  congr 1
  ext k
  simp only [List.mem_toFinset, List.mem_filter, mem_keysFrom, own, decide_eq_true_eq]
  constructor
  · rintro ⟨⟨hk, hle⟩, hid⟩
    exact ⟨⟨(h k hid).mp hk, hle⟩, hid⟩
  · rintro ⟨⟨hk, hle⟩, hid⟩
    exact ⟨⟨(h k hid).mpr hk, hle⟩, hid⟩

/-- Two databases agree on the records of an image. -/
def Agree (db db' : IndexDb) (id : Vector UInt8 32) : Prop :=
  ∀ k, k.id = id → (k ∈ db.keys ↔ k ∈ db'.keys) ∧ (k ∈ db.keys → db.info k = db'.info k)

theorem dedupRange_congr (h : db.Agree db' id) (off len : ℕ) :
    db.dedupRange id off len = db'.dedupRange id off len := by
  unfold dedupRange
  split_ifs
  · rfl
  · have hkeys := filter_keysFrom (fun k hid => (h k hid).1) off
    have hwhile : ∀ db : IndexDb, (db.keysFrom id off).takeWhile (own id) =
        (db.keysFrom id off).filter (own id) := fun db =>
      takeWhile_own rfl (fun k hk => (mem_keysFrom.mp hk).2) (sorted_keysFrom off)
    rw [← scan_takeWhile, hwhile db, ← @scan_takeWhile db', hwhile db', ← hkeys]
    refine scan_congr (fun k hk => ?_) off len
    obtain ⟨hk, hid⟩ := List.mem_filter.mp hk
    exact (h k (by simpa [own] using hid)).2 (mem_keysFrom.mp hk).1

theorem agree_add {id' : Vector UInt8 32} (h : id' ≠ id) (db : IndexDb) (off n : ℕ)
    (cs : CheckSum) : (db.addLocalDedupInfo id' off n cs).Agree db id := fun k hid => by
  have hne : k ≠ .newWithId id' off n := ne_newWithId h hid
  exact ⟨⟨fun hk => (mem_keys_add.mp hk).resolve_left hne, fun hk => mem_keys_add.mpr (Or.inr hk)⟩,
    fun _ => info_add_of_ne hne⟩

/-- Lookups of an image depend on its records only, and recording a range of another image changes
none of them. -/
theorem dedupRange_isolated :
    (∀ (db db' : IndexDb) (id : Vector UInt8 32), db.Agree db' id → ∀ off len,
      db.dedupRange id off len = db'.dedupRange id off len) ∧
    ∀ (db : IndexDb) (id id' : Vector UInt8 32), id' ≠ id → ∀ off n cs a len,
      (db.addLocalDedupInfo id' off n cs).dedupRange id a len = db.dedupRange id a len :=
  ⟨fun _ _ _ h => dedupRange_congr h, fun db _ _ h off n cs =>
    dedupRange_congr (agree_add h db off n cs)⟩

/-- A record of the image `1` at the same range does not show in the image `0`. -/
theorem dedupRange_isolated_record (cs : CheckSum) (off len : ℕ) :
    (empty.addLocalDedupInfo (Vector.replicate 32 1) 0 chunkSize cs).dedupRange
      (Vector.replicate 32 0) off len = empty.dedupRange (Vector.replicate 32 0) off len :=
  dedupRange_isolated.2 empty _ _ (by decide) 0 chunkSize cs off len

/-! ### Completeness -/

/-- The segment in which a byte lies, of segments that begin at `off`. -/
def segmentAt (off : ℕ) : List (DedupInfo × ℕ) → ℕ → Option DedupInfo
  | [], _ => none
  | (i, n) :: rest, p => if p < off + n then some i else segmentAt (off + n) rest p

theorem segmentAt_of_tiles {P : DedupInfo → ℕ → ℕ → Prop} {off len p : ℕ}
    {segs : List (DedupInfo × ℕ)} (h : Tiles P off len segs) (hp : off ≤ p) (hp' : p < off + len) :
    ∃ i o n, segmentAt off segs p = some i ∧ P i o n ∧ o ≤ p ∧ p < o + n := by
  induction segs generalizing off len with
  | nil =>
    have hlen : len = 0 := h
    omega
  | cons seg rest ih =>
    obtain ⟨-, hle, hP, hrest⟩ := h
    rw [segmentAt]
    split_ifs with hin
    · exact ⟨seg.1, off, seg.2, rfl, hP, hp, hin⟩
    · exact ih hrest (by omega) (by omega)

/-- A byte in a segment lies before the end of the segments. -/
theorem segmentAt_lt {segs : List (DedupInfo × ℕ)} {off x : ℕ} {i : DedupInfo}
    (h : segmentAt off segs x = some i) : x < off + (segs.map Prod.snd).sum := by
  induction segs generalizing off with
  | nil => cases h
  | cons seg rest ih =>
    rw [segmentAt] at h
    rw [List.map_cons, List.sum_cons]
    split_ifs at h with hin
    · omega
    · have hlt := ih h
      omega

/-- A segment lies in its range, and is what a lookup says of its bytes. -/
theorem tiles_segmentAt {P : DedupInfo → ℕ → ℕ → Prop} {off len : ℕ}
    {segs : List (DedupInfo × ℕ)} (h : Tiles P off len segs) :
    Tiles (fun i o n => off ≤ o ∧ o + n ≤ off + len ∧
      ∀ p, o ≤ p → p < o + n → segmentAt off segs p = some i) off len segs := by
  induction segs generalizing off len with
  | nil => exact h
  | cons seg rest ih =>
    obtain ⟨hpos, hle, -, hrest⟩ := h
    refine ⟨hpos, hle, ⟨le_rfl, by omega, fun p _ hp => ?_⟩, (ih hrest).mono fun i o n hin => ?_⟩
    · rw [segmentAt, if_pos hp]
    · obtain ⟨hoff, hend, hsegment⟩ := hin
      refine ⟨by omega, by omega, fun p hp hp' => ?_⟩
      rw [segmentAt, if_neg (by omega)]
      exact hsegment p hp hp'

/-- What a lookup should say: a byte in a record gets the checksum of the record, which is valid,
and a byte gets the empty checksum only if it lies in no record. -/
def Resolves (db : IndexDb) (id : Vector UInt8 32) (off len : ℕ) : Prop :=
  ∀ p, off ≤ p → p < off + len →
    (∀ k ∈ db.keys, k.id = id → k.start ≤ p → p < k.stop →
      ∃ i, segmentAt off (db.dedupRange id off len) p = some i ∧ i.cs.isValid = true ∧
        i.cs = (db.info k).cs) ∧
    ∀ i, segmentAt off (db.dedupRange id off len) p = some i → i.cs = .ofCheckSum .empty →
      ¬db.Covered id p

/-- Where a lookup reports every record, a part without a checksum has none. -/
theorem Resolves.not_covered {off len x : ℕ} (h : db.Resolves id off len) (hx : off ≤ x)
    {i : DedupInfo} (hi : segmentAt off (db.dedupRange id off len) x = some i)
    (hinvalid : i.cs.isValid = false) : ¬db.Covered id x := by
  rintro ⟨k, hk, hid, hstart, hstop⟩
  have hlt := segmentAt_lt hi
  rw [(db.partition_dedupRange id off len).2.1] at hlt
  obtain ⟨i', hi', hvalid, -⟩ := (h x hx hlt).1 k hk hid hstart hstop
  obtain rfl := Option.some.inj (hi.symm.trans hi')
  rw [hinvalid] at hvalid
  cases hvalid

/-- The records of the image are not empty, do not overlap, and have checksums. -/
structure Separate (db : IndexDb) (id : Vector UInt8 32) : Prop where
  nonempty : ∀ k ∈ db.keys, k.id = id → k.start < k.stop
  disjoint : ∀ a ∈ db.keys, ∀ b ∈ db.keys, a.id = id → b.id = id → a ≠ b →
    a.stop ≤ b.start ∨ b.stop ≤ a.start
  allValid : db.AllValid id

/-- No record that begins before `off` ends right behind the byte at `off`. -/
def FoundFirst (db : IndexDb) (id : Vector UInt8 32) (off : ℕ) : Prop :=
  ∀ k ∈ db.keys, k.id = id → k.stop = off + 1 → off ≤ k.start

/-- Before a byte of the range that lies in a record, all bytes of the range lie in records. -/
def Gapless (db : IndexDb) (id : Vector UInt8 32) (off len : ℕ) : Prop :=
  ∀ x, off ≤ x → x < off + len → db.Covered id x → ∀ y, off ≤ y → y ≤ x → db.Covered id y

theorem CoveredFrom.covered {a x : ℕ} (h : db.CoveredFrom id a x) : db.Covered id x := by
  obtain ⟨k, hk, hid, hx⟩ := h
  exact ⟨k, (mem_keysFrom.mp hk).1, hid, hx⟩

theorem Separate.unnested (h : db.Separate id) : db.Unnested id := fun a ha b hb hida hidb hlt => by
  have hne : a ≠ b := fun heq => absurd (heq ▸ hlt) (lt_irrefl _)
  have ha' := h.nonempty a ha hida
  have hb' := h.nonempty b hb hidb
  rcases h.disjoint a ha b hb hida hidb hne with hle | hle <;> omega

/-- Of two records that do not overlap, the one with the larger key begins behind the other. -/
private theorem Separate.start_lt (h : db.Separate id) {a b : DedupRange} (ha : a ∈ db.keys)
    (hb : b ∈ db.keys) (hida : a.id = id) (hidb : b.id = id) (hlt : a < b) :
    a.start < b.start := by
  have ha' := h.nonempty a ha hida
  have hb' := h.nonempty b hb hidb
  have hle := (DedupRange.le_iff (hida.trans hidb.symm)).mp hlt.le
  rcases h.disjoint a ha b hb hida hidb hlt.ne with hab | hba
  · omega
  · omega

/-- The walk has passed records only, or it comes to no record again that begins at its position or
before it. -/
private def Behind (db : IndexDb) (id : Vector UInt8 32) (a : ℕ) (ks : List DedupRange) (off : ℕ) :
    Prop :=
  (∀ k ∈ ks, k ∈ db.keysFrom id a) ∧ ks.Pairwise (· < ·) ∧
    ((∀ y, a ≤ y → y < off → db.CoveredFrom id a y) ∨ ∀ k ∈ ks, k.id = id → off < k.start)

/-- All bytes up to the end of a segment with a checksum lie in records that the walk comes to. -/
theorem covered_before_valid (h : db.Separate id) {a len : ℕ} :
    Tiles (fun i o n => i.cs.isValid = true → ∀ y, a ≤ y → y < o + n → db.CoveredFrom id a y) a len
      (db.dedupRange id a len) := by
  unfold dedupRange
  split_ifs with hlen
  · exact hlen
  · refine tiles_scan (J := db.Behind id a) ?last ?gap ?skip ?seg ⟨fun _ hk => hk,
      (Finset.sortedLT_sort _).pairwise, Or.inl fun y hy hlt => absurd hlt (by omega)⟩ (by omega)
    case last =>
      intro ks off len _ _ _ hvalid
      simp at hvalid
    case gap =>
      rintro k ks off n ⟨hmem, hsorted, -⟩ hid - -
      refine ⟨fun hvalid => by simp at hvalid, fun hoff => ⟨fun k' hk' =>
        hmem k' (List.mem_cons_of_mem _ hk'), (List.pairwise_cons.mp hsorted).2,
        Or.inr fun k' hk' hid' => ?_⟩⟩
      have hk := (mem_keysFrom.mp (hmem k List.mem_cons_self)).1
      have hlt := h.start_lt hk (mem_keysFrom.mp (hmem k' (List.mem_cons_of_mem _ hk'))).1 hid hid'
        ((List.pairwise_cons.mp hsorted).1 k' hk')
      rw [(db.repeats k hk).1] at hoff
      omega
    case skip =>
      rintro k ks off ⟨hmem, hsorted, hbehind⟩ - -
      exact ⟨fun k' hk' => hmem k' (List.mem_cons_of_mem _ hk'), (List.pairwise_cons.mp hsorted).2,
        hbehind.imp_right fun hlt k' hk' => hlt k' (List.mem_cons_of_mem _ hk')⟩
    case seg =>
      rintro k ks off n ⟨hmem, hsorted, hbehind⟩ hid hoff - hstop
      have hk := hmem k List.mem_cons_self
      obtain ⟨hstart, hend⟩ := db.repeats k (mem_keysFrom.mp hk).1
      have hcovered : ∀ y, a ≤ y → y < off + n → db.CoveredFrom id a y := fun y hy hlt => by
        rcases hbehind with hpast | hlater
        · by_cases hin : y < off
          · exact hpast y hy hin
          · exact ⟨k, hk, hid, by omega, by omega⟩
        · have hlater := hlater k List.mem_cons_self hid
          omega
      exact ⟨fun _ => hcovered, fun _ => ⟨fun k' hk' => hmem k' (List.mem_cons_of_mem _ hk'),
        (List.pairwise_cons.mp hsorted).2, Or.inl hcovered⟩⟩

/-- The bytes from `off` up to a byte that is reported lie in records that the walk comes to. -/
private theorem coveredFrom_of_resolves (h : db.Separate id) {off len x y : ℕ}
    (hres : db.Resolves id off len) (hx : off ≤ x) (hx' : x < off + len)
    (hcovered : db.Covered id x) (hy : off ≤ y) (hyx : y ≤ x) : db.CoveredFrom id off y := by
  obtain ⟨k, hk, hid, hstart, hstop⟩ := hcovered
  obtain ⟨i, hi, hvalid, -⟩ := (hres x hx hx').1 k hk hid hstart hstop
  obtain ⟨i', o, n, hi', hP, ho, hn⟩ := segmentAt_of_tiles (covered_before_valid h) hx hx'
  obtain rfl := Option.some.inj (hi.symm.trans hi')
  exact hP hvalid y hy (by omega)

/-- The walk passes by a record that begins before `off` and ends right behind the byte at `off`. -/
private theorem not_coveredFrom_last (h : db.Separate id) {off : ℕ} {k : DedupRange}
    (hk : k ∈ db.keys) (hid : k.id = id) (hstop : k.stop = off + 1) (hstart : k.start < off) :
    ¬db.CoveredFrom id off off := by
  rintro ⟨k', hk', hid', hstart', hstop'⟩
  obtain ⟨hk'db, hlower⟩ := mem_keysFrom.mp hk'
  by_cases heq : k = k'
  · subst heq
    have hle := (DedupRange.le_iff (show (DedupRange.newWithId id off 1).id = k.id from
      hid.symm)).mp hlower
    simp only [DedupRange.newWithId] at hle
    omega
  · rcases h.disjoint k hk k' hk'db hid hid' heq with hle | hle <;> omega

/-- Where no gap comes before it, a byte in a record gets a checksum. -/
private theorem valid_of_gapless (h : db.Separate id) {off len p : ℕ}
    (hfirst : db.FoundFirst id off) (hgapless : db.Gapless id off len) (hp : off ≤ p)
    (hp' : p < off + len) (hcovered : db.Covered id p) :
    ∃ i o n, segmentAt off (db.dedupRange id off len) p = some i ∧ i.cs.isValid = true ∧
      db.InRecord id i o n ∧ o ≤ p ∧ p < o + n := by
  have hfrom : ∀ x, off ≤ x → db.Covered id x → db.CoveredFrom id off x := fun x hx hcovered =>
    hcovered.from hx fun k hk hid _ _ hstop => hfirst k hk hid hstop
  have hmissed : Tiles (db.Missed id off) off len (db.dedupRange id off len) :=
    missed_dedupRange h.unnested h.allValid
  obtain ⟨i, o, n, hi, ⟨hrecord, hmiss⟩, ho, hn⟩ :=
    segmentAt_of_tiles (tiles_dedupRange.and hmissed) hp hp'
  refine ⟨i, o, n, hi, ?_, hrecord, ho, hn⟩
  by_contra hinvalid
  rcases (hmiss (by simpa using hinvalid)).2 with hno | ⟨y, hy, hlt, hno⟩
  · exact hno p ho hn (hfrom p hp hcovered)
  · exact hno (hfrom y hy (hgapless p hp hp' hcovered y hy (by omega)))

/-- For records that do not overlap, a lookup reports all records exactly if no record ends right
behind its first byte, and no record of the range comes behind a gap. -/
theorem resolves_iff (h : db.Separate id) (off len : ℕ) (hlen : 0 < len) :
    db.Resolves id off len ↔ db.FoundFirst id off ∧ db.Gapless id off len := by
  constructor
  · intro hres
    refine ⟨fun k hk hid hstop => ?_, fun x hx hx' hcovered y hy hyx =>
      (coveredFrom_of_resolves h hres hx hx' hcovered hy hyx).covered⟩
    by_contra hbegin
    have hcovered : db.Covered id off := ⟨k, hk, hid, by omega, by omega⟩
    exact not_coveredFrom_last h hk hid hstop (by omega)
      (coveredFrom_of_resolves h hres le_rfl (by omega) hcovered le_rfl le_rfl)
  · rintro ⟨hfirst, hgapless⟩ p hp hp'
    have hvalid := valid_of_gapless h hfirst hgapless hp hp'
    refine ⟨fun k hk hid hstart hstop => ?_, fun i hi hempty hcovered => ?_⟩
    · obtain ⟨i, o, n, hi, hvalid, hrecord, ho, hn⟩ := hvalid ⟨k, hk, hid, hstart, hstop⟩
      obtain ⟨k', hk', hid', hinfo, hstart', hstop'⟩ := hrecord hvalid
      have heq : k = k' := by
        by_contra hne
        rcases h.disjoint k hk k' hk' hid hid' hne with hle | hle <;> omega
      exact ⟨i, hi, hvalid, by rw [heq, hinfo]⟩
    · obtain ⟨i', -, -, hi', hvalid, -⟩ := hvalid hcovered
      obtain rfl := Option.some.inj (hi.symm.trans hi')
      rw [hempty, CheckSumOnDisk.isValid_ofCheckSum] at hvalid
      exact absurd hvalid (by decide)

/-! ### An image with one record -/

/-- The walk meets a record that begins behind its position: it goes on after the gap, without the
record. -/
private theorem scan_behind {k : DedupRange} {ks : List DedupRange} {off len : ℕ} (hid : k.id = id)
    (hoff : off < (db.info k).off) (hlen : (db.info k).off < off + len) :
    db.scan id (k :: ks) off len = gap off ((db.info k).off - off) ::
      db.scan id ks (db.info k).off (off + len - (db.info k).off) := by
  have hmin : min ((db.info k).off - off) len = (db.info k).off - off := by omega
  have hnext : off + ((db.info k).off - off) = (db.info k).off := by omega
  have hrest : len - ((db.info k).off - off) = off + len - (db.info k).off := by omega
  rw [scan, if_neg (not_not.mpr hid), if_pos hoff, hmin]
  simp only [hnext, hrest]
  rw [if_neg (by omega)]

/-- A record of the second chunk. -/
def secondChunk : IndexDb :=
  empty.addLocalDedupInfo (Vector.replicate 32 0) chunkSize chunkSize
    ⟨Vector.replicate 32 1, .blake3⟩

theorem mem_keys_secondChunk {k : DedupRange} :
    k ∈ secondChunk.keys ↔ k = .newWithId (Vector.replicate 32 0) chunkSize chunkSize := by
  rw [secondChunk, mem_keys_add]
  exact or_iff_left (Finset.notMem_empty k)

theorem secondChunk_separate : secondChunk.Separate (Vector.replicate 32 0) where
  nonempty k hk _ := by
    rw [mem_keys_secondChunk.mp hk]
    exact Nat.lt_add_of_pos_right chunkSize_pos
  disjoint a ha b hb _ _ hne :=
    absurd ((mem_keys_secondChunk.mp ha).trans (mem_keys_secondChunk.mp hb).symm) hne
  allValid k hk _ := by
    rw [mem_keys_secondChunk.mp hk, secondChunk, info_add_self]
    decide

/-- The second chunk is found by a lookup of the second chunk. -/
theorem resolves_iff_secondChunk :
    secondChunk.Resolves (Vector.replicate 32 0) chunkSize chunkSize := by
  refine (resolves_iff secondChunk_separate _ _ chunkSize_pos).mpr ⟨fun k hk _ _ => ?_,
    fun x hx hx' _ y hy hyx => ?_⟩
  · rw [mem_keys_secondChunk.mp hk]
    exact le_rfl
  · exact ⟨_, mem_keys_secondChunk.mpr rfl, rfl, hy,
      show y < chunkSize + chunkSize from Nat.lt_of_le_of_lt hyx hx'⟩

/-- The records have aligned starts and are not longer than a chunk, but a lookup of the last byte
of the second chunk does not report it, and a lookup of the first two chunks does not either. -/
theorem secondChunk_unresolved :
    secondChunk.Separate (Vector.replicate 32 0) ∧
    (∀ k ∈ secondChunk.keys, k.start % chunkSize = 0 ∧ k.stop - k.start ≤ chunkSize) ∧
    ¬secondChunk.Resolves (Vector.replicate 32 0) (2 * chunkSize - 1) 1 ∧
    ¬secondChunk.Resolves (Vector.replicate 32 0) 0 (2 * chunkSize) := by
  have hpos := chunkSize_pos
  refine ⟨secondChunk_separate, fun k hk => ?_, fun hres => ?_, fun hres => ?_⟩
  · rw [mem_keys_secondChunk.mp hk]
    exact ⟨Nat.mod_self _, by simp [DedupRange.newWithId]⟩
  · have hsegs : secondChunk.dedupRange (Vector.replicate 32 0) (2 * chunkSize - 1) 1 =
        [gap (2 * chunkSize - 1) 1] := by
      have hlast : ¬(2 * chunkSize - 1 + 1 < chunkSize + chunkSize ∨
          2 * chunkSize - 1 + 1 = chunkSize + chunkSize ∧ 2 * chunkSize - 1 ≤ chunkSize) := by
        have hbig : 1 < chunkSize := by
          rw [chunkSize]
          decide
        omega
      rw [dedupRange, if_neg one_ne_zero, secondChunk, keysFrom_add_empty, if_neg hlast]
      rfl
    obtain ⟨i, hi, hvalid, -⟩ := (hres (2 * chunkSize - 1) le_rfl (by omega)).1 _
      (mem_keys_secondChunk.mpr rfl) rfl (show chunkSize ≤ _ by omega)
      (show _ < chunkSize + chunkSize by omega)
    rw [hsegs, gap, segmentAt, if_pos (Nat.lt_succ_self _)] at hi
    obtain rfl := Option.some.inj hi
    exact absurd hvalid (by decide)
  · have hsegs : secondChunk.dedupRange (Vector.replicate 32 0) 0 (2 * chunkSize) =
        [gap 0 chunkSize, gap chunkSize chunkSize] := by
      rw [dedupRange, if_neg (by omega), secondChunk, keysFrom_add_empty, if_pos (by omega)]
      have hinfo := @info_add_self empty (Vector.replicate 32 0) chunkSize chunkSize
        ⟨Vector.replicate 32 1, .blake3⟩
      have hoff : (DedupInfo.new chunkSize chunkSize ⟨Vector.replicate 32 1, .blake3⟩).off =
        chunkSize := rfl
      refine (scan_behind rfl (hinfo ▸ hpos) (hinfo ▸ (by rw [hoff]; omega))).trans ?_
      rw [hinfo, hoff, Nat.sub_zero,
        show 0 + 2 * chunkSize - chunkSize = chunkSize by omega, scan, scanEnd, if_pos (by omega)]
    obtain ⟨i, hi, hvalid, -⟩ := (hres chunkSize (by omega) (by omega)).1 _
      (mem_keys_secondChunk.mpr rfl) rfl le_rfl (show _ < chunkSize + chunkSize by omega)
    rw [hsegs, gap, segmentAt, if_neg (by omega), gap, segmentAt, if_pos (by omega)] at hi
    obtain rfl := Option.some.inj hi
    exact absurd hvalid (by decide)

end IndexDb

end DistillFs
