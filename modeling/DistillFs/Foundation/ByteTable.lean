import DistillFs.Foundation.ByteOrder

/-!
# Tables of bytes

A key-value database keeps tables from bytes to bytes, and lists the entries of a table in the order
of the bytes of their keys. A program uses such a table as a map between types of its own, by a
codec for the keys and one for the values. It reads what it has written as far as the codecs give
values back, and what it lists comes in the order of its keys if their codec keeps the order.

## Main definitions

* `Codec`, `Codec.Ordered`: how the values of a type are written.
* `ByteTable`, `ByteTable.get`, `ByteTable.put`, `ByteTable.delete`, `ByteTable.items`.
* `ByteTable.Holds`: the entries of a table are those of a map.
* `scanItems`: a loop over entries that may not be readable.

## Main results

* `ByteTable.Holds.get`, `ByteTable.Holds.put`, `ByteTable.Holds.delete`: a table is used as a map.
* `ByteTable.Holds.insert`, `ByteTable.Holds.erase`: the same for a map with finitely many keys.
* `ByteTable.Holds.items`: a table lists the map in the order of its keys.
* `scanItems_takeWhile`, `scanItems_take`: what loops collect.
-/

namespace DistillFs.Foundation

/-! ### Codecs -/

/-- How the values of a type are written as bytes, and read again. -/
structure Codec (α : Type*) where
  encode : α → List UInt8
  decode : List UInt8 → Except String α
  /-- The values that are read as they were written. -/
  Fits : α → Prop
  decode_encode : ∀ {a}, Fits a → decode (encode a) = .ok a

/-- Bytes as they are. -/
def Codec.bytes : Codec (List UInt8) := ⟨id, .ok, fun _ => True, fun _ => rfl⟩

/-- The order of the bytes. -/
def BytesLE (a b : List UInt8) : Prop := (compare a b).isLE

instance : DecidableRel BytesLE := fun a b =>
  inferInstanceAs (Decidable ((compare a b).isLE = true))

instance : IsTrans (List UInt8) BytesLE := ⟨fun _ _ _ => Std.TransOrd.isLE_trans⟩

instance : Std.Antisymm BytesLE := ⟨fun a b hab hba => by
  rw [BytesLE, Std.OrientedOrd.eq_swap] at hba
  exact Std.LawfulEqOrd.eq_of_compare (Ordering.eq_eq_of_isLE_of_isLE_swap hab hba)⟩

instance : Std.Total BytesLE := ⟨fun a b => by
  rw [BytesLE, BytesLE, Std.OrientedOrd.eq_swap (a := b)]
  cases compare a b with
  | lt | eq => exact Or.inl rfl
  | gt => exact Or.inr rfl⟩

namespace Codec

variable {α : Type*} {C : Codec α} {a b : α}

theorem eq_of_encode_eq (ha : C.Fits a) (hb : C.Fits b) (h : C.encode a = C.encode b) : a = b := by
  have hdecode := C.decode_encode ha
  rw [h, C.decode_encode hb] at hdecode
  exact (Except.ok.inj hdecode).symm

/-- The bytes are ordered as the values are. -/
def Ordered [LE α] (C : Codec α) : Prop :=
  ∀ {a b}, C.Fits a → C.Fits b → (a ≤ b ↔ BytesLE (C.encode a) (C.encode b))

end Codec

/-! ### Tables -/

/-- A table of a database. -/
abbrev ByteTable : Type := Finmap fun _ : List UInt8 => List UInt8

namespace ByteTable

universe u

variable {κ ν : Type u} (K : Codec κ) (V : Codec ν) (t : ByteTable)

/-- The value of a key, if there is one. -/
def get (k : κ) : Except String (Option ν) :=
  match t.lookup (K.encode k) with
  | none => .ok none
  | some value => (V.decode value).map some

def put (k : κ) (v : ν) : ByteTable := t.insert (K.encode k) (V.encode v)

def delete (k : κ) : ByteTable := t.erase (K.encode k)

/-- The entries whose keys pass a test, in the order of the bytes of their keys. -/
def items (p : List UInt8 → Bool) : List (Except String (κ × ν)) :=
  ((t.keys.filter fun key => p key).sort BytesLE).map fun key => do
    let k ← K.decode key
    let v ← V.decode ((t.lookup key).getD [])
    return (k, v)

/-- The entries of a table are those of a map, as the codecs write them. -/
structure Holds (t : ByteTable) (f : κ → Option ν) : Prop where
  fits : ∀ k v, f k = some v → K.Fits k ∧ V.Fits v
  lookup_iff : ∀ key value, t.lookup key = some value ↔
    ∃ k v, f k = some v ∧ K.encode k = key ∧ V.encode v = value

variable {K V t} {f : κ → Option ν} {k : κ} {v : ν}

theorem holds_empty : Holds K V ∅ fun _ => none where
  fits _ _ h := by cases h
  lookup_iff _ _ := ⟨fun h => (by cases h), fun ⟨_, _, h, _⟩ => (by cases h)⟩

namespace Holds

theorem lookup (h : Holds K V t f) (hk : K.Fits k) :
    t.lookup (K.encode k) = (f k).map V.encode := by
  cases hf : f k with
  | some v => exact (h.lookup_iff _ _).mpr ⟨k, v, hf, rfl, rfl⟩
  | none =>
    cases hlookup : t.lookup (K.encode k) with
    | none => rfl
    | some value =>
      obtain ⟨k', v, hk', hkey, -⟩ := (h.lookup_iff _ _).mp hlookup
      rw [Codec.eq_of_encode_eq (h.fits _ _ hk').1 hk hkey, hf] at hk'
      cases hk'

/-- A value is read as it was written. -/
theorem get (h : Holds K V t f) (hk : K.Fits k) : t.get K V k = .ok (f k) := by
  rw [ByteTable.get, h.lookup hk]
  cases hf : f k with
  | none => rfl
  | some v =>
    rw [Option.map_some]
    dsimp only
    rw [V.decode_encode (h.fits _ _ hf).2]
    rfl

variable [DecidableEq κ]

theorem put (h : Holds K V t f) (hk : K.Fits k) (hv : V.Fits v) :
    Holds K V (t.put K V k v) (Function.update f k (some v)) where
  fits k' v' hf := by
    by_cases hkk : k' = k
    · subst hkk
      rw [Function.update_self] at hf
      exact ⟨hk, Option.some.inj hf ▸ hv⟩
    · rw [Function.update_of_ne hkk] at hf
      exact h.fits _ _ hf
  lookup_iff key value := by
    by_cases hkey : key = K.encode k
    · rw [hkey, ByteTable.put, Finmap.lookup_insert]
      constructor
      · intro hvalue
        exact ⟨k, v, Function.update_self .., rfl, Option.some.inj hvalue⟩
      · rintro ⟨k', v', hf, hencode, rfl⟩
        by_cases hkk : k' = k
        · rw [hkk, Function.update_self] at hf
          rw [Option.some.inj hf]
        · rw [Function.update_of_ne hkk] at hf
          exact absurd (Codec.eq_of_encode_eq (h.fits _ _ hf).1 hk hencode) hkk
    · rw [ByteTable.put, Finmap.lookup_insert_of_ne _ hkey, h.lookup_iff]
      refine exists₂_congr fun k' v' => and_congr_left fun hencode => ?_
      rw [Function.update_of_ne]
      rintro rfl
      exact hkey hencode.1.symm

theorem delete (h : Holds K V t f) (hk : K.Fits k) :
    Holds K V (t.delete K k) (Function.update f k none) where
  fits k' v' hf := by
    by_cases hkk : k' = k
    · rw [hkk, Function.update_self] at hf
      cases hf
    · rw [Function.update_of_ne hkk] at hf
      exact h.fits _ _ hf
  lookup_iff key value := by
    by_cases hkey : key = K.encode k
    · rw [hkey, ByteTable.delete, Finmap.lookup_erase]
      refine iff_of_false nofun ?_
      rintro ⟨k', v', hf, hencode, -⟩
      by_cases hkk : k' = k
      · rw [hkk, Function.update_self] at hf
        cases hf
      · rw [Function.update_of_ne hkk] at hf
        exact hkk (Codec.eq_of_encode_eq (h.fits _ _ hf).1 hk hencode)
    · rw [ByteTable.delete, Finmap.lookup_erase_ne hkey, h.lookup_iff]
      refine exists₂_congr fun k' v' => and_congr_left fun hencode => ?_
      rw [Function.update_of_ne]
      rintro rfl
      exact hkey hencode.1.symm

end Holds

/-! ### Maps with finitely many keys -/

section Keys

variable [DecidableEq κ] {s : Finset κ} {g : κ → ν}

theorem ite_mem_eq_some : (if k ∈ s then some (g k) else none) = some v ↔ k ∈ s ∧ g k = v := by
  rw [Option.ite_none_right_eq_some, Option.some_inj]

/-- A key is put, be it new or not. -/
theorem Holds.insert (h : Holds K V t fun k => if k ∈ s then some (g k) else none)
    (hk : K.Fits k) (hv : V.Fits v) :
    Holds K V (t.put K V k v) fun k' =>
      if k' ∈ insert k s then some (Function.update g k v k') else none := by
  convert h.put hk hv using 1
  funext k'
  by_cases hkk : k' = k
  · rw [hkk, Function.update_self, Function.update_self, if_pos (Finset.mem_insert_self ..)]
  · rw [Function.update_of_ne hkk, Function.update_of_ne hkk]
    exact if_congr (Finset.mem_insert.trans (or_iff_right hkk)) rfl rfl

theorem Holds.erase (h : Holds K V t fun k => if k ∈ s then some (g k) else none)
    (hk : K.Fits k) :
    Holds K V (t.delete K k) fun k' => if k' ∈ s.erase k then some (g k') else none := by
  convert h.delete hk using 1
  funext k'
  by_cases hkk : k' = k
  · rw [hkk, Function.update_self, if_neg (Finset.notMem_erase k s)]
  · rw [Function.update_of_ne hkk]
    exact if_congr (Finset.mem_erase.trans (and_iff_right hkk)) rfl rfl

end Keys

/-! ### Listings -/

section Listings

variable {s : Finset κ} {g : κ → ν}

theorem Holds.keys (h : Holds K V t f) (hs : ∀ k v, f k = some v ↔ k ∈ s ∧ g k = v) :
    t.keys = s.image K.encode := by
  ext key
  rw [Finmap.mem_keys, Finmap.mem_iff, Finset.mem_image]
  constructor
  · rintro ⟨value, hvalue⟩
    obtain ⟨k, v, hf, hkey, -⟩ := (h.lookup_iff _ _).mp hvalue
    exact ⟨k, ((hs _ _).mp hf).1, hkey⟩
  · rintro ⟨k, hk, rfl⟩
    exact ⟨_, (h.lookup_iff _ _).mpr ⟨k, g k, (hs _ _).mpr ⟨hk, rfl⟩, rfl, rfl⟩⟩

/-- What a table lists are the entries of the map, in the order of their keys. -/
theorem Holds.items [LinearOrder κ] (h : Holds K V t f) (hK : K.Ordered)
    (hs : ∀ k v, f k = some v ↔ k ∈ s ∧ g k = v) {p : List UInt8 → Bool} {q : κ → Bool}
    (hpq : ∀ k ∈ s, p (K.encode k) = q k) :
    t.items K V p = ((s.filter fun k => q k).sort).map fun k => .ok (k, g k) := by
  have hsome : ∀ k ∈ s, f k = some (g k) := fun k hk => (hs _ _).mpr ⟨hk, rfl⟩
  have hfits : ∀ k ∈ s, K.Fits k ∧ V.Fits (g k) := fun k hk => h.fits _ _ (hsome k hk)
  have hmem : ∀ k ∈ (s.filter fun k => q k).sort, k ∈ s := fun k hk =>
    (Finset.mem_filter.mp ((Finset.mem_sort _).mp hk)).1
  have hset : (((s.filter fun k => q k).sort).map K.encode).toFinset =
      t.keys.filter fun key => p key := by
    ext key
    rw [h.keys hs]
    simp only [List.mem_toFinset, List.mem_map, Finset.mem_sort, Finset.mem_filter,
      Finset.mem_image]
    constructor
    · rintro ⟨k, ⟨hk, hq⟩, rfl⟩
      exact ⟨⟨k, hk, rfl⟩, (hpq k hk).trans hq⟩
    · rintro ⟨⟨k, hk, rfl⟩, hp⟩
      exact ⟨k, ⟨hk, (hpq k hk).symm.trans hp⟩, rfl⟩
  have hnodup : (((s.filter fun k => q k).sort).map K.encode).Nodup :=
    List.Nodup.map_on (fun a ha b hb => Codec.eq_of_encode_eq (hfits a (hmem a ha)).1
      (hfits b (hmem b hb)).1) (Finset.sort_nodup ..)
  have hsorted : (((s.filter fun k => q k).sort).map K.encode).Pairwise BytesLE :=
    List.pairwise_map.mpr ((Finset.pairwise_sort _ (· ≤ ·)).imp_of_mem fun {a b} ha hb hab =>
      (hK (hfits a (hmem a ha)).1 (hfits b (hmem b hb)).1).mp hab)
  rw [ByteTable.items, ← hset, (List.toFinset_sort BytesLE hnodup).mpr hsorted, List.map_map]
  refine List.map_congr_left fun k hk => ?_
  have hlookup := h.lookup (hfits k (hmem k hk)).1
  rw [hsome k (hmem k hk)] at hlookup
  rw [Function.comp_apply, K.decode_encode (hfits k (hmem k hk)).1, hlookup, Option.map_some,
    Option.getD_some, V.decode_encode (hfits k (hmem k hk)).2]
  rfl

end Listings

end ByteTable

/-! ### Loops over entries -/

/-- A loop over entries. It fails at the first one that cannot be read, and `body` says with the
next state whether to break. -/
def scanItems {α σ : Type*} (body : σ → α → σ × Bool) : List (Except String α) → σ → Except String σ
  | [], s => .ok s
  | .error e :: _, _ => .error e
  | .ok a :: rest, s => if (body s a).2 then .ok (body s a).1 else scanItems body rest (body s a).1

section Loops

variable {α β : Type*}

/-- A loop that collects entries up to the first one that passes a test. -/
theorem scanItems_takeWhile (p : α → Bool) (f : α → β) (l : List α) (found : List β) :
    scanItems (fun found a => if p a then (found, true) else (found ++ [f a], false))
      (l.map .ok) found = .ok (found ++ (l.takeWhile fun a => !p a).map f) := by
  induction l generalizing found with
  | nil => exact congrArg Except.ok (List.append_nil found).symm
  | cons a rest ih =>
    rw [List.map_cons, scanItems]
    cases hp : p a with
    | true => simp [hp]
    | false =>
      rw [List.takeWhile_cons_of_pos (by rw [hp]; rfl), List.map_cons]
      exact (ih (found ++ [f a])).trans (congrArg Except.ok (List.append_cons ..).symm)

/-- A loop that collects the entries that pass a test until it has a number of them. -/
theorem scanItems_take (p : α → Bool) (f : α → β) {n : ℕ} (l : List α) {found : List β}
    (h : found.length < n) :
    scanItems (fun found a =>
        if p a then (found ++ [f a], decide (n ≤ (found ++ [f a]).length)) else (found, false))
      (l.map .ok) found = .ok (found ++ ((l.filter p).take (n - found.length)).map f) := by
  induction l generalizing found with
  | nil =>
    rw [List.filter_nil, List.take_nil]
    exact congrArg Except.ok (List.append_nil found).symm
  | cons a rest ih =>
    rw [List.map_cons, scanItems]
    cases hp : p a with
    | false =>
      rw [List.filter_cons_of_neg (by rw [hp]; exact Bool.false_ne_true)]
      exact ih h
    | true =>
      have hlen : (found ++ [f a]).length = found.length + 1 := List.length_append
      rw [List.filter_cons_of_pos hp, if_pos rfl]
      dsimp only
      by_cases hfull : n ≤ (found ++ [f a]).length
      · rw [if_pos (decide_eq_true hfull), show n - found.length = 1 by omega]
        rfl
      · rw [if_neg (by rwa [decide_eq_true_eq]), ih (by omega), hlen,
          show n - found.length = n - (found.length + 1) + 1 by omega, List.take_succ_cons,
          List.map_cons]
        exact congrArg Except.ok (List.append_cons ..).symm

end Loops

end DistillFs.Foundation
