import DistillFs.Foundation.Bitmap
import DistillFs.Foundation.CasLoop

/-!
# Bits that are set without a lock

The cache marks the chunks that it holds in the bytes of its bitmap file, and a dedup reader marks
the chunks it has handed to its worker in a vector of words. Threads set and clear these bits with
loops of compare-and-exchange on the byte or word, which holds the bits of other chunks as well.

The other modules set and clear a bit in one step. Here the loops are shown to do that: no call
undoes what another one did to a neighbouring bit, or to the same bit before.

## Main definitions

* `BitCall`: a call of `set_bit` or `clear_bit`, as a loop and as one step on the bitmap.
* `lastBitCall`: the call that decides a bit.
* `markChunkDedup`, `chunkIsDedup`: the words of a dedup reader.

## Main results

* `bitmap_calls_atomic`: the bitmap is that of the calls made one after the other.
* `dedup_marks_kept`: exactly the chunks that were marked are.
-/

namespace DistillFs

open Foundation

/-! ### The bitmap of the cache -/

/-- A call of `set_bit` or `clear_bit` for the bit of a chunk. -/
inductive BitCall
  | setBit (idx : ℕ)
  | clearBit (idx : ℕ)

namespace BitCall

/-- The chunk of the call. -/
def idx : BitCall → ℕ
  | setBit idx | clearBit idx => idx

/-- Whether the call sets the bit. -/
def sets : BitCall → Bool
  | setBit _ => true
  | clearBit _ => false

/-- The body of the loop: the byte of the chunk, and what it is exchanged for. -/
def loop : BitCall → CellUpdate ℕ UInt8
  | setBit idx => ⟨idx / 8, fun old => old ||| bitMask (idx % 8)⟩
  | clearBit idx => ⟨idx / 8, fun old => old &&& ~~~bitMask (idx % 8)⟩

/-- The call in one step. -/
def apply (call : BitCall) (bitmap : ByteFile) : ByteFile :=
  match call with
  | setBit idx => bitmap.setBit idx
  | clearBit idx => bitmap.clearBit idx

@[simp] theorem len_apply (call : BitCall) (bitmap : ByteFile) :
    (call.apply bitmap).len = bitmap.len := by
  cases call with
  | setBit idx => exact bitmap.len_setBit idx
  | clearBit idx => exact bitmap.len_clearBit idx

/-- The loop puts in what the step does, if the bitmap has a byte for the chunk. -/
theorem byte_apply {call : BitCall} {bitmap : ByteFile} (h : call.idx / 8 < bitmap.len) :
    (call.apply bitmap).byte = call.loop.apply bitmap.byte := by
  have hbyte (i : ℕ) (hi : i < bitmap.len) (u : UInt8 → UInt8) :
      (bitmap.modify i u).byte = Function.update bitmap.byte i (u (bitmap.byte i)) := by
    ext j
    by_cases hj : j = i
    · rw [hj, ByteFile.byte_modify, if_pos ⟨rfl, hi⟩, Function.update_self]
    · rw [ByteFile.byte_modify, if_neg fun h => hj h.1, Function.update_of_ne hj]
  cases call with
  | setBit idx => exact hbyte _ h _
  | clearBit idx => exact hbyte _ h _

theorem testBit_apply {call : BitCall} {bitmap : ByteFile} (h : call.idx / 8 < bitmap.len)
    (j : ℕ) :
    (call.apply bitmap).testBit j = if call.idx = j then call.sets else bitmap.testBit j := by
  cases call with
  | setBit idx =>
    refine (bitmap.testBit_setBit idx h j).trans ?_
    by_cases hj : idx = j
    · simp [BitCall.idx, sets, hj]
    · simp [BitCall.idx, hj, Ne.symm hj]
  | clearBit idx =>
    refine (bitmap.testBit_clearBit idx j).trans ?_
    by_cases hj : idx = j
    · simp [BitCall.idx, sets, hj]
    · simp [BitCall.idx, hj, Ne.symm hj]

end BitCall

/-- The bitmap after calls that are made one after the other. -/
def bitmapAfter (order : List BitCall) (bitmap : ByteFile) : ByteFile :=
  order.foldl (fun m call => call.apply m) bitmap

/-- The last call for a chunk. -/
def lastBitCall (order : List BitCall) (idx : ℕ) : Option BitCall :=
  (order.filter fun call => call.idx = idx).getLast?

section Order

variable {order : List BitCall} {bitmap : ByteFile}

theorem bitmapAfter_concat (call : BitCall) :
    bitmapAfter (order ++ [call]) bitmap = call.apply (bitmapAfter order bitmap) := by
  rw [bitmapAfter, List.foldl_append]
  rfl

theorem len_bitmapAfter : (bitmapAfter order bitmap).len = bitmap.len := by
  induction order using List.reverseRecOn with
  | nil => rfl
  | append_singleton order call ih => rw [bitmapAfter_concat, BitCall.len_apply, ih]

/-- The loops, each without interruption, do what the calls do in one step. -/
theorem byte_bitmapAfter (h : ∀ call ∈ order, call.idx / 8 < bitmap.len) :
    (bitmapAfter order bitmap).byte =
      order.foldl (fun memory call => call.loop.apply memory) bitmap.byte := by
  induction order using List.reverseRecOn with
  | nil => rfl
  | append_singleton order call ih =>
    obtain ⟨hrest, hcall⟩ := List.forall_mem_append.mp h
    have hlen : call.idx / 8 < (bitmapAfter order bitmap).len := by
      rw [len_bitmapAfter]
      exact hcall call (List.mem_singleton_self call)
    rw [bitmapAfter_concat, BitCall.byte_apply hlen, ih hrest, List.foldl_append]
    rfl

theorem lastBitCall_concat (call : BitCall) (idx : ℕ) : lastBitCall (order ++ [call]) idx =
    if call.idx = idx then some call else lastBitCall order idx := by
  rw [lastBitCall, List.filter_append]
  split_ifs with hidx
  · rw [List.filter_singleton, decide_eq_true hidx, cond_true, List.getLast?_concat]
  · rw [List.filter_singleton, decide_eq_false hidx, cond_false, List.append_nil, lastBitCall]

/-- The last call for a chunk decides its bit. -/
theorem testBit_bitmapAfter (h : ∀ call ∈ order, call.idx / 8 < bitmap.len) (idx : ℕ) :
    (bitmapAfter order bitmap).testBit idx =
      ((lastBitCall order idx).map BitCall.sets).getD (bitmap.testBit idx) := by
  induction order using List.reverseRecOn with
  | nil => rfl
  | append_singleton order call ih =>
    obtain ⟨hrest, hcall⟩ := List.forall_mem_append.mp h
    have hlen : call.idx / 8 < (bitmapAfter order bitmap).len := by
      rw [len_bitmapAfter]
      exact hcall call (List.mem_singleton_self call)
    rw [bitmapAfter_concat, BitCall.testBit_apply hlen, ih hrest, lastBitCall_concat]
    split_ifs
    · rfl
    · rfl

end Order

section Bitmap

variable {τ : Type*} [DecidableEq τ] {bitmap : ByteFile} {calls : τ → BitCall}
  {c : Config τ (CasMemory ℕ UInt8 τ) (CasPc UInt8)}

/-- Any number of calls of `set_bit` and `clear_bit` on one bitmap. -/
def bitmapProgram (calls : τ → BitCall) (bitmap : ByteFile) :
    Program τ Empty (CasMemory ℕ UInt8 τ) (CasPc UInt8) :=
  casProgram (fun t => (calls t).loop) bitmap.byte

/-- The bytes of the bitmap are those that the calls which have returned make one after the other,
each in one step: the calls of `order`, in which each stands behind all the calls that had returned
when it began. So the last of them for a chunk decides its bit. -/
structure BitmapAtomic (calls : τ → BitCall) (bitmap : ByteFile)
    (c : Config τ (CasMemory ℕ UInt8 τ) (CasPc UInt8)) (order : List τ) : Prop where
  nodup : order.Nodup
  mem_order_iff : ∀ t, t ∈ order ↔ ∃ since, c.loc t = .returned since
  since_le : ∀ t since, c.loc t = .returned since → since ≤ order.idxOf t
  bytes : c.shared.memory = (bitmapAfter (order.map calls) bitmap).byte
  bit : ∀ idx, (bitmapAfter (order.map calls) bitmap).testBit idx =
    ((lastBitCall (order.map calls) idx).map BitCall.sets).getD (bitmap.testBit idx)

/-- **The bitmap is changed bit by bit.** Whatever the interleaving of the loops, the bitmap holds
what the calls that have returned leave, one made after the other. -/
theorem bitmap_calls_atomic (hin : ∀ t, (calls t).idx / 8 < bitmap.len)
    (hc : (bitmapProgram calls bitmap).toSystem.Reachable c) :
    BitmapAtomic calls bitmap c c.shared.applied := by
  have h := casProgram_linearized hc
  have hlen : ∀ call ∈ c.shared.applied.map calls, call.idx / 8 < bitmap.len := by
    intro call hcall
    obtain ⟨t, -, rfl⟩ := List.mem_map.mp hcall
    exact hin t
  refine ⟨h.nodup, fun t => ?_, h.since_le, ?_, fun idx => testBit_bitmapAfter hlen idx⟩
  · exact (h.mem_applied_iff t).trans CasPc.isReturned_iff
  · rw [byte_bitmapAfter hlen, List.foldl_map]
    exact h.memory_eq

/-- Two calls for chunks of one byte: the first one has loaded it when the second one is made, and
begins again. -/
theorem bitmap_calls_atomic_twoCalls : ∃ c : Config Bool (CasMemory ℕ UInt8 Bool) (CasPc UInt8),
    c.shared.memory 0 = 3 ∧
      BitmapAtomic (fun t => cond t (.setBit 0) (.setBit 1)) (ByteFile.ofList [0]) c
        c.shared.applied := by
  have h₀ : (bitmapProgram (fun t => cond t (.setBit 0) (.setBit 1))
      (ByteFile.ofList [0])).toSystem.Reachable
      ⟨⟨_, []⟩, fun t => cond t .idle .idle⟩ := .init ⟨rfl, fun t => by cases t <;> rfl⟩
  have h₁ := Program.Reach.fst h₀ trivial .call
  have h₂ := Program.Reach.fst h₁ trivial (.load (by decide))
  have h₃ := Program.Reach.snd h₂ trivial .call
  have h₄ := Program.Reach.snd h₃ trivial (.load (by decide))
  have h₅ := Program.Reach.snd h₄ trivial (.exchange rfl)
  have h₆ := Program.Reach.fst h₅ trivial (.retry (by decide))
  have h₇ := Program.Reach.fst h₆ trivial (.load (by decide))
  have h₈ := Program.Reach.fst h₇ trivial (.exchange rfl)
  exact ⟨_, by decide, bitmap_calls_atomic (fun t => by cases t <;> decide) h₈⟩

end Bitmap

/-! ### The words of a dedup reader -/

/-- The word with only bit `s` set. -/
def wordMask (s : ℕ) : UInt64 := 1 <<< UInt64.ofNat s

/-- `chunk_is_dedup`. -/
def chunkIsDedup (dedupChunks : ℕ → UInt64) (idx : ℕ) : Bool :=
  dedupChunks (idx / 64) &&& wordMask (idx % 64) != 0

/-- The body of the loop of `mark_chunk_dedup`. -/
def markChunkDedup (idx : ℕ) : CellUpdate ℕ UInt64 :=
  ⟨idx / 64, fun old => old ||| wordMask (idx % 64)⟩

theorem toNat_wordMask {s : ℕ} (hs : s < 64) : (wordMask s).toNat = 2 ^ s := by
  have hs' : s % 2 ^ 64 % 64 = s := by omega
  rw [wordMask, UInt64.toNat_shiftLeft, UInt64.toNat_ofNat', hs', UInt64.toNat_one,
    Nat.one_shiftLeft]
  exact Nat.mod_eq_of_lt (Nat.pow_lt_pow_right (by decide) hs)

theorem chunkIsDedup_eq (dedupChunks : ℕ → UInt64) (idx : ℕ) :
    chunkIsDedup dedupChunks idx = (dedupChunks (idx / 64)).toNat.testBit (idx % 64) := by
  have hmask : (wordMask (idx % 64)).toNat = 2 ^ (idx % 64) :=
    toNat_wordMask (Nat.mod_lt _ (by decide))
  have hand : (dedupChunks (idx / 64) &&& wordMask (idx % 64) = 0) ↔
      (dedupChunks (idx / 64)).toNat.testBit (idx % 64) = false := by
    rw [← UInt64.toNat_inj, UInt64.toNat_and, hmask, Nat.and_two_pow]
    cases (dedupChunks (idx / 64)).toNat.testBit (idx % 64) with
    | false => simp
    | true => simp
  cases hbit : (dedupChunks (idx / 64)).toNat.testBit (idx % 64) with
  | false => simp [chunkIsDedup, hand, hbit]
  | true => simp [chunkIsDedup, hand, hbit]

/-- A mark changes the bit of its chunk only. -/
theorem chunkIsDedup_apply (idx j : ℕ) (dedupChunks : ℕ → UInt64) :
    chunkIsDedup ((markChunkDedup idx).apply dedupChunks) j =
      (chunkIsDedup dedupChunks j || decide (idx = j)) := by
  rw [chunkIsDedup_eq, chunkIsDedup_eq, CellUpdate.apply, markChunkDedup]
  by_cases hword : j / 64 = idx / 64
  · have hidx : idx % 64 = j % 64 ↔ idx = j := by omega
    rw [hword, Function.update_self, UInt64.toNat_or, Nat.testBit_or,
      toNat_wordMask (Nat.mod_lt _ (by decide)), Nat.testBit_two_pow]
    simp only [hidx]
  · have hidx : idx ≠ j := by
      rintro rfl
      exact hword rfl
    rw [Function.update_of_ne hword, decide_eq_false hidx, Bool.or_false]

theorem chunkIsDedup_foldl {τ : Type*} (marks : τ → ℕ) (order : List τ)
    (dedupChunks : ℕ → UInt64) (j : ℕ) :
    chunkIsDedup (order.foldl (fun m t => (markChunkDedup (marks t)).apply m) dedupChunks) j =
      (chunkIsDedup dedupChunks j || decide (∃ t ∈ order, marks t = j)) := by
  induction order generalizing dedupChunks with
  | nil => simp
  | cons t order ih => rw [List.foldl_cons, ih, chunkIsDedup_apply]; simp [Bool.or_assoc]

section Dedup

variable {τ : Type*} [DecidableEq τ] {marks : τ → ℕ}
  {c : Config τ (CasMemory ℕ UInt64 τ) (CasPc UInt64)}

/-- Any number of calls of `mark_chunk_dedup` on the words of a new reader. -/
def markProgram (marks : τ → ℕ) : Program τ Empty (CasMemory ℕ UInt64 τ) (CasPc UInt64) :=
  casProgram (fun t => markChunkDedup (marks t)) fun _ => 0

/-- The chunks that count as dedup are those whose mark has taken effect. -/
theorem chunkIsDedup_memory (hc : (markProgram marks).toSystem.Reachable c) (idx : ℕ) :
    chunkIsDedup c.shared.memory idx = true ↔
      ∃ t, (c.loc t).isReturned = true ∧ marks t = idx := by
  have h := casProgram_linearized hc
  have hzero : chunkIsDedup (fun _ => 0) idx = false := by
    rw [chunkIsDedup_eq, UInt64.toNat_zero, Nat.zero_testBit]
  rw [h.memory_eq, chunkIsDedup_foldl, hzero, Bool.false_or, decide_eq_true_eq]
  simp only [h.mem_applied_iff]

/-- **No mark is lost.** Whatever the interleaving of the loops, the chunks that count as dedup are
those for which a call has returned; and if the calls are finitely many, every run comes to a state
in which they are the chunks of all calls. -/
theorem dedup_marks_kept (hc : (markProgram marks).toSystem.Reachable c) :
    (∀ idx, chunkIsDedup c.shared.memory idx = true ↔
      ∃ t, (c.loc t).isReturned = true ∧ marks t = idx) ∧
    ∀ _ : Fintype τ, (markProgram marks).toSystem.Inevitable
      (fun c => ∀ idx, chunkIsDedup c.shared.memory idx = true ↔ ∃ t, marks t = idx) c := by
  refine ⟨chunkIsDedup_memory hc, fun _ => ?_⟩
  refine System.Inevitable.imp (fun _ _ _ hs h => System.Reachable.next hs h)
    (fun c hc hall idx => ?_) (casProgram_returns c) hc
  rw [chunkIsDedup_memory hc]
  exact exists_congr fun t => and_iff_right (hall t)

/-- The first of two marks in one word is made while the second one is at its exchange. -/
theorem dedup_marks_kept_twoCalls : ∃ c : Config Bool (CasMemory ℕ UInt64 Bool) (CasPc UInt64),
    (∀ t, (c.loc t).isReturned = true) ∧ ∀ idx, chunkIsDedup c.shared.memory idx = true ↔
      ∃ t, (c.loc t).isReturned = true ∧ cond t 5 9 = idx := by
  have h₀ : (markProgram fun t => cond t 5 9).toSystem.Reachable
      ⟨⟨_, []⟩, fun t => cond t .idle .idle⟩ := .init ⟨rfl, fun t => by cases t <;> rfl⟩
  have h₁ := Program.Reach.fst h₀ trivial .call
  have h₂ := Program.Reach.snd h₁ trivial .call
  have h₃ := Program.Reach.snd h₂ trivial (.load (by decide))
  have h₄ := Program.Reach.fst h₃ trivial (.load (by decide))
  have h₅ := Program.Reach.fst h₄ trivial (.exchange rfl)
  have h₆ := Program.Reach.snd h₅ trivial (.retry (by decide))
  have h₇ := Program.Reach.snd h₆ trivial (.load (by decide))
  have h₈ := Program.Reach.snd h₇ trivial (.exchange rfl)
  exact ⟨_, fun t => by cases t <;> rfl, (dedup_marks_kept h₈).1⟩

end Dedup

end DistillFs
