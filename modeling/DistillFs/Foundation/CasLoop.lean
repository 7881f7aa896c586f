import DistillFs.Foundation.Transition

/-!
# Compare-and-exchange loops

Calls update the cells of a shared memory without a lock. A call loads its cell, computes what the
cell should hold next, and puts that in if the cell still holds what was loaded; if it does not, the
call begins again. A call that would change nothing ends with its load.

The calls are the threads of a program, so each of them is made at most once. The memory keeps the
calls that have taken effect, in this order.

## Main definitions

* `CellUpdate`, `CellUpdate.apply`: what a call does, and the same in one step.
* `CasMemory`, `CasPc`, `CasStep`, `casProgram`: the loops.
* `CasMemory.Linearized`: the memory is as if the calls had been made one after the other.

## Main results

* `casProgram_linearized`: the loops are atomic.
* `casProgram_returns`: finitely many calls all return.
-/

namespace DistillFs.Foundation

/-- What a call does to one cell. -/
structure CellUpdate (κ σ : Type*) where
  cell : κ
  update : σ → σ

/-- The memory after an update in one step. -/
def CellUpdate.apply {κ σ : Type*} [DecidableEq κ] (u : CellUpdate κ σ) (memory : κ → σ) : κ → σ :=
  Function.update memory u.cell (u.update (memory u.cell))

/-- The shared memory. -/
structure CasMemory (κ σ τ : Type*) where
  memory : κ → σ
  /-- The calls that have taken effect, in order. -/
  applied : List τ

/-- Where a call stands. It keeps the number of calls that had taken effect when it began. -/
inductive CasPc (σ : Type*)
  | idle
  | called (since : ℕ)
  | loaded (since : ℕ) (old : σ)
  | returned (since : ℕ)

def CasPc.isReturned {σ : Type*} : CasPc σ → Bool
  | .returned _ => true
  | _ => false

theorem CasPc.isReturned_iff {σ : Type*} {pc : CasPc σ} :
    pc.isReturned = true ↔ ∃ since, pc = .returned since := by
  refine ⟨fun h => ?_, fun ⟨_, h⟩ => h ▸ rfl⟩
  cases pc with
  | returned since => exact ⟨since, rfl⟩
  | idle | called | loaded => cases h

section Loops

variable {κ σ τ : Type*} [DecidableEq κ]

/-- The steps of the call `t`. -/
inductive CasStep (op : τ → CellUpdate κ σ) (t : τ) :
    CasMemory κ σ τ → CasPc σ → CasMemory κ σ τ → CasPc σ → Prop
  | call {s : CasMemory κ σ τ} : CasStep op t s .idle s (.called s.applied.length)
  | load {s : CasMemory κ σ τ} {n : ℕ}
      (h : (op t).update (s.memory (op t).cell) ≠ s.memory (op t).cell) :
      CasStep op t s (.called n) s (.loaded n (s.memory (op t).cell))
  | same {s : CasMemory κ σ τ} {n : ℕ}
      (h : (op t).update (s.memory (op t).cell) = s.memory (op t).cell) :
      CasStep op t s (.called n) { s with applied := s.applied ++ [t] } (.returned n)
  | exchange {s : CasMemory κ σ τ} {n : ℕ} {old : σ} (h : s.memory (op t).cell = old) :
      CasStep op t s (.loaded n old)
        ⟨Function.update s.memory (op t).cell ((op t).update old), s.applied ++ [t]⟩ (.returned n)
  | retry {s : CasMemory κ σ τ} {n : ℕ} {old : σ} (h : s.memory (op t).cell ≠ old) :
      CasStep op t s (.loaded n old) s (.called n)

/-- The calls on a memory that holds `memory₀`. -/
def casProgram (op : τ → CellUpdate κ σ) (memory₀ : κ → σ) :
    Program τ Empty (CasMemory κ σ τ) (CasPc σ) where
  init c := c.shared = ⟨memory₀, []⟩ ∧ ∀ t, c.loc t = .idle
  step := CasStep op
  env e _ _ := e.elim

variable {op : τ → CellUpdate κ σ} {memory₀ : κ → σ} {s s' : CasMemory κ σ τ} {pc pc' : CasPc σ}
  {t u : τ} {n : ℕ}

/-- What a step of a call does: the call begins, loads its cell, or begins again, and changes
nothing, or it takes effect. -/
theorem CasStep.cases_effect (h : CasStep op t s pc s' pc') :
    (s' = s ∧ ((pc = .idle ∧ pc' = .called s.applied.length) ∨
      (∃ n, pc = .called n ∧ pc' = .loaded n (s.memory (op t).cell)) ∨
      ∃ n old, pc = .loaded n old ∧ s.memory (op t).cell ≠ old ∧ pc' = .called n)) ∨
    (s'.memory = (op t).apply s.memory ∧ s'.applied = s.applied ++ [t] ∧
      ∃ n, pc' = .returned n ∧ (pc = .called n ∨ ∃ old, pc = .loaded n old)) := by
  cases h with
  | call => exact .inl ⟨rfl, .inl ⟨rfl, rfl⟩⟩
  | load => exact .inl ⟨rfl, .inr (.inl ⟨_, rfl, rfl⟩)⟩
  | retry hne => exact .inl ⟨rfl, .inr (.inr ⟨_, _, rfl, hne, rfl⟩)⟩
  | @same n hsame =>
    refine .inr ⟨?_, rfl, n, rfl, .inl rfl⟩
    rw [CellUpdate.apply, hsame, Function.update_eq_self]
  | @exchange n old hold =>
    subst hold
    exact .inr ⟨rfl, rfl, n, rfl, .inr ⟨_, rfl⟩⟩

/-! ### The calls take effect one after the other -/

/-- The memory is what the calls in `applied`, made one after the other, would leave, and these are
the calls that have returned. A call took effect after all those that had when it began. -/
structure CasMemory.Linearized [DecidableEq τ] (op : τ → CellUpdate κ σ) (memory₀ : κ → σ)
    (c : Config τ (CasMemory κ σ τ) (CasPc σ)) : Prop where
  memory_eq : c.shared.memory = c.shared.applied.foldl (fun m t => (op t).apply m) memory₀
  nodup : c.shared.applied.Nodup
  mem_applied_iff : ∀ t, t ∈ c.shared.applied ↔ (c.loc t).isReturned = true
  since_le : ∀ t n, c.loc t = .returned n → n ≤ c.shared.applied.idxOf t

/-- The calls in `applied` are different, and they made the memory. -/
def CasMemory.Inv (op : τ → CellUpdate κ σ) (memory₀ : κ → σ) (s : CasMemory κ σ τ) : Prop :=
  s.memory = s.applied.foldl (fun m t => (op t).apply m) memory₀ ∧ s.applied.Nodup

variable [DecidableEq τ]

/-- What a call knows about its place in `applied`. -/
def CasPc.Own (t : τ) (s : CasMemory κ σ τ) : CasPc σ → Prop
  | .idle => t ∉ s.applied
  | .called n | .loaded n _ => t ∉ s.applied ∧ n ≤ s.applied.length
  | .returned n => t ∈ s.applied ∧ n ≤ s.applied.idxOf t

omit [DecidableEq κ] in
theorem CasPc.Own.notMem (h : pc.Own t s) (hpc : pc.isReturned = false) : t ∉ s.applied := by
  cases pc with
  | idle => exact h
  | called | loaded => exact h.1
  | returned => cases hpc

omit [DecidableEq κ] in
/-- The effect of another call moves none of the calls before it. -/
theorem CasPc.Own.append (h : pc.Own u s) (hne : u ≠ t) (hs : s'.applied = s.applied ++ [t]) :
    pc.Own u s' := by
  have hnotMem (hu : u ∉ s.applied) : u ∉ s'.applied := by
    rw [hs, List.mem_append, List.mem_singleton]
    exact not_or_intro hu hne
  have hlen : s.applied.length ≤ s'.applied.length := by
    rw [hs, List.length_append]
    exact Nat.le_add_right _ _
  cases pc with
  | idle => exact hnotMem h
  | called n | loaded n _ => exact ⟨hnotMem h.1, h.2.trans hlen⟩
  | returned n =>
    refine ⟨?_, ?_⟩
    · rw [hs]
      exact List.mem_append_left _ h.1
    · rw [hs, List.idxOf_append_of_mem h.1]
      exact h.2

theorem CasStep.own (hinv : s.Inv op memory₀) (hown : pc.Own t s) (h : CasStep op t s pc s' pc') :
    s'.Inv op memory₀ ∧ pc'.Own t s' := by
  obtain ⟨rfl, hquiet⟩ | ⟨hmemory, happlied, n, rfl, hpc⟩ := h.cases_effect
  · refine ⟨hinv, ?_⟩
    obtain ⟨rfl, rfl⟩ | ⟨n, rfl, rfl⟩ | ⟨n, old, rfl, -, rfl⟩ := hquiet
    · exact ⟨hown, le_rfl⟩
    · exact hown
    · exact hown
  · obtain ⟨hnotMem, hn⟩ : t ∉ s.applied ∧ n ≤ s.applied.length := by
      obtain rfl | ⟨old, rfl⟩ := hpc
      · exact hown
      · exact hown
    refine ⟨⟨?_, ?_⟩, ?_, ?_⟩
    · rw [hmemory, happlied, List.foldl_append, ← hinv.1]
      rfl
    · rw [happlied, List.nodup_append]
      exact ⟨hinv.2, List.nodup_singleton t, fun a ha b hb => by
        rw [List.mem_singleton.mp hb]
        exact ne_of_mem_of_not_mem ha hnotMem⟩
    · rw [happlied]
      exact List.mem_append_right _ (List.mem_singleton_self t)
    · rw [happlied, List.idxOf_append_of_notMem hnotMem]
      exact hn.trans (Nat.le_add_right _ _)

/-- **The loops are atomic.** In every interleaving the memory is as if each call that has returned
had updated its cell in one step, at a moment between its beginning and its return. -/
theorem casProgram_linearized {c : Config τ (CasMemory κ σ τ) (CasPc σ)}
    (hc : (casProgram op memory₀).toSystem.Reachable c) : CasMemory.Linearized op memory₀ c := by
  have hholds := Program.invariant (I := CasMemory.Inv op memory₀) (A := fun t s pc => pc.Own t s)
    (fun c hinit => ?_) (fun c t s' pc' hholds _ h => CasStep.own hholds.1 (hholds.2 t) h)
    (fun c t u s' pc' hholds _ hne h => ?_) (fun _ e => e.elim) hc
  · refine ⟨hholds.1.1, hholds.1.2, fun t => ?_, fun t n ht => ?_⟩
    · have hown := hholds.2 t
      refine ⟨fun hmem => ?_, fun hreturned => ?_⟩
      · by_contra hnot
        exact hown.notMem (Bool.eq_false_iff.mpr hnot) hmem
      · cases hpc : c.loc t with
        | returned n => exact (hpc ▸ hown).1
        | _ => rw [hpc] at hreturned; cases hreturned
    · have hown := hholds.2 t
      rw [ht] at hown
      exact hown.2
  · refine ⟨⟨?_, ?_⟩, fun t => ?_⟩
    · rw [hinit.1]
      rfl
    · rw [hinit.1]
      exact List.nodup_nil
    · rw [hinit.2 t, hinit.1]
      exact List.not_mem_nil
  · obtain ⟨rfl, -⟩ | ⟨-, happlied, -⟩ := CasStep.cases_effect h
    · exact hholds.2 u
    · exact (hholds.2 u).append hne happlied

/-! ### Finitely many calls return -/

variable [DecidableEq σ]

/-- How far a call is from its return, if no other call takes effect. -/
def CasPc.distance (op : τ → CellUpdate κ σ) (memory : κ → σ) (t : τ) : CasPc σ → ℕ
  | .idle => 3
  | .called _ => 2
  | .loaded _ old => if memory (op t).cell = old then 1 else 3
  | .returned _ => 0

/-- The calls that have not returned. -/
def pendingCalls [Fintype τ] (loc : τ → CasPc σ) : Finset τ :=
  Finset.univ.filter fun t => (loc t).isReturned = false

/-- The number of calls that have not returned, and how far they are from it. -/
def casRank [Fintype τ] (op : τ → CellUpdate κ σ) (memory : κ → σ) (loc : τ → CasPc σ) : ℕ ×ₗ ℕ :=
  toLex ((pendingCalls loc).card, ∑ t, (loc t).distance op memory t)

omit [DecidableEq κ] [DecidableEq σ] in
theorem pendingCalls_update [Fintype τ] {loc : τ → CasPc σ} (h : (loc t).isReturned = false) :
    pendingCalls (Function.update loc t pc) =
      if pc.isReturned = true then (pendingCalls loc).erase t else pendingCalls loc := by
  ext u
  by_cases hu : u = t
  · subst hu
    cases hpc : pc.isReturned <;> simp [pendingCalls, hpc, h]
  · split_ifs <;> simp [pendingCalls, hu]

omit [DecidableEq κ] in
/-- A call that changes nothing comes closer to its return. -/
theorem casRank_lt_of_distance [Fintype τ] {memory : κ → σ} {loc : τ → CasPc σ}
    (hpc : (loc t).isReturned = false) (hpc' : pc'.isReturned = false)
    (h : pc'.distance op memory t < (loc t).distance op memory t) :
    casRank op memory (Function.update loc t pc') < casRank op memory loc := by
  refine Prod.Lex.toLex_lt_toLex.mpr (Or.inr ⟨?_, ?_⟩)
  · rw [pendingCalls_update hpc, hpc', if_neg Bool.false_ne_true]
  · refine Finset.sum_lt_sum (fun u _ => ?_) ⟨t, Finset.mem_univ t, ?_⟩
    · by_cases hu : u = t
      · subst hu
        rw [Function.update_self]
        exact h.le
      · rw [Function.update_of_ne hu]
    · rw [Function.update_self]
      exact h

theorem casRank_lt [Fintype τ] {loc : τ → CasPc σ} (h : CasStep op t s (loc t) s' pc') :
    casRank op s'.memory (Function.update loc t pc') < casRank op s.memory loc := by
  obtain ⟨rfl, hquiet⟩ | ⟨-, -, n, rfl, hpc⟩ := h.cases_effect
  · obtain ⟨hpc, rfl⟩ | ⟨n, hpc, rfl⟩ | ⟨n, old, hpc, hne, rfl⟩ := hquiet
    · refine casRank_lt_of_distance (by rw [hpc]; rfl) rfl ?_
      rw [hpc]
      exact Nat.lt_succ_self 2
    · refine casRank_lt_of_distance (by rw [hpc]; rfl) rfl ?_
      rw [hpc]
      exact (if_pos rfl).trans_lt (Nat.lt_succ_self 1)
    · refine casRank_lt_of_distance (by rw [hpc]; rfl) rfl ?_
      rw [hpc, CasPc.distance, CasPc.distance, if_neg hne]
      exact Nat.lt_succ_self 2
  · have hpending : (loc t).isReturned = false := by
      obtain hpc | ⟨old, hpc⟩ := hpc
      · rw [hpc]
        rfl
      · rw [hpc]
        rfl
    refine Prod.Lex.toLex_lt_toLex.mpr (Or.inl ?_)
    rw [pendingCalls_update hpending, CasPc.isReturned, if_pos rfl]
    exact Finset.card_erase_lt_of_mem (Finset.mem_filter.mpr ⟨Finset.mem_univ t, hpending⟩)

/-- **The calls return.** Every run of finitely many calls comes to a state in which all of them
have returned: a call begins again only when another one has taken effect. -/
theorem casProgram_returns [Fintype τ] (c : Config τ (CasMemory κ σ τ) (CasPc σ)) :
    (casProgram op memory₀).toSystem.Inevitable (fun c => ∀ t, (c.loc t).isReturned = true) c := by
  refine System.Inevitable.of_rank (I := fun _ => True)
    (fun c => casRank op c.shared.memory c.loc) (fun _ _ _ _ _ => trivial)
    (fun c a c' _ h => ?_) (fun c _ => ?_) trivial
  · cases h with
    | thread h => exact casRank_lt h
    | env h => rename_i e _; exact e.elim
  by_cases hall : ∀ t, (c.loc t).isReturned = true
  · exact Or.inl hall
  obtain ⟨t, ht⟩ := not_forall.mp hall
  have hmove {s' : CasMemory κ σ τ} {pc pc' : CasPc σ} (hpc : c.loc t = pc)
      (h : CasStep op t c.shared pc s' pc') :
      ∃ a c', (casProgram op memory₀).toSystem.step c a c' :=
    ⟨_, _, Program.Step.thread (hpc.symm ▸ h)⟩
  refine Or.inr ?_
  cases hpc : c.loc t with
  | idle => exact hmove hpc .call
  | called n =>
    by_cases hsame : (op t).update (c.shared.memory (op t).cell) = c.shared.memory (op t).cell
    · exact hmove hpc (.same hsame)
    · exact hmove hpc (.load hsame)
  | loaded n old =>
    by_cases hold : c.shared.memory (op t).cell = old
    · exact hmove hpc (.exchange hold)
    · exact hmove hpc (.retry hold)
  | returned n =>
    rw [hpc] at ht
    exact absurd rfl ht

end Loops

end DistillFs.Foundation
