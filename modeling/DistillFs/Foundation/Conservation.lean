import DistillFs.Foundation.Transition

/-!
# Conservation laws

The threads of a program hold amounts of something, and the rest is free in the shared state. If
every step of a thread only moves amounts between the thread and the shared state, what is held and
what is free together never change. Threads may be infinitely many; at any time only finitely many
of them hold anything.

## Main results

* `Program.conserved`: the law.
* `Program.Balanced.sum_held_le`: what some threads hold together is not more than there is.
* `Program.Balanced.exists_holders`: the threads that hold one of a thing.
-/

namespace DistillFs.Foundation

namespace Program

variable {τ ε σ ℓ M : Type*} [DecidableEq τ] {P : Program τ ε σ ℓ}
  {ok : Config τ σ ℓ → τ ⊕ ε → Prop} {c : Config τ σ ℓ}

/-- What the threads hold and what is free are `total` together. -/
def Balanced [AddCommMonoid M] (free : σ → M) (held : ℓ → M) (total : M) (c : Config τ σ ℓ) :
    Prop :=
  ∃ T : Finset τ, (∀ t, t ∉ T → held (c.loc t) = 0) ∧
    free c.shared + ∑ t ∈ T, held (c.loc t) = total

section Law

variable [AddCommMonoid M] {free : σ → M} {held : ℓ → M} {total : M}

/-- A move between one thread and the shared state keeps the balance. -/
theorem Balanced.thread (h : Balanced free held total c) {t : τ} {s' : σ} {l' : ℓ}
    (hmove : free s' + held l' = free c.shared + held (c.loc t)) :
    Balanced free held total ⟨s', Function.update c.loc t l'⟩ := by
  obtain ⟨T, hout, hsum⟩ := h
  have hrest : (∑ u ∈ T.erase t, held (Function.update c.loc t l' u) : M) =
      ∑ u ∈ T.erase t, held (c.loc u) := Finset.sum_congr rfl fun u hu => by
    rw [Function.update_of_ne (Finset.ne_of_mem_erase hu)]
  have hold : held (c.loc t) + ∑ u ∈ T.erase t, held (c.loc u) = ∑ u ∈ T, held (c.loc u) := by
    by_cases ht : t ∈ T
    · exact Finset.add_sum_erase T (fun u => held (c.loc u)) ht
    · rw [hout t ht, zero_add, Finset.erase_eq_of_notMem ht]
  refine ⟨insert t (T.erase t), fun u hu => ?_, ?_⟩
  · obtain ⟨hne, hnot⟩ := not_or.mp (mt Finset.mem_insert.mpr hu)
    change held (Function.update c.loc t l' u) = 0
    rw [Function.update_of_ne hne]
    exact hout u fun hin => hnot (Finset.mem_erase.mpr ⟨hne, hin⟩)
  · rw [Finset.sum_insert (Finset.notMem_erase t T)]
    change free s' + (held (Function.update c.loc t l' t) + _) = total
    rw [hrest, Function.update_self, ← add_assoc, hmove, add_assoc, hold, hsum]

/-- **A conservation law.** If a step of a thread only moves amounts between the thread and the
shared state, and the environment moves none, the balance is the one at the start. -/
theorem conserved (hinit : ∀ c, P.init c → free c.shared = total ∧ ∀ t, held (c.loc t) = 0)
    (hstep : ∀ t s l s' l', P.step t s l s' l' → free s' + held l' = free s + held l)
    (henv : ∀ e s s', P.env e s s' → free s' = free s) (hc : P.toSystem.Reach ok c) :
    Balanced free held total c := by
  refine System.Reach.invariant (fun c h => ?_) (fun c a c' h _ hmove => ?_) hc
  · obtain ⟨hfree, hheld⟩ := hinit c h
    exact ⟨∅, fun t _ => hheld t, by rw [Finset.sum_empty, add_zero, hfree]⟩
  · cases hmove with
    | thread hthread => exact h.thread (hstep _ _ _ _ _ hthread)
    | env henv' =>
      obtain ⟨T, hout, hsum⟩ := h
      exact ⟨T, hout, (congrArg (· + _) (henv _ _ _ henv')).trans hsum⟩

end Law

/-- What some threads hold together is not more than there is. -/
theorem Balanced.sum_held_le {free : σ → ℕ} {held : ℓ → ℕ} {total : ℕ}
    (h : Balanced free held total c) (F : Finset τ) :
    free c.shared + ∑ t ∈ F, held (c.loc t) ≤ total := by
  obtain ⟨T, hout, hsum⟩ := h
  refine le_trans (Nat.add_le_add_left ?_ _) hsum.le
  refine Finset.sum_le_sum_of_ne_zero fun t _ hne => ?_
  by_contra hnot
  exact hne (hout t hnot)

/-- Where each thread holds one or nothing, the holders are finitely many, and as many as are not
free. -/
theorem Balanced.exists_holders {free : σ → ℤ} {p : ℓ → Prop} [DecidablePred p] {total : ℤ}
    (h : Balanced free (fun l => if p l then 1 else 0) total c) :
    ∃ F : Finset τ, (∀ t, t ∈ F ↔ p (c.loc t)) ∧ free c.shared + F.card = total := by
  obtain ⟨T, hout, hsum⟩ := h
  refine ⟨T.filter fun t => p (c.loc t), fun t => ?_, ?_⟩
  · refine ⟨fun ht => (Finset.mem_filter.mp ht).2, fun ht => Finset.mem_filter.mpr ⟨?_, ht⟩⟩
    by_contra hnot
    exact one_ne_zero ((if_pos ht).symm.trans (hout t hnot))
  · rw [Finset.card_filter, Nat.cast_sum, ← hsum]
    exact congrArg _ (Finset.sum_congr rfl fun t _ => apply_ite _ _ _ _)

end Program

end DistillFs.Foundation
