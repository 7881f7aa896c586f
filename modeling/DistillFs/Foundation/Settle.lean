import Mathlib.Order.Basic

/-!
# Computations that settle

A computation that reads through caches fills them on its way. What a state holds in its caches
forms a preorder, and a computation settles when it never holds less afterwards, and when a success
can be had again from every state that holds as much as the one it left: with the same result, and
without any change of what is held.

Settling computations compose, so a long read settles because each of its parts does.

## Main definitions

* `Settles`: the computations that settle.
* `andThen`: one computation after another, up to the first error.

## Main results

* `Settles.andThen`: the composition of computations that settle.
* `Settles.onPart`: a computation on a part of the state.
-/

namespace DistillFs.Foundation

variable {σ τ γ δ ε α β : Type*}

/-- From states with `inv` the computation only adds to what is held, and a success comes again
from every state with `ready` that holds as much as the state it left. -/
structure Settles [Preorder γ] (inv ready : σ → Prop) (held : σ → γ) (f : σ → Except ε α × σ) :
    Prop where
  grows : ∀ s, inv s → inv (f s).2 ∧ held s ≤ held (f s).2
  again : ∀ s a, inv s → (f s).1 = .ok a → ∀ t, ready t → held (f s).2 ≤ held t →
    (f t).1 = .ok a ∧ ready (f t).2 ∧ held (f t).2 = held t

/-- `f`, and `g` with its result unless it fails. -/
def andThen (f : σ → Except ε α × σ) (g : α → σ → Except ε β × σ) (s : σ) : Except ε β × σ :=
  match f s with
  | (.error e, s') => (.error e, s')
  | (.ok a, s') => g a s'

theorem andThen_error {f : σ → Except ε α × σ} {g : α → σ → Except ε β × σ} {s : σ} {e : ε}
    (h : (f s).1 = .error e) : andThen f g s = (.error e, (f s).2) := by
  rcases hf : f s with ⟨r, s'⟩
  rw [hf] at h
  obtain rfl : r = .error e := h
  rw [andThen, hf]

theorem andThen_ok {f : σ → Except ε α × σ} {g : α → σ → Except ε β × σ} {s : σ} {a : α}
    (h : (f s).1 = .ok a) : andThen f g s = g a (f s).2 := by
  rcases hf : f s with ⟨r, s'⟩
  rw [hf] at h
  obtain rfl : r = .ok a := h
  rw [andThen, hf]

namespace Settles

variable [Preorder γ] {inv ready : σ → Prop} {held : σ → γ}

theorem const (r : Except ε α) : Settles inv ready held fun s => (r, s) where
  grows _ hs := ⟨hs, le_rfl⟩
  again _ _ _ ha _ ht _ := ⟨ha, ht, rfl⟩

/-- The states of the second run may be restricted. -/
theorem under {f : σ → Except ε α × σ} (hf : Settles inv ready held f) (P : Prop) :
    Settles inv (fun t => P ∧ ready t) held f where
  grows := hf.grows
  again s a hs ha t ht hle := by
    obtain ⟨hok, hready, hsame⟩ := hf.again s a hs ha t ht.2 hle
    exact ⟨hok, ⟨ht.1, hready⟩, hsame⟩

/-- **Composition.** The second computation has to settle for the results of the first. -/
theorem andThen {f : σ → Except ε α × σ} {g : α → σ → Except ε β × σ}
    (hf : Settles inv ready held f)
    (hg : ∀ s a, inv s → (f s).1 = .ok a → Settles inv ready held (g a)) :
    Settles inv ready held (andThen f g) where
  grows s hs := by
    obtain ⟨hinv, hle⟩ := hf.grows s hs
    cases hr : (f s).1 with
    | error e =>
      rw [andThen_error hr]
      exact ⟨hinv, hle⟩
    | ok a =>
      rw [andThen_ok hr]
      obtain ⟨hinv', hle'⟩ := (hg s a hs hr).grows _ hinv
      exact ⟨hinv', hle.trans hle'⟩
  again s b hs hb t ht hle := by
    obtain ⟨hinv, -⟩ := hf.grows s hs
    cases hr : (f s).1 with
    | error e =>
      rw [andThen_error hr] at hb
      cases hb
    | ok a =>
      rw [andThen_ok hr] at hb hle
      have hsettles := hg s a hs hr
      -- the state in the middle is below the last one, so the first result comes again
      obtain ⟨hagain, hready, hsame⟩ :=
        hf.again s a hs hr t ht ((hsettles.grows _ hinv).2.trans hle)
      obtain ⟨hb', hready', hsame'⟩ := hsettles.again _ b hinv hb (f t).2 hready (hsame ▸ hle)
      rw [andThen_ok hagain]
      exact ⟨hb', hready', hsame'.trans hsame⟩

/-- A computation on a part of the state settles in the whole state, where what is held is what the
part holds beside something else. -/
theorem onPart [Preorder δ] {invP readyP : τ → Prop} {heldP : τ → δ} {f : τ → Except ε α × τ}
    (hf : Settles invP readyP heldP f) (get : σ → τ) (set : τ → σ → σ)
    (hinv : ∀ s, inv s → invP (get s))
    (hset : ∀ s w, inv s → invP w → inv (set w s))
    (hready : ∀ t, ready t → readyP (get t))
    (hset' : ∀ t w, ready t → readyP w → ready (set w t))
    (hle : ∀ s w, heldP (get s) ≤ heldP w → held s ≤ held (set w s))
    (hget : ∀ s t w, held (set w s) ≤ held t → heldP w ≤ heldP (get t))
    (hsame : ∀ s w, heldP w = heldP (get s) → held (set w s) = held s) :
    Settles inv ready held fun s => ((f (get s)).1, set (f (get s)).2 s) where
  grows s hs := by
    obtain ⟨hinv', hle'⟩ := hf.grows _ (hinv s hs)
    exact ⟨hset s _ hs hinv', hle s _ hle'⟩
  again s a hs ha t ht hst := by
    obtain ⟨hagain, hready', hsame'⟩ :=
      hf.again _ a (hinv s hs) ha _ (hready t ht) (hget s t _ hst)
    exact ⟨hagain, hset' t _ ht hready', hsame t _ hsame'⟩

end Settles

end DistillFs.Foundation
