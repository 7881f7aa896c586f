import DistillFs.Foundation.Batches

/-!
# Commands in pipelines

Commands act on a state and answer some results. A pipeline is a list of commands that are executed
one after the other. A long list of commands is sent in several pipelines, each of which may fail;
a pipeline that fails is not executed, and ends the row, and those before it are not undone.

## Main definitions

* `pipeline`, `pipelines`.

## Main results

* `pipelines_cases`: a row of pipelines executes all commands, or those before a failure.
* `pipeline_apply_of_notMem`, `pipeline_apply_of_mem`, `pipeline_results`: commands that act on
  their own key.
-/

namespace DistillFs.Foundation

variable {ι σ ρ ε : Type*}

/-- The results and the state after some commands. -/
def pipeline (command : ι → σ → List ρ × σ) : List ι → σ → List ρ × σ
  | [], s => ([], s)
  | i :: rest, s =>
    let r := command i s
    let p := pipeline command rest r.2
    (r.1 ++ p.1, p.2)

/-- A row of pipelines, where `faults` says which fail, after the results `done`. -/
def pipelines (command : ι → σ → List ρ × σ) (faults : ℕ → Option ε) :
    List (List ι) → List ρ → σ → Except ε (List ρ) × σ
  | [], done, s => (.ok done, s)
  | batch :: rest, done, s =>
    match faults 0 with
    | some e => (.error e, s)
    | none =>
      let p := pipeline command batch s
      pipelines command (fun i => faults (i + 1)) rest (done ++ p.1) p.2

variable (command : ι → σ → List ρ × σ) (faults : ℕ → Option ε) (s : σ)

theorem pipeline_append (a b : List ι) : pipeline command (a ++ b) s =
    ((pipeline command a s).1 ++ (pipeline command b (pipeline command a s).2).1,
      (pipeline command b (pipeline command a s).2).2) := by
  induction a generalizing s with
  | nil => rfl
  | cons i a ih =>
    rw [List.cons_append, pipeline, ih, pipeline, List.append_assoc]

theorem pipelines_flatten (bs : List (List ι)) (done : List ρ) :
    ∃ i ≤ bs.length, (∀ j < i, faults j = none) ∧
      (pipelines command faults bs done s).2 = (pipeline command (bs.take i).flatten s).2 ∧
      ((i = bs.length ∧ (pipelines command faults bs done s).1 =
          .ok (done ++ (pipeline command bs.flatten s).1)) ∨
        (i < bs.length ∧ ∃ e, faults i = some e ∧
          (pipelines command faults bs done s).1 = .error e)) := by
  induction bs generalizing faults done s with
  | nil => exact ⟨0, le_rfl, nofun, rfl, Or.inl ⟨rfl, by simp [pipelines, pipeline]⟩⟩
  | cons batch rest ih =>
    rw [pipelines]
    cases hfault : faults 0 with
    | some e => exact ⟨0, Nat.zero_le _, nofun, rfl, Or.inr ⟨Nat.zero_lt_succ _, e, hfault, rfl⟩⟩
    | none =>
      obtain ⟨i, hi, hbefore, hstate, hresult⟩ := ih (fun i => faults (i + 1))
        (pipeline command batch s).2 (done ++ (pipeline command batch s).1)
      refine ⟨i + 1, Nat.succ_le_succ hi, fun j hj => ?_, ?_, ?_⟩
      · cases j with
        | zero => exact hfault
        | succ j => exact hbefore j (by omega)
      · rw [List.take_succ_cons, List.flatten_cons, pipeline_append]
        exact hstate
      · refine hresult.imp (fun hok => ⟨congrArg Nat.succ hok.1, ?_⟩)
          fun herr => ⟨Nat.succ_lt_succ herr.1, herr.2⟩
        rw [List.flatten_cons, pipeline_append, ← List.append_assoc]
        exact hok.2

/-- A row of pipelines of `n` commands executes all of them, or ends with the first pipeline that
fails and has executed the commands of those before it. -/
theorem pipelines_cases {n : ℕ} (hn : 0 < n) (l : List ι) :
    ∃ i ≤ (batches n l).length, (∀ j < i, faults j = none) ∧
      (pipelines command faults (batches n l) [] s).2 = (pipeline command (l.take (i * n)) s).2 ∧
      ((i = (batches n l).length ∧
          (pipelines command faults (batches n l) [] s).1 = .ok (pipeline command l s).1 ∧
          l.take (i * n) = l) ∨
        (i < (batches n l).length ∧ ∃ e, faults i = some e ∧
          (pipelines command faults (batches n l) [] s).1 = .error e)) := by
  obtain ⟨i, hi, hbefore, hstate, hresult⟩ :=
    pipelines_flatten command faults s (batches n l) []
  have htake := flatten_take_batches hi
  rw [htake] at hstate
  refine ⟨i, hi, hbefore, hstate, hresult.imp_left fun hok => ⟨hok.1, ?_, ?_⟩⟩
  · rw [hok.2, flatten_batches hn, List.nil_append]
  · rw [← htake, hok.1, List.take_length, flatten_batches hn]

section OwnKey

variable {κ v : Type*} [DecidableEq κ] {act : κ → v → List ρ × v} {k : κ}

/-- The command that acts on the value of its key. -/
def onKey (act : κ → v → List ρ × v) (k : κ) (state : κ → v) : List ρ × (κ → v) :=
  ((act k (state k)).1, Function.update state k (act k (state k)).2)

theorem onKey_self (k : κ) (state : κ → v) : (onKey act k state).2 k = (act k (state k)).2 :=
  Function.update_self ..

theorem onKey_of_ne {i : κ} (h : k ≠ i) (state : κ → v) : (onKey act i state).2 k = state k :=
  Function.update_of_ne h ..

theorem pipeline_apply_of_notMem {l : List κ} (state : κ → v) (h : k ∉ l) :
    (pipeline (onKey act) l state).2 k = state k := by
  induction l generalizing state with
  | nil => rfl
  | cons i rest ih =>
    rw [List.mem_cons, not_or] at h
    exact (ih (onKey act i state).2 h.2).trans (onKey_of_ne h.1 state)

/-- A key is acted on once when it is listed once. -/
theorem pipeline_apply_of_mem {l : List κ} (state : κ → v) (hl : l.Nodup) (h : k ∈ l) :
    (pipeline (onKey act) l state).2 k = (act k (state k)).2 := by
  induction l generalizing state with
  | nil => cases h
  | cons i rest ih =>
    obtain ⟨hout, hrest⟩ := List.nodup_cons.mp hl
    rcases List.mem_cons.mp h with rfl | hk
    · exact (pipeline_apply_of_notMem (onKey act k state).2 hout).trans (onKey_self k state)
    · have hne : k ≠ i := by
        rintro rfl
        exact hout hk
      refine (ih (onKey act i state).2 hrest hk).trans ?_
      rw [onKey_of_ne hne]

theorem pipeline_results {l : List κ} (state : κ → v) (hl : l.Nodup) :
    (pipeline (onKey act) l state).1 = l.flatMap fun k => (act k (state k)).1 := by
  induction l generalizing state with
  | nil => rfl
  | cons i rest ih =>
    obtain ⟨hout, hrest⟩ := List.nodup_cons.mp hl
    have hsame : ∀ k ∈ rest, (onKey act i state).2 k = state k := fun k hk => by
      refine onKey_of_ne ?_ state
      rintro rfl
      exact hout hk
    rw [pipeline, ih _ hrest, List.flatMap_cons]
    exact congrArg (_ ++ ·) (List.flatMap_congr fun k hk => by rw [hsame k hk])

end OwnKey

end DistillFs.Foundation
