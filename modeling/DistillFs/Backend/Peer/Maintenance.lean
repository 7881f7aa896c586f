import DistillFs.Backend.Peer.Owners
import DistillFs.Backend.Peer.Repair
import DistillFs.Backend.Peer.Unregistration

/-!
# The index heals

The refresh loop of a node registers all chunks of its tracker again at each tick, and then takes
one batch of its database and registers those chunks of it that are neither in the tracker nor
sufficiently owned. Redis can lose anything at any time, and the other tasks of the node, and other
nodes, go on meanwhile.

Whatever the state in which a pass of `repair` begins: after the pass and one more refresh, a chunk
that was stored all the time is listed in Redis for this node, or for as many others as a chunk may
have.

## Main definitions

* `MaintainedNode`, `MaintainerPc`, `MaintainerStep`, `maintainerProgram`: the refresh loop beside
  the other tasks.
* `Provided`: an index entry that suffices.
* `Undisturbed`: the condition on runs.

## Main results

* `index_heals`: a pass and a refresh provide for all chunks.
-/

namespace DistillFs

open Foundation SortedSet

/-- The state of the node and the history of its refresh loop. -/
structure MaintainedNode (α : Type*) extends IndexNode α where
  /-- How many passes of `repair` have ended. -/
  passes : ℕ
  /-- A refresh has returned since the last pass ended. -/
  refreshed : Bool

/-- Where a task stands. The refresh loop keeps its repair cursor. -/
inductive MaintainerPc (α : Type*)
  | task (pc : IndexPc α)
  | waiting (repairCursor : Option CheckSum)
  | refreshing (repairCursor : Option CheckSum) (pc : IndexPc α)
  | reading (repairCursor : Option CheckSum)
  | repairing (repairCursor : Option CheckSum) (batch : List CheckSum) (pc : IndexPc α)
  /-- `repair_missing_owners` has failed. -/
  | failed (repairCursor : Option CheckSum) (batch : List CheckSum)
  | stopped

/-- What happens besides the tasks. Other nodes write to Redis, and Redis drops keys. -/
inductive MaintainerEvent (α : Type*)
  | tick
  | others (redis : CheckSum → SortedSet α)
  | store (stored : Finset CheckSumOnDisk)

def MaintainerEvent.apply {α : Type*} (s : IndexNode α) : MaintainerEvent α → IndexNode α
  | .tick => { s with clock := s.clock + 1 }
  | .others redis => { s with redis := redis }
  | .store stored => { s with stored := stored }

section Steps

variable {α : Type*} [LinearOrder α] (addr : α) (ttl : ℕ)

/-- The steps of `run_refresh_loop` and of the other tasks. -/
inductive MaintainerStep :
    MaintainedNode α → MaintainerPc α → MaintainedNode α → MaintainerPc α → Prop
  | task {s : MaintainedNode α} {node pc pc'} (h : IndexStep addr ttl s.toIndexNode pc node pc') :
      MaintainerStep s (.task pc) { s with toIndexNode := node } (.task pc')
  | taskFails {s pc} : MaintainerStep s (.task pc) s (.task .idle)
  /-- `refresh` takes its snapshot of the tracker. -/
  | tick {s cursor} {checksums : List CheckSum} (hnodup : checksums.Nodup)
      (h : checksums.toFinset = s.tracker) :
      MaintainerStep s (.waiting cursor) s (.refreshing cursor (.refreshing checksums))
  | refresh {s : MaintainedNode α} {cursor node pc pc'} (hpc : pc ≠ .idle)
      (h : IndexStep addr ttl s.toIndexNode pc node pc') :
      MaintainerStep s (.refreshing cursor pc) { s with toIndexNode := node }
        (.refreshing cursor pc')
  | refreshed {s cursor} :
      MaintainerStep s (.refreshing cursor .idle) { s with refreshed := true } (.reading cursor)
  | refreshFails {s cursor pc} : MaintainerStep s (.refreshing cursor pc) s (.reading cursor)
  | readFails {s cursor} : MaintainerStep s (.reading cursor) s (.waiting cursor)
  -- the end of a pass
  | readEmpty {s cursor} (h : ChunkDb.nextChunkBatch s.stored cursor indexRepairBatchSize = []) :
      MaintainerStep s (.reading cursor)
        { s with
          passes := s.passes + 1
          refreshed := false } (.waiting none)
  | read {s cursor} {batch : List CheckSum}
      (hbatch : ChunkDb.nextChunkBatch s.stored cursor indexRepairBatchSize = batch)
      (h : batch ≠ []) :
      MaintainerStep s (.reading cursor) s (.repairing batch.getLast? batch (.filtering batch []))
  | repair {s : MaintainedNode α} {cursor batch node pc pc'} (hpc : pc ≠ .idle)
      (h : IndexStep addr ttl s.toIndexNode pc node pc') :
      MaintainerStep s (.repairing cursor batch pc) { s with toIndexNode := node }
        (.repairing cursor batch pc')
  | repaired {s cursor batch} : MaintainerStep s (.repairing cursor batch .idle) s (.waiting cursor)
  | repairFails {s cursor batch pc} :
      MaintainerStep s (.repairing cursor batch pc) s (.failed cursor batch)
  | warn {s cursor batch} : MaintainerStep s (.failed cursor batch) s (.waiting cursor)
  | shutdown {s cursor} : MaintainerStep s (.waiting cursor) s .stopped

/-- The refresh loop and any number of other tasks. -/
def maintainerProgram (τ : Type*) :
    Program (Option τ) (MaintainerEvent α) (MaintainedNode α) (MaintainerPc α) where
  init c := c.shared.tracker = ∅ ∧ c.shared.passes = 0 ∧ c.shared.refreshed = false ∧
    c.loc none = .waiting none ∧ ∀ t, c.loc (some t) = .task .idle
  step _ := MaintainerStep addr ttl
  env e s s' := s' = { s with toIndexNode := e.apply s.toIndexNode }

end Steps

/-- The call that a task is at. -/
def MaintainerPc.call {α : Type*} : MaintainerPc α → IndexPc α
  | .task pc | .refreshing _ pc | .repairing _ _ pc => pc
  | _ => .idle

section Healing

variable {τ : Type*} [DecidableEq τ] {α : Type*} [LinearOrder α]

/-- An entry of the index lists the address, or as many others as it may have. -/
def Provided (addr : α) (owners : SortedSet α) : Prop :=
  addr ∈ owners ∨ maxChunkOwners ≤ owners.card

/-- The key is stored, its checksum is in no unregistration, the warning is about others, and what
happens in Redis leaves its entry provided for. -/
def Undisturbed (addr : α) (key : CheckSumOnDisk)
    (c : Config (Option τ) (MaintainedNode α) (MaintainerPc α)) :
    Option τ ⊕ MaintainerEvent α → Prop
  | .inl t =>
    key ∈ c.shared.stored ∧
    (∀ checksums todo, (c.loc t).call = .unregistering checksums todo →
      key.checkSum ∉ checksums ++ todo) ∧
    ∀ cursor batch, c.loc t = .failed cursor batch → key.checkSum ∉ batch
  | .inr e => Provided addr (c.shared.redis key.checkSum) →
      Provided addr ((e.apply c.shared.toIndexNode).redis key.checkSum)

/-! ### What is left to register -/

/-- The checksums that a task will register, or leave because the index suffices. -/
def IndexPc.pending (addr : α) : IndexPc α → List CheckSum
  | .register k checksums => checksums ++ k.rest
  | .registering k _ todo _ => todo ++ k.rest
  | .refreshing rest => rest
  | .filtering todo candidates => todo ++ candidates
  | .looking k _ todo found => todo ++ missing addr found ++ k.rest
  | _ => []

variable {addr : α} {ttl : ℕ} {s s' : IndexNode α} {pc pc' : IndexPc α} {cs : CheckSum}

@[simp] theorem IndexPc.pending_resume (addr : α) (k : IndexCont) :
    (k.resume : IndexPc α).pending addr = k.rest := by
  cases k <;> rfl

/-- The script provides for its key. -/
theorem provided_of_script {owners owners' : SortedSet α} {now ttl : ℤ} {result : Bool}
    (h : registerScript owners addr now ttl maxChunkOwners = (owners', result)) :
    Provided addr owners' := by
  obtain rfl := congrArg Prod.fst h
  rw [registerScript_fst, trim]
  split_ifs with hmany
  · right
    rw [card_remRangeByRank]
    omega
  · exact Or.inl (mem_of_mem_entries (mem_entries_liveOwners.mpr (Or.inl rfl)))

/-- So does a lookup after which nothing is registered. -/
theorem provided_of_lookup {owners : SortedSet α} {cutoff : ℤ}
    (h : ¬(addr ∉ owners.rangeByScore cutoff ∧
      (owners.rangeByScore cutoff).card < maxChunkOwners)) : Provided addr owners := by
  rw [not_and_or, not_not, not_lt] at h
  rcases h with hmem | hmany
  · obtain ⟨score, hin, -⟩ := mem_rangeByScore.mp hmem
    exact Or.inl (mem_of_mem_entries hin)
  · right
    refine hmany.trans ?_
    rw [rangeByScore]
    exact Finset.card_image_le.trans (Finset.card_le_card (Finset.filter_subset ..))

/-- A step provides for a pending checksum, or keeps it pending; or it finds it in the tracker. -/
theorem IndexStep.pending (h : IndexStep addr ttl s pc s' pc') (hcs : cs ∈ pc.pending addr) :
    (cs ∈ s.tracker ∧ ∃ todo candidates, pc = .filtering todo candidates) ∨
      Provided addr (s'.redis cs) ∨ cs ∈ pc'.pending addr := by
  cases h with
  | registerNone | registered =>
    rw [IndexPc.pending_resume]
    exact Or.inr (Or.inr hcs)
  | registerSome => exact Or.inr (Or.inr hcs)
  | @script k now first todo retained owners result hscript =>
    right
    by_cases hfirst : cs = first
    · subst hfirst
      left
      dsimp only
      rw [Function.update_self]
      exact provided_of_script hscript
    · exact Or.inr ((List.mem_cons.mp hcs).resolve_left hfirst)
  | @refreshBatch rest =>
    refine Or.inr (Or.inr ?_)
    rw [IndexPc.pending, IndexCont.rest, List.take_append_drop]
    exact hcs
  | @filter first todo candidates =>
    rcases List.mem_cons.mp hcs with rfl | hrest
    · by_cases htracked : cs ∈ s.tracker
      · exact Or.inl ⟨htracked, _, _, rfl⟩
      · refine Or.inr (Or.inr (List.mem_append_right _ ?_))
        rw [if_neg htracked]
        exact List.mem_append_right _ (List.mem_singleton_self _)
    · refine Or.inr (Or.inr (List.mem_append.mpr ?_))
      refine (List.mem_append.mp hrest).imp_right fun hin => ?_
      split_ifs
      · exact hin
      · exact List.mem_append_left _ hin
  | filtered =>
    refine Or.inr (Or.inr ?_)
    simpa [IndexPc.pending, missing, IndexCont.rest] using hcs
  | @look k cutoff first todo found =>
    right
    simp only [IndexPc.pending, List.cons_append, List.mem_cons] at hcs
    rcases hcs with rfl | hrest
    · by_cases hfew : addr ∉ (s.redis cs).rangeByScore cutoff ∧
        ((s.redis cs).rangeByScore cutoff).card < maxChunkOwners
      · right
        simp [IndexPc.pending, missing, hfew]
      · exact Or.inl (provided_of_lookup hfew)
    · right
      simp only [IndexPc.pending, missing, List.filter_append, List.map_append, List.mem_append]
        at hrest ⊢
      tauto
  | looked => exact Or.inr (Or.inr (by simpa [IndexPc.pending] using hcs))
  | _ => cases hcs

/-- The tracker and what is provided are kept, but by an unregistration. -/
theorem IndexStep.kept (h : IndexStep addr ttl s pc s' pc')
    (halone : ∀ checksums todo, pc = .unregistering checksums todo → cs ∉ checksums ++ todo) :
    (Provided addr (s.redis cs) → Provided addr (s'.redis cs)) ∧
      (cs ∈ s.tracker → cs ∈ s'.tracker) := by
  cases h with
  | @script k now first todo retained owners result hscript =>
    refine ⟨fun hprovided => ?_, id⟩
    by_cases hfirst : cs = first
    · subst hfirst
      dsimp only
      rw [Function.update_self]
      exact provided_of_script hscript
    · dsimp only
      rwa [Function.update_of_ne hfirst]
  | @zrem checksums todo first =>
    have hne : cs ≠ first := fun heq =>
      halone _ _ rfl (List.mem_append_right _ (heq ▸ List.mem_cons_self))
    refine ⟨fun hprovided => ?_, id⟩
    dsimp only
    rwa [Function.update_of_ne hne]
  | @unregistered checksums =>
    have hnot : cs ∉ checksums := fun hin => halone _ _ rfl (List.mem_append_left _ hin)
    exact ⟨id, fun hin => Finset.mem_sdiff.mpr ⟨hin, by simpa using hnot⟩⟩
  | registered | looked => exact ⟨id, Finset.mem_union_left _⟩
  | _ => exact ⟨id, id⟩

/-- The places of a refresh. -/
def IndexPc.Refreshing : IndexPc α → Prop
  | .idle | .refreshing _ | .register (.refresh _) _ | .registering (.refresh _) _ _ _ => True
  | _ => False

theorem IndexStep.refreshing (h : IndexStep addr ttl s pc s' pc') (hidle : pc ≠ .idle)
    (hpc : pc.Refreshing) : pc'.Refreshing := by
  cases h with
  | @registerNone k => cases k <;> trivial
  | @registerSome k | @script k =>
    cases k with
    | refresh => trivial
    | _ => exact hpc.elim
  | @registered k => cases k <;> trivial
  | refreshBatch | refreshed => trivial
  | registerBatch | unregisterBatch | snapshot | sync | repair => exact absurd rfl hidle
  | _ => exact hpc.elim

/-! ### What a batch leaves -/

/-- The key is behind the repair cursor. -/
def Behind (key : CheckSumOnDisk) (cursor : Option CheckSum) : Prop :=
  ∀ last ∈ cursor.map CheckSumOnDisk.ofCheckSum, last < key

variable {key : CheckSumOnDisk} {stored : Finset CheckSumOnDisk} {cursor : Option CheckSum}

theorem mem_batch_or_behind (hvalid : key.isValid = true) (hkey : key ∈ stored)
    (h : Behind key cursor) {size : ℕ} :
    key.checkSum ∈ ChunkDb.nextChunkBatch stored cursor size ∨
      Behind key (ChunkDb.nextChunkBatch stored cursor size).getLast? := by
  rw [ChunkDb.nextChunkBatch_eq_page]
  have hmem : key ∈ stored.filter fun cs => cs.isValid := Finset.mem_filter.mpr ⟨hkey, hvalid⟩
  refine (mem_page_or_lt hmem h).imp List.mem_map_of_mem fun hpage last hlast => ?_
  obtain ⟨cs, hcs, rfl⟩ := Option.mem_map.mp hlast
  obtain ⟨b, hb, rfl⟩ := List.mem_map.mp (List.mem_of_getLast? hcs)
  have hb' := (Finset.mem_filter.mp (mem_of_mem_page hb).1).2
  exact (CheckSumOnDisk.ofCheckSum_checkSum_le hb').trans_lt (hpage b hb)

theorem not_behind_of_empty (hvalid : key.isValid = true) (hkey : key ∈ stored) {size : ℕ}
    (h : ChunkDb.nextChunkBatch stored cursor size = []) : ¬Behind key cursor := by
  rw [ChunkDb.nextChunkBatch_eq_page, List.map_eq_nil_iff] at h
  exact page_eq_nil (lt_max_of_lt_right Nat.one_pos) h (Finset.mem_filter.mpr ⟨hkey, hvalid⟩)

/-! ### A pass and a refresh -/

/-- The chunk is provided for, or the next refresh will register it. -/
def Handled (addr : α) (s : IndexNode α) (cs : CheckSum) : Prop :=
  Provided addr (s.redis cs) ∨ cs ∈ s.tracker

/-- What is true of the chunk after `made` passes. -/
def HealingInv (addr : α) (cs : CheckSum) (made : ℕ) (s : MaintainedNode α) : Prop :=
  made < s.passes →
    Handled addr s.toIndexNode cs ∧ (s.refreshed = true → Provided addr (s.redis cs))

/-- What the refresh loop knows of a key: it has been handled, or it is still to come. -/
def LoopAssertion (addr : α) (key : CheckSumOnDisk) (made : ℕ) (s : MaintainedNode α) :
    MaintainerPc α → Prop
  | .waiting cursor | .reading cursor =>
    Handled addr s.toIndexNode key.checkSum ∨ Behind key cursor
  | .refreshing cursor pc =>
    (Handled addr s.toIndexNode key.checkSum ∨ Behind key cursor) ∧ pc.Refreshing ∧
      (made < s.passes → Provided addr (s.redis key.checkSum) ∨ key.checkSum ∈ pc.pending addr)
  | .repairing cursor batch pc =>
    Handled addr s.toIndexNode key.checkSum ∨ Behind key cursor ∨
      key.checkSum ∈ batch ∧ key.checkSum ∈ pc.pending addr
  | .failed cursor batch =>
    Handled addr s.toIndexNode key.checkSum ∨ Behind key cursor ∨ key.checkSum ∈ batch
  | .task _ => False
  | .stopped => True

/-- The refresh loop is the thread `none`. -/
def MaintainerAssertion (addr : α) (key : CheckSumOnDisk) (made : ℕ) :
    Option τ → MaintainedNode α → MaintainerPc α → Prop
  | none, s, pc => LoopAssertion addr key made s pc
  | some _, _, pc => ∃ call, pc = .task call

section Loop

variable {made : ℕ} {s s' : MaintainedNode α} {node : IndexNode α} {pc pc' : MaintainerPc α}

/-- The chunk is in the tracker and provided for as before. -/
def Kept (addr : α) (cs : CheckSum) (s s' : IndexNode α) : Prop :=
  (Provided addr (s.redis cs) → Provided addr (s'.redis cs)) ∧ (cs ∈ s.tracker → cs ∈ s'.tracker)

omit [LinearOrder α] in
theorem Handled.kept {s s' : IndexNode α} (h : Handled addr s cs) (hkept : Kept addr cs s s') :
    Handled addr s' cs :=
  h.imp hkept.1 hkept.2

omit [LinearOrder α] in
theorem HealingInv.kept (h : HealingInv addr cs made s)
    (hkept : Kept addr cs s.toIndexNode node) :
    HealingInv addr cs made { s with toIndexNode := node } := fun hmade =>
  (h hmade).imp (·.kept hkept) fun hprovided hrefreshed => hkept.1 (hprovided hrefreshed)

theorem LoopAssertion.kept (h : LoopAssertion addr key made s pc)
    (hkept : Kept addr key.checkSum s.toIndexNode node) :
    LoopAssertion addr key made { s with toIndexNode := node } pc := by
  cases pc with
  | task => exact h
  | waiting | reading | repairing | failed => exact Or.imp_left (·.kept hkept) h
  | refreshing =>
    exact ⟨h.1.imp_left (·.kept hkept), h.2.1, fun hmade => (h.2.2 hmade).imp_left hkept.1⟩
  | stopped => trivial

theorem MaintainerStep.kept (h : MaintainerStep addr ttl s pc s' pc')
    (halone : ∀ checksums todo, pc.call = .unregistering checksums todo → cs ∉ checksums ++ todo) :
    Kept addr cs s.toIndexNode s'.toIndexNode := by
  cases h with
  | task h | refresh _ h | repair _ h => exact IndexStep.kept h halone
  | _ => exact ⟨id, id⟩

/-- A step of the loop. -/
theorem MaintainerStep.loop (hvalid : key.isValid = true) (hkey : key ∈ s.stored)
    (halone : ∀ checksums todo, pc.call = .unregistering checksums todo →
      key.checkSum ∉ checksums ++ todo)
    (hwarn : ∀ cursor batch, pc = .failed cursor batch → key.checkSum ∉ batch)
    (hinv : HealingInv addr key.checkSum made s) (hpc : LoopAssertion addr key made s pc)
    (h : MaintainerStep addr ttl s pc s' pc') :
    HealingInv addr key.checkSum made s' ∧ LoopAssertion addr key made s' pc' := by
  have hkept := h.kept halone
  cases h with
  | task | taskFails => exact hpc.elim
  | tick hnodup hsnapshot =>
    refine ⟨hinv, hpc, trivial, fun hmade => (hinv hmade).1.imp_right fun htracked => ?_⟩
    rw [← hsnapshot] at htracked
    exact List.mem_toFinset.mp htracked
  | @refresh cursor node call call' hidle h =>
    obtain ⟨hbehind, hrefreshing, hpending⟩ := hpc
    refine ⟨hinv.kept hkept, hbehind.imp_left (·.kept hkept), h.refreshing hidle hrefreshing, ?_⟩
    intro hmade
    rcases hpending hmade with hprovided | hcs
    · exact Or.inl (hkept.1 hprovided)
    · rcases h.pending hcs with ⟨-, todo, candidates, rfl⟩ | hnext
      · exact hrefreshing.elim
      · exact hnext
  | refreshed =>
    obtain ⟨hbehind, -, hpending⟩ := hpc
    refine ⟨fun hmade => ⟨(hinv hmade).1, fun _ => ?_⟩, hbehind⟩
    exact (hpending hmade).resolve_right List.not_mem_nil
  | refreshFails => exact ⟨hinv, hpc.1⟩
  | readFails => exact ⟨hinv, hpc⟩
  | shutdown => exact ⟨hinv, trivial⟩
  | readEmpty hempty =>
    have hhandled := Or.resolve_right hpc (not_behind_of_empty hvalid hkey hempty)
    exact ⟨fun _ => ⟨hhandled, Bool.noConfusion⟩, Or.inl hhandled⟩
  | @read cursor batch hbatch =>
    subst hbatch
    refine ⟨hinv, hpc.imp_right fun hbehind => ?_⟩
    refine (mem_batch_or_behind hvalid hkey hbehind).symm.imp_right fun hin => ⟨hin, ?_⟩
    exact List.mem_append_left _ hin
  | @repair cursor batch node call call' hidle h =>
    refine ⟨hinv.kept hkept, ?_⟩
    rcases hpc with hhandled | hbehind | ⟨hin, hcs⟩
    · exact Or.inl (hhandled.kept hkept)
    · exact Or.inr (Or.inl hbehind)
    · rcases h.pending hcs with ⟨htracked, -⟩ | hprovided | hcs'
      · exact Or.inl (Or.inr (hkept.2 htracked))
      · exact Or.inl (Or.inl hprovided)
      · exact Or.inr (Or.inr ⟨hin, hcs'⟩)
  | repaired =>
    exact ⟨hinv, hpc.imp_right (Or.resolve_right · fun h => absurd h.2 List.not_mem_nil)⟩
  | repairFails => exact ⟨hinv, hpc.imp_right (Or.imp_right And.left)⟩
  | warn => exact ⟨hinv, hpc.imp_right (Or.resolve_right · (hwarn _ _ rfl))⟩

end Loop

/-- **The index heals.** Whatever the state is in which a pass of `repair` begins, and however the
other tasks, other nodes and Redis go on: when the pass has ended and a refresh has returned after
it, the index lists this node for a chunk, or as many others as it may list. The chunk is stored all
the time and not unregistered, the calls of `repair_missing_owners` for it do not fail, and its
entry is not taken away once it suffices. -/
theorem index_heals (hvalid : key.isValid = true)
    {c₀ c : Config (Option τ) (MaintainedNode α) (MaintainerPc α)}
    (hloop : c₀.loc none = .waiting none) (htasks : ∀ t, ∃ call, c₀.loc (some t) = .task call)
    (hc : ((maintainerProgram addr ttl τ).startAt c₀).toSystem.Reach (Undisturbed addr key) c)
    (hpass : c₀.shared.passes < c.shared.passes) (hrefreshed : c.shared.refreshed = true) :
    Provided addr (c.shared.redis key.checkSum) := by
  have hholds := Program.invariant (I := HealingInv addr key.checkSum c₀.shared.passes)
    (A := MaintainerAssertion addr key c₀.shared.passes) ?_ ?_ ?_ ?_ hc
  · exact (hholds.1 hpass).2 hrefreshed
  · rintro c rfl
    refine ⟨fun h => absurd h (lt_irrefl _), fun t => ?_⟩
    cases t with
    | none =>
      rw [hloop]
      exact Or.inr nofun
    | some t => exact htasks t
  · intro c t s' pc' h hok hstep
    cases t with
    | none => exact MaintainerStep.loop hvalid hok.1 hok.2.1 hok.2.2 h.1 (h.2 none) hstep
    | some t =>
      have hkept := MaintainerStep.kept hstep hok.2.1
      obtain ⟨call, hcall⟩ := h.2 (some t)
      change MaintainerStep addr ttl c.shared (c.loc (some t)) s' pc' at hstep
      rw [hcall] at hstep
      cases hstep with
      | task => exact ⟨h.1.kept hkept, _, rfl⟩
      | taskFails => exact ⟨h.1, _, rfl⟩
  · intro c t u s' pc' h hok hut hstep
    cases u with
    | some u => exact h.2 (some u)
    | none =>
      have hkept := MaintainerStep.kept hstep hok.2.1
      obtain ⟨t, rfl⟩ := Option.ne_none_iff_exists'.mp (Ne.symm hut)
      obtain ⟨call, hcall⟩ := h.2 (some t)
      change MaintainerStep addr ttl c.shared (c.loc (some t)) s' pc' at hstep
      rw [hcall] at hstep
      cases hstep with
      | task => exact LoopAssertion.kept (h.2 none) hkept
      | taskFails => exact h.2 none
  · rintro c e _ h hok rfl
    have hkept : Kept addr key.checkSum c.shared.toIndexNode (e.apply c.shared.toIndexNode) :=
      ⟨hok, by cases e <;> exact id⟩
    refine ⟨h.1.kept hkept, fun u => ?_⟩
    cases u with
    | none => exact LoopAssertion.kept (h.2 none) hkept
    | some u => exact h.2 (some u)

end Healing

/-! ### A run -/

/-- Redis is empty, and so is the tracker; one chunk is stored. -/
def flushedNode : MaintainedNode ℕ where
  redis _ := ∅
  tracker := ∅
  stored := {ChunkDb.storedKey}
  clock := 0
  unregistered _ := false
  passes := 0
  refreshed := false

section Run

variable {s s' : MaintainedNode ℕ} {pc pc' : MaintainerPc ℕ}

/-- Runs of the refresh loop alone. -/
def FlushedReach (s : MaintainedNode ℕ) (pc : MaintainerPc ℕ) : Prop :=
  ((maintainerProgram 0 1 Empty).startAt ⟨flushedNode, fun _ => .waiting none⟩).toSystem.Reach
    (Undisturbed 0 ChunkDb.storedKey) ⟨s, fun _ => pc⟩

theorem FlushedReach.next (hc : FlushedReach s pc) (hstored : s.stored = {ChunkDb.storedKey})
    (hcall : ∀ checksums todo, pc.call ≠ .unregistering checksums todo)
    (hfailed : ∀ cursor batch, pc ≠ .failed cursor batch)
    (h : MaintainerStep 0 1 s pc s' pc') : FlushedReach s' pc' := by
  refine Program.Reach.thread none hc ⟨?_, fun _ _ heq => absurd heq (hcall _ _),
    fun _ _ heq => absurd heq (hfailed _ _)⟩ h (funext fun t => ?_)
  · dsimp only
    rw [hstored]
    exact Finset.mem_singleton_self _
  · cases t with
    | none => rfl
    | some t => exact t.elim

theorem index_heals_flushed : ∃ s : MaintainedNode ℕ, s.passes = 1 ∧
    Provided 0 (s.redis ChunkDb.storedKey.checkSum) := by
  let cs := ChunkDb.storedKey.checkSum
  have h₀ : FlushedReach flushedNode (.waiting none) := .init rfl
  -- the refresh fails, and the repair registers the chunk
  have h₁ := h₀.next rfl nofun nofun (.tick List.nodup_nil rfl)
  have h₂ := h₁.next rfl nofun nofun .refreshFails
  have h₃ := h₂.next rfl nofun nofun
    (.read ChunkDb.nextChunkBatch_storedKey.1 (List.cons_ne_nil _ _))
  have h₄ := h₃.next rfl nofun nofun (.repair nofun .filter)
  have h₅ := h₄.next rfl nofun nofun (.repair nofun .filtered)
  have h₆ := h₅.next rfl nofun nofun (.repair nofun .look)
  have h₇ := h₆.next rfl nofun nofun (.repair nofun .looked)
  have h₈ := h₇.next rfl nofun nofun (.repair nofun (.registerSome (List.cons_ne_nil _ _)))
  have hretained : (registerScript ∅ 0 (0 : ℕ) (1 : ℕ) maxChunkOwners).2 = true := by decide
  have h₉ := h₈.next rfl nofun nofun (.repair nofun (.script (Prod.ext rfl hretained)))
  have h₁₀ := h₉.next rfl nofun nofun (.repair nofun .registered)
  have h₁₁ := h₁₀.next rfl nofun nofun .repaired
  -- the pass ends
  have h₁₂ := h₁₁.next rfl nofun nofun (.tick (List.nodup_singleton cs) rfl)
  have h₁₃ := h₁₂.next rfl nofun nofun .refreshFails
  have h₁₄ := h₁₃.next rfl nofun nofun (.readEmpty ChunkDb.nextChunkBatch_storedKey.2)
  -- the refresh after it
  have h₁₅ := h₁₄.next rfl nofun nofun (.tick (List.nodup_singleton cs) rfl)
  have h₁₆ := h₁₅.next rfl nofun nofun (.refresh nofun (.refreshBatch (List.cons_ne_nil _ _)))
  have h₁₇ := h₁₆.next rfl nofun nofun (.refresh nofun (.registerSome (List.cons_ne_nil _ _)))
  have h₁₈ := h₁₇.next rfl nofun nofun (.refresh nofun (.script rfl))
  have h₁₉ := h₁₈.next rfl nofun nofun (.refresh nofun .registered)
  have h₂₀ := h₁₉.next rfl nofun nofun (.refresh nofun .refreshed)
  have h₂₁ := h₂₀.next rfl nofun nofun .refreshed
  have hvalid : ChunkDb.storedKey.isValid = true := rfl
  exact ⟨_, rfl, index_heals hvalid rfl Empty.rec h₂₁ Nat.one_pos rfl⟩

end Run

end DistillFs
