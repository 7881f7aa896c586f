import DistillFs.Backend.Cache.Concurrent

/-!
# Fetches in flight

The table of fetches in flight keeps two readers from fetching one chunk at the same time. A reader
that finds no entry creates one, owns it until it removes it, and marks the fetch as done when it
drops its guard; a reader that finds an entry waits for that fetch.

The table keeps its promise in every run (`flight_sound`), however fetches end. It does not make a
chunk be fetched only once: a reader loads the bit first and looks into the table later, and in
between another reader may have fetched the chunk and left. `fetched_once` shows that this is the
only way to fetch a chunk twice.

## Main definitions

* `Cache.Pc.entry`, `Cache.Pc.guard`: the entry and the guard a thread holds.
* `Cache.FlightInv`: the invariant of the table.
* `Cache.Counted`, `Cache.countingProgram`: the cache with a count of fetches for each chunk.

## Main results

* `Cache.flight_sound`: entries have exactly one owner, and fetches not done have a live owner.
* `Cache.fetched_once`: one fetch between invalidations, if bits are still clear at registration.
* `Cache.fetched_twice`: a run in which two readers fetch the same chunk.
-/

namespace DistillFs

open Foundation

namespace Cache

variable {τ : Type*} {F : ByteFile}

/-- The entry of the table a thread owns, between registration and removal. -/
def Pc.entry : Pc → Option (ℕ × ℕ)
  | .fetching _ _ idx io | .fetched _ _ idx io | .marked _ _ idx io | .failed _ idx io _ =>
      some (idx, io)
  | _ => none

/-- The fetch whose guard a thread holds, between registration and drop. -/
def Pc.guard : Pc → Option ℕ
  | .fetching _ _ _ io | .fetched _ _ _ io | .marked _ _ _ io | .removed _ _ _ io
  | .failed _ _ io _ | .failedRemoved _ io _ => some io
  | _ => none

theorem Pc.entry_next (call : ReadCall) (stop idx : ℕ) : (Pc.next call stop idx).entry = none := by
  unfold Pc.next
  split_ifs <;> rfl

theorem Pc.guard_next (call : ReadCall) (stop idx : ℕ) : (Pc.next call stop idx).guard = none := by
  unfold Pc.next
  split_ifs <;> rfl

/-- What a step does to the table, the fetches, and what its thread holds of them. -/
inductive Flight (s s' : Shared τ F.len) (pc pc' : Pc) : Prop
  | keep (hios : s'.inFlightIos = s.inFlightIos) (hstatus : s'.ioStatus = s.ioStatus)
      (hnext : s'.nextIo = s.nextIo) (hentry : pc'.entry = pc.entry) (hguard : pc'.guard = pc.guard)
  | enter (call : ReadCall) (stop idx : ℕ) (hpc : pc = .register call stop idx)
      (hio : s.inFlightIos idx = none) (hs : s' = s.register idx)
      (hpc' : pc' = .fetching call stop idx s.nextIo)
  | remove (idx io : ℕ) (hpc : pc.entry = some (idx, io)) (hs : s' = s.removeInflightIo idx)
      (hentry : pc'.entry = none) (hguard : pc'.guard = some io)
  | drop (io : ℕ) (hpc : pc.entry = none) (hguard : pc.guard = some io) (hs : s' = s.done io)
      (hentry : pc'.entry = none) (hguard' : pc'.guard = none)

theorem Step.flight [DecidableEq τ] {t : τ} {s s' : Shared τ F.len} {pc pc' : Pc}
    (hstep : Step F t s pc s' pc') : Flight s s' pc pc' := by
  cases hstep with
  | enter hio => exact .enter _ _ _ rfl hio rfl rfl
  | remove | removeFailed => exact .remove _ _ rfl rfl rfl rfl
  | guardDone => exact .drop _ rfl rfl rfl (Pc.entry_next ..) (Pc.guard_next ..)
  | guardFailed => exact .drop _ rfl rfl rfl rfl rfl
  | cached => exact .keep rfl rfl rfl (Pc.entry_next ..) (Pc.guard_next ..)
  | fetchPart | fetchOk | fetchError | setBit | clearBit | punchOk =>
    exact .keep (s.inFlightIos_withCache _) (s.ioStatus_withCache _) (s.nextIo_withCache _) rfl rfl
  | _ => exact .keep rfl rfl rfl rfl rfl

/-- The invariant of the table, where thread `t` owns the entry `entry t` and holds the guard
`guard t`: the entries are those some thread owns, no two threads hold one guard, and a fetch that
is not done has a thread with its guard. -/
structure TableInv (s : Shared τ F.len) (entry : τ → Option (ℕ × ℕ)) (guard : τ → Option ℕ) :
    Prop where
  owned : ∀ idx io, s.inFlightIos idx = some io ↔ ∃ t, entry t = some (idx, io)
  guarded : ∀ t idx io, entry t = some (idx, io) → guard t = some io
  unique : ∀ t u io, guard t = some io → guard u = some io → t = u
  known : ∀ t io, guard t = some io → io < s.nextIo
  live : ∀ io, io < s.nextIo → s.ioStatus io = .fetching → ∃ t, guard t = some io

/-- The invariant of the table in a configuration. -/
def FlightInv (c : Config τ (Shared τ F.len) Pc) : Prop :=
  TableInv c.shared (fun t => (c.loc t).entry) fun t => (c.loc t).guard

section Invariant

variable [DecidableEq τ] {s : Shared τ F.len} {entry : τ → Option (ℕ × ℕ)} {guard : τ → Option ℕ}
  {t : τ}

/-- A new entry for a chunk that has none. -/
theorem TableInv.enter (h : TableInv s entry guard) {idx : ℕ} (hio : s.inFlightIos idx = none)
    (ht : guard t = none) :
    TableInv (s.register idx) (Function.update entry t (some (idx, s.nextIo)))
      (Function.update guard t (some s.nextIo)) := by
  have hentry : entry t = none := by
    cases he : entry t with
    | none => rfl
    | some p => simp [h.guarded t p.1 p.2 he] at ht
  refine ⟨fun j io => ?_, fun u j io => ?_, fun u v io => ?_, fun u io => ?_, fun io => ?_⟩
  · have hold := h.owned j io
    simp only [Shared.register, Function.update_apply]
    split_ifs with hj
    · subst hj
      simp only [hio, reduceCtorEq, false_iff, not_exists] at hold
      constructor
      · intro hnext
        exact ⟨t, by rw [if_pos rfl, ← Option.some.inj hnext]⟩
      · rintro ⟨u, hu⟩
        split_ifs at hu
        · simpa using hu
        · exact absurd hu (hold u)
    · rw [hold]
      refine exists_congr fun u => ?_
      split_ifs with hu
      · subst hu
        simp [hentry, Ne.symm hj]
      · rfl
  · have hold := h.guarded u j io
    simp only [Function.update_apply]
    split_ifs
    · simp
    · exact hold
  · have hold := h.unique u v io
    have hu := h.known u io
    have hv := h.known v io
    simp only [Function.update_apply]
    split_ifs <;> grind
  · have hold := h.known u io
    simp only [Shared.register, Function.update_apply]
    split_ifs <;> grind
  · have hold := h.live io
    simp only [Shared.register, Function.update_apply]
    intro hlt hstatus
    by_cases hnew : io = s.nextIo
    · exact ⟨t, by simp [hnew]⟩
    · obtain ⟨u, hu⟩ := hold (by omega) (by simpa [hnew] using hstatus)
      have hne : u ≠ t := by
        rintro rfl
        simp [ht] at hu
      exact ⟨u, by simpa [hne] using hu⟩

/-- The owner of an entry removes it and keeps the guard. -/
theorem TableInv.remove (h : TableInv s entry guard) {idx io : ℕ} (ht : entry t = some (idx, io)) :
    TableInv (s.removeInflightIo idx) (Function.update entry t none)
      (Function.update guard t (some io)) := by
  have hguard : Function.update guard t (some io) = guard := by
    rw [← h.guarded t idx io ht, Function.update_eq_self]
  rw [hguard]
  refine ⟨fun j io' => ?_, fun u j io' => ?_, h.unique, h.known, h.live⟩
  · have hold := h.owned j io'
    simp only [Shared.removeInflightIo, Function.update_apply]
    split_ifs with hj
    · subst hj
      simp only [false_iff, not_exists]
      intro u hu
      split_ifs at hu with hne
      -- two entries of one chunk are the same entry, and its guard has one holder
      have hio := (h.owned j io).mpr ⟨t, ht⟩
      have hio' := (h.owned j io').mpr ⟨u, hu⟩
      rw [hio] at hio'
      have hsame := Option.some.inj hio'
      subst hsame
      exact hne (h.unique u t io (h.guarded u j io hu) (h.guarded t j io ht))
    · rw [hold]
      refine exists_congr fun u => ?_
      split_ifs with hu
      · subst hu
        simp [ht, Ne.symm hj]
      · rfl
  · have hold := h.guarded u j io'
    simp only [Function.update_apply]
    split_ifs
    · simp
    · exact hold

/-- The holder of a guard drops it, which marks the fetch as done. -/
theorem TableInv.drop (h : TableInv s entry guard) {io : ℕ} (hentry : entry t = none)
    (ht : guard t = some io) :
    TableInv (s.done io) (Function.update entry t none) (Function.update guard t none) := by
  rw [← hentry, Function.update_eq_self]
  refine ⟨h.owned, fun u j io' he => ?_, fun u v io' => ?_, fun u io' => ?_, fun io' hlt hst => ?_⟩
  · have hne : u ≠ t := by
      rintro rfl
      simp [hentry] at he
    rw [Function.update_of_ne hne]
    exact h.guarded u j io' he
  · have hold := h.unique u v io'
    simp only [Function.update_apply]
    split_ifs <;> grind
  · have hold := h.known u io'
    simp only [Shared.done, Function.update_apply]
    split_ifs with hu
    · simp
    · exact hold
  · have hne : io' ≠ io := by
      rintro rfl
      simp [Shared.done] at hst
    obtain ⟨u, hu⟩ := h.live io' hlt (by simpa [Shared.done, hne] using hst)
    have hut : u ≠ t := by
      rintro rfl
      rw [ht] at hu
      exact hne (Option.some.inj hu).symm
    exact ⟨u, by rwa [Function.update_of_ne hut]⟩

/-- A step of a thread keeps the invariant of the table. -/
theorem FlightInv.step {c : Config τ (Shared τ F.len) Pc} {s' : Shared τ F.len} {pc' : Pc}
    (h : FlightInv c) (hstep : Step F t c.shared (c.loc t) s' pc') :
    FlightInv ⟨s', Function.update c.loc t pc'⟩ := by
  have hentries : (fun u => (Function.update c.loc t pc' u).entry) =
      Function.update (fun u => (c.loc u).entry) t pc'.entry :=
    funext fun u => Function.apply_update (fun _ => Pc.entry) c.loc t pc' u
  have hguards : (fun u => (Function.update c.loc t pc' u).guard) =
      Function.update (fun u => (c.loc u).guard) t pc'.guard :=
    funext fun u => Function.apply_update (fun _ => Pc.guard) c.loc t pc' u
  unfold FlightInv
  dsimp only
  rw [hentries, hguards]
  cases hstep.flight with
  | keep hios hstatus hnext hentry hguard =>
    rw [hentry, hguard, Function.update_eq_self, Function.update_eq_self]
    refine ⟨?_, h.guarded, h.unique, ?_, ?_⟩
    · rw [hios]
      exact h.owned
    · rw [hnext]
      exact h.known
    · rw [hnext, hstatus]
      exact h.live
  | enter call stop idx hpc hio hs hpc' =>
    subst hs hpc'
    exact TableInv.enter h hio (by rw [hpc]; rfl)
  | remove idx io hpc hs hentry hguard =>
    subst hs
    rw [hentry, hguard]
    exact TableInv.remove h hpc
  | drop io hpc hguard hs hentry hguard' =>
    subst hs
    rw [hentry, hguard']
    exact TableInv.drop h hpc hguard

theorem flightInv_of_reachable {c : Config τ (Shared τ F.len) Pc}
    (hc : (program τ F).toSystem.Reachable c) : FlightInv c := by
  refine System.Reach.invariant ?_ (fun c a c' h _ hstep => ?_) hc
  · rintro c ⟨-, -, hnone, hnext, hidle⟩
    refine ⟨fun idx io => ?_, ?_, ?_, ?_, ?_⟩
    · simp [hnone, hidle, Pc.entry]
    · simp [hidle, Pc.entry]
    · simp [hidle, Pc.guard]
    · simp [hidle, Pc.guard]
    · simp [hnext]
  · cases hstep with
    | thread h' => exact h.step h'
    | env h' => rename_i e _; exact e.elim

end Invariant

/-- **No waiter is left on an abandoned fetch.** In every configuration that any interleaving
reaches, whatever fetches fail: one thread at most is between registration and removal for a chunk;
the table has the chunk exactly while there is such a thread; a fetch that is not done has a thread
that still holds its guard; and when no thread is inside `fetch_data` the table is empty. -/
theorem flight_sound [DecidableEq τ] {c : Config τ (Shared τ F.len) Pc}
    (hc : (program τ F).toSystem.Reachable c) :
    (∀ t u idx io io', (c.loc t).entry = some (idx, io) → (c.loc u).entry = some (idx, io') →
      t = u) ∧
    (∀ idx io, c.shared.inFlightIos idx = some io ↔ ∃ t, (c.loc t).entry = some (idx, io)) ∧
    (∀ io, io < c.shared.nextIo → c.shared.ioStatus io = .fetching →
      ∃ t, (c.loc t).guard = some io) ∧
    ((∀ t, (c.loc t).entry = none) → ∀ idx, c.shared.inFlightIos idx = none) := by
  have h := flightInv_of_reachable hc
  refine ⟨fun t u idx io io' ht hu => ?_, h.owned, h.live, fun hnone idx => ?_⟩
  · have hio := (h.owned idx io).mpr ⟨t, ht⟩
    rw [(h.owned idx io').mpr ⟨u, hu⟩] at hio
    obtain rfl := Option.some.inj hio
    exact h.unique t u io' (h.guarded t idx io' ht) (h.guarded u idx io' hu)
  · cases hio : c.shared.inFlightIos idx with
    | none => rfl
    | some io =>
      obtain ⟨t, ht⟩ := (h.owned idx io).mp hio
      rw [hnone t] at ht
      cases ht

theorem flight_sound_run : ∃ (c : Config Unit (Shared Unit 1) Pc) (t : Unit),
    c.shared.inFlightIos 0 = some 0 ∧ (c.loc t).entry = some (0, 0) := by
  let call : ReadCall := ⟨.readAt, 0, 1⟩
  let F : ByteFile := .ofList [7]
  have h₀ := reachable_start Unit F 4096
  have h₁ := reachable_solo h₀ (.call call)
  have h₂ := reachable_solo h₁ (.lockRead (fun _ => by decide) (fun h => absurd rfl h) rfl)
  have h₃ := reachable_solo h₂
    (.fetchData (show fixRange F.len 0 1 = .ok (0, 1) from rfl) (by decide))
  rw [Nat.zero_div] at h₃
  have h₄ := reachable_solo h₃ (.missing (bit_fresh 4096 1 _))
  have h₅ := reachable_solo h₄ (.enter rfl)
  obtain ⟨t, ht⟩ := ((flight_sound h₅).2.1 0 0).mp rfl
  exact ⟨_, t, rfl, ht⟩

/-! ### How often a chunk is fetched -/

/-- The shared state with the number of fetches of each chunk since its last invalidation. -/
structure Counted (τ : Type*) (size : ℕ) where
  live : Shared τ size
  fetches : ℕ → ℕ

/-- Count the fetch that starts when a thread enters the table; an invalidation starts over. -/
def countFetch (fetches : ℕ → ℕ) : Pc → Pc → ℕ → ℕ
  | .register _ _ idx, .fetching _ _ _ _ => Function.update fetches idx (fetches idx + 1)
  | .clear idx, _ => Function.update fetches idx 0
  | _, _ => fetches

/-- The move is neither a failed fetch nor a wait that timed out. -/
def Served : Pc → Pc → Prop
  | .fetching .., .failed .. => False
  | .wait .., .unlockRead .. => False
  | _, _ => True

/-- The cache over a backend whose fetches succeed, with fetches counted and no timeouts. -/
def countingProgram (τ : Type*) [DecidableEq τ] (F : ByteFile) :
    Program τ Empty (Counted τ F.len) Pc where
  init c := (program τ F).init ⟨c.shared.live, c.loc⟩ ∧ ∀ idx, c.shared.fetches idx = 0
  step t s pc s' pc' := Step F t s.live pc s'.live pc' ∧ Served pc pc' ∧
    s'.fetches = countFetch s.fetches pc pc'
  env e := e.elim

/-- A thread that is about to enter the table still finds the bit of its chunk clear. -/
def StillMissing (c : Config τ (Counted τ F.len) Pc) : τ ⊕ Empty → Prop
  | .inl t => ∀ call stop idx, c.loc t = .register call stop idx →
      c.shared.live.inFlightIos idx = none → c.shared.live.cache.bit idx = false
  | .inr e => e.elim

/-- The chunk a thread is fetching, until it sets the bit. -/
def Pc.fetch : Pc → Option ℕ
  | .fetching _ _ idx _ | .fetched _ _ idx _ => some idx
  | _ => none

theorem Pc.entry_of_fetch {pc : Pc} {idx : ℕ} (h : pc.fetch = some idx) :
    ∃ io, pc.entry = some (idx, io) := by
  cases pc <;> simp only [Pc.fetch, Option.some.injEq, reduceCtorEq] at h
  all_goals exact ⟨_, by rw [Pc.entry, h]⟩

theorem Pc.fetch_next (call : ReadCall) (stop idx : ℕ) : (Pc.next call stop idx).fetch = none := by
  unfold Pc.next
  split_ifs <;> rfl

/-- What a served step does to the bits, the fetch of its thread and the counts. -/
inductive CountEffect (s s' : Shared τ F.len) (pc pc' : Pc) : Prop
  | keep (hbit : ∀ j, s'.cache.bit j = s.cache.bit j) (hfetch : pc'.fetch = pc.fetch)
      (hcount : ∀ f, countFetch f pc pc' = f)
  | enter (call : ReadCall) (stop idx : ℕ) (hpc : pc = .register call stop idx)
      (hio : s.inFlightIos idx = none) (hbit : ∀ j, s'.cache.bit j = s.cache.bit j)
      (hfetch : pc'.fetch = some idx)
      (hcount : ∀ f, countFetch f pc pc' = Function.update f idx (f idx + 1))
  | setBit (idx : ℕ) (hpc : pc.fetch = some idx)
      (hbit : ∀ j, s'.cache.bit j = (s.cache.bit j || decide (j = idx))) (hfetch : pc'.fetch = none)
      (hcount : ∀ f, countFetch f pc pc' = f)
  | clear (idx : ℕ) (hbit : ∀ j, j ≠ idx → s'.cache.bit j = s.cache.bit j)
      (hfetch : pc'.fetch = pc.fetch) (hcount : ∀ f, countFetch f pc pc' = Function.update f idx 0)

theorem Step.countEffect [DecidableEq τ] {t : τ} {s s' : Shared τ F.len} {pc pc' : Pc}
    (hstep : Step F t s pc s' pc') (h : Assertion F t s pc) (hserved : Served pc pc') :
    CountEffect s s' pc pc' := by
  cases hstep with
  | enter hio => exact .enter _ _ _ rfl hio (fun _ => rfl) rfl fun _ => rfl
  | setBit =>
    refine .setBit _ rfl (fun j => ?_) rfl fun _ => rfl
    rw [Shared.cache_withCache, bit_setBit _ h.1.idx_lt]
  | clearBit =>
    refine .clear _ (fun j hj => ?_) rfl fun _ => rfl
    rw [Shared.cache_withCache, bit_clearBit, decide_eq_false hj, Bool.not_false, Bool.and_true]
  | fetchError => exact hserved.elim
  | cached | guardDone => exact .keep (fun _ => rfl) (Pc.fetch_next ..) fun _ => rfl
  | fetchPart | fetchOk =>
    refine .keep (fun j => ?_) rfl fun _ => rfl
    rw [Shared.cache_withCache, bit_writeRaw]
  | punchOk =>
    refine .keep (fun j => ?_) rfl fun _ => rfl
    rw [Shared.cache_withCache, bit_punchHole]
  | _ => exact .keep (fun _ => rfl) rfl fun _ => rfl

section Counting

variable [DecidableEq τ] {c : Config τ (Counted τ F.len) Pc}

theorem reachable_of_counted {ok : Config τ (Counted τ F.len) Pc → τ ⊕ Empty → Prop}
    (hc : (countingProgram τ F).toSystem.Reach ok c) :
    (program τ F).toSystem.Reachable ⟨c.shared.live, c.loc⟩ := by
  refine System.Reach.map (M := (countingProgram τ F).toSystem) (N := (program τ F).toSystem)
    (fun c : Config τ (Counted τ F.len) Pc => (⟨c.shared.live, c.loc⟩ : Config _ _ _))
    (fun c hinit => hinit.1) (fun c a c' hstep => ?_) hc
  cases hstep with
  | thread h => exact ⟨_, .thread h.1⟩
  | env h => rename_i e _; exact e.elim

/-- A chunk was fetched once since its last invalidation, and then its bit is set or its fetch is
under way; or it was not fetched. -/
def FetchInv (c : Config τ (Counted τ F.len) Pc) : Prop :=
  ∀ idx, c.shared.fetches idx = 0 ∨ (c.shared.fetches idx = 1 ∧
    (c.shared.live.cache.bit idx = true ∨ ∃ t, (c.loc t).fetch = some idx))

theorem FetchInv.step {t : τ} {s' : Counted τ F.len} {pc' : Pc}
    (hc : (program τ F).toSystem.Reachable ⟨c.shared.live, c.loc⟩) (h : FetchInv c)
    (hok : StillMissing c (.inl t))
    (hstep : (countingProgram τ F).step t c.shared (c.loc t) s' pc') :
    FetchInv ⟨s', Function.update c.loc t pc'⟩ := by
  obtain ⟨hlive, hserved, hfetches⟩ := hstep
  -- the fetches under way of the other threads stay
  have hothers : ∀ idx, (c.loc t).fetch ≠ some idx → (∃ u, (c.loc u).fetch = some idx) →
      ∃ u, (Function.update c.loc t pc' u).fetch = some idx := by
    rintro idx hne ⟨u, hu⟩
    have hut : u ≠ t := by
      rintro rfl
      exact hne hu
    exact ⟨u, by rwa [Function.update_of_ne hut]⟩
  have hsame : pc'.fetch = (c.loc t).fetch → ∀ idx, (∃ u, (c.loc u).fetch = some idx) →
      ∃ u, (Function.update c.loc t pc' u).fetch = some idx := by
    intro hfetch idx hex
    by_cases hne : (c.loc t).fetch = some idx
    · exact ⟨t, by rwa [Function.update_self, hfetch]⟩
    · exact hothers idx hne hex
  intro idx
  have hidx := h idx
  dsimp only
  rw [hfetches]
  cases hlive.countEffect ((program_holds hc).2 t) hserved with
  | keep hbit hfetch hcount =>
    rw [hcount, hbit]
    exact hidx.imp_right fun hidx => ⟨hidx.1, hidx.2.imp_right (hsame hfetch idx)⟩
  | enter call stop j hpc hio hbit hfetch hcount =>
    rw [hcount, hbit]
    by_cases hj : idx = j
    · subst hj
      -- nobody fetches the chunk, and its bit is still clear, so it was not fetched
      have hclear := hok call stop idx hpc hio
      have hnone : ¬∃ u, (c.loc u).fetch = some idx := by
        rintro ⟨u, hu⟩
        obtain ⟨io, he⟩ := Pc.entry_of_fetch hu
        have hentry := ((flightInv_of_reachable hc).owned idx io).mpr ⟨u, he⟩
        rw [hio] at hentry
        cases hentry
      have hzero : c.shared.fetches idx = 0 := by
        rcases hidx with h0 | ⟨-, hset | hex⟩
        · exact h0
        · rw [hclear] at hset
          cases hset
        · exact absurd hex hnone
      exact Or.inr ⟨by rw [Function.update_self, hzero], Or.inr ⟨t, by rwa [Function.update_self]⟩⟩
    · rw [Function.update_of_ne hj]
      refine hidx.imp_right fun hidx => ⟨hidx.1, hidx.2.imp_right (hothers idx ?_)⟩
      rw [hpc]
      exact Option.some_ne_none idx |>.symm
  | setBit j hpc hbit hfetch hcount =>
    rw [hcount, hbit]
    by_cases hj : idx = j
    · exact hidx.imp_right fun hidx => ⟨hidx.1, Or.inl (by simp [hj])⟩
    · refine hidx.imp_right fun hidx => ⟨hidx.1, hidx.2.imp (by simp +contextual) (hothers idx ?_)⟩
      rw [hpc]
      exact fun heq => hj (Option.some.inj heq).symm
  | clear j hbit hfetch hcount =>
    rw [hcount]
    by_cases hj : idx = j
    · exact Or.inl (by rw [hj, Function.update_self])
    · rw [Function.update_of_ne hj, hbit idx hj]
      exact hidx.imp_right fun hidx => ⟨hidx.1, hidx.2.imp_right (hsame hfetch idx)⟩

/-- **One fetch between invalidations, if bits are still clear at registration.** In runs in which
no thread enters the table for a chunk that was cached since the thread loaded its bit, every chunk
is fetched at most once between two of its invalidations. -/
theorem fetched_once (hc : (countingProgram τ F).toSystem.Reach StillMissing c) (idx : ℕ) :
    c.shared.fetches idx ≤ 1 := by
  have h : FetchInv c := by
    refine System.Reach.invariant_reach (M := (countingProgram τ F).toSystem)
      (fun c hinit idx => Or.inl (hinit.2 idx))
      (fun c a c' hc h hok hstep => ?_) hc
    cases hstep with
    | thread hstep => exact h.step (reachable_of_counted hc) hok hstep
    | env hstep => rename_i e _; exact e.elim
  rcases h idx with h0 | ⟨h1, -⟩
  · omega
  · omega

end Counting

section Run

variable {ok : Config Bool (Counted Bool F.len) Pc → Bool ⊕ Empty → Prop} {l : Counted Bool F.len}
  {s' : Shared Bool F.len} {a b a' b' : Pc}

/-- A step of the first of two readers extends a run. -/
private theorem counted_fst
    (hc : (countingProgram Bool F).toSystem.Reach ok ⟨l, fun u => cond u a b⟩)
    (hok : ok ⟨l, fun u => cond u a b⟩ (.inl true)) (h : Step F true l.live a s' a')
    (hserved : Served a a') :
    (countingProgram Bool F).toSystem.Reach ok
      ⟨⟨s', countFetch l.fetches a a'⟩, fun u => cond u a' b⟩ :=
  Program.Reach.fst hc hok ⟨h, hserved, rfl⟩

/-- A step of the second of two readers extends a run. -/
private theorem counted_snd
    (hc : (countingProgram Bool F).toSystem.Reach ok ⟨l, fun u => cond u a b⟩)
    (hok : ok ⟨l, fun u => cond u a b⟩ (.inl false)) (h : Step F false l.live b s' b')
    (hserved : Served b b') :
    (countingProgram Bool F).toSystem.Reach ok
      ⟨⟨s', countFetch l.fetches b b'⟩, fun u => cond u a b'⟩ :=
  Program.Reach.snd hc hok ⟨h, hserved, rfl⟩

private theorem counted_start (F : ByteFile)
    (g : Config Bool (Counted Bool F.len) Pc → Bool ⊕ Empty → Prop) :
    (countingProgram Bool F).toSystem.Reach g
      ⟨⟨.start Bool 4096 F.len, fun _ => 0⟩, fun u => cond u .idle .idle⟩ :=
  .init ⟨⟨bit_fresh 4096 F.len, rfl, fun _ => rfl, rfl, fun u => by cases u <;> rfl⟩, fun _ => rfl⟩

theorem fetched_once_run : ∃ c : Config Bool (Counted Bool 1) Pc,
    0 < c.shared.fetches 0 ∧ c.shared.fetches 0 ≤ 1 := by
  let call : ReadCall := ⟨.readAt, 0, 1⟩
  let F : ByteFile := .ofList [7]
  have hfix : fixRange F.len 0 1 = .ok (0, 1) := rfl
  have h₀ := counted_start F StillMissing
  have h₁ := counted_fst h₀ (fun _ _ _ h => by cases h) (.call call) trivial
  have h₂ := counted_fst h₁ (fun _ _ _ h => by cases h)
    (.lockRead (fun _ => by decide) (fun h => absurd rfl h) rfl) trivial
  have h₃ := counted_fst h₂ (fun _ _ _ h => by cases h) (.fetchData hfix (by decide)) trivial
  rw [Nat.zero_div] at h₃
  have h₄ := counted_fst h₃ (fun _ _ _ h => by cases h) (.missing (bit_fresh 4096 1 _)) trivial
  have h₅ := counted_fst h₄ (fun _ _ _ _ _ => bit_fresh 4096 1 _) (.enter rfl) trivial
  exact ⟨_, by decide, fetched_once h₅ 0⟩

/-- Two readers find the bit of a chunk clear; the second one fetches the chunk and removes its
entry; the first one then finds no entry and fetches the chunk again. -/
theorem fetched_twice : ∃ c : Config Bool (Counted Bool 1) Pc,
    (countingProgram Bool (.ofList [7])).toSystem.Reachable c ∧ c.shared.fetches 0 = 2 := by
  let call : ReadCall := ⟨.readAt, 0, 1⟩
  let F : ByteFile := .ofList [7]
  have hfix : fixRange F.len 0 1 = .ok (0, 1) := rfl
  have hn : call.kind = .readAt → call.n ≠ 0 := fun _ => by decide
  have hkind : call.kind ≠ .readAt → ∃ r, fixRange F.len call.off call.n = .ok r :=
    fun h => absurd rfl h
  have h₀ := counted_start F fun _ _ => True
  have h₁ := counted_fst h₀ trivial (.call call) trivial
  have h₂ := counted_fst h₁ trivial (.lockRead hn hkind rfl) trivial
  have h₃ := counted_fst h₂ trivial (.fetchData hfix (by decide)) trivial
  rw [Nat.zero_div] at h₃
  have h₄ := counted_fst h₃ trivial (.missing (bit_fresh 4096 1 _)) trivial
  have h₅ := counted_snd h₄ trivial (.call call) trivial
  have h₆ := counted_snd h₅ trivial (.lockRead hn hkind rfl) trivial
  have h₇ := counted_snd h₆ trivial (.fetchData hfix (by decide)) trivial
  rw [Nat.zero_div] at h₇
  have h₈ := counted_snd h₇ trivial (.missing (bit_fresh 4096 1 _)) trivial
  have h₉ := counted_snd h₈ trivial (.enter rfl) trivial
  have h₁₀ := counted_snd h₉ trivial .fetchOk trivial
  have h₁₁ := counted_snd h₁₀ trivial .setBit trivial
  have h₁₂ := counted_snd h₁₁ trivial .remove trivial
  have h₁₃ := counted_fst h₁₂ trivial (.enter (by decide)) trivial
  exact ⟨_, h₁₃, by decide⟩

end Run

end Cache

end DistillFs
