import DistillFs.Foundation.Leases
import DistillFs.Foundation.Transition

/-!
# Peers from Redis

Every node writes its address under a key of its own into Redis, with a time to live of a minute,
and does so again every twenty seconds. After each write it reads all keys of this kind and their
values, and keeps the addresses of the others as the list of its peers. A node that is shut down
removes its key; one that dies leaves it to expire.

Any command can fail, after it has taken effect or before. Then the list stays as it is, and the
connection is opened anew for the next refresh. The two reads of a refresh are made at different
times.

## Main definitions

* `DiscoveryNodes`: the ids and the addresses of the nodes.
* `Discovery`, `DiscoveryPc`, `DiscoveryStep`, `discoveryProgram`.
* `Discovery.Fresh`: what is true of a list.

## Main results

* `peers_fresh`: who is in a list has advertised itself in the minute before the list was made.
* `live_peers_listed`: who is advertised all the time is in every list made in the meantime.
-/

namespace DistillFs

open Foundation

/-- `DISCOVERY_TTL_SECS`, in milliseconds. -/
def discoveryTtl : ℕ := 60 * 1000

/-- What the keys of the nodes begin with. -/
def peersKeyStart : String := "distill-fs:peers:"

/-- The nodes, named by `τ`. An address is written as a text, and read from it again. -/
structure DiscoveryNodes (τ α : Type*) where
  nodeId : τ → String
  advertiseAddr : τ → α
  text : α → String
  parse : String → Option α
  parse_text : ∀ a, parse (text a) = some a

/-- When the values of a list were read, and how many writes there were before. -/
structure Listing where
  time : ℕ
  seen : ℕ

/-- Redis, the lists of the nodes, and the connections that are open. -/
structure Discovery (τ α : Type*) where
  /-- The time in milliseconds. -/
  clock : ℕ
  store : LeaseStore String String
  conn : τ → Bool
  peers : τ → List α
  /-- All writes so far. -/
  log : List (LeaseWrite String String)
  /-- Where the list of each node comes from. -/
  listing : τ → Listing
  /-- How many lists each node has made. -/
  refreshes : τ → ℕ

/-- Where the worker of a node stands. -/
inductive DiscoveryPc (α : Type*)
  | connecting
  | setting
  | listing
  | getting (keys : List String)
  | publishing (peers : List α) (made : Listing)
  | failed
  | waiting
  | leaving
  | deleting
  | stopped

namespace DiscoveryNodes

variable {τ α : Type*} [DecidableEq α] (N : DiscoveryNodes τ α)

def key (t : τ) : String := peersKeyStart ++ N.nodeId t

/-- The addresses of the others among some values. -/
def otherAddrs (t : τ) (vals : List (Option String)) : List α :=
  (vals.reduceOption.filterMap N.parse).filter fun addr => addr ≠ N.advertiseAddr t

end DiscoveryNodes

namespace Discovery

variable {τ α : Type*}

def write (s : Discovery τ α) (key : String) (value : Option String) : Discovery τ α :=
  { s with
    store := s.store.write discoveryTtl ⟨key, value, s.clock⟩
    log := s.log ++ [⟨key, value, s.clock⟩] }

/-- The answer of `KEYS`: all keys of this kind that are there, in any order. -/
def Lists (s : Discovery τ α) (keys : List String) : Prop :=
  ∀ k, k ∈ keys ↔ peersKeyStart.toList <+: k.toList ∧ (s.store.live s.clock k).isSome = true

/-- The time, and how many writes there were. -/
def now (s : Discovery τ α) : Listing := ⟨s.clock, s.log.length⟩

end Discovery

section Steps

variable {τ α : Type*} [DecidableEq τ] [DecidableEq α] (N : DiscoveryNodes τ α)

/-- The steps of the worker of the node `t`. -/
inductive DiscoveryStep (t : τ) :
    Discovery τ α → DiscoveryPc α → Discovery τ α → DiscoveryPc α → Prop
  | reuse {s} (h : s.conn t = true) : DiscoveryStep t s .connecting s .setting
  | connect {s} (h : s.conn t = false) :
      DiscoveryStep t s .connecting { s with conn := Function.update s.conn t true } .setting
  | connectFails {s} (h : s.conn t = false) : DiscoveryStep t s .connecting s .failed
  | setEx {s} :
      DiscoveryStep t s .setting (s.write (N.key t) (some (N.text (N.advertiseAddr t)))) .listing
  | setFails {s} : DiscoveryStep t s .setting s .failed
  -- the answer is lost
  | setLost {s} :
      DiscoveryStep t s .setting (s.write (N.key t) (some (N.text (N.advertiseAddr t)))) .failed
  | keys {s} {keys : List String} (h : s.Lists keys) (hkeys : keys ≠ []) :
      DiscoveryStep t s .listing s (.getting keys)
  | noKeys {s} (h : s.Lists []) : DiscoveryStep t s .listing s (.publishing [] s.now)
  | keysFails {s} : DiscoveryStep t s .listing s .failed
  | mget {s} {keys : List String} :
      DiscoveryStep t s (.getting keys) s
        (.publishing (N.otherAddrs t (keys.map (s.store.live s.clock))) s.now)
  | mgetFails {s} {keys : List String} : DiscoveryStep t s (.getting keys) s .failed
  | publish {s} {peers : List α} {made : Listing} :
      DiscoveryStep t s (.publishing peers made)
        { s with
          peers := Function.update s.peers t peers
          listing := Function.update s.listing t made
          refreshes := Function.update s.refreshes t (s.refreshes t + 1) } .waiting
  | disconnect {s} :
      DiscoveryStep t s .failed { s with conn := Function.update s.conn t false } .waiting
  | tick {s} : DiscoveryStep t s .waiting s .connecting
  | shutdown {s} : DiscoveryStep t s .waiting s .leaving
  | leaveReuse {s} (h : s.conn t = true) : DiscoveryStep t s .leaving s .deleting
  | leaveConnect {s} (h : s.conn t = false) :
      DiscoveryStep t s .leaving { s with conn := Function.update s.conn t true } .deleting
  | leaveFails {s} (h : s.conn t = false) : DiscoveryStep t s .leaving s .stopped
  | del {s} : DiscoveryStep t s .deleting (s.write (N.key t) none) .stopped
  | delFails {s} : DiscoveryStep t s .deleting s .stopped
  -- a node can die at any point
  | killed {s pc} : DiscoveryStep t s pc s .stopped

/-- The nodes, and the time. -/
def discoveryProgram : Program τ ℕ (Discovery τ α) (DiscoveryPc α) where
  init c := c.shared.store = .empty ∧ (∀ t, c.shared.peers t = []) ∧ c.shared.log = [] ∧
    (∀ t, c.shared.listing t = ⟨c.shared.clock, 0⟩) ∧ ∀ t, c.loc t = .connecting
  step := DiscoveryStep N
  env millis s s' := s' = { s with clock := s.clock + millis }

end Steps

/-! ### What the lists have -/

section Lists

variable {τ α : Type*} [DecidableEq τ] [DecidableEq α] (N : DiscoveryNodes τ α)

namespace Discovery

/-- Some node advertises the address, and the last write of its key before the list was made is this
advertisement, at most a minute before. -/
def Advertised (s : Discovery τ α) (made : Listing) (addr : α) : Prop :=
  ∃ u w, N.advertiseAddr u = addr ∧ lastWrite (N.key u) (s.log.take made.seen) = some w ∧
    w.value = some (N.text addr) ∧ w.time ≤ made.time ∧ made.time ≤ w.time + discoveryTtl

/-- A list of a node has only other addresses, each of which was advertised. -/
structure Fresh (s : Discovery τ α) (t : τ) (peers : List α) (made : Listing) : Prop where
  seen_le : made.seen ≤ s.log.length
  time_le : made.time ≤ s.clock
  peers : ∀ addr ∈ peers, addr ≠ N.advertiseAddr t ∧ s.Advertised N made addr

/-- The invariant of Redis. -/
structure Inv (s : Discovery τ α) : Prop where
  store_eq : s.store = .replay discoveryTtl s.log
  writers : ∀ w ∈ s.log, w.time ≤ s.clock ∧ ∃ u, w.key = N.key u ∧
    ∀ v, w.value = some v → v = N.text (N.advertiseAddr u)
  fresh : ∀ t, s.Fresh N t (s.peers t) (s.listing t)

variable {N} {s s' : Discovery τ α} {t u : τ} {pc pc' : DiscoveryPc α}

/-- The log of `s'` continues that of `s`, and time has not gone back. -/
structure Later (s s' : Discovery τ α) : Prop where
  log : s.log <+: s'.log
  clock : s.clock ≤ s'.clock

omit [DecidableEq τ] [DecidableEq α] in
theorem Fresh.later {peers : List α} {made : Listing} (h : s.Fresh N t peers made)
    (hlater : Later s s') : s'.Fresh N t peers made where
  seen_le := h.seen_le.trans hlater.log.length_le
  time_le := h.time_le.trans hlater.clock
  peers addr haddr := by
    obtain ⟨others, hothers⟩ := hlater.log
    have hadvertised := (h.peers addr haddr).2
    have htake : s'.log.take made.seen = s.log.take made.seen := by
      rw [← hothers, List.take_append_of_le_length h.seen_le]
    rw [Advertised, ← htake] at hadvertised
    exact ⟨(h.peers addr haddr).1, hadvertised⟩

omit [DecidableEq τ] [DecidableEq α] in
theorem later_write (s : Discovery τ α) (key : String) (value : Option String) :
    Later s (s.write key value) :=
  ⟨List.prefix_append _ _, le_rfl⟩

omit [DecidableEq τ] [DecidableEq α] in
theorem Inv.later (h : s.Inv N) (hlater : Later s s')
    (hpeers : s'.peers = s.peers) (hlisting : s'.listing = s.listing)
    (hstore : s'.store = .replay discoveryTtl s'.log)
    (hwriters : ∀ w ∈ s'.log, w ∈ s.log ∨ w.time ≤ s'.clock ∧ ∃ u, w.key = N.key u ∧
      ∀ v, w.value = some v → v = N.text (N.advertiseAddr u)) : s'.Inv N where
  store_eq := hstore
  writers w hw := (hwriters w hw).elim
    (fun hin => ⟨(h.writers w hin).1.trans hlater.clock, (h.writers w hin).2⟩) id
  fresh t := by
    rw [hpeers, hlisting]
    exact (h.fresh t).later hlater

omit [DecidableEq τ] [DecidableEq α] in
/-- A node writes its address under its key, or removes the key. -/
theorem Inv.write (h : s.Inv N) (u : τ) {value : Option String}
    (hvalue : ∀ v, value = some v → v = N.text (N.advertiseAddr u)) :
    (s.write (N.key u) value).Inv N := by
  refine h.later (later_write s _ _) rfl rfl ?_ fun w hw => ?_
  · rw [Discovery.write, h.store_eq]
    exact (LeaseStore.replay_concat ..).symm
  · rcases List.mem_append.mp hw with hin | hnew
    · exact .inl hin
    · rw [List.mem_singleton.mp hnew]
      exact .inr ⟨le_rfl, u, rfl, hvalue⟩

omit [DecidableEq τ] in
theorem mem_otherAddrs {vals : List (Option String)} {addr : α} :
    addr ∈ N.otherAddrs t vals ↔
      (∃ v, some v ∈ vals ∧ N.parse v = some addr) ∧ addr ≠ N.advertiseAddr t := by
  simp [DiscoveryNodes.otherAddrs, List.mem_filter, List.mem_filterMap, List.reduceOption_mem_iff]

omit [DecidableEq τ] in
/-- What `MGET` answers was advertised, by the values that are there at the time. -/
theorem Inv.mget (h : s.Inv N) (t : τ) (keys : List String) :
    s.Fresh N t (N.otherAddrs t (keys.map (s.store.live s.clock))) s.now where
  seen_le := le_rfl
  time_le := le_rfl
  peers addr haddr := by
    obtain ⟨⟨v, hv, hparse⟩, hother⟩ := mem_otherAddrs.mp haddr
    refine ⟨hother, ?_⟩
    obtain ⟨k, -, hlive⟩ := List.mem_map.mp hv
    rw [h.store_eq, LeaseStore.live_replay_iff] at hlive
    obtain ⟨w, hlast, hvalue, htime⟩ := hlive
    obtain ⟨hmem, rfl⟩ := mem_of_lastWrite hlast
    obtain ⟨hpast, u, hkey, htext⟩ := h.writers w hmem
    obtain rfl := htext v hvalue
    obtain rfl := Option.some.inj ((N.parse_text _).symm.trans hparse)
    rw [hkey] at hlast
    refine ⟨u, w, rfl, ?_, hvalue, hpast, htime⟩
    rw [now, List.take_length]
    exact hlast

/-- The assertion of a worker: a list that it is about to store is fresh. -/
def Assertion (N : DiscoveryNodes τ α) (t : τ) (s : Discovery τ α) : DiscoveryPc α → Prop
  | .publishing peers made => s.Fresh N t peers made
  | _ => True

omit [DecidableEq τ] [DecidableEq α] in
theorem Assertion.later (h : Assertion N t s pc) (hlater : Later s s') : Assertion N t s' pc := by
  cases pc with
  | publishing peers made => exact Fresh.later h hlater
  | _ => trivial

end Discovery

open Discovery

variable {N} {s s' : Discovery τ α} {t u : τ} {pc pc' : DiscoveryPc α}

theorem DiscoveryStep.later (h : DiscoveryStep N t s pc s' pc') : Later s s' := by
  have hsame {s s' : Discovery τ α} (hlog : s'.log = s.log) (hclock : s'.clock = s.clock) :
      Later s s' := ⟨hlog ▸ List.prefix_rfl, hclock.ge⟩
  cases h with
  | setEx | setLost | del => exact later_write ..
  | _ => exact hsame rfl rfl

theorem DiscoveryStep.own (hinv : s.Inv N) (ht : Assertion N t s pc)
    (h : DiscoveryStep N t s pc s' pc') : s'.Inv N ∧ Assertion N t s' pc' := by
  have hlater := h.later
  cases h with
  | setEx => exact ⟨hinv.write t fun v hv => (Option.some.inj hv).symm, trivial⟩
  | setLost => exact ⟨hinv.write t fun v hv => (Option.some.inj hv).symm, trivial⟩
  | del => exact ⟨hinv.write t nofun, trivial⟩
  | mget => exact ⟨hinv, hinv.mget t _⟩
  | noKeys => exact ⟨hinv, le_rfl, le_rfl, List.forall_mem_nil _⟩
  | publish =>
    refine ⟨⟨hinv.store_eq, hinv.writers, fun u => ?_⟩, trivial⟩
    by_cases hu : u = t
    · subst hu
      dsimp only
      rw [Function.update_self, Function.update_self]
      exact ht.later hlater
    · dsimp only
      rw [Function.update_of_ne hu, Function.update_of_ne hu]
      exact (hinv.fresh u).later hlater
  | connect | disconnect | leaveConnect =>
    exact ⟨hinv.later hlater rfl rfl hinv.store_eq fun w => .inl, trivial⟩
  | _ => exact ⟨hinv, trivial⟩

theorem discoveryProgram_holds {c : Config τ (Discovery τ α) (DiscoveryPc α)}
    (hc : (discoveryProgram N).toSystem.Reachable c) :
    Program.Holds (Inv N) (Assertion N) c := by
  refine Program.invariant ?_ ?_ ?_ ?_ hc
  · rintro c ⟨hstore, hpeers, hlog, hlisting, hloc⟩
    refine ⟨⟨?_, ?_, fun t => ?_⟩, fun t => ?_⟩
    · rw [hstore, hlog]
      rfl
    · rw [hlog]
      exact List.forall_mem_nil _
    · rw [hpeers, hlisting]
      exact ⟨Nat.zero_le _, le_rfl, List.forall_mem_nil _⟩
    · rw [hloc]
      trivial
  · exact fun c t s' pc' h _ hstep => hstep.own h.1 (h.2 t)
  · exact fun c t u s' pc' h _ _ hstep => (h.2 u).later hstep.later
  · rintro c millis _ h - rfl
    have hlater : Later c.shared { c.shared with clock := c.shared.clock + millis } :=
      ⟨List.prefix_rfl, Nat.le_add_right _ _⟩
    exact ⟨h.1.later hlater rfl rfl h.1.store_eq fun w => .inl, fun t => (h.2 t).later hlater⟩

/-- **Lists are fresh.** However the nodes interleave, whatever fails, and whoever dies: an address
in the list of a node is that of another node, which has written it under its key at most a minute
before the values of the list were read, and the key was not removed or written again in
between. -/
theorem peers_fresh {c : Config τ (Discovery τ α) (DiscoveryPc α)}
    (hc : (discoveryProgram N).toSystem.Reachable c) (t : τ) :
    c.shared.Fresh N t (c.shared.peers t) (c.shared.listing t) :=
  (discoveryProgram_holds hc).1.fresh t

/-! ### Nodes that stay -/

/-- The last write of the key of a node is its address, less than a minute ago. -/
def Advertising (N : DiscoveryNodes τ α) (u : τ) (s : Discovery τ α) : Prop :=
  ∃ w, lastWrite (N.key u) s.log = some w ∧ w.value = some (N.text (N.advertiseAddr u)) ∧
    s.clock ≤ w.time + discoveryTtl

omit [DecidableEq τ] [DecidableEq α] in
theorem Advertising.live (h : Advertising N u s) (hinv : s.Inv N) :
    s.store.live s.clock (N.key u) = some (N.text (N.advertiseAddr u)) := by
  rw [hinv.store_eq]
  exact LeaseStore.live_replay_iff.mpr h

omit [DecidableEq τ] [DecidableEq α] in
theorem Advertising.mem_keys (h : Advertising N u s) (hinv : s.Inv N) {keys : List String}
    (hkeys : s.Lists keys) : N.key u ∈ keys := by
  refine (hkeys _).mpr ⟨?_, by rw [h.live hinv]; rfl⟩
  rw [DiscoveryNodes.key, String.toList_append]
  exact List.prefix_append _ _

/-- What a worker has read has the node `u`. -/
def HasNode (N : DiscoveryNodes τ α) (u : τ) : DiscoveryPc α → Prop
  | .getting keys => N.key u ∈ keys
  | .publishing peers _ => N.advertiseAddr u ∈ peers
  | _ => True

/-- A worker is not yet at the reads of a refresh. -/
def BeforeReads : DiscoveryPc α → Prop
  | .getting _ => False
  | .publishing _ _ => False
  | _ => True

omit [DecidableEq τ] [DecidableEq α] in
theorem BeforeReads.hasNode (h : BeforeReads pc) : HasNode N u pc := by
  cases pc with
  | getting | publishing => exact h.elim
  | _ => trivial

theorem DiscoveryStep.hasNode (hinv : s.Inv N) (hlive : Advertising N u s)
    (hother : N.advertiseAddr u ≠ N.advertiseAddr t) (hpc : HasNode N u pc)
    (h : DiscoveryStep N t s pc s' pc') : HasNode N u pc' := by
  cases h with
  | keys hkeys => exact hlive.mem_keys hinv hkeys
  | noKeys hkeys => exact absurd (hlive.mem_keys hinv hkeys) List.not_mem_nil
  | mget =>
    refine mem_otherAddrs.mpr ⟨⟨_, List.mem_map.mpr ⟨_, hpc, hlive.live hinv⟩, ?_⟩, hother⟩
    exact N.parse_text _
  | _ => trivial

/-- A step of a worker exchanges at most its own list. -/
theorem DiscoveryStep.peers_eq (hne : u ≠ t) (h : DiscoveryStep N t s pc s' pc') :
    s'.peers u = s.peers u ∧ s'.refreshes u = s.refreshes u := by
  cases h with
  | publish => exact ⟨Function.update_of_ne hne _ _, Function.update_of_ne hne _ _⟩
  | _ => exact ⟨rfl, rfl⟩

/-- A node is in every list that `t` has made since some time. -/
def Listed (N : DiscoveryNodes τ α) (t u : τ) (made : ℕ) (s : Discovery τ α) : Prop :=
  s.refreshes t ≠ made → N.advertiseAddr u ∈ s.peers t

theorem DiscoveryStep.listed {made : ℕ} (hpc : HasNode N u pc) (hlisted : Listed N t u made s)
    (h : DiscoveryStep N t s pc s' pc') : Listed N t u made s' := by
  cases h with
  | publish =>
    intro _
    dsimp only
    rw [Function.update_self]
    exact hpc
  | _ => exact hlisted

/-- **Who stays is listed.** From any reachable state: if a node is advertised all the time,
whatever the others do, then every list that another node has made since, all reads of which came
after, has its address. -/
theorem live_peers_listed {c c₀ : Config τ (Discovery τ α) (DiscoveryPc α)}
    (hc₀ : (discoveryProgram N).toSystem.Reachable c₀) (ht : BeforeReads (c₀.loc t))
    (hc : ((discoveryProgram N).startAt c₀).toSystem.Reach (fun c _ => Advertising N u c.shared) c)
    (hother : N.advertiseAddr u ≠ N.advertiseAddr t)
    (hmade : c.shared.refreshes t ≠ c₀.shared.refreshes t) :
    N.advertiseAddr u ∈ c.shared.peers t := by
  have hholds := Program.invariant (I := fun s => s.Inv N ∧ Listed N t u (c₀.shared.refreshes t) s)
    (A := fun v s pc => Assertion N v s pc ∧ (v = t → HasNode N u pc)) ?_ ?_ ?_ ?_ hc
  · exact hholds.1.2 hmade
  · rintro c rfl
    have h := discoveryProgram_holds hc₀
    exact ⟨⟨h.1, fun hne => absurd rfl hne⟩, fun v => ⟨h.2 v, fun hv => (hv ▸ ht).hasNode⟩⟩
  · intro c v s' pc' h hlive hstep
    obtain ⟨⟨hinv, hlisted⟩, hall⟩ := h
    obtain ⟨hinv', hv⟩ := DiscoveryStep.own hinv (hall v).1 hstep
    by_cases hvt : v = t
    · subst hvt
      exact ⟨⟨hinv', DiscoveryStep.listed ((hall v).2 rfl) hlisted hstep⟩, hv,
        fun _ => DiscoveryStep.hasNode hinv hlive hother ((hall v).2 rfl) hstep⟩
    · obtain ⟨hpeers, hrefreshes⟩ := DiscoveryStep.peers_eq (Ne.symm hvt) hstep
      refine ⟨⟨hinv', ?_⟩, hv, fun heq => absurd heq hvt⟩
      rw [Listed, hpeers, hrefreshes]
      exact hlisted
  · exact fun c v w s' pc' h _ _ hstep => ⟨(h.2 w).1.later (DiscoveryStep.later hstep), (h.2 w).2⟩
  · rintro c millis _ h - rfl
    have hlater : Later c.shared { c.shared with clock := c.shared.clock + millis } :=
      ⟨List.prefix_rfl, Nat.le_add_right _ _⟩
    exact ⟨⟨h.1.1.later hlater rfl rfl h.1.1.store_eq fun w => .inl, h.1.2⟩,
      fun v => ⟨(h.2 v).1.later hlater, (h.2 v).2⟩⟩

end Lists

/-! ### A run -/

/-- Two nodes, with the ids `a` and `b`. -/
def twoNodes : DiscoveryNodes Bool Bool where
  nodeId t := cond t "a" "b"
  advertiseAddr := id
  text b := cond b "1" "2"
  parse v := if v = "1" then some true else if v = "2" then some false else none
  parse_text b := by cases b <;> rfl

namespace Discovery

/-- Both nodes are connected and have written their addresses, at the time 0. -/
def bothWritten : Discovery Bool Bool :=
  let start : Discovery Bool Bool :=
    ⟨0, .empty, fun _ => false, fun _ => [], [], fun _ => ⟨0, 0⟩, fun _ => 0⟩
  let first := { start with conn := Function.update start.conn true true }
  let first := first.write (twoNodes.key true) (some "1")
  let second := { first with conn := Function.update first.conn false true }
  second.write (twoNodes.key false) (some "2")

theorem live_bothWritten (k : String) : bothWritten.store.live 0 k =
    if k = twoNodes.key false then some "2" else if k = twoNodes.key true then some "1"
      else none := by
  by_cases hsnd : k = twoNodes.key false
  · subst hsnd
    rfl
  · by_cases hfst : k = twoNodes.key true
    · subst hfst
      rfl
    · rw [if_neg hsnd, if_neg hfst]
      have hstore : bothWritten.store k = none :=
        (Function.update_of_ne hsnd _ _).trans (Function.update_of_ne hfst _ _)
      rw [LeaseStore.live, hstore]
      rfl

theorem lists_bothWritten : bothWritten.Lists [twoNodes.key true, twoNodes.key false] := by
  intro k
  have hstart (t : Bool) : peersKeyStart.toList <+: (twoNodes.key t).toList := by
    rw [DiscoveryNodes.key, String.toList_append]
    exact List.prefix_append _ _
  have hlive := live_bothWritten k
  constructor
  · intro hk
    simp only [List.mem_cons, List.not_mem_nil, or_false] at hk
    rcases hk with rfl | rfl
    · exact ⟨hstart true, rfl⟩
    · exact ⟨hstart false, rfl⟩
  · rintro ⟨-, hsome⟩
    by_contra hk
    simp only [List.mem_cons, List.not_mem_nil, or_false, not_or] at hk
    rw [show bothWritten.clock = 0 from rfl, hlive, if_neg hk.2, if_neg hk.1] at hsome
    exact absurd hsome Bool.false_ne_true

theorem reachable_bothWritten : (discoveryProgram twoNodes).toSystem.Reachable
    ⟨bothWritten, fun t => cond t .listing .listing⟩ := by
  have h₀ : (discoveryProgram twoNodes).toSystem.Reachable
      ⟨⟨0, .empty, fun _ => false, fun _ => [], [], fun _ => ⟨0, 0⟩, fun _ => 0⟩,
        fun t => cond t .connecting .connecting⟩ :=
    .init ⟨rfl, fun _ => rfl, rfl, fun _ => rfl, fun t => by cases t <;> rfl⟩
  have h₁ := Program.Reach.fst h₀ trivial (.connect rfl)
  have h₂ := Program.Reach.fst h₁ trivial .setEx
  have h₃ := Program.Reach.snd h₂ trivial (.connect rfl)
  exact Program.Reach.snd h₃ trivial .setEx

end Discovery

theorem peers_fresh_twoNodes : ∃ c : Config Bool (Discovery Bool Bool) (DiscoveryPc Bool),
    c.shared.peers false = [true] ∧ c.shared.Advertised twoNodes ⟨0, 2⟩ true := by
  have h₁ := Program.Reach.snd Discovery.reachable_bothWritten trivial
    (.keys Discovery.lists_bothWritten (List.cons_ne_nil _ _))
  have h₂ := Program.Reach.snd h₁ trivial .mget
  have h₃ := Program.Reach.snd h₂ trivial .publish
  have hfresh := peers_fresh h₃ false
  exact ⟨_, rfl, (hfresh.peers true (List.mem_singleton_self _)).2⟩

theorem live_peers_listed_twoNodes : ∃ c : Config Bool (Discovery Bool Bool) (DiscoveryPc Bool),
    c.shared.refreshes false = 1 ∧ true ∈ c.shared.peers false := by
  have hlive : Advertising twoNodes true Discovery.bothWritten :=
    ⟨⟨_, some "1", 0⟩, rfl, rfl, Nat.zero_le _⟩
  have h₀ : ((discoveryProgram twoNodes).startAt
      ⟨Discovery.bothWritten, fun t => cond t .listing .listing⟩).toSystem.Reach
      (fun c _ => Advertising twoNodes true c.shared)
      ⟨Discovery.bothWritten, fun t => cond t .listing .listing⟩ := .init rfl
  have h₁ := Program.Reach.snd h₀ hlive (.keys Discovery.lists_bothWritten (List.cons_ne_nil _ _))
  have h₂ := Program.Reach.snd h₁ hlive .mget
  have h₃ := Program.Reach.snd h₂ hlive .publish
  exact ⟨_, rfl, live_peers_listed (u := true) (t := false) Discovery.reachable_bothWritten trivial
    h₃ Bool.noConfusion Nat.one_ne_zero⟩

end DistillFs
