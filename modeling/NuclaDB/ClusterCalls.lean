import NuclaDB.EventRun
import NuclaDB.Rebalance

/-!
# Joining, leaving and watching

On the Raft leader, `Join` and `Leave` are called one at a time, and a goroutine runs
`Refresh` whenever the topology changes. All proposals succeed.
-/

namespace NuclaDB.Topology
open HashRing SortedSlice EventRun List

inductive Request
  | join (nodeID apiAddr : String)
  | leave (nodeID : String)
deriving DecidableEq

def Request.command : Request → Command
  | .join nodeID apiAddr => { op := .addNode, nodeID, addr := apiAddr }
  | .leave nodeID => { op := .removeNode, nodeID }

/-- How far a call has come: the topology changed, the three steps of its `Refresh`, the ring that
`Rebalance` has read, and the commands left. -/
inductive Phase
  | start
  | changed
  | read (state : State)
  | built (next : Cluster)
  | stored
  | ring (c : Cluster)
  | proposing (cmds : List Command)
  | returned

inductive Refreshing
  | idle
  | read (state : State)
  | built (state : State) (next : Cluster)

structure Sys where
  fsm : State
  cluster : Cluster
  watch : Refreshing
  call : Option (Request × Phase)

inductive Event
  | begin (req : Request)
  | call (sort : PointSort) (visit : MapOrder (String × String))
  | watch (sort : PointSort) (visit : MapOrder (String × String))

namespace Sys
variable (hash : String → UInt64) (s : Sys) (sort : PointSort) (visit : MapOrder (String × String))

def begin (req : Request) : Sys :=
  match s.call with
  | none => { s with call := some (req, .start) }
  | some (_, .returned) => { s with call := some (req, .start) }
  | some _ => s

def advance : Sys :=
  match s.call with
  | none => s
  | some (req, phase) =>
    match phase with
    | .start => { s with fsm := s.fsm.apply req.command, call := some (req, .changed) }
    | .changed => { s with call := some (req, .read s.fsm) }
    | .read state =>
      { s with call := some (req, .built (s.cluster.refresh hash sort visit state)) }
    | .built next => { s with cluster := next, call := some (req, .stored) }
    | .stored => { s with call := some (req, .ring s.cluster) }
    | .ring c => { s with call := some (req, .proposing (c.plan hash s.fsm)) }
    | .proposing [] => { s with call := some (req, .returned) }
    | .proposing (cmd :: cmds) =>
      { s with fsm := s.fsm.apply cmd, call := some (req, .proposing cmds) }
    | .returned => s

def observe : Sys :=
  match s.watch with
  | .idle => { s with watch := .read s.fsm }
  | .read state => { s with watch := .built state (s.cluster.refresh hash sort visit state) }
  | .built _ next => { s with cluster := next, watch := .idle }

def step : Event → Except Empty Sys
  | .begin req => .ok (s.begin req)
  | .call sort visit => .ok (s.advance hash sort visit)
  | .watch sort visit => .ok (s.observe hash sort visit)

def start (cmds : List Command)
    (numShards virtualNodes replicationFactor : ℤ) : Sys :=
  ⟨State.new.applyAll cmds, Cluster.new hash sort visit (State.new.applyAll cmds) numShards
    virtualNodes replicationFactor, .idle, none⟩

/-- Between the `Refresh` of a `Leave` and the moment its `Rebalance` reads the ring, the goroutine
stores no ring of other nodes than the present ones. -/
def fresh : Event → Bool
  | .watch _ _ =>
    match s.call, s.watch with
    | some (.leave _, .stored), .built state _ => decide (state.nodes.keys = s.fsm.nodes.keys)
    | _, _ => true
  | _ => true

def left : Option String :=
  match s.call with
  | some (.leave n, .returned) => some n
  | _ => none

end Sys

def OwnsNothing (s : State) (n : String) : Prop :=
  ∀ shard : ℤ, s.shardLeader[shard]? ≠ some n ∧ n ∉ s.replicasOf shard

section Proof
variable {hash : String → UInt64} {numShards : ℕ}

variable (hash) in
structure Cluster.RingOf (nodes : Std.ExtTreeMap String String compare) (c : Cluster) : Prop where
  sound : c.ring.Sound hash
  nodeSet (id : String) : id ∈ c.ring.nodeSet ↔ id ∈ nodes

variable (hash) in
theorem Cluster.refresh_ringOf (sort : PointSort) (visit : MapOrder (String × String))
    (state : State) (c : Cluster) :
    (c.refresh hash sort visit state).RingOf hash state.nodes := by
  have hring : (c.refresh hash sort visit state).ring = _ := c.refresh_ring sort visit state
  refine ⟨?_, fun id => ?_⟩
  · rw [hring]
    exact (Ring.new_sound _ _).run _
  · rw [hring, Cluster.nodeSet_run_addNode, Finset.mem_union, mem_toFinset, mem_map]
    simp only [HashRing.new, Finset.notMem_empty, false_or, (visit.perm _).mem_iff]
    constructor
    · rintro ⟨⟨id', addr⟩, hmem, rfl⟩
      rw [Std.ExtTreeMap.mem_toList_iff_getElem?_eq_some] at hmem
      exact Std.ExtTreeMap.mem_iff_isSome_getElem?.mpr (by simp [hmem])
    · intro hmem
      obtain ⟨addr, haddr⟩ := Option.isSome_iff_exists.mp (Std.ExtTreeMap.mem_iff_isSome_getElem?.mp hmem)
      exact ⟨(id, addr), Std.ExtTreeMap.mem_toList_iff_getElem?_eq_some.mpr haddr, rfl⟩

def Command.OnShard (numShards : ℕ) (cmd : Command) : Prop :=
  (cmd.op = .setShardLeader ∨ cmd.op = .addShardReplica ∨ cmd.op = .removeShardReplica) ∧
    0 ≤ cmd.shardID ∧ cmd.shardID < numShards

theorem Cluster.onShard_of_mem_plan {c : Cluster} {s : State} {cmd : Command}
    (hcmd : cmd ∈ c.plan hash s) : cmd.OnShard c.numShards := by
  simp only [Cluster.plan, mem_flatMap, mem_range] at hcmd
  obtain ⟨shard, hshard, hmem⟩ := hcmd
  cases howners : c.ring.ownerList hash shard c.replicationFactor with
  | nil => simp [howners, ownersPlan] at hmem
  | cons leader replicas =>
    simp only [howners, ownersPlan, mem_append, mem_map] at hmem
    rcases hmem with (hset | ⟨id, -, rfl⟩) | ⟨id, -, rfl⟩
    · split at hset
      · rw [mem_singleton.mp hset]
        exact ⟨.inl rfl, Int.natCast_nonneg shard, Int.ofNat_lt.mpr hshard⟩
      · simp at hset
    · exact ⟨.inr (.inr rfl), Int.natCast_nonneg shard, Int.ofNat_lt.mpr hshard⟩
    · exact ⟨.inr (.inl rfl), Int.natCast_nonneg shard, Int.ofNat_lt.mpr hshard⟩

structure State.Tidy (numShards : ℕ) (s : State) : Prop where
  outside : ∀ shard : ℤ, ¬(0 ≤ shard ∧ shard < numShards) → s.entry shard = (none, none)
  nodup : ∀ shard, (s.replicasOf shard).Nodup

theorem State.Tidy.apply {s : State} (h : s.Tidy numShards) {cmd : Command}
    (hcmd : 0 ≤ cmd.shardID ∧ cmd.shardID < numShards) : (s.apply cmd).Tidy numShards := by
  refine ⟨fun shard hout => ?_, State.nodup_apply h.nodup cmd⟩
  have hne : shard ≠ cmd.shardID := fun heq => hout (heq ▸ hcmd)
  cases hop : cmd.op with
  | addNode | removeNode =>
    simp only [State.apply, hop]
    exact h.outside shard hout
  | setShardLeader =>
    exact ((State.onlyAt_apply rfl (.inl hop)).entry shard hne).trans (h.outside shard hout)
  | addShardReplica =>
    exact ((State.onlyAt_apply rfl (.inr (.inl hop))).entry shard hne).trans (h.outside shard hout)
  | removeShardReplica =>
    exact ((State.onlyAt_apply rfl (.inr (.inr hop))).entry shard hne).trans (h.outside shard hout)
  | other name => simpa [State.apply, hop] using h.outside shard hout

theorem State.tidy_applyAll {cmds : List Command}
    (hcmds : ∀ cmd ∈ cmds, 0 ≤ cmd.shardID ∧ cmd.shardID < numShards) {s : State}
    (h : s.Tidy numShards) : (s.applyAll cmds).Tidy numShards := by
  induction cmds generalizing s with
  | nil => exact h
  | cons cmd cmds ih =>
    obtain ⟨hcmd, hrest⟩ := forall_mem_cons.mp hcmds
    exact ih hrest (h.apply hcmd)

theorem State.nodes_apply {s : State} {cmd : Command} (hcmd : cmd.OnShard numShards) :
    (s.apply cmd).nodes = s.nodes :=
  (State.onlyAt_apply rfl hcmd.1).nodes

theorem Cluster.RingOf.ownsNothing {c : Cluster} {s : State} {n : String}
    (hc : c.RingOf hash s.nodes) (hs : s.Tidy c.numShards) (hgone : n ∉ s.nodes) {other : String}
    (hother : other ∈ s.nodes) : OwnsNothing (s.applyAll (c.plan hash s)) n := by
  have hne : c.ring.nodeSet.Nonempty := ⟨other, (hc.nodeSet other).mpr hother⟩
  obtain ⟨-, hrest, hdone⟩ := State.plan_effect
    (fun shard : ℕ => hc.sound.nodup_ownerList (shard : ℤ) c.replicationFactor) hs.nodup
    c.numShards rfl
  intro shard
  by_cases hin : 0 ≤ shard ∧ shard < c.numShards
  · obtain ⟨i, rfl⟩ := Int.eq_ofNat_of_zero_le hin.1
    have hbalanced := hdone i (Int.ofNat_lt.mp hin.2)
    have hnot : n ∉ c.ring.ownerList hash i c.replicationFactor := by
      rw [hc.sound.ownerList_eq]
      intro hmem
      exact hgone ((hc.nodeSet n).mp (hc.sound.mem_order.mp (mem_of_mem_take hmem)))
    obtain ⟨leader, replicas, heq⟩ := exists_cons_of_ne_nil
      (hc.sound.ownerList_ne_nil hne i (Int.natCast_pos.mpr c.replicationFactor_pos))
    rw [heq] at hbalanced hnot
    obtain ⟨hleader, hperm⟩ := hbalanced
    rw [mem_cons, not_or] at hnot
    refine ⟨fun hsome => hnot.1 ?_, fun hmem => hnot.2 (hperm.mem_iff.mp hmem)⟩
    rw [← hleader]
    simp only [State.leaderOf]
    exact (congrArg (·.getD "") hsome).symm
  · have hentry := (hrest shard hin).trans (hs.outside shard hin)
    simp only [State.entry, Prod.mk.injEq] at hentry
    refine ⟨?_, ?_⟩
    · rw [show (s.applyAll (c.plan hash s)).shardLeader[shard]? = none from hentry.1]
      simp
    · rw [State.replicasOf, show (s.applyAll (c.plan hash s)).shardReplicas[shard]? = none from hentry.2]
      simp

variable (hash numShards) in
def Phase.Sane : Phase → Prop
  | .built next => next.numShards = numShards
  | .ring c => c.numShards = numShards
  | .proposing cmds => ∀ cmd ∈ cmds, cmd.OnShard numShards
  | _ => True

variable (hash) in
def Phase.Leaving (s : Sys) (n : String) : Phase → Prop
  | .start => True
  | .changed => n ∉ s.fsm.nodes
  | .read state => n ∉ s.fsm.nodes ∧ state.nodes = s.fsm.nodes
  | .built next => n ∉ s.fsm.nodes ∧ next.RingOf hash s.fsm.nodes
  | .stored => n ∉ s.fsm.nodes ∧ s.cluster.RingOf hash s.fsm.nodes
  | .ring c => n ∉ s.fsm.nodes ∧ c.RingOf hash s.fsm.nodes
  | .proposing cmds => ∀ other ∈ s.fsm.nodes, other ≠ n → OwnsNothing (s.fsm.applyAll cmds) n
  | .returned => ∀ other ∈ s.fsm.nodes, other ≠ n → OwnsNothing s.fsm n

variable (hash numShards) in
structure Sys.Inv (s : Sys) : Prop where
  tidy : s.fsm.Tidy numShards
  shards : s.cluster.numShards = numShards
  watch : ∀ state next, s.watch = .built state next →
    next.numShards = numShards ∧ next.RingOf hash state.nodes
  sane : ∀ req phase, s.call = some (req, phase) → phase.Sane numShards
  leaving : ∀ n phase, s.call = some (.leave n, phase) → phase.Leaving hash s n

namespace Sys
variable {s : Sys}

section
variable (h : s.Inv hash numShards)
include h

theorem Inv.begin (req : Request) : (s.begin req).Inv hash numShards := by
  have hnew : ({ s with call := some (req, .start) } : Sys).Inv hash numShards := by
    refine ⟨h.tidy, h.shards, h.watch, fun _ phase hcall => ?_, fun _ phase hcall => ?_⟩
    · obtain ⟨-, rfl⟩ := Prod.mk.inj (Option.some.inj hcall)
      trivial
    · obtain ⟨-, rfl⟩ := Prod.mk.inj (Option.some.inj hcall)
      trivial
  simp only [Sys.begin]
  split
  · exact hnew
  · exact hnew
  · exact h

theorem Inv.next {fsm : State} {c : Cluster} {req : Request}
    {phase : Phase} (hfsm : fsm.Tidy numShards) (hc : c.numShards = numShards)
    (hsane : phase.Sane numShards)
    (hleaving : ∀ n, req = .leave n →
      phase.Leaving hash { s with fsm := fsm, cluster := c, call := some (req, phase) } n) :
    ({ s with fsm := fsm, cluster := c, call := some (req, phase) } : Sys).Inv hash numShards := by
  refine ⟨hfsm, hc, h.watch, fun _ _ hcall => ?_, fun n _ hcall => ?_⟩
  · obtain ⟨-, rfl⟩ := Prod.mk.inj (Option.some.inj hcall)
    exact hsane
  · obtain ⟨rfl, rfl⟩ := Prod.mk.inj (Option.some.inj hcall)
    exact hleaving n rfl

theorem Inv.advance (sort : PointSort)
    (visit : MapOrder (String × String)) : (s.advance hash sort visit).Inv hash numShards := by
  simp only [Sys.advance]
  split
  · exact h
  · next req phase hcall =>
    have hsane := h.sane req phase hcall
    have hleaving : ∀ n, req = .leave n → phase.Leaving hash s n :=
      fun n hreq => h.leaving n phase (hreq ▸ hcall)
    cases phase with
    | start =>
      have hshard : 0 ≤ req.command.shardID ∧ req.command.shardID < numShards := by
        have hpos := s.cluster.numShards_pos
        rw [h.shards] at hpos
        cases req <;> exact ⟨le_refl _, Int.natCast_pos.mpr hpos⟩
      refine h.next (h.tidy.apply hshard) h.shards trivial fun n hreq => ?_
      subst hreq
      simp [Phase.Leaving, Request.command, State.apply]
    | changed => exact h.next h.tidy h.shards trivial fun n hreq => ⟨hleaving n hreq, rfl⟩
    | read state =>
      refine h.next h.tidy h.shards h.shards fun n hreq => ?_
      obtain ⟨hgone, hnodes⟩ := hleaving n hreq
      exact ⟨hgone, hnodes ▸ Cluster.refresh_ringOf hash sort visit state s.cluster⟩
    | built next => exact h.next h.tidy hsane trivial hleaving
    | stored => exact h.next h.tidy h.shards h.shards hleaving
    | ring c =>
      refine h.next h.tidy h.shards ?_ fun n hreq => ?_
      · rw [← show c.numShards = numShards from hsane]
        exact fun cmd hcmd => Cluster.onShard_of_mem_plan hcmd
      · obtain ⟨hgone, hring⟩ := hleaving n hreq
        have htidy := h.tidy
        rw [← show c.numShards = numShards from hsane] at htidy
        exact fun other hother _ => hring.ownsNothing htidy hgone hother
    | proposing cmds =>
      cases cmds with
      | nil => exact h.next h.tidy h.shards trivial hleaving
      | cons cmd cmds =>
        obtain ⟨hcmd, hrest⟩ := forall_mem_cons.mp hsane
        refine h.next (h.tidy.apply hcmd.2) h.shards hrest fun n hreq => ?_
        have hnodes := State.nodes_apply (s := s.fsm) hcmd
        intro other hother
        rw [hnodes] at hother
        exact hleaving n hreq other hother
    | returned => exact h

theorem Inv.observe {sort : PointSort}
    {visit : MapOrder (String × String)} (hfresh : s.fresh (.watch sort visit) = true) :
    (s.observe hash sort visit).Inv hash numShards := by
  simp only [Sys.observe]
  split
  · refine ⟨h.tidy, h.shards, by simp, h.sane, fun n phase hcall => ?_⟩
    have hphase := h.leaving n phase hcall
    cases phase <;> exact hphase
  · next state hwatch =>
    refine ⟨h.tidy, h.shards, fun state' next heq => ?_, h.sane, fun n phase hcall => ?_⟩
    · obtain ⟨rfl, rfl⟩ := Refreshing.built.inj heq
      exact ⟨h.shards, Cluster.refresh_ringOf hash sort visit state s.cluster⟩
    · have hphase := h.leaving n phase hcall
      cases phase <;> exact hphase
  · next state next hwatch =>
    obtain ⟨hshards, hring⟩ := h.watch state next hwatch
    refine ⟨h.tidy, hshards, by simp, h.sane, fun n phase hcall => ?_⟩
    have hphase := h.leaving n phase hcall
    cases phase with
    -- only a call between its store and the read of the ring looks at the stored ring
    | stored =>
      have hcall' : s.call = some (.leave n, .stored) := hcall
      have hids : state.nodes.keys = s.fsm.nodes.keys := by
        simpa only [fresh, hcall', hwatch, decide_eq_true_eq] using hfresh
      refine ⟨hphase.1, hring.sound, fun id => (hring.nodeSet id).trans ?_⟩
      rw [← Std.ExtTreeMap.mem_keys, hids, Std.ExtTreeMap.mem_keys]
    | _ => exact hphase

theorem Inv.step {ev : Event} (hfresh : s.fresh ev = true) {s' : Sys}
    (hstep : s.step hash ev = .ok s') : s'.Inv hash numShards := by
  cases ev with
  | begin req => exact Except.ok.inj hstep ▸ h.begin req
  | call sort visit => exact Except.ok.inj hstep ▸ h.advance sort visit
  | watch sort visit => exact Except.ok.inj hstep ▸ h.observe hfresh

end

theorem start_inv (sort : PointSort) (visit : MapOrder (String × String)) {cmds : List Command}
    (shards virtualNodes replicationFactor : ℤ)
    (hcmds : ∀ cmd ∈ cmds, 0 ≤ cmd.shardID ∧ cmd.shardID < atLeastOne shards) :
    (start hash sort visit cmds shards virtualNodes replicationFactor).Inv hash
      (atLeastOne shards) := by
  have hnew : State.new.Tidy (atLeastOne shards) :=
    ⟨fun shard _ => by simp [State.entry, State.new], fun shard => by
      simp [State.replicasOf, State.new]⟩
  exact ⟨State.tidy_applyAll hcmds hnew, rfl, by simp [start], by simp [start], by simp [start]⟩

end Sys

/-- When a `Leave` has returned and another node remains, the node that left owns nothing, in every
run in which no outdated ring is stored while a `Leave` is about to read it. -/
theorem left_node_owns_nothing (hash : String → UInt64) (sort : PointSort)
    (visit : MapOrder (String × String)) {cmds : List Command}
    (shards virtualNodes replicationFactor : ℤ)
    (hcmds : ∀ cmd ∈ cmds, 0 ≤ cmd.shardID ∧ cmd.shardID < atLeastOne shards) {evs : List Event}
    {s : Sys}
    (hfresh : Along (Sys.step hash) (fun s ev => s.fresh ev = true)
      (Sys.start hash sort visit cmds shards virtualNodes replicationFactor) evs)
    (hrun : run (Sys.step hash)
      (Sys.start hash sort visit cmds shards virtualNodes replicationFactor) evs = .ok s)
    {n : String} (hleft : s.left = some n) {other : String}
    (hother : other ∈ s.fsm.nodes) (hne : other ≠ n) : OwnsNothing s.fsm n := by
  have hinv : s.Inv hash (atLeastOne shards) := run_keeps
    (fun h hfresh hstep => Sys.Inv.step h hfresh hstep)
    (Sys.start_inv sort visit shards virtualNodes replicationFactor hcmds) hfresh hrun
  have hcall : s.call = some (.leave n, .returned) := by
    simp only [Sys.left] at hleft
    split at hleft
    · next m hcall => rw [hcall, Option.some.inj hleft]
    · simp at hleft
  exact hinv.leaving n .returned hcall other hother hne

section Two

def insertPoints : PointSort := KeySort.insertion _

def ofOneNode : Sys :=
  Sys.start hashKey insertPoints .listed [{ op := .addNode, nodeID := "a", addr := "a:1" }] 1 1 2

def calls (n : ℕ) : List Event := replicate n (.call insertPoints .listed)

def watches (n : ℕ) : List Event := replicate n (.watch insertPoints .listed)

/-- The node b joins and leaves again, and the goroutine refreshes with what it reads after that. -/
def freshRun : List Event :=
  .begin (.join "b" "b:1") :: calls 9 ++ .begin (.leave "b") :: calls 3 ++ watches 2 ++ calls 1 ++
    watches 1 ++ calls 6

theorem fresh_refresh_lets_a_node_go : ∃ s, run (Sys.step hashKey) ofOneNode freshRun = .ok s ∧
      s.left = some "b" ∧ "a" ∈ s.fsm.nodes ∧ OwnsNothing s.fsm "b" := by
  obtain ⟨s, hrun, hleft, hother⟩ : ∃ s, run (Sys.step hashKey) ofOneNode freshRun = .ok s ∧
      s.left = some "b" ∧ "a" ∈ s.fsm.nodes := by decide +kernel
  have hfresh : Along (Sys.step hashKey) (fun s ev => s.fresh ev = true) ofOneNode
      freshRun := by decide +kernel
  exact ⟨s, hrun, hleft, hother, left_node_owns_nothing hashKey insertPoints .listed 1 1 2
    (by simp [atLeastOne]) hfresh hrun hleft hother (by decide)⟩

/-- The goroutine has read both nodes before b leaves, and stores its ring when the `Leave` has
stored its own and not yet read it. -/
def staleRun : List Event :=
  .begin (.join "b" "b:1") :: calls 9 ++ watches 2 ++ .begin (.leave "b") :: calls 4 ++ watches 1 ++
    calls 3

theorem stale_refresh_keeps_a_node : ∃ s, run (Sys.step hashKey) ofOneNode staleRun = .ok s ∧
      s.left = some "b" ∧ "a" ∈ s.fsm.nodes ∧ ¬ OwnsNothing s.fsm "b" := by
  obtain ⟨s, hrun, hleft, hother, howner⟩ :
      ∃ s, run (Sys.step hashKey) ofOneNode staleRun = .ok s ∧ s.left = some "b" ∧
        "a" ∈ s.fsm.nodes ∧ (s.fsm.shardLeader[(0 : ℤ)]? = some "b" ∨ "b" ∈ s.fsm.replicasOf 0) := by
    decide +kernel
  refine ⟨s, hrun, hleft, hother, fun howns => ?_⟩
  rcases howner with hleader | hreplica
  · exact (howns 0).1 hleader
  · exact (howns 0).2 hreplica

end Two

end Proof

end NuclaDB.Topology
