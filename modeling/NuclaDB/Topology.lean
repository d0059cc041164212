import Std.Data.ExtTreeMap
import NuclaDB.HashRing

/-!
# The replicated topology

The state machine behind the cluster's Raft log, and a `Cluster`, which proposes commands to
the log and keeps a ring. A proposal that fails may have been committed all the same.
-/

namespace NuclaDB.Topology
open HashRing SortedSlice List

inductive CommandOp
  | addNode
  | removeNode
  | setShardLeader
  | addShardReplica
  | removeShardReplica
  | other (name : String)
deriving DecidableEq

structure Command where
  op : CommandOp
  nodeID : String := ""
  addr : String := ""
  shardID : ℤ := 0
deriving DecidableEq

structure State where
  nodes : Std.ExtTreeMap String String compare
  shardLeader : Std.ExtTreeMap ℤ String compare
  shardReplicas : Std.ExtTreeMap ℤ (List String) compare

namespace State

def new : State := ⟨∅, ∅, ∅⟩

variable (s : State)

def leaderOf (shardID : ℤ) : String := s.shardLeader[shardID]?.getD ""

def replicasOf (shardID : ℤ) : List String := s.shardReplicas[shardID]?.getD []

def apply (cmd : Command) : State :=
  match cmd.op with
  | .addNode => { s with nodes := s.nodes.insert cmd.nodeID cmd.addr }
  | .removeNode => { s with nodes := s.nodes.erase cmd.nodeID }
  | .setShardLeader => { s with shardLeader := s.shardLeader.insert cmd.shardID cmd.nodeID }
  | .addShardReplica =>
    let replicas := s.replicasOf cmd.shardID
    if cmd.nodeID ∈ replicas then s
    else { s with shardReplicas := s.shardReplicas.insert cmd.shardID (replicas ++ [cmd.nodeID]) }
  | .removeShardReplica =>
    let replicas := s.replicasOf cmd.shardID
    { s with
      shardReplicas := s.shardReplicas.insert cmd.shardID
        (replicas.filter fun r => r != cmd.nodeID) }
  | .other _ => s

def applyAll (cmds : List Command) : State := cmds.foldl apply s

end State

inductive Answer (E : Type)
  | committed
  | failed (e : E) (applied : Bool)

structure Session where
  state : State
  proposed : List Command

abbrev Proposing (E : Type) := ExceptT E (StateM Session)

def propose {E : Type} (answer : ℕ → Answer E) (cmd : Command) : Proposing E Unit := do
  let s ← get
  match answer s.proposed.length with
  | .committed => set (⟨s.state.apply cmd, s.proposed ++ [cmd]⟩ : Session)
  | .failed e applied => do
    set (⟨if applied then s.state.apply cmd else s.state, s.proposed ++ [cmd]⟩ : Session)
    throw e

structure Cluster where
  numShards : ℕ
  virtualNodes : ℕ
  replicationFactor : ℕ
  ring : Ring
  addrs : Std.ExtTreeMap String String compare
  numShards_pos : 0 < numShards
  virtualNodes_pos : 0 < virtualNodes
  replicationFactor_pos : 0 < replicationFactor

structure MapOrder (α : Type) where
  list : List α → List α
  perm (l : List α) : (list l).Perm l

def MapOrder.listed {α : Type} : MapOrder α := ⟨id, fun l => List.Perm.refl l⟩

def MapOrder.reversed {α : Type} : MapOrder α := ⟨reverse, reverse_perm⟩

def atLeastOne (n : ℤ) : ℕ := if n < 1 then 1 else n.toNat

theorem atLeastOne_pos (n : ℤ) : 0 < atLeastOne n := by
  rw [atLeastOne]
  split <;> omega

inductive OwnerError
  | noNodes
  | noAddress (shardID : ℤ) (nodeID : String)
deriving DecidableEq

namespace Cluster
variable (hash : String → UInt64) (sort : PointSort) (visit : MapOrder (String × String)) (state : State)

def refresh
    (c : Cluster) : Cluster :=
  let nodes := visit.list state.nodes.toList
  { c with
    ring := nodes.foldl (fun r node => r.addNode hash sort node.1)
      (HashRing.new c.numShards c.virtualNodes)
    addrs := nodes.foldl (fun addrs node => addrs.insert node.1 node.2) ∅ }

def new
    (numShards virtualNodes replicationFactor : ℤ) : Cluster :=
  refresh hash sort visit state
    { numShards := atLeastOne numShards
      virtualNodes := atLeastOne virtualNodes
      replicationFactor := atLeastOne replicationFactor
      ring := HashRing.new (atLeastOne numShards) (atLeastOne virtualNodes)
      addrs := ∅
      numShards_pos := atLeastOne_pos numShards
      virtualNodes_pos := atLeastOne_pos virtualNodes
      replicationFactor_pos := atLeastOne_pos replicationFactor }

def shardOwner (c : Cluster) (shardID : ℤ) : Except OwnerError (String × String) :=
  let leader := state.leaderOf shardID
  let owner : Except OwnerError String :=
    if leader = "" then (c.ring.ownerOf hash shardID).mapError fun _ => .noNodes else .ok leader
  owner >>= fun id =>
    match c.addrs[id]? with
    | some addr => .ok (id, addr)
    | none => .error (.noAddress shardID id)

variable {hash}

theorem refresh_ring
    (c : Cluster) :
    (c.refresh hash sort visit state).ring = HashRing.run hash (HashRing.new c.numShards c.virtualNodes)
        ((visit.list state.nodes.toList).map fun node => .addNode sort node.1) := by
  simp only [refresh, HashRing.run, foldl_map, Op.apply]

theorem nodeSet_run_addNode {α : Type} (sort : PointSort) (name : α → String) (l : List α)
    (r : Ring) :
    (HashRing.run hash r (l.map fun a => .addNode sort (name a))).nodeSet =
      r.nodeSet ∪ (l.map name).toFinset := by
  induction l generalizing r with
  | nil => simp [HashRing.run]
  | cons a l ih =>
    rw [map_cons, HashRing.run, foldl_cons]
    refine (ih _).trans ?_
    rw [Op.apply, Ring.nodeSet_addNode, map_cons, toFinset_cons, Finset.insert_union,
      Finset.union_insert]

theorem refresh_ring_eq (sort sort' : PointSort) (visit visit' : MapOrder (String × String))
    (state : State) (c : Cluster)
    (hdistinct : Ring.Distinct hash (HashRing.new c.numShards c.virtualNodes).virtualNodes
      (c.refresh hash sort visit state).ring.nodeSet) :
    (c.refresh hash sort' visit' state).ring = (c.refresh hash sort visit state).ring := by
  simp only [refresh_ring] at hdistinct ⊢
  refine run_eq_of_nodeSet_eq _ _ _ _ ?_ hdistinct
  rw [nodeSet_run_addNode, nodeSet_run_addNode]
  congr 1
  ext name
  simp only [mem_toFinset, mem_map, (visit'.perm _).mem_iff, (visit.perm _).mem_iff]

end Cluster

end NuclaDB.Topology
