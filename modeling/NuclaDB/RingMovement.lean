import NuclaDB.HashRing

/-!
# What moves when a node joins or leaves

Taking a node off the ring takes it out of every shard's order and leaves the other nodes
where they were.
-/

namespace NuclaDB.HashRing
open SortedSlice List

namespace Ring
variable {hash : String → UInt64} {r : Ring}

theorem nodup_order (shardID : ℤ) : (r.order hash shardID).Nodup := nodup_eraseDups _

theorem removeNode_order (hr : r.Sound hash) (nodeID : String) (shardID : ℤ) :
    (r.removeNode nodeID).order hash shardID =
      (r.order hash shardID).filter fun id => !id == nodeID := by
  by_cases hid : nodeID ∈ r.nodeSet
  · simp only [removeNode, hid, not_true_eq_false, if_false, order, walk]
    rw [← eraseDups_filter, filter_map, filter_append, filter_comm,
      filter_comm (fun p => !ahead hash shardID p)]
    rfl
  · rw [removeNode, if_pos hid]
    refine (filter_eq_self.mpr fun id hmem => ?_).symm
    have hne : id ≠ nodeID := fun heq => hid (heq ▸ hr.mem_order.mp hmem)
    simp [hne]

theorem Sound.removeNode_addNode (hr : r.Sound hash) (sort : PointSort) {nodeID : String}
    (hnew : nodeID ∉ r.nodeSet) (hdistinct : Distinct hash r.virtualNodes r.nodeSet) :
    (r.addNode hash sort nodeID).removeNode nodeID = r := by
  have hsound := (hr.addNode sort nodeID).removeNode nodeID
  have hnodes : ((r.addNode hash sort nodeID).removeNode nodeID).nodeSet = r.nodeSet := by
    simp [Ring.removeNode, Ring.addNode, hnew]
  have hvirtual : ((r.addNode hash sort nodeID).removeNode nodeID).virtualNodes = r.virtualNodes := by
    simp [Ring.removeNode, Ring.addNode, hnew]
  have hshards : ((r.addNode hash sort nodeID).removeNode nodeID).numShards = r.numShards := by
    simp [Ring.removeNode, Ring.addNode, hnew]
  have hpoints := hr.points_eq hsound hdistinct hvirtual hnodes
  generalize (r.addNode hash sort nodeID).removeNode nodeID = r' at *
  cases r
  cases r'
  simp_all

theorem Sound.order_filter (hr : r.Sound hash) (sort : PointSort) {nodeID : String}
    (hnew : nodeID ∉ r.nodeSet) (hdistinct : Distinct hash r.virtualNodes r.nodeSet)
    (shardID : ℤ) :
    ((r.addNode hash sort nodeID).order hash shardID).filter (fun id => !id == nodeID) =
      r.order hash shardID := by
  rw [← removeNode_order (hr.addNode sort nodeID), hr.removeNode_addNode sort hnew hdistinct]

variable (hash) in
def ownerList (r : Ring) (shardID n : ℤ) : List String :=
  match r.ownersOf hash shardID n with
  | .ok owners => owners
  | .error _ => []

theorem Sound.ownerList_eq (hr : r.Sound hash) (shardID n : ℤ) :
    r.ownerList hash shardID n = (r.order hash shardID).take n.toNat := by
  rw [ownerList, hr.ownersOf_eq]
  split
  · next h =>
    split at h
    · cases h
    · exact (Except.ok.inj h).symm
  · next h =>
    split at h
    · next hnil => simp [order, walk, length_eq_zero_iff.mp hnil]
    · cases h

theorem Sound.ownersOf_eq_ok (hr : r.Sound hash) (hne : r.nodeSet.Nonempty) (shardID n : ℤ) :
    r.ownersOf hash shardID n = .ok (r.ownerList hash shardID n) := by
  obtain ⟨nodeID, hid⟩ := hne
  have hpoints : r.points.length ≠ 0 := by
    intro hnil
    have hmem := hr.mem_names.mpr hid
    rw [length_eq_zero_iff.mp hnil] at hmem
    cases hmem
  rw [hr.ownersOf_eq, if_neg hpoints, hr.ownerList_eq]

theorem Sound.nodup_ownerList (hr : r.Sound hash) (shardID n : ℤ) :
    (r.ownerList hash shardID n).Nodup := by
  rw [hr.ownerList_eq]
  exact (nodup_order shardID).sublist (take_sublist _ _)

theorem Sound.ownerList_ne_nil (hr : r.Sound hash) (hne : r.nodeSet.Nonempty) (shardID : ℤ) {n : ℤ}
    (hn : 0 < n) : r.ownerList hash shardID n ≠ [] := by
  have hlen := hr.length_order shardID
  have hcard := hne.card_pos
  rw [hr.ownerList_eq]
  intro hnil
  have := congrArg length hnil
  rw [length_take, length_nil] at this
  omega

end Ring

section Movement
variable {hash : String → UInt64}

/-- A node that joins is put into each list of owners at one place or not at all; the other owners
keep their order, and what does not fit is cut off. Taking the node off again is the way back. -/
theorem addNode_moves_only_to_the_node (numShards virtualNodes : ℤ) (ops : List Op)
    (sort : PointSort) (nodeID : String) :
    let r := run hash (new numShards virtualNodes) ops
    let r' := r.addNode hash sort nodeID
    nodeID ∉ r.nodeSet → Ring.Distinct hash r.virtualNodes r.nodeSet → (∀ shardID n, ∃ owners,
        (owners = r.ownerList hash shardID n ∨ ∃ i ≤ (r.ownerList hash shardID n).length,
          owners = (r.ownerList hash shardID n).insertIdx i nodeID) ∧
        r'.ownersOf hash shardID n = .ok (owners.take n.toNat)) ∧
      (∀ shardID, r'.ownerOf hash shardID = .ok nodeID ∨
        r'.ownerOf hash shardID = r.ownerOf hash shardID) ∧
      r'.removeNode nodeID = r ∧
      ∀ shardID n, nodeID ∉ r'.ownerList hash shardID n →
        r.ownerList hash shardID n = r'.ownerList hash shardID n := by
  intro r r' hnew hdistinct
  have hr : r.Sound hash := (Ring.new_sound numShards virtualNodes).run ops
  have hr' : r'.Sound hash := hr.addNode sort nodeID
  have hfilter := hr.order_filter sort hnew hdistinct
  refine ⟨fun shardID n => ?_, fun shardID => ?_, hr.removeNode_addNode sort hnew hdistinct,
    fun shardID n hnot => ?_⟩
  · obtain ⟨owners, hput, htake⟩ :=
      take_of_filter_ne (Ring.nodup_order shardID) (hfilter shardID) n.toNat
    rw [← hr.ownerList_eq] at hput
    refine ⟨owners, hput, ?_⟩
    have hne : r'.nodeSet.Nonempty := by
      rw [Ring.nodeSet_addNode]
      exact Finset.insert_nonempty _ _
    rw [hr'.ownersOf_eq_ok hne, hr'.ownerList_eq, htake]
  · rw [hr'.ownerOf_eq, hr.ownerOf_eq]
    rcases split_of_filter_ne (Ring.nodup_order shardID) (hfilter shardID) with heq | ⟨s, t, h, h'⟩
    · rw [heq]
      exact .inr rfl
    · rw [h, h']
      cases s with
      | nil => exact .inl rfl
      | cons owner s => exact .inr rfl
  · rw [hr'.ownerList_eq] at hnot ⊢
    rw [hr.ownerList_eq]
    exact take_eq_of_filter_ne (Ring.nodup_order shardID) (hfilter shardID) hnot

theorem joining_node_moves_to_itself : let sort : PointSort := KeySort.merge _
    let r := run hashKey (new 4 2) [.addNode sort "a", .addNode sort "b"]
    (r.addNode hashKey sort "c").removeNode "c" = r := by
  intro sort r
  exact (addNode_moves_only_to_the_node 4 2 [.addNode sort "a", .addNode sort "b"] sort "c"
    (by decide +kernel) (by decide +kernel)).2.2.1

end Movement

end NuclaDB.HashRing
