import Mathlib.Data.Finset.Card
import NuclaDB.Sha256
import NuclaDB.SortedSlice

/-!
# The consistent-hash ring

A shard is owned by the nodes that a walk from its hash meets. Which of two points with one
hash comes first is up to the sort. `hash` is any function; the ring's own is `hashKey`.
-/

namespace NuclaDB.HashRing
open SortedSlice List Nat

inductive RingError
  | noNodes
deriving DecidableEq

structure Point where
  hash : UInt64
  nodeID : String
deriving DecidableEq, Inhabited

structure Ring where
  virtualNodes : ℕ
  numShards : ℕ
  points : List Point
  nodeSet : Finset String
deriving DecidableEq

def new (numShards virtualNodes : ℤ) : Ring where
  virtualNodes := if virtualNodes < 1 then 1 else virtualNodes.toNat
  numShards := if numShards < 1 then 1 else numShards.toNat
  points := []
  nodeSet := ∅

def hashKey (s : String) : UInt64 :=
  UInt64.ofNat (Sha256.bigEndian ((Sha256.sum256 s.toUTF8.data.toList).take 8))

def nodeKey (nodeID : String) (i : ℕ) : String := nodeID ++ "#" ++ toString i

def shardKey (shardID : ℤ) : String := "shard#" ++ toString shardID

abbrev PointSort := KeySort fun p : Point => p.hash.toNat

def ownersLoop (points : List Point) (start n : ℕ) : ℕ → ℕ → Finset String → List String → List String
  | 0, _, _, owners => owners
  | fuel + 1, i, seen, owners =>
    if owners.length < n then
      let p := points.getD ((start + i) % points.length) default
      if p.nodeID ∈ seen then ownersLoop points start n fuel (i + 1) seen owners
      else ownersLoop points start n fuel (i + 1) (insert p.nodeID seen) (owners ++ [p.nodeID])
    else owners

namespace Ring
variable (hash : String → UInt64) (r : Ring)

def virtualPoints (nodeID : String) : List Point :=
  (List.range r.virtualNodes).map fun i => ⟨hash (nodeKey nodeID i), nodeID⟩

def addNode (sort : PointSort) (r : Ring) (nodeID : String) : Ring :=
  if nodeID ∈ r.nodeSet then r
  else { r with
    nodeSet := insert nodeID r.nodeSet
    points := sort.sort (r.points ++ r.virtualPoints hash nodeID) }

def removeNode (nodeID : String) : Ring :=
  if nodeID ∉ r.nodeSet then r
  else { r with
    nodeSet := r.nodeSet.erase nodeID
    points := r.points.filter fun p => !p.nodeID == nodeID }

/-- Whether a walk from the shard's hash meets the point before it wraps around. -/
def ahead (shardID : ℤ) (p : Point) : Bool := decide (hash (shardKey shardID) ≤ p.hash)

def ownerOf (shardID : ℤ) : Except RingError String :=
  if r.points.length = 0 then .error .noNodes
  else .ok (r.points.getD (startFor (ahead hash shardID) r.points) default).nodeID

def ownersOf (shardID n : ℤ) : Except RingError (List String) :=
  if r.points.length = 0 then .error .noNodes
  else if n ≤ 0 then .ok []
  else
    let n := if r.nodeSet.card < n then r.nodeSet.card else n.toNat
    let start := startFor (ahead hash shardID) r.points
    .ok (ownersLoop r.points start n r.points.length 0 ∅ [])

def assignment : Except RingError (List (ℕ × String)) :=
  (List.range r.numShards).mapM fun shard : ℕ => do
    let owner ← r.ownerOf hash shard
    return (shard, owner)

end Ring

inductive Op
  | addNode (sort : PointSort) (nodeID : String)
  | removeNode (nodeID : String)

def Op.apply (hash : String → UInt64) (r : Ring) : Op → Ring
  | .addNode sort nodeID => r.addNode hash sort nodeID
  | .removeNode nodeID => r.removeNode nodeID

def run (hash : String → UInt64) (r : Ring) (ops : List Op) : Ring := ops.foldl (Op.apply hash) r

section Keys

theorem append_cons_right_inj {α : Type*} {c : α} {u v x y : List α} (hu : c ∉ u) (hv : c ∉ v)
    (h : u ++ c :: x = v ++ c :: y) : x = y := by
  induction u generalizing v with
  | nil =>
    cases v with
    | nil => exact tail_eq_of_cons_eq h
    | cons b v => exact absurd (head_eq_of_cons_eq h) fun heq => hv (heq ▸ mem_cons_self)
  | cons a u ih =>
    cases v with
    | nil => exact absurd (head_eq_of_cons_eq h) fun heq => hu (heq ▸ mem_cons_self)
    | cons b v =>
      exact ih (fun hmem => hu (mem_cons_of_mem _ hmem))
        (fun hmem => hv (mem_cons_of_mem _ hmem)) (tail_eq_of_cons_eq h)

theorem nodeKey_inj {a b : String} {i j : ℕ} (h : nodeKey a i = nodeKey b j) : a = b := by
  have hdigits : ∀ n : ℕ, '#' ∉ (toString n).toList.reverse := by
    intro n hmem
    rw [mem_reverse, toString_eq_repr, toList_repr] at hmem
    have := isDigit_of_mem_toDigits (by decide) (by decide) hmem
    revert this
    decide
  have hsep : "#".toList = ['#'] := rfl
  have hlist := congrArg (fun s => s.toList.reverse) h
  simp only [nodeKey, String.toList_append, reverse_append, hsep, reverse_singleton,
    singleton_append] at hlist
  have hrest := append_cons_right_inj (hdigits i) (hdigits j) hlist
  exact String.toList_inj.mp (reverse_inj.mp hrest)

end Keys

section Walk
variable {points : List Point} {start n : ℕ}

theorem ownersLoop_eq {fuel i : ℕ} {seen : Finset String} {owners : List String}
    (hn : owners.length ≤ n) (hi : i + fuel = points.length)
    (hseen : seen = owners.toFinset) :
    ownersLoop points start n fuel i seen owners =
      (owners ++ ((((points.rotate start).drop i).map (·.nodeID)).filter
        (fun id => decide (id ∉ owners))).eraseDups).take n := by
  induction fuel generalizing i seen owners with
  | zero =>
    have hnil : (points.rotate start).drop i = [] := by
      apply drop_eq_nil_of_le
      rw [length_rotate]
      omega
    simp [ownersLoop, hnil, take_of_length_le hn]
  | succ fuel ih =>
    have hlt : i < (points.rotate start).length := by
      rw [length_rotate]
      omega
    have hpoint : points.getD ((start + i) % points.length) default = (points.rotate start)[i] := by
      have hmod : (i + start) % points.length < points.length := mod_lt _ (by omega)
      rw [getElem_rotate, add_comm, getD_eq_getElem?_getD,
        getElem?_eq_getElem hmod, Option.getD_some]
    rw [drop_eq_getElem_cons hlt, map_cons]
    simp only [ownersLoop, hpoint]
    generalize (points.rotate start)[i].nodeID = id
    by_cases hfull : owners.length < n
    · rw [if_pos hfull]
      by_cases hid : id ∈ owners
      · rw [if_pos (by simpa [hseen] using hid), filter_cons_of_neg (by simpa using hid)]
        exact ih hn (by omega) hseen
      · rw [if_neg (by simpa [hseen] using hid), filter_cons_of_pos (by simpa using hid),
          eraseDups_cons, ih (by simp; omega) (by omega) (by simp [hseen]), append_assoc,
          singleton_append, filter_filter]
        congr 4
        apply filter_congr
        intro b _
        by_cases hb : b = id
        · simp [hb]
        · simp [hb]
    · rw [if_neg hfull, take_append_of_le_length (by omega), take_of_length_le hn]

end Walk

namespace Ring
variable (hash : String → UInt64) {nodeID : String}

structure Sound (r : Ring) : Prop where
  sorted : r.points.Pairwise fun p q => p.hash.toNat ≤ q.hash.toNat
  count (p : Point) : r.points.count p =
    if p.nodeID ∈ r.nodeSet then (r.virtualPoints hash p.nodeID).count p else 0
  virtualNodes_pos : 0 < r.virtualNodes

/-- The nodes met by a walk from the shard's hash, each time one is met. -/
def walk (r : Ring) (shardID : ℤ) : List String :=
  (r.points.filter (ahead hash shardID) ++ r.points.filter fun p => !ahead hash shardID p).map
    (·.nodeID)

def order (r : Ring) (shardID : ℤ) : List String := (r.walk hash shardID).eraseDups

variable {hash} {r : Ring}

theorem mem_virtualPoints {p : Point} : p ∈ r.virtualPoints hash nodeID ↔
      ∃ i < r.virtualNodes, p = ⟨hash (nodeKey nodeID i), nodeID⟩ := by
  simp only [virtualPoints, mem_map, mem_range]
  constructor
  · rintro ⟨i, hi, rfl⟩
    exact ⟨i, hi, rfl⟩
  · rintro ⟨i, hi, rfl⟩
    exact ⟨i, hi, rfl⟩

theorem count_virtualPoints_of_ne {p : Point} (hne : p.nodeID ≠ nodeID) :
    (r.virtualPoints hash nodeID).count p = 0 := by
  refine count_eq_zero.mpr fun hmem => ?_
  obtain ⟨i, -, rfl⟩ := mem_virtualPoints.mp hmem
  exact hne rfl

theorem new_sound (numShards virtualNodes : ℤ) : (new numShards virtualNodes).Sound hash := by
  refine ⟨List.Pairwise.nil, fun p => by simp [new], ?_⟩
  simp only [new]
  split <;> omega

theorem Sound.addNode (hr : r.Sound hash) (sort : PointSort) (nodeID : String) :
    (r.addNode hash sort nodeID).Sound hash := by
  simp only [Ring.addNode]
  split
  · exact hr
  · next hnew =>
    refine ⟨sort.sorted _, fun p => ?_, hr.virtualNodes_pos⟩
    have hsame : ∀ id, ({ r with
        nodeSet := insert nodeID r.nodeSet
        points := sort.sort (r.points ++ r.virtualPoints hash nodeID) } : Ring).virtualPoints hash
          id = r.virtualPoints hash id := fun _ => rfl
    rw [(sort.perm _).count_eq, count_append, hr.count, hsame]
    by_cases hid : p.nodeID = nodeID
    · simp [hid, hnew]
    · simp [hid, count_virtualPoints_of_ne hid]

theorem Sound.removeNode (hr : r.Sound hash) (nodeID : String) : (r.removeNode nodeID).Sound hash := by
  simp only [Ring.removeNode]
  split
  · exact hr
  · refine ⟨hr.sorted.filter _, fun p => ?_, hr.virtualNodes_pos⟩
    by_cases hid : p.nodeID = nodeID
    · rw [count_eq_zero.mpr (by simp [hid])]
      simp [hid]
    · rw [count_filter (by simp [hid]), hr.count]
      simp [hid, virtualPoints]

theorem Sound.run (hr : r.Sound hash) (ops : List Op) : (HashRing.run hash r ops).Sound hash := by
  induction ops generalizing r with
  | nil => exact hr
  | cons op ops ih =>
    cases op with
    | addNode sort nodeID => exact ih (hr.addNode sort nodeID)
    | removeNode nodeID => exact ih (hr.removeNode nodeID)

theorem nodeSet_addNode (sort : PointSort) (nodeID : String) :
    (r.addNode hash sort nodeID).nodeSet = insert nodeID r.nodeSet := by
  rw [addNode]
  split
  · next hmem => rw [Finset.insert_eq_of_mem hmem]
  · rfl

section
variable (hr : r.Sound hash) (shardID : ℤ)
include hr

theorem Sound.mem_points {p : Point} :
    p ∈ r.points ↔ p.nodeID ∈ r.nodeSet ∧ p ∈ r.virtualPoints hash p.nodeID := by
  rw [← count_pos_iff, hr.count]
  by_cases hid : p.nodeID ∈ r.nodeSet
  · simp [hid, count_pos_iff]
  · simp [hid]

theorem Sound.mem_names : nodeID ∈ r.points.map (·.nodeID) ↔ nodeID ∈ r.nodeSet := by
  rw [mem_map]
  constructor
  · rintro ⟨p, hp, rfl⟩
    exact (hr.mem_points.mp hp).1
  · intro hid
    have hp : (⟨hash (nodeKey nodeID 0), nodeID⟩ : Point) ∈ r.virtualPoints hash nodeID :=
      mem_virtualPoints.mpr ⟨0, hr.virtualNodes_pos, rfl⟩
    exact ⟨_, hr.mem_points.mpr ⟨hid, hp⟩, rfl⟩

theorem Sound.ahead_mono :
    r.points.Pairwise fun p q => ahead hash shardID p → ahead hash shardID q := by
  refine hr.sorted.imp fun {p q} hpq hp => ?_
  simp only [ahead, decide_eq_true_eq, UInt64.le_iff_toNat_le] at hp ⊢
  exact hp.trans hpq

theorem Sound.walk_eq :
    (r.points.rotate (startFor (ahead hash shardID) r.points)).map (·.nodeID) = r.walk hash shardID := by
  rw [rotate_startFor (hr.ahead_mono shardID), walk]

theorem Sound.mem_order {shardID : ℤ} : nodeID ∈ r.order hash shardID ↔ nodeID ∈ r.nodeSet := by
  rw [order, mem_eraseDups, ← hr.walk_eq, ← hr.mem_names, mem_map, mem_map]
  simp only [mem_rotate]

theorem Sound.length_order : (r.order hash shardID).length = r.nodeSet.card := by
  rw [order, ← toFinset_card_of_nodup (nodup_eraseDups _)]
  congr 1
  ext nodeID
  rw [mem_toFinset]
  exact hr.mem_order

theorem Sound.ownersOf_eq (shardID n : ℤ) : r.ownersOf hash shardID n =
      if r.points.length = 0 then .error .noNodes
      else .ok ((r.order hash shardID).take n.toNat) := by
  simp only [ownersOf]
  split
  · rfl
  · by_cases hn : n ≤ 0
    · simp [hn, Int.toNat_eq_zero.mpr hn]
    · have hloop (limit : ℕ) : ownersLoop r.points (startFor (ahead hash shardID) r.points) limit
          r.points.length 0 ∅ [] = (r.order hash shardID).take limit := by
        have hnone : (∅ : Finset String) = ([] : List String).toFinset := rfl
        rw [ownersLoop_eq (zero_le _) (zero_add _) hnone, drop_zero, hr.walk_eq,
          nil_append, filter_eq_self.mpr (by simp), order]
      rw [if_neg hn, hloop]
      have hlen := hr.length_order shardID
      split
      · rw [← hlen, take_length, take_of_length_le (by omega)]
      · rfl

theorem Sound.ownerOf_eq : r.ownerOf hash shardID = match r.order hash shardID with
      | [] => .error .noNodes
      | owner :: _ => .ok owner := by
  have hwalk := hr.walk_eq shardID
  simp only [ownerOf]
  split
  · next hnil =>
    rw [length_eq_zero_iff.mp hnil, rotate_nil, map_nil] at hwalk
    simp [order, ← hwalk]
  · next hne =>
    have hstart := startFor_lt (hr.ahead_mono shardID) hne
    rw [rotate_eq_drop_append_take hstart.le, drop_eq_getElem_cons hstart,
      cons_append, map_cons] at hwalk
    rw [order, ← hwalk, eraseDups_cons, getD_eq_getElem?_getD,
      getElem?_eq_getElem hstart, Option.getD_some]

end

variable (hash) in
/-- The hash tells the virtual nodes of these nodes apart. -/
def Distinct (virtualNodes : ℕ) (nodes : Finset String) : Prop :=
  ∀ a ∈ nodes, ∀ b ∈ nodes, ∀ i < virtualNodes, ∀ j < virtualNodes,
    hash (nodeKey a i) = hash (nodeKey b j) → nodeKey a i = nodeKey b j

instance (virtualNodes : ℕ) (nodes : Finset String) : Decidable (Distinct hash virtualNodes nodes) :=
  inferInstanceAs (Decidable (∀ a ∈ nodes, ∀ b ∈ nodes, ∀ i < virtualNodes, ∀ j < virtualNodes,
    hash (nodeKey a i) = hash (nodeKey b j) → nodeKey a i = nodeKey b j))

theorem Sound.eq_of_hash_eq (hr : r.Sound hash)
    (hdistinct : Distinct hash r.virtualNodes r.nodeSet) {p q : Point} (hp : p ∈ r.points)
    (hq : q ∈ r.points) (heq : p.hash.toNat = q.hash.toNat) : p = q := by
  obtain ⟨hpid, hp⟩ := hr.mem_points.mp hp
  obtain ⟨hqid, hq⟩ := hr.mem_points.mp hq
  obtain ⟨i, hi, hpi⟩ := mem_virtualPoints.mp hp
  obtain ⟨j, hj, hqj⟩ := mem_virtualPoints.mp hq
  have hhash : p.hash = q.hash := UInt64.toNat_inj.mp heq
  have hph : p.hash = hash (nodeKey p.nodeID i) := congrArg Point.hash hpi
  have hqh : q.hash = hash (nodeKey q.nodeID j) := congrArg Point.hash hqj
  have hid := nodeKey_inj (hdistinct _ hpid _ hqid i hi j hj (by rw [← hph, ← hqh, hhash]))
  cases p
  cases q
  simp_all

theorem Sound.points_eq {r' : Ring} (hr : r.Sound hash) (hr' : r'.Sound hash)
    (hdistinct : Distinct hash r.virtualNodes r.nodeSet)
    (hvirtual : r'.virtualNodes = r.virtualNodes) (hnodes : r'.nodeSet = r.nodeSet) :
    r'.points = r.points := by
  have hperm : r.points.Perm r'.points := by
    rw [perm_iff_count]
    intro p
    rw [hr.count, hr'.count, hnodes]
    simp only [virtualPoints, hvirtual]
  have hkey : ∀ p ∈ r.points, ∀ q ∈ r.points, p.hash.toNat = q.hash.toNat → p = q :=
    fun p hp q hq => hr.eq_of_hash_eq hdistinct hp hq
  exact (eq_of_perm_of_sorted hkey hperm hr.sorted hr'.sorted).symm

end Ring

section Run
variable {hash : String → UInt64}

variable (hash) in
theorem run_config (r : Ring) (ops : List Op) :
    (run hash r ops).virtualNodes = r.virtualNodes ∧ (run hash r ops).numShards = r.numShards := by
  induction ops generalizing r with
  | nil => exact ⟨rfl, rfl⟩
  | cons op ops ih =>
    have hstep : (op.apply hash r).virtualNodes = r.virtualNodes ∧
        (op.apply hash r).numShards = r.numShards := by
      cases op with
      | addNode | removeNode =>
        simp only [Op.apply, Ring.addNode, Ring.removeNode]
        split <;> exact ⟨rfl, rfl⟩
    exact ⟨(ih _).1.trans hstep.1, (ih _).2.trans hstep.2⟩

theorem run_eq_of_nodeSet_eq (numShards virtualNodes : ℤ) (ops ops' : List Op)
    (hnodes : (run hash (new numShards virtualNodes) ops').nodeSet =
      (run hash (new numShards virtualNodes) ops).nodeSet)
    (hdistinct : Ring.Distinct hash (new numShards virtualNodes).virtualNodes
      (run hash (new numShards virtualNodes) ops).nodeSet) :
    run hash (new numShards virtualNodes) ops' = run hash (new numShards virtualNodes) ops := by
  have hnew : (new numShards virtualNodes).Sound hash := Ring.new_sound numShards virtualNodes
  obtain ⟨hvirtual, hshards⟩ := run_config hash (new numShards virtualNodes) ops
  obtain ⟨hvirtual', hshards'⟩ := run_config hash (new numShards virtualNodes) ops'
  have hpoints := (hnew.run ops).points_eq (hnew.run ops') (hvirtual ▸ hdistinct)
    (hvirtual'.trans hvirtual.symm) hnodes
  cases h : run hash (new numShards virtualNodes) ops
  cases h' : run hash (new numShards virtualNodes) ops'
  simp_all

/-- Every machine that knows the same nodes computes the same owners, in whatever order it came to
know them and however its sorts break ties along the way. -/
theorem owners_depend_only_on_nodes (numShards virtualNodes : ℤ) (ops ops' : List Op)
    (hnodes : (run hash (new numShards virtualNodes) ops').nodeSet =
      (run hash (new numShards virtualNodes) ops).nodeSet)
    (hdistinct : Ring.Distinct hash (new numShards virtualNodes).virtualNodes
      (run hash (new numShards virtualNodes) ops).nodeSet) :
    let r := run hash (new numShards virtualNodes) ops
    let r' := run hash (new numShards virtualNodes) ops'
    (∀ shardID, r'.ownerOf hash shardID = r.ownerOf hash shardID) ∧
      (∀ shardID n, r'.ownersOf hash shardID n = r.ownersOf hash shardID n) ∧
      r'.assignment hash = r.assignment hash := by
  have heq := run_eq_of_nodeSet_eq numShards virtualNodes ops ops' hnodes hdistinct
  simp [heq]

theorem owners_of_two_histories : let sort : PointSort := KeySort.merge _
    let r := run hashKey (new 4 2) [.addNode sort "a", .addNode sort "b"]
    let r' := run hashKey (new 4 2)
      [.addNode sort "c", .addNode sort "b", .removeNode "c", .addNode sort "a"]
    r'.assignment hashKey = r.assignment hashKey := by
  intro sort r r'
  exact (owners_depend_only_on_nodes 4 2 [.addNode sort "a", .addNode sort "b"]
    [.addNode sort "c", .addNode sort "b", .removeNode "c", .addNode sort "a"]
    (by decide +kernel) (by decide +kernel)).2.2

end Run

section Placement
variable {hash : String → UInt64} {r : Ring}

variable (hash) in
def clockwise (shardID : ℤ) (h : UInt64) : ℕ := (h - hash (shardKey shardID)).toNat

variable (hash) in
/-- Clockwise from the shard's hash, the first virtual point of `a` is not after that of `b`. -/
def MetFirst (virtualNodes : ℕ) (shardID : ℤ) (a b : String) : Prop :=
  ∃ i < virtualNodes, ∀ j < virtualNodes,
    clockwise hash shardID (hash (nodeKey a i)) ≤ clockwise hash shardID (hash (nodeKey b j))

theorem toNat_clockwise (shardID : ℤ) (p : Point) : clockwise hash shardID p.hash =
      if Ring.ahead hash shardID p then p.hash.toNat - (hash (shardKey shardID)).toNat
      else p.hash.toNat + 2 ^ 64 - (hash (shardKey shardID)).toNat := by
  have hp := p.hash.toNat_lt
  have hs := (hash (shardKey shardID)).toNat_lt
  simp only [clockwise, Ring.ahead, decide_eq_true_eq, UInt64.le_iff_toNat_le, UInt64.toNat_sub]
  split <;> omega

theorem Ring.Sound.walk_sorted (hr : r.Sound hash) (shardID : ℤ) :
    (r.points.filter (ahead hash shardID) ++ r.points.filter fun p => !ahead hash shardID p).Pairwise
      fun p q => clockwise hash shardID p.hash ≤ clockwise hash shardID q.hash := by
  refine pairwise_append.mpr ⟨?_, ?_, fun p hp q hq => ?_⟩
  · refine (hr.sorted.filter _).imp_of_mem fun {p q} hp hq hle => ?_
    have hp' := (mem_filter.mp hp).2
    have hq' := (mem_filter.mp hq).2
    rw [toNat_clockwise, toNat_clockwise, if_pos hp', if_pos hq']
    omega
  · refine (hr.sorted.filter _).imp_of_mem fun {p q} hp hq hle => ?_
    have hp' : ¬ ahead hash shardID p = true := by simpa using (mem_filter.mp hp).2
    have hq' : ¬ ahead hash shardID q = true := by simpa using (mem_filter.mp hq).2
    rw [toNat_clockwise, toNat_clockwise, if_neg hp', if_neg hq']
    omega
  · have hp' := (mem_filter.mp hp).2
    have hq' : ¬ ahead hash shardID q = true := by simpa using (mem_filter.mp hq).2
    have hlt := p.hash.toNat_lt
    rw [toNat_clockwise, toNat_clockwise, if_pos hp', if_neg hq']
    omega

theorem Ring.Sound.order_metFirst (hr : r.Sound hash) (shardID : ℤ) :
    (r.order hash shardID).Pairwise (MetFirst hash r.virtualNodes shardID) := by
  refine (pairwise_eraseDups_map Point.nodeID (fun p : Point => clockwise hash shardID p.hash)
    (hr.walk_sorted shardID)).imp_of_mem fun {a b} _ hb hab => ?_
  obtain ⟨p, hp, rfl, hle⟩ := hab
  have hpoints : ∀ q : Point, q ∈ (r.points.filter (ahead hash shardID) ++
      r.points.filter fun p => !ahead hash shardID p) ↔ q ∈ r.points := by
    intro q
    rw [mem_append, mem_filter, mem_filter]
    cases ahead hash shardID q <;> simp
  obtain ⟨i, hi, heq⟩ := mem_virtualPoints.mp (hr.mem_points.mp ((hpoints p).mp hp)).2
  refine ⟨i, hi, fun j hj => ?_⟩
  have hq : (⟨hash (nodeKey b j), b⟩ : Point) ∈ r.points :=
    hr.mem_points.mpr ⟨hr.mem_order.mp hb, mem_virtualPoints.mpr ⟨j, hj, rfl⟩⟩
  have hdist := hle _ ((hpoints _).mpr hq) rfl
  rwa [show p.hash = hash (nodeKey p.nodeID i) from congrArg Point.hash heq] at hdist

/-- The owners of a shard are the first nodes that a walk from its hash meets, as many as were asked
for or as there are. -/
theorem replica_placement (hash : String → UInt64) (numShards virtualNodes : ℤ) (ops : List Op)
    (hne : (run hash (new numShards virtualNodes) ops).nodeSet.Nonempty) (shardID n : ℤ)
    (hn : 1 ≤ n) :
    let r := run hash (new numShards virtualNodes) ops
    ∃ first rest more, r.ownersOf hash shardID n = .ok (first :: rest) ∧
      (first :: rest).length = min n.toNat r.nodeSet.card ∧
      (first :: rest).Nodup ∧ (∀ id ∈ first :: rest, id ∈ r.nodeSet) ∧
      r.ownerOf hash shardID = .ok first ∧
      r.ownersOf hash shardID (n + 1) = .ok more ∧ (first :: rest) <+: more ∧
      (first :: rest).Pairwise (MetFirst hash r.virtualNodes shardID) ∧
      ∀ a ∈ first :: rest, ∀ b ∈ r.nodeSet, b ∉ first :: rest →
        MetFirst hash r.virtualNodes shardID a b := by
  intro r
  have hr : r.Sound hash := (Ring.new_sound numShards virtualNodes).run ops
  have hlen := hr.length_order shardID
  have hpoints : ¬ r.points.length = 0 := by
    intro hnil
    obtain ⟨id, hid⟩ := hne
    have hmem := hr.mem_names.mpr hid
    rw [length_eq_zero_iff.mp hnil] at hmem
    cases hmem
  have howner := hr.ownerOf_eq shardID
  have hsorted := hr.order_metFirst shardID
  have hnodup : (r.order hash shardID).Nodup := nodup_eraseDups _
  have hmem : ∀ {id}, id ∈ r.order hash shardID ↔ id ∈ r.nodeSet := hr.mem_order
  rw [hr.ownersOf_eq, if_neg hpoints, hr.ownersOf_eq, if_neg hpoints]
  cases horder : r.order hash shardID with
  | nil =>
    have hcard : 0 < r.nodeSet.card := Finset.card_pos.mpr hne
    rw [horder, length_nil] at hlen
    omega
  | cons first rest =>
    obtain ⟨k, hk⟩ : ∃ k, n.toNat = k + 1 := ⟨n.toNat - 1, by omega⟩
    have hk' : (n + 1).toNat = k + 1 + 1 := by omega
    have hsplit := take_append_drop (k + 1) (first :: rest)
    rw [take_succ_cons] at hsplit
    rw [horder] at hlen howner hsorted hnodup hmem
    rw [hk, hk', take_succ_cons, take_succ_cons]
    rw [← hsplit] at hsorted hnodup
    refine ⟨first, rest.take k, first :: rest.take (k + 1), rfl, ?_, ?_, fun id hid => ?_, howner, rfl,
      ?_, ?_, fun a ha b hb hnot => ?_⟩
    · rw [length_cons, length_take, ← hlen, length_cons]
      omega
    · exact (nodup_append.mp hnodup).1
    · exact hmem.mp ((cons_subset_cons _ (take_subset k rest)) hid)
    · exact ⟨(rest.drop k).take 1, by rw [cons_append, take_add]⟩
    · exact (pairwise_append.mp hsorted).1
    · have hin := hmem.mpr hb
      rw [← hsplit, mem_append] at hin
      exact (pairwise_append.mp hsorted).2.2 a ha b (hin.resolve_left hnot)

theorem placement_of_two : ∃ first rest, (run hashKey (new 4 2) [.addNode (KeySort.merge _) "a",
        .addNode (KeySort.merge _) "b"]).ownersOf hashKey 0 2 = .ok (first :: rest) ∧
      (first :: rest).length = 2 := by
  obtain ⟨first, rest, -, howners, hlen, -⟩ := replica_placement hashKey 4 2
    [.addNode (KeySort.merge _) "a", .addNode (KeySort.merge _) "b"] ⟨"a", by decide +kernel⟩ 0 2
    (by decide)
  refine ⟨first, rest, howners, hlen.trans ?_⟩
  decide +kernel

end Placement

end NuclaDB.HashRing
