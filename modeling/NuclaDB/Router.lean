import NuclaDB.BatchOrder
import NuclaDB.Gather
import NuclaDB.Topology

/-!
# The router

`Insert`, `InsertBatch` and `Delete` go to the node that owns the shard of an id. A node holds
its vectors in one map, whatever shards they belong to: the map of the router's tenant in its
server (`Serves`).
-/

namespace NuclaDB.Routing

open LittleEndian Hnsw Strconv NuclaDB.Topology SortedSlice KeyedLog Api Function List

section Hash

def fnvOffset : UInt64 := 14695981039346656037

def fnvPrime : UInt64 := 1099511628211

def sum64a (data : Bytes) : UInt64 :=
  data.foldl (fun h b => (h ^^^ b.toUInt64) * fnvPrime) fnvOffset

def bigEndian (id : UInt64) : Bytes := (leBytes 8 id.toNat).reverse

def shardFor (id : UInt64) (numShards : ℤ) : ℤ :=
  if numShards ≤ 0 then 0 else (sum64a (bigEndian id)).toNat % numShards

theorem shardFor_range {numShards : ℤ} (h : 0 < numShards) (id : UInt64) :
    0 ≤ shardFor id numShards ∧ shardFor id numShards < numShards := by
  rw [shardFor, if_neg (not_le.mpr h)]
  exact ⟨Int.emod_nonneg _ h.ne', Int.emod_lt_of_pos _ h⟩

end Hash

structure ShardResolver where
  numShards : ℤ
  shardOwner : ℤ → Except OwnerError (String × String)

def ShardResolver.ofCluster (hash : String → UInt64) (state : State) (c : Cluster) : ShardResolver :=
  ⟨c.numShards, c.shardOwner hash state⟩

structure Router where
  resolver : ShardResolver
  tenantID : String
  closed : Bool

inductive CallError
  | invalidShardCount (n : ℤ)
  | resolve (shard : ℤ) (e : OwnerError)
  | closed
  | dial (addr : String) (e : Status)
  | call (e : Status)

structure Item where
  id : UInt64
  vector : Vec
  metadata : Meta

abbrev Node := Std.ExtTreeMap UInt64 (Vec × Meta) compare

namespace Node

def upsert (n : Node) (v : Pb.Vector) : Except Status Node := do
  let id ← parseID v.id
  .ok (n.insert id (v.values, v.metadata))

def batchUpsert (n : Node) (vs : List Pb.Vector) : Except Status Node := vs.foldlM upsert n

def delete (n : Node) (id : String) : Except Status Node := do
  let id ← parseID id
  .ok (n.erase id)

end Node

abbrev Nodes := String → Node

namespace Router

variable (r : Router)

def clientFor (dial : String → Option Status) (addr : String) : Except CallError String :=
  if r.closed then .error .closed
  else
    match dial addr with
    | some e => .error (.dial addr e)
    | none => .ok addr

def ownerClient (dial : String → Option Status) (shard : ℤ) : Except CallError String :=
  match r.resolver.shardOwner shard with
  | .error e => .error (.resolve shard e)
  | .ok (_, addr) => r.clientFor dial addr

def send (nodes : Nodes) (shard : ℤ) (call : Node → Except Status Node) : Except CallError Nodes := do
  let addr ← r.ownerClient (fun _ => none) shard
  match call (nodes addr) with
  | .error e => .error (.call e)
  | .ok n => .ok (update nodes addr n)

def message (it : Item) : Pb.Vector := ⟨formatUint it.id, it.vector, it.metadata, r.tenantID⟩

def shardOf (id : UInt64) : ℤ := shardFor id r.resolver.numShards

def insert (it : Item) (nodes : Nodes) : Except CallError Nodes :=
  if r.resolver.numShards ≤ 0 then .error (.invalidShardCount r.resolver.numShards)
  else r.send nodes (r.shardOf it.id) fun n => n.upsert (r.message it)

def delete (id : UInt64) (nodes : Nodes) : Except CallError Nodes :=
  if r.resolver.numShards ≤ 0 then .error (.invalidShardCount r.resolver.numShards)
  else r.send nodes (r.shardOf id) fun n => n.delete (formatUint id)

def addItem (byShard : Std.ExtTreeMap ℤ (List Pb.Vector) compare) (it : Item) :
    Std.ExtTreeMap ℤ (List Pb.Vector) compare :=
  byShard.insert (r.shardOf it.id) (byShard.getD (r.shardOf it.id) [] ++ [r.message it])

/-- The batches of the shards, in the order in which they get through, and the first error. -/
def sendAll (r : Router) (nodes : Nodes) : List (ℤ × List Pb.Vector) → Nodes × Option (ℤ × CallError)
  | [] => (nodes, none)
  | (shard, vecs) :: rest =>
    match r.send nodes shard fun n => n.batchUpsert vecs with
    | .ok nodes => r.sendAll nodes rest
    | .error e => ((r.sendAll nodes rest).1, some (shard, e))

def insertBatch (visit : MapOrder (ℤ × List Pb.Vector)) (items : List Item) (nodes : Nodes) :
    Nodes × Option (ℤ × CallError) :=
  if r.resolver.numShards ≤ 0 then (nodes, some (0, .invalidShardCount r.resolver.numShards))
  else r.sendAll nodes (visit.list (items.foldl r.addItem ∅).toList)

end Router

inductive Op
  | insert (it : Item)
  | insertBatch (visit : MapOrder (ℤ × List Pb.Vector)) (items : List Item)
  | delete (id : UInt64)

namespace Op

def step (r : Router) (nodes : Nodes) : Op → Option Nodes
  | .insert it => (r.insert it nodes).toOption
  | .insertBatch visit items =>
    match r.insertBatch visit items nodes with
    | (nodes, none) => some nodes
    | (_, some _) => none
  | .delete id => (r.delete id nodes).toOption

def put (stored : Node) (it : Item) : Node := stored.insert it.id (it.vector, it.metadata)

def store (stored : Node) : Op → Node
  | .insert it => put stored it
  | .insertBatch _ items => items.foldl put stored
  | .delete id => stored.erase id

end Op

def run (r : Router) (ops : List Op) : Option Nodes := ops.foldlM (Op.step r) fun _ => ∅

def storedBy (ops : List Op) : Node := ops.foldl Op.store ∅

section Owners
variable {r : Router} {nodes nodes' : Nodes} {stored : Node} {addr : String} {shard : ℤ}
variable {items : List Item}

def Router.ownerOf (r : Router) (shard : ℤ) : Option String :=
  (r.resolver.shardOwner shard).toOption.map Prod.snd

/-- Every node holds what is stored of the shards that it owns, and nothing else. -/
def Routed (r : Router) (nodes : Nodes) (stored : Node) : Prop :=
  ∀ addr id, (nodes addr)[id]? = if r.ownerOf (r.shardOf id) = some addr then stored[id]? else none

theorem ownerOf_of_ownerClient {dial : String → Option Status} (h : r.ownerClient dial shard = .ok addr) :
    r.ownerOf shard = some addr := by
  unfold Router.ownerClient Router.clientFor at h
  unfold Router.ownerOf
  cases howner : r.resolver.shardOwner shard with
  | error e =>
    rw [howner] at h
    cases h
  | ok p =>
    rw [howner] at h
    dsimp only at h
    split_ifs at h
    split at h
    · cases h
    · cases h
      rfl

theorem send_ok {call : Node → Except Status Node} (h : r.send nodes shard call = .ok nodes') :
    ∃ addr n, r.ownerOf shard = some addr ∧ call (nodes addr) = .ok n ∧
      update nodes addr n = nodes' := by
  unfold Router.send at h
  cases hclient : r.ownerClient (fun _ => none) shard with
  | error e =>
    rw [hclient] at h
    cases h
  | ok addr =>
    rw [hclient] at h
    cases hcall : call (nodes addr) with
    | error e =>
      simp only [bind, Except.bind, hcall] at h
      cases h
    | ok n =>
      simp only [bind, Except.bind, hcall] at h
      exact ⟨addr, n, ownerOf_of_ownerClient hclient, hcall, Except.ok.inj h⟩

theorem Routed.change (h : Routed r nodes stored) {id : UInt64} {n stored' : Node}
    (howner : r.ownerOf (r.shardOf id) = some addr)
    (hn : ∀ id', n[id']? = if id' = id then stored'[id]? else (nodes addr)[id']?)
    (hstored : ∀ id', id' ≠ id → stored'[id']? = stored[id']?) :
    Routed r (update nodes addr n) stored' := by
  intro addr' id'
  by_cases hid : id' = id
  · subst hid
    by_cases haddr : addr' = addr
    · subst haddr
      rw [update_self, hn, if_pos rfl, if_pos howner]
    · have hne : r.ownerOf (r.shardOf id') ≠ some addr' := by
        rw [howner]
        exact fun heq => haddr (Option.some.inj heq).symm
      rw [update_of_ne haddr, h, if_neg hne, if_neg hne]
  · rw [hstored id' hid, ← h addr' id']
    by_cases haddr : addr' = addr
    · subst haddr
      rw [update_self, hn, if_neg hid]
    · rw [update_of_ne haddr]

theorem upsert_message (n : Node) (it : Item) : n.upsert (r.message it) = .ok (Op.put n it) := by
  simp only [Node.upsert, Router.message, parseID, parseUint_formatUint]
  rfl

theorem batchUpsert_messages (n : Node) (items : List Item) :
    n.batchUpsert (items.map r.message) = .ok (items.foldl Op.put n) := by
  induction items generalizing n with
  | nil => rfl
  | cons it items ih =>
    simp only [Node.batchUpsert, map_cons, foldlM_cons, upsert_message] at ih ⊢
    exact ih _

theorem delete_formatUint (n : Node) (id : UInt64) : n.delete (formatUint id) = .ok (n.erase id) := by
  simp only [Node.delete, parseID, parseUint_formatUint]
  rfl

theorem getElem?_put (n : Node) (it : Item) (id : UInt64) :
    (Op.put n it)[id]? = if id = it.id then some (it.vector, it.metadata) else n[id]? := by
  rw [Op.put, Std.ExtTreeMap.getElem?_insert]
  by_cases hid : id = it.id
  · simp [hid]
  · simp [hid, Ne.symm hid]

theorem getElem?_foldl_put (stored : Node) (items : List Item) (id : UInt64) :
    (items.foldl Op.put stored)[id]? =
      ((lastAt Item.id id items).map fun it => (it.vector, it.metadata)).or stored[id]? := by
  induction items using List.reverseRecOn with
  | nil => rfl
  | append_singleton items it ih =>
    rw [foldl_append, foldl_cons, foldl_nil, getElem?_put, lastAt_append, ih]
    by_cases hid : id = it.id
    · simp [lastAt, hid]
    · simp [lastAt, hid, Ne.symm hid]

/-- The items have been stored, each at the owner of its shard, and nothing else has changed. -/
def Placed (r : Router) (nodes : Nodes) (items : List Item) (nodes' : Nodes) : Prop :=
  ∀ addr id, (nodes' addr)[id]? = if r.ownerOf (r.shardOf id) = some addr
    then (items.foldl Op.put (nodes addr))[id]? else (nodes addr)[id]?

theorem placed_nil (r : Router) (nodes : Nodes) : Placed r nodes [] nodes := by
  intro addr id
  simp

theorem Placed.append {nodes₁ : Nodes} {more : List Item} (h : Placed r nodes items nodes₁)
    (h' : Placed r nodes₁ more nodes') : Placed r nodes (items ++ more) nodes' := by
  intro addr id
  rw [h', foldl_append, getElem?_foldl_put, getElem?_foldl_put (items.foldl Op.put (nodes addr)), h]
  by_cases howner : r.ownerOf (r.shardOf id) = some addr
  · rw [if_pos howner, if_pos howner, if_pos howner]
  · rw [if_neg howner, if_neg howner, if_neg howner]

theorem placed_update
    (howner : ∀ it ∈ items, r.ownerOf (r.shardOf it.id) = some addr) (nodes : Nodes) :
    Placed r nodes items (update nodes addr (items.foldl Op.put (nodes addr))) := by
  have hother : ∀ addr' id, ¬ (addr' = addr ∧ r.ownerOf (r.shardOf id) = some addr) →
      r.ownerOf (r.shardOf id) = some addr' ∨ addr' = addr → lastAt Item.id id items = none := by
    intro addr' id hnot howns
    refine lastAt_eq_none.mpr fun it hit hid => ?_
    have hat := howner it hit
    rw [hid] at hat
    rcases howns with howns | rfl
    · exact hnot ⟨Option.some.inj (howns.symm.trans hat), hat⟩
    · exact hnot ⟨rfl, hat⟩
  intro addr' id
  by_cases hboth : addr' = addr ∧ r.ownerOf (r.shardOf id) = some addr
  · obtain ⟨rfl, hown⟩ := hboth
    rw [update_self, if_pos hown]
  · by_cases haddr : addr' = addr
    · rw [if_neg fun howns => hboth ⟨haddr, haddr ▸ howns⟩, haddr, update_self,
        getElem?_foldl_put, hother addr' id hboth (.inr haddr)]
      rfl
    · rw [update_of_ne haddr]
      split_ifs with howns
      · rw [getElem?_foldl_put, hother addr' id hboth (.inl howns)]
        rfl
      · rfl

theorem placed_insert {it : Item} (hstep : r.insert it nodes = .ok nodes') : Placed r nodes [it] nodes' := by
  unfold Router.insert at hstep
  split_ifs at hstep
  obtain ⟨addr, n, howner, hn, rfl⟩ := send_ok hstep
  rw [upsert_message] at hn
  cases hn
  exact placed_update (forall_mem_singleton.mpr howner) nodes

theorem Placed.unique {nodes₁ : Nodes} (h : Placed r nodes items nodes')
    (h₁ : Placed r nodes items nodes₁) : nodes' = nodes₁ := by
  funext addr
  refine Std.ExtTreeMap.ext_getElem? fun id => ?_
  rw [h, h₁]

theorem Routed.placed (h : Routed r nodes stored) (hplaced : Placed r nodes items nodes') :
    Routed r nodes' (items.foldl Op.put stored) := by
  intro addr id
  rw [hplaced, getElem?_foldl_put, getElem?_foldl_put, h]
  by_cases howner : r.ownerOf (r.shardOf id) = some addr
  · rw [if_pos howner, if_pos howner, if_pos howner]
  · rw [if_neg howner, if_neg howner, if_neg howner]

theorem Routed.insert (h : Routed r nodes stored) {it : Item} (hstep : r.insert it nodes = .ok nodes') :
    Routed r nodes' (Op.put stored it) :=
  h.placed (placed_insert hstep)

theorem Routed.delete (h : Routed r nodes stored) {id : UInt64} (hstep : r.delete id nodes = .ok nodes') :
    Routed r nodes' (stored.erase id) := by
  unfold Router.delete at hstep
  split_ifs at hstep
  obtain ⟨addr, n, howner, hn, rfl⟩ := send_ok hstep
  rw [delete_formatUint] at hn
  cases hn
  refine h.change howner (fun id' => ?_) fun id' hid => ?_
  · by_cases hid : id' = id
    · simp [hid]
    · simp [hid, Ne.symm hid, Std.ExtTreeMap.getElem?_erase]
  · simp [Ne.symm hid, Std.ExtTreeMap.getElem?_erase]

end Owners

section Batches
variable {r : Router} {nodes nodes' : Nodes} {stored : Node} {items : List Item} {id : UInt64}

def ofShard (r : Router) (items : List Item) (shard : ℤ) : List Item :=
  items.filter fun it => r.shardOf it.id = shard

theorem getElem?_byShard (r : Router) (items : List Item) (shard : ℤ) :
    (items.foldl r.addItem ∅)[shard]? =
      if ofShard r items shard = [] then none else some ((ofShard r items shard).map r.message) := by
  induction items using List.reverseRecOn with
  | nil => rfl
  | append_singleton items it ih =>
    rw [foldl_append, foldl_cons, foldl_nil, Router.addItem, ofShard, filter_append,
      Std.ExtTreeMap.getElem?_insert, Std.ExtTreeMap.getD_eq_getD_getElem?]
    by_cases hshard : r.shardOf it.id = shard
    · subst hshard
      rw [ih, ofShard]
      by_cases hnil : (items.filter fun it' => r.shardOf it'.id = r.shardOf it.id) = []
      · simp [hnil]
      · simp [hnil]
    · rw [ofShard] at ih
      simp [hshard, ih]

theorem mem_byShard {e : ℤ × List Pb.Vector} (h : e ∈ (items.foldl r.addItem ∅).toList) :
    e.2 = (ofShard r items e.1).map r.message := by
  have hget : (items.foldl r.addItem ∅)[e.1]? = some e.2 := Std.ExtTreeMap.mem_toList_iff_getElem?_eq_some.mp h
  rw [getElem?_byShard] at hget
  split_ifs at hget
  exact (Option.some.inj hget).symm

theorem placed_sendAll {entries : List (ℤ × List Pb.Vector)}
    (hentries : ∀ e ∈ entries, e.2 = (ofShard r items e.1).map r.message)
    (hstep : r.sendAll nodes entries = (nodes', none)) :
    Placed r nodes (entries.flatMap fun e => ofShard r items e.1) nodes' := by
  induction entries generalizing nodes with
  | nil =>
    cases hstep
    exact placed_nil r _
  | cons e entries ih =>
    obtain ⟨shard, vecs⟩ := e
    obtain ⟨he, hentries⟩ := forall_mem_cons.mp hentries
    dsimp only at he
    simp only [Router.sendAll] at hstep
    split at hstep
    · next nodes₁ hsend =>
      obtain ⟨addr, n, howner, hn, rfl⟩ := send_ok hsend
      rw [he, batchUpsert_messages] at hn
      cases hn
      rw [flatMap_cons]
      refine (placed_update (fun it hit => ?_) nodes).append (ih hentries hstep)
      have hshard : r.shardOf it.id = shard := by simpa using (mem_filter.mp hit).2
      rw [hshard, howner]
    · cases hstep

theorem flatMap_single {α : Type} {shards : List ℤ} (hnodup : shards.Nodup) (shard : ℤ) (xs : List α)
    (h : shard ∉ shards → xs = []) : (shards.flatMap fun s => if s = shard then xs else []) = xs := by
  induction shards with
  | nil => exact (h (by simp)).symm
  | cons s shards ih =>
    obtain ⟨hs, hnodup⟩ := nodup_cons.mp hnodup
    rw [flatMap_cons]
    by_cases heq : s = shard
    · subst heq
      have hrest : (shards.flatMap fun s' => if s' = s then xs else []) = [] := by
        rw [flatMap_eq_nil_iff]
        intro s' hs'
        rw [if_neg]
        rintro rfl
        exact hs hs'
      rw [if_pos rfl, hrest, append_nil]
    · rw [if_neg heq, nil_append]
      exact ih hnodup fun hshard => h (by simp [Ne.symm heq, hshard])

/-- The batches by shard in any order leave what the items leave: all to one id is in one of them. -/
theorem foldl_put_shards {shards : List ℤ} (hnodup : shards.Nodup)
    (hcover : ∀ it ∈ items, r.shardOf it.id ∈ shards) (stored : Node) :
    (shards.flatMap (ofShard r items)).foldl Op.put stored = items.foldl Op.put stored := by
  refine Std.ExtTreeMap.ext_getElem? fun id => ?_
  rw [getElem?_foldl_put, getElem?_foldl_put]
  have hfilter : (shards.flatMap (ofShard r items)).filter (fun it => it.id = id) =
      items.filter fun it => it.id = id := by
    rw [filter_flatMap]
    refine Eq.trans (flatMap_congr fun s _ => ?_) (flatMap_single hnodup (r.shardOf id) _ ?_)
    · rw [ofShard, filter_filter]
      split_ifs with hs
      · refine filter_congr fun it _ => ?_
        by_cases hid : it.id = id
        · simp [hid, hs]
        · simp [hid]
      · rw [filter_eq_nil_iff]
        intro it _ hboth
        simp only [Bool.and_eq_true, decide_eq_true_eq] at hboth
        exact hs (hboth.1 ▸ hboth.2.symm)
    · intro hshard
      rw [filter_eq_nil_iff]
      intro it hit hid
      have hid : it.id = id := by simpa using hid
      exact hshard (hid ▸ hcover it hit)
  rw [lastAt, lastAt, hfilter]

theorem placed_insertBatch {visit : MapOrder (ℤ × List Pb.Vector)}
    (hstep : r.insertBatch visit items nodes = (nodes', none)) : Placed r nodes items nodes' := by
  unfold Router.insertBatch at hstep
  split_ifs at hstep
  · cases hstep
  have hperm := visit.perm (items.foldl r.addItem ∅).toList
  have hplaced := placed_sendAll (fun e he => mem_byShard (hperm.mem_iff.mp he)) hstep
  have hshards : ((visit.list (items.foldl r.addItem ∅).toList).map Prod.fst).Nodup := by
    refine (hperm.map Prod.fst).nodup_iff.mpr ?_
    rw [Std.ExtTreeMap.map_fst_toList_eq_keys]
    exact Std.ExtTreeMap.nodup_keys
  have hcover : ∀ it ∈ items,
      r.shardOf it.id ∈ (visit.list (items.foldl r.addItem ∅).toList).map Prod.fst := by
    intro it hit
    rw [(hperm.map Prod.fst).mem_iff, Std.ExtTreeMap.map_fst_toList_eq_keys, Std.ExtTreeMap.mem_keys,
      Std.ExtTreeMap.mem_iff_isSome_getElem?, getElem?_byShard, if_neg]
    · rfl
    · exact ne_nil_of_mem (mem_filter.mpr ⟨hit, by simp⟩)
  intro addr id
  rw [hplaced, ← flatMap_map, foldl_put_shards hshards hcover]

theorem Routed.insertBatch (h : Routed r nodes stored) {visit : MapOrder (ℤ × List Pb.Vector)}
    (hstep : r.insertBatch visit items nodes = (nodes', none)) :
    Routed r nodes' (items.foldl Op.put stored) :=
  h.placed (placed_insertBatch hstep)

def Router.insertEach (r : Router) (items : List Item) (nodes : Nodes) : Except CallError Nodes :=
  items.foldlM (fun nodes it => r.insert it nodes) nodes

def OnOwners (r : Router) (nodes : Nodes) : Prop :=
  ∀ addr id, id ∈ nodes addr → r.ownerOf (r.shardOf id) = some addr

theorem OnOwners.placed (h : OnOwners r nodes) (hplaced : Placed r nodes items nodes') : OnOwners r nodes' := by
  intro addr id hid
  by_contra hne
  have hat := hplaced addr id
  rw [if_neg hne] at hat
  rw [Std.ExtTreeMap.mem_iff_isSome_getElem?, hat, ← Std.ExtTreeMap.mem_iff_isSome_getElem?] at hid
  exact hne (h addr id hid)

theorem OnOwners.delete (h : OnOwners r nodes) (hstep : r.delete id nodes = .ok nodes') (addr : String) :
    id ∉ nodes' addr := by
  unfold Router.delete at hstep
  split_ifs at hstep
  obtain ⟨owner, n, howner, hn, rfl⟩ := send_ok hstep
  rw [delete_formatUint] at hn
  cases hn
  by_cases haddr : addr = owner
  · simp [haddr]
  · rw [update_of_ne haddr]
    exact fun hid => haddr (Option.some.inj ((h addr id hid).symm.trans howner))

end Batches

section Runs
variable {r : Router} {nodes nodes' : Nodes} {stored : Node}

theorem eq_ok_of_toOption {x : Except CallError Nodes} (h : x.toOption = some nodes) : x = .ok nodes := by
  cases x with
  | error e => cases h
  | ok n => exact congrArg Except.ok (Option.some.inj h)

theorem Routed.step (h : Routed r nodes stored) {op : Op} (hstep : op.step r nodes = some nodes') :
    Routed r nodes' (op.store stored) := by
  cases op with
  | insert it => exact h.insert (eq_ok_of_toOption hstep)
  | insertBatch visit items =>
    simp only [Op.step] at hstep
    split at hstep
    · next nodes₁ hbatch =>
      cases hstep
      exact h.insertBatch hbatch
    · cases hstep
  | delete id => exact h.delete (eq_ok_of_toOption hstep)

theorem routed_of_run {ops : List Op} (hrun : run r ops = some nodes) : Routed r nodes (storedBy ops) := by
  have hempty : Routed r (fun _ => ∅) ∅ := by
    intro addr id
    simp
  suffices hgen : ∀ (nodes₀ : Nodes) stored, Routed r nodes₀ stored →
      ops.foldlM (Op.step r) nodes₀ = some nodes → Routed r nodes (ops.foldl Op.store stored) from
    hgen _ _ hempty hrun
  clear hrun hempty
  induction ops with
  | nil =>
    intro nodes₀ stored h hrun
    cases hrun
    exact h
  | cons op ops ih =>
    intro nodes₀ stored h hrun
    rw [foldlM_cons] at hrun
    cases hstep : op.step r nodes₀ with
    | none =>
      rw [hstep] at hrun
      cases hrun
    | some nodes₁ =>
      rw [hstep] at hrun
      exact ih nodes₁ _ (h.step hstep) hrun

end Runs

section Served
open StoreCalls Auth CallProgram Unwinding

/-- What a tenant holds that has the node's vectors, as its index keeps them. -/
def Node.contents (prep : Vec → Vec) (n : Node) : Contents := fun id => n[id]?.map fun p => (prep p.1, p.2)

variable {D F : Type} [Hnsw.Dist D] {P : Setup D F} {env : Env} {s s' : StoreCalls.Store D} {r : Router}
  {n : Node} {srv : Server} {given : String} {res : Response D}

variable (P env s r n) in
/-- The server's tenant holds the vectors of the node. -/
def Serves : Prop :=
  Sound P s ∧ StoreCalls.mapOf P env s (tenantOf r.tenantID) = some (n.contents (prepOf P s (tenantOf r.tenantID)))

theorem contents_puts (r : Router) (prep : Vec → Vec) (n : Node) (items : List Item) :
    (items.foldl Op.put n).contents prep =
      upsert prep (n.contents prep) (items.map fun it => itemOf (r.message it)) := by
  induction items generalizing n with
  | nil => rfl
  | cons it items ih =>
    have hput : (Op.put n it).contents prep = upsert prep (n.contents prep) [itemOf (r.message it)] := by
      have hitem : itemOf (r.message it) = (it.id, it.vector, it.metadata) := by
        simp [itemOf, Router.message, parseUint_formatUint]
      funext id
      change _ = KeyedLog.put Change.id Change.act _ ((itemChange (itemOf (r.message it))).stored prep) id
      rw [hitem, put_apply, Node.contents, getElem?_put]
      by_cases hid : id = it.id
      · simp [hid, itemChange, Change.stored, Change.id, Change.act]
      · simp [hid, Ne.symm hid, itemChange, Change.stored, Change.id, Node.contents]
    rw [foldl_cons, ih, hput]
    rfl

theorem Serves.after (h : Serves P env s r n) {ws : List (String × InsertItem)} (hafter : After P env s s' ws)
    (items : List Item)
    (hws : itemsFor (tenantOf r.tenantID) ws = items.map fun it => itemOf (r.message it)) :
    Serves P env s' r (items.foldl Op.put n) := by
  refine ⟨hafter.sound, ?_⟩
  rw [hafter.maps, h.2, Option.map_some, hws, ← contents_puts]
  simp only [prepOf, hafter.base]

theorem Serves.insert (h : Serves P env s r n) {it : Item}
    (hrun : (srv.insert given (some (r.message it))).run (answer P env) s = (.ok res, s')) :
    ∃ n', n.upsert (r.message it) = .ok n' ∧ Serves P env s' r n' :=
  ⟨_, upsert_message n it, h.after (serverInsert_ok h.1 hrun) [it] (itemsFor_self _ [itemOf (r.message it)])⟩

theorem Serves.batchUpsert (h : Serves P env s r n) {items : List Item}
    (hrun : (srv.batchUpsert given (items.map r.message)).run (answer P env) s = (.ok res, s')) :
    ∃ n', n.batchUpsert (items.map r.message) = .ok n' ∧ Serves P env s' r n' := by
  obtain ⟨-, -, ws, hafter, hws⟩ := batchUpsert_ok h.1 hrun
  refine ⟨_, batchUpsert_messages n items, h.after hafter items ?_⟩
  have hall : ofTenant (tenantOf r.tenantID) (items.map r.message) = items.map r.message := by
    simp [ofTenant, Router.message]
  rw [hws, hall, grouped_one (a := r.tenantID) (by simp [Router.message]), map_map]
  rfl

theorem Serves.delete (h : Serves P env s r n) {id : UInt64}
    (hrun : (srv.delete given r.tenantID (formatUint id)).run (answer P env) s = (.ok res, s')) :
    ∃ n', n.delete (formatUint id) = .ok n' ∧ Serves P env s' r n' := by
  obtain ⟨_, -, hrun⟩ := run_ofExcept_bind_ok hrun
  obtain ⟨id', hid, hrun⟩ := run_ofExcept_bind_ok hrun
  rw [run_ask_bind] at hrun
  obtain ⟨u, hok, hrun⟩ := run_ofExcept_bind_ok hrun
  obtain rfl : id = id' := by simpa [parseID, parseUint_formatUint] using hid
  have hexec : exec (StoreCalls.delete P env r.tenantID id) s = (.ok (), s') := by
    obtain ⟨-, rfl⟩ := Prod.mk.inj hrun
    exact ok_of_reply hok
  obtain ⟨hs, hbase, hmap⟩ := delete_ok h.1 hexec
  refine ⟨_, delete_formatUint n id, hs, hmap.trans ?_⟩
  rw [h.2, Option.map_some, prepOf, prepOf, hbase]
  congr 1
  funext k
  by_cases hk : k = id
  · simp [hk, Node.contents]
  · simp [hk, Node.contents, Std.ExtTreeMap.getElem?_erase, Ne.symm hk]

end Served

end NuclaDB.Routing
