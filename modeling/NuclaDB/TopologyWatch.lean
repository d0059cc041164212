import NuclaDB.Topology

/-!
# Replicas of the topology and their watchers

The Raft library gives every node the entries of one log, or a snapshot for the first of them;
`Delivered` says what is trusted of it. `Watch` sleeps on a channel with room for one token. It
alone calls `Refresh` here, as on a node that serves no `Join` or `Leave`. A log entry that does
not decode is `none`.
-/

namespace NuclaDB.Topology
open HashRing SortedSlice Std

/-- A `State` as JSON has it: any of the maps may be `null`. -/
structure StateJson where
  nodes : Option (ExtTreeMap String String compare)
  shardLeader : Option (ExtTreeMap ℤ String compare)
  shardReplicas : Option (ExtTreeMap ℤ (List String) compare)

inductive Delivery
  | apply (entry : Option Command)
  | restore (snapshot : StateJson)

namespace State

def applyLog (s : State) (entry : Option Command) : State := (entry.map s.apply).getD s

def persist (s : State) : StateJson := ⟨some s.nodes, some s.shardLeader, some s.shardReplicas⟩

def restored (j : StateJson) : State := ⟨j.nodes.getD ∅, j.shardLeader.getD ∅, j.shardReplicas.getD ∅⟩

def receive (s : State) : Delivery → State
  | .apply entry => s.applyLog entry
  | .restore snapshot => restored snapshot

def afterLog (log : List (Option Command)) : State := log.foldl applyLog new

end State

/-- A node that stands for `n` entries of the log has been given those after its last snapshot in
log order, and the snapshot stood for a first part of the log. -/
inductive Delivered (log : List (Option Command)) : List Delivery → ℕ → Prop
  | started : Delivered log [] 0
  | inLogOrder {ds : List Delivery} {n : ℕ} {entry : Option Command} : Delivered log ds n →
      log[n]? = some entry → Delivered log (ds ++ [.apply entry]) (n + 1)
  | installed {ds : List Delivery} {n : ℕ} (k : ℕ) : Delivered log ds n →
      Delivered log (ds ++ [.restore (State.afterLog (log.take k)).persist]) k

def fsm (ds : List Delivery) : State := ds.foldl State.receive State.new

theorem Delivered.fsm_eq {log : List (Option Command)} {ds : List Delivery} {n : ℕ}
    (h : Delivered log ds n) : fsm ds = State.afterLog (log.take n) := by
  induction h with
  | started => rfl
  | @inLogOrder ds n entry _ hentry ih =>
    rw [fsm, List.foldl_append, ← fsm, ih, List.take_add_one, hentry, State.afterLog, State.afterLog,
      List.foldl_append]
    rfl
  | installed k _ _ => exact List.foldl_append

variable {hash : String → UInt64}

theorem Cluster.refresh_addrs_eq (sort sort' : PointSort) (visit visit' : MapOrder (String × String))
    (state : State) (c c' : Cluster) :
    (c'.refresh hash sort' visit' state).addrs = (c.refresh hash sort visit state).addrs := by
  refine ((visit'.perm _).trans (visit.perm _).symm).foldl_eq' (fun x hx y hy m => ?_) ∅
  have hkey : ∀ {p : String × String}, p ∈ visit'.list state.nodes.toList → state.nodes[p.1]? = some p.2 :=
    fun hp => ExtTreeMap.mem_toList_iff_getElem?_eq_some.mp ((visit'.perm _).mem_iff.mp hp)
  ext k : 1
  simp only [ExtTreeMap.getElem?_insert]
  grind

/-- Nodes that have applied equally many entries name the same owner for every shard, whatever snapshots
they got, whatever ring they had before and whatever order their maps and their sorts are in. -/
theorem owners_agree {log : List (Option Command)} {ds ds' : List Delivery} {n : ℕ}
    (h : Delivered log ds n) (h' : Delivered log ds' n) {c c' : Cluster}
    (hshards : c'.numShards = c.numShards) (hvirtual : c'.virtualNodes = c.virtualNodes)
    (sort sort' : PointSort) (visit visit' : MapOrder (String × String)) :
    let r := c.refresh hash sort visit (fsm ds)
    let r' := c'.refresh hash sort' visit' (fsm ds')
    Ring.Distinct hash r.ring.virtualNodes r.ring.nodeSet →
      r'.shardOwner hash (fsm ds') = r.shardOwner hash (fsm ds) := by
  intro r r' hdistinct
  have hstate : fsm ds' = fsm ds := h'.fsm_eq.trans h.fsm_eq.symm
  have hconfig : r.ring.virtualNodes = (HashRing.new c.numShards c.virtualNodes).virtualNodes := by
    rw [c.refresh_ring]
    exact (run_config ..).1
  have hring : r'.ring = r.ring := by
    rw [← c.refresh_ring_eq sort sort' visit visit' _ (hconfig ▸ hdistinct), c.refresh_ring,
      c'.refresh_ring, hstate, hshards, hvirtual]
  have haddrs : r'.addrs = r.addrs := by
    simp only [r', hstate]
    exact c.refresh_addrs_eq sort sort' visit visit' _ c'
  funext shard
  rw [Cluster.shardOwner, Cluster.shardOwner, hstate, hring, haddrs]

def joins : List (Option Command) :=
  [some { op := .addNode, nodeID := "a", addr := "a:1" }, none,
    some { op := .addNode, nodeID := "b", addr := "b:1" }]

def twoShards : Cluster := Cluster.new hashKey (KeySort.insertion _) .listed State.new 2 2 1

/-- One node applied all of the log, the other a snapshot of the first entry and then the rest. -/
theorem owners_after_install :
    let joined := joins.map Delivery.apply
    let installed := .restore (State.afterLog (joins.take 1)).persist :: (joins.drop 1).map .apply
    (twoShards.refresh hashKey (KeySort.merge _) .reversed (fsm installed)).shardOwner hashKey (fsm installed) =
      (twoShards.refresh hashKey (KeySort.insertion _) .listed (fsm joined)).shardOwner hashKey (fsm joined) :=
  have hjoined : Delivered joins (joins.map .apply) 3 := .inLogOrder (.inLogOrder (.inLogOrder .started rfl) rfl) rfl
  have hinstalled : Delivered joins
      (.restore (State.afterLog (joins.take 1)).persist :: (joins.drop 1).map .apply) 3 :=
    .inLogOrder (.inLogOrder (.installed 1 .started) rfl) rfl
  owners_agree hjoined hinstalled rfl rfl _ _ _ _ (by decide +kernel)

inductive Watching
  | subscribing
  | waiting
  | woken
  | read (state : State)
  | built (next : Cluster)

/-- A node: its FSM, the place of the channel, the stored ring, and where `Watch` is. -/
structure Watched where
  fsm : State
  token : Bool
  cluster : Cluster
  watch : Watching

inductive WatchEvent
  | change (fsm : State)
  | next (sort : PointSort) (visit : MapOrder (String × String))

namespace Watched
variable (hash)

/-- The end of `Apply` and of `Restore`. -/
def change (s : Watched) (fsm : State) : Watched :=
  match s.watch with
  | .subscribing => { s with fsm }
  | _ => { s with fsm, token := true }

def next (s : Watched) (sort : PointSort) (visit : MapOrder (String × String)) : Watched :=
  match s.watch with
  | .subscribing => { s with watch := .waiting }
  | .waiting => if s.token then { s with token := false, watch := .woken } else s
  | .woken => { s with watch := .read s.fsm }
  | .read state => { s with watch := .built (s.cluster.refresh hash sort visit state) }
  | .built next => { s with cluster := next, watch := .waiting }

def step (s : Watched) : WatchEvent → Watched
  | .change fsm => s.change fsm
  | .next sort visit => s.next hash sort visit

def Refreshed (fsm : State) (c : Cluster) : Prop := ∃ old sort visit, c = Cluster.refresh hash sort visit fsm old

/-- A change that the stored ring lacks is still to be seen. -/
def Inv (s : Watched) : Prop :=
  match s.watch with
  | .subscribing => False
  | .waiting => s.token = true ∨ Refreshed hash s.fsm s.cluster
  | .woken => True
  | .read state => s.token = true ∨ state = s.fsm
  | .built next => s.token = true ∨ Refreshed hash s.fsm next

variable {hash} {s : Watched}

theorem inv_change (hs : s.watch ≠ .subscribing) (fsm : State) : (s.change fsm).Inv hash := by
  cases hwatch : s.watch with
  | subscribing => exact absurd hwatch hs
  | _ => simp [change, Inv, hwatch]

theorem Inv.step (h : s.Inv hash) (ev : WatchEvent) : (s.step hash ev).Inv hash := by
  rw [Inv] at h
  cases ev with
  | change fsm => exact inv_change (fun hwatch => by simp [hwatch] at h) fsm
  | next sort visit =>
    simp only [Watched.step, Watched.next]
    cases hwatch : s.watch with
    | subscribing => simp [hwatch] at h
    | waiting =>
      simp only [hwatch] at h
      cases htoken : s.token with
      | true => simp [Inv]
      | false => simpa [Inv, hwatch, htoken] using h
    | woken => simp [Inv]
    | read state =>
      simp only [hwatch] at h
      exact h.imp_right fun heq => ⟨s.cluster, sort, visit, by rw [heq]⟩
    | built c => simpa [Inv, hwatch] using h

theorem Inv.run (h : s.Inv hash) (evs : List WatchEvent) : (evs.foldl (Watched.step hash) s).Inv hash :=
  List.foldlRecOn evs _ h fun _ h ev _ => h.step ev

theorem Inv.refreshed (h : s.Inv hash) (hwatch : s.watch = .waiting) (htoken : s.token = false) :
    Refreshed hash s.fsm s.cluster := by
  rw [Inv, hwatch] at h
  simpa [htoken] using h

theorem settles (s : Watched) (sort : PointSort) (visit : MapOrder (String × String)) :
    let t := (fun s => Watched.next hash s sort visit)^[7] s
    t.watch = .waiting ∧ t.token = false ∧ t.fsm = s.fsm := by
  obtain ⟨fsm, token, c, watch⟩ := s
  cases watch <;> cases token <;> exact ⟨rfl, rfl, rfl⟩

end Watched

/-- No change after `Subscribe` is lost: when `Watch` sleeps without a token the ring is that of the
present state, and left alone it comes to that in seven steps. -/
theorem watch_misses_no_change {s : Watched} (hs : s.watch ≠ .subscribing) (fsm : State)
    (evs : List WatchEvent) :
    let t := evs.foldl (Watched.step hash) (s.change fsm)
    (t.watch = .waiting → t.token = false → Watched.Refreshed hash t.fsm t.cluster) ∧
      ∀ sort visit, Watched.Refreshed hash t.fsm ((fun s => Watched.next hash s sort visit)^[7] t).cluster := by
  intro t
  have hinv : t.Inv hash := (Watched.inv_change hs fsm).run evs
  refine ⟨hinv.refreshed, fun sort visit => ?_⟩
  obtain ⟨hwatch, htoken, hfsm⟩ := Watched.settles t sort visit
  rw [← hfsm]
  exact (hinv.run (List.replicate 7 (.next sort visit))).refreshed hwatch htoken

theorem watch_sees_a_join : let joined := State.new.apply { op := .addNode, nodeID := "a", addr := "a:1" }
    Watched.Refreshed hashKey joined ((fun s => Watched.next hashKey s (KeySort.insertion _) .listed)^[7]
      (Watched.change ⟨State.new, false, twoShards, .waiting⟩ joined)).cluster :=
  (watch_misses_no_change (by simp) _ []).2 _ _

end NuclaDB.Topology
