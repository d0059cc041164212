import NuclaDB.RingMovement
import NuclaDB.Topology

/-!
# Rebalancing

`Rebalance` reads the state once and proposes the differences between it and what the ring asks
for, shard by shard.
-/

namespace NuclaDB.Topology
open HashRing SortedSlice List Std

structure RebalanceError (E : Type) where
  cmd : Command
  cause : E

variable {E : Type}

section Model
variable (hash : String → UInt64) (answer : ℕ → Answer E)

def proposeFor (cmd : Command) : Proposing (RebalanceError E) Unit :=
  (propose answer cmd).adapt (RebalanceError.mk cmd)

def setShardLeader (shardID : ℤ) (nodeID : String) : Command :=
  { op := .setShardLeader, shardID, nodeID }

def addShardReplica (shardID : ℤ) (nodeID : String) : Command :=
  { op := .addShardReplica, shardID, nodeID }

def removeShardReplica (shardID : ℤ) (nodeID : String) : Command :=
  { op := .removeShardReplica, shardID, nodeID }

def Cluster.rebalanceShard (c : Cluster) (current : State) (shard : ℕ) :
    Proposing (RebalanceError E) Unit :=
  match c.ring.ownersOf hash shard c.replicationFactor with
  -- no nodes yet to assign to
  | .error .noNodes => pure ()
  | .ok [] => pure ()
  | .ok (desiredLeader :: desiredReplicas) => do
    if current.leaderOf shard ≠ desiredLeader then
      proposeFor answer (setShardLeader shard desiredLeader)
    forM (current.replicasOf shard) fun id => do
      if id ∉ desiredReplicas then proposeFor answer (removeShardReplica shard id)
    forM desiredReplicas fun id => do
      if id ∉ current.replicasOf shard then proposeFor answer (addShardReplica shard id)

def Cluster.rebalance (c : Cluster) : Proposing (RebalanceError E) Unit := do
  let current := (← get).state
  forM (range c.numShards) (c.rebalanceShard hash answer current)

end Model

section Plan
variable {hash : String → UInt64} {answer : ℕ → Answer E}

def ownersPlan (current : State) (shard : ℤ) : List String → List Command
  | [] => []
  | leader :: replicas =>
    (if current.leaderOf shard ≠ leader then [setShardLeader shard leader] else []) ++
      ((current.replicasOf shard).filter (· ∉ replicas)).map (removeShardReplica shard) ++
      (replicas.filter (· ∉ current.replicasOf shard)).map (addShardReplica shard)

variable (hash) in
def Cluster.plan (c : Cluster) (current : State) : List Command :=
  (range c.numShards).flatMap fun shard : ℕ =>
    ownersPlan current shard (c.ring.ownerList hash shard c.replicationFactor)

theorem forM_ite {m : Type → Type} [Monad m] [LawfulMonad m] {α β : Type} (f : β → m Unit)
    (g : α → β) (p : α → Prop) [DecidablePred p] (l : List α) :
    (forM l fun a => if p a then f (g a) else pure ()) = forM ((l.filter (p ·)).map g) f := by
  induction l with
  | nil => rfl
  | cons a l ih =>
    by_cases ha : p a
    · simp [ha, ih]
    · simp [ha, ih]

theorem forM_flatMap {m : Type → Type} [Monad m] [LawfulMonad m] {α β : Type} (f : β → m Unit)
    (g : α → List β) (l : List α) :
    (forM l fun a => forM (g a) f) = forM (l.flatMap g) f := by
  induction l with
  | nil => rfl
  | cons a l ih => simp [ih]

theorem Cluster.rebalanceShard_eq (c : Cluster) (current : State) (shard : ℕ) :
    c.rebalanceShard hash answer current shard =
      forM (ownersPlan current shard (c.ring.ownerList hash shard c.replicationFactor))
        (proposeFor answer) := by
  rw [rebalanceShard, Ring.ownerList]
  split
  · next h => simp [h, ownersPlan]
  · next h => simp [h, ownersPlan]
  · next leader replicas h =>
    simp only [h, ownersPlan]
    rw [forM_append, forM_append, forM_ite, forM_ite]
    split <;> simp

theorem Cluster.rebalance_eq (c : Cluster) : c.rebalance hash answer =
      (do forM (c.plan hash (← get).state) (proposeFor answer) : Proposing _ Unit) := by
  have hshard : ∀ current, c.rebalanceShard hash answer current = fun shard => forM _ _ :=
    fun current => funext fun shard => c.rebalanceShard_eq current shard
  simp only [rebalance, plan, hshard, forM_flatMap]

theorem run_bind_ok {F α β : Type} {x : Proposing F α} {f : α → Proposing F β} {s s' : Session}
    {a : α} (hx : x.run.run s = (.ok a, s')) : (x >>= f).run.run s = (f a).run.run s' := by
  rw [ExceptT.run_bind, StateT.run_bind, hx]
  rfl

section
variable (hall : ∀ i, answer i = .committed)
include hall

theorem propose_committed (cmd : Command) (s : Session) :
    (propose answer cmd).run.run s = (.ok (), ⟨s.state.apply cmd, s.proposed ++ [cmd]⟩) := by
  have hget : (get : Proposing E Session).run.run s = (.ok s, s) := rfl
  rw [propose, run_bind_ok hget, hall]
  rfl

theorem proposeFor_committed (cmd : Command) (s : Session) :
    (proposeFor answer cmd).run.run s = (.ok (), ⟨s.state.apply cmd, s.proposed ++ [cmd]⟩) := by
  rw [proposeFor, ExceptT.run_adapt, StateT.run_map, propose_committed hall]
  rfl

theorem forM_proposeFor (cmds : List Command) (s : Session) : (forM cmds (proposeFor answer)).run.run s =
      (.ok (), ⟨s.state.applyAll cmds, s.proposed ++ cmds⟩) := by
  induction cmds generalizing s with
  | nil =>
    rw [append_nil]
    rfl
  | cons cmd cmds ih =>
    rw [forM_cons, run_bind_ok (proposeFor_committed hall cmd s), ih, append_assoc]
    rfl

end

end Plan

section Effect
variable {shard : ℤ} {s s' s'' : State} {owners : List String}

def State.entry (s : State) (shard : ℤ) : Option String × Option (List String) :=
  (s.shardLeader[shard]?, s.shardReplicas[shard]?)

theorem State.leaderOf_eq_of_entry (h : s'.entry shard = s.entry shard) :
    s'.leaderOf shard = s.leaderOf shard :=
  congrArg (fun entry => entry.1.getD "") h

theorem State.replicasOf_eq_of_entry (h : s'.entry shard = s.entry shard) :
    s'.replicasOf shard = s.replicasOf shard :=
  congrArg (fun entry => entry.2.getD []) h

structure State.OnlyAt (shard : ℤ) (s s' : State) : Prop where
  nodes : s'.nodes = s.nodes
  entry : ∀ other ≠ shard, s'.entry other = s.entry other

theorem State.OnlyAt.trans (h : State.OnlyAt shard s s') (h' : State.OnlyAt shard s' s'') :
    State.OnlyAt shard s s'' :=
  ⟨h'.nodes.trans h.nodes, fun other hne => (h'.entry other hne).trans (h.entry other hne)⟩

theorem State.OnlyAt.refl : State.OnlyAt shard s s := ⟨rfl, fun _ _ => rfl⟩

theorem State.onlyAt_apply {cmd : Command} (hshard : cmd.shardID = shard)
    (hop : cmd.op = .setShardLeader ∨ cmd.op = .addShardReplica ∨ cmd.op = .removeShardReplica) :
    State.OnlyAt shard s (s.apply cmd) := by
  subst hshard
  rcases hop with hop | hop | hop
  · refine ⟨by simp [State.apply, hop], fun other hne => ?_⟩
    simp [State.apply, hop, State.entry, ExtTreeMap.getElem?_insert, hne.symm]
  · simp only [State.apply, hop]
    split
    · exact State.OnlyAt.refl
    · refine ⟨rfl, fun other hne => ?_⟩
      simp [State.entry, ExtTreeMap.getElem?_insert, hne.symm]
  · refine ⟨by simp [State.apply, hop], fun other hne => ?_⟩
    simp [State.apply, hop, State.entry, ExtTreeMap.getElem?_insert, hne.symm]

variable (shard s) in
theorem State.setShardLeader_effect (leader : String) :
    State.OnlyAt shard s (s.apply (setShardLeader shard leader)) ∧
      (s.apply (setShardLeader shard leader)).leaderOf shard = leader ∧
      (s.apply (setShardLeader shard leader)).replicasOf shard = s.replicasOf shard := by
  refine ⟨State.onlyAt_apply rfl (.inl rfl), ?_, rfl⟩
  simp [State.apply, setShardLeader, State.leaderOf]

variable (shard s) in
theorem State.removeShardReplicas_effect (ids : List String) :
    State.OnlyAt shard s (s.applyAll (ids.map (removeShardReplica shard))) ∧
      (s.applyAll (ids.map (removeShardReplica shard))).leaderOf shard = s.leaderOf shard ∧
      (s.applyAll (ids.map (removeShardReplica shard))).replicasOf shard =
        (s.replicasOf shard).filter (· ∉ ids) := by
  induction ids generalizing s with
  | nil =>
    refine ⟨State.OnlyAt.refl, rfl, ?_⟩
    simp [State.applyAll]
  | cons id ids ih =>
    obtain ⟨hagree, hleader, hreplicas⟩ := ih (s.apply (removeShardReplica shard id))
    have hstep : State.OnlyAt shard s (s.apply (removeShardReplica shard id)) :=
      State.onlyAt_apply rfl (.inr (.inr rfl))
    have hone : (s.apply (removeShardReplica shard id)).replicasOf shard =
        (s.replicasOf shard).filter fun r => r != id := by
      simp [State.apply, removeShardReplica, State.replicasOf]
    refine ⟨hstep.trans hagree, hleader, hreplicas.trans ?_⟩
    rw [hone, filter_filter]
    apply filter_congr
    intro r _
    by_cases hr : r = id
    · simp [hr]
    · simp [hr]

theorem State.addShardReplicas_effect {ids : List String} (hnodup : ids.Nodup)
    (hnew : ∀ id ∈ ids, id ∉ s.replicasOf shard) :
    State.OnlyAt shard s (s.applyAll (ids.map (addShardReplica shard))) ∧
      (s.applyAll (ids.map (addShardReplica shard))).leaderOf shard = s.leaderOf shard ∧
      (s.applyAll (ids.map (addShardReplica shard))).replicasOf shard = s.replicasOf shard ++ ids := by
  induction ids generalizing s with
  | nil =>
    refine ⟨State.OnlyAt.refl, rfl, ?_⟩
    simp [State.applyAll]
  | cons id ids ih =>
    obtain ⟨hid, hnodup⟩ := nodup_cons.mp hnodup
    have happly : s.apply (addShardReplica shard id) =
        { s with shardReplicas := s.shardReplicas.insert shard (s.replicasOf shard ++ [id]) } :=
      if_neg (hnew id mem_cons_self)
    have hone : (s.apply (addShardReplica shard id)).replicasOf shard = s.replicasOf shard ++ [id] := by
      rw [happly]
      simp [State.replicasOf]
    have hstep : State.OnlyAt shard s (s.apply (addShardReplica shard id)) :=
      State.onlyAt_apply rfl (.inr (.inl rfl))
    have hnext : ∀ other ∈ ids, other ∉ (s.apply (addShardReplica shard id)).replicasOf shard := by
      intro other hmem
      have hne : other ≠ id := fun heq => hid (heq ▸ hmem)
      simp [hone, hne, hnew other (mem_cons_of_mem _ hmem)]
    obtain ⟨hagree, hleader, hreplicas⟩ := ih hnodup hnext
    refine ⟨hstep.trans hagree, hleader.trans (by rw [happly]; rfl), hreplicas.trans ?_⟩
    rw [hone, append_assoc, singleton_append]

def State.Balanced (s : State) (shard : ℤ) : List String → Prop
  | [] => True
  | leader :: replicas => s.leaderOf shard = leader ∧ (s.replicasOf shard).Perm replicas

theorem State.Balanced.of_entry (h : s.Balanced shard owners)
    (hentry : s'.entry shard = s.entry shard) : s'.Balanced shard owners := by
  cases owners with
  | nil => trivial
  | cons leader replicas =>
    exact ⟨(State.leaderOf_eq_of_entry hentry).trans h.1,
      (State.replicasOf_eq_of_entry hentry).symm ▸ h.2⟩

theorem State.Balanced.plan_nil (h : s.Balanced shard owners) : ownersPlan s shard owners = [] := by
  cases owners with
  | nil => rfl
  | cons leader replicas =>
    obtain ⟨hleader, hperm⟩ := h
    have hremove : (s.replicasOf shard).filter (· ∉ replicas) = [] :=
      filter_eq_nil_iff.mpr fun id hid => by simpa using hperm.mem_iff.mp hid
    have hadd : replicas.filter (· ∉ s.replicasOf shard) = [] :=
      filter_eq_nil_iff.mpr fun id hid => by simpa using hperm.mem_iff.mpr hid
    rw [ownersPlan, hremove, hadd, if_neg (not_not.mpr hleader)]
    rfl

theorem keep_append_missing_perm {l d : List String} (hl : l.Nodup) (hd : d.Nodup) :
    (l.filter (· ∈ d) ++ d.filter (· ∉ l)).Perm d := by
  refine (perm_ext_iff_of_nodup ?_ hd).mpr fun id => ?_
  · refine (hl.filter _).append (hd.filter _) fun id hid hid' => ?_
    simp only [mem_filter, decide_eq_true_eq] at hid hid'
    exact hid'.2 hid.1
  · simp only [mem_append, mem_filter, decide_eq_true_eq]
    tauto

theorem State.ownersPlan_effect {current : State}
    (hread : s.entry shard = current.entry shard) (howners : owners.Nodup)
    (hreplicas : (current.replicasOf shard).Nodup) :
    State.OnlyAt shard s (s.applyAll (ownersPlan current shard owners)) ∧
      (s.applyAll (ownersPlan current shard owners)).Balanced shard owners := by
  cases owners with
  | nil => exact ⟨State.OnlyAt.refl, trivial⟩
  | cons leader replicas =>
    obtain ⟨-, hnodup⟩ := nodup_cons.mp howners
    simp only [ownersPlan, State.applyAll, foldl_append]
    have hfirst : ∃ s₁, (if current.leaderOf shard ≠ leader then [setShardLeader shard leader]
        else []).foldl State.apply s = s₁ ∧ State.OnlyAt shard s s₁ ∧
        s₁.leaderOf shard = leader ∧ s₁.replicasOf shard = current.replicasOf shard := by
      split
      · obtain ⟨honly, hleader, hsame⟩ := State.setShardLeader_effect shard s leader
        exact ⟨_, rfl, honly, hleader, hsame.trans (State.replicasOf_eq_of_entry hread)⟩
      · next heq =>
        refine ⟨_, rfl, State.OnlyAt.refl, ?_, State.replicasOf_eq_of_entry hread⟩
        exact (State.leaderOf_eq_of_entry hread).trans (not_not.mp heq)
    obtain ⟨s₁, hs₁, honly₁, hleader₁, hreplicas₁⟩ := hfirst
    rw [hs₁]
    obtain ⟨honly₂, hleader₂, hreplicas₂⟩ := State.removeShardReplicas_effect shard s₁
      ((current.replicasOf shard).filter (· ∉ replicas))
    have hkept : (s₁.replicasOf shard).filter
        (· ∉ (current.replicasOf shard).filter (· ∉ replicas)) =
        (current.replicasOf shard).filter (· ∈ replicas) := by
      rw [hreplicas₁]
      apply filter_congr
      intro id hid
      simp [hid]
    rw [hkept] at hreplicas₂
    simp only [State.applyAll] at honly₂ hleader₂ hreplicas₂
    generalize foldl State.apply s₁ _ = s₂ at honly₂ hleader₂ hreplicas₂ ⊢
    have hnew : ∀ id ∈ replicas.filter (· ∉ current.replicasOf shard),
        id ∉ s₂.replicasOf shard := by
      intro id hid hmem
      rw [hreplicas₂] at hmem
      simp only [mem_filter, decide_eq_true_eq] at hid hmem
      exact hid.2 hmem.1
    obtain ⟨honly₃, hleader₃, hreplicas₃⟩ :=
      State.addShardReplicas_effect (hnodup.filter _) hnew
    refine ⟨(honly₁.trans honly₂).trans honly₃, hleader₃.trans (hleader₂.trans hleader₁), ?_⟩
    simp only [State.applyAll] at hreplicas₃
    rw [hreplicas₃, hreplicas₂]
    exact keep_append_missing_perm hreplicas hnodup

end Effect

section Pass
variable {s : State}

theorem State.nodup_apply (hs : ∀ shard, (s.replicasOf shard).Nodup) (cmd : Command) (shard : ℤ) :
    ((s.apply cmd).replicasOf shard).Nodup := by
  simp only [State.apply]
  split
  · exact hs shard
  · exact hs shard
  · exact hs shard
  · split
    · exact hs shard
    · next hnew =>
      by_cases hshard : cmd.shardID = shard
      · simpa [State.replicasOf, ← hshard, nodup_append] using
          ⟨hs cmd.shardID, fun id hid heq => hnew (heq ▸ hid)⟩
      · simpa [State.replicasOf, ExtTreeMap.getElem?_insert, hshard] using hs shard
  · by_cases hshard : cmd.shardID = shard
    · simpa [State.replicasOf, ← hshard] using (hs cmd.shardID).filter _
    · simpa [State.replicasOf, ExtTreeMap.getElem?_insert, hshard] using hs shard
  · exact hs shard

theorem State.nodup_applyAll (hs : ∀ shard, (s.replicasOf shard).Nodup) (cmds : List Command) :
    ∀ shard, ((s.applyAll cmds).replicasOf shard).Nodup := by
  induction cmds generalizing s with
  | nil => exact hs
  | cons cmd cmds ih => exact ih (State.nodup_apply hs cmd)

theorem State.nodup_replicasOf (cmds : List Command) (shard : ℤ) :
    ((State.new.applyAll cmds).replicasOf shard).Nodup := by
  refine State.nodup_applyAll (fun shard => ?_) cmds shard
  simp [State.replicasOf, State.new]

theorem State.plan_effect {owners : ℕ → List String} (howners : ∀ shard, (owners shard).Nodup)
    (hs : ∀ shard, (s.replicasOf shard).Nodup) (n : ℕ) {s' : State}
    (hs' : s' = s.applyAll ((range n).flatMap fun i : ℕ => ownersPlan s i (owners i))) :
    s'.nodes = s.nodes ∧ (∀ shard : ℤ, ¬(0 ≤ shard ∧ shard < n) → s'.entry shard = s.entry shard) ∧
      ∀ i < n, s'.Balanced i (owners i) := by
  induction n generalizing s' with
  | zero =>
    subst hs'
    exact ⟨rfl, fun _ _ => rfl, fun i hi => absurd hi (Nat.not_lt_zero i)⟩
  | succ n ih =>
    obtain ⟨hnodes, hrest, hdone⟩ := ih rfl
    rw [range_succ, flatMap_append, State.applyAll, foldl_append] at hs'
    simp only [State.applyAll] at hnodes hrest hdone
    generalize foldl State.apply s _ = s₁ at hnodes hrest hdone hs'
    have hread : s₁.entry n = s.entry n := hrest n (by omega)
    obtain ⟨honly, hbalanced⟩ := State.ownersPlan_effect hread (howners n) (hs n)
    rw [flatMap_singleton] at hs'
    subst hs'
    refine ⟨honly.nodes.trans hnodes, fun shard hout => ?_, fun i hi => ?_⟩
    · exact (honly.entry shard (by omega)).trans (hrest shard (by omega))
    · rcases Nat.lt_succ_iff_lt_or_eq.mp hi with hlt | rfl
      · exact (hdone i hlt).of_entry (honly.entry i (by omega))
      · exact hbalanced

variable {hash : String → UInt64} {answer : ℕ → Answer E}

theorem Cluster.rebalance_run (hall : ∀ i, answer i = .committed) (c : Cluster) (s : Session) :
    (c.rebalance hash answer).run.run s =
      (.ok (), ⟨s.state.applyAll (c.plan hash s.state), s.proposed ++ c.plan hash s.state⟩) := by
  have hget : (get : Proposing (RebalanceError E) Session).run.run s = (.ok s, s) := rfl
  rw [rebalance_eq, run_bind_ok hget, forM_proposeFor hall]

/-- One pass brings every shard to what the ring asks for and leaves the rest of the state alone;
the next one finds nothing to propose. -/
theorem rebalance_converges (c : Cluster) (ops : List HashRing.Op) (numShards virtualNodes : ℤ)
    (hring : c.ring = HashRing.run hash (HashRing.new numShards virtualNodes) ops)
    (hnonempty : c.ring.nodeSet.Nonempty) (cmds : List Command)
    (hall : ∀ i, answer i = .committed) :
    let s := State.new.applyAll cmds
    let pass := (c.rebalance hash answer).run.run ⟨s, []⟩
    let s' := pass.2.state
    pass.1 = .ok () ∧ (∀ shard < c.numShards, ∃ leader replicas,
        c.ring.ownersOf hash shard c.replicationFactor = .ok (leader :: replicas) ∧
        s'.leaderOf shard = leader ∧ (s'.replicasOf shard).Perm replicas ∧
        (s'.replicasOf shard).Nodup ∧ leader ∉ s'.replicasOf shard) ∧
      s'.nodes = s.nodes ∧
      (∀ shard : ℤ, ¬(0 ≤ shard ∧ shard < c.numShards) → s'.shardLeader[shard]? = s.shardLeader[shard]? ∧
        s'.shardReplicas[shard]? = s.shardReplicas[shard]?) ∧
      ∀ answer' : ℕ → Answer E,
        (c.rebalance hash answer').run.run ⟨s', []⟩ = (.ok (), ⟨s', []⟩) := by
  intro s pass s'
  have hr : c.ring.Sound hash := by
    rw [hring]
    exact (Ring.new_sound numShards virtualNodes).run ops
  have hpass : pass = (.ok (), ⟨s.applyAll (c.plan hash s), c.plan hash s⟩) :=
    Cluster.rebalance_run hall c ⟨s, []⟩
  have howners : ∀ shard : ℕ, (c.ring.ownerList hash shard c.replicationFactor).Nodup :=
    fun shard => hr.nodup_ownerList shard _
  have hs' : s' = s.applyAll (c.plan hash s) := congrArg (fun p => p.2.state) hpass
  obtain ⟨hnodes, hrest, hdone⟩ :=
    State.plan_effect howners (State.nodup_replicasOf cmds) c.numShards hs'
  refine ⟨congrArg Prod.fst hpass, fun shard hshard => ?_, hnodes, fun shard hout => ?_,
    fun answer' => ?_⟩
  · have hbalanced := hdone shard hshard
    have hne := hr.ownerList_ne_nil hnonempty shard (Int.natCast_pos.mpr c.replicationFactor_pos)
    obtain ⟨leader, replicas, heq⟩ := exists_cons_of_ne_nil hne
    have hnodup := howners shard
    rw [heq] at hbalanced hnodup
    obtain ⟨hleader, hperm⟩ := hbalanced
    obtain ⟨hnot, hnodup⟩ := nodup_cons.mp hnodup
    exact ⟨leader, replicas, (hr.ownersOf_eq_ok hnonempty _ _).trans (congrArg _ heq), hleader,
      hperm, hperm.nodup_iff.mpr hnodup, fun hmem => hnot (hperm.mem_iff.mp hmem)⟩
  · exact Prod.ext_iff.mp (hrest shard hout)
  · have hplan : c.plan hash s' = [] := by
      rw [Cluster.plan, flatMap_eq_nil_iff]
      intro shard hmem
      exact (hdone shard (mem_range.mp hmem)).plan_nil
    have hget : (get : Proposing (RebalanceError E) Session).run.run ⟨s', []⟩ =
        (.ok ⟨s', []⟩, ⟨s', []⟩) := rfl
    rw [Cluster.rebalance_eq, run_bind_ok hget, hplan]
    rfl

theorem rebalance_of_two_nodes : let sort : PointSort := KeySort.merge _
    let ring := HashRing.run hashKey (HashRing.new 2 1) [.addNode sort "a", .addNode sort "b"]
    let c : Cluster := ⟨2, 1, 2, ring, ∅, Nat.two_pos, Nat.one_pos, Nat.two_pos⟩
    let s := State.new.applyAll [setShardLeader 0 "a", addShardReplica 0 "a"]
    ((c.rebalance hashKey fun _ => (.committed : Answer Unit)).run.run ⟨s, []⟩).1 = .ok () := by
  intro sort ring c s
  have hmem : "a" ∈ ring.nodeSet := by decide +kernel
  exact (rebalance_converges c [.addNode sort "a", .addNode sort "b"] 2 1 rfl ⟨"a", hmem⟩
    [setShardLeader 0 "a", addShardReplica 0 "a"] fun _ => rfl).1

end Pass

end NuclaDB.Topology
