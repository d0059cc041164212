import NuclaDB.Rebalance

/-!
# Failing over

`FailoverNode` promotes, for each shard that a dead node leads, the replica that has got
furthest. A shard without another replica is an error, and an error ends the loop.
-/

namespace NuclaDB.Topology

open Std List

inductive FailoverError (E : Type)
  | noReplica (shardID : ℤ)
  | proposal (shardID : ℤ) (replica : String) (cause : E)

/-- How far a replica of a shard has got, if it answers. There may be nobody to ask at all. -/
abbrev Progress := Option (ℤ → String → Option UInt64)

structure Choice where
  best : String
  bestSeq : UInt64
  bestKnown : Bool

namespace Choice

def unmade : Choice := ⟨"", 0, false⟩

def meet (c : Choice) (replica : String) : Choice :=
  if c.best = "" then { c with best := replica } else c

def hear (c : Choice) (replica : String) : Option UInt64 → Choice
  | none => c
  | some seq => if !c.bestKnown || c.bestSeq < seq then ⟨replica, seq, true⟩ else c

end Choice

/-- The loop over the replicas. With nobody to ask it ends at the first one. -/
def choose (progress : Option (String → Option UInt64)) (dead : String) : List String → Choice → Choice
  | [], c => c
  | replica :: rest, c =>
    if replica = dead then choose progress dead rest c
    else
      match progress with
      | none => c.meet replica
      | some ask => choose (some ask) dead rest ((c.meet replica).hear replica (ask replica))

def State.replacement (s : State) (progress : Progress) (dead : String) (shardID : ℤ) : String :=
  (choose (progress.map (· shardID)) dead (s.replicasOf shardID) Choice.unmade).best

section Model
variable {E : Type} (answer : ℕ → Answer E) (progress : Progress)

def failoverShardLeader (shardID : ℤ) (dead : String) : Proposing (FailoverError E) Unit := do
  let state := (← get).state
  if state.leaderOf shardID ≠ dead then pure ()
  else
    let best := state.replacement progress dead shardID
    if best = "" then throw (.noReplica shardID)
    else (propose answer (setShardLeader shardID best)).adapt (.proposal shardID best)

def failoverNode (visit : MapOrder (ℤ × String)) (dead : String) : Proposing (FailoverError E) Unit := do
  let state := (← get).state
  forM (visit.list state.shardLeader.toList) fun entry =>
    if entry.2 ≠ dead then pure () else failoverShardLeader answer progress entry.1 dead

end Model

def State.others (s : State) (dead : String) (shardID : ℤ) : List String :=
  (s.replicasOf shardID).filter (· ≠ dead)

section Choosing
variable {ask : String → Option UInt64} {dead : String} {met others : List String} {c : Choice}

def rank : Option UInt64 → ℕ
  | none => 0
  | some seq => seq.toNat + 1

def furthest (ask : String → Option UInt64) (others : List String) (r : String) : Bool :=
  others.all fun other => rank (ask other) ≤ rank (ask r)

structure Furthest (progress : Option (String → Option UInt64)) (others : List String) (best : String) :
    Prop where
  mem : best ∈ others
  bound : ∀ ask, progress = some ask → ∀ r ∈ others, ∀ seq, ask r = some seq →
    ∃ bestSeq, ask best = some bestSeq ∧ seq ≤ bestSeq

/-- The loop takes the empty name for no choice yet. That makes no difference if the first replica with
a name has got as far as the first that has got furthest. -/
def undisturbed (progress : Option (String → Option UInt64)) (others : List String) : Bool :=
  match progress with
  | none => others.head?.any (· ≠ "")
  | some ask => ((others.dropWhile (!furthest ask others ·)).find? (· ≠ "")).any (furthest ask others)

theorem furthest_iff {r : String} : furthest ask others r = true ↔
    ∀ other ∈ others, ∀ seq, ask other = some seq → ∃ seq', ask r = some seq' ∧ seq ≤ seq' := by
  simp only [furthest, all_eq_true, decide_eq_true_eq]
  refine forall₂_congr fun other _ => ?_
  cases ask other <;> cases ask r <;> simp [rank, UInt64.le_iff_toNat_le]

def Choice.reach (c : Choice) : ℕ := if c.bestKnown then c.bestSeq.toNat + 1 else 0

theorem Choice.reach_meet (replica : String) : (c.meet replica).reach = c.reach := by
  unfold Choice.meet
  split <;> rfl

theorem Choice.hear_of_lt (replica : String) {answer : Option UInt64} (h : c.reach < rank answer) :
    (c.hear replica answer).best = replica ∧ (c.hear replica answer).reach = rank answer := by
  cases answer with
  | none => simp [rank] at h
  | some seq =>
    have hbetter : (!c.bestKnown || decide (c.bestSeq < seq)) = true := by
      cases hknown : c.bestKnown <;> simp [Choice.reach, rank, hknown, UInt64.lt_iff_toNat_lt] at h ⊢
      exact h
    rw [Choice.hear, if_pos hbetter]
    exact ⟨rfl, rfl⟩

theorem Choice.hear_of_le {replica : String} {answer : Option UInt64} (h : rank answer ≤ c.reach) :
    c.hear replica answer = c := by
  cases answer with
  | none => rfl
  | some seq =>
    refine if_neg ?_
    cases hknown : c.bestKnown <;> simp [Choice.reach, rank, hknown, UInt64.le_iff_toNat_le] at h ⊢
    exact h

variable (ask) in
structure Choice.Of (met : List String) (c : Choice) : Prop where
  start : met = [] → c.reach = 0
  bound : ∀ r ∈ met, rank (ask r) ≤ c.reach
  front : ∃ before rest, met = before ++ rest ∧ (∀ r ∈ before, rank (ask r) < c.reach) ∧
    (∀ r ∈ rest.head?, rank (ask r) = c.reach) ∧ (rest = [] → met = []) ∧
    c.best = (rest.find? (· ≠ "")).getD ""

theorem Choice.Of.unmade : Choice.unmade.Of ask [] :=
  ⟨fun _ => rfl, by simp, [], [], rfl, by simp, by simp, by simp, rfl⟩

theorem Choice.best_meet {rest : List String} (hbest : c.best = (rest.find? (· ≠ "")).getD "")
    (replica : String) :
    (c.meet replica).best = ((rest ++ [replica]).find? (· ≠ "")).getD "" := by
  rw [Choice.meet, find?_append]
  cases hfind : rest.find? (· ≠ "") with
  | none =>
    rw [hfind] at hbest
    by_cases hempty : replica = "" <;> simp [hbest, hempty]
  | some r =>
    have hnamed : r ≠ "" := by simpa using find?_some hfind
    rw [hfind] at hbest
    simp [hbest, hnamed]

theorem Choice.Of.step (h : c.Of ask met) (replica : String) :
    ((c.meet replica).hear replica (ask replica)).Of ask (met ++ [replica]) := by
  obtain ⟨before, rest, hmet, hbefore, hhead, hrest, hbest⟩ := h.front
  rcases Nat.lt_or_ge c.reach (rank (ask replica)) with hlt | hle
  · -- It has got further than all before it: the choice starts again with it.
    obtain ⟨hbest', hreach⟩ := Choice.hear_of_lt replica (c.reach_meet replica ▸ hlt)
    have hbehind : ∀ r ∈ met, rank (ask r) < rank (ask replica) :=
      fun r hr => Nat.lt_of_le_of_lt (h.bound r hr) hlt
    refine ⟨by simp, fun r hr => ?_, met, [replica], rfl, ?_, ?_, by simp, ?_⟩
    · rw [hreach]
      rcases mem_append.mp hr with hr | hr
      · exact Nat.le_of_lt (hbehind r hr)
      · rw [mem_singleton.mp hr]
    · rwa [hreach]
    · simp [hreach]
    · rw [hbest']
      by_cases hempty : replica = "" <;> simp [hempty]
  · rw [Choice.hear_of_le (c.reach_meet replica ▸ hle)]
    refine ⟨by simp, fun r hr => ?_, before, rest ++ [replica], by simp [hmet], ?_, ?_, by simp,
      Choice.best_meet hbest replica⟩
    · rw [Choice.reach_meet]
      rcases mem_append.mp hr with hr | hr
      · exact h.bound r hr
      · rwa [mem_singleton.mp hr]
    · rwa [Choice.reach_meet]
    · rw [Choice.reach_meet]
      cases rest with
      | nil =>
        have hzero := h.start (hrest rfl)
        simp only [nil_append, head?_cons, Option.mem_some_iff, forall_eq']
        omega
      | cons r rest => simpa using hhead

theorem Choice.Of.choose (h : c.Of ask met) (replicas : List String) :
    (choose (some ask) dead replicas c).Of ask (met ++ replicas.filter (· ≠ dead)) := by
  induction replicas generalizing met c with
  | nil => simpa [Topology.choose] using h
  | cons replica rest ih =>
    by_cases hdead : replica = dead
    · simpa [Topology.choose, hdead] using ih h
    · simpa [Topology.choose, hdead] using ih (h.step replica)

theorem Choice.Of.dropWhile_front (h : c.Of ask met) :
    c.best = ((met.dropWhile (!furthest ask met ·)).find? (· ≠ "")).getD "" := by
  obtain ⟨before, rest, hmet, hbefore, hhead, hrest, hbest⟩ := h.front
  cases rest with
  | nil =>
    obtain rfl := hrest rfl
    exact hbest
  | cons r rest =>
    have hr : rank (ask r) = c.reach := hhead r rfl
    have hfront : furthest ask met r = true := by
      simpa [furthest, hr] using h.bound
    have hbehind : ∀ b ∈ before, (!furthest ask met b) = true := by
      intro b hb
      have hlt := hbefore b hb
      simp only [furthest, Bool.not_eq_true', all_eq_false, decide_eq_true_eq]
      exact ⟨r, by simp [hmet], by omega⟩
    rw [hbest]
    nth_rewrite 2 [hmet]
    rw [dropWhile_append_of_pos hbehind, dropWhile_cons_of_neg (by simp [hfront])]

theorem best_choose_some (replicas : List String) :
    (choose (some ask) dead replicas Choice.unmade).best =
      (((replicas.filter (· ≠ dead)).dropWhile (!furthest ask (replicas.filter (· ≠ dead)) ·)).find?
        (· ≠ "")).getD "" :=
  (Choice.Of.unmade.choose replicas).dropWhile_front

theorem best_choose_none (replicas : List String) :
    (choose none dead replicas Choice.unmade).best = (replicas.filter (· ≠ dead)).headD "" := by
  induction replicas with
  | nil => rfl
  | cons replica rest ih =>
    by_cases hdead : replica = dead
    · simpa [choose, hdead] using ih
    · simp [choose, hdead, Choice.meet, Choice.unmade]

theorem choose_spec (progress : Option (String → Option UInt64)) (replicas : List String) :
    (replicas.filter (· ≠ dead) = [] → (choose progress dead replicas Choice.unmade).best = "") ∧
      ((choose progress dead replicas Choice.unmade).best ≠ "" ∧
        Furthest progress (replicas.filter (· ≠ dead))
          (choose progress dead replicas Choice.unmade).best ↔
        undisturbed progress (replicas.filter (· ≠ dead)) = true) := by
  generalize hothers : replicas.filter (· ≠ dead) = others
  cases progress with
  | none =>
    rw [best_choose_none, hothers]
    cases others with
    | nil => simp [undisturbed]
    | cons r rest => simpa [undisturbed] using fun _ => ⟨by simp, by simp⟩
  | some ask =>
    rw [best_choose_some, hothers, undisturbed]
    refine ⟨by rintro rfl; rfl, ?_⟩
    cases hfind : (others.dropWhile (!furthest ask others ·)).find? (· ≠ "") with
    | none => simp
    | some r =>
      have hnamed : r ≠ "" := by simpa using find?_some hfind
      have hmem : r ∈ others :=
        (dropWhile_sublist _).subset (mem_of_find?_eq_some hfind)
      simp only [Option.getD_some, Option.any_some, furthest_iff]
      constructor
      · exact fun h => h.2.bound ask rfl
      · exact fun h => ⟨hnamed, hmem, fun _ hask => Option.some.inj hask ▸ h⟩

end Choosing

theorem forall_mem_takeWhile_iff {α : Type} {p : α → Bool} {l : List α} (hnodup : l.Nodup) :
    (∀ a ∈ l, p a = true → a ∈ l.takeWhile p) ↔ l.Pairwise fun a b => p a = false → p b = false := by
  induction l with
  | nil => simp
  | cons a l ih =>
    obtain ⟨ha, hnodup⟩ := nodup_cons.mp hnodup
    rw [pairwise_cons, ← ih hnodup, forall_mem_cons]
    cases hpa : p a with
    | false =>
      rw [takeWhile_cons_of_neg (by simp [hpa])]
      constructor
      · intro h
        have hall : ∀ b ∈ l, p b = false := fun b hb =>
          Bool.eq_false_iff.mpr fun hpb => not_mem_nil (h.2 b hb hpb)
        exact ⟨fun b hb _ => hall b hb, fun b hb hpb => absurd hpb (by simp [hall b hb])⟩
      · intro h
        exact ⟨fun hfalse => absurd hfalse (by simp), fun b hb hpb => absurd hpb (by simp [h.1 b hb rfl])⟩
    | true =>
      rw [takeWhile_cons_of_pos hpa]
      constructor
      · intro h
        refine ⟨fun _ _ hfalse => absurd hfalse (by simp), fun b hb hpb => ?_⟩
        rcases mem_cons.mp (h.2 b hb hpb) with rfl | hmem
        · exact absurd hb ha
        · exact hmem
      · intro h
        exact ⟨fun _ => mem_cons_self, fun b hb hpb => mem_cons_of_mem _ (h.2 b hb hpb)⟩

section Loop
variable {E : Type} {answer : ℕ → Answer E} (progress : Progress) {dead : String}

def ledBy (dead : String) (entries : List (ℤ × String)) : List ℤ :=
  (entries.filter (·.2 = dead)).map (·.1)

def State.promotions (s : State) (progress : Progress) (dead : String) (shards : List ℤ) : List Command :=
  (shards.takeWhile fun shard => s.replacement progress dead shard ≠ "").map fun shard =>
    setShardLeader shard (s.replacement progress dead shard)

theorem State.applyAll_setShardLeader (leader : ℤ → String) (shards : List ℤ) (s : State) :
    (s.applyAll (shards.map fun shard => setShardLeader shard (leader shard))).shardReplicas =
        s.shardReplicas ∧
      ∀ shard, (s.applyAll (shards.map fun shard => setShardLeader shard (leader shard))).shardLeader[shard]? =
        if shard ∈ shards then some (leader shard) else s.shardLeader[shard]? := by
  induction shards using List.reverseRecOn with
  | nil => simp [State.applyAll]
  | append_singleton shards last ih =>
    simp only [State.applyAll, map_append, map_cons, map_nil, foldl_append,
      foldl_cons, foldl_nil] at ih ⊢
    refine ⟨ih.1, fun shard => ?_⟩
    simp only [State.apply, setShardLeader, ExtTreeMap.getElem?_insert] at ih ⊢
    by_cases hlast : last = shard
    · simp [hlast]
    · simp [hlast, Ne.symm hlast, ih.2 shard]

theorem State.replacement_congr {s s' : State} (h : s'.shardReplicas = s.shardReplicas) :
    s'.replacement progress dead = s.replacement progress dead := by
  funext shard
  simp only [State.replacement, State.replicasOf, h]

theorem failoverShardLeader_run (hall : ∀ i, answer i = .committed) {s : Session} {shard : ℤ}
    (hleader : s.state.shardLeader[shard]? = some dead) :
    (failoverShardLeader answer progress shard dead).run.run s =
      if s.state.replacement progress dead shard = "" then (.error (.noReplica shard), s)
      else (.ok (), ⟨s.state.apply (setShardLeader shard (s.state.replacement progress dead shard)),
        s.proposed ++ [setShardLeader shard (s.state.replacement progress dead shard)]⟩) := by
  have hget : (get : Proposing (FailoverError E) Session).run.run s = (.ok s, s) := rfl
  have hled : ¬ s.state.leaderOf shard ≠ dead := by simp [State.leaderOf, hleader]
  rw [failoverShardLeader, run_bind_ok hget, if_neg hled]
  by_cases hnobody : s.state.replacement progress dead shard = ""
  · simp only [hnobody, if_true]
    rfl
  · simp only [hnobody, if_false]
    rw [ExceptT.run_adapt, StateT.run_map, propose_committed hall]
    rfl

theorem failover_loop (hall : ∀ i, answer i = .committed) {entries : List (ℤ × String)}
    (hnodup : (entries.map (·.1)).Nodup) {s : Session}
    (hentries : ∀ entry ∈ entries, s.state.shardLeader[entry.1]? = some entry.2) :
    ((forM entries fun entry => if entry.2 ≠ dead then pure ()
        else failoverShardLeader answer progress entry.1 dead).run.run s).2.state =
      s.state.applyAll (s.state.promotions progress dead (ledBy dead entries)) := by
  induction entries generalizing s with
  | nil => rfl
  | cons entry entries ih =>
    obtain ⟨shard, leader⟩ := entry
    obtain ⟨hnew, hnodup⟩ := nodup_cons.mp hnodup
    obtain ⟨hentry, hrest⟩ := forall_mem_cons.mp hentries
    rw [forM_cons]
    by_cases hdead : leader = dead
    · subst hdead
      have hrun := failoverShardLeader_run progress hall hentry
      have hledBy : ledBy leader ((shard, leader) :: entries) = shard :: ledBy leader entries := by
        simp [ledBy]
      simp only [ne_eq, not_true_eq_false, if_false]
      rw [hledBy, State.promotions]
      by_cases hnobody : s.state.replacement progress leader shard = ""
      · rw [if_pos hnobody] at hrun
        rw [ExceptT.run_bind, StateT.run_bind, hrun, takeWhile_cons_of_neg (by simpa using hnobody)]
        rfl
      · rw [if_neg hnobody] at hrun
        rw [run_bind_ok hrun, ih hnodup, takeWhile_cons_of_pos (by simpa using hnobody)]
        · rw [State.promotions, State.replacement_congr progress (s := s.state) rfl]
          rfl
        · intro other hother
          have hne : shard ≠ other.1 := fun heq =>
            hnew (mem_map.mpr ⟨other, hother, heq.symm⟩)
          simpa [State.apply, setShardLeader, ExtTreeMap.getElem?_insert, hne] using hrest other hother
    · have hledBy : ledBy dead ((shard, leader) :: entries) = ledBy dead entries := by
        simp [ledBy, hdead]
      have hskip : (pure () : Proposing (FailoverError E) Unit).run.run s = (.ok (), s) := rfl
      simp only [ne_eq, hdead, not_false_eq_true, if_true]
      rw [run_bind_ok hskip, ih hnodup hrest, hledBy]

/-- Every shard that can be taken over has been, by a replica that has got furthest, and the shards of
other leaders are as they were. -/
structure FailedOver (progress : Progress) (dead : String) (s s' : State) : Prop where
  led : ∀ shard, s.shardLeader[shard]? = some dead → s.others dead shard ≠ [] →
    ∃ best, s'.shardLeader[shard]? = some best ∧
      Furthest (progress.map (· shard)) (s.others dead shard) best
  rest : ∀ shard, s.shardLeader[shard]? ≠ some dead → s'.entry shard = s.entry shard

theorem failoverNode_state (hall : ∀ i, answer i = .committed) (visit : MapOrder (ℤ × String)) (s : Session) :
    ((failoverNode answer progress visit dead).run.run s).2.state = s.state.applyAll
        (s.state.promotions progress dead (ledBy dead (visit.list s.state.shardLeader.toList))) := by
  have hget : (get : Proposing (FailoverError E) Session).run.run s = (.ok s, s) := rfl
  have hperm := visit.perm s.state.shardLeader.toList
  rw [failoverNode, run_bind_ok hget]
  refine failover_loop progress hall ?_ fun entry hentry => ?_
  · refine (hperm.map Prod.fst).nodup_iff.mpr ?_
    rw [ExtTreeMap.map_fst_toList_eq_keys]
    exact ExtTreeMap.nodup_keys
  · exact ExtTreeMap.mem_toList_iff_getElem?_eq_some.mp (hperm.mem_iff.mp hentry)

theorem mem_ledBy (visit : MapOrder (ℤ × String)) {s : State} {shard : ℤ} :
    shard ∈ ledBy dead (visit.list s.shardLeader.toList) ↔ s.shardLeader[shard]? = some dead := by
  simp only [ledBy, mem_map, mem_filter, (visit.perm _).mem_iff, Prod.exists,
    ExtTreeMap.mem_toList_iff_getElem?_eq_some, decide_eq_true_eq]
  constructor
  · rintro ⟨_, _, ⟨h, rfl⟩, rfl⟩
    exact h
  · exact fun h => ⟨shard, dead, ⟨h, rfl⟩, rfl⟩

theorem nodup_ledBy (visit : MapOrder (ℤ × String)) (s : State) :
    (ledBy dead (visit.list s.shardLeader.toList)).Nodup := by
  have hkeys : ((visit.list s.shardLeader.toList).map (·.1)).Nodup := by
    refine ((visit.perm _).map _).nodup_iff.mpr ?_
    rw [ExtTreeMap.map_fst_toList_eq_keys]
    exact ExtTreeMap.nodup_keys
  exact hkeys.sublist (filter_sublist.map _)

theorem State.replacement_spec (s : State) (dead : String) (shard : ℤ) :
    (s.others dead shard = [] → s.replacement progress dead shard = "") ∧
      (s.replacement progress dead shard ≠ "" ∧ Furthest (progress.map (· shard)) (s.others dead shard)
        (s.replacement progress dead shard) ↔
        undisturbed (progress.map (· shard)) (s.others dead shard) = true) := by
  rw [State.replacement, State.others]
  exact choose_spec _ _

theorem State.promoted_iff {s : State} {shards : List ℤ} {shard : ℤ}
    (hled : s.shardLeader[shard]? = some dead) :
    (∃ best, (s.applyAll (s.promotions progress dead shards)).shardLeader[shard]? = some best ∧
        Furthest (progress.map (· shard)) (s.others dead shard) best) ↔
      shard ∈ (shards.takeWhile fun shard => s.replacement progress dead shard ≠ "") ∧
        undisturbed (progress.map (· shard)) (s.others dead shard) = true := by
  rw [State.promotions, (State.applyAll_setShardLeader _ _ s).2 shard, ← (s.replacement_spec progress dead shard).2]
  split
  · next hmem =>
    have hnamed : s.replacement progress dead shard ≠ "" := by
      simpa using all_eq_true.mp all_takeWhile shard hmem
    constructor
    · rintro ⟨best, hbest, hfurthest⟩
      obtain rfl := Option.some.inj hbest
      exact ⟨hmem, hnamed, hfurthest⟩
    · exact fun h => ⟨_, rfl, h.2.2⟩
  · next hmem =>
    refine iff_of_false ?_ fun h => hmem h.1
    rintro ⟨best, hbest, hfurthest⟩
    rw [hled] at hbest
    obtain rfl := Option.some.inj hbest
    simpa [State.others] using hfurthest.mem

end Loop

section Covering
variable {E : Type} (answer : ℕ → Answer E) (progress : Progress) (visit : MapOrder (ℤ × String))
  (dead : String)

/-- Failing over reaches every shard that can fail over exactly if no shard that cannot is met before
one that can, and the empty name is nowhere in the way. -/
theorem failover_covers_iff (hall : ∀ i, answer i = .committed) (s : Session) :
    FailedOver progress dead s.state ((failoverNode answer progress visit dead).run.run s).2.state ↔
      ((ledBy dead (visit.list s.state.shardLeader.toList)).Pairwise fun shard later =>
          s.state.others dead shard = [] → s.state.others dead later = []) ∧
        ∀ shard, s.state.shardLeader[shard]? = some dead → s.state.others dead shard ≠ [] →
          undisturbed (progress.map (· shard)) (s.state.others dead shard) = true := by
  rw [failoverNode_state progress hall]
  have hnodup : (ledBy dead (visit.list s.state.shardLeader.toList)).Nodup := nodup_ledBy visit s.state
  have hled : ∀ shard, shard ∈ ledBy dead (visit.list s.state.shardLeader.toList) ↔
      s.state.shardLeader[shard]? = some dead := fun _ => mem_ledBy visit
  generalize ledBy dead (visit.list s.state.shardLeader.toList) = led at hnodup hled ⊢
  simp only [← hled]
  -- If nothing is in the way, the loop ends at a shard exactly if it has no other replica.
  have hreached : (∀ shard ∈ led, s.state.others dead shard ≠ [] →
      undisturbed (progress.map (· shard)) (s.state.others dead shard) = true) →
      ((∀ shard ∈ led, s.state.others dead shard ≠ [] →
          shard ∈ led.takeWhile fun shard => s.state.replacement progress dead shard ≠ "") ↔
        led.Pairwise fun shard later =>
          s.state.others dead shard = [] → s.state.others dead later = []) := by
    intro hclear
    have hends : ∀ shard ∈ led, s.state.replacement progress dead shard = "" ↔
        s.state.others dead shard = [] := by
      intro shard hshard
      have hspec := s.state.replacement_spec progress dead shard
      refine ⟨fun hempty => ?_, hspec.1⟩
      by_contra hothers
      exact (hspec.2.mpr (hclear shard hshard hothers)).1 hempty
    have hpairwise := forall_mem_takeWhile_iff
      (p := fun shard => decide (s.state.replacement progress dead shard ≠ "")) hnodup
    simp only [decide_eq_true_eq, decide_eq_false_iff_not, not_not] at hpairwise
    rw [List.Pairwise.iff_of_mem fun ha hb => by rw [← hends _ ha, ← hends _ hb], ← hpairwise]
    exact forall₂_congr fun shard hshard => by rw [ne_eq, ne_eq, hends shard hshard]
  constructor
  · intro h
    have hboth := fun shard (hshard : shard ∈ led) hothers =>
      (State.promoted_iff progress ((hled shard).mp hshard)).mp (h.led shard ((hled shard).mp hshard) hothers)
    have hclear := fun shard hshard hothers => (hboth shard hshard hothers).2
    exact ⟨(hreached hclear).mp fun shard hshard hothers => (hboth shard hshard hothers).1, hclear⟩
  · rintro ⟨hpairwise, hclear⟩
    refine ⟨fun shard hshard hothers => (State.promoted_iff progress hshard).mpr ?_, fun shard hother => ?_⟩
    · have hmem := (hled shard).mpr hshard
      exact ⟨(hreached hclear).mpr hpairwise shard hmem hothers, hclear shard hmem hothers⟩
    · have hleaders := State.applyAll_setShardLeader (s.state.replacement progress dead)
        (led.takeWhile fun shard => s.state.replacement progress dead shard ≠ "") s.state
      have hnot : shard ∉ led.takeWhile fun shard => s.state.replacement progress dead shard ≠ "" :=
        fun hmem => hother ((hled shard).mp ((takeWhile_sublist _).subset hmem))
      simp only [State.entry, State.promotions, hleaders.1, hleaders.2 shard, if_neg hnot]

end Covering

def leadsTwo : Session :=
  ⟨State.new.applyAll [setShardLeader 0 "a", setShardLeader 1 "a", addShardReplica 1 "b",
    addShardReplica 1 "c"], []⟩

def ahead : Progress := some fun _ node => if node = "b" then some 3 else some 5

def committing (_ : ℕ) : Answer Empty := .committed

theorem lone_shard_met_last : FailedOver ahead "a" leadsTwo.state
        ((failoverNode committing ahead .reversed "a").run.run leadsTwo).2.state ∧
      ((failoverNode committing ahead .reversed "a").run.run leadsTwo).2.state.leaderOf 1 = "c" := by
  refine ⟨(failover_covers_iff committing ahead .reversed "a" (fun _ => rfl) leadsTwo).mpr
    ⟨by decide +kernel, fun shard hled => ?_⟩, by decide +kernel⟩
  have hshards : ∀ shard ∈ ledBy "a" (MapOrder.reversed.list leadsTwo.state.shardLeader.toList),
      leadsTwo.state.others "a" shard ≠ [] →
        undisturbed (ahead.map (· shard)) (leadsTwo.state.others "a" shard) = true := by
    decide +kernel
  exact hshards shard ((mem_ledBy .reversed).mpr hled)

/-- The shard that nobody else has comes first, and the other one keeps its dead leader. -/
theorem lone_shard_stops_failover : leadsTwo.state.others "a" 1 = ["b", "c"] ∧
      ((failoverNode committing ahead .listed "a").run.run leadsTwo).2.state.leaderOf 1 = "a" ∧
      ¬ FailedOver ahead "a" leadsTwo.state
        ((failoverNode committing ahead .listed "a").run.run leadsTwo).2.state := by
  have hothers : leadsTwo.state.others "a" 1 = ["b", "c"] := by decide +kernel
  have hstays : ((failoverNode committing ahead .listed "a").run.run leadsTwo).2.state.shardLeader[(1 : ℤ)]? =
      some "a" := by decide +kernel
  refine ⟨hothers, by rw [State.leaderOf, hstays]; rfl, fun h => ?_⟩
  obtain ⟨best, hbest, hfurthest⟩ := h.led 1 (by decide +kernel) (by simp [hothers])
  rw [hstays] at hbest
  obtain rfl := Option.some.inj hbest
  simpa [State.others] using hfurthest.mem

end NuclaDB.Topology
