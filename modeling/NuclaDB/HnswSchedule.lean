import NuclaDB.HnswRun

/-!
# The parallel stages of a chunk

The tasks of a stage of a chunk run in some order, a `Schedule`; `parallel` lets its
goroutines take the tasks' numbers from one counter.
-/

namespace NuclaDB.Hnsw

open List

inductive Stage
  | search
  | link
  | join
deriving DecidableEq, Repr

structure Schedule where
  order : Stage → ℕ → List ℕ
  order_perm (stage : Stage) (n : ℕ) : (order stage n).Perm (range n)

def Schedule.inOrder : Schedule := ⟨fun _ n => range n, fun _ _ => .rfl⟩

def Schedule.parallel {σ : Type*} (s : Schedule) (stage : Stage) (n : ℕ) (task : σ → ℕ → σ)
    (st : σ) : σ :=
  (s.order stage n).foldl task st

/-- What the search stage leaves for the other two: for each node and layer its candidates and its
chunk-mates. -/
structure ChunkWork (D : Type) where
  candidates : List (List (List (Candidate D)))
  mates : List (List (List (Candidate D)))

section Model
variable {D : Type} [Dist D]

namespace Graph

variable (g : Graph D) (chunk : List ChunkNode)

def nodeFound (k : ℕ) : List (List (Candidate D)) :=
  (chunk[k]?.map g.chunkFound).getD []

def nodeMates (k : ℕ) : List (List (Candidate D)) :=
  (chunk[k]?.map fun nd =>
    (range (nd.level + 1)).map (g.mates g.nodes.length (chunk.take k) nd)).getD []

def searchTask (work : ChunkWork D) (k : ℕ) : ChunkWork D :=
  { candidates := work.candidates.set k (g.nodeFound chunk k)
    mates := work.mates.set k (g.nodeMates chunk k) }

def workPicks (h : Graph D) (work : ChunkWork D) (k l : ℕ) : List ℕ :=
  let found := (work.candidates.getD k []).getD l []
  let mates := (work.mates.getD k []).getD l []
  h.selectNeighbors (mergeClosest found mates (found.length + mates.length)) (h.maxLinks l)

def linkTask (base : ℕ) (chunk : List ChunkNode) (work : ChunkWork D) (h : Graph D) (k : ℕ) : Graph D :=
  match chunk[k]? with
  | none => h
  | some nd => (range (nd.level + 1)).foldl
      (fun h l => h.setLinks (base + k) l (h.workPicks work k l)) h

def joinTask (groups : List ((ℕ × ℕ) × List ℕ)) (h : Graph D) (i : ℕ) : Graph D :=
  match groups[i]? with
  | none => h
  | some up => h.addLinks up.1.1 up.2 up.1.2 (h.maxLinks up.1.2)

def scheduledChunk (s : Schedule) (chunk : List ChunkNode) : Graph D :=
  let base := g.nodes.length
  let n := chunk.length
  let work := s.parallel .search n (g.searchTask chunk) ⟨replicate n [], replicate n []⟩
  let h := s.parallel .link n (linkTask base chunk work) (g.placedChunk chunk)
  let groups := h.backLinks base chunk
  (s.parallel .join groups.length (joinTask groups) h).settle base chunk.zipIdx

end Graph

end Model

section Commute
variable {D : Type} {g : Graph D}

theorem Node.getElem?_setLayer (nd : Node) (l k : ℕ) (ids : List ℕ) :
    (nd.setLayer l ids).neighbors[k]? = if k = l then some ids
      else if k < max nd.neighbors.length (l + 1) then some (nd.neighbors.getD k []) else none := by
  simp only [setLayer, getD_eq_getElem?_getD, getElem?_set, getElem?_append,
    getElem?_replicate, length_append, length_replicate]
  grind

theorem Node.length_setLayer (nd : Node) (l : ℕ) (ids : List ℕ) :
    (nd.setLayer l ids).neighbors.length = max nd.neighbors.length (l + 1) := by
  simp only [setLayer, length_set, length_append, length_replicate]
  omega

theorem Node.setLayer_comm (nd : Node) {l l' : ℕ} (hne : l ≠ l') (ids ids' : List ℕ) :
    (nd.setLayer l ids).setLayer l' ids' = (nd.setLayer l' ids').setLayer l ids := by
  have hlists : ((nd.setLayer l ids).setLayer l' ids').neighbors =
      ((nd.setLayer l' ids').setLayer l ids).neighbors := by
    refine ext_getElem? fun k => ?_
    simp only [getElem?_setLayer, setLayer_getD, length_setLayer]
    by_cases hk : k = l
    · subst hk
      have hlt : k < max (max nd.neighbors.length (k + 1)) (l' + 1) := by omega
      simp only [if_neg hne, if_pos hlt, if_true]
    · by_cases hk' : k = l'
      · subst hk'
        have hlt : k < max (max nd.neighbors.length (k + 1)) (l + 1) := by omega
        simp only [if_neg hk, if_pos hlt, if_true]
      · simp [hk, hk', Nat.max_assoc, Nat.max_comm (l + 1)]
  exact congrArg (fun lists => { nd with neighbors := lists }) hlists

namespace Graph

theorem modify_comm {α : Type*} {f f' : α → α} {i j : ℕ} (hcomm : i = j → ∀ a, f (f' a) = f' (f a))
    (xs : List α) : (xs.modify j f').modify i f = (xs.modify i f).modify j f' := by
  refine ext_getElem? fun k => ?_
  simp only [getElem?_modify]
  cases xs[k]? with
  | none => grind
  | some a => grind

theorem setLinks_comm (g : Graph D) {s l s' l' : ℕ} (hne : (s, l) ≠ (s', l')) (ids ids' : List ℕ) :
    (g.setLinks s l ids).setLinks s' l' ids' = (g.setLinks s' l' ids').setLinks s l ids := by
  by_cases hl : l = 0
  · subst hl
    by_cases hl' : l' = 0
    · subst hl'
      have hs : s ≠ s' := fun h => hne (by rw [h])
      simp [setLinks, set_comm _ _ hs]
    · simp [setLinks, hl']
  · by_cases hl' : l' = 0
    · simp [setLinks, hl, hl']
    · have hnodes : (g.nodes.modify s fun nd => nd.setLayer l ids).modify s'
          (fun nd => nd.setLayer l' ids') = (g.nodes.modify s' fun nd => nd.setLayer l' ids').modify s
          fun nd => nd.setLayer l ids := by
        refine modify_comm (fun hs nd => ?_) g.nodes
        exact nd.setLayer_comm (fun h => hne (by rw [h, hs])) ids ids'
      simp [setLinks, hl, hl', hnodes]

theorem setAll_perm {ups vps : List ((ℕ × ℕ) × List ℕ)} (hperm : ups.Perm vps)
    (hkeys : (ups.map (·.1)).Nodup) : g.setAll ups = g.setAll vps := by
  refine hperm.foldl_eq' (fun up hup vp hvp h => ?_) g
  by_cases heq : up = vp
  · rw [heq]
  · exact h.setLinks_comm (fun hkey => heq (inj_on_of_nodup_map hkeys hup hvp hkey)) _ _

section Add
variable [Dist D]

theorem addLinks_comm (h : Graph D) {up vp : (ℕ × ℕ) × List ℕ} (hne : up.1 ≠ vp.1) :
    (h.addLinks up.1.1 up.2 up.1.2 (h.maxLinks up.1.2)).addLinks vp.1.1 vp.2 vp.1.2
        ((h.addLinks up.1.1 up.2 up.1.2 (h.maxLinks up.1.2)).maxLinks vp.1.2) =
      (h.setLinks up.1.1 up.1.2 (h.mergedLinks up.1.1 up.2 up.1.2 (h.maxLinks up.1.2))).setLinks
        vp.1.1 vp.1.2 (h.mergedLinks vp.1.1 vp.2 vp.1.2 (h.maxLinks vp.1.2)) := by
  have hb := h.bare_setLinks up.1.1 up.1.2 (h.mergedLinks up.1.1 up.2 up.1.2 (h.maxLinks up.1.2))
  simp only [addLinks, maxLinks_of_bare hb]
  rw [mergedLinks_of_bare hb (links_setLinks_ne (Ne.symm hne))]

theorem addAll_perm {ups vps : List ((ℕ × ℕ) × List ℕ)} (hperm : ups.Perm vps)
    (hkeys : (ups.map (·.1)).Nodup) : g.addAll ups = g.addAll vps := by
  refine hperm.foldl_eq' (fun up hup vp hvp h => ?_) g
  by_cases heq : up = vp
  · rw [heq]
  · have hne : up.1 ≠ vp.1 := fun hkey => heq (inj_on_of_nodup_map hkeys hup hvp hkey)
    rw [addLinks_comm h hne, addLinks_comm h (Ne.symm hne)]
    exact h.setLinks_comm hne _ _

end Add

end Graph

end Commute

section Stages
variable {D : Type} [Dist D] {g : Graph D} {chunk : List ChunkNode}

theorem getElem?_foldl_set {α : Type*} (f : ℕ → α) (order : List ℕ) (xs : List α) (k : ℕ) :
    (order.foldl (fun xs i => xs.set i (f i)) xs)[k]? =
      if k ∈ order then xs[k]?.map fun _ => f k else xs[k]? := by
  induction order generalizing xs with
  | nil => simp
  | cons i order ih =>
    rw [foldl_cons, ih, getElem?_set]
    by_cases hk : k = i
    · subst hk
      cases hx : xs[k]? <;> grind
    · simp [hk, Ne.symm hk]

theorem foldl_set_order {α : Type*} (f : ℕ → α) {n : ℕ} {order : List ℕ}
    (horder : order.Perm (range n)) (a : α) :
    order.foldl (fun xs i => xs.set i (f i)) (replicate n a) = (range n).map f := by
  refine ext_getElem? fun k => ?_
  simp only [getElem?_foldl_set, horder.mem_iff, mem_range, getElem?_replicate, getElem?_map]
  by_cases hk : k < n <;> simp [hk]

theorem flatMap_range {α β : Type*} (f : α → ℕ → List β) (xs : List α) :
    ((range xs.length).flatMap fun k => (xs[k]?.map (f · k)).getD []) =
      xs.zipIdx.flatMap fun p => f p.1 p.2 := by
  induction xs using reverseRecOn with
  | nil => rfl
  | append_singleton xs x ih =>
    rw [length_append, length_singleton, range_succ, flatMap_append, zipIdx_append, flatMap_append, ← ih]
    congr 1
    · refine flatMap_congr fun k hk => ?_
      rw [getElem?_append_left (mem_range.mp hk)]
    · simp

namespace Graph

theorem search_stage (g : Graph D) (s : Schedule) (chunk : List ChunkNode) :
    s.parallel .search chunk.length (g.searchTask chunk)
        ⟨replicate chunk.length [], replicate chunk.length []⟩ =
      ⟨(range chunk.length).map (g.nodeFound chunk),
        (range chunk.length).map (g.nodeMates chunk)⟩ := by
  have hsplit : ∀ (order : List ℕ) (work : ChunkWork D), order.foldl (g.searchTask chunk) work =
      ⟨order.foldl (fun xs i => xs.set i (g.nodeFound chunk i)) work.candidates,
        order.foldl (fun xs i => xs.set i (g.nodeMates chunk i)) work.mates⟩ := by
    intro order
    induction order with
    | nil => exact fun _ => rfl
    | cons k order ih => exact fun work => ih _
  have horder := s.order_perm .search chunk.length
  rw [Schedule.parallel, hsplit, foldl_set_order _ horder, foldl_set_order _ horder]

def taskUps (h : Graph D) (base : ℕ) (chunk : List ChunkNode) (work : ChunkWork D) (k : ℕ) :
    List ((ℕ × ℕ) × List ℕ) :=
  (chunk[k]?.map fun nd =>
    (range (nd.level + 1)).map fun l => ((base + k, l), h.workPicks work k l)).getD []

theorem workPicks_of_bare {h placed : Graph D} (hb : h.bare = placed.bare) (work : ChunkWork D)
    (k l : ℕ) : h.workPicks work k l = placed.workPicks work k l := by
  simp only [workPicks, maxLinks_of_bare hb, selectNeighbors_of_bare hb]

theorem linkTask_eq (base : ℕ) (chunk : List ChunkNode) (work : ChunkWork D) {h placed : Graph D}
    (hb : h.bare = placed.bare) (k : ℕ) :
    linkTask base chunk work h k = h.setAll (placed.taskUps base chunk work k) := by
  have hlayers : ∀ (layers : List ℕ) (h : Graph D), h.bare = placed.bare →
      layers.foldl (fun h l => h.setLinks (base + k) l (h.workPicks work k l)) h =
        h.setAll (layers.map fun l => ((base + k, l), placed.workPicks work k l)) := by
    intro layers
    induction layers with
    | nil => exact fun _ _ => rfl
    | cons l layers ih =>
      intro h hb
      rw [foldl_cons, workPicks_of_bare hb, ih _ ((bare_setLinks ..).trans hb)]
      rfl
  simp only [linkTask, taskUps]
  cases chunk[k]? with
  | none => rfl
  | some nd => exact hlayers _ h hb

omit [Dist D] in
theorem setAll_append (ups vps : List ((ℕ × ℕ) × List ℕ)) :
    g.setAll (ups ++ vps) = (g.setAll ups).setAll vps := by
  simp only [setAll, foldl_append]

theorem link_stage (s : Schedule) (base : ℕ) (chunk : List ChunkNode) (work : ChunkWork D)
    (placed : Graph D)
    (hkeys : (((range chunk.length).flatMap (placed.taskUps base chunk work)).map (·.1)).Nodup) :
    s.parallel .link chunk.length (linkTask base chunk work) placed =
      placed.setAll ((range chunk.length).flatMap (placed.taskUps base chunk work)) := by
  have hall : ∀ (order : List ℕ) (h : Graph D), h.bare = placed.bare →
      order.foldl (linkTask base chunk work) h =
        h.setAll (order.flatMap (placed.taskUps base chunk work)) := by
    intro order
    induction order with
    | nil => exact fun _ _ => rfl
    | cons k order ih =>
      intro h hb
      rw [foldl_cons, linkTask_eq base chunk work hb, ih _ ((bare_setAll ..).trans hb),
        flatMap_cons, setAll_append]
  rw [Schedule.parallel, hall _ placed rfl]
  exact (setAll_perm ((s.order_perm .link chunk.length).symm.flatMap_right _) hkeys).symm

theorem join_stage (s : Schedule) {groups : List ((ℕ × ℕ) × List ℕ)}
    (hkeys : (groups.map (·.1)).Nodup) (h : Graph D) :
    s.parallel .join groups.length (joinTask groups) h = h.addAll groups := by
  have hall : ∀ (order : List ℕ) (h : Graph D), order.foldl (joinTask groups) h =
      h.addAll (order.flatMap fun i => (groups[i]?.map fun up => [up]).getD []) := by
    intro order
    induction order with
    | nil => exact fun _ => rfl
    | cons i order ih =>
      intro h
      rw [foldl_cons, ih, flatMap_cons, addAll_append, joinTask]
      cases groups[i]? with
      | none => rfl
      | some up => rfl
  have hsame : ((range groups.length).flatMap fun i =>
      (groups[i]?.map fun up => [up]).getD []) = groups := by
    rw [flatMap_range (fun up _ => [up]), ← map_eq_flatMap]
    exact zipIdx_map_fst ..
  have hperm := (s.order_perm .join groups.length).symm.flatMap_right fun i =>
    (groups[i]?.map fun up => [up]).getD []
  rw [hsame] at hperm
  rw [Schedule.parallel, hall]
  exact (addAll_perm hperm hkeys).symm

omit [Dist D] in
theorem placedChunk_cfg (g : Graph D) (chunk : List ChunkNode) : (g.placedChunk chunk).cfg = g.cfg := by
  refine foldl_same (p := fun h : Graph D => h.cfg) (fun h nd => ?_) chunk.zipIdx g
  rfl

theorem taskUps_eq_chunkUps (g : Graph D) (chunk : List ChunkNode) :
    (range chunk.length).flatMap ((g.placedChunk chunk).taskUps g.nodes.length chunk
      ⟨(range chunk.length).map (g.nodeFound chunk),
        (range chunk.length).map (g.nodeMates chunk)⟩) =
      g.chunkUps (g.placedChunk chunk) g.nodes.length chunk := by
  have hlinks : ∀ l, (g.placedChunk chunk).maxLinks l = g.maxLinks l := fun l => by
    simp only [maxLinks, placedChunk_cfg]
  rw [chunkUps, ← flatMap_range fun nd k => (range (nd.level + 1)).map fun l =>
    ((g.nodes.length + k, l), g.chunkPicks (g.placedChunk chunk) g.nodes.length (chunk.take k) nd l)]
  refine flatMap_congr fun k hk => ?_
  have hlt : k < chunk.length := mem_range.mp hk
  have hnd := getElem?_eq_getElem hlt
  simp only [taskUps, hnd, Option.map_some, Option.getD_some]
  refine map_congr_left fun l hl => ?_
  have hfound : ((range chunk.length).map (g.nodeFound chunk)).getD k [] =
      g.chunkFound chunk[k] := by
    simp [nodeFound, hlt]
  have hmates : (((range chunk.length).map (g.nodeMates chunk)).getD k []).getD l [] =
      g.mates g.nodes.length (chunk.take k) chunk[k] l := by
    simp [nodeMates, hlt, mem_range.mp hl]
  simp only [workPicks, chunkPicks, hlinks, hfound, hmates]

end Graph

/-- Whatever order the tasks of a chunk's stages run in, the chunk leaves the same graph: the nodes,
the link lists, the entry point, the top layer and the count are those of the index order. -/
theorem chunk_independent_of_schedule (g : Graph D) (chunk : List ChunkNode) (s : Schedule) :
    g.scheduledChunk s chunk = g.scheduledChunk .inOrder chunk ∧ g.scheduledChunk s chunk =
        (g.joinedChunk chunk).settle g.nodes.length chunk.zipIdx := by
  have hany : ∀ s : Schedule, g.scheduledChunk s chunk =
      (g.joinedChunk chunk).settle g.nodes.length chunk.zipIdx := by
    intro s
    simp only [Graph.scheduledChunk, Graph.search_stage]
    rw [Graph.link_stage s, Graph.taskUps_eq_chunkUps, ← Graph.linkChunk_eq_setAll,
      Graph.join_stage s (Graph.backLinks_keys ..)]
    · rfl
    · rw [Graph.taskUps_eq_chunkUps]
      exact Graph.chunkUps_keys ..
  exact ⟨(hany s).trans (hany .inOrder).symm, hany s⟩

end Stages

section Pool

/-- The goroutines of `parallel`: `asking` are about to take a number off the counter, and `ran` are the
tasks that have ended, in order. -/
structure Pool where
  next : ℕ
  asking : ℕ
  running : List ℕ
  returned : ℕ
  ran : List ℕ

inductive Turn
  | ask
  | finish (k : ℕ)

namespace Pool

def start (n workers : ℕ) : Pool := ⟨0, min workers n, [], 0, []⟩

def step (n : ℕ) (p : Pool) : Turn → Pool
  | .ask =>
    if p.asking = 0 then p
    else if p.next < n then
      { p with next := p.next + 1, asking := p.asking - 1, running := p.next :: p.running }
    else { p with next := p.next + 1, asking := p.asking - 1, returned := p.returned + 1 }
  | .finish k =>
    if k ∈ p.running then
      { p with asking := p.asking + 1, running := p.running.erase k, ran := p.ran ++ [k] }
    else p

structure Inv (n size : ℕ) (p : Pool) : Prop where
  size : p.asking + p.running.length + p.returned = size
  calls : (p.ran ++ p.running).Perm (range (min p.next n))
  returned : 0 < p.returned → n ≤ p.next

variable {n size : ℕ} {p : Pool}

theorem Inv.step (h : p.Inv n size) (turn : Turn) : (p.step n turn).Inv n size := by
  have hsize := h.size
  have hcalls := h.calls
  cases turn with
  | ask =>
    rw [Pool.step]
    split_ifs with hasking hnext
    · exact h
    · refine ⟨by simp only [length_cons]; omega, ?_, fun hpos => (h.returned hpos).trans (Nat.le_succ _)⟩
      rw [Nat.min_eq_left (by omega)] at hcalls
      rw [Nat.min_eq_left hnext, range_succ]
      exact perm_middle.trans ((hcalls.cons _).trans (perm_append_singleton ..).symm)
    · have hmin : min (p.next + 1) n = min p.next n := by omega
      exact ⟨by dsimp only; omega, hmin ▸ hcalls, fun _ => by dsimp only; omega⟩
  | finish k =>
    rw [Pool.step]
    split_ifs with hk
    · have hlen := length_erase_of_mem hk
      have hpos := length_pos_of_mem hk
      refine ⟨by dsimp only; omega, ?_, h.returned⟩
      rw [append_assoc]
      exact ((perm_cons_erase hk).symm.append_left _).trans hcalls
    · exact h

theorem inv_run (n workers : ℕ) (turns : List Turn) :
    (turns.foldl (Pool.step n) (start n workers)).Inv n (min workers n) :=
  foldlRecOn turns _ ⟨rfl, by simp [start], nofun⟩ fun _ h turn _ => h.step turn

end Pool

/-- However the goroutines of `parallel` take turns, no task is run twice, and when they have all
returned every task has been run: the tasks end in the order of a schedule. -/
theorem parallel_runs_each_once (n workers : ℕ) (turns : List Turn) :
    let p := turns.foldl (Pool.step n) (Pool.start n workers)
    (p.ran ++ p.running).Nodup ∧
      (0 < workers → p.returned = min workers n → p.ran.Perm (range n)) := by
  intro p
  have h : p.Inv n (min workers n) := Pool.inv_run n workers turns
  have hsize := h.size
  refine ⟨h.calls.nodup_iff.mpr nodup_range, fun hpos hall => ?_⟩
  have hidle : p.running = [] := length_eq_zero_iff.mp (by omega)
  have hmin : min p.next n = n := by
    by_cases hn : n = 0
    · omega
    · exact Nat.min_eq_right (h.returned (by omega))
  have hcalls := h.calls
  rwa [hidle, append_nil, hmin] at hcalls

def secondFirst : List Turn := [.ask, .ask, .finish 1, .ask, .finish 0, .ask]

theorem two_tasks_on_two_workers : (secondFirst.foldl (Pool.step 2) (Pool.start 2 2)).ran = [1, 0] ∧
    (secondFirst.foldl (Pool.step 2) (Pool.start 2 2)).ran.Perm (range 2) :=
  ⟨rfl, (parallel_runs_each_once 2 2 secondFirst).2 (by decide) rfl⟩

end Pool

end NuclaDB.Hnsw
