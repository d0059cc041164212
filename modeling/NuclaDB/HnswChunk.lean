import NuclaDB.HnswInvariant

/-!
# Insertion of a chunk

The stages of `insertChunk`: the nodes are placed without links, each picks its links, the
back-links are grouped and added, and the entry point is settled.
-/

namespace NuclaDB.Hnsw

open List Nat

section Grouping

namespace Graph

variable {groups : List ((ℕ × ℕ) × List ℕ)} {key : ℕ × ℕ} {slot : ℕ} (pairs : List ((ℕ × ℕ) × ℕ))

theorem addGroup_keys (groups : List ((ℕ × ℕ) × List ℕ)) (key : ℕ × ℕ) (slot : ℕ) :
    (addGroup groups key slot).map (·.1) =
      if key ∈ groups.map (·.1) then groups.map (·.1) else groups.map (·.1) ++ [key] := by
  induction groups with
  | nil => simp [addGroup]
  | cons gr rest ih =>
    simp only [addGroup]
    split
    · next h => simp [h]
    · next h =>
      simp only [map_cons, ih, mem_cons, Ne.symm h, false_or]
      split <;> simp

theorem mem_addGroup {k : ℕ × ℕ} {s : ℕ} : (∃ slots, (k, slots) ∈ addGroup groups key slot ∧ s ∈ slots) ↔
      (∃ slots, (k, slots) ∈ groups ∧ s ∈ slots) ∨ (k = key ∧ s = slot) := by
  induction groups with
  | nil => simp [addGroup]
  | cons gr rest ih =>
    obtain ⟨k', slots'⟩ := gr
    simp only [addGroup]
    split
    · next h =>
      subst h
      simp only [mem_cons, Prod.mk.injEq]
      grind
    · next h =>
      simp only [mem_cons, Prod.mk.injEq] at ih ⊢
      grind

def groupPairs : List ((ℕ × ℕ) × List ℕ) :=
  pairs.foldl (fun groups p => addGroup groups p.1 p.2) []

theorem groupPairs_keys : ((groupPairs pairs).map (·.1)).Nodup := by
  simp only [groupPairs]
  induction pairs using reverseRecOn with
  | nil => simp
  | append_singleton rest p ih =>
    rw [foldl_append, foldl_cons, foldl_nil, addGroup_keys]
    split
    · exact ih
    · next h => exact nodup_append.mpr ⟨ih, by simp, by grind⟩

theorem mem_groupPairs {pairs : List ((ℕ × ℕ) × ℕ)} {k : ℕ × ℕ} {s : ℕ} :
    (∃ slots, (k, slots) ∈ groupPairs pairs ∧ s ∈ slots) ↔ (k, s) ∈ pairs := by
  simp only [groupPairs]
  induction pairs using reverseRecOn with
  | nil => simp
  | append_singleton rest p ih =>
    rw [foldl_append, foldl_cons, foldl_nil, mem_addGroup, ih]
    simp [Prod.ext_iff]

theorem groupPairs_ne_nil : ∀ gr ∈ groupPairs pairs, gr.2 ≠ [] := by
  have hadd : ∀ (groups : List ((ℕ × ℕ) × List ℕ)) key slot, (∀ gr ∈ groups, gr.2 ≠ []) →
      ∀ gr ∈ addGroup groups key slot, gr.2 ≠ [] := by
    intro groups key slot
    induction groups with
    | nil => simp [addGroup]
    | cons gr rest ih =>
      intro h
      obtain ⟨hgr, hrest⟩ := forall_mem_cons.mp h
      simp only [addGroup]
      split
      · exact forall_mem_cons.mpr ⟨by simp, hrest⟩
      · exact forall_mem_cons.mpr ⟨hgr, ih hrest⟩
  simp only [groupPairs]
  induction pairs using reverseRecOn with
  | nil => simp
  | append_singleton rest p ih =>
    rw [foldl_append, foldl_cons, foldl_nil]
    exact hadd _ _ _ ih

end Graph

end Grouping

section SetAll
variable {D : Type} {g : Graph D}

namespace Graph
variable {ups : List ((ℕ × ℕ) × List ℕ)}

def setAll (g : Graph D) (ups : List ((ℕ × ℕ) × List ℕ)) : Graph D :=
  ups.foldl (fun h up => h.setLinks up.1.1 up.1.2 up.2) g

theorem bare_setAll (g : Graph D) (ups : List ((ℕ × ℕ) × List ℕ)) : (g.setAll ups).bare = g.bare := by
  induction ups generalizing g with
  | nil => rfl
  | cons up ups ih => exact (ih _).trans (bare_setLinks ..)

def Settable (g : Graph D) (ups : List ((ℕ × ℕ) × List ℕ)) : Prop :=
  ∀ up ∈ ups, up.1.1 < g.nodes.length ∧ g.LinkList up.1.1 up.1.2 up.2

theorem Settable.setLinks (hups : g.Settable ups) (slot l : ℕ)
    (ids : List ℕ) : (g.setLinks slot l ids).Settable ups := by
  intro up hup
  obtain ⟨hlt, hlist⟩ := hups up hup
  exact ⟨by simpa using hlt, hlist.congr (by simp) rfl⟩

theorem Shape.setAll (hs : g.Shape) (hups : g.Settable ups)
    (hlayers : ∀ up ∈ ups, up.1.2 ≤ 64) : (g.setAll ups).Shape := by
  induction ups generalizing g with
  | nil => exact hs
  | cons up ups ih =>
    obtain ⟨hup, hrest⟩ := forall_mem_cons.mp hups
    obtain ⟨hlayer, hlayers'⟩ := forall_mem_cons.mp hlayers
    refine ih ⟨hs.slotted.congr (bare_setLinks ..), hs.layered.setLinks hlayer _ _,
      hs.linked.setLinks hup.1 hup.2, hs.m_ge, hs.ef_ge⟩ (Settable.setLinks hrest _ _ _) hlayers'

theorem setAll_links (hl : g.Linked) (hups : g.Settable ups)
    (hkeys : (ups.map (·.1)).Nodup) (s k : ℕ) :
    (∀ ids, ((s, k), ids) ∈ ups → (g.setAll ups).links s k = ids) ∧
      ((s, k) ∉ ups.map (·.1) → (g.setAll ups).links s k = g.links s k) := by
  induction ups generalizing g with
  | nil => exact ⟨by simp, fun _ => rfl⟩
  | cons up ups ih =>
    obtain ⟨hup, hrest⟩ := forall_mem_cons.mp hups
    obtain ⟨hnot, hkeys'⟩ := nodup_cons.mp hkeys
    have hset : ∀ s k, (g.setLinks up.1.1 up.1.2 up.2).links s k =
        if s = up.1.1 ∧ k = up.1.2 then up.2 else g.links s k :=
      fun s k => links_setLinks hup.1 hl.links0_length hup.2.length_le
    obtain ⟨hin, hout⟩ := ih (hl.setLinks hup.1 hup.2) (Settable.setLinks hrest _ _ _) hkeys'
    refine ⟨fun ids hids => ?_, fun hs => ?_⟩
    · obtain rfl | hids := mem_cons.mp hids
      · refine (hout hnot).trans ?_
        rw [hset, if_pos ⟨rfl, rfl⟩]
      · exact hin ids hids
    · simp only [map_cons, mem_cons, not_or] at hs
      refine (hout hs.2).trans ?_
      rw [hset, if_neg fun heq => hs.1 (Prod.ext heq.1 heq.2)]

end Graph

end SetAll

section Choice
variable {D : Type} [Dist D] {g : Graph D}

namespace Graph

theorem mergeLoop_perm {m : ℕ} {as bs : List (Candidate D)} (hm : as.length + bs.length ≤ m) :
    (mergeLoop m as bs).Perm (as ++ bs) := by
  induction m generalizing as bs with
  | zero =>
    have has : as = [] := length_eq_zero_iff.mp (by omega)
    have hbs : bs = [] := length_eq_zero_iff.mp (by omega)
    simp [mergeLoop, has, hbs]
  | succ m ih =>
    match as, bs with
    | [], [] => simp [mergeLoop]
    | a :: as, [] =>
      simp only [mergeLoop, cons_append]
      exact (ih (by simpa using hm)).cons a
    | [], b :: bs =>
      simp only [mergeLoop, nil_append]
      exact (ih (by simpa using hm)).cons b
    | a :: as, b :: bs =>
      simp only [mergeLoop, length_cons] at hm ⊢
      split
      · exact (ih (by simp only [length_cons]; omega)).cons a
      · refine ((ih (by simp only [length_cons]; omega)).cons b).trans ?_
        exact perm_middle.symm

theorem mergeClosest_perm (sorted extra : List (Candidate D)) :
    (mergeClosest sorted extra (sorted.length + extra.length)).Perm (sorted ++ extra) := by
  have hsort := Dist.sortSlice_perm extra
  refine (mergeLoop_perm (by rw [hsort.length_eq])).trans (hsort.append_left sorted)

omit [Dist D] in
theorem mem_mates {base : ℕ} {before : List ChunkNode} {nd : ChunkNode} {l : ℕ} {c : Candidate D}
    (hc : c ∈ g.mates base before nd l) :
    base ≤ c.id ∧ ∃ mate, before[c.id - base]? = some mate ∧ l ≤ mate.level := by
  simp only [mates, mem_map, mem_filter, mem_zipIdx_iff_getElem?, decide_eq_true_eq] at hc
  obtain ⟨⟨mate, j⟩, ⟨hj, hlevel⟩, rfl⟩ := hc
  exact ⟨Nat.le_add_right .., mate, by simpa using hj, hlevel⟩

omit [Dist D] in
theorem mates_nodup (g : Graph D) (base : ℕ) (before : List ChunkNode) (nd : ChunkNode) (l : ℕ) :
    ((g.mates base before nd l).map (·.id)).Nodup := by
  have hslots : (before.zipIdx.map fun m => base + m.2).Nodup := by
    have hmap : (before.zipIdx.map fun m => base + m.2) =
        (range' 0 before.length).map (base + ·) := by
      rw [← zipIdx_map_snd, map_map]
      rfl
    rw [hmap]
    exact (nodup_range' ..).map fun x y hxy => Nat.add_left_cancel hxy
  simp only [mates, map_map, Function.comp_def]
  exact hslots.sublist (filter_sublist.map _)

theorem chunkFound_layer (hs : g.Shape) {P : ℕ → Prop} (hP : g.Closed P) (hentry : P g.entryPoint)
    (nd : ChunkNode) (l : ℕ) :
    (∃ e, P e ∧ (g.chunkFound nd).getD l [] =
      g.diverse (g.maxLinks l) (g.layerFound nd.vec (fun _ => true) e l) []) ∨
    (min nd.level g.maxLevel < l ∧ (g.chunkFound nd).getD l [] = []) :=
  searchDown_mapIdx hs hP nd.vec _ (fun l found => g.diverse (g.maxLinks l) found [])
    (hP.descend hentry nd.vec nd.level) _ l

theorem chunkFound_ok (hs : g.Shape) (hentry : g.entryPoint < g.nodes.length) (nd : ChunkNode)
    (l : ℕ) : (((g.chunkFound nd).getD l []).map (·.id)).Nodup ∧
      ∀ c ∈ (g.chunkFound nd).getD l [], c.id < g.nodes.length := by
  obtain ⟨e, he, heq⟩ | ⟨-, heq⟩ := chunkFound_layer hs hs.linked.closed_lt hentry nd l
  · rw [heq]
    have hsub := g.diverse_sublist (g.maxLinks l) (g.layerFound nd.vec (fun _ => true) e l)
    exact ⟨(layerFound_nodup hs he).sublist (hsub.map _), fun c hc =>
      (mem_layerFound hs hs.linked.closed_lt he (hsub.subset hc)).1⟩
  · rw [heq]
    simp

theorem mem_chunkPicks {placed : Graph D} {base : ℕ} {before : List ChunkNode} {nd : ChunkNode}
    {l x : ℕ} (hx : x ∈ g.chunkPicks placed base before nd l) :
    x ∈ ((g.chunkFound nd).getD l []).map (·.id) ∨ x ∈ (g.mates base before nd l).map (·.id) := by
  have hsub := (placed.selectNeighbors_sublist _ _).subset hx
  rw [((mergeClosest_perm _ _).map _).mem_iff, map_append, mem_append] at hsub
  exact hsub

theorem chunkPicks_linkList (hs : g.Shape) (hentry : g.entryPoint < g.nodes.length)
    {placed : Graph D} (hcfg : placed.cfg = g.cfg) (before : List ChunkNode) (nd : ChunkNode)
    (hlen : g.nodes.length + before.length ≤ placed.nodes.length) (l : ℕ) :
    placed.LinkList (g.nodes.length + before.length) l
      (g.chunkPicks placed g.nodes.length before nd l) := by
  obtain ⟨hfound, hlt⟩ := chunkFound_ok hs hentry nd l
  have hmates : ∀ c ∈ g.mates g.nodes.length before nd l,
      g.nodes.length ≤ c.id ∧ c.id < g.nodes.length + before.length := by
    intro c hc
    obtain ⟨hge, mate, hmate, -⟩ := mem_mates hc
    have := (List.getElem?_eq_some_iff.mp hmate).1
    omega
  have hbound : ∀ x ∈ g.chunkPicks placed g.nodes.length before nd l,
      x < g.nodes.length + before.length := by
    intro x hx
    obtain hx | hx := mem_chunkPicks hx
    · obtain ⟨c, hc, rfl⟩ := mem_map.mp hx
      have := hlt c hc
      omega
    · obtain ⟨c, hc, rfl⟩ := mem_map.mp hx
      exact (hmates c hc).2
  refine ⟨?_, fun h => lt_irrefl _ (hbound _ h), fun y hy => ?_, ?_⟩
  · refine (placed.selectNeighbors_sublist _ _).nodup ?_
    rw [((mergeClosest_perm _ _).map _).nodup_iff, map_append]
    refine nodup_append.mpr ⟨hfound, g.mates_nodup _ _ _ _, ?_⟩
    intro x hx y hy
    obtain ⟨c, hc, rfl⟩ := mem_map.mp hx
    obtain ⟨d, hd, rfl⟩ := mem_map.mp hy
    have := hlt c hc
    have := (hmates d hd).1
    omega
  · exact lt_of_lt_of_le (hbound y hy) hlen
  · intro _
    rw [hcfg]
    exact (placed.selectNeighbors_length_le _ _).trans (g.maxLinks_le l)

end Graph

end Choice

section Stages
variable {D : Type} [Dist D] {g : Graph D}

namespace Graph
variable {chunk : List ChunkNode} {nd : ChunkNode}

structure Placeable (g : Graph D) (nodes : List ChunkNode) : Prop where
  fresh : ∀ nd ∈ nodes, nd.id ∉ g.nodes.map (·.id)
  nodup : (nodes.map (·.id)).Nodup
  dims : ∀ nd ∈ nodes, nd.vec.length = g.cfg.dim
  level_le : ∀ nd ∈ nodes, nd.level ≤ 64

structure Placed (g : Graph D) (chunk : List ChunkNode) (h : Graph D) : Prop where
  shape : h.Shape
  nodes : h.nodes = g.nodes ++ chunk.map ChunkNode.node
  data : h.data = g.data ++ chunk.map (·.vec)
  dead : h.dead = g.dead ++ replicate chunk.length false
  links (s k : ℕ) : h.links s k = g.links s k
  rest : h.cfg = g.cfg ∧ h.live = g.live ∧ h.hasEntry = g.hasEntry ∧ h.entryPoint = g.entryPoint ∧
    h.maxLevel = g.maxLevel ∧ h.dist = g.dist ∧ h.unit = g.unit ∧ h.rng = g.rng

theorem modify_append_last {α : Type*} (xs : List α) (a : α) (f : α → α) :
    (xs ++ [a]).modify xs.length f = xs ++ [f a] := by
  apply ext_getElem?
  intro i
  simp only [getElem?_modify, getElem?_append]
  grind

section
omit [Dist D]

theorem Shape.placed_one (hs : g.Shape) (hid : nd.id ∉ g.nodes.map (·.id))
    (hvec : nd.vec.length = g.cfg.dim) (hlevel : nd.level ≤ 64) :
    Placed g [nd] (g.place g.nodes.length nd.node nd.vec false) := by
  have ht : g.Target nd.id g.nodes.length false := ⟨hs.slotted.slot_eq_none.mpr hid, rfl⟩
  have hfit := hs.slotted.fits ht
  have hstaged : ∀ l, nd.node.neighbors.getD l [] = [] := getD_replicate_nil (nd.level + 1)
  refine ⟨hs.place nd.node ht hvec hlevel (by simp [ChunkNode.node])
    fun l => (hstaged l).symm ▸ linkList_nil .., ?_, rfl, rfl, fun s k => ?_, rfl, rfl, rfl, rfl,
    rfl, rfl, rfl, rfl⟩
  · simp only [Graph.place, clearStaged, setLinks, Graph.store, if_true, Bool.false_eq_true, if_false,
      modify_append_last]
    simp [ChunkNode.node, replicate_succ]
  · rw [links_place hfit hs.linked.links0_length (by rw [hstaged]; exact zero_le _), hstaged]
    split
    · next heq => rw [links_eq_nil hs.linked.links0_length (by omega)]
    · rfl

theorem Placed.append {h k : Graph D}
    (hone : Placed g [nd] h) (hrest : Placed h chunk k) : Placed g (nd :: chunk) k := by
  obtain ⟨-, hnodes, hdata, hdead, hlinks, hcfg, hlive, hhas, hentry, hmax, hdist, hunit, hrng⟩ := hone
  obtain ⟨hshape, hnodes', hdata', hdead', hlinks', hcfg', hlive', hhas', hentry', hmax', hdist',
    hunit', hrng'⟩ := hrest
  refine ⟨hshape, ?_, ?_, ?_, fun s l => (hlinks' s l).trans (hlinks s l), hcfg'.trans hcfg,
    hlive'.trans hlive, hhas'.trans hhas, hentry'.trans hentry, hmax'.trans hmax,
    hdist'.trans hdist, hunit'.trans hunit, hrng'.trans hrng⟩
  · simp [hnodes', hnodes]
  · simp [hdata', hdata]
  · simp [hdead', hdead, replicate_succ]

theorem Placeable.tail {h : Graph D}
    (hp : g.Placeable (nd :: chunk)) (hone : Placed g [nd] h) : h.Placeable chunk := by
  obtain ⟨hfresh, hnodup, hdims, hlevel⟩ := hp
  refine ⟨fun x hx => ?_, ?_, ?_, fun x hx => hlevel x (mem_cons_of_mem _ hx)⟩
  · simp only [hone.nodes, map_append, mem_append, not_or]
    refine ⟨hfresh x (mem_cons_of_mem _ hx), fun hmem => ?_⟩
    simp only [map_cons, map_nil, ChunkNode.node, mem_singleton] at hmem
    exact (nodup_cons.mp hnodup).1 (mem_map.mpr ⟨x, hx, hmem⟩)
  · exact (nodup_cons.mp hnodup).2
  · rw [hone.rest.1]
    exact fun x hx => hdims x (mem_cons_of_mem _ hx)

theorem Shape.placed_head (hs : g.Shape) (hp : g.Placeable (nd :: chunk)) :
    Placed g [nd] (g.place g.nodes.length nd.node nd.vec false) :=
  hs.placed_one (hp.fresh nd mem_cons_self) (hp.dims nd mem_cons_self)
    (hp.level_le nd mem_cons_self)

theorem Shape.placed_chunk (hs : g.Shape) {base k : ℕ} (hbase : g.nodes.length = base + k)
    (hp : g.Placeable chunk) :
    Placed g chunk ((chunk.zipIdx k).foldl
      (fun g nd => g.place (base + nd.2) nd.1.node nd.1.vec false) g) := by
  induction chunk generalizing g k with
  | nil => exact ⟨hs, by simp, by simp, by simp, fun s l => rfl, by simp⟩
  | cons nd chunk ih =>
    have hone := hs.placed_head hp
    simp only [zipIdx_cons, foldl_cons, ← hbase]
    exact hone.append (ih hone.shape (by simp [hone.nodes]; omega) (hp.tail hone))

end

def chunkUps (g placed : Graph D) (base : ℕ) (chunk : List ChunkNode) : List ((ℕ × ℕ) × List ℕ) :=
  chunk.zipIdx.flatMap fun nd => (range (nd.1.level + 1)).map fun l =>
    ((base + nd.2, l), g.chunkPicks placed base (chunk.take nd.2) nd.1 l)

theorem linkChunk_eq_setAll (g placed : Graph D) (base : ℕ) (chunk : List ChunkNode) :
    g.linkChunk placed base chunk = placed.setAll (g.chunkUps placed base chunk) := by
  simp only [linkChunk, setAll, chunkUps, foldl_flatMap, foldl_map]

theorem mem_chunkUps {placed : Graph D} {base : ℕ}
    {up : (ℕ × ℕ) × List ℕ} : up ∈ g.chunkUps placed base chunk ↔
      ∃ k nd, chunk[k]? = some nd ∧ up.1.1 = base + k ∧ up.1.2 ≤ nd.level ∧
        up.2 = g.chunkPicks placed base (chunk.take k) nd up.1.2 := by
  obtain ⟨⟨s, l⟩, ids⟩ := up
  simp only [chunkUps, mem_flatMap, mem_map, mem_zipIdx_iff_getElem?, mem_range,
    Prod.mk.injEq, Prod.exists]
  constructor
  · rintro ⟨nd, k, hk, l, hl, ⟨rfl, rfl⟩, rfl⟩
    exact ⟨k, nd, hk, rfl, by omega, rfl⟩
  · rintro ⟨k, nd, hk, rfl, hl, rfl⟩
    exact ⟨nd, k, hk, l, by omega, ⟨rfl, rfl⟩, rfl⟩

theorem chunkUps_keys (g placed : Graph D) (base : ℕ) (chunk : List ChunkNode) :
    ((g.chunkUps placed base chunk).map (·.1)).Nodup := by
  simp only [chunkUps, map_flatMap, map_map, Function.comp_def]
  refine nodup_flatMap.mpr ⟨fun nd _ => ?_, ?_⟩
  · exact nodup_range.map fun x y hxy => (Prod.mk.inj hxy).2
  · have hindex : (chunk.zipIdx.map (·.2)).Nodup := by
      rw [zipIdx_map_snd]
      exact nodup_range' ..
    refine (pairwise_map.mp hindex).imp fun hne x hx hy => hne ?_
    obtain ⟨_, -, rfl⟩ := mem_map.mp hx
    obtain ⟨_, -, heq⟩ := mem_map.mp hy
    exact (Nat.add_left_cancel (Prod.mk.inj heq).1).symm

def backPairs (g : Graph D) (base : ℕ) (chunk : List ChunkNode) : List ((ℕ × ℕ) × ℕ) :=
  chunk.zipIdx.flatMap fun nd => (range (nd.1.level + 1)).flatMap fun l =>
    (g.links (base + nd.2) l).map fun nbr => ((nbr, l), base + nd.2)

section
omit [Dist D]

theorem backLinks_eq_groupPairs (g : Graph D) (base : ℕ) (chunk : List ChunkNode) :
    g.backLinks base chunk = groupPairs (g.backPairs base chunk) := by
  simp only [backLinks, groupPairs, backPairs, foldl_flatMap, foldl_map]

theorem backLinks_keys (g : Graph D) (base : ℕ) (chunk : List ChunkNode) :
    ((g.backLinks base chunk).map (·.1)).Nodup := by
  rw [backLinks_eq_groupPairs]
  exact groupPairs_keys _

theorem mem_backPairs {base : ℕ} {nbr l s : ℕ} : ((nbr, l), s) ∈ g.backPairs base chunk ↔
      ∃ k nd, chunk[k]? = some nd ∧ s = base + k ∧ l ≤ nd.level ∧ nbr ∈ g.links s l := by
  simp only [backPairs, mem_flatMap, mem_map, mem_zipIdx_iff_getElem?,
    mem_range, Prod.mk.injEq, Prod.exists]
  constructor
  · rintro ⟨nd, k, hk, l, hl, nbr, hnbr, ⟨rfl, rfl⟩, rfl⟩
    exact ⟨k, nd, hk, rfl, by omega, hnbr⟩
  · rintro ⟨k, nd, hk, rfl, hl, hnbr⟩
    exact ⟨nd, k, hk, l, by omega, nbr, hnbr, ⟨rfl, rfl⟩, rfl⟩

theorem WF.placed (hw : g.WF) (hp : g.Placeable chunk) : Placed g chunk (g.placedChunk chunk) := by
  simpa only [placedChunk, placeChunk] using hw.shape.placed_chunk (k := 0) rfl hp

end

section Linking
variable {chunk : List ChunkNode}

omit [Dist D] in
theorem Placed.nodes_length {h : Graph D} (hp : Placed g chunk h) :
    h.nodes.length = g.nodes.length + chunk.length := by
  simp [hp.nodes]

theorem WF.chunkUps_settable (hw : g.WF) (hne : g.nodes ≠ []) (hp : g.Placeable chunk) :
    (g.placedChunk chunk).Settable
      (g.chunkUps (g.placedChunk chunk) g.nodes.length chunk) := by
  have hplaced := hw.placed hp
  intro up hup
  obtain ⟨k, nd, hk, hslot, -, hids⟩ := mem_chunkUps.mp hup
  have hklt := (List.getElem?_eq_some_iff.mp hk).1
  have hlen : (chunk.take k).length = k := by
    rw [List.length_take]
    omega
  rw [hslot, hids, hplaced.nodes_length]
  refine ⟨by omega, ?_⟩
  have hlist := chunkPicks_linkList hw.shape (hw.entry_lt hne) hplaced.rest.1 (chunk.take k)
    nd (by rw [hplaced.nodes_length, hlen]; omega) up.1.2
  rwa [hlen] at hlist

theorem Placeable.chunkUps_layers (hp : g.Placeable chunk) (placed : Graph D) (base : ℕ) :
    ∀ up ∈ g.chunkUps placed base chunk, up.1.2 ≤ 64 := by
  intro up hup
  obtain ⟨k, nd, hk, -, hl, -⟩ := mem_chunkUps.mp hup
  exact hl.trans (hp.level_le nd (mem_of_getElem? hk))

theorem WF.linked_shape (hw : g.WF) (hne : g.nodes ≠ []) (hp : g.Placeable chunk) :
    (g.linkedChunk chunk).Shape := by
  rw [linkedChunk, linkChunk_eq_setAll]
  exact (hw.placed hp).shape.setAll (hw.chunkUps_settable hne hp) (hp.chunkUps_layers _ _)

theorem linked_bare (g : Graph D) (chunk : List ChunkNode) :
    (g.linkedChunk chunk).bare = (g.placedChunk chunk).bare := by
  rw [linkedChunk, linkChunk_eq_setAll]
  exact bare_setAll ..

theorem WF.linked_picks (hw : g.WF) (hne : g.nodes ≠ []) (hp : g.Placeable chunk) {k : ℕ}
    {nd : ChunkNode} (hk : chunk[k]? = some nd) {l : ℕ} (hl : l ≤ nd.level) :
    (g.linkedChunk chunk).links (g.nodes.length + k) l =
      g.chunkPicks (g.placedChunk chunk) g.nodes.length (chunk.take k) nd l := by
  rw [linkedChunk, linkChunk_eq_setAll]
  exact (setAll_links (hw.placed hp).shape.linked (hw.chunkUps_settable hne hp) (chunkUps_keys ..)
    _ _).1 _ (mem_chunkUps.mpr ⟨k, nd, hk, rfl, hl, rfl⟩)

theorem WF.linked_others (hw : g.WF) (hne : g.nodes ≠ []) (hp : g.Placeable chunk) {s l : ℕ}
    (h : ∀ k nd, chunk[k]? = some nd → s = g.nodes.length + k → nd.level < l) :
    (g.linkedChunk chunk).links s l = g.links s l := by
  rw [linkedChunk, linkChunk_eq_setAll, ← (hw.placed hp).links]
  refine (setAll_links (hw.placed hp).shape.linked (hw.chunkUps_settable hne hp) (chunkUps_keys ..)
    _ _).2 fun hmem => ?_
  obtain ⟨up, hup, heq⟩ := mem_map.mp hmem
  obtain ⟨k, nd, hk, hs, hl, -⟩ := mem_chunkUps.mp hup
  rw [heq] at hs hl
  exact absurd (h k nd hk hs) (not_lt.mpr hl)

theorem linked_nodes_length (hp : Placed g chunk (g.placedChunk chunk)) :
    (g.linkedChunk chunk).nodes.length = g.nodes.length + chunk.length := by
  rw [length_of_bare (g.linked_bare chunk), hp.nodes_length]

omit [Dist D] in
theorem mem_backLinks {h : Graph D} {base : ℕ} {up : (ℕ × ℕ) × List ℕ}
    (hup : up ∈ h.backLinks base chunk) :
    up.2 ≠ [] ∧ ∀ s ∈ up.2, ∃ k nd, chunk[k]? = some nd ∧ s = base + k ∧ up.1.2 ≤ nd.level ∧
      up.1.1 ∈ h.links s up.1.2 := by
  rw [backLinks_eq_groupPairs] at hup
  exact ⟨groupPairs_ne_nil _ up hup, fun s hs => mem_backPairs.mp (mem_groupPairs.mp ⟨_, hup, hs⟩)⟩

theorem WF.backLinks_addable (hw : g.WF) (hne : g.nodes ≠ []) (hp : g.Placeable chunk) :
    (g.linkedChunk chunk).Addable ((g.linkedChunk chunk).backLinks g.nodes.length chunk) := by
  have hlinked := (hw.linked_shape hne hp).linked
  intro up hup
  obtain ⟨hnil, hedge⟩ := mem_backLinks hup
  refine ⟨?_, fun hself => ?_, fun s hs => ?_⟩
  · obtain ⟨s, hs⟩ := exists_mem_of_ne_nil _ hnil
    obtain ⟨_, _, -, -, -, hlink⟩ := hedge s hs
    exact (hlinked.list _ _).lt _ hlink
  · obtain ⟨_, _, -, -, -, hlink⟩ := hedge _ hself
    exact (hlinked.list _ _).ne hlink
  · obtain ⟨k, nd, hk, rfl, -, -⟩ := hedge s hs
    have := (List.getElem?_eq_some_iff.mp hk).1
    rw [linked_nodes_length (hw.placed hp)]
    omega

theorem WF.joined_shape (hw : g.WF) (hne : g.nodes ≠ []) (hp : g.Placeable chunk) :
    (g.joinedChunk chunk).Shape := by
  refine (hw.linked_shape hne hp).addAll (hw.backLinks_addable hne hp) fun up hup => ?_
  obtain ⟨hnil, hedge⟩ := mem_backLinks hup
  obtain ⟨s, hs⟩ := exists_mem_of_ne_nil _ hnil
  obtain ⟨k, nd, hk, -, hl, -⟩ := hedge s hs
  exact hl.trans (hp.level_le nd (mem_of_getElem? hk))

theorem joined_bare (g : Graph D) (chunk : List ChunkNode) :
    (g.joinedChunk chunk).bare = (g.placedChunk chunk).bare :=
  (bare_addAll ..).trans (g.linked_bare chunk)

end Linking

section Settle
variable {base : ℕ} {nodes : List (ChunkNode × ℕ)}

section
omit [Dist D]

section
variable (g : Graph D) (base : ℕ) (nodes : List (ChunkNode × ℕ))

theorem settle_tables : (g.settle base nodes).tables = g.tables := by
  simp only [settle]
  induction nodes generalizing g with
  | nil => rfl
  | cons nd nodes ih => exact (ih _).trans (promote_tables ..)

theorem settle_rest : (g.settle base nodes).live = g.live + nodes.length ∧
      (g.settle base nodes).hasEntry = g.hasEntry ∧ (g.settle base nodes).rng = g.rng := by
  simp only [settle]
  induction nodes generalizing g with
  | nil => simp
  | cons nd nodes ih =>
    obtain ⟨hlive, hhas, hrng⟩ := ih (({ g with live := g.live + 1 } : Graph D).promote (base + nd.2)
      nd.1.level)
    obtain ⟨hlive', hhas', hrng'⟩ := ({ g with live := g.live + 1 } : Graph D).promote_rest
      (base + nd.2) nd.1.level
    refine ⟨?_, hhas.trans hhas', hrng.trans hrng'⟩
    rw [foldl_cons, hlive, hlive']
    simp only [length_cons]
    omega

theorem settle_entryPoint : (g.settle base nodes).entryPoint = g.entryPoint ∨
      ∃ nd ∈ nodes, (g.settle base nodes).entryPoint = base + nd.2 := by
  simp only [settle]
  induction nodes generalizing g with
  | nil => exact .inl rfl
  | cons nd nodes ih =>
    obtain h | ⟨x, hx, h⟩ := ih (({ g with live := g.live + 1 } : Graph D).promote (base + nd.2)
      nd.1.level)
    · rw [foldl_cons, h, promote_entryPoint]
      split
      · exact .inr ⟨nd, mem_cons_self, rfl⟩
      · exact .inl rfl
    · exact .inr ⟨x, mem_cons_of_mem _ hx, h⟩

end

theorem settle_maxLevel_le {bound : ℕ} (hmax : g.maxLevel ≤ bound)
    (hnodes : ∀ nd ∈ nodes, nd.1.level ≤ bound) : (g.settle base nodes).maxLevel ≤ bound := by
  simp only [settle]
  induction nodes generalizing g with
  | nil => exact hmax
  | cons nd nodes ih =>
    obtain ⟨hnd, hrest⟩ := forall_mem_cons.mp hnodes
    refine ih ?_ hrest
    rw [promote_maxLevel]
    exact max_le hmax hnd

end

end Settle

theorem WF.joinSettle (hw : g.WF) (hne : g.nodes ≠ []) {chunk : List ChunkNode}
    (hp : g.Placeable chunk) :
    ((g.joinedChunk chunk).settle g.nodes.length chunk.zipIdx).WF := by
  have hplaced := hw.placed hp
  have hb := g.joined_bare chunk
  have ht := (g.joinedChunk chunk).settle_tables g.nodes.length chunk.zipIdx
  obtain ⟨hlive, hhas, -⟩ := (g.joinedChunk chunk).settle_rest g.nodes.length chunk.zipIdx
  obtain ⟨-, hlive', hhas', hentry', hmax', -⟩ := hplaced.rest
  have hlen : (g.joinedChunk chunk).nodes.length = g.nodes.length + chunk.length := by
    rw [length_of_bare hb, hplaced.nodes_length]
  have hpos := length_pos_of_ne_nil hne
  refine ⟨(hw.joined_shape hne hp).of_tables ht, ?_, ?_, fun _ => ?_, ?_⟩
  · rw [hlive, dead_of_tables ht, dead_of_bare hb, live_of_bare hb, hplaced.dead, hlive', hw.live_eq]
    simp
  · rw [hhas, nodes_of_tables ht, hasEntry_of_bare hb, hhas', hw.hasEntry_iff]
    exact ⟨fun _ => ne_nil_of_length_pos (by omega), fun _ => hne⟩
  · rw [nodes_of_tables ht, hlen]
    obtain h | ⟨nd, hnd, h⟩ :=
      (g.joinedChunk chunk).settle_entryPoint g.nodes.length chunk.zipIdx
    · have := hw.entry_lt hne
      rw [h, entryPoint_of_bare hb, hentry']
      omega
    · have := (List.getElem?_eq_some_iff.mp (List.mem_zipIdx_iff_getElem?.mp hnd)).1
      omega
  · refine settle_maxLevel_le ?_ fun nd hnd => ?_
    · rw [maxLevel_of_bare hb, hmax']
      exact hw.maxLevel_le
    · exact hp.level_le _ (mem_of_getElem? (List.mem_zipIdx_iff_getElem?.mp hnd))

theorem drawChunk_spec (g : Graph D) (items : List (UInt64 × Vec)) :
    (∃ rng, (g.drawChunk items).2 = { g with rng := rng }) ∧
      (g.drawChunk items).1.map (·.id) = items.map (·.1) ∧
      (g.drawChunk items).1.map (·.vec) = items.map (fun it => g.prep it.2) ∧
      ∀ nd ∈ (g.drawChunk items).1, nd.level ≤ 64 := by
  induction items generalizing g with
  | nil => exact ⟨⟨g.rng, rfl⟩, rfl, rfl, by simp [drawChunk]⟩
  | cons it items ih =>
    obtain ⟨⟨rng, hrng⟩, hids, hvecs, hlevel⟩ := ih { g with rng := fun k => g.rng (k + 1) }
    simp only [drawChunk, randomLevel]
    refine ⟨⟨rng, hrng⟩, ?_, ?_, ?_⟩
    · simp only [map_cons, hids]
    · simp only [map_cons, hvecs, hrng]
      rfl
    · exact forall_mem_cons.mpr ⟨min_le_right .., hlevel⟩

end Graph

end Stages

end NuclaDB.Hnsw
