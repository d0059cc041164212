import NuclaDB.HnswBeam
import NuclaDB.HnswLinks

/-!
# The representation invariant

`Shape` is what every stage of an insertion keeps. `WF` adds the entry point and the count of
live vectors.
-/

namespace NuclaDB.Hnsw

open List

section Shape
variable {D : Type} {g h : Graph D}

namespace Graph
variable {slot : ℕ} {id : UInt64} {existed : Bool}

structure Slotted (g : Graph D) : Prop where
  data_length : g.data.length = g.nodes.length
  dead_length : g.dead.length = g.nodes.length
  slots_iff (id : UInt64) (slot : ℕ) : g.slots[id]? = some slot ↔ (g.nodes.map (·.id))[slot]? = some id
  dims : ∀ v ∈ g.data, v.length = g.cfg.dim
  level_le : ∀ k ∈ g.nodes.map (·.level), k ≤ 64

def Layered (g : Graph D) : Prop :=
  ∀ nd ∈ g.nodes, nd.neighbors[0]? = some [] ∧ nd.level < nd.neighbors.length ∧ nd.neighbors.length ≤ 65

structure Shape (g : Graph D) : Prop where
  slotted : g.Slotted
  layered : g.Layered
  linked : g.Linked
  m_ge : 2 ≤ g.cfg.m
  ef_ge : 1 ≤ g.cfg.efConstruction

structure WF (g : Graph D) : Prop where
  shape : g.Shape
  live_eq : g.live = g.dead.count false
  hasEntry_iff : g.hasEntry = true ↔ g.nodes ≠ []
  entry_lt : g.nodes ≠ [] → g.entryPoint < g.nodes.length
  maxLevel_le : g.maxLevel ≤ 64

theorem ids_of_bare (hb : h.bare = g.bare) : h.nodes.map (·.id) = g.nodes.map (·.id) := by
  simpa [bare, Function.comp_def] using congrArg (fun g => g.nodes.map (·.id)) hb

theorem levels_of_bare (hb : h.bare = g.bare) : h.nodes.map (·.level) = g.nodes.map (·.level) := by
  simpa [bare, Function.comp_def] using congrArg (fun g => g.nodes.map (·.level)) hb

theorem Slotted.congr (hg : g.Slotted) (hb : h.bare = g.bare) : h.Slotted := by
  obtain ⟨hdata, hdead, hslots, hdims, hlevel⟩ := hg
  have hs : h.slots = g.slots := congrArg (·.slots) hb
  constructor
  · rw [data_of_bare hb, length_of_bare hb, hdata]
  · rw [dead_of_bare hb, length_of_bare hb, hdead]
  · rw [hs, ids_of_bare hb]
    exact hslots
  · rw [data_of_bare hb, cfg_of_bare hb]
    exact hdims
  · rw [levels_of_bare hb]
    exact hlevel

def tables (g : Graph D) : Graph D :=
  { g with entryPoint := 0, hasEntry := false, maxLevel := 0, live := 0, rng := fun _ => 0 }

section
variable (ht : h.tables = g.tables)
include ht

theorem links_of_tables (s k : ℕ) : h.links s k = g.links s k :=
  congrArg (fun g => g.links s k) ht

theorem nodes_of_tables : h.nodes = g.nodes := congrArg (·.nodes) ht

theorem cfg_of_tables : h.cfg = g.cfg := congrArg (·.cfg) ht

theorem dead_of_tables : h.dead = g.dead := congrArg (·.dead) ht

end

theorem Shape.of_tables (hs : g.Shape) (ht : h.tables = g.tables) : h.Shape := by
  obtain ⟨⟨h1, h2, h3, h4, h5⟩, hlayered, ⟨h6, h7⟩, hm, hef⟩ := hs
  have hnodes := nodes_of_tables ht
  have hcfg := cfg_of_tables ht
  have hdata : h.data = g.data := congrArg (·.data) ht
  have hlinks0 : h.links0 = g.links0 := congrArg (·.links0) ht
  have hslots : h.slots = g.slots := congrArg (·.slots) ht
  refine ⟨⟨?_, ?_, ?_, ?_, ?_⟩, ?_, ⟨?_, fun s k => ?_⟩, ?_, ?_⟩
  · rw [hdata, hnodes, h1]
  · rw [dead_of_tables ht, hnodes, h2]
  · rw [hslots, hnodes]
    exact h3
  · rw [hdata, hcfg]
    exact h4
  · rw [hnodes]
    exact h5
  · rw [Layered, hnodes]
    exact hlayered
  · rw [hlinks0, hnodes, h6]
  · rw [links_of_tables ht]
    exact (h7 s k).congr (by rw [hnodes]) hcfg
  · rw [hcfg]
    exact hm
  · rw [hcfg]
    exact hef

theorem Layered.setLinks (hg : g.Layered) {l : ℕ} (hl : l ≤ 64) (slot : ℕ) (ids : List ℕ) :
    (g.setLinks slot l ids).Layered := by
  intro nd hnd
  simp only [Graph.setLinks] at hnd
  split at hnd
  · exact hg nd hnd
  · next hl0 =>
    obtain ⟨i, hi, rfl⟩ := mem_iff_getElem.mp hnd
    rw [getElem_modify]
    rw [length_modify] at hi
    obtain ⟨hhead, hlevel, hlen⟩ := hg _ (getElem_mem hi)
    split
    · refine ⟨?_, ?_, ?_⟩
      · simp only [Node.setLayer, getElem?_set_ne hl0]
        rw [getElem?_append_left (by omega), hhead]
      · simp only [Node.setLayer, length_set, length_append, length_replicate]
        omega
      · simp only [Node.setLayer, length_set, length_append, length_replicate]
        omega
    · exact ⟨hhead, hlevel, hlen⟩

def Target (g : Graph D) (id : UInt64) (slot : ℕ) (existed : Bool) : Prop :=
  if existed then g.slots[id]? = some slot else g.slots[id]? = none ∧ slot = g.nodes.length

theorem Slotted.lt_of_slot (hg : g.Slotted)
    (hslot : g.slots[id]? = some slot) : slot < g.nodes.length := by
  have := (hg.slots_iff id slot).mp hslot
  simpa using (List.getElem?_eq_some_iff.mp this).1

theorem Slotted.slot_iff (hg : g.Slotted) :
    g.slots[id]? = some slot ↔ slot < g.nodes.length ∧ (g.nodes.getD slot default).id = id := by
  rw [hg.slots_iff, getElem?_map, Option.map_eq_some_iff]
  constructor
  · rintro ⟨nd, hnd, rfl⟩
    exact ⟨(List.getElem?_eq_some_iff.mp hnd).1, by simp [hnd]⟩
  · rintro ⟨hlt, rfl⟩
    exact ⟨g.nodes[slot], List.getElem?_eq_getElem hlt, by simp [hlt]⟩

theorem Slotted.slot_eq_none (hg : g.Slotted) : g.slots[id]? = none ↔ id ∉ g.nodes.map (·.id) := by
  rw [Option.eq_none_iff_forall_ne_some, mem_iff_getElem?]
  simp only [hg.slots_iff, ne_eq, not_exists]

theorem Slotted.fits (hg : g.Slotted) (ht : g.Target id slot existed) : g.Fits slot existed := by
  cases existed with
  | true => exact hg.lt_of_slot ht
  | false => exact ht.2

theorem set_eq_self {α : Type*} {l : List α} {i : ℕ} {a : α} (h : l[i]? = some a) : l.set i a = l := by
  obtain ⟨hi, rfl⟩ := List.getElem?_eq_some_iff.mp h
  exact List.set_getElem_self hi

theorem Slotted.store (hg : g.Slotted) {nd : Node} {vec : Vec}
    (ht : g.Target nd.id slot existed) (hvec : vec.length = g.cfg.dim) (hlevel : nd.level ≤ 64) :
    (g.store slot nd vec existed).Slotted := by
  obtain ⟨hdata, hdead, hslots, hdims, hle⟩ := hg
  cases existed with
  | true =>
    have hids : (g.nodes.set slot nd).map (·.id) = g.nodes.map (·.id) := by
      rw [map_set]
      exact set_eq_self ((hslots nd.id slot).mp ht)
    refine ⟨by simp [Graph.store, hdata], by simp [Graph.store, hdead], ?_, ?_, ?_⟩
    · simp only [Graph.store, if_true, hids]
      exact hslots
    · intro v hv
      obtain hv | rfl := mem_or_eq_of_mem_set hv
      · exact hdims v hv
      · exact hvec
    · intro k hk
      simp only [Graph.store, if_true, map_set] at hk
      obtain hk | rfl := mem_or_eq_of_mem_set hk
      · exact hle k hk
      · exact hlevel
  | false =>
    obtain ⟨hnone, rfl⟩ := ht
    refine ⟨by simp [Graph.store, hdata], by simp [Graph.store, hdead], fun id slot => ?_, ?_, ?_⟩
    · simp only [Graph.store, Bool.false_eq_true, if_false, Std.ExtTreeMap.getElem?_insert,
        map_append, getElem?_append, length_map]
      have := hslots id slot
      grind
    · simpa [Graph.store, or_imp, forall_and, hvec] using hdims
    · simpa [Graph.store, or_imp, forall_and, hlevel] using hle

theorem bare_place (g : Graph D) (slot : ℕ) (nd : Node) (vec : Vec) (existed : Bool) :
    (g.place slot nd vec existed).bare = (g.store slot nd vec existed).bare :=
  (bare_clearStaged ..).trans (bare_setLinks ..)

theorem Layered.place (hg : g.Layered) {nd : Node} {vec : Vec}
    (hfit : g.Fits slot existed) (hlen : nd.neighbors.length = nd.level + 1)
    (hlevel : nd.level ≤ 64) : (g.place slot nd vec existed).Layered := by
  have hstore : ∀ i old, (g.store slot nd vec existed).nodes[i]? = some old →
      if i = slot then old = nd else old ∈ g.nodes := by
    intro i old hi
    cases existed with
    | true =>
      simp only [Graph.store, if_true, getElem?_set] at hi
      grind
    | false =>
      simp only [Fits, Bool.false_eq_true, if_false] at hfit
      simp only [Graph.store, Bool.false_eq_true, if_false, getElem?_append] at hi
      grind
  intro new hnew
  obtain ⟨i, hi⟩ := mem_iff_getElem?.mp hnew
  simp only [Graph.place, clearStaged, Graph.setLinks, if_true, getElem?_modify,
    Option.map_eq_map, Option.map_eq_some_iff] at hi
  obtain ⟨old, hold, rfl⟩ := hi
  have hold' := hstore i old hold
  by_cases his : i = slot
  · simp only [his, if_true] at hold' ⊢
    rw [hold']
    exact ⟨by simp [hlen], by simp [hlen], by simp only [length_set]; omega⟩
  · simp only [his, Ne.symm his, if_false] at hold' ⊢
    exact hg old hold'

theorem linkList_nil (g : Graph D) (slot l : ℕ) : g.LinkList slot l [] :=
  ⟨by simp, by simp, by simp, by simp⟩

theorem Linked.place (hg : g.Linked) {nd : Node} (vec : Vec)
    (hfit : g.Fits slot existed) (hnd : ∀ l, g.LinkList slot l (nd.neighbors.getD l [])) :
    (g.place slot nd vec existed).Linked := by
  have hlen : (g.place slot nd vec existed).nodes.length =
      g.nodes.length + if existed then 0 else 1 := by
    rw [length_of_bare (bare_place ..), store_nodes_length]
  refine ⟨?_, fun s k => ?_⟩
  · simp only [Graph.place, clearStaged_nodes_length, setLinks_nodes_length]
    rw [← store_links0_length hg.links0_length]
    exact setLinks_links0_length (g.store slot nd vec existed) slot 0 _
  · rw [links_place hfit hg.links0_length ((hnd 0).length_le rfl)]
    refine LinkList.congr (g := g) ?_ (by omega) rfl
    split
    · next heq => exact heq ▸ hnd k
    · exact hg.list s k

end Graph

end Shape

section Picks
variable {D : Type} [Dist D] {g : Graph D} {vec : Vec} {keep : ℕ → Bool}

namespace Graph
variable {P : ℕ → Prop} {entry l : ℕ}

structure Closed (g : Graph D) (P : ℕ → Prop) : Prop where
  link {k x y : ℕ} : P x → y ∈ g.links x k → P y
  lt {x : ℕ} : P x → x < g.nodes.length

omit [Dist D] in
theorem Linked.closed_lt (hl : g.Linked) : g.Closed (· < g.nodes.length) :=
  ⟨fun _ hy => (hl.list _ _).lt _ hy, id⟩

omit [Dist D] in
theorem Closed.reaches (hP : g.Closed P) {x y : ℕ} (hx : P x) (h : g.Reaches l x y) : P y := by
  induction h with
  | refl => exact hx
  | tail _ hlink ih => exact hP.link ih hlink

theorem Closed.descend (hP : g.Closed P) (hentry : P g.entryPoint) (vec : Vec)
    (lo : ℕ) : P (g.descend vec lo) :=
  descend_induction (fun _ _ _ hx _ hy => hP.link hx hy) hentry

theorem Shape.layerFound_done (hs : g.Shape) (he : entry < g.nodes.length) :
    BeamDone g vec entry g.cfg.efConstruction l
      (g.searchLayer vec entry g.cfg.efConstruction l) :=
  searchLayer_done g vec (hs.linked.linksLt l) he hs.ef_ge

theorem mem_layerFound (hs : g.Shape) (hP : g.Closed P)
    (he : P entry) {c : Candidate D} (hc : c ∈ g.layerFound vec keep entry l) :
    P c.id ∧ g.isDead c.id = false ∧ keep c.id = true := by
  obtain ⟨hc, hkeep⟩ := mem_filter.mp hc
  obtain ⟨hreach, hlive, -⟩ := (hs.layerFound_done (hP.lt he)).ok c hc
  exact ⟨hP.reaches he hreach, hlive, hkeep⟩

theorem layerFound_nodup (hs : g.Shape) (he : entry < g.nodes.length) :
    ((g.layerFound vec keep entry l).map (·.id)).Nodup :=
  ((hs.layerFound_done he).nodup).sublist (filter_sublist.map _)

theorem searchDown_length (g : Graph D) (vec : Vec) (keep : ℕ → Bool) (top entry : ℕ) :
    (g.searchDown vec keep top entry).length = top + 1 := by
  induction top generalizing entry with
  | zero => rfl
  | succ l ih => simp [searchDown, ih]

theorem searchDown_layer (hs : g.Shape) (hP : g.Closed P) (vec : Vec)
    (keep : ℕ → Bool) {top : ℕ} (he : P entry) (hl : l ≤ top) :
    ∃ e, P e ∧ (g.searchDown vec keep top entry)[l]? = some (g.layerFound vec keep e l) := by
  induction top generalizing entry with
  | zero =>
    obtain rfl : l = 0 := by omega
    exact ⟨entry, he, rfl⟩
  | succ top ih =>
    simp only [searchDown]
    by_cases htop : l = top + 1
    · refine ⟨entry, he, ?_⟩
      rw [getElem?_append_right (by rw [searchDown_length, htop]), searchDown_length, htop]
      simp
    · have hnext : P (nextEntry (g.layerFound vec keep entry (top + 1)) entry) := by
        cases hfound : g.layerFound vec keep entry (top + 1) with
        | nil => exact he
        | cons c rest => exact (mem_layerFound hs hP he (hfound ▸ mem_cons_self)).1
      obtain ⟨e, hPe, heq⟩ := ih hnext (by omega)
      exact ⟨e, hPe, by rw [getElem?_append_left (by rw [searchDown_length]; omega), heq]⟩

theorem picks_length (slot level : ℕ) (existed : Bool) :
    (g.picks vec slot level existed).length = level + 1 := by
  simp only [picks, length_append, length_mapIdx, searchDown_length, length_replicate]
  omega

theorem searchDown_mapIdx (hs : g.Shape) (hP : g.Closed P) (vec : Vec)
    (keep : ℕ → Bool) {β : Type*} (f : ℕ → List (Candidate D) → List β) (he : P entry)
    (top l : ℕ) :
    (∃ e, P e ∧ ((g.searchDown vec keep top entry).mapIdx f).getD l [] =
      f l (g.layerFound vec keep e l)) ∨
    (top < l ∧ ((g.searchDown vec keep top entry).mapIdx f).getD l [] = []) := by
  by_cases hl : l ≤ top
  · obtain ⟨e, hPe, heq⟩ := searchDown_layer hs hP vec keep he hl
    exact .inl ⟨e, hPe, by simp [heq]⟩
  · refine .inr ⟨by omega, ?_⟩
    rw [getD_eq_getElem?_getD, getElem?_eq_none (by simp [searchDown_length]; omega)]
    rfl

theorem getD_append_replicate {β : Type*} (xs : List (List β)) (n l : ℕ) :
    (xs ++ replicate n []).getD l [] = xs.getD l [] := by
  simp only [getD_eq_getElem?_getD, getElem?_append, getElem?_replicate]
  grind

theorem picks_layer (hs : g.Shape) (hP : g.Closed P) (hentry : P g.entryPoint)
    (vec : Vec) (slot level : ℕ) (existed : Bool) (l : ℕ) :
    (∃ e, P e ∧ (g.picks vec slot level existed).getD l [] = g.selectNeighbors
      (g.layerFound vec (fun id => !existed || id != slot) e l) (g.maxLinks l)) ∨
    (min level g.maxLevel < l ∧ (g.picks vec slot level existed).getD l [] = []) := by
  simp only [picks, getD_append_replicate]
  exact searchDown_mapIdx hs hP vec _ (fun l cs => g.selectNeighbors cs (g.maxLinks l))
    (hP.descend hentry vec level) _ l

theorem picks_linkList (hs : g.Shape) (hentry : g.entryPoint < g.nodes.length) {slot : ℕ}
    {existed : Bool} (hfit : g.Fits slot existed) (vec : Vec) (level l : ℕ) :
    g.LinkList slot l ((g.picks vec slot level existed).getD l []) := by
  obtain ⟨e, he, heq⟩ | ⟨-, heq⟩ := picks_layer hs hs.linked.closed_lt hentry vec slot level
    existed l
  · rw [heq]
    have hsub := g.selectNeighbors_sublist (g.layerFound vec (fun id => !existed || id != slot) e l)
      (g.maxLinks l)
    have hmem : ∀ y ∈ g.selectNeighbors (g.layerFound vec (fun id => !existed || id != slot) e l)
        (g.maxLinks l), y < g.nodes.length ∧ y ≠ slot := by
      intro y hy
      obtain ⟨c, hc, rfl⟩ := mem_map.mp (hsub.subset hy)
      obtain ⟨hlt, -, hkeep⟩ := mem_layerFound hs hs.linked.closed_lt he hc
      refine ⟨hlt, fun hslot => ?_⟩
      cases existed with
      | true => simp [hslot] at hkeep
      | false => exact absurd (hslot.trans hfit) (by omega)
    exact ⟨(layerFound_nodup hs he).sublist hsub, fun h => (hmem _ h).2 rfl, fun y hy => (hmem y hy).1,
      fun _ => (g.selectNeighbors_length_le _ _).trans (g.maxLinks_le l)⟩
  · rw [heq]
    exact linkList_nil ..

end Graph

end Picks

section Insert
variable {D : Type} [Dist D] {g : Graph D}

namespace Graph
variable {slot : ℕ}

omit [Dist D] in
theorem Shape.place (hs : g.Shape) (nd : Node) {vec : Vec} {existed : Bool}
    (ht : g.Target nd.id slot existed) (hvec : vec.length = g.cfg.dim) (hlevel : nd.level ≤ 64)
    (hlen : nd.neighbors.length = nd.level + 1)
    (hnd : ∀ l, g.LinkList slot l (nd.neighbors.getD l [])) :
    (g.place slot nd vec existed).Shape := by
  have hfit := hs.slotted.fits ht
  refine ⟨(hs.slotted.store ht hvec hlevel).congr (bare_place ..), hs.layered.place hfit hlen hlevel,
    hs.linked.place vec hfit hnd, hs.m_ge, hs.ef_ge⟩

theorem Shape.addAll (hs : g.Shape) {ups : List ((ℕ × ℕ) × List ℕ)} (hups : g.Addable ups)
    (hlayers : ∀ up ∈ ups, up.1.2 ≤ 64) : (g.addAll ups).Shape := by
  have hb := g.bare_addAll ups
  refine ⟨hs.slotted.congr hb, ?_, hs.linked.addAll hups, ?_, ?_⟩
  · have hlayered := hs.layered
    clear hs hups hb
    induction ups generalizing g with
    | nil => exact hlayered
    | cons up ups ih =>
      obtain ⟨hup, hrest⟩ := forall_mem_cons.mp hlayers
      exact ih hrest (hlayered.setLinks hup _ _)
  · rw [cfg_of_bare hb]
    exact hs.m_ge
  · rw [cfg_of_bare hb]
    exact hs.ef_ge

theorem Shape.connect (hs : g.Shape) {level : ℕ} (hslot : slot < g.nodes.length)
    (hlevel : level ≤ 64) : (g.connect slot level).Shape := by
  rw [connect_eq_addAll hs.linked hslot]
  refine hs.addAll (hs.linked.connections_addable hslot _) fun up hup => ?_
  have := (mem_connections.mp hup).1
  rw [mem_range] at this
  omega

omit [Dist D] in
theorem promote_tables (g : Graph D) (slot level : ℕ) : (g.promote slot level).tables = g.tables := by
  simp only [Graph.promote]
  split
  · rfl
  · split <;> rfl

theorem new_wf (cfg : Config D) (rng : ℕ → ℕ) : (new cfg rng).WF := by
  refine ⟨⟨⟨rfl, rfl, by simp [new], by simp [new], by simp [new]⟩, by simp [Layered, new], ⟨rfl, ?_⟩,
    ?_, ?_⟩, rfl, by simp [new], by simp [new], by simp [new]⟩
  · intro slot l
    have hnil : (new cfg rng).links slot l = [] := by
      simp only [links, new]
      split
      · simp
      · simp [default]
    rw [hnil]
    exact linkList_nil ..
  · simp only [new, Config.withDefaults]
    split <;> omega
  · simp only [new, Config.withDefaults]
    split <;> omega

section
omit [Dist D]

section
variable (g : Graph D) (slot level : ℕ)

theorem promote_entryPoint : (g.promote slot level).entryPoint =
      if g.maxLevel < level ∨ g.links slot 0 = [] then slot else g.entryPoint := by
  simp only [Graph.promote, length_eq_zero_iff]
  grind

theorem promote_maxLevel : (g.promote slot level).maxLevel = max g.maxLevel level := by
  simp only [Graph.promote]
  grind

theorem promote_rest : (g.promote slot level).live = g.live ∧
    (g.promote slot level).hasEntry = g.hasEntry ∧ (g.promote slot level).rng = g.rng := by
  simp only [Graph.promote]
  grind

end

theorem WF.promote (hw : g.WF) {level : ℕ} (hslot : slot < g.nodes.length)
    (hlevel : level ≤ 64) : (g.promote slot level).WF := by
  have ht := g.promote_tables slot level
  obtain ⟨hlive, hhas, -⟩ := g.promote_rest slot level
  refine ⟨hw.shape.of_tables ht, ?_, ?_, fun hne => ?_, ?_⟩
  · rw [hlive, dead_of_tables ht, hw.live_eq]
  · rw [hhas, nodes_of_tables ht, hw.hasEntry_iff]
  · rw [nodes_of_tables ht] at hne ⊢
    rw [promote_entryPoint]
    split
    · exact hslot
    · exact hw.entry_lt hne
  · rw [promote_maxLevel]
    exact max_le hw.maxLevel_le hlevel

theorem Slotted.count_dead_store (hg : g.Slotted) {existed : Bool}
    (hfit : g.Fits slot existed) (nd : Node) (vec : Vec) :
    (g.store slot nd vec existed).dead.count false =
      g.dead.count false + if !existed || g.isDead slot then 1 else 0 := by
  cases existed with
  | true =>
    have hslot : slot < g.dead.length := by
      rw [hg.dead_length]
      exact hfit
    have hpos : g.dead[slot] = false → 1 ≤ g.dead.count false := fun h =>
      count_pos_iff.mpr (h ▸ getElem_mem hslot)
    simp only [Graph.store, if_true, count_set hslot, isDead, getD_eq_getElem?_getD,
      getElem?_eq_getElem hslot, Option.getD_some]
    cases hd : g.dead[slot] with
    | true => simp
    | false =>
      have := hpos hd
      simp
      omega
  | false => simp [Graph.store]

end

theorem bare_connect (hl : g.Linked) (hs : slot < g.nodes.length) (level : ℕ) :
    (g.connect slot level).bare = g.bare := by
  rw [connect_eq_addAll hl hs]
  exact bare_addAll ..

theorem getD_replicate_nil (n l : ℕ) : (replicate n ([] : List ℕ)).getD l [] = [] := by
  simp only [getD_eq_getElem?_getD, getElem?_replicate]
  split <;> rfl

omit [Dist D] in
theorem WF.insertFirst (hw : g.WF) {id : UInt64} {vec : Vec} {level : ℕ}
    (ht : g.Target id 0 false) (hvec : vec.length = g.cfg.dim) (hlevel : level ≤ 64) :
    ({ ({ g with live := g.live + 1 }).place 0 ⟨id, level, replicate (level + 1) []⟩ vec false
      with entryPoint := 0, hasEntry := true, maxLevel := level } : Graph D).WF := by
  have hs : ({ g with live := g.live + 1 } : Graph D).Shape :=
    hw.shape.of_tables rfl
  have hplace := hs.place ⟨id, level, replicate (level + 1) []⟩ ht hvec hlevel (by simp)
    fun l => (getD_replicate_nil (level + 1) l).symm ▸ linkList_nil ..
  have hb := ({ g with live := g.live + 1 } : Graph D).bare_place 0
    ⟨id, level, replicate (level + 1) []⟩ vec false
  have hlen : 0 < (({ g with live := g.live + 1 } : Graph D).place 0
      ⟨id, level, replicate (level + 1) []⟩ vec false).nodes.length := by
    rw [length_of_bare hb, store_nodes_length]
    simp
  refine ⟨hplace.of_tables rfl, ?_, ?_, fun _ => hlen, hlevel⟩
  · have hcount := hw.shape.slotted.count_dead_store (hw.shape.slotted.fits ht)
      ⟨id, level, replicate (level + 1) []⟩ vec
    refine (live_of_bare hb).trans (Eq.trans ?_ (congrArg _ (dead_of_bare hb)).symm)
    simp only [Bool.not_false, Bool.true_or, if_true, ← hw.live_eq] at hcount
    exact hcount.symm
  · exact ⟨fun _ => ne_nil_of_length_pos hlen, fun _ => rfl⟩

def placedAt (g : Graph D) (id : UInt64) (vec : Vec) (level slot : ℕ) (existed : Bool) : Graph D :=
  (g.countLive slot existed).place slot ⟨id, level, g.picks vec slot level existed⟩ vec existed

section PlacedAt
variable {id : UInt64} {vec : Vec} {level slot : ℕ} {existed : Bool}

theorem insertAt_eq (hentry : g.hasEntry = true) : g.insertAt id vec level slot existed =
    ((g.placedAt id vec level slot existed).connect slot level).promote slot level := by
  simp [Graph.insertAt, hentry, placedAt]

theorem WF.placedAt_shape (hw : g.WF) (hne : g.nodes ≠ []) (ht : g.Target id slot existed)
    (hvec : vec.length = g.cfg.dim) (hlevel : level ≤ 64) :
    (g.placedAt id vec level slot existed).Shape := by
  have hs : (g.countLive slot existed).Shape := hw.shape.of_tables rfl
  refine hs.place ⟨id, level, g.picks vec slot level existed⟩ ht hvec hlevel (picks_length ..) ?_
  intro l
  exact (picks_linkList hw.shape (hw.entry_lt hne) (hw.shape.slotted.fits ht) vec level l).congr
    le_rfl rfl

theorem placedAt_bare (g : Graph D) : (g.placedAt id vec level slot existed).bare =
    ((g.countLive slot existed).store slot ⟨id, level, g.picks vec slot level existed⟩ vec
      existed).bare :=
  bare_place ..

theorem WF.placedAt_links (hw : g.WF) (hne : g.nodes ≠ []) (ht : g.Target id slot existed)
    (vec : Vec) (level s k : ℕ) : (g.placedAt id vec level slot existed).links s k =
      if s = slot then (g.picks vec slot level existed).getD k [] else g.links s k := by
  have hfit := hw.shape.slotted.fits ht
  exact links_place (g := g.countLive slot existed) hfit hw.shape.linked.links0_length
    ((picks_linkList hw.shape (hw.entry_lt hne) hfit vec level 0).length_le rfl)

theorem WF.lt_placedAt (hw : g.WF) (ht : g.Target id slot existed) :
    slot < (g.placedAt id vec level slot existed).nodes.length := by
  rw [length_of_bare g.placedAt_bare]
  exact Fits.lt_store (g := g.countLive slot existed) (hw.shape.slotted.fits ht) _ _

section
variable (hw : g.WF) (hne : g.nodes ≠ []) (ht : g.Target id slot existed)
  (hvec : vec.length = g.cfg.dim) (hlevel : level ≤ 64)
include hw hne ht hvec hlevel

theorem WF.connected_bare : ((g.placedAt id vec level slot existed).connect slot level).bare =
      ((g.countLive slot existed).store slot ⟨id, level, g.picks vec slot level existed⟩ vec
        existed).bare :=
  (bare_connect (hw.placedAt_shape hne ht hvec hlevel).linked (hw.lt_placedAt ht) level).trans
    g.placedAt_bare

theorem WF.insertNext : ((g.placedAt id vec level slot existed).connect slot level).WF := by
  have hshape := (hw.placedAt_shape hne ht hvec hlevel).connect (hw.lt_placedAt ht) hlevel
  have hb := hw.connected_bare hne ht hvec hlevel
  have hlen : g.nodes.length ≤
      ((g.placedAt id vec level slot existed).connect slot level).nodes.length := by
    rw [length_of_bare hb, store_nodes_length]
    exact Nat.le_add_right ..
  have hpos := length_pos_of_ne_nil hne
  refine ⟨hshape, ?_, ?_, fun _ => ?_, ?_⟩
  · rw [live_of_bare hb, dead_of_bare hb]
    refine Eq.trans ?_ (hw.shape.slotted.count_dead_store (hw.shape.slotted.fits ht)
      ⟨id, level, g.picks vec slot level existed⟩ vec).symm
    simp only [Graph.store, countLive, hw.live_eq]
    split <;> rfl
  · rw [hasEntry_of_bare hb]
    exact ⟨fun _ => ne_nil_of_length_pos (by omega), fun _ => hw.hasEntry_iff.mpr hne⟩
  · rw [entryPoint_of_bare hb]
    exact Nat.lt_of_lt_of_le (hw.entry_lt hne) hlen
  · rw [maxLevel_of_bare hb]
    exact hw.maxLevel_le

end

omit [Dist D] in
theorem WF.insertAt_cases (hw : g.WF) (ht : g.Target id slot existed) :
    (g.nodes = [] ∧ g.hasEntry = false ∧ slot = 0 ∧ existed = false) ∨
      (g.nodes ≠ [] ∧ g.hasEntry = true) := by
  cases hentry : g.hasEntry with
  | true => exact .inr ⟨hw.hasEntry_iff.mp hentry, rfl⟩
  | false =>
    have hnil : g.nodes = [] := by
      by_contra hne
      simp [hw.hasEntry_iff.mpr hne] at hentry
    have hfit := hw.shape.slotted.fits ht
    cases existed with
    | true => simp [Fits, hnil] at hfit
    | false => exact .inl ⟨hnil, rfl, by simpa [Fits, hnil] using hfit, rfl⟩

theorem WF.insertAt (hw : g.WF) (ht : g.Target id slot existed) (hvec : vec.length = g.cfg.dim)
    (hlevel : level ≤ 64) : (g.insertAt id vec level slot existed).WF := by
  obtain ⟨-, hentry, rfl, rfl⟩ | ⟨hne, hentry⟩ := hw.insertAt_cases ht
  · simpa [Graph.insertAt, hentry] using hw.insertFirst ht hvec hlevel
  · rw [insertAt_eq hentry]
    refine (hw.insertNext hne ht hvec hlevel).promote ?_ hlevel
    rw [length_of_bare (hw.connected_bare hne ht hvec hlevel), ← length_of_bare g.placedAt_bare]
    exact hw.lt_placedAt ht

end PlacedAt

omit [Dist D] in
theorem WF.of_rng (hw : g.WF) (rng : ℕ → ℕ) : ({ g with rng := rng } : Graph D).WF :=
  ⟨hw.shape.of_tables rfl, hw.live_eq, hw.hasEntry_iff, hw.entry_lt, hw.maxLevel_le⟩

omit [Dist D] in
theorem target_slotFor (g : Graph D) (id : UInt64) : g.Target id (g.slotFor id).1 (g.slotFor id).2 := by
  simp only [slotFor]
  cases hslot : g.slots[id]? with
  | some slot => exact hslot
  | none => exact ⟨hslot, rfl⟩

theorem WF.insertLocked (hw : g.WF) (id : UInt64) {vec : Vec} (hvec : vec.length = g.cfg.dim) :
    (g.insertLocked id vec).WF :=
  (hw.of_rng fun k => g.rng (k + 1)).insertAt (target_slotFor ..) hvec (Nat.min_le_right ..)

end Graph

end Insert

end NuclaDB.Hnsw
