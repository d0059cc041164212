import Mathlib.Data.List.Nodup
import NuclaDB.HnswInsert

/-!
# Back-links

Both insertions end by adding back-links to lists that differ from each other. `bare` is the
graph without its links.
-/

namespace NuclaDB.Hnsw

open List

section Bare
variable {D : Type} {g h : Graph D}

theorem map_modify_of_eq {α β : Type*} {f : α → α} {p : α → β} (hp : ∀ a, p (f a) = p a)
    (l : List α) (i : ℕ) : (l.modify i f).map p = l.map p := by
  apply ext_getElem?
  intro j
  simp only [getElem?_map, getElem?_modify]
  cases l[j]? with
  | none => rfl
  | some a => by_cases hij : i = j <;> simp [hij, hp]

namespace Graph

def bare (g : Graph D) : Graph D :=
  { g with links0 := [], nodes := g.nodes.map fun nd => { nd with neighbors := [] } }

theorem bare_setLinks (g : Graph D) (slot l : ℕ) (ids : List ℕ) :
    (g.setLinks slot l ids).bare = g.bare := by
  simp only [bare, setLinks]
  split
  · rfl
  · rw [map_modify_of_eq (f := fun nd : Node => nd.setLayer l ids) fun _ => rfl]

theorem bare_clearStaged (g : Graph D) (slot : ℕ) : (g.clearStaged slot).bare = g.bare := by
  simp only [bare, clearStaged]
  rw [map_modify_of_eq (f := fun nd : Node => { nd with neighbors := nd.neighbors.set 0 [] })
    fun _ => rfl]

section
variable (hb : h.bare = g.bare)
include hb

theorem length_of_bare : h.nodes.length = g.nodes.length := by
  simpa [bare] using congrArg (fun g => g.nodes.length) hb

theorem data_of_bare : h.data = g.data := congrArg (·.data) hb

theorem cfg_of_bare : h.cfg = g.cfg := congrArg (·.cfg) hb

theorem dist_of_bare : h.dist = g.dist := congrArg (·.dist) hb

theorem dead_of_bare : h.dead = g.dead := congrArg (·.dead) hb

theorem live_of_bare : h.live = g.live := congrArg (·.live) hb

theorem hasEntry_of_bare : h.hasEntry = g.hasEntry :=
  congrArg (·.hasEntry) hb

theorem entryPoint_of_bare : h.entryPoint = g.entryPoint :=
  congrArg (·.entryPoint) hb

theorem maxLevel_of_bare : h.maxLevel = g.maxLevel :=
  congrArg (·.maxLevel) hb

theorem vec_of_bare (slot : ℕ) : h.vec slot = g.vec slot := by
  simp only [vec, data_of_bare hb]

theorem maxLinks_of_bare (l : ℕ) : h.maxLinks l = g.maxLinks l := by
  simp only [maxLinks, cfg_of_bare hb]

end

structure LinkList (g : Graph D) (slot l : ℕ) (ids : List ℕ) : Prop where
  nodup : ids.Nodup
  ne : slot ∉ ids
  lt : ∀ y ∈ ids, y < g.nodes.length
  length_le : l = 0 → ids.length ≤ 2 * g.cfg.m

structure Linked (g : Graph D) : Prop where
  links0_length : g.links0.length = g.nodes.length
  list (slot l : ℕ) : g.LinkList slot l (g.links slot l)

theorem LinkList.congr {slot l : ℕ} {ids : List ℕ} (hl : g.LinkList slot l ids)
    (hn : g.nodes.length ≤ h.nodes.length) (hc : h.cfg = g.cfg) : h.LinkList slot l ids :=
  ⟨hl.nodup, hl.ne, fun y hy => Nat.lt_of_lt_of_le (hl.lt y hy) hn, hc ▸ hl.length_le⟩

theorem Linked.linksLt (hl : g.Linked) (l : ℕ) : g.LinksLt l := fun x _ hy => (hl.list x l).lt _ hy

theorem Linked.setLinks (hl : g.Linked) {slot l : ℕ} {ids : List ℕ} (hs : slot < g.nodes.length)
    (hids : g.LinkList slot l ids) : (g.setLinks slot l ids).Linked := by
  refine ⟨by simp [hl.links0_length], fun s k => ?_⟩
  refine LinkList.congr (g := g) ?_ (by simp) rfl
  rw [links_setLinks hs hl.links0_length hids.length_le]
  split
  · next heq => exact heq.1 ▸ heq.2 ▸ hids
  · exact hl.list s k

end Graph

end Bare

section Merged
variable {D : Type} [Dist D] {g h : Graph D} {nbr l mMax : ℕ} {newIDs : List ℕ}

namespace Graph

theorem mem_appendNew {cur : List ℕ} {x : ℕ} : x ∈ appendNew cur newIDs ↔ x ∈ cur ∨ x ∈ newIDs := by
  induction newIDs generalizing cur with
  | nil => simp [appendNew]
  | cons id rest ih =>
    simp only [appendNew, foldl_cons] at ih ⊢
    rw [ih]
    split <;> simp only [mem_cons, mem_append, not_mem_nil, or_false] <;> grind

theorem appendNew_nodup {cur : List ℕ} (hcur : cur.Nodup) : (appendNew cur newIDs).Nodup := by
  induction newIDs generalizing cur with
  | nil => simpa [appendNew] using hcur
  | cons id rest ih =>
    simp only [appendNew, foldl_cons] at ih ⊢
    apply ih
    split
    · exact hcur
    · next hid => exact nodup_append.mpr ⟨hcur, by simp, by grind⟩

theorem mergedLinks_subset {x : ℕ} (hx : x ∈ g.mergedLinks nbr newIDs l mMax) :
    x ∈ g.links nbr l ∨ x ∈ newIDs := by
  rw [← mem_appendNew]
  simp only [mergedLinks] at hx
  split at hx
  · have := (g.selectNeighbors_sublist _ _).subset hx
    simpa [(Dist.sortSlice_perm _).mem_iff] using this
  · exact hx

theorem mergedLinks_nodup (hcur : (g.links nbr l).Nodup) : (g.mergedLinks nbr newIDs l mMax).Nodup := by
  have hnodup : (appendNew (g.links nbr l) newIDs).Nodup := appendNew_nodup hcur
  simp only [mergedLinks]
  split
  · refine (g.selectNeighbors_sublist _ _).nodup ?_
    rw [((Dist.sortSlice_perm _).map _).nodup_iff, map_map]
    simpa [Function.comp_def] using hnodup
  · exact hnodup

theorem mergedLinks_ne_nil (hm : 1 ≤ mMax) (hcur : g.links nbr l ≠ []) :
    g.mergedLinks nbr newIDs l mMax ≠ [] := by
  obtain ⟨x, hx⟩ := exists_mem_of_ne_nil _ hcur
  have hmem : x ∈ appendNew (g.links nbr l) newIDs := mem_appendNew.mpr (.inl hx)
  simp only [mergedLinks]
  split
  · rw [ne_eq, selectNeighbors_eq_nil hm, ← ne_eq, ← length_pos_iff,
      (Dist.sortSlice_perm _).length_eq, length_map]
    exact length_pos_of_mem hmem
  · exact ne_nil_of_mem hmem

theorem mergedLinks_length_le : (g.mergedLinks nbr newIDs l mMax).length ≤ mMax := by
  simp only [mergedLinks]
  split
  · exact g.selectNeighbors_length_le _ _
  · omega

theorem diverse_of_bare (hb : h.bare = g.bare) (m : ℕ) (cs out : List (Candidate D)) :
    h.diverse m cs out = g.diverse m cs out := by
  induction cs generalizing out with
  | nil => rfl
  | cons c rest ih => simp only [diverse, dist_of_bare hb, vec_of_bare hb, ih]

theorem selectNeighbors_of_bare (hb : h.bare = g.bare) (cs : List (Candidate D)) (m : ℕ) :
    h.selectNeighbors cs m = g.selectNeighbors cs m := by
  simp only [selectNeighbors, diverse_of_bare hb]

theorem mergedLinks_of_bare (hb : h.bare = g.bare) (hlinks : h.links nbr l = g.links nbr l) :
    h.mergedLinks nbr newIDs l mMax = g.mergedLinks nbr newIDs l mMax := by
  simp only [mergedLinks, hlinks, dist_of_bare hb, vec_of_bare hb, selectNeighbors_of_bare hb]

theorem Linked.merged (hl : g.Linked) (hnew : ∀ x ∈ newIDs, x < g.nodes.length)
    (hne : nbr ∉ newIDs) : g.LinkList nbr l (g.mergedLinks nbr newIDs l (g.maxLinks l)) := by
  have hlist := hl.list nbr l
  refine ⟨mergedLinks_nodup hlist.nodup, fun hmem => ?_, fun y hy => ?_,
    fun _ => mergedLinks_length_le.trans (g.maxLinks_le l)⟩
  · exact (mergedLinks_subset hmem).elim hlist.ne hne
  · exact (mergedLinks_subset hy).elim (hlist.lt y) (hnew y)

end Graph

end Merged

section AddAll
variable {D : Type} [Dist D] {g : Graph D}

namespace Graph
variable {slot : ℕ} {ups : List ((ℕ × ℕ) × List ℕ)} {layers : List ℕ}

theorem bare_addAll (g : Graph D) (ups : List ((ℕ × ℕ) × List ℕ)) : (g.addAll ups).bare = g.bare := by
  induction ups generalizing g with
  | nil => rfl
  | cons up ups ih => exact (ih _).trans (bare_setLinks ..)

def Addable (g : Graph D) (ups : List ((ℕ × ℕ) × List ℕ)) : Prop :=
  ∀ up ∈ ups, up.1.1 < g.nodes.length ∧ up.1.1 ∉ up.2 ∧ ∀ x ∈ up.2, x < g.nodes.length

theorem Linked.addLinks (hl : g.Linked) {up : (ℕ × ℕ) × List ℕ}
    (hup : up.1.1 < g.nodes.length ∧ up.1.1 ∉ up.2 ∧ ∀ x ∈ up.2, x < g.nodes.length) :
    (g.addLinks up.1.1 up.2 up.1.2 (g.maxLinks up.1.2)).Linked :=
  hl.setLinks hup.1 (hl.merged hup.2.2 hup.2.1)

section
variable (hl : g.Linked) (hups : g.Addable ups)
include hl hups

theorem Linked.addAll : (g.addAll ups).Linked := by
  induction ups generalizing g with
  | nil => exact hl
  | cons up ups ih =>
    have hup := hups up mem_cons_self
    refine ih (hl.addLinks hup) fun v hv => ?_
    simpa [Graph.addLinks] using hups v (mem_cons_of_mem _ hv)

theorem addAll_links (hkeys : (ups.map (·.1)).Nodup) (s k : ℕ) :
    (∀ ids, ((s, k), ids) ∈ ups → (g.addAll ups).links s k = g.mergedLinks s ids k (g.maxLinks k)) ∧
      ((s, k) ∉ ups.map (·.1) → (g.addAll ups).links s k = g.links s k) := by
  induction ups generalizing g with
  | nil => exact ⟨by simp, fun _ => rfl⟩
  | cons up ups ih =>
    obtain ⟨hup, hrest⟩ := forall_mem_cons.mp hups
    obtain ⟨hnot, hkeys'⟩ := nodup_cons.mp hkeys
    have hset : ∀ s k, (g.addLinks up.1.1 up.2 up.1.2 (g.maxLinks up.1.2)).links s k =
        if s = up.1.1 ∧ k = up.1.2 then g.mergedLinks up.1.1 up.2 up.1.2 (g.maxLinks up.1.2)
        else g.links s k := fun s k => links_setLinks hup.1 hl.links0_length
          fun _ => mergedLinks_length_le.trans (g.maxLinks_le _)
    have hother : (s, k) ≠ up.1 →
        (g.addLinks up.1.1 up.2 up.1.2 (g.maxLinks up.1.2)).links s k = g.links s k := fun hne => by
      rw [hset, if_neg fun heq => hne (Prod.ext heq.1 heq.2)]
    obtain ⟨hin, hout⟩ := ih (hl.addLinks hup) (by simpa [Addable, addLinks] using hrest) hkeys'
    refine ⟨fun ids hids => ?_, fun hs => ?_⟩
    · obtain rfl | hids := mem_cons.mp hids
      · refine (hout hnot).trans ?_
        rw [hset, if_pos ⟨rfl, rfl⟩]
      · have hne : (s, k) ≠ up.1 := fun heq => hnot (mem_map.mpr ⟨_, hids, heq⟩)
        exact (hin ids hids).trans (mergedLinks_of_bare (bare_setLinks ..) (hother hne))
    · simp only [map_cons, mem_cons, not_or] at hs
      exact (hout hs.2).trans (hother hs.1)

theorem mem_addAll_links
    (hkeys : (ups.map (·.1)).Nodup) {s k y : ℕ} (hy : y ∈ (g.addAll ups).links s k) :
    y ∈ g.links s k ∨ ∃ ids, ((s, k), ids) ∈ ups ∧ y ∈ ids := by
  obtain ⟨hmerged, hsame⟩ := addAll_links hl hups hkeys s k
  by_cases hkey : (s, k) ∈ ups.map (·.1)
  · obtain ⟨⟨key, ids⟩, hup, rfl⟩ := mem_map.mp hkey
    rw [hmerged ids hup] at hy
    exact (mergedLinks_subset hy).imp_right fun hmem => ⟨ids, hup, hmem⟩
  · exact .inl (hsame hkey ▸ hy)

end

def connections (g : Graph D) (slot : ℕ) (layers : List ℕ) : List ((ℕ × ℕ) × List ℕ) :=
  layers.flatMap fun l => (g.links slot l).map fun nbr => ((nbr, l), [slot])

section
omit [Dist D]

theorem mem_connections {up : (ℕ × ℕ) × List ℕ} : up ∈ g.connections slot layers ↔
      up.1.2 ∈ layers ∧ up.1.1 ∈ g.links slot up.1.2 ∧ up.2 = [slot] := by
  obtain ⟨⟨nbr, l⟩, ids⟩ := up
  simp only [connections, mem_flatMap, mem_map, Prod.mk.injEq]
  constructor
  · rintro ⟨l, hl, nbr, hnbr, ⟨rfl, rfl⟩, rfl⟩
    exact ⟨hl, hnbr, rfl⟩
  · rintro ⟨hl, hnbr, rfl⟩
    exact ⟨l, hl, nbr, hnbr, ⟨rfl, rfl⟩, rfl⟩

theorem Linked.connections_addable (hl : g.Linked) (hs : slot < g.nodes.length)
    (layers : List ℕ) : g.Addable (g.connections slot layers) := by
  intro up hup
  obtain ⟨-, hnbr, hids⟩ := mem_connections.mp hup
  have hlist := hl.list slot up.1.2
  refine ⟨hlist.lt _ hnbr, ?_, ?_⟩ <;> rw [hids]
  · simpa using fun heq : up.1.1 = slot => hlist.ne (heq ▸ hnbr)
  · simpa using hs

theorem Linked.connections_keys (hl : g.Linked) (slot : ℕ)
    (hlayers : layers.Nodup) : ((g.connections slot layers).map (·.1)).Nodup := by
  simp only [connections, map_flatMap, map_map, Function.comp_def]
  refine nodup_flatMap.mpr ⟨fun l _ => ?_, ?_⟩
  · exact (hl.list slot l).nodup.map fun x y hxy => (Prod.mk.inj hxy).1
  · refine hlayers.imp fun hne x hx hy => hne ?_
    obtain ⟨_, -, rfl⟩ := mem_map.mp hx
    obtain ⟨_, -, heq⟩ := mem_map.mp hy
    exact (Prod.mk.inj heq).2.symm

end

theorem addAll_append (ups vps : List ((ℕ × ℕ) × List ℕ)) :
    g.addAll (ups ++ vps) = (g.addAll ups).addAll vps := by
  simp [addAll]

omit [Dist D] in
theorem connections_congr {h : Graph D} (hlinks : ∀ k, h.links slot k = g.links slot k)
    (layers : List ℕ) : h.connections slot layers = g.connections slot layers := by
  simp only [connections, hlinks]

theorem connections_addAll (hl : g.Linked) (hs : slot < g.nodes.length)
    {rest : List ℕ} (hlayers : layers.Nodup) :
    (g.addAll (g.connections slot layers)).connections slot rest = g.connections slot rest := by
  have hslot : ∀ k, (g.addAll (g.connections slot layers)).links slot k = g.links slot k := fun k =>
    (addAll_links hl (hl.connections_addable hs layers) (hl.connections_keys slot hlayers) slot k).2
      fun hmem => by
        obtain ⟨up, hup, heq⟩ := mem_map.mp hmem
        have hnbr := (mem_connections.mp hup).2.1
        rw [heq] at hnbr
        exact (hl.list slot k).ne hnbr
  exact connections_congr hslot rest

theorem connect_eq_addAll (hl : g.Linked) (hs : slot < g.nodes.length) (level : ℕ) :
    g.connect slot level = g.addAll (g.connections slot (List.range (level + 1))) := by
  have hinner : ∀ (h : Graph D) (l : ℕ), (h.links slot l).foldl
      (fun h nbr => h.addLinks nbr [slot] l (h.maxLinks l)) h = h.addAll (h.connections slot [l]) :=
    fun h l => by simp [addAll, connections, foldl_map]
  simp only [connect, hinner]
  induction level + 1 with
  | zero => rfl
  | succ n ih =>
    rw [range_succ, foldl_append, ih, foldl_cons, foldl_nil,
      connections_addAll hl hs nodup_range, ← addAll_append]
    simp [connections]

end Graph

end AddAll

end NuclaDB.Hnsw
