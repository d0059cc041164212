import NuclaDB.HnswExact
import NuclaDB.HnswLevels

/-!
# Levels, links and the entry point

In a graph in tiers every node has one list for each of its layers, links stay in their
layer, and the entry point is of the highest level. `Step.keepsTiers` keeps it so.
-/

namespace NuclaDB.Hnsw

open List Nat

variable {D : Type} [Dist D] {g h : Graph D}

namespace Graph

structure Tiered (g : Graph D) : Prop where
  leveled : g.Leveled
  links_le {x l y : ℕ} : y ∈ g.links x l → l ≤ g.levelAt y
  level_le (slot : ℕ) : g.levelAt slot ≤ g.maxLevel
  entry : g.nodes ≠ [] → g.levelAt g.entryPoint = g.maxLevel

def UnlinkedAbove (g : Graph D) (slot level : ℕ) : Prop :=
  ∀ nd ∈ g.nodes, ∀ ids ∈ nd.neighbors.drop (level + 1), slot ∉ ids

/-- The node stays in every layer that it is linked in, and takes the entry point only at the top
level. -/
def InsertTiers (g : Graph D) (vec : Vec) (level slot : ℕ) (existed : Bool) : Prop :=
  g.UnlinkedAbove slot level ∧ (g.maxLevel ≤ level ∨
    g.entryPoint ≠ slot ∧ (g.picks vec slot level existed).getD 0 [] ≠ [])

/-- The first node of a chunk finds a live vector or has the top level. -/
def ChunkTiers (g : Graph D) (chunk : List ChunkNode) : Prop :=
  ∀ nd ∈ chunk.head?, g.maxLevel ≤ nd.level ∨ (g.chunkFound nd).getD 0 [] ≠ []

omit [Dist D] in
instance (g : Graph D) (slot level : ℕ) : Decidable (g.UnlinkedAbove slot level) :=
  inferInstanceAs (Decidable (∀ nd ∈ g.nodes, ∀ ids ∈ nd.neighbors.drop (level + 1), slot ∉ ids))

instance (g : Graph D) (vec : Vec) (level slot : ℕ) (existed : Bool) :
    Decidable (g.InsertTiers vec level slot existed) :=
  inferInstanceAs (Decidable (g.UnlinkedAbove slot level ∧ (g.maxLevel ≤ level ∨
    g.entryPoint ≠ slot ∧ (g.picks vec slot level existed).getD 0 [] ≠ [])))

instance (g : Graph D) (chunk : List ChunkNode) : Decidable (g.ChunkTiers chunk) :=
  inferInstanceAs (Decidable (∀ nd ∈ chunk.head?, _))

end Graph

/-- The step leaves no node below a layer it is linked in and no entry point below the top one. -/
def Step.keepsTiers (g : Graph D) : Step → Bool
  | .insert id vector =>
    let (level, g) := g.randomLevel
    let (slot, existed) := g.slotFor id
    decide (g.hasEntry = true → g.InsertTiers (g.prep vector) level slot existed)
  | .chunk items =>
    let (nodes, g) := g.drawChunk items
    decide (g.ChunkTiers nodes)
  | .delete _ => true

namespace Graph

section Searching
variable {vec : Vec} {keep : ℕ → Bool} {l : ℕ}

section
variable (ht : g.Tiered)
include ht

omit [Dist D] in
theorem Tiered.reaches {x y : ℕ} (h : g.Reaches l x y) (hx : l ≤ g.levelAt x) :
    l ≤ g.levelAt y := by
  cases h with
  | refl => exact hx
  | tail _ hlink => exact ht.links_le hlink

theorem Tiered.descend_level (hne : g.nodes ≠ []) (vec : Vec) (lo : ℕ) :
    min lo g.maxLevel ≤ g.levelAt (g.descend vec lo) := by
  refine descend_induction (P := fun x => min lo g.maxLevel ≤ g.levelAt x)
    (fun k hk x _ y hy => ?_) ?_
  · have := ht.links_le hy
    omega
  · rw [ht.entry hne]
    exact min_le_right ..

theorem Tiered.layerFound_level (hs : g.Shape) {entry : ℕ}
    (he : entry < g.nodes.length) (hl : l ≤ g.levelAt entry) {c : Candidate D}
    (hc : c ∈ g.layerFound vec keep entry l) : c.id < g.nodes.length ∧ l ≤ g.levelAt c.id := by
  have hreach := ((hs.layerFound_done he).ok c (mem_of_mem_filter hc)).1
  exact ⟨hreach.lt (hs.linked.linksLt l) he, ht.reaches hreach hl⟩

theorem Tiered.searchDown_level (hs : g.Shape) {top entry : ℕ}
    (he : entry < g.nodes.length) (hentry : top ≤ g.levelAt entry) {c : Candidate D}
    (hc : c ∈ (g.searchDown vec keep top entry).getD l []) : l ≤ g.levelAt c.id := by
  induction top generalizing entry with
  | zero =>
    cases l with
    | zero => exact Nat.zero_le _
    | succ l => simp [searchDown] at hc
  | succ top ih =>
    simp only [searchDown] at hc
    have hlen := g.searchDown_length vec keep top
      (nextEntry (g.layerFound vec keep entry (top + 1)) entry)
    rw [getD_eq_getElem?_getD] at hc
    by_cases htop : l ≤ top
    · rw [getElem?_append_left (by omega), ← getD_eq_getElem?_getD] at hc
      cases hfound : g.layerFound vec keep entry (top + 1) with
      | nil =>
        rw [hfound] at hc
        exact ih he (by omega) hc
      | cons d rest =>
        rw [hfound] at hc
        have hd := ht.layerFound_level hs he hentry (hfound ▸ mem_cons_self)
        exact ih hd.1 (by omega) hc
    · rw [getElem?_append_right (by omega), hlen] at hc
      by_cases hl : l = top + 1
      · subst hl
        simp only [Nat.sub_self, getElem?_cons_zero, Option.getD_some] at hc
        exact (ht.layerFound_level hs he hentry hc).2
      · rw [getElem?_eq_none (by simp; omega)] at hc
        simp at hc

theorem Tiered.found_level (hw : g.WF) (hne : g.nodes ≠ []) {level : ℕ} {c : Candidate D}
    (hc : c ∈ (g.searchDown vec keep (min level g.maxLevel) (g.descend vec level)).getD l []) :
    l ≤ g.levelAt c.id :=
  ht.searchDown_level hw.shape
    (hw.shape.linked.closed_lt.descend (hw.entry_lt hne) vec level) (ht.descend_level hne vec level) hc

end

theorem getD_mapIdx_mem {α β : Type*} {f : ℕ → List α → List β} {p : α → β → Prop}
    (hf : ∀ l xs, ∀ y ∈ f l xs, ∃ x ∈ xs, p x y) {xss : List (List α)} {y : β}
    (hy : y ∈ (xss.mapIdx f).getD l []) : ∃ x ∈ xss.getD l [], p x y := by
  rw [getD_eq_getElem?_getD, getElem?_mapIdx] at hy
  cases hl : xss[l]? with
  | none => simp [hl] at hy
  | some xs =>
    obtain ⟨x, hx, hp⟩ := hf l xs y (by simpa [hl] using hy)
    exact ⟨x, by simpa [hl] using hx, hp⟩

theorem Tiered.picksInLayers (ht : g.Tiered) (hw : g.WF) (hne : g.nodes ≠ []) (vec : Vec)
    (level slot : ℕ) (existed : Bool) : g.PicksInLayers vec level slot existed := by
  intro l _ nbr hnbr
  simp only [picks, getD_append_replicate] at hnbr
  obtain ⟨c, hc, rfl⟩ := getD_mapIdx_mem (p := fun c y => c.id = y) (fun k cs y hy => by
    simpa using (g.selectNeighbors_sublist cs (g.maxLinks k)).subset hy) hnbr
  exact ht.found_level hw hne hc

theorem Tiered.foundInLayers (ht : g.Tiered) (hw : g.WF) (hne : g.nodes ≠ [])
    (chunk : List ChunkNode) : g.FoundInLayers chunk := by
  intro nd _ l _ c hc
  obtain ⟨c', hc', rfl⟩ := getD_mapIdx_mem (p := fun c y => c = y) (fun k cs y hy =>
    ⟨y, (g.diverse_sublist (g.maxLinks k) cs).subset hy, rfl⟩) hc
  exact ht.found_level hw hne hc'

end Searching

section Insert
variable {id : UInt64} {vec : Vec} {level slot : ℕ} {existed : Bool}

omit [Dist D] in
theorem UnlinkedAbove.not_mem (hu : g.UnlinkedAbove slot level) {x l : ℕ} (hl : level < l) :
    slot ∉ g.links x l := by
  intro hmem
  rw [links, if_neg (by omega), getD_eq_getElem?_getD] at hmem
  cases hx : g.nodes[x]? with
  | none => simp [getD_eq_getElem?_getD, hx, default] at hmem
  | some nd =>
    simp only [getD_eq_getElem?_getD, hx, Option.getD_some] at hmem
    cases hids : nd.neighbors[l]? with
    | none => simp [hids] at hmem
    | some ids =>
      refine hu nd (mem_of_getElem? hx) ids ?_ (by simpa [hids] using hmem)
      refine mem_of_getElem? (i := l - (level + 1)) ?_
      rw [getElem?_drop, Nat.add_sub_cancel' hl, hids]

section
variable (hw : g.WF) (hne : g.nodes ≠ []) (ht : g.Target id slot existed)
  (hvec : vec.length = g.cfg.dim) (hlevel : level ≤ 64)
include hw hne ht hvec hlevel

theorem WF.mem_insertAt_links {x l y : ℕ}
    (hy : y ∈ (g.insertAt id vec level slot existed).links x l) :
    (x = slot ∧ y ∈ (g.picks vec slot level existed).getD l []) ∨ (x ≠ slot ∧ y ∈ g.links x l) ∨
      (y = slot ∧ l ≤ level) := by
  have hlinked := (hw.placedAt_shape hne ht hvec hlevel).linked
  have hslot : slot < (g.placedAt id vec level slot existed).nodes.length := hw.lt_placedAt ht
  rw [insertAt_eq (hw.hasEntry_iff.mpr hne), links_of_tables (promote_tables ..),
    connect_eq_addAll hlinked hslot] at hy
  obtain hold | ⟨ids, hids, hmem⟩ := mem_addAll_links hlinked
    (hlinked.connections_addable hslot _) (hlinked.connections_keys slot nodup_range) hy
  · rw [hw.placedAt_links hne ht] at hold
    split at hold
    · next hx => exact .inl ⟨hx, hold⟩
    · next hx => exact .inr (.inl ⟨hx, hold⟩)
  · obtain ⟨hl, -, rfl⟩ := mem_connections.mp hids
    exact .inr (.inr ⟨mem_singleton.mp hmem, le_of_lt_succ (mem_range.mp hl)⟩)

theorem WF.insertAt_links_self :
    ((g.placedAt id vec level slot existed).connect slot level).links slot 0 =
      (g.picks vec slot level existed).getD 0 [] := by
  have hlinked := (hw.placedAt_shape hne ht hvec hlevel).linked
  have hslot : slot < (g.placedAt id vec level slot existed).nodes.length := hw.lt_placedAt ht
  rw [connect_eq_addAll hlinked hslot]
  refine ((addAll_links hlinked (hlinked.connections_addable hslot _)
    (hlinked.connections_keys slot nodup_range) slot 0).2 fun hmem => ?_).trans ?_
  · obtain ⟨up, hup, heq⟩ := mem_map.mp hmem
    obtain ⟨-, hnbr, -⟩ := mem_connections.mp hup
    rw [heq] at hnbr
    exact (hlinked.list slot 0).ne hnbr
  · rw [hw.placedAt_links hne ht, if_pos rfl]

end

theorem lt_of_mem_picks {l y : ℕ} (hy : y ∈ (g.picks vec slot level existed).getD l []) :
    l < level + 1 := by
  by_contra hl
  rw [getD_eq_getElem?_getD,
    getElem?_eq_none (by rw [picks_length]; omega)] at hy
  simp at hy

section
variable (hw : g.WF) (hne : g.nodes ≠ []) (ht : g.Target id slot existed)
  (hvec : vec.length = g.cfg.dim) (hlevel : level ≤ 64)
include hw hne ht hvec hlevel

theorem WF.insertAt_levelAt (s : ℕ) :
    (g.insertAt id vec level slot existed).levelAt s =
      if s = slot then level else g.levelAt s := by
  rw [← levelAt_placedAt (hw.shape.slotted.fits ht) id vec,
    insertAt_eq (hw.hasEntry_iff.mpr hne)]
  simp only [levelAt, nodes_of_tables (promote_tables ..)]
  rw [levels_of_bare (bare_connect (hw.placedAt_shape hne ht hvec hlevel).linked
    (hw.lt_placedAt ht) level)]

theorem WF.insertAt_top :
    (g.insertAt id vec level slot existed).maxLevel = max g.maxLevel level ∧
      (g.insertAt id vec level slot existed).entryPoint =
        if g.maxLevel < level ∨ (g.picks vec slot level existed).getD 0 [] = [] then slot
        else g.entryPoint := by
  have hb := hw.connected_bare hne ht hvec hlevel
  rw [insertAt_eq (hw.hasEntry_iff.mpr hne), promote_maxLevel, promote_entryPoint,
    hw.insertAt_links_self hne ht hvec hlevel, maxLevel_of_bare hb, entryPoint_of_bare hb]
  exact ⟨rfl, rfl⟩

end

theorem Tiered.insertFirst (hw : g.WF) (hnil : g.nodes = []) (hentry : g.hasEntry = false)
    (hleveled : (g.insertAt id vec level 0 false).Leveled) :
    (g.insertAt id vec level 0 false).Tiered := by
  have hfit : ({ g with live := g.live + 1 } : Graph D).Fits 0 false := by simp [Fits, hnil]
  have hlinks : ∀ x l, (g.insertAt id vec level 0 false).links x l = [] := by
    intro x l
    have hold : g.links x l = [] := links_eq_nil hw.shape.linked.links0_length (by simp [hnil]) l
    simp only [Graph.insertAt, hentry, Bool.not_false, if_true]
    show (({ g with live := g.live + 1 } : Graph D).place 0
      ⟨id, level, List.replicate (level + 1) []⟩ vec false).links x l = []
    rw [links_place hfit hw.shape.linked.links0_length (by simp), getD_replicate_nil]
    split
    · rfl
    · exact hold
  have hlevelAt : ∀ s, (g.insertAt id vec level 0 false).levelAt s = if s = 0 then level else 0 := by
    intro s
    have hold : g.levelAt s = 0 := by simp [levelAt, hnil]
    simp only [Graph.insertAt, hentry, Bool.not_false, if_true]
    refine (levelAt_of_bare (bare_place { g with live := g.live + 1 } 0 _ vec false) s).trans ?_
    refine (levelAt_store hfit _ vec s).trans ?_
    split
    · rfl
    · exact hold
  refine ⟨hleveled, fun {x l y} hy => ?_, fun s => ?_, fun _ => ?_⟩
  · simp [hlinks] at hy
  · rw [hlevelAt]
    simp only [Graph.insertAt, hentry, Bool.not_false, if_true]
    split <;> omega
  · rw [hlevelAt]
    simp [Graph.insertAt, hentry]

theorem Tiered.insertAt (ht : g.Tiered) (hw : g.WF) (htarget : g.Target id slot existed)
    (hvec : vec.length = g.cfg.dim) (hlevel : level ≤ 64)
    (hin : g.hasEntry = true → g.InsertTiers vec level slot existed) :
    (g.insertAt id vec level slot existed).Tiered := by
  have hleveled : (g.insertAt id vec level slot existed).Leveled :=
    ht.leveled.insertAt hw htarget hvec hlevel fun hentry =>
      ht.picksInLayers hw (hw.hasEntry_iff.mp hentry) vec level slot existed
  obtain ⟨hnil, hentry, rfl, rfl⟩ | ⟨hne, hentry⟩ := hw.insertAt_cases htarget
  · exact Tiered.insertFirst hw hnil hentry hleveled
  · obtain ⟨hunlinked, hkeep⟩ := hin hentry
    have hpicks := ht.picksInLayers hw hne vec level slot existed
    have hlevelAt := hw.insertAt_levelAt hne htarget hvec hlevel
    obtain ⟨hmax, hentryPoint⟩ := hw.insertAt_top hne htarget hvec hlevel
    refine ⟨hleveled, fun {x l y} hy => ?_, fun s => ?_, fun _ => ?_⟩
    · rw [hlevelAt]
      by_cases hyslot : y = slot
      · rw [if_pos hyslot]
        obtain ⟨-, hpick⟩ | ⟨-, hold⟩ | ⟨-, hl⟩ := hw.mem_insertAt_links hne htarget hvec hlevel hy
        · exact le_of_lt_succ (lt_of_mem_picks hpick)
        · by_contra hlt
          exact hunlinked.not_mem (not_le.mp hlt) (hyslot ▸ hold)
        · exact hl
      · rw [if_neg hyslot]
        obtain ⟨-, hpick⟩ | ⟨-, hold⟩ | ⟨heq, -⟩ := hw.mem_insertAt_links hne htarget hvec hlevel hy
        · exact hpicks l (lt_of_mem_picks hpick) y hpick
        · exact ht.links_le hold
        · exact absurd heq hyslot
    · rw [hlevelAt, hmax]
      have := ht.level_le s
      split <;> omega
    · rw [hlevelAt, hmax, hentryPoint]
      have htop := ht.entry hne
      by_cases hslot : g.maxLevel < level ∨ (g.picks vec slot level existed).getD 0 [] = []
      · rw [if_pos hslot, if_pos rfl]
        obtain hle | ⟨-, hfound⟩ := hkeep
        · omega
        · obtain hlt | hnone := hslot
          · omega
          · exact absurd hnone hfound
      · rw [if_neg hslot]
        obtain hle | ⟨hother, -⟩ := hkeep
        · split <;> omega
        · rw [if_neg hother]
          omega

end Insert

section Chunk
variable {chunk : List ChunkNode}

theorem Tiered.linked_level (ht : g.Tiered) (hw : g.WF) (hne : g.nodes ≠ [])
    (hp : g.Placeable chunk) {x l y : ℕ} (hy : y ∈ (g.linkedChunk chunk).links x l) :
    l ≤ (g.linkedChunk chunk).levelAt y := by
  by_cases hnew : ∃ k nd, chunk[k]? = some nd ∧ x = g.nodes.length + k ∧ l ≤ nd.level
  · obtain ⟨k, nd, hk, rfl, hl⟩ := hnew
    exact hw.picked_level hne hp (ht.foundInLayers hw hne chunk) hk hl hy
  · rw [hw.linked_others hne hp fun k nd hk hx => by
      by_contra hl
      exact hnew ⟨k, nd, hk, hx, not_lt.mp hl⟩] at hy
    rw [levelAt_linked (hw.placed hp) ((hw.shape.linked.list x l).lt y hy)]
    exact ht.links_le hy

omit [Dist D] in
theorem Shape.one_le_maxLinks (hs : g.Shape) : 1 ≤ g.maxLinks 0 := by
  have := hs.m_ge
  simp only [maxLinks, if_true]
  omega

theorem Shape.chunkPicks_ne_nil (hs : g.Shape) {k : ℕ} {nd : ChunkNode} (hk : chunk[k]? = some nd)
    (hfound : k = 0 → (g.chunkFound nd).getD 0 [] ≠ []) (placed : Graph D) :
    g.chunkPicks placed g.nodes.length (chunk.take k) nd 0 ≠ [] := by
  simp only [chunkPicks, ne_eq, selectNeighbors_eq_nil hs.one_le_maxLinks]
  intro hnil
  have hperm := (mergeClosest_perm ((g.chunkFound nd).getD 0 [])
    (g.mates g.nodes.length (chunk.take k) nd 0)).symm
  rw [hnil] at hperm
  obtain ⟨hnone, hmates⟩ := append_eq_nil_iff.mp hperm.eq_nil
  cases k with
  | zero => exact hfound rfl hnone
  | succ k =>
    have hlt := (List.getElem?_eq_some_iff.mp hk).1
    have hlen := congrArg List.length hmates
    simp [mates, min_eq_left hlt.le] at hlen

theorem addAll_links_ne_nil (hs : g.Shape) {ups : List ((ℕ × ℕ) × List ℕ)} (hups : g.Addable ups)
    (hkeys : (ups.map (·.1)).Nodup) {s : ℕ} (hne : g.links s 0 ≠ []) :
    (g.addAll ups).links s 0 ≠ [] := by
  obtain ⟨hmerged, hsame⟩ := addAll_links hs.linked hups hkeys s 0
  by_cases hkey : (s, 0) ∈ ups.map (·.1)
  · obtain ⟨⟨key, ids⟩, hup, rfl⟩ := mem_map.mp hkey
    rw [hmerged ids hup]
    exact mergedLinks_ne_nil hs.one_le_maxLinks hne
  · rw [hsame hkey]
    exact hne

section
omit [Dist D]

theorem promote_entry {slot level : ℕ} (hslot : h.levelAt slot = level)
    (hlinks : h.links slot 0 ≠ [] ∨ h.maxLevel ≤ level)
    (hentry : h.levelAt h.entryPoint = h.maxLevel) :
    (h.promote slot level).levelAt (h.promote slot level).entryPoint =
      (h.promote slot level).maxLevel := by
  have hlevels : ∀ s, (h.promote slot level).levelAt s = h.levelAt s := by
    intro s
    simp only [levelAt, nodes_of_tables (promote_tables ..)]
  rw [hlevels, promote_entryPoint, promote_maxLevel]
  grind

theorem settle_entry {base : ℕ} {nodes : List (ChunkNode × ℕ)}
    (hlevels : ∀ nd ∈ nodes, h.levelAt (base + nd.2) = nd.1.level)
    (hfirst : ∀ nd ∈ nodes.head?, h.links (base + nd.2) 0 ≠ [] ∨ h.maxLevel ≤ nd.1.level)
    (hlinks : ∀ nd ∈ nodes.tail, h.links (base + nd.2) 0 ≠ [])
    (hentry : h.levelAt h.entryPoint = h.maxLevel) :
    (h.settle base nodes).levelAt (h.settle base nodes).entryPoint =
      (h.settle base nodes).maxLevel := by
  induction nodes generalizing h with
  | nil => exact hentry
  | cons nd nodes ih =>
    obtain ⟨hlevel, hlevels⟩ := forall_mem_cons.mp hlevels
    have hsame : (({ h with live := h.live + 1 } : Graph D).promote (base + nd.2)
        nd.1.level).tables = h.tables := promote_tables ..
    refine ih (fun nd' hnd' => ?_) (fun nd' hnd' => .inl ?_) (fun nd' hnd' => ?_) ?_
    · rw [levelAt, nodes_of_tables hsame]
      exact hlevels nd' hnd'
    · rw [links_of_tables hsame]
      exact hlinks nd' (mem_of_mem_head? hnd')
    · rw [links_of_tables hsame]
      exact hlinks nd' (mem_of_mem_tail hnd')
    · exact promote_entry (h := { h with live := h.live + 1 }) hlevel (hfirst nd rfl) hentry

theorem le_settle_maxLevel (h : Graph D) (base : ℕ) (nodes : List (ChunkNode × ℕ)) :
    h.maxLevel ≤ (h.settle base nodes).maxLevel ∧
      ∀ nd ∈ nodes, nd.1.level ≤ (h.settle base nodes).maxLevel := by
  induction nodes generalizing h with
  | nil => exact ⟨le_rfl, by simp⟩
  | cons nd nodes ih =>
    obtain ⟨hmax, hrest⟩ := ih (({ h with live := h.live + 1 } : Graph D).promote (base + nd.2)
      nd.1.level)
    rw [promote_maxLevel] at hmax
    exact ⟨(le_max_left ..).trans hmax,
      forall_mem_cons.mpr ⟨(le_max_right ..).trans hmax, hrest⟩⟩

end

theorem levelAt_joined_new (hp : Placed g chunk (g.placedChunk chunk)) {k : ℕ} {nd : ChunkNode}
    (hk : chunk[k]? = some nd) : (g.joinedChunk chunk).levelAt (g.nodes.length + k) = nd.level := by
  rw [levelAt_of_bare (g.joined_bare chunk)]
  exact levelAt_placed_new hp hk

theorem levelAt_joined_old (hp : Placed g chunk (g.placedChunk chunk)) {s : ℕ}
    (hs : s < g.nodes.length) : (g.joinedChunk chunk).levelAt s = g.levelAt s :=
  (levelAt_of_bare (bare_addAll ..) s).trans (levelAt_linked hp hs)

theorem Tiered.joined_entry (ht : g.Tiered) (hw : g.WF) (hne : g.nodes ≠ [])
    (hp : g.Placeable chunk) (hin : g.ChunkTiers chunk) :
    ((g.joinedChunk chunk).settle g.nodes.length chunk.zipIdx).levelAt
        ((g.joinedChunk chunk).settle g.nodes.length chunk.zipIdx).entryPoint =
      ((g.joinedChunk chunk).settle g.nodes.length chunk.zipIdx).maxLevel := by
  have hplaced := hw.placed hp
  have hkeys := (g.linkedChunk chunk).backLinks_keys g.nodes.length chunk
  have hlevels : ∀ nd ∈ chunk.zipIdx,
      (g.joinedChunk chunk).levelAt (g.nodes.length + nd.2) = nd.1.level := fun nd hnd =>
    levelAt_joined_new hplaced (mem_zipIdx_iff_getElem?.mp hnd)
  have hlinks : ∀ nd ∈ chunk.zipIdx, (nd.2 = 0 → (g.chunkFound nd.1).getD 0 [] ≠ []) →
      (g.joinedChunk chunk).links (g.nodes.length + nd.2) 0 ≠ [] := by
    intro nd hnd hfound
    have hk := mem_zipIdx_iff_getElem?.mp hnd
    refine addAll_links_ne_nil (hw.linked_shape hne hp) (hw.backLinks_addable hne hp) hkeys ?_
    rw [hw.linked_picks hne hp hk (zero_le _)]
    exact hw.shape.chunkPicks_ne_nil hk hfound _
  have hold : (g.joinedChunk chunk).levelAt (g.joinedChunk chunk).entryPoint =
      (g.joinedChunk chunk).maxLevel := by
    obtain ⟨-, -, -, hentry, hmax, -⟩ := hplaced.rest
    rw [entryPoint_of_bare (g.joined_bare chunk), maxLevel_of_bare (g.joined_bare chunk), hentry,
      hmax, levelAt_joined_old hplaced (hw.entry_lt hne), ht.entry hne]
  refine settle_entry hlevels (fun nd hnd => ?_) (fun nd hnd => ?_) hold
  · have hmem := mem_of_mem_head? hnd
    have hhead : nd.1 ∈ chunk.head? := by
      cases chunk with
      | nil => simp at hnd
      | cons first rest =>
        have heq : (first, 0) = nd := by simpa using hnd
        exact congrArg (fun p => some p.1) heq
    obtain hmax | hfound := hin nd.1 hhead
    · rw [maxLevel_of_bare (g.joined_bare chunk), hplaced.rest.2.2.2.2.1]
      exact .inr hmax
    · exact .inl (hlinks nd hmem fun _ => hfound)
  · have hpos : nd.2 ≠ 0 := by
      cases chunk with
      | nil => simp at hnd
      | cons first rest =>
        have := (mem_zipIdx (x := nd.1) (i := nd.2) hnd).1
        omega
    exact hlinks nd (mem_of_mem_tail hnd) fun hzero => absurd hzero hpos

theorem Tiered.joinSettle (ht : g.Tiered) (hw : g.WF) (hne : g.nodes ≠ [])
    (hp : g.Placeable chunk) (hin : g.ChunkTiers chunk) :
    ((g.joinedChunk chunk).settle g.nodes.length chunk.zipIdx).Tiered := by
  have hplaced := hw.placed hp
  have hsame := (g.joinedChunk chunk).settle_tables g.nodes.length chunk.zipIdx
  have hkeys := (g.linkedChunk chunk).backLinks_keys g.nodes.length chunk
  have hlevels : ∀ s, ((g.joinedChunk chunk).settle g.nodes.length chunk.zipIdx).levelAt s =
      (g.joinedChunk chunk).levelAt s := by
    intro s
    simp only [levelAt, nodes_of_tables hsame]
  refine ⟨ht.leveled.joinSettle hw hne hp (ht.foundInLayers hw hne chunk), fun {x l y} hy => ?_,
    fun s => ?_, fun _ => ht.joined_entry hw hne hp hin⟩
  · rw [hlevels]
    rw [links_of_tables hsame] at hy
    obtain hold | ⟨ids, hids, hmem⟩ := mem_addAll_links (hw.linked_shape hne hp).linked
      (hw.backLinks_addable hne hp) hkeys hy
    · exact (ht.linked_level hw hne hp hold).trans (levelAt_of_bare (bare_addAll ..) y).ge
    · obtain ⟨k, nd, hk, rfl, hl, -⟩ := (mem_backLinks hids).2 y hmem
      rw [levelAt_joined_new hplaced hk]
      exact hl
  · rw [hlevels]
    obtain ⟨hmax, hnodes⟩ := (g.joinedChunk chunk).le_settle_maxLevel g.nodes.length chunk.zipIdx
    by_cases hs : s < g.nodes.length
    · rw [levelAt_joined_old hplaced hs]
      obtain ⟨-, -, -, -, hmax', -⟩ := hplaced.rest
      rw [maxLevel_of_bare (g.joined_bare chunk), hmax'] at hmax
      exact (ht.level_le s).trans hmax
    · cases hk : chunk[s - g.nodes.length]? with
      | some nd =>
        have hnew := levelAt_joined_new hplaced hk
        rw [Nat.add_sub_cancel' (Nat.not_lt.mp hs)] at hnew
        rw [hnew]
        exact hnodes (nd, _) (mem_zipIdx_iff_getElem?.mpr hk)
      | none =>
        have hout := getElem?_eq_none_iff.mp hk
        have hlen : (g.joinedChunk chunk).nodes.length ≤ s := by
          rw [length_of_bare (g.joined_bare chunk), hplaced.nodes_length]
          omega
        simp [levelAt, getElem?_eq_none hlen]

end Chunk

end Graph

theorem Step.keeps_tiered : Kept (fun (g : Graph D) s => s.keepsTiers g = true) Graph.Tiered := by
  refine ⟨fun {g s} hw hg hvalid hin => ?_⟩
  cases s with
  | insert id vector =>
    exact Graph.Tiered.insertAt (g := { g with rng := fun k => g.rng (k + 1) })
      ⟨hg.leveled, hg.links_le, hg.level_le, hg.entry⟩ (hw.of_rng _)
      (Graph.target_slotFor ..) ((g.prep_length vector).trans hvalid) (min_le_right ..)
      (of_decide_eq_true hin)
  | chunk items =>
    obtain ⟨rng, hrng⟩ := (g.drawChunk_spec items).1
    have hp := hw.placeable hvalid
    simp only [Step.keepsTiers, hrng, decide_eq_true_eq] at hin
    simp only [Step.apply, Graph.insertChunk, hrng]
    exact Graph.Tiered.joinSettle (g := { g with rng := rng })
      ⟨hg.leveled, hg.links_le, hg.level_le, hg.entry⟩ (hw.of_rng rng) hvalid.1
      ⟨hp.fresh, hp.nodup, hp.dims, hp.level_le⟩ hin
  | delete id =>
    obtain ⟨dead, live, hmarks⟩ := Step.apply_delete g id
    rw [hmarks]
    exact ⟨hg.leveled, hg.links_le, hg.level_le, hg.entry⟩

theorem new_tiered (cfg : Config D) (rng : ℕ → ℕ) : (new cfg rng).Tiered := by
  refine ⟨by simp [Graph.Leveled, new], fun {x l y} hy => ?_, by simp [Graph.levelAt, new],
    by simp [new]⟩
  rw [Graph.links_eq_nil rfl (zero_le x) l] at hy
  simp at hy

/-- Along every run whose steps lower no linked node and find the entry point's layer, each node has
one list for each of its layers, links stay in their layer and the entry point is at the top. -/
theorem layers_kept_along_runs (cfg : Config D) (rng : ℕ → ℕ) (ops : List Op)
    (hsteps : ∀ p ∈ runTrace (new cfg rng) ops, p.2.keepsTiers p.1 = true) :
    (∀ nd ∈ (run (new cfg rng) ops).nodes, nd.neighbors.length = nd.level + 1) ∧
    (∀ x l, ∀ y ∈ (run (new cfg rng) ops).links x l,
      ∃ nd, (run (new cfg rng) ops).nodes[y]? = some nd ∧ l ≤ nd.level) ∧
    ((run (new cfg rng) ops).nodes ≠ [] →
      (∀ nd ∈ (run (new cfg rng) ops).nodes, nd.level ≤ (run (new cfg rng) ops).maxLevel) ∧
      ∃ nd, (run (new cfg rng) ops).nodes[(run (new cfg rng) ops).entryPoint]? = some nd ∧
        nd.level = (run (new cfg rng) ops).maxLevel) := by
  obtain ⟨hw, ht⟩ := run_induction Step.keeps_tiered (Graph.new_wf cfg rng) (new_tiered cfg rng)
    hsteps
  have hlevelAt : ∀ s nd, (run (new cfg rng) ops).nodes[s]? = some nd →
      (run (new cfg rng) ops).levelAt s = nd.level := by
    intro s nd hs
    simp [Graph.levelAt, hs]
  refine ⟨ht.leveled, fun x l y hy => ?_, fun hne => ⟨fun nd hnd => ?_, ?_⟩⟩
  · have hlt := (hw.shape.linked.list x l).lt y hy
    refine ⟨_, getElem?_eq_getElem hlt, ?_⟩
    exact (ht.links_le hy).trans (hlevelAt y _ (getElem?_eq_getElem hlt)).le
  · obtain ⟨s, hs⟩ := getElem?_of_mem hnd
    exact (hlevelAt s nd hs).ge.trans (ht.level_le s)
  · have hlt := hw.entry_lt hne
    refine ⟨_, getElem?_eq_getElem hlt, ?_⟩
    exact (hlevelAt _ _ (getElem?_eq_getElem hlt)).symm.trans (ht.entry hne)

theorem layers_kept_on_a_line :
    (∀ p ∈ runTrace (new line fun n => (n + 1) % 2)
      [.insert 1 [0], .insert 2 [0x41200000], .insert 1 [0x3F800000]],
      p.2.keepsTiers p.1 = true) ∧
    ∀ nd ∈ (run (new line fun n => (n + 1) % 2)
      [.insert 1 [0], .insert 2 [0x41200000], .insert 1 [0x3F800000]]).nodes,
      nd.neighbors.length = nd.level + 1 := by
  have hsteps : ∀ p ∈ runTrace (new line fun n => (n + 1) % 2)
      [.insert 1 [0], .insert 2 [0x41200000], .insert 1 [0x3F800000]],
      p.2.keepsTiers p.1 = true := by decide +kernel
  exact ⟨hsteps, (layers_kept_along_runs line _ _ hsteps).1⟩

/-- A vector inserted at level 1 and again at level 0 stays the entry point of layer 1. The next
vector of level 1 links to it there, and the link back gives it a second list. -/
theorem reinsert_breaks_layers :
    let g := run (new line fun n => if n = 1 then 0 else 1)
      [.insert 1 [0], .insert 1 [0], .insert 2 [0x41200000]]
    g.nodes.map (fun nd => (nd.level, nd.neighbors.length)) = [(0, 2), (1, 2)] ∧
      0 ∈ g.links 1 1 ∧ g.entryPoint = 0 ∧ g.maxLevel = 1 := by
  decide +kernel

end NuclaDB.Hnsw
