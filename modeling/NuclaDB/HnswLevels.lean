import NuclaDB.HnswSnapshot

/-!
# Nodes and the layers they have lists for

A back-link to a node in a layer above its level makes `setLinks` grow the node's lists.
`staysInLayers` says that no step adds such a link.
-/

namespace NuclaDB.Hnsw

open List

variable {D : Type} [Dist D] {g h : Graph D}

namespace Graph

def levelAt (g : Graph D) (slot : ℕ) : ℕ := (g.nodes.map (·.level)).getD slot 0

def PicksInLayers (g : Graph D) (vec : Vec) (level slot : ℕ) (existed : Bool) : Prop :=
  ∀ l < level + 1, ∀ nbr ∈ (g.picks vec slot level existed).getD l [], l ≤ g.levelAt nbr

def FoundInLayers (g : Graph D) (chunk : List ChunkNode) : Prop :=
  ∀ nd ∈ chunk, ∀ l < nd.level + 1, ∀ c ∈ (g.chunkFound nd).getD l [], l ≤ g.levelAt c.id

instance (g : Graph D) (vec : Vec) (level slot : ℕ) (existed : Bool) :
    Decidable (g.PicksInLayers vec level slot existed) :=
  inferInstanceAs (Decidable (∀ l < level + 1, ∀ nbr ∈ _, l ≤ g.levelAt nbr))

instance (g : Graph D) (chunk : List ChunkNode) : Decidable (g.FoundInLayers chunk) :=
  inferInstanceAs (Decidable (∀ nd ∈ chunk, ∀ l < nd.level + 1,
    ∀ c ∈ (g.chunkFound nd).getD l [], l ≤ g.levelAt c.id))

end Graph

def Step.staysInLayers (g : Graph D) : Step → Bool
  | .insert id vector =>
    let (level, g) := g.randomLevel
    let (slot, existed) := g.slotFor id
    decide (g.hasEntry = true → g.PicksInLayers (g.prep vector) level slot existed)
  | .chunk items =>
    let (nodes, g) := g.drawChunk items
    decide (g.FoundInLayers nodes)
  | .delete _ => true

namespace Graph

section Storing
variable {slot l : ℕ} {ids : List ℕ} {ups : List ((ℕ × ℕ) × List ℕ)}

omit [Dist D] in
theorem levelAt_of_bare (hb : h.bare = g.bare) (s : ℕ) : h.levelAt s = g.levelAt s := by
  simp only [levelAt, levels_of_bare hb]

section
variable (hg : g.Leveled)
include hg

section
omit [Dist D]

theorem Leveled.setLinks (hl : l = 0 ∨ l ≤ g.levelAt slot) (ids : List ℕ) :
    (g.setLinks slot l ids).Leveled := by
  intro nd hnd
  simp only [Graph.setLinks] at hnd
  split at hnd
  · exact hg nd hnd
  · next hl0 =>
    obtain ⟨k, hk⟩ := getElem?_of_mem hnd
    rw [getElem?_modify] at hk
    split at hk
    · next heq =>
      subst heq
      obtain ⟨nd', hnd', rfl⟩ := Option.map_eq_some_iff.mp hk
      have hlen := hg nd' (mem_of_getElem? hnd')
      have hle : l ≤ nd'.level := by simpa [levelAt, hnd', hl0] using hl
      simp only [Node.setLayer, length_set, length_append, length_replicate, hlen]
      omega
    · exact hg nd (mem_of_getElem? (by simpa using hk))

theorem Leveled.clearStaged (slot : ℕ) : (g.clearStaged slot).Leveled := by
  intro nd hnd
  obtain ⟨k, hk⟩ := getElem?_of_mem hnd
  simp only [Graph.clearStaged, getElem?_modify] at hk
  split at hk
  · obtain ⟨nd', hnd', rfl⟩ := Option.map_eq_some_iff.mp hk
    simpa using hg nd' (mem_of_getElem? hnd')
  · exact hg nd (mem_of_getElem? (by simpa using hk))

theorem Leveled.place {nd : Node} (hnd : nd.neighbors.length = nd.level + 1)
    (slot : ℕ) (vec : Vec) (existed : Bool) : (g.place slot nd vec existed).Leveled := by
  have hstore : (g.store slot nd vec existed).Leveled := by
    intro nd' hnd'
    cases existed with
    | true =>
      obtain h | rfl := mem_or_eq_of_mem_set hnd'
      · exact hg nd' h
      · exact hnd
    | false =>
      obtain h | h := mem_append.mp hnd'
      · exact hg nd' h
      · exact mem_singleton.mp h ▸ hnd
  exact (hstore.setLinks (.inl rfl) _).clearStaged slot

end

section
variable (hups : ∀ up ∈ ups, up.1.2 ≤ g.levelAt up.1.1)
include hups

omit [Dist D] in
theorem Leveled.foldl_setLinks (links : Graph D → (ℕ × ℕ) × List ℕ → List ℕ) :
    (ups.foldl (fun h up => h.setLinks up.1.1 up.1.2 (links h up)) g).Leveled := by
  induction ups generalizing g with
  | nil => exact hg
  | cons up ups ih =>
    obtain ⟨hup, hrest⟩ := forall_mem_cons.mp hups
    refine ih (hg.setLinks (.inr hup) _) fun v hv => ?_
    exact (hrest v hv).trans (levelAt_of_bare (bare_setLinks ..) _).ge

theorem Leveled.addAll : (g.addAll ups).Leveled :=
  hg.foldl_setLinks hups _

omit [Dist D] in
theorem Leveled.setAll : (g.setAll ups).Leveled :=
  hg.foldl_setLinks hups fun _ up => up.2

end

omit [Dist D] in
theorem Leveled.of_nodes (hn : h.nodes = g.nodes) : h.Leveled :=
  fun nd hnd => hg nd (hn ▸ hnd)

end

end Storing

section Insert
variable {id : UInt64} {vec : Vec} {level slot : ℕ} {existed : Bool}

omit [Dist D] in
theorem levelAt_store (hfit : g.Fits slot existed) (nd : Node) (vec : Vec) (s : ℕ) :
    (g.store slot nd vec existed).levelAt s = if s = slot then nd.level else g.levelAt s := by
  cases existed with
  | true =>
    have hlt : slot < g.nodes.length := hfit
    simp only [levelAt, Graph.store, if_true, map_set, getD_eq_getElem?_getD,
      getElem?_set, length_map, hlt]
    grind
  | false =>
    have hlen : slot = g.nodes.length := hfit
    simp only [levelAt, Graph.store, Bool.false_eq_true, if_false, map_append,
      getD_eq_getElem?_getD, getElem?_append, length_map, map_cons,
      map_nil]
    grind

theorem levelAt_placedAt (hfit : g.Fits slot existed) (id : UInt64) (vec : Vec) (level s : ℕ) :
    (g.placedAt id vec level slot existed).levelAt s = if s = slot then level else g.levelAt s := by
  rw [levelAt_of_bare g.placedAt_bare]
  exact levelAt_store (g := g.countLive slot existed) hfit _ vec s

theorem Leveled.insertAt (hg : g.Leveled) (hw : g.WF) (ht : g.Target id slot existed)
    (hvec : vec.length = g.cfg.dim) (hlevel : level ≤ 64)
    (hin : g.hasEntry = true → g.PicksInLayers vec level slot existed) :
    (g.insertAt id vec level slot existed).Leveled := by
  obtain ⟨-, hentry, rfl, rfl⟩ | ⟨hne, hentry⟩ := hw.insertAt_cases ht
  · simp only [Graph.insertAt, hentry, Bool.not_false, if_true]
    exact (Leveled.place (g := { g with live := g.live + 1 }) hg (by simp) 0 vec false).of_nodes rfl
  · have hlinked := (hw.placedAt_shape hne ht hvec hlevel).linked
    have hplaced : (g.placedAt id vec level slot existed).Leveled :=
      Leveled.place (g := g.countLive slot existed) hg (picks_length ..) slot vec existed
    rw [insertAt_eq hentry, connect_eq_addAll hlinked (hw.lt_placedAt ht)]
    refine (hplaced.addAll fun up hup => ?_).of_nodes (nodes_of_tables (promote_tables ..))
    obtain ⟨hl, hnbr, -⟩ := mem_connections.mp hup
    rw [hw.placedAt_links hne ht, if_pos rfl] at hnbr
    have hlist := picks_linkList hw.shape (hw.entry_lt hne) (hw.shape.slotted.fits ht) vec level
      up.1.2
    have hself : up.1.1 ≠ slot := fun heq => hlist.ne (heq ▸ hnbr)
    rw [levelAt_placedAt (hw.shape.slotted.fits ht), if_neg hself]
    exact hin hentry _ (mem_range.mp hl) _ hnbr

end Insert

section Chunk
variable {chunk : List ChunkNode}

theorem levelAt_linked (hp : Placed g chunk (g.placedChunk chunk)) {s : ℕ}
    (hs : s < g.nodes.length) : (g.linkedChunk chunk).levelAt s = g.levelAt s := by
  have hs' : s < (g.nodes.map (·.level)).length := by simpa using hs
  rw [levelAt_of_bare (g.linked_bare chunk)]
  simp [levelAt, hp.nodes, getElem?_append_left hs']

omit [Dist D] in
theorem levelAt_placed_new (hp : Placed g chunk h) {k : ℕ} {nd : ChunkNode}
    (hk : chunk[k]? = some nd) : h.levelAt (g.nodes.length + k) = nd.level := by
  have hge : (g.nodes.map (·.level)).length ≤ g.nodes.length + k := by simp
  simp [levelAt, hp.nodes, getElem?_append_right hge, hk, ChunkNode.node]

theorem Leveled.linked (hg : g.Leveled) (hp : Placed g chunk (g.placedChunk chunk)) :
    (g.linkedChunk chunk).Leveled := by
  have hplaced : (g.placedChunk chunk).Leveled := by
    intro nd hnd
    rw [hp.nodes] at hnd
    obtain hnd | hnd := mem_append.mp hnd
    · exact hg nd hnd
    · obtain ⟨c, -, rfl⟩ := mem_map.mp hnd
      simp [ChunkNode.node]
  rw [linkedChunk, linkChunk_eq_setAll]
  refine hplaced.setAll fun up hup => ?_
  obtain ⟨k, nd, hk, hslot, hl, -⟩ := mem_chunkUps.mp hup
  rw [hslot, levelAt_placed_new hp hk]
  exact hl

theorem WF.picked_level (hw : g.WF) (hne : g.nodes ≠ []) (hp : g.Placeable chunk)
    (hin : g.FoundInLayers chunk) {k l y : ℕ} {nd : ChunkNode} (hk : chunk[k]? = some nd)
    (hl : l ≤ nd.level) (hlink : y ∈ (g.linkedChunk chunk).links (g.nodes.length + k) l) :
    l ≤ (g.linkedChunk chunk).levelAt y := by
  have hplaced := hw.placed hp
  rw [hw.linked_picks hne hp hk hl] at hlink
  obtain hfound | hmate := mem_chunkPicks hlink
  · obtain ⟨c, hc, hid⟩ := mem_map.mp hfound
    have hlt := (chunkFound_ok hw.shape (hw.entry_lt hne) nd l).2 c hc
    rw [← hid, levelAt_linked hplaced hlt]
    exact hin nd (mem_of_getElem? hk) _ (Nat.lt_succ_of_le hl) c hc
  · obtain ⟨c, hc, hid⟩ := mem_map.mp hmate
    obtain ⟨hbase, mate, hget, hlevel⟩ := mem_mates hc
    have hmate' : chunk[c.id - g.nodes.length]? = some mate := by
      rw [getElem?_take] at hget
      split at hget
      · exact hget
      · exact absurd hget (by simp)
    have hnew := levelAt_placed_new hplaced hmate'
    rw [Nat.add_sub_cancel' hbase] at hnew
    rw [← hid, levelAt_of_bare (g.linked_bare chunk), hnew]
    exact hlevel

theorem Leveled.joinSettle (hg : g.Leveled) (hw : g.WF) (hne : g.nodes ≠ [])
    (hp : g.Placeable chunk) (hin : g.FoundInLayers chunk) :
    ((g.joinedChunk chunk).settle g.nodes.length chunk.zipIdx).Leveled := by
  refine Leveled.of_nodes ?_ (nodes_of_tables (settle_tables ..))
  refine (hg.linked (hw.placed hp)).addAll fun up hup => ?_
  obtain ⟨hnil, hedge⟩ := mem_backLinks hup
  obtain ⟨s, hs⟩ := exists_mem_of_ne_nil _ hnil
  obtain ⟨k, nd, hk, rfl, hl, hlink⟩ := hedge s hs
  exact hw.picked_level hne hp hin hk hl hlink

end Chunk

end Graph

theorem Step.keeps_leveled : Kept (fun (g : Graph D) s => s.staysInLayers g = true) Graph.Leveled := by
  refine ⟨fun {g s} hw hg hvalid hin => ?_⟩
  cases s with
  | insert id vector =>
    exact Graph.Leveled.insertAt (g := { g with rng := fun k => g.rng (k + 1) }) hg (hw.of_rng _)
      (Graph.target_slotFor ..) ((g.prep_length vector).trans hvalid) (Nat.min_le_right ..)
      (of_decide_eq_true hin)
  | chunk items =>
    obtain ⟨rng, hrng⟩ := (g.drawChunk_spec items).1
    have hp := hw.placeable hvalid
    simp only [Step.staysInLayers, hrng, decide_eq_true_eq] at hin
    simp only [Step.apply, Graph.insertChunk, hrng]
    exact Graph.Leveled.joinSettle (g := { g with rng := rng }) hg (hw.of_rng rng) hvalid.1
      ⟨hp.fresh, hp.nodup, hp.dims, hp.level_le⟩ hin
  | delete id =>
    obtain ⟨dead, live, hmarks⟩ := Step.apply_delete g id
    rw [hmarks]
    exact hg

end NuclaDB.Hnsw
