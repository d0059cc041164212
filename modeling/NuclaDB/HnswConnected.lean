import NuclaDB.HnswRun

/-!
# Connectedness of the live vectors

Layer 0 is connected when its links go both ways, all links stay within a component of it,
and every live vector is in the entry point's. `keepsLinks` keeps it so.
-/

namespace NuclaDB.Hnsw

open List

variable {D : Type} [Dist D] {g h : Graph D}

namespace Graph

section Conditions

def HasRoom (g : Graph D) (nbr : ℕ) (newIDs : List ℕ) : Prop :=
  (appendNew (g.links nbr 0) newIDs).length ≤ g.maxLinks 0

/-- An insertion drops no layer-0 link: an old node's links are picked again, and every picked
node's list has room. -/
def InsertKeeps (g : Graph D) (vec : Vec) (level slot : ℕ) (existed : Bool) : Prop :=
  (existed = true → ∀ y ∈ g.links slot 0, y ∈ (g.picks vec slot level existed).getD 0 []) ∧
    ∀ nbr ∈ (g.picks vec slot level existed).getD 0 [], g.HasRoom nbr [slot]

/-- A chunk finds a live vector, and every list that gets back-links has room for them. -/
def ChunkKeeps (g : Graph D) (chunk : List ChunkNode) : Prop :=
  g.live ≠ 0 ∧ ∀ up ∈ (g.linkedChunk chunk).backLinks g.nodes.length chunk, up.1.2 = 0 →
    (g.linkedChunk chunk).HasRoom up.1.1 up.2

omit [Dist D] in
instance (g : Graph D) (nbr : ℕ) (newIDs : List ℕ) : Decidable (g.HasRoom nbr newIDs) :=
  inferInstanceAs (Decidable (_ ≤ _))

instance (g : Graph D) (vec : Vec) (level slot : ℕ) (existed : Bool) :
    Decidable (g.InsertKeeps vec level slot existed) :=
  inferInstanceAs (Decidable ((existed = true → ∀ y ∈ g.links slot 0, y ∈ _) ∧ ∀ nbr ∈ _, _))

instance (g : Graph D) (chunk : List ChunkNode) : Decidable (g.ChunkKeeps chunk) :=
  inferInstanceAs (Decidable (g.live ≠ 0 ∧
    ∀ up ∈ (g.linkedChunk chunk).backLinks g.nodes.length chunk, up.1.2 = 0 → _))

end Conditions

end Graph

def Step.keepsLinks (g : Graph D) : Step → Bool
  | .insert id vector =>
    let (level, g) := g.randomLevel
    let (slot, existed) := g.slotFor id
    decide (g.hasEntry = true → g.InsertKeeps (g.prep vector) level slot existed)
  | .chunk items =>
    let (nodes, g) := g.drawChunk items
    decide (g.ChunkKeeps nodes)
  | .delete _ => true

namespace Graph

structure Joined (g : Graph D) : Prop where
  sym {x y : ℕ} : y ∈ g.links x 0 → x ∈ g.links y 0
  up {k x y : ℕ} : y ∈ g.links x k → g.Reaches 0 x y
  live {x : ℕ} : x < g.nodes.length → g.isDead x = false → g.Reaches 0 g.entryPoint x

omit [Dist D] in
theorem Reaches.symm {g : Graph D} (hsym : ∀ {x y : ℕ}, y ∈ g.links x 0 → x ∈ g.links y 0)
    {x y : ℕ} (h : g.Reaches 0 x y) : g.Reaches 0 y x := by
  induction h with
  | refl => exact .refl
  | tail _ hlink ih => exact .head (hsym hlink) ih

omit [Dist D] in
theorem Reaches.mono {g h : Graph D} (hgrow : ∀ x y, y ∈ g.links x 0 → y ∈ h.links x 0)
    {x y : ℕ} (hr : g.Reaches 0 x y) : h.Reaches 0 x y :=
  Relation.ReflTransGen.mono hgrow _ _ hr

section Joined

omit [Dist D] in
theorem Joined.closed (hj : g.Joined) (hw : g.WF) (hne : g.nodes ≠ []) :
    g.Closed (g.Reaches 0 g.entryPoint) :=
  ⟨fun hx hy => hx.trans (hj.up hy), Reaches.lt (hw.shape.linked.linksLt 0) (hw.entry_lt hne)⟩

theorem Joined.descend_reaches (hj : g.Joined) (hw : g.WF) (hne : g.nodes ≠ []) (query : Vec)
    {x : ℕ} (hx : x < g.nodes.length) (hlive : g.isDead x = false) :
    g.Reaches 0 (g.descend query 0) x :=
  (((hj.closed hw hne).descend .refl query 0).symm hj.sym).trans (hj.live hx hlive)

end Joined

section Relink
variable {mid : Graph D} {ups : List ((ℕ × ℕ) × List ℕ)} {N : ℕ → Prop}

/-- A graph whose new nodes `N` have their own links, and the back-links still to be added, with
nothing of layer 0 lost. -/
structure Relinked (g mid : Graph D) (ups : List ((ℕ × ℕ) × List ℕ)) (N : ℕ → Prop) : Prop where
  linked : mid.Linked
  addable : mid.Addable ups
  keys : (ups.map (·.1)).Nodup
  back {x k y : ℕ} : (∃ ids, ((x, k), ids) ∈ ups ∧ y ∈ ids) ↔ N y ∧ x ∈ mid.links y k
  others {x : ℕ} : ¬ N x → ∀ k, mid.links x k = g.links x k
  kept {x y : ℕ} : N x → y ∈ g.links x 0 → y ∈ mid.links x 0
  room : ∀ up ∈ ups, up.1.2 = 0 → mid.HasRoom up.1.1 up.2

section
variable (hr : Relinked g mid ups N)
include hr

theorem Relinked.mem {x k y : ℕ}
    (hy : y ∈ (mid.addAll ups).links x k) : y ∈ mid.links x k ∨ N y ∧ x ∈ mid.links y k := by
  exact (mem_addAll_links hr.linked hr.addable hr.keys hy).imp_right hr.back.mp

theorem Relinked.mem_layer0 {x y : ℕ} :
    y ∈ (mid.addAll ups).links x 0 ↔ y ∈ mid.links x 0 ∨ N y ∧ x ∈ mid.links y 0 := by
  refine ⟨hr.mem, fun hy => ?_⟩
  obtain ⟨hin, hout⟩ := addAll_links hr.linked hr.addable hr.keys x 0
  rw [← hr.back] at hy
  by_cases hkey : (x, 0) ∈ ups.map (·.1)
  · obtain ⟨⟨key, ids⟩, hup, rfl⟩ := mem_map.mp hkey
    have hroom := hr.room _ hup rfl
    have hmerged : mid.mergedLinks x ids 0 (mid.maxLinks 0) = appendNew (mid.links x 0) ids :=
      if_neg (Nat.not_lt.mpr hroom)
    rw [hin ids hup, hmerged, mem_appendNew]
    refine hy.imp id fun ⟨ids', hup', hy'⟩ => ?_
    cases inj_on_of_nodup_map hr.keys hup hup' rfl
    exact hy'
  · rw [hout hkey]
    refine hy.resolve_right fun ⟨ids, hup, _⟩ => hkey (mem_map.mpr ⟨_, hup, rfl⟩)

theorem Relinked.grow (x y : ℕ) (hy : y ∈ g.links x 0) : y ∈ (mid.addAll ups).links x 0 := by
  rw [hr.mem_layer0]
  by_cases hx : N x
  · exact .inl (hr.kept hx hy)
  · exact .inl (hr.others hx 0 ▸ hy)

theorem Relinked.sym (hj : g.Joined) {x y : ℕ}
    (hy : y ∈ (mid.addAll ups).links x 0) : x ∈ (mid.addAll ups).links y 0 := by
  obtain hy | hy := hr.mem_layer0.mp hy
  · by_cases hx : N x
    · exact hr.mem_layer0.mpr (.inr ⟨hx, hy⟩)
    · rw [hr.others hx] at hy
      exact hr.grow y x (hj.sym hy)
  · exact hr.mem_layer0.mpr (.inl hy.2)

theorem Relinked.joined (hj : g.Joined) (hlinks : ∀ s k, h.links s k = (mid.addAll ups).links s k)
    (hnew : ∀ {x k y}, N x → y ∈ mid.links x k → h.Reaches 0 x y)
    (hlive : ∀ {x}, x < h.nodes.length → h.isDead x = false → h.Reaches 0 h.entryPoint x) :
    h.Joined := by
  have hsym : ∀ {x y}, y ∈ h.links x 0 → x ∈ h.links y 0 := by
    simp only [hlinks]
    exact hr.sym hj
  refine ⟨hsym, fun {k x y} hy => ?_, hlive⟩
  rw [hlinks] at hy
  obtain hy | ⟨hy, hx⟩ := hr.mem hy
  · by_cases hx : N x
    · exact hnew hx hy
    · rw [hr.others hx] at hy
      apply Reaches.mono _ (hj.up hy)
      simpa only [hlinks] using hr.grow
  · exact (hnew hy hx).symm hsym

end

end Relink

section Insert
variable {id : UInt64} {vec : Vec} {level slot : ℕ} {existed : Bool}

theorem WF.picks_relinked (hw : g.WF) (hne : g.nodes ≠ []) (ht : g.Target id slot existed)
    (hvec : vec.length = g.cfg.dim) (hlevel : level ≤ 64)
    (hkeep : g.InsertKeeps vec level slot existed) :
    Relinked g (g.placedAt id vec level slot existed)
      ((g.placedAt id vec level slot existed).connections slot (range (level + 1)))
      (· = slot) := by
  have hlinks := hw.placedAt_links hne ht vec level
  have hlinked := (hw.placedAt_shape hne ht hvec hlevel).linked
  have hpick := picks_linkList hw.shape (hw.entry_lt hne) (hw.shape.slotted.fits ht) vec level 0
  refine ⟨hlinked, hlinked.connections_addable (hw.lt_placedAt ht) _,
    hlinked.connections_keys slot nodup_range, ?_, fun hx k => ?_, ?_, ?_⟩
  · intro x k y
    constructor
    · rintro ⟨ids, hup, hy⟩
      obtain ⟨-, hx, hids⟩ := mem_connections.mp hup
      obtain rfl : y = slot := mem_singleton.mp (hids ▸ hy)
      exact ⟨rfl, hx⟩
    · rintro ⟨rfl, hx⟩
      refine ⟨[y], mem_connections.mpr ⟨?_, hx, rfl⟩, mem_singleton_self y⟩
      rw [hlinks, if_pos rfl] at hx
      have hk : k < (g.picks vec y level existed).length := by
        by_contra hk
        simp [getD_eq_getElem?_getD, getElem?_eq_none (Nat.not_lt.mp hk)] at hx
      simpa [picks_length] using hk
  · rw [hlinks, if_neg hx]
  · rintro x y rfl hy
    rw [hlinks, if_pos rfl]
    cases existed with
    | true => exact hkeep.1 rfl y hy
    | false =>
      have hnew : x = g.nodes.length := hw.shape.slotted.fits ht
      simp [links_eq_nil hw.shape.linked.links0_length hnew.ge] at hy
  · rintro ⟨⟨nbr, k⟩, ids⟩ hup rfl
    obtain ⟨-, hnbr, rfl⟩ := mem_connections.mp hup
    simp only [hlinks, if_true] at hnbr
    have hself : nbr ≠ slot := fun heq => hpick.ne (heq ▸ hnbr)
    have hroom := hkeep.2 nbr hnbr
    simp only [HasRoom, hlinks, hself, if_false] at hroom ⊢
    exact hroom

theorem Joined.picks_ok (hj : g.Joined) (hw : g.WF) (hne : g.nodes ≠ []) {k y : ℕ}
    (hfit : g.Fits slot existed) (hy : y ∈ (g.picks vec slot level existed).getD k []) :
    g.Reaches 0 g.entryPoint y ∧ g.isDead y = false ∧ y ≠ slot := by
  have hpick := picks_linkList hw.shape (hw.entry_lt hne) hfit vec level k
  obtain ⟨e, he, heq⟩ | ⟨-, heq⟩ :=
    picks_layer hw.shape (hj.closed hw hne) .refl vec slot level existed k
  · have hmem := hy
    rw [heq] at hmem
    obtain ⟨c, hc, rfl⟩ := mem_map.mp ((g.selectNeighbors_sublist _ _).subset hmem)
    obtain ⟨hreach, hlive, -⟩ := mem_layerFound hw.shape (hj.closed hw hne) he hc
    exact ⟨hreach, hlive, fun hself => hpick.ne (hself ▸ hy)⟩
  · rw [heq] at hy
    exact absurd hy not_mem_nil

theorem Joined.picks_eq_nil (hj : g.Joined) (hw : g.WF) (hne : g.nodes ≠ [])
    (hkeep : g.InsertKeeps vec level slot existed)
    (hnil : (g.picks vec slot level existed).getD 0 [] = []) {x : ℕ} (hx : x < g.nodes.length)
    (hlive : g.isDead x = false) : x = slot ∧ existed = true := by
  obtain ⟨e, he, heq⟩ | ⟨hlt, -⟩ :=
    picks_layer hw.shape (hj.closed hw hne) .refl vec slot level existed 0
  · have hm := hw.shape.m_ge
    have hfound := hnil
    rw [heq, selectNeighbors_eq_nil (by simp only [maxLinks, if_true]; omega)] at hfound
    have hdone : BeamDone g vec e g.cfg.efConstruction 0 _ :=
      hw.shape.layerFound_done ((hj.closed hw hne).lt he)
    have hex : g.Reaches 0 e x := (he.symm hj.sym).trans (hj.live hx hlive)
    cases hres : g.searchLayer vec e g.cfg.efConstruction 0 with
    | nil =>
      have hef := hw.shape.ef_ge
      rw [hres] at hdone
      obtain hfull | hall := hdone.complete
      · simp only [length_nil] at hfull
        omega
      · exact absurd (hall x hex hlive) not_mem_nil
    | cons c rest =>
      -- the search saw only the slot's old node, which has no links left to lose
      have hc : c ∈ g.searchLayer vec e g.cfg.efConstruction 0 := hres ▸ mem_cons_self
      obtain ⟨rfl, rfl⟩ : existed = true ∧ c.id = slot := by
        simpa using filter_eq_nil_iff.mp hfound c hc
      have hsx : g.Reaches 0 c.id x := ((hdone.ok c hc).1.symm hj.sym).trans hex
      obtain heq | ⟨y, hy, -⟩ := hsx.cases_head
      · exact ⟨heq.symm, rfl⟩
      · exact absurd (hkeep.1 rfl y hy) (by simp only [hnil, not_mem_nil, not_false_eq_true])
  · omega

omit [Dist D] in
theorem Slotted.live_store (hg : g.Slotted) (hfit : g.Fits slot existed) (nd : Node) (vec : Vec)
    {x : ℕ}
    (hx : x < (g.store slot nd vec existed).nodes.length)
    (hlive : (g.store slot nd vec existed).isDead x = false) :
    x = slot ∨ x < g.nodes.length ∧ g.isDead x = false := by
  have hdead := hg.dead_length
  by_cases heq : x = slot
  · exact .inl heq
  · refine .inr ?_
    cases existed with
    | true =>
      refine ⟨by simpa [store_nodes_length] using hx, ?_⟩
      simpa [isDead, Graph.store, getElem?_set_ne (Ne.symm heq)] using hlive
    | false =>
      simp only [Fits, Bool.false_eq_true, if_false] at hfit
      simp only [store_nodes_length, Bool.false_eq_true, if_false] at hx
      have hlt : x < g.nodes.length := by omega
      refine ⟨hlt, ?_⟩
      simpa [isDead, Graph.store, getElem?_append_left (hdead ▸ hlt)] using hlive

/-- Every live vector is the new one or was live before, and the entry point is the new one or the
old one, which stays only if the new one has links. -/
structure Added (g h : Graph D) (slot : ℕ) : Prop where
  live {x : ℕ} : x < h.nodes.length → h.isDead x = false →
    x = slot ∨ x < g.nodes.length ∧ g.isDead x = false
  entry : h.entryPoint = slot ∨ h.entryPoint = g.entryPoint ∧ h.links slot 0 ≠ []

theorem WF.insertAt_added (hw : g.WF) (hne : g.nodes ≠ []) (ht : g.Target id slot existed)
    (hvec : vec.length = g.cfg.dim) (hlevel : level ≤ 64) :
    Added g (g.insertAt id vec level slot existed) slot := by
  have hb := hw.connected_bare hne ht hvec hlevel
  rw [insertAt_eq (hw.hasEntry_iff.mpr hne)]
  have htab := ((g.placedAt id vec level slot existed).connect slot level).promote_tables slot level
  refine ⟨fun hx hlive => ?_, ?_⟩
  · simp only [isDead, nodes_of_tables htab, dead_of_tables htab, length_of_bare hb,
      dead_of_bare hb] at hx hlive
    exact hw.shape.slotted.live_store (hw.shape.slotted.fits ht) _ vec hx hlive
  · rw [promote_entryPoint, entryPoint_of_bare hb, links_of_tables htab]
    split
    · exact .inl rfl
    · next hstay => exact .inr ⟨rfl, fun hnil => hstay (.inr hnil)⟩

theorem Joined.insertNext (hj : g.Joined) (hw : g.WF) (hne : g.nodes ≠ [])
    (ht : g.Target id slot existed) (hvec : vec.length = g.cfg.dim) (hlevel : level ≤ 64)
    (hkeep : g.InsertKeeps vec level slot existed) :
    (g.insertAt id vec level slot existed).Joined := by
  have hr := hw.picks_relinked hne ht hvec hlevel hkeep
  have hadd := hw.insertAt_added hne ht hvec hlevel
  have hfit := hw.shape.slotted.fits ht
  have hlinks : ∀ s k, (g.insertAt id vec level slot existed).links s k =
      ((g.placedAt id vec level slot existed).addAll ((g.placedAt id vec level slot
        existed).connections slot (range (level + 1)))).links s k := by
    intro s k
    rw [insertAt_eq (hw.hasEntry_iff.mpr hne), links_of_tables (promote_tables ..),
      connect_eq_addAll hr.linked (hw.lt_placedAt ht)]
  have hown : ∀ k, (g.placedAt id vec level slot existed).links slot k =
      (g.picks vec slot level existed).getD k [] := fun k => by
    rw [hw.placedAt_links hne ht, if_pos rfl]
  generalize g.insertAt id vec level slot existed = h at *
  by_cases hnil : (g.picks vec slot level existed).getD 0 [] = []
  · have halone : ∀ k, (g.picks vec slot level existed).getD k [] = [] := by
      intro k
      apply eq_nil_iff_forall_not_mem.mpr
      intro y hy
      obtain ⟨hreach, hlive, hself⟩ := hj.picks_ok hw hne hfit hy
      exact hself (hj.picks_eq_nil hw hne hkeep hnil ((hj.closed hw hne).lt hreach) hlive).1
    have hempty : h.links slot 0 = [] := by
      apply eq_nil_iff_forall_not_mem.mpr
      intro y hy
      rw [hlinks] at hy
      obtain hy | ⟨rfl, hy⟩ := hr.mem hy <;> simp only [hown, hnil, not_mem_nil] at hy
    have hentry : h.entryPoint = slot := hadd.entry.resolve_right fun h => h.2 hempty
    refine hr.joined hj hlinks (fun hx hy => ?_) fun hx hlive => ?_
    · rw [hx, hown, halone] at hy
      exact absurd hy not_mem_nil
    · obtain rfl | ⟨hx, hlive⟩ := hadd.live hx hlive
      · exact hentry ▸ .refl
      · rw [(hj.picks_eq_nil hw hne hkeep hnil hx hlive).1, hentry]
        exact .refl
  · obtain ⟨p, hp⟩ := exists_mem_of_ne_nil _ hnil
    have hgrow : ∀ x y, y ∈ g.links x 0 → y ∈ h.links x 0 := by
      simpa only [hlinks] using hr.grow
    have hsym : ∀ {x y}, y ∈ h.links x 0 → x ∈ h.links y 0 := by
      simp only [hlinks]
      exact hr.sym hj
    have hslot : p ∈ h.links slot 0 := by
      rw [hlinks, hr.mem_layer0, hown]
      exact .inl hp
    have hcomp : ∀ {y}, g.Reaches 0 g.entryPoint y → h.Reaches 0 slot y := fun hy =>
      .head hslot (Reaches.mono hgrow (((hj.picks_ok hw hne hfit hp).1.symm hj.sym).trans hy))
    have hentry : h.Reaches 0 h.entryPoint slot := by
      obtain heq | ⟨heq, -⟩ := hadd.entry
      · exact heq ▸ .refl
      · exact heq ▸ (hcomp .refl).symm hsym
    refine hr.joined hj hlinks (fun hx hy => ?_) fun hx hlive => hentry.trans ?_
    · rw [hx, hown] at hy
      exact hx ▸ hcomp (hj.picks_ok hw hne hfit hy).1
    · obtain rfl | ⟨hx, hlive⟩ := hadd.live hx hlive
      · exact .refl
      · exact hcomp (hj.live hx hlive)

theorem Joined.insertFirst (hw : g.WF) (hnil : g.nodes = []) (hentry : g.hasEntry = false)
    (ht : g.Target id 0 false) : (g.insertAt id vec level 0 false).Joined := by
  have hnd : ∀ k, (replicate (level + 1) ([] : List ℕ)).getD k [] = [] :=
    getD_replicate_nil (level + 1)
  have hlinks : ∀ s k, (g.insertAt id vec level 0 false).links s k = [] := by
    intro s k
    simp only [Graph.insertAt, hentry, Bool.not_false, if_true]
    have hplace : (({ g with live := g.live + 1 } : Graph D).place 0
        ⟨id, level, replicate (level + 1) []⟩ vec false).links s k = _ :=
      links_place (hw.shape.slotted.fits ht) hw.shape.linked.links0_length (by simp)
    refine hplace.trans ?_
    split
    · exact hnd k
    · exact links_eq_nil hw.shape.linked.links0_length (by simp [hnil]) k
  refine ⟨fun hy => ?_, fun hy => ?_, fun {x} hx _ => ?_⟩
  · simp [hlinks] at hy
  · simp [hlinks] at hy
  · simp only [Graph.insertAt, hentry, Bool.not_false, if_true, length_of_bare (bare_place ..),
      store_nodes_length, hnil, length_nil, Bool.false_eq_true, if_false] at hx ⊢
    obtain rfl : x = 0 := by omega
    exact .refl

theorem Joined.insertAt (hj : g.Joined) (hw : g.WF) (ht : g.Target id slot existed)
    (hvec : vec.length = g.cfg.dim) (hlevel : level ≤ 64)
    (hkeep : g.hasEntry = true → g.InsertKeeps vec level slot existed) :
    (g.insertAt id vec level slot existed).Joined := by
  obtain ⟨hnil, hentry, rfl, rfl⟩ | ⟨hne, hentry⟩ := hw.insertAt_cases ht
  · exact Joined.insertFirst hw hnil hentry ht
  · exact hj.insertNext hw hne ht hvec hlevel (hkeep hentry)

end Insert

section Chunk
variable {chunk : List ChunkNode}

theorem WF.linked_new (hw : g.WF) (hne : g.nodes ≠ []) (hp : g.Placeable chunk) {x k y : ℕ}
    (hx : g.nodes.length ≤ x) (hy : y ∈ (g.linkedChunk chunk).links x k) :
    ∃ j nd, chunk[j]? = some nd ∧ x = g.nodes.length + j ∧ k ≤ nd.level := by
  have hlinked := (hw.linked_shape hne hp).linked
  have hlen := linked_nodes_length (hw.placed hp)
  have hlt : x < g.nodes.length + chunk.length := by
    by_contra hge
    simp [links_eq_nil hlinked.links0_length (hlen ▸ Nat.not_lt.mp hge)] at hy
  obtain ⟨j, rfl⟩ := Nat.exists_eq_add_of_le hx
  have hj : j < chunk.length := by omega
  refine ⟨j, chunk[j], getElem?_eq_getElem hj, rfl, ?_⟩
  by_contra hlevel
  rw [hw.linked_others hne hp, links_eq_nil hw.shape.linked.links0_length hx] at hy
  · exact absurd hy not_mem_nil
  · intro i nd hi heq
    obtain rfl : i = j := by omega
    rw [getElem?_eq_getElem hj, Option.some.injEq] at hi
    exact hi ▸ Nat.not_le.mp hlevel

theorem WF.chunk_relinked (hw : g.WF) (hne : g.nodes ≠ []) (hp : g.Placeable chunk)
    (hkeep : g.ChunkKeeps chunk) :
    Relinked g (g.linkedChunk chunk) ((g.linkedChunk chunk).backLinks g.nodes.length chunk)
      (g.nodes.length ≤ ·) := by
  have hlinked := (hw.linked_shape hne hp).linked
  refine ⟨hlinked, hw.backLinks_addable hne hp, backLinks_keys .., fun {x k y} => ?_,
    fun hx k => ?_, fun hx hy => ?_, hkeep.2⟩
  · rw [backLinks_eq_groupPairs, mem_groupPairs, mem_backPairs]
    constructor
    · rintro ⟨j, nd, -, rfl, -, hx⟩
      exact ⟨Nat.le_add_right .., hx⟩
    · rintro ⟨hy, hx⟩
      obtain ⟨j, nd, hnd, heq, hlevel⟩ := hw.linked_new hne hp hy hx
      exact ⟨j, nd, hnd, heq, hlevel, hx⟩
  · refine hw.linked_others hne hp fun j nd _ heq => ?_
    omega
  · simp [links_eq_nil hw.shape.linked.links0_length hx] at hy

section
variable (hj : g.Joined) (hw : g.WF) (hne : g.nodes ≠ [])
include hj hw hne

theorem Joined.chunkFound_ne_nil
    (hlive : g.live ≠ 0) (nd : ChunkNode) : (g.chunkFound nd).getD 0 [] ≠ [] := by
  obtain ⟨x, hx, hxlive⟩ : ∃ x, x < g.nodes.length ∧ g.isDead x = false := by
    have hmem : false ∈ g.dead := by
      rw [← count_pos_iff, ← hw.live_eq]
      exact Nat.pos_of_ne_zero hlive
    obtain ⟨x, hx, hget⟩ := getElem_of_mem hmem
    exact ⟨x, hw.shape.slotted.dead_length ▸ hx, by simp [isDead, hx, hget]⟩
  obtain ⟨e, he, heq⟩ | ⟨hlt, -⟩ := chunkFound_layer hw.shape (hj.closed hw hne) .refl nd 0
  · have hm := hw.shape.m_ge
    have hef := hw.shape.ef_ge
    rw [heq]
    apply diverse_ne_nil (by simp only [maxLinks, if_true]; omega)
    have hdone : BeamDone g nd.vec e g.cfg.efConstruction 0 _ :=
      hw.shape.layerFound_done ((hj.closed hw hne).lt he)
    simp only [layerFound, filter_true]
    intro hnil
    rw [hnil] at hdone
    obtain hfull | hall := hdone.complete
    · simp only [length_nil] at hfull
      omega
    · have hex := (he.symm hj.sym).trans (hj.live hx hxlive)
      exact absurd (hall x hex hxlive) not_mem_nil
  · omega

theorem Joined.chunkPicks_ok {placed : Graph D} {j : ℕ} {nd : ChunkNode} {k y : ℕ}
    (hy : y ∈ g.chunkPicks placed g.nodes.length (chunk.take j) nd k) :
    g.Reaches 0 g.entryPoint y ∨ ∃ i < j, i < chunk.length ∧ y = g.nodes.length + i := by
  obtain hy | hy := mem_chunkPicks hy
  · obtain ⟨c, hc, rfl⟩ := mem_map.mp hy
    obtain ⟨e, he, heq⟩ | ⟨-, heq⟩ := chunkFound_layer hw.shape (hj.closed hw hne) .refl nd k
    · rw [heq] at hc
      exact .inl (mem_layerFound hw.shape (hj.closed hw hne) he ((g.diverse_sublist _ _).subset hc)).1
    · rw [heq] at hc
      exact absurd hc not_mem_nil
  · obtain ⟨c, hc, rfl⟩ := mem_map.mp hy
    obtain ⟨hbase, mate, hmate, -⟩ := mem_mates hc
    have hlt := (List.getElem?_eq_some_iff.mp hmate).1
    simp only [List.length_take] at hlt
    exact .inr ⟨c.id - g.nodes.length, by omega, by omega, by omega⟩

theorem Joined.chunkPicks_ne_nil
    (hlive : g.live ≠ 0) (placed : Graph D) (before : List ChunkNode) (nd : ChunkNode) :
    g.chunkPicks placed g.nodes.length before nd 0 ≠ [] := by
  have hm := hw.shape.m_ge
  have hfound := hj.chunkFound_ne_nil hw hne hlive nd
  simp only [chunkPicks, ne_eq]
  rw [selectNeighbors_eq_nil (by simp only [maxLinks, if_true]; omega)]
  intro hnil
  have hperm := mergeClosest_perm ((g.chunkFound nd).getD 0 []) (g.mates g.nodes.length before nd 0)
  rw [hnil] at hperm
  exact hfound (append_eq_nil_iff.mp hperm.nil_eq.symm).1

theorem Joined.joinSettle (hp : g.Placeable chunk) (hkeep : g.ChunkKeeps chunk) :
    ((g.joinedChunk chunk).settle g.nodes.length chunk.zipIdx).Joined := by
  have hr := hw.chunk_relinked hne hp hkeep
  have htab := (g.joinedChunk chunk).settle_tables g.nodes.length chunk.zipIdx
  have hlinks : ∀ s k, ((g.joinedChunk chunk).settle g.nodes.length chunk.zipIdx).links s k =
      ((g.linkedChunk chunk).addAll
        ((g.linkedChunk chunk).backLinks g.nodes.length chunk)).links s k := links_of_tables htab
  have hplaced := hw.placed hp
  have hb := g.joined_bare chunk
  have hentry := (g.joinedChunk chunk).settle_entryPoint g.nodes.length chunk.zipIdx
  have hlen : ((g.joinedChunk chunk).settle g.nodes.length chunk.zipIdx).nodes.length =
      g.nodes.length + chunk.length := by
    rw [nodes_of_tables htab, length_of_bare hb, hplaced.nodes_length]
  have hdead : ((g.joinedChunk chunk).settle g.nodes.length chunk.zipIdx).dead =
      g.dead ++ replicate chunk.length false := by
    rw [dead_of_tables htab, dead_of_bare hb, hplaced.dead]
  rw [entryPoint_of_bare hb, hplaced.rest.2.2.2.1] at hentry
  generalize (g.joinedChunk chunk).settle g.nodes.length chunk.zipIdx = h at *
  have hgrow : ∀ x y, y ∈ g.links x 0 → y ∈ h.links x 0 := by
    simpa only [hlinks] using hr.grow
  have hsym : ∀ {x y}, y ∈ h.links x 0 → x ∈ h.links y 0 := by
    simp only [hlinks]
    exact hr.sym hj
  -- by induction on the place in the chunk: a node links to what it found or to earlier nodes
  have hchunk : ∀ j, j < chunk.length → h.Reaches 0 g.entryPoint (g.nodes.length + j) := by
    intro j
    induction j using Nat.strong_induction_on with
    | _ j ih =>
      intro hjlt
      have hpicks := hw.linked_picks hne hp (getElem?_eq_getElem hjlt) (Nat.zero_le _)
      obtain ⟨y, hy⟩ := exists_mem_of_ne_nil _
        (hj.chunkPicks_ne_nil hw hne hkeep.1 (g.placedChunk chunk) (chunk.take j) chunk[j])
      have hlink : y ∈ h.links (g.nodes.length + j) 0 := by
        rw [hlinks]
        exact hr.mem_layer0.mpr (.inl (hpicks ▸ hy))
      refine Relation.ReflTransGen.tail ?_ (hsym hlink)
      obtain hold | ⟨i, hij, hi, rfl⟩ := hj.chunkPicks_ok hw hne hy
      · exact Reaches.mono hgrow hold
      · exact ih i hij hi
  have hcomp : ∀ {y j k nd},
      y ∈ g.chunkPicks (g.placedChunk chunk) g.nodes.length (chunk.take j) nd k →
      h.Reaches 0 g.entryPoint y := fun hy => by
    obtain hold | ⟨i, -, hi, rfl⟩ := hj.chunkPicks_ok hw hne hy
    · exact Reaches.mono hgrow hold
    · exact hchunk i hi
  have hstart : h.Reaches 0 h.entryPoint g.entryPoint := by
    obtain heq | ⟨nd, hnd, heq⟩ := hentry
    · exact heq ▸ .refl
    · have hlt := (List.getElem?_eq_some_iff.mp (List.mem_zipIdx_iff_getElem?.mp hnd)).1
      exact heq ▸ (hchunk nd.2 hlt).symm hsym
  refine hr.joined hj hlinks (fun {x k y} hx hy => ?_) fun {x} hx hlive => hstart.trans ?_
  · obtain ⟨j, nd, hnd, rfl, hlevel⟩ := hw.linked_new hne hp hx hy
    rw [hw.linked_picks hne hp hnd hlevel] at hy
    exact ((hchunk j (List.getElem?_eq_some_iff.mp hnd).1).symm hsym).trans (hcomp hy)
  · rw [hlen] at hx
    by_cases hold : x < g.nodes.length
    · refine Reaches.mono hgrow (hj.live hold ?_)
      rw [← hw.shape.slotted.dead_length] at hold
      simpa [isDead, hdead, getElem?_append_left hold] using hlive
    · obtain ⟨j, rfl⟩ := Nat.exists_eq_add_of_le (Nat.not_lt.mp hold)
      exact hchunk j (by omega)

end

end Chunk

omit [Dist D] in
theorem Joined.delete (hj : g.Joined) {id : UInt64} (hd : g.delete id = .ok h) : h.Joined := by
  obtain ⟨slot, -, -, rfl⟩ := delete_eq_ok.mp hd
  refine ⟨hj.sym, hj.up, fun {x} hx hlive => hj.live hx ?_⟩
  by_cases heq : x = slot
  · subst heq
    by_cases hlt : x < g.dead.length
    · simp [isDead, hlt] at hlive
    · simp [isDead, hlt]
  · simpa [isDead, getElem?_set_ne (Ne.symm heq)] using hlive

end Graph

theorem Step.keeps_joined : Kept (fun (g : Graph D) s => s.keepsLinks g = true) Graph.Joined := by
  refine ⟨fun {g s} hw hj hvalid hkeep => ?_⟩
  cases s with
  | insert id vector =>
    have hj' : ({ g with rng := fun k => g.rng (k + 1) } : Graph D).Joined :=
      ⟨hj.sym, hj.up, hj.live⟩
    exact hj'.insertAt (hw.of_rng _) (Graph.target_slotFor ..) ((g.prep_length vector).trans hvalid)
      (Nat.min_le_right ..) (of_decide_eq_true hkeep)
  | chunk items =>
    obtain ⟨rng, hrng⟩ := (g.drawChunk_spec items).1
    have hp := hw.placeable hvalid
    simp only [Step.keepsLinks, hrng, decide_eq_true_eq] at hkeep
    simp only [Step.apply, Graph.insertChunk, hrng]
    exact Graph.Joined.joinSettle (g := { g with rng := rng }) ⟨hj.sym, hj.up, hj.live⟩
      (hw.of_rng rng) hvalid.1 ⟨hp.fresh, hp.nodup, hp.dims, hp.level_le⟩ hkeep
  | delete id =>
    simp only [Step.apply]
    cases hd : g.delete id with
    | error e => exact hj
    | ok h => exact hj.delete hd

end NuclaDB.Hnsw
