import NuclaDB.SegmentLoad

/-!
# The representation of every graph

A graph starts empty or from a snapshot file, and inserts, batches and deletes change it.
-/

namespace NuclaDB.Hnsw

open List

section Capped
variable {D : Type} [Dist D] {g : Graph D}

namespace Graph

def Capped (g : Graph D) : Prop := ∀ slot l, (g.links slot l).length ≤ g.maxLinks l

omit [Dist D] in
theorem length_links_setLinks (g : Graph D) (slot l : ℕ) (ids : List ℕ) (s k : ℕ) :
    ((g.setLinks slot l ids).links s k).length ≤ (g.links s k).length ∨
      k = l ∧ ((g.setLinks slot l ids).links s k).length ≤ ids.length := by
  by_cases hsk : (s, k) = (slot, l)
  · obtain ⟨rfl, rfl⟩ := Prod.mk.inj hsk
    refine .inr ⟨rfl, ?_⟩
    simp only [links, setLinks, getD_eq_getElem?_getD]
    by_cases hk : k = 0
    · by_cases hs : s < g.links0.length
      · simp [hk, hs]
      · simp [hk, hs]
    · cases hnd : g.nodes[s]? with
      | none => simp [hk, hnd, show (default : Node).neighbors = [] from rfl]
      | some nd =>
        have hlayer := nd.setLayer_getD k k ids
        simp only [getD_eq_getElem?_getD, if_true] at hlayer
        simp [hk, hnd, hlayer]
  · rw [links_setLinks_ne hsk]
    exact .inl le_rfl

section
variable (hg : g.Capped)
include hg

section
omit [Dist D]

theorem Capped.setLinks (slot : ℕ) {l : ℕ} {ids : List ℕ}
    (hids : ids.length ≤ g.maxLinks l) : (g.setLinks slot l ids).Capped := by
  intro s k
  rcases g.length_links_setLinks slot l ids s k with h | ⟨rfl, h⟩
  · exact h.trans (hg s k)
  · exact h.trans hids

theorem Capped.store (slot : ℕ) {nd : Node} (vec : Vec) (existed : Bool)
    (hnd : ∀ l, (nd.neighbors.getD l []).length ≤ g.maxLinks l) :
    (g.store slot nd vec existed).Capped := by
  intro s k
  change ((g.store slot nd vec existed).links s k).length ≤ g.maxLinks k
  have hold := hg s k
  have hnew := hnd k
  simp only [links, Graph.store, getD_eq_getElem?_getD] at hold hnew ⊢
  cases existed with
  | true => grind
  | false => grind

theorem Capped.place (slot : ℕ) {nd : Node} (vec : Vec) (existed : Bool)
    (hnd : ∀ l, (nd.neighbors.getD l []).length ≤ g.maxLinks l) :
    (g.place slot nd vec existed).Capped := by
  have hset := (hg.store slot vec existed hnd).setLinks slot (hnd 0)
  intro s k
  rw [Graph.place, links_clearStaged]
  exact hset s k

end

theorem Capped.addLinks (nbr : ℕ) (newIDs : List ℕ) (l : ℕ) :
    (g.addLinks nbr newIDs l (g.maxLinks l)).Capped :=
  hg.setLinks nbr mergedLinks_length_le

theorem Capped.connect (slot level : ℕ) : (g.connect slot level).Capped := by
  refine foldlRecOn (motive := Capped) _ _ hg fun h hh l _ => ?_
  exact foldlRecOn (motive := Capped) _ _ hh fun h hh nbr _ => hh.addLinks nbr [slot] l

end

theorem length_picks_le (g : Graph D) (vec : Vec) (slot level : ℕ) (existed : Bool) (l : ℕ) :
    ((g.picks vec slot level existed).getD l []).length ≤ g.maxLinks l := by
  rw [picks, getD_append_replicate, getD_eq_getElem?_getD, getElem?_mapIdx]
  cases (g.searchDown vec _ _ _)[l]? with
  | none => exact Nat.zero_le _
  | some cs => exact g.selectNeighbors_length_le cs _

omit [Dist D] in
theorem Capped.of_tables (hg : g.Capped) {h : Graph D} (ht : h.tables = g.tables) : h.Capped := by
  intro s k
  rw [links_of_tables ht, maxLinks, cfg_of_tables ht]
  exact hg s k

omit [Dist D] in
theorem length_replicate_nil (n l m : ℕ) :
    ((replicate n ([] : List ℕ)).getD l []).length ≤ m := by
  simp [getD_eq_getElem?_getD, getElem?_replicate]
  grind

theorem Capped.insertAt (hg : g.Capped) (id : UInt64) (vec : Vec) (level slot : ℕ)
    (existed : Bool) : (g.insertAt id vec level slot existed).Capped := by
  simp only [Graph.insertAt]
  split
  · refine Capped.of_tables (g := ({ g with live := g.live + 1 } : Graph D).place slot
      ⟨id, level, replicate (level + 1) []⟩ vec existed) ?_ rfl
    exact Capped.place (g := { g with live := g.live + 1 }) hg slot vec existed
      fun l => length_replicate_nil _ _ _
  · refine Capped.of_tables ?_ (promote_tables ..)
    exact (Capped.place (g := g.countLive slot existed) hg slot vec existed
      fun l => g.length_picks_le vec slot level existed l).connect slot level

theorem Capped.joinedChunk (hg : g.Capped) (chunk : List ChunkNode) :
    (g.joinedChunk chunk).Capped := by
  have hplaced : (g.placedChunk chunk).Capped ∧ (g.placedChunk chunk).cfg = g.cfg := by
    refine foldlRecOn (motive := fun h : Graph D => h.Capped ∧ h.cfg = g.cfg) _ _ ⟨hg, rfl⟩ ?_
    exact fun h hh nd _ => ⟨hh.1.place _ nd.1.vec false fun l => length_replicate_nil _ _ _, hh.2⟩
  have hlinked : (g.linkedChunk chunk).Capped ∧ (g.linkedChunk chunk).cfg = g.cfg := by
    refine foldlRecOn (motive := fun h : Graph D => h.Capped ∧ h.cfg = g.cfg) _ _ hplaced ?_
    intro h hh nd _
    refine foldlRecOn (motive := fun h : Graph D => h.Capped ∧ h.cfg = g.cfg) _ _ hh ?_
    intro h hh l _
    have hmax : h.maxLinks l = g.maxLinks l := by rw [maxLinks, maxLinks, hh.2]
    exact ⟨hh.1.setLinks _ (hmax ▸ selectNeighbors_length_le _ _ _), hh.2⟩
  exact foldlRecOn (motive := Capped) _ _ hlinked.1 fun h hh up _ => hh.addLinks _ _ _

end Graph

theorem Step.keeps_capped : Kept (fun _ _ => True) (Graph.Capped (D := D)) where
  step := by
    intro g s _ hg _ _
    cases s with
    | insert id vector =>
      exact Graph.Capped.insertAt (g := { g with rng := fun k => g.rng (k + 1) }) hg _ _ _ _ _
    | chunk items =>
      obtain ⟨rng, hrng⟩ := (g.drawChunk_spec items).1
      simp only [Step.apply, Graph.insertChunk, hrng]
      exact (Graph.Capped.joinedChunk (g := { g with rng := rng }) hg _).of_tables
        (Graph.settle_tables ..)
    | delete id =>
      obtain ⟨dead, live, hmarks⟩ := Step.apply_delete g id
      rw [hmarks]
      exact hg

theorem new_capped (cfg : Config D) (rng : ℕ → ℕ) : (new cfg rng).Capped := by
  intro slot l
  rw [Graph.links_eq_nil rfl (Nat.zero_le slot)]
  exact Nat.zero_le _

end Capped

section Reached
variable {D : Type} [Dist D]

/-- The graphs that calls start from: an empty one, or one that a snapshot file was loaded to. -/
inductive Start (cfg : Config D) : Graph D → Prop
  | new (rng : ℕ → ℕ) : Start cfg (Hnsw.new cfg rng)
  | load {rng : ℕ → ℕ} {file : Option LittleEndian.Bytes} {g : Graph D} {seq : UInt64} :
      Segment.load cfg rng file = .ok (g, seq) → Start cfg g

theorem Start.wf {cfg : Config D} {g : Graph D} (h : Start cfg g) : g.WF := by
  cases h with
  | new rng => exact Graph.new_wf cfg rng
  | load hload => exact Segment.load_wf hload

/-- In every graph that calls reach, slots and ids are in bijection, the tables have one entry for
each slot, the count of live vectors and the entry point are right, and the lists may stand. -/
theorem representation_invariant {cfg : Config D} {g₀ : Graph D} (hstart : Start cfg g₀)
    (ops : List Op) :
    let g := run g₀ ops
    (∀ id slot, g.slots[id]? = some slot ↔ slot < g.nodes.length ∧
      (g.nodes.getD slot default).id = id) ∧
    g.dead.length = g.nodes.length ∧ g.data.length = g.nodes.length ∧
    g.links0.length = g.nodes.length ∧ g.live = g.dead.count false ∧
    (g.hasEntry = true ↔ g.nodes ≠ []) ∧ (g.nodes ≠ [] → g.entryPoint < g.nodes.length) ∧
    ∀ slot < g.nodes.length, ∀ l,
      (∀ y ∈ g.links slot l, y < g.nodes.length) ∧ (g.links slot l).Nodup ∧
      slot ∉ g.links slot l ∧
      ((∃ rng, g₀ = new cfg rng) →
        (g.links slot l).length ≤ if l = 0 then 2 * g.cfg.m else g.cfg.m) := by
  intro g
  have hw : g.WF := (run_induction (I := fun _ => True) (C := fun _ _ => True)
    ⟨fun _ _ _ _ => trivial⟩ hstart.wf trivial fun _ _ => trivial).1
  have hg := hw.shape.slotted
  refine ⟨fun id slot => hg.slot_iff, hg.dead_length, hg.data_length,
    hw.shape.linked.links0_length, hw.live_eq, hw.hasEntry_iff, hw.entry_lt, fun slot _ l => ?_⟩
  have hlist := hw.shape.linked.list slot l
  refine ⟨hlist.lt, hlist.nodup, hlist.ne, ?_⟩
  rintro ⟨rng, rfl⟩
  exact (run_induction Step.keeps_capped hstart.wf (new_capped cfg rng) fun _ _ => trivial).2 slot l

theorem three_on_a_line_represented :
    let g := run (new line fun n => n % 2)
      [.insert 1 [0xC1200000], .insert 2 [0], .insert 3 [0x41200000], .delete 2]
    g.live = g.dead.count false ∧ (g.links 0 0).length ≤ 2 * g.cfg.m := by
  intro g
  have h := representation_invariant (Start.new (fun n => n % 2) : Start line _)
    [.insert 1 [0xC1200000], .insert 2 [0], .insert 3 [0x41200000], .delete 2]
  exact ⟨h.2.2.2.2.1, (h.2.2.2.2.2.2.2 0 (by decide +kernel) 0).2.2.2 ⟨_, rfl⟩⟩

end Reached

end NuclaDB.Hnsw
