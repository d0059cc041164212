import NuclaDB.HnswClosest
import NuclaDB.HnswConnected
import NuclaDB.HnswContents

/-!
# What a wide search returns

With room for every node, a search returns exactly the live vectors that layer 0 reaches from
where the descent ends.
-/

namespace NuclaDB.Hnsw

open List

variable {D : Type} [Dist D] {g : Graph D}

namespace Graph
variable {query : Vec}

section
omit [Dist D]

variable {entry ef l : ℕ} {results : List (Candidate D)}

theorem BeamDone.subset_range
    (hdone : BeamDone g query entry ef l results) (hlt : g.LinksLt l)
    (he : entry < g.nodes.length) : results.map (·.id) ⊆ List.range g.nodes.length := by
  intro y hy
  obtain ⟨c, hc, rfl⟩ := mem_map.mp hy
  exact mem_range.mpr ((hdone.ok c hc).1.lt hlt he)

theorem BeamDone.mem_iff
    (hdone : BeamDone g query entry ef l results) (hlt : g.LinksLt l)
    (he : entry < g.nodes.length) (hef : g.nodes.length ≤ ef) (x : ℕ) :
    x ∈ results.map (·.id) ↔ g.Reaches l entry x ∧ g.isDead x = false := by
  constructor
  · intro hx
    obtain ⟨c, hc, rfl⟩ := mem_map.mp hx
    exact ⟨(hdone.ok c hc).1, (hdone.ok c hc).2.1⟩
  · rintro ⟨hreach, hlive⟩
    obtain hfull | hall := hdone.complete
    · have hperm := (subperm_of_subset hdone.nodup (hdone.subset_range hlt he)).perm_of_length_le
        (by simp only [length_range, length_map]; omega)
      exact hperm.mem_iff.mpr (mem_range.mpr (hreach.lt hlt he))
    · exact hall x hreach hlive

theorem BeamDone.length_le_nodes
    (hdone : BeamDone g query entry ef l results) (hlt : g.LinksLt l)
    (he : entry < g.nodes.length) : results.length ≤ g.nodes.length := by
  simpa using (subperm_of_subset hdone.nodup (hdone.subset_range hlt he)).length_le

theorem get_isSome {id : UInt64} :
    (g.get id).isSome = true ↔ ∃ slot, g.slots[id]? = some slot ∧ g.isDead slot = false := by
  simp only [get]
  cases hslot : g.slots[id]? with
  | none => simp
  | some slot => cases hdead : g.isDead slot <;> simp [hdead]

end

theorem search_eq {topK : ℤ} (ef : ℤ) (hv : validateVector query g.cfg.dim = .ok ())
    (hk : 0 < topK) (hentry : g.hasEntry = true) :
    g.search query topK ef = .ok (((g.searchLayer (g.prep query) (g.descend (g.prep query) 0)
      (max ef topK).toNat 0).take topK.toNat).map
        fun c => ⟨(g.nodes.getD c.id default).id, c.dist⟩) := by
  simp only [search, hv, bind, Except.bind, hentry, Bool.not_true, Bool.false_eq_true, if_false,
    if_neg (show ¬ topK ≤ 0 by omega)]
  rfl

theorem WF.search_none (hw : g.WF) {topK : ℤ} (ef : ℤ) (hv : validateVector query g.cfg.dim = .ok ())
    (hnone : topK ≤ 0 ∨ g.nodes = []) : g.search query topK ef = .ok [] := by
  have hentry : topK ≤ 0 ∨ g.hasEntry = false :=
    hnone.imp_right fun hnil => by simpa using mt hw.hasEntry_iff.mp (not_not.mpr hnil)
  obtain h | h := hentry <;> simp [search, hv, h, bind, Except.bind, pure, Except.pure]

theorem WF.descend_lt (hw : g.WF) (hnil : g.nodes ≠ []) (query : Vec) :
    g.descend query 0 < g.nodes.length :=
  hw.shape.linked.closed_lt.descend (hw.entry_lt hnil) _ _

theorem WF.search_ids (hw : g.WF) {topK : ℤ} (ef : ℤ)
    (hv : validateVector query g.cfg.dim = .ok ()) (hk : (g.nodes.length : ℤ) ≤ topK) :
    ∃ res, g.search query topK ef = .ok res ∧ ∀ id, id ∈ res.map (·.id) ↔ ∃ slot,
      g.slots[id]? = some slot ∧ g.Reaches 0 (g.descend (g.prep query) 0) slot ∧
        g.isDead slot = false := by
  by_cases hnil : g.nodes = []
  · refine ⟨[], hw.search_none ef hv (.inr hnil), fun id => ?_⟩
    simp only [map_nil, not_mem_nil, false_iff]
    rintro ⟨slot, hslot, -⟩
    have := hw.shape.slotted.lt_of_slot hslot
    simp [hnil] at this
  · have hpos := length_pos_of_ne_nil hnil
    have hlt := hw.shape.linked.linksLt 0
    have he := hw.descend_lt hnil (g.prep query)
    have hdone := searchLayer_done g (g.prep query) hlt he
      (show 1 ≤ (max ef topK).toNat by omega)
    have hmem := hdone.mem_iff hlt he (by omega)
    have hlen := hdone.length_le_nodes hlt he
    refine ⟨_, search_eq ef hv (by omega) (hw.hasEntry_iff.mpr hnil), fun id => ?_⟩
    rw [take_of_length_le (by omega), map_map]
    constructor
    · intro hid
      obtain ⟨c, hc, rfl⟩ := mem_map.mp hid
      have hslot := (hmem c.id).mp (mem_map_of_mem hc)
      exact ⟨c.id, hw.shape.slotted.slot_iff.mpr ⟨hslot.1.lt hlt he, rfl⟩, hslot⟩
    · rintro ⟨slot, hslot, hreach⟩
      obtain ⟨c, hc, rfl⟩ := mem_map.mp ((hmem slot).mpr hreach)
      exact mem_map.mpr ⟨c, hc, (hw.shape.slotted.slot_iff.mp hslot).2⟩

omit [Dist D] in
theorem nodup_ids {cs : List (Candidate D)}
    (hslot : ∀ c ∈ cs, g.slots[(g.nodes.getD c.id default).id]? = some c.id)
    (hnodup : (cs.map (·.id)).Nodup) : (cs.map fun c => (g.nodes.getD c.id default).id).Nodup := by
  refine pairwise_map.mpr ((pairwise_map.mp hnodup).imp_of_mem ?_)
  intro c c' hc hc' hne heq
  have hsame := hslot c hc
  rw [heq, hslot c' hc'] at hsame
  exact hne (Option.some.inj hsame).symm

/-- The live ids that layer 0 reaches from where the descent for a query ends. -/
def reachedIds (g : Graph D) (query : Vec) : Set UInt64 :=
  {id | ∃ slot, g.slots[id]? = some slot ∧ g.Reaches 0 (g.descend (g.prep query) 0) slot ∧
    g.isDead slot = false}

theorem WF.reachedIds_subset (hw : g.WF) (query : Vec) : g.reachedIds query ⊆ g.liveIds := by
  rintro id ⟨slot, hslot, -, hlive⟩
  exact Finset.mem_coe.mpr (hw.shape.slotted.mem_liveIds.mpr (get_isSome.mpr ⟨slot, hslot, hlive⟩))

theorem WF.search_reached (hw : g.WF) (hv : validateVector query g.cfg.dim = .ok ()) (k : ℤ) :
    ∃ res, g.search query k k = .ok res ∧ (res.map (·.id)).Nodup ∧
      (∀ id ∈ res.map (·.id), id ∈ g.reachedIds query) ∧ (res.length : ℤ) ≤ max k 0 ∧
      ((res.length : ℤ) < k → ∀ id ∈ g.reachedIds query, id ∈ res.map (·.id)) := by
  by_cases hk : k ≤ 0
  · refine ⟨[], hw.search_none k hv (.inl hk), by simp, by simp, by simp, fun h => ?_⟩
    simp only [length_nil] at h
    omega
  by_cases hnil : g.nodes = []
  · refine ⟨[], hw.search_none k hv (.inr hnil), by simp, by simp, by simp, ?_⟩
    rintro - id ⟨slot, hslot, -⟩
    have := hw.shape.slotted.lt_of_slot hslot
    simp [hnil] at this
  · have hlt := hw.shape.linked.linksLt 0
    have he := hw.descend_lt hnil (g.prep query)
    have hdone := searchLayer_done g (g.prep query) hlt he (show 1 ≤ k.toNat by omega)
    have hslot : ∀ c ∈ g.searchLayer (g.prep query) (g.descend (g.prep query) 0) k.toNat 0,
        g.slots[(g.nodes.getD c.id default).id]? = some c.id := fun c hc =>
      hw.shape.slotted.slot_iff.mpr ⟨(hdone.ok c hc).1.lt hlt he, rfl⟩
    have hle := hdone.length_le
    refine ⟨_, search_eq k hv (by omega) (hw.hasEntry_iff.mpr hnil), ?_⟩
    rw [max_self, take_of_length_le hle, map_map, length_map]
    refine ⟨?_, ?_, by omega, fun hfew id hid => ?_⟩
    · exact nodup_ids hslot hdone.nodup
    · intro id hid
      obtain ⟨c, hc, rfl⟩ := mem_map.mp hid
      exact ⟨c.id, hslot c hc, (hdone.ok c hc).1, (hdone.ok c hc).2.1⟩
    · obtain ⟨slot, hs, hreach, hlive⟩ := hid
      obtain hfull | hall := hdone.complete
      · omega
      · obtain ⟨c, hc, rfl⟩ := mem_map.mp (hall slot hreach hlive)
        exact mem_map.mpr ⟨c, hc, (hw.shape.slotted.slot_iff.mp hs).2⟩

/-- Whatever `ef` is, a search returns distinct live ids with their true distances, the closest
first. -/
theorem search_returns_live (hw : g.WF) (ho : StrictWeak (Dist.lt (D := D)))
    (hv : validateVector query g.cfg.dim = .ok ()) (topK ef : ℤ) :
    ∃ res, g.search query topK ef = .ok res ∧ (res.map (·.id)).Nodup ∧
      (res.length : ℤ) ≤ max topK 0 ∧
      res.Pairwise (fun a b => Dist.lt b.distance a.distance = false) ∧
      ∀ r ∈ res, ∃ v, g.get r.id = some v ∧ r.distance = g.dist (g.prep query) v := by
  by_cases hnone : topK ≤ 0 ∨ g.nodes = []
  · exact ⟨[], hw.search_none ef hv hnone, by simp⟩
  obtain ⟨hk, hnil⟩ := not_or.mp hnone
  have hef : 1 ≤ (max ef topK).toNat := by omega
  have hlt := hw.shape.linked.linksLt 0
  have he := hw.descend_lt hnil (g.prep query)
  have hdone := searchLayer_done g (g.prep query) hlt he hef
  have hsorted := ((held_searchLoop (l := 0) ho hef g.nodes.length
    (held_startBeam g (g.prep query) (g.descend (g.prep query) 0) ho hef)).drain ho.farther).2
  have hslot := fun c hc => hw.shape.slotted.slot_iff.mpr ⟨(hdone.ok c hc).1.lt hlt he, rfl⟩
  refine ⟨_, search_eq ef hv (by omega) (hw.hasEntry_iff.mpr hnil), ?_, ?_,
    pairwise_map.mpr (hsorted.sublist (take_sublist _ _)), fun r hr => ?_⟩
  · rw [map_map]
    exact nodup_ids (fun c hc => hslot c (mem_of_mem_take hc))
      (hdone.nodup.sublist ((take_sublist _ _).map _))
  · simp only [length_map, length_take]
    omega
  · obtain ⟨c, hc, rfl⟩ := mem_map.mp hr
    obtain ⟨-, hlive, hdist⟩ := hdone.ok c (mem_of_mem_take hc)
    exact ⟨g.vec c.id, by simp only [get, hslot c (mem_of_mem_take hc), hlive]; rfl, hdist⟩

theorem two_of_three_on_the_line : ∃ res, threeOnTheLine.search [0] 2 1 = .ok res ∧
    ∀ r ∈ res, (threeOnTheLine.get r.id).isSome = true := by
  obtain ⟨res, hres, -, -, -, hlive⟩ :=
    search_returns_live threeOnTheLine_wf Exact.strictWeak (show validateVector [0] _ = _ by decide) 2 1
  exact ⟨res, hres, fun r hr => Option.isSome_iff_exists.mpr ((hlive r hr).imp fun _ => And.left)⟩

def FindsAll (g : Graph D) (query : Vec) (topK ef : ℤ) : Prop :=
  ∃ res, g.search query topK ef = .ok res ∧ ∀ id, (g.get id).isSome = true → id ∈ res.map (·.id)

theorem WF.findsAll_iff (hw : g.WF) {topK : ℤ} (ef : ℤ)
    (hv : validateVector query g.cfg.dim = .ok ()) (hk : (g.nodes.length : ℤ) ≤ topK) :
    g.FindsAll query topK ef ↔ ∀ slot, slot < g.nodes.length → g.isDead slot = false →
      g.Reaches 0 (g.descend (g.prep query) 0) slot := by
  obtain ⟨res, hres, hids⟩ := hw.search_ids ef hv hk
  constructor
  · rintro ⟨res', hres', hall⟩ slot hslot hlive
    obtain rfl : res' = res := by simpa [hres] using hres'.symm
    have hid : g.slots[(g.nodes.getD slot default).id]? = some slot :=
      hw.shape.slotted.slot_iff.mpr ⟨hslot, rfl⟩
    obtain ⟨slot', hslot', hreach, -⟩ := (hids _).mp (hall _ (get_isSome.mpr ⟨slot, hid, hlive⟩))
    obtain rfl : slot = slot' := Option.some.inj (hid.symm.trans hslot')
    exact hreach
  · refine fun hall => ⟨res, hres, fun id hid => ?_⟩
    obtain ⟨slot, hslot, hlive⟩ := get_isSome.mp hid
    exact (hids id).mpr
      ⟨slot, hslot, hall slot (hw.shape.slotted.lt_of_slot hslot) hlive, hlive⟩

end Graph

theorem new_joined (cfg : Config D) (rng : ℕ → ℕ) : (new cfg rng).Joined := by
  have hlinks : ∀ s k, (new cfg rng).links s k = [] := fun s k =>
    Graph.links_eq_nil rfl (Nat.zero_le s) k
  refine ⟨fun hy => ?_, fun hy => ?_, fun hx => absurd hx (Nat.not_lt_zero _)⟩
  · simp [hlinks] at hy
  · simp [hlinks] at hy

/-- Along a run, a wide search returns every live id exactly when layer 0 reaches every live slot
from the end of the descent, and so it does while no step drops a layer-0 link. -/
theorem wide_search_finds_live (cfg : Config D) (rng : ℕ → ℕ) (ops : List Op) {query : Vec}
    {topK : ℤ} (ef : ℤ) (hv : validateVector query cfg.dim = .ok ())
    (hk : ((run (new cfg rng) ops).nodes.length : ℤ) ≤ topK) :
    ((run (new cfg rng) ops).FindsAll query topK ef ↔
      ∀ slot, slot < (run (new cfg rng) ops).nodes.length → (run (new cfg rng) ops).isDead slot = false →
        (run (new cfg rng) ops).Reaches 0
          ((run (new cfg rng) ops).descend ((run (new cfg rng) ops).prep query) 0) slot) ∧
    ((∀ p ∈ runTrace (new cfg rng) ops, p.2.keepsLinks p.1 = true) →
      (run (new cfg rng) ops).FindsAll query topK ef) := by
  have hw := run_wf cfg rng ops
  have hv' : validateVector query (run (new cfg rng) ops).cfg.dim = .ok () := by
    rw [run_cfg]
    exact hv
  refine ⟨hw.findsAll_iff ef hv' hk, fun hkeeps => ?_⟩
  have hj := (run_induction Step.keeps_joined (Graph.new_wf cfg rng) (new_joined cfg rng) hkeeps).2
  rw [hw.findsAll_iff ef hv' hk]
  intro slot hslot hlive
  exact hj.descend_reaches hw (ne_nil_of_length_pos (by omega)) _ hslot hlive

theorem wide_search_finds_three_on_a_line : (∀ p ∈ runTrace (new line fun _ => 0)
      [.insert 1 [0xC1200000], .insert 2 [0], .insert 3 [0x41200000], .delete 2],
      p.2.keepsLinks p.1 = true) ∧
    (run (new line fun _ => 0)
      [.insert 1 [0xC1200000], .insert 2 [0], .insert 3 [0x41200000], .delete 2]).FindsAll
        [0] 3 3 := by
  have hkeeps : ∀ p ∈ runTrace (new line fun _ => 0)
      [.insert 1 [0xC1200000], .insert 2 [0], .insert 3 [0x41200000], .delete 2],
      p.2.keepsLinks p.1 = true := by decide +kernel
  refine ⟨hkeeps, (wide_search_finds_live line (fun _ => 0) _ 3 ?_ ?_).2 hkeeps⟩ <;>
    decide +kernel

/-- Three points at -10, 0 and 10, of which the middle one moves to -20: its old links are gone,
and the third point is live but never found. -/
theorem moved_vector_cuts_off_another :
    (run (new line fun _ => 0) [.insert 1 [0xC1200000], .insert 2 [0], .insert 3 [0x41200000],
      .insert 2 [0xC1A00000]]).get 3 = some [0x41200000] ∧
    ((run (new line fun _ => 0) [.insert 1 [0xC1200000], .insert 2 [0], .insert 3 [0x41200000],
      .insert 2 [0xC1A00000]]).search [0] 10 10).toOption.map (·.map (·.id)) = some [1, 2] := by
  decide +kernel

end NuclaDB.Hnsw
