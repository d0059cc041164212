import NuclaDB.SegmentSafety

/-!
# Node states through a file and back

A list of node states that could be a graph's is the snapshot of `graphOf`. Its file loads
into slots and blocks that are large enough exactly when the marks of the restore tell its
neighbor lists apart.
-/

namespace NuclaDB.Segment
open LittleEndian Hnsw StampedMarks List

variable {D : Type} [Hnsw.Dist D]

/-- A list of node states that could be a graph's, with its entry point and top level. -/
structure Listed (cfg : Config D) (nodes : List NodeState) (entry : Option UInt64)
    (maxLevel : ℕ) : Prop where
  ids : (nodes.map (·.id)).Nodup
  level_le : ∀ nd ∈ nodes, nd.level ≤ 64
  lists : ∀ nd ∈ nodes, nd.neighbors.length = nd.level + 1
  dims : ∀ nd ∈ nodes, nd.vector.length = cfg.dim
  named : ∀ nd ∈ nodes, ∀ ids ∈ nd.neighbors,
    ids.Nodup ∧ nd.id ∉ ids ∧ ∀ id ∈ ids, id ∈ nodes.map (·.id)
  list0 : ∀ nd ∈ nodes, (nd.neighbors.getD 0 []).length ≤ 2 * cfg.withDefaults.m
  maxLevel_le : maxLevel ≤ 64
  entry_iff : entry.isSome = true ↔ nodes ≠ []
  entry_mem : ∀ id, entry = some id → id ∈ nodes.map (·.id)

def slotOf (nodes : List NodeState) (id : UInt64) : ℕ := (nodes.map (·.id)).idxOf id

def layer (nodes : List NodeState) (slot l : ℕ) : List UInt64 :=
  (nodes[slot]?.map fun nd => nd.neighbors.getD l []).getD []

def graphOf (cfg : Config D) (rng : ℕ → ℕ) (nodes : List NodeState) (entry : Option UInt64)
    (maxLevel : ℕ) : Graph D :=
  { new cfg rng with
    nodes := nodes.map fun nd =>
      ⟨nd.id, nd.level, (nd.neighbors.map (·.map (slotOf nodes))).set 0 []⟩
    data := nodes.map (·.vector)
    dead := nodes.map (·.deleted)
    links0 := nodes.map fun nd => (nd.neighbors.getD 0 []).map (slotOf nodes)
    slots := (addSlots ∅ 0 (nodes.map (·.id))).getD ∅
    entryPoint := (entry.map (slotOf nodes)).getD 0
    hasEntry := entry.isSome
    maxLevel := maxLevel
    live := (nodes.map (·.deleted)).count false }

section Graph
variable {cfg : Config D} {rng : ℕ → ℕ} {nodes : List NodeState} {entry : Option UInt64}
  {maxLevel : ℕ}

theorem slotOf_lt {id : UInt64} (h : id ∈ nodes.map (·.id)) : slotOf nodes id < nodes.length := by
  simpa [slotOf] using idxOf_lt_length_of_mem h

theorem id_slotOf {id : UInt64} (h : id ∈ nodes.map (·.id)) :
    (nodes.map (·.id))[slotOf nodes id]? = some id :=
  getElem?_idxOf h

theorem links_graphOf (slot l : ℕ) : (graphOf cfg rng nodes entry maxLevel).links slot l =
    (layer nodes slot l).map (slotOf nodes) := by
  simp only [Graph.links, graphOf, layer, getD_eq_getElem?_getD, getElem?_map]
  split
  · next hl =>
    subst hl
    cases nodes[slot]? <;> rfl
  · next hl =>
    cases nodes[slot]? with
    | none => rfl
    | some nd =>
      simp only [Option.map_some, Option.getD_some, getElem?_set_ne (Ne.symm hl), getElem?_map]
      cases nd.neighbors[l]? <;> rfl

theorem idAt_graphOf (slot : ℕ) : (graphOf cfg rng nodes entry maxLevel).idAt slot =
    ((nodes.map (·.id))[slot]?).getD 0 := by
  simp only [Graph.idAt, graphOf, getD_eq_getElem?_getD, getElem?_map]
  cases nodes[slot]? <;> rfl

theorem idAt_slotOf {id : UInt64} (hid : id ∈ nodes.map (·.id)) :
    (graphOf cfg rng nodes entry maxLevel).idAt (slotOf nodes id) = id := by
  rw [idAt_graphOf, id_slotOf hid, Option.getD_some]

section Listed
variable (h : Listed cfg nodes entry maxLevel)
include h

theorem Listed.layer_named (slot l : ℕ) : (layer nodes slot l).Nodup ∧
    (∀ id ∈ layer nodes slot l, id ∈ nodes.map (·.id)) ∧
    ∀ id ∈ layer nodes slot l, (nodes.map (·.id))[slot]? ≠ some id := by
  unfold layer
  cases hnd : nodes[slot]? with
  | none => simp
  | some nd =>
    simp only [Option.map_some, Option.getD_some, getElem?_map, hnd, getD_eq_getElem?_getD]
    cases hids : nd.neighbors[l]? with
    | none => simp
    | some ids =>
      obtain ⟨hnodup, hown, hmem⟩ :=
        h.named nd (mem_of_getElem? hnd) ids (mem_of_getElem? hids)
      refine ⟨hnodup, hmem, fun id hid heq => hown ?_⟩
      rw [Option.some.inj heq]
      exact hid

theorem Listed.slots_iff (id : UInt64) (slot : ℕ) :
    (graphOf cfg rng nodes entry maxLevel).slots[id]? = some slot ↔
      (nodes.map (·.id))[slot]? = some id := by
  obtain ⟨slots, heq, -, hget⟩ := addSlots_spec (i := 0) h.ids fun id _ =>
    (Std.ExtTreeMap.getElem?_empty : (∅ : Slots)[id]? = none)
  have hslots : (graphOf cfg rng nodes entry maxLevel).slots = slots := by
    simp [graphOf, heq]
  rw [hslots, hget]
  simp

variable (rng) in
theorem Listed.wf : (graphOf cfg rng nodes entry maxLevel).WF := by
  have hnew := Graph.new_wf cfg rng
  have hids : (graphOf cfg rng nodes entry maxLevel).nodes.map (·.id) = nodes.map (·.id) := by
    simp [graphOf, Function.comp_def]
  refine ⟨⟨⟨by simp [graphOf], by simp [graphOf], ?_, ?_, ?_⟩, ?_, ⟨by simp [graphOf], ?_⟩,
    hnew.shape.m_ge, hnew.shape.ef_ge⟩, rfl, ?_, ?_, h.maxLevel_le⟩
  · intro id slot
    rw [hids]
    exact h.slots_iff id slot
  · intro v hv
    obtain ⟨nd, hnd, rfl⟩ := mem_map.mp hv
    exact h.dims nd hnd
  · simp only [graphOf, map_map, mem_map, Function.comp_apply]
    rintro _ ⟨nd, hnd, rfl⟩
    exact h.level_le nd hnd
  · intro nd hnd
    obtain ⟨ns, hns, rfl⟩ := mem_map.mp hnd
    have hlists := h.lists ns hns
    have hlevel := h.level_le ns hns
    have hlen : ((ns.neighbors.map (·.map (slotOf nodes))).set 0 []).length = ns.level + 1 := by
      simp [hlists]
    refine ⟨?_, by simp only [hlen]; omega, by simp only [hlen]; omega⟩
    rw [getElem?_set_self (by simp [hlists])]
  · intro slot l
    obtain ⟨hnodup, hmem, hown⟩ := h.layer_named slot l
    rw [links_graphOf]
    refine ⟨?_, ?_, ?_, ?_⟩
    · refine hnodup.map_on fun id hid id' hid' heq => ?_
      have hat := id_slotOf (hmem id hid)
      rw [heq, id_slotOf (hmem id' hid')] at hat
      exact (Option.some.inj hat).symm
    · intro hslot
      obtain ⟨id, hid, rfl⟩ := mem_map.mp hslot
      exact hown id hid (id_slotOf (hmem id hid))
    · intro y hy
      obtain ⟨id, hid, rfl⟩ := mem_map.mp hy
      simpa [graphOf] using slotOf_lt (hmem id hid)
    · rintro rfl
      rw [length_map]
      unfold layer
      cases hnd : nodes[slot]? with
      | none => exact Nat.zero_le _
      | some nd => exact h.list0 nd (mem_of_getElem? hnd)
  · simpa [graphOf] using h.entry_iff
  · intro hne
    have hsome : entry.isSome = true := h.entry_iff.mpr (by simpa [graphOf] using hne)
    obtain ⟨id, hid⟩ := Option.isSome_iff_exists.mp hsome
    simpa [graphOf, hid] using slotOf_lt (h.entry_mem id hid)

theorem Listed.leveled : (graphOf cfg rng nodes entry maxLevel).Leveled := by
  intro nd hnd
  obtain ⟨ns, hns, rfl⟩ := mem_map.mp hnd
  simpa using h.lists ns hns

theorem Listed.links_named (slot l : ℕ) : ((graphOf cfg rng nodes entry maxLevel).links slot l).map
      (graphOf cfg rng nodes entry maxLevel).idAt = layer nodes slot l := by
  have hmem := (h.layer_named slot l).2.1
  rw [links_graphOf, map_map]
  refine (map_congr_left fun id hid => ?_).trans (map_id _)
  exact idAt_slotOf (hmem id hid)

theorem Listed.snapshot_eq : (graphOf cfg rng nodes entry maxLevel).snapshot =
    (nodes, entry.getD 0, maxLevel, entry.isSome) := by
  have hnodes : (graphOf cfg rng nodes entry maxLevel).snapshot.1 = nodes := by
    apply ext_getElem?
    intro k
    simp only [Graph.snapshot, getElem?_mapIdx]
    cases hns : nodes[k]? with
    | none => simp [graphOf, hns]
    | some ns =>
      have hat : (graphOf cfg rng nodes entry maxLevel).nodes[k]? =
          some ⟨ns.id, ns.level, (ns.neighbors.map (·.map (slotOf nodes))).set 0 []⟩ := by
        simp [graphOf, hns]
      have hlists : ((range ((ns.neighbors.map (·.map (slotOf nodes))).set 0 []).length).map
          fun l => layer nodes k l) = ns.neighbors := by
        apply ext_getElem?
        intro l
        by_cases hl : l < ns.neighbors.length <;> simp [layer, hns, hl]
      simp only [hat, Option.map_some, Graph.nodeState, h.links_named, hlists]
      simp [Graph.vec, Graph.isDead, graphOf, hns]
  have hentry : (graphOf cfg rng nodes entry maxLevel).snapshot.2.1 = entry.getD 0 := by
    cases he : entry with
    | none => rfl
    | some id => exact idAt_slotOf (h.entry_mem id he)
  exact Prod.ext hnodes (Prod.ext hentry rfl)

end Listed

end Graph

theorem Listed.load_cases {cfg : Config D} (rng : ℕ → ℕ) {nodes : List NodeState}
    {entry : Option UInt64} {maxLevel : ℕ} (h : Listed cfg nodes entry maxLevel)
    (hdim : cfg.dim < 2 ^ 31) (hname : (nameBytes (metricName cfg)).length < 256)
    (hmetric : metricName cfg ≠ "cosine") (hcount : nodes.length ≤ 2 ^ 32) (walSeq : UInt64) :
    let g := graphOf cfg rng nodes entry maxLevel
    let file := writeSnapshot cfg nodes (entry.getD 0) maxLevel entry.isSome walSeq
    save g walSeq = file ∧
    ((Apart [] (nodes.flatMap (·.neighbors)) ∧ load cfg rng (some file) = .ok (g, walSeq)) ∨
      (¬Apart [] (nodes.flatMap (·.neighbors)) ∧
        ∀ g' seq, load cfg rng (some file) ≠ .ok (g', seq))) := by
  intro g file
  have hcfg : g.cfg = cfg.withDefaults := rfl
  have hset : (new cfg rng).settings = g.settings := rfl
  have hsnap : g.snapshot = (nodes, entry.getD 0, maxLevel, entry.isSome) := h.snapshot_eq
  have hsave : save g walSeq = file := by
    simp only [save, hsnap, writeSnapshot, hcfg, writeHeader_withDefaults, file]
  have hentry : g.nodes = [] → g.entryPoint = 0 := by
    intro hnil
    have hnone : entry = none := by
      rw [← Option.not_isSome_iff_eq_none, h.entry_iff]
      simpa [g, graphOf] using hnil
    simp [g, graphOf, hnone]
  have hcases := load_save_cases (h.wf _) h.leveled hset (unit_of_metricName rng hmetric)
    hname (by omega) (by simpa [g, graphOf] using hcount) hentry walSeq
  rw [hsave, hsnap] at hcases
  exact ⟨hsave, hcases⟩

omit [Hnsw.Dist D] in
theorem Headed.nodeCount_eq {cfg : Config D} {nodes : List NodeState} {maxLevel : ℕ} {hasEntry : Bool}
    (hd : Headed cfg nodes.length maxLevel hasEntry) (entryPoint walSeq : UInt64) :
    Checked.nodeCount cfg (writeSnapshot cfg nodes entryPoint maxLevel hasEntry walSeq) =
      nodes.length := by
  obtain ⟨hmagic, hbody, -⟩ := writeSnapshot_parts cfg nodes entryPoint maxLevel hasEntry walSeq
  simp only [Checked.nodeCount, hmagic, if_true, decide_true, hbody, hd.read_header]

theorem Listed.headed {cfg : Config D} {nodes : List NodeState} {entry : Option UInt64} {maxLevel : ℕ}
    (h : Listed cfg nodes entry maxLevel) (hdim : cfg.dim < 2 ^ 31)
    (hname : (nameBytes (metricName cfg)).length < 256) (hcount : nodes.length ≤ 2 ^ 32) :
    Headed cfg nodes.length maxLevel entry.isSome := by
  have hd := snapshot_headed (h.wf fun _ => 0) (show cfg.dim < 2 ^ 32 by omega)
    (by simpa [graphOf] using hcount) hname
  rwa [h.snapshot_eq] at hd

/-- A list of node states that has slots and blocks comes back from its file, and the file from the
graph, exactly when no neighbor list names an id that was last named a multiple of `2 ^ 32` lists
back. -/
theorem node_states_round_trip (cfg : Config D) (rng : ℕ → ℕ) {nodes : List NodeState}
    {entry : Option UInt64} {maxLevel : ℕ} (walSeq : UInt64) (hdim : cfg.dim < 2 ^ 31)
    (hname : (nameBytes (metricName cfg)).length < 256) (hmetric : metricName cfg ≠ "cosine")
    (h : Listed cfg nodes entry maxLevel) (hfits : Checked.Storable cfg nodes.length)
    (hsize : (writeSnapshot cfg nodes (entry.getD 0) maxLevel entry.isSome walSeq).length < 2 ^ 63) :
    (∃ g b, Checked.load cfg rng (some (writeSnapshot cfg nodes (entry.getD 0) maxLevel entry.isSome
        walSeq)) = .done (g, b, walSeq) ∧ (nodes ≠ [] → b.Holds g) ∧
      g.snapshot = (nodes, entry.getD 0, maxLevel, entry.isSome) ∧
      save g walSeq = writeSnapshot cfg nodes (entry.getD 0) maxLevel entry.isSome walSeq) ↔
    Apart [] (nodes.flatMap (·.neighbors)) := by
  have hcases := h.load_cases rng hdim hname hmetric hfits.1 walSeq
  have hcount := (h.headed hdim hname hfits.1).nodeCount_eq (entry.getD 0) walSeq
  have hmatch := Checked.load_matches cfg rng (some ⟨_, hsize⟩) (by
    rintro m ⟨⟩
    exact hcount.symm ▸ hfits)
  obtain ⟨hsave, ⟨hapart, hload⟩ | ⟨hnot, hload⟩⟩ := hcases
  · refine iff_of_true ?_ hapart
    simp only [Option.map_some, hload] at hmatch
    generalize Checked.load cfg rng _ = out at hmatch ⊢
    cases hmatch with
    | @done l _ hl =>
      obtain ⟨g, b, seq⟩ := l
      obtain ⟨hg, hseq, hb⟩ := hl
      obtain rfl : g = graphOf cfg rng nodes entry maxLevel := hg
      obtain rfl : seq = walSeq := hseq
      exact ⟨_, b, rfl, fun hne => hb (by simpa [graphOf] using hne), h.snapshot_eq, hsave⟩
  · refine iff_of_false ?_ hnot
    rintro ⟨g, b, hdone, -⟩
    simp only [Option.map_some, hdone] at hmatch
    generalize hout : load cfg rng _ = out at hmatch hload
    cases hmatch with
    | @done _ r hl => exact hload r.1 r.2 rfl

def pairOnTheLine : List NodeState := [⟨1, [0], 0, [[2]], false⟩, ⟨2, [0x41200000], 0, [[1]], true⟩]

theorem pairOnTheLine_listed : Listed line pairOnTheLine (some 2) 0 := by
  refine ⟨by decide, by decide, by decide, by decide, by simp [pairOnTheLine], by decide,
    by decide, by decide, fun id hid => ?_⟩
  rw [← Option.some.inj hid]
  decide

theorem pair_on_the_line_round_trip : ∃ g b,
    Checked.load line (fun _ => 0) (some (writeSnapshot line pairOnTheLine 2 0 true 7)) = .done (g, b, 7) ∧
    b.Holds g ∧ g.snapshot = (pairOnTheLine, 2, 0, true) ∧
    save g 7 = writeSnapshot line pairOnTheLine 2 0 true 7 := by
  have hfits : Checked.Storable line pairOnTheLine.length :=
    ⟨by decide, fun _ => by constructor <;> decide +kernel⟩
  obtain ⟨g, b, hload, hb, hround⟩ := (node_states_round_trip line (fun _ => 0) 7 (by decide) (by decide)
    (by decide) pairOnTheLine_listed hfits (by decide +kernel)).mpr (apart_of_length (by decide))
  exact ⟨g, b, hload, hb (by decide), hround⟩

/-- `n` nodes that link nothing, and one that links the first in layer 60. -/
def deepNodes (n : ℕ) : List NodeState :=
  (range n).map (fun i => ⟨UInt64.ofNat i, [0], 64, replicate 65 [], false⟩) ++
    [⟨UInt64.ofNat n, [0], 64, replicate 60 [] ++ [0] :: replicate 4 [], false⟩]

theorem deepNodes_ids (n : ℕ) : (deepNodes n).map (·.id) = (range (n + 1)).map UInt64.ofNat := by
  simp [deepNodes, range_succ]

theorem deepNodes_listed {n : ℕ} (hpos : 0 < n) (hlt : n < 2 ^ 63) :
    Listed line (deepNodes n) (some 0) 64 := by
  have hzero : (0 : UInt64) ∈ (deepNodes n).map (·.id) := by
    rw [deepNodes_ids]
    exact mem_map.mpr ⟨0, by simp, rfl⟩
  have hcases : ∀ nd ∈ deepNodes n, nd.level = 64 ∧ nd.vector = [0] ∧
      (nd.neighbors = replicate 65 [] ∨ nd.id = UInt64.ofNat n ∧
        nd.neighbors = replicate 60 [] ++ [0] :: replicate 4 []) := by
    intro nd hnd
    rcases mem_append.mp hnd with hnd | hnd
    · obtain ⟨i, -, rfl⟩ := mem_map.mp hnd
      exact ⟨rfl, rfl, .inl rfl⟩
    · obtain rfl := mem_singleton.mp hnd
      exact ⟨rfl, rfl, .inr ⟨rfl, rfl⟩⟩
  have hown : UInt64.ofNat n ≠ 0 := by
    intro h
    have hmod := congrArg UInt64.toNat h
    rw [UInt64.toNat_ofNat', Nat.mod_eq_of_lt (by omega)] at hmod
    exact hpos.ne' hmod
  constructor
  · exact deepNodes_ids n ▸ Checked.nodup_ofNat (by change n + 1 ≤ 2 ^ 64; omega)
  · exact fun nd hnd => (hcases nd hnd).1.le
  · intro nd hnd
    obtain ⟨hlevel, -, hlists | ⟨-, hlists⟩⟩ := hcases nd hnd <;> rw [hlevel, hlists] <;> rfl
  · intro nd hnd
    rw [(hcases nd hnd).2.1]
    rfl
  · intro nd hnd ids hids
    obtain ⟨-, -, hlists | ⟨hid, hlists⟩⟩ := hcases nd hnd <;> rw [hlists] at hids
    · simp [(mem_replicate.mp hids).2]
    · have hids' : ids = [] ∨ ids = [0] ∨ ids = [] := by
        simpa [mem_replicate] using hids
      rcases hids' with rfl | rfl | rfl
      · simp
      · refine ⟨nodup_singleton 0, ?_, by simpa using hzero⟩
        rw [hid, mem_singleton]
        exact hown
      · simp
  · intro nd hnd
    obtain ⟨-, -, hlists | ⟨-, hlists⟩⟩ := hcases nd hnd <;> rw [hlists] <;> exact Nat.zero_le _
  · exact le_rfl
  · simp [deepNodes]
  · intro id hid
    rw [← Option.some.inj hid]
    exact hzero

theorem deepNodes_not_apart {n : ℕ} (hn : 65 * n + 61 = 2 ^ 32) :
    ¬Apart [] ((deepNodes n).flatMap (·.neighbors)) := by
  intro h
  have hpast : ∀ ids ∈ (range n).flatMap (fun _ => replicate 65 ([] : List UInt64)) ++
      replicate 60 [], (0 : UInt64) ∉ ids := by
    intro ids hids
    have hnil : (∃ i, i < n) ∧ ids = [] ∨ ids = [] := by
      simpa [mem_replicate] using hids
    rw [hnil.elim And.right fun h => h]
    exact not_mem_nil
  have hsplit : (deepNodes n).flatMap (·.neighbors) =
      ((range n).flatMap (fun _ => replicate 65 []) ++ replicate 60 []) ++
        [0] :: replicate 4 [] := by
    simp [deepNodes, flatMap_map]
  rw [hsplit, apart_append] at h
  refine h.2.1 0 (mem_singleton_self 0) ?_
  rw [nil_append, gap_of_not_named hpast]
  have hlen : ((range n).flatMap (fun _ => replicate 65 ([] : List UInt64)) ++
      replicate 60 []).length + 1 = 65 * n + 61 := by
    simp [length_flatMap]
    omega
  rw [hlen, hn]

theorem deepNodes_refused {n : ℕ} (hn : 65 * n + 61 = 2 ^ 32) :
    Listed line (deepNodes n) (some 0) 64 ∧ (deepNodes n).length ≤ 2 ^ 32 ∧
    ∀ g seq, load line (fun _ => 0) (some (writeSnapshot line (deepNodes n) 0 64 true 7)) ≠
      .ok (g, seq) := by
  have hlisted : Listed line (deepNodes n) (some 0) 64 := deepNodes_listed (by omega) (by omega)
  have hcount : (deepNodes n).length ≤ 2 ^ 32 := by
    simp [deepNodes]
    omega
  refine ⟨hlisted, hcount, ?_⟩
  obtain ⟨-, ⟨hapart, -⟩ | ⟨-, hload⟩⟩ :=
    hlisted.load_cases _ (by decide) (by decide) (by decide) hcount 7
  · exact absurd hapart (deepNodes_not_apart hn)
  · exact hload

/-- The list that names the first node is the `2 ^ 32`nd: its stamp is the mark of the nodes that
no list has named. -/
theorem stamps_wrap_in_the_restore :
    Listed line (deepNodes 66076419) (some 0) 64 ∧ (deepNodes 66076419).length ≤ 2 ^ 32 ∧
    ∀ g seq, load line (fun _ => 0)
      (some (writeSnapshot line (deepNodes 66076419) 0 64 true 7)) ≠ .ok (g, seq) :=
  deepNodes_refused (by norm_num)

end NuclaDB.Segment
