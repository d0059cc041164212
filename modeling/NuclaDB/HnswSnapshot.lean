import NuclaDB.HnswRun
import NuclaDB.StampedMarks

/-!
# The exported state of a graph, and restoring it

`snapshot` names neighbors by id. A restore puts every id in its slot first and then takes
the nodes one by one; a mark for each slot catches an id that comes twice in one list.
-/

namespace NuclaDB.Hnsw
open StampedMarks Std List

structure NodeState where
  id : UInt64
  vector : Vec
  level : ℕ
  neighbors : List (List UInt64)
  deleted : Bool
deriving DecidableEq, Repr

abbrev Slots := ExtTreeMap UInt64 ℕ compare

section Operations
variable {D : Type} [Dist D]

namespace Graph

def idAt (g : Graph D) (slot : ℕ) : UInt64 := (g.nodes.getD slot default).id

def nodeState (g : Graph D) (slot : ℕ) (nd : Node) : NodeState :=
  { id := nd.id
    vector := g.vec slot
    level := nd.level
    neighbors := (range nd.neighbors.length).map fun l => (g.links slot l).map g.idAt
    deleted := g.isDead slot }

def snapshot (g : Graph D) : List NodeState × UInt64 × ℕ × Bool :=
  (g.nodes.mapIdx g.nodeState, if g.hasEntry then g.idAt g.entryPoint else 0, g.maxLevel, g.hasEntry)

end Graph

structure Restore (D : Type) where
  graph : Graph D
  mark : List UInt32
  stamp : UInt32

def addSlots (slots : Slots) (i : ℕ) : List UInt64 → Option Slots
  | [] => some slots
  | id :: rest => if slots.contains id then none else addSlots (slots.insert id i) (i + 1) rest

def Graph.beginRestore (g : Graph D) (ids : List UInt64) : Option (Restore D) :=
  (addSlots g.slots 0 ids).map fun slots =>
    ⟨{ g with slots := slots }, replicate ids.length 0, 0⟩

/-- The slots of one layer's neighbors; an id that is unknown, the node's own or marked fails. -/
def restoreLayer (slots : Slots) (slot : ℕ) (stamp : UInt32) :
    List UInt64 → List UInt32 → Option (List ℕ × List UInt32)
  | [], mark => some ([], mark)
  | id :: rest, mark => do
    let s ← slots[id]?
    if s = slot ∨ mark.getD s 0 = stamp then none
    else
      let (out, mark) ← restoreLayer slots slot stamp rest (mark.set s stamp)
      return (s :: out, mark)

def restoreLayers (slots : Slots) (slot : ℕ) :
    List (List UInt64) → List UInt32 → UInt32 → Option (List (List ℕ) × List UInt32 × UInt32)
  | [], mark, stamp => some ([], mark, stamp)
  | ids :: rest, mark, stamp => do
    let (out, mark) ← restoreLayer slots slot (stamp + 1) ids mark
    let (outs, mark, stamp) ← restoreLayers slots slot rest mark (stamp + 1)
    return (out :: outs, mark, stamp)

def Graph.appendNode (g : Graph D) (ns : NodeState) (lists : List (List ℕ)) : Graph D :=
  { g with
    nodes := g.nodes ++ [⟨ns.id, ns.level, lists.set 0 []⟩]
    data := g.data ++ [g.prep ns.vector]
    dead := g.dead ++ [ns.deleted]
    links0 := g.links0 ++ [(lists.getD 0 []).take (2 * g.cfg.m)]
    live := if ns.deleted then g.live else g.live + 1 }

namespace Restore

def restoreNode (r : Restore D) (ns : NodeState) : Option (Restore D) :=
  let slot := r.graph.nodes.length
  if r.graph.slots[ns.id]? ≠ some slot ∨ ns.neighbors.length ≠ ns.level + 1 ∨
      ns.vector.length ≠ r.graph.cfg.dim then none
  else do
    let (lists, mark, stamp) ← restoreLayers r.graph.slots slot ns.neighbors r.mark r.stamp
    return ⟨r.graph.appendNode ns lists, mark, stamp⟩

def endRestore (r : Restore D) (entryPoint : UInt64) (maxLevel : ℕ) (hasEntry : Bool) :
    Option (Graph D) :=
  if r.graph.nodes.length ≠ r.graph.slots.size then none
  else if hasEntry then do
    let slot ← r.graph.slots[entryPoint]?
    return { r.graph with entryPoint := slot, maxLevel := maxLevel, hasEntry := true }
  else some { r.graph with maxLevel := maxLevel, hasEntry := false }

end Restore

end Operations

section Slots

theorem addSlots_spec {slots : Slots} {i : ℕ} {ids : List UInt64} (hnodup : ids.Nodup)
    (hnew : ∀ id ∈ ids, slots[id]? = none) :
    ∃ slots', addSlots slots i ids = some slots' ∧ slots'.size = slots.size + ids.length ∧
      ∀ id s, slots'[id]? = some s ↔ slots[id]? = some s ∨ ∃ k, ids[k]? = some id ∧ s = i + k := by
  induction ids generalizing slots i with
  | nil => exact ⟨slots, rfl, rfl, fun id s => by simp⟩
  | cons id rest ih =>
    obtain ⟨hid, hrest⟩ := nodup_cons.mp hnodup
    obtain ⟨hnone, hnones⟩ := forall_mem_cons.mp hnew
    have hcontains : slots.contains id = false := by
      rw [ExtTreeMap.contains_eq_isSome_getElem?, hnone]
      rfl
    have hins : ∀ id', (slots.insert id i)[id']? = if id = id' then some i else slots[id']? := by
      simp only [ExtTreeMap.getElem?_insert, LawfulEqCmp.compare_eq_iff_eq, implies_true]
    have hnews : ∀ id' ∈ rest, (slots.insert id i)[id']? = none := fun id' hid' => by
      have hne : id ≠ id' := fun h => hid (h ▸ hid')
      rw [hins, if_neg hne, hnones id' hid']
    obtain ⟨slots', heq, hsize, hget⟩ := ih (i := i + 1) hrest hnews
    refine ⟨slots', by simp [addSlots, hcontains, heq], ?_, fun id' s => ?_⟩
    · rw [hsize, ExtTreeMap.size_insert, hcontains]
      simp only [Bool.false_eq_true, if_false, length_cons]
      omega
    · rw [hget, hins]
      constructor
      · rintro (h | ⟨k, hk, rfl⟩)
        · split at h
          · next heq => exact .inr ⟨0, by simp [heq], by simpa using h.symm⟩
          · exact .inl h
        · exact .inr ⟨k + 1, by simpa using hk, by omega⟩
      · rintro (h | ⟨k, hk, rfl⟩)
        · have hne : id ≠ id' := fun heq => by simp [← heq, hnone] at h
          rw [if_neg hne]
          exact .inl h
        · cases k with
          | zero => exact .inl (by simp_all)
          | succ k => exact .inr ⟨k, by simpa using hk, by omega⟩

end Slots

section Layers
variable {slots : Slots} {slot n : ℕ} {idAt : ℕ → UInt64}

structure Known (slots : Slots) (slot n : ℕ) (idAt : ℕ → UInt64) (out : List ℕ) : Prop where
  nodup : out.Nodup
  ne : slot ∉ out
  lt : ∀ s ∈ out, s < n
  found : ∀ s ∈ out, slots[idAt s]? = some s

theorem Known.restoreLayer_eq {out : List ℕ} (hk : Known slots slot n idAt out)
    {stamp : UInt32} {mark : List UInt32} (hlen : mark.length = n) :
    restoreLayer slots slot stamp (out.map idAt) mark =
      if ∀ s ∈ out, mark.getD s 0 ≠ stamp then some (out, stampAll stamp out mark) else none := by
  induction out generalizing mark with
  | nil => simp [restoreLayer, stampAll]
  | cons s out ih =>
    obtain ⟨hs, hout⟩ := nodup_cons.mp hk.nodup
    obtain ⟨hlt, hlts⟩ := forall_mem_cons.mp hk.lt
    obtain ⟨hfound, hfounds⟩ := forall_mem_cons.mp hk.found
    obtain ⟨hne, hnes⟩ : slot ≠ s ∧ slot ∉ out := by simpa using hk.ne
    simp only [map_cons, restoreLayer, hfound, Option.bind_eq_bind, Option.bind_some, forall_mem_cons]
    by_cases hfirst : mark.getD s 0 = stamp
    · rw [if_pos (.inr hfirst), if_neg fun h => h.1 hfirst]
    · have hother : (∀ x ∈ out, (mark.set s stamp).getD x 0 ≠ stamp) ↔
          ∀ x ∈ out, mark.getD x 0 ≠ stamp := by
        refine forall₂_congr fun x hx => ?_
        have hxs : s ≠ x := fun h => hs (h ▸ hx)
        simp [getElem?_set_ne hxs]
      have hlen' : (mark.set s stamp).length = n := by rw [length_set, hlen]
      have hrest := ih ⟨hout, hnes, hlts, hfounds⟩ hlen'
      rw [if_neg (not_or.mpr ⟨Ne.symm hne, hfirst⟩), hrest, if_congr hother rfl rfl]
      by_cases hall : ∀ x ∈ out, mark.getD x 0 ≠ stamp
      · rw [if_pos hall, if_pos ⟨hfirst, hall⟩]
        rfl
      · rw [if_neg hall, if_neg fun h => hall h.2]
        rfl

theorem restoreLayers_cases (hfound : ∀ s < n, slots[idAt s]? = some s) {lists : List (List ℕ)}
    (hk : ∀ out ∈ lists, Known slots slot n idAt out) {past : List (List UInt64)}
    {mark : List UInt32} {stamp : UInt32} (hm : Marked idAt n past mark stamp) :
    (Apart past (lists.map (·.map idAt)) ∧ ∃ mark' stamp',
      restoreLayers slots slot (lists.map (·.map idAt)) mark stamp = some (lists, mark', stamp') ∧
      Marked idAt n (past ++ lists.map (·.map idAt)) mark' stamp') ∨
    (¬Apart past (lists.map (·.map idAt)) ∧
      restoreLayers slots slot (lists.map (·.map idAt)) mark stamp = none) := by
  induction lists generalizing past mark stamp with
  | nil => exact .inl ⟨trivial, mark, stamp, rfl, by simpa using hm⟩
  | cons out lists ih =>
    obtain ⟨hout, hlists⟩ := forall_mem_cons.mp hk
    have hkey : ∀ s < n, ∀ t < n, idAt s = idAt t → s = t := fun s hs t ht heq =>
      Option.some.inj ((hfound s hs).symm.trans (heq ▸ hfound t ht))
    have hfresh : (∀ s ∈ out, mark.getD s 0 ≠ stamp + 1) ↔
        ∀ id ∈ out.map idAt, ¬2 ^ 32 ∣ gap past id := by
      rw [forall_mem_map]
      exact forall₂_congr fun s hs => not_congr (hm.mark_eq_iff (hout.lt s hs))
    simp only [map_cons, restoreLayers, Apart, hout.restoreLayer_eq hm.length]
    by_cases hnew : ∀ s ∈ out, mark.getD s 0 ≠ stamp + 1
    · rw [if_pos hnew, and_iff_right (hfresh.mp hnew)]
      rcases ih hlists (hm.next hkey hout.lt) with ⟨hapart, mark', stamp', heq, hm'⟩ | ⟨hnot, heq⟩
      · refine .inl ⟨hapart, mark', stamp', ?_, by simpa using hm'⟩
        simp only [heq, Option.bind_eq_bind, Option.bind_some]
        rfl
      · refine .inr ⟨hnot, ?_⟩
        simp only [heq, Option.bind_eq_bind, Option.bind_some, Option.bind_none]
    · rw [if_neg hnew]
      exact .inr ⟨fun h => hnew (hfresh.mpr h.1), rfl⟩

end Layers

namespace Graph
variable {D : Type} [Dist D] {g base : Graph D} {k : ℕ} {nd : Node}

def Leveled (g : Graph D) : Prop := ∀ nd ∈ g.nodes, nd.neighbors.length = nd.level + 1

def listCount (g : Graph D) : ℕ := (g.nodes.map (·.neighbors.length)).sum

def part (g base : Graph D) (k : ℕ) : Graph D :=
  { base with
    slots := g.slots
    nodes := g.nodes.take k
    data := g.data.take k
    dead := g.dead.take k
    links0 := g.links0.take k
    live := (g.dead.take k).count false }

structure Restoring (g base : Graph D) (k : ℕ) (r : Restore D) : Prop where
  graph : r.graph = g.part base k
  marked : Marked g.idAt g.nodes.length ((g.snapshot.1.take k).flatMap (·.neighbors)) r.mark r.stamp

omit [Dist D] in
theorem Layered.lists_eq (hl : g.Layered) (hk : g.nodes[k]? = some nd) :
    ((List.range nd.neighbors.length).map (g.links k)).set 0 [] = nd.neighbors := by
  have hzero := (hl nd (List.mem_of_getElem? hk)).1
  apply ext_getElem?
  intro l
  by_cases hl0 : l = 0
  · subst hl0
    obtain ⟨hpos, hnil⟩ := List.getElem?_eq_some_iff.mp hzero
    simp [hpos, hnil]
  · rw [List.getElem?_set_ne (Ne.symm hl0), List.getElem?_map]
    by_cases hlt : l < nd.neighbors.length
    · simp [links, hl0, hlt, hk]
    · simp [hlt]

omit [Dist D] in
theorem WF.known_links (hw : g.WF) (l : ℕ) : Known g.slots k g.nodes.length g.idAt (g.links k l) := by
  have hlist := hw.shape.linked.list k l
  exact ⟨hlist.nodup, hlist.ne, hlist.lt, fun s hs =>
    hw.shape.slotted.slot_iff.mpr ⟨hlist.lt s hs, rfl⟩⟩

theorem WF.appendNode_part (hw : g.WF) (hcfg : base.cfg = g.cfg) (hunit : base.unit = false)
    (hk : g.nodes[k]? = some nd) :
    (g.part base k).appendNode (g.nodeState k nd) ((List.range nd.neighbors.length).map (g.links k)) =
      g.part base (k + 1) := by
  have hlt := (List.getElem?_eq_some_iff.mp hk).1
  have hpos : 0 < nd.neighbors.length :=
    Nat.zero_lt_of_lt (hw.shape.layered nd (List.mem_of_getElem? hk)).2.1
  have hdata : g.data[k]? = some (g.vec k) := by
    have := hw.shape.slotted.data_length ▸ hlt
    simp [vec, this]
  have hdead : g.dead[k]? = some (g.isDead k) := by
    have := hw.shape.slotted.dead_length ▸ hlt
    simp [isDead, this]
  have hlinks : g.links0[k]? = some ((((List.range nd.neighbors.length).map (g.links k)).getD 0
      []).take (2 * g.cfg.m)) := by
    have hlen : k < g.links0.length := hw.shape.linked.links0_length ▸ hlt
    have hroom : (g.links k 0).length ≤ 2 * g.cfg.m := (hw.shape.linked.list k 0).length_le rfl
    have hfirst : ((List.range nd.neighbors.length).map (g.links k)).getD 0 [] = g.links k 0 := by
      simp [hpos]
    rw [hfirst, take_of_length_le hroom]
    simp [links, hlen]
  simp only [appendNode, part, nodeState, hw.shape.layered.lists_eq hk, take_add_one, hk, hdata,
    hdead, hlinks, Option.toList_some, hcfg, prep, hunit, Bool.false_eq_true, if_false,
    count_append]
  cases g.isDead k <;> simp

theorem Restoring.next {r : Restore D} (hr : Restoring g base k r) (hw : g.WF) (hlev : g.Leveled)
    (hcfg : base.cfg = g.cfg) (hunit : base.unit = false) (hk : g.nodes[k]? = some nd) :
    (Apart ((g.snapshot.1.take k).flatMap (·.neighbors)) (g.nodeState k nd).neighbors ∧
      ∃ r', r.restoreNode (g.nodeState k nd) = some r' ∧ Restoring g base (k + 1) r') ∨
    (¬Apart ((g.snapshot.1.take k).flatMap (·.neighbors)) (g.nodeState k nd).neighbors ∧
      r.restoreNode (g.nodeState k nd) = none) := by
  have hlt := (List.getElem?_eq_some_iff.mp hk).1
  have hslot : r.graph.nodes.length = k := by simp [hr.graph, part, hlt.le]
  have hslots : r.graph.slots = g.slots := by rw [hr.graph]; rfl
  have hid : g.slots[nd.id]? = some k := hw.shape.slotted.slot_iff.mpr ⟨hlt, by simp [hk]⟩
  have hvec : (g.vec k).length = r.graph.cfg.dim := by
    have hmem : k < g.data.length := hw.shape.slotted.data_length ▸ hlt
    have := hw.shape.slotted.dims _ (getElem_mem hmem)
    simpa [hr.graph, part, hcfg, vec, hmem] using this
  have hnum : (g.nodeState k nd).neighbors.length = (g.nodeState k nd).level + 1 := by
    simpa [nodeState] using hlev nd (List.mem_of_getElem? hk)
  have hknown : ∀ out ∈ (List.range nd.neighbors.length).map (g.links k),
      Known g.slots k g.nodes.length g.idAt out := fun out hout => by
    obtain ⟨l, -, rfl⟩ := mem_map.mp hout
    exact hw.known_links l
  have hlists : (g.nodeState k nd).neighbors =
      ((List.range nd.neighbors.length).map (g.links k)).map (·.map g.idAt) := by
    simp [nodeState]
  have hpast : (g.snapshot.1.take (k + 1)).flatMap (·.neighbors) =
      (g.snapshot.1.take k).flatMap (·.neighbors) ++ (g.nodeState k nd).neighbors := by
    simp [take_add_one, snapshot, hk]
  have hfound : ∀ s < g.nodes.length, g.slots[g.idAt s]? = some s := fun s hs =>
    hw.shape.slotted.slot_iff.mpr ⟨hs, rfl⟩
  have hnode : r.restoreNode (g.nodeState k nd) =
      (restoreLayers g.slots k (g.nodeState k nd).neighbors r.mark r.stamp).map fun l =>
        ⟨r.graph.appendNode (g.nodeState k nd) l.1, l.2.1, l.2.2⟩ := by
    simp only [Restore.restoreNode, hslot, hslots]
    rw [if_neg (by simpa [hid, hnum, hvec, nodeState] using hnum)]
    cases restoreLayers g.slots k (g.nodeState k nd).neighbors r.mark r.stamp <;> rfl
  rw [hnode, hlists]
  rcases restoreLayers_cases hfound hknown hr.marked with
    ⟨hapart, mark, stamp, heq, hm⟩ | ⟨hnot, heq⟩
  · refine .inl ⟨hapart, ⟨g.part base (k + 1), mark, stamp⟩, ?_, rfl, ?_⟩
    · rw [heq, Option.map_some, hr.graph, hw.appendNode_part hcfg hunit hk]
    · rw [hpast, hlists]
      exact hm
  · exact .inr ⟨hnot, by rw [heq]; rfl⟩

theorem Restoring.all (hw : g.WF) (hlev : g.Leveled) (hcfg : base.cfg = g.cfg)
    (hunit : base.unit = false) {r : Restore D} {m : ℕ}
    (hm : g.nodes.length = k + m) (hr : Restoring g base k r) :
    (Apart ((g.snapshot.1.take k).flatMap (·.neighbors)) ((g.snapshot.1.drop k).flatMap (·.neighbors)) ∧
      ∃ r', (g.snapshot.1.drop k).foldlM Restore.restoreNode r = some r' ∧
        Restoring g base g.nodes.length r') ∨
    (¬Apart ((g.snapshot.1.take k).flatMap (·.neighbors)) ((g.snapshot.1.drop k).flatMap (·.neighbors)) ∧
      (g.snapshot.1.drop k).foldlM Restore.restoreNode r = none) := by
  induction m generalizing k r with
  | zero =>
    rw [drop_of_length_le (by simp [snapshot]; omega)]
    exact .inl ⟨trivial, r, rfl, hm ▸ hr⟩
  | succ m ih =>
    have hlt : k < g.nodes.length := by omega
    have hdrop : g.snapshot.1.drop k = g.nodeState k g.nodes[k] :: g.snapshot.1.drop (k + 1) := by
      rw [drop_eq_getElem_cons (by simpa [snapshot] using hlt)]
      simp [snapshot]
    have htake : (g.snapshot.1.take (k + 1)).flatMap (·.neighbors) =
        (g.snapshot.1.take k).flatMap (·.neighbors) ++ (g.nodeState k g.nodes[k]).neighbors := by
      simp [take_add_one, snapshot, hlt]
    rw [hdrop, flatMap_cons, apart_append, foldlM_cons, ← htake]
    rcases hr.next hw hlev hcfg hunit (getElem?_eq_getElem hlt) with
      ⟨hapart, r₁, hstep, hr₁⟩ | ⟨hnot, hstep⟩
    · rw [hstep, and_iff_right hapart]
      exact ih (by omega) hr₁
    · rw [hstep]
      exact .inr ⟨fun h => hnot h.1, rfl⟩

omit [Dist D] in
theorem WF.addSlots_eq (hw : g.WF) :
    addSlots ∅ 0 (g.nodes.map (·.id)) = some g.slots ∧ g.slots.size = g.nodes.length := by
  have hg := hw.shape.slotted
  have hnodup : (g.nodes.map (·.id)).Nodup := by
    rw [nodup_iff_getElem?_ne_getElem?]
    intro i j hij hj heq
    have hi := (hg.slots_iff _ i).mpr (heq.trans (getElem?_eq_getElem hj))
    have hj' := (hg.slots_iff _ j).mpr (getElem?_eq_getElem hj)
    have := Option.some.inj (hi.symm.trans hj')
    omega
  obtain ⟨slots, heq, hsize, hget⟩ := addSlots_spec (i := 0) hnodup fun id _ =>
    (ExtTreeMap.getElem?_empty : (∅ : Slots)[id]? = none)
  have hslots : slots = g.slots := by
    apply ExtTreeMap.ext_getElem?
    intro id
    apply Option.ext
    intro s
    rw [hget, hg.slots_iff]
    simp
  subst hslots
  exact ⟨heq, by simpa using hsize⟩

theorem WF.part_all (hw : g.WF) {cfg : Config D} {rng : ℕ → ℕ}
    (hset : (new cfg rng).settings = g.settings) : g.part (new cfg rng) g.nodes.length =
      { g with rng := rng, entryPoint := 0, hasEntry := false, maxLevel := 0 } := by
  have hcfg : (new cfg rng).cfg = g.cfg := congrArg (·.1) hset
  have hunit : (new cfg rng).unit = g.unit := congrArg (·.2.1) hset
  have hdist : (new cfg rng).dist = g.dist := congrArg (·.2.2) hset
  have hdata : g.data.take g.nodes.length = g.data := by
    rw [← hw.shape.slotted.data_length, take_length]
  have hdead : g.dead.take g.nodes.length = g.dead := by
    rw [← hw.shape.slotted.dead_length, take_length]
  have hlinks : g.links0.take g.nodes.length = g.links0 := by
    rw [← hw.shape.linked.links0_length, take_length]
  simp only [part, take_length, hdata, hdead, hlinks, ← hw.live_eq, hcfg, hunit, hdist]
  rfl

def reseed (g : Graph D) (rng : ℕ → ℕ) : Graph D := { g with rng := rng }

theorem WF.restore_snapshot (hw : g.WF) (hlev : g.Leveled) {cfg : Config D} {rng : ℕ → ℕ}
    (hset : (new cfg rng).settings = g.settings) (hunit : g.unit = false)
    (hentry : g.nodes = [] → g.entryPoint = 0) :
    ∃ r, (new cfg rng).beginRestore (g.nodes.map (·.id)) = some r ∧
      ((Apart [] (g.snapshot.1.flatMap (·.neighbors)) ∧
        ∃ r', g.snapshot.1.foldlM Restore.restoreNode r = some r' ∧
          r'.endRestore g.snapshot.2.1 g.snapshot.2.2.1 g.snapshot.2.2.2 = some (g.reseed rng)) ∨
      (¬Apart [] (g.snapshot.1.flatMap (·.neighbors)) ∧
        g.snapshot.1.foldlM Restore.restoreNode r = none)) := by
  have hcfg : (new cfg rng).cfg = g.cfg := congrArg (·.1) hset
  have hunit' : (new cfg rng).unit = g.unit := congrArg (·.2.1) hset
  obtain ⟨hadd, hsize⟩ := hw.addSlots_eq
  have hbegin : (new cfg rng).beginRestore (g.nodes.map (·.id)) =
      some ⟨{ new cfg rng with slots := g.slots }, replicate g.nodes.length 0, 0⟩ := by
    rw [beginRestore, show (new cfg rng).slots = ∅ from rfl, hadd]
    simp
  have hstart : Restoring g (new cfg rng) 0
      ⟨{ new cfg rng with slots := g.slots }, replicate g.nodes.length 0, 0⟩ :=
    ⟨by simp [part, new], marked_start _ _⟩
  refine ⟨_, hbegin, ?_⟩
  rcases Restoring.all hw hlev hcfg (hunit'.trans hunit) (Nat.zero_add _).symm hstart with
    ⟨hapart, r', hall, hr'⟩ | hnone
  · refine .inl ⟨hapart, r', hall, ?_⟩
    have hlen : ¬ (g.nodes.length ≠ g.slots.size) := not_not.mpr hsize.symm
    simp only [Restore.endRestore, hr'.graph, hw.part_all hset, snapshot, if_neg hlen, reseed]
    cases hhas : g.hasEntry with
    | true =>
      have hslot : g.slots[g.idAt g.entryPoint]? = some g.entryPoint :=
        hw.shape.slotted.slot_iff.mpr ⟨hw.entry_lt (hw.hasEntry_iff.mp hhas), rfl⟩
      simp only [if_true, hslot, Option.bind_eq_bind, Option.bind_some, ← hhas]
      rfl
    | false =>
      have hnil : g.nodes = [] := by
        by_contra hne
        simp [hw.hasEntry_iff.mpr hne] at hhas
      simp [hentry hnil]
  · exact .inr hnone

omit [Dist D] in
theorem length_snapshot_lists (g : Graph D) :
    (g.snapshot.1.flatMap (·.neighbors)).length = g.listCount := by
  have hmap : g.snapshot.1.map (·.neighbors.length) = g.nodes.map (·.neighbors.length) := by
    apply ext_getElem?
    intro k
    simp [snapshot, nodeState, Function.comp_def]
  rw [length_flatMap, hmap, listCount]

end Graph

section Restored
variable {D : Type} [Dist D]

theorem restoreLayers_length {slots : Slots} {slot : ℕ} {ids : List (List UInt64)}
    {mark mark' : List UInt32} {stamp stamp' : UInt32} {lists : List (List ℕ)}
    (h : restoreLayers slots slot ids mark stamp = some (lists, mark', stamp')) :
    lists.length = ids.length := by
  induction ids generalizing lists mark stamp mark' stamp' with
  | nil =>
    simp only [restoreLayers, Option.some.injEq, Prod.mk.injEq] at h
    simp [← h.1]
  | cons id ids ih =>
    simp only [restoreLayers, Option.bind_eq_bind, Option.bind_eq_some_iff] at h
    obtain ⟨⟨out, mark₁⟩, -, ⟨outs, mark₂, stamp₂⟩, hrest, heq⟩ := h
    simp only [pure, Option.some.injEq, Prod.mk.injEq] at heq
    simp [← heq.1, ih hrest]

namespace Restore
variable {r r' : Restore D} {ns : NodeState}

theorem restoreNode_eq_some : r.restoreNode ns = some r' ↔
    r.graph.slots[ns.id]? = some r.graph.nodes.length ∧ ns.neighbors.length = ns.level + 1 ∧
    ns.vector.length = r.graph.cfg.dim ∧ ∃ lists mark stamp,
      restoreLayers r.graph.slots r.graph.nodes.length ns.neighbors r.mark r.stamp =
        some (lists, mark, stamp) ∧ r' = ⟨r.graph.appendNode ns lists, mark, stamp⟩ := by
  simp only [restoreNode, Option.bind_eq_bind]
  split
  · next hbad =>
    constructor
    · exact fun h => absurd h (by simp)
    · exact fun ⟨hslot, hlists, hdim, _⟩ =>
        absurd hbad (by simp only [hslot, hlists, hdim, ne_eq, not_true, or_self, not_false_iff])
  · next hok =>
    simp only [not_or, not_not] at hok
    simp only [hok.1, hok.2.1, hok.2.2, true_and, Option.bind_eq_some_iff, Prod.exists, pure,
      Option.some.injEq, @eq_comm _ r']

theorem restoreNode_settings (h : r.restoreNode ns = some r') :
    r'.graph.settings = r.graph.settings := by
  obtain ⟨-, -, -, lists, mark, stamp, -, rfl⟩ := restoreNode_eq_some.mp h
  rfl

omit [Dist D] in
theorem endRestore_tables {g : Graph D} {entryPoint : UInt64} {maxLevel : ℕ} {hasEntry : Bool}
    (h : r.endRestore entryPoint maxLevel hasEntry = some g) :
    g.nodes = r.graph.nodes ∧ g.settings = r.graph.settings := by
  simp only [endRestore] at h
  split at h
  · exact absurd h (by simp)
  · split at h
    · simp only [Option.bind_eq_bind, Option.bind_eq_some_iff, pure, Option.some.injEq] at h
      obtain ⟨slot, -, rfl⟩ := h
      exact ⟨rfl, rfl⟩
    · simp only [Option.some.injEq] at h
      exact h ▸ ⟨rfl, rfl⟩

end Restore

end Restored

end NuclaDB.Hnsw
