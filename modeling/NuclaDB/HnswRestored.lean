import NuclaDB.HnswSnapshot

/-!
# What a restore accepts

A restore trusts the lists it is given, but it looks up every id in them, refuses a node that
names itself and marks what a list has named.
-/

namespace NuclaDB.Hnsw

open List Option

section Lists
variable {slots : Slots} {slot : ℕ}

structure Resolved (slots : Slots) (slot : ℕ) (out : List ℕ) : Prop where
  nodup : out.Nodup
  ne : slot ∉ out
  known : ∀ s ∈ out, ∃ id : UInt64, slots[id]? = some s

theorem Resolved.nil : Resolved slots slot [] := ⟨nodup_nil, by simp, by simp⟩

theorem Resolved.take {out : List ℕ} (h : Resolved slots slot out) (n : ℕ) :
    Resolved slots slot (out.take n) :=
  ⟨h.nodup.sublist (take_sublist n out), fun hmem => h.ne (mem_of_mem_take hmem),
    fun s hs => h.known s (mem_of_mem_take hs)⟩

theorem restoreLayer_resolved {stamp : UInt32} {ids : List UInt64} {mark mark' : List UInt32}
    {out : List ℕ} (hlt : ∀ (id : UInt64) s, slots[id]? = some s → s < mark.length)
    (h : restoreLayer slots slot stamp ids mark = some (out, mark')) :
    Resolved slots slot out ∧ (∀ s ∈ out, mark.getD s 0 ≠ stamp) ∧ mark'.length = mark.length := by
  induction ids generalizing mark out with
  | nil =>
    simp only [restoreLayer, some.injEq, Prod.mk.injEq] at h
    obtain ⟨rfl, rfl⟩ := h
    exact ⟨Resolved.nil, by simp, rfl⟩
  | cons id ids ih =>
    simp only [restoreLayer, bind_eq_bind, bind_eq_some_iff] at h
    obtain ⟨s, hs, h⟩ := h
    split at h
    · cases h
    · next hfresh =>
      obtain ⟨hne, hmark⟩ := not_or.mp hfresh
      obtain ⟨⟨rest, mark₁⟩, hrest, heq⟩ := bind_eq_some_iff.mp h
      simp only [pure, some.injEq, Prod.mk.injEq] at heq
      obtain ⟨rfl, rfl⟩ := heq
      have hlen : (mark.set s stamp).length = mark.length := length_set
      obtain ⟨hres, hold, hlen'⟩ := ih (fun id s h => hlen ▸ hlt id s h) hrest
      have hset : (mark.set s stamp).getD s 0 = stamp := by simp [hlt id s hs]
      refine ⟨⟨?_, ?_, ?_⟩, ?_, hlen'.trans hlen⟩
      · exact nodup_cons.mpr ⟨fun hmem => hold s hmem hset, hres.nodup⟩
      · exact fun hmem => (mem_cons.mp hmem).elim (fun heq => hne heq.symm) hres.ne
      · intro x hx
        rcases mem_cons.mp hx with rfl | hx
        · exact ⟨id, hs⟩
        · exact hres.known x hx
      · intro x hx
        rcases mem_cons.mp hx with rfl | hx
        · exact hmark
        · have hne' : s ≠ x := fun heq => hold x hx (heq ▸ hset)
          have hat := hold x hx
          simpa [getElem?_set_ne hne'] using hat

theorem restoreLayers_resolved {ids : List (List UInt64)} {mark mark' : List UInt32}
    {stamp stamp' : UInt32} {lists : List (List ℕ)}
    (hlt : ∀ (id : UInt64) s, slots[id]? = some s → s < mark.length)
    (h : restoreLayers slots slot ids mark stamp = some (lists, mark', stamp')) :
    (∀ out ∈ lists, Resolved slots slot out) ∧ mark'.length = mark.length := by
  induction ids generalizing lists mark stamp with
  | nil =>
    simp only [restoreLayers, some.injEq, Prod.mk.injEq] at h
    obtain ⟨rfl, rfl, -⟩ := h
    exact ⟨by simp, rfl⟩
  | cons id ids ih =>
    simp only [restoreLayers, bind_eq_bind, bind_eq_some_iff] at h
    obtain ⟨⟨out, mark₁⟩, hout, ⟨outs, mark₂, stamp₂⟩, hrest, heq⟩ := h
    simp only [pure, some.injEq, Prod.mk.injEq] at heq
    obtain ⟨rfl, rfl, rfl⟩ := heq
    obtain ⟨hres, -, hlen⟩ := restoreLayer_resolved hlt hout
    obtain ⟨hall, hlen'⟩ := ih (fun id s h => hlen ▸ hlt id s h) hrest
    exact ⟨forall_mem_cons.mpr ⟨hres, hall⟩, hlen'.trans hlen⟩

theorem addSlots_fresh {i : ℕ} {ids : List UInt64} {slots' : Slots}
    (h : addSlots slots i ids = some slots') :
    ids.Nodup ∧ ∀ id ∈ ids, slots[id]? = none := by
  induction ids generalizing slots i with
  | nil => exact ⟨nodup_nil, by simp⟩
  | cons id ids ih =>
    simp only [addSlots] at h
    split at h
    · cases h
    · next hnew =>
      obtain ⟨hnodup, hrest⟩ := ih h
      have hnone : slots[id]? = none := by
        rw [Std.ExtTreeMap.contains_eq_isSome_getElem?] at hnew
        simpa using hnew
      have hlater : ∀ x ∈ ids, id ≠ x ∧ slots[x]? = none := by
        intro x hx
        have hat := hrest x hx
        rw [Std.ExtTreeMap.getElem?_insert] at hat
        split at hat
        · cases hat
        · next hne => exact ⟨fun heq => hne (by simp [heq]), hat⟩
      refine ⟨nodup_cons.mpr ⟨fun hmem => (hlater id hmem).1 rfl, hnodup⟩, fun x hx => ?_⟩
      rcases mem_cons.mp hx with rfl | hx
      · exact hnone
      · exact (hlater x hx).2

end Lists

namespace Restore
variable {D : Type} [Dist D] {ids : List UInt64} {r r' : Restore D}

structure Sound (ids : List UInt64) (r : Restore D) : Prop where
  slots_iff (id : UInt64) (s : ℕ) : r.graph.slots[id]? = some s ↔ ids[s]? = some id
  slots_size : r.graph.slots.size = ids.length
  mark_length : r.mark.length = ids.length
  nodes_ids : ∀ k < r.graph.nodes.length, (r.graph.nodes.map (·.id))[k]? = ids[k]?
  nodes_le : r.graph.nodes.length ≤ ids.length
  data_length : r.graph.data.length = r.graph.nodes.length
  dead_length : r.graph.dead.length = r.graph.nodes.length
  links0_length : r.graph.links0.length = r.graph.nodes.length
  dims : ∀ v ∈ r.graph.data, v.length = r.graph.cfg.dim
  level_le : ∀ k ∈ r.graph.nodes.map (·.level), k ≤ 64
  layered : r.graph.Layered
  list (slot l : ℕ) : Resolved r.graph.slots slot (r.graph.links slot l)
  list0 (slot : ℕ) : (r.graph.links slot 0).length ≤ 2 * r.graph.cfg.m
  live_eq : r.graph.live = r.graph.dead.count false
  m_ge : 2 ≤ r.graph.cfg.m
  ef_ge : 1 ≤ r.graph.cfg.efConstruction

theorem sound_begin {cfg : Config D} {rng : ℕ → ℕ}
    (h : (new cfg rng).beginRestore ids = some r) : r.Sound ids := by
  obtain ⟨slots, hslots, rfl⟩ := map_eq_some_iff.mp h
  obtain ⟨hnodup, hnew⟩ := addSlots_fresh hslots
  obtain ⟨slots', heq, hsize, hget⟩ := addSlots_spec (i := 0) hnodup hnew
  obtain rfl : slots = slots' := some.inj (hslots.symm.trans heq)
  have hempty : ∀ id : UInt64, (new cfg rng).slots[id]? = none :=
    fun _ => Std.ExtTreeMap.getElem?_empty
  have hzero : (new cfg rng).slots.size = 0 := Std.ExtTreeMap.size_empty
  have hm : 2 ≤ (new cfg rng).cfg.m := (Graph.new_wf cfg rng).shape.m_ge
  have hef : 1 ≤ (new cfg rng).cfg.efConstruction := (Graph.new_wf cfg rng).shape.ef_ge
  refine ⟨fun id s => ?_, by rw [hsize, hzero, Nat.zero_add], by simp, by simp [new], by simp [new],
    rfl, rfl, rfl, by simp [new], by simp [new], by simp [Graph.Layered, new], fun slot l => ?_,
    fun slot => by simp [Graph.links, new], rfl, hm, hef⟩
  · rw [hget, hempty]
    simp
  · have hnil : (new cfg rng).links slot l = [] := Graph.links_eq_nil rfl (Nat.zero_le slot) l
    exact hnil ▸ Resolved.nil

theorem links_appendNode {g : Graph D} (hlen : g.links0.length = g.nodes.length)
    (ns : NodeState) (lists : List (List ℕ)) (s k : ℕ) :
    (g.appendNode ns lists).links s k = if s = g.nodes.length then
        if k = 0 then (lists.getD 0 []).take (2 * g.cfg.m) else lists.getD k []
      else g.links s k := by
  simp only [Graph.links, Graph.appendNode, getD_eq_getElem?_getD, getElem?_append]
  grind

theorem Sound.restoreNode (hr : r.Sound ids) {ns : NodeState} (hlevel : ns.level ≤ 64)
    (h : r.restoreNode ns = some r') : r'.Sound ids := by
  obtain ⟨hslot, hlayers, hdim, lists, mark, stamp, hlists, rfl⟩ := restoreNode_eq_some.mp h
  have hlt : ∀ (id : UInt64) s, r.graph.slots[id]? = some s → s < r.mark.length := by
    intro id s hs
    have hat := (hr.slots_iff id s).mp hs
    rw [hr.mark_length]
    exact (List.getElem?_eq_some_iff.mp hat).1
  obtain ⟨hres, hmark⟩ := restoreLayers_resolved hlt hlists
  have hid := (hr.slots_iff _ _).mp hslot
  have hroom := (List.getElem?_eq_some_iff.mp hid).1
  have hnum := restoreLayers_length hlists
  refine ⟨hr.slots_iff, hr.slots_size, hmark.trans hr.mark_length, ?_, ?_, ?_, ?_, ?_, ?_, ?_, ?_,
    ?_, ?_, ?_, hr.m_ge, hr.ef_ge⟩
  · intro k hk
    simp only [Graph.appendNode, length_append, length_singleton] at hk
    by_cases hlast : k = r.graph.nodes.length
    · rw [hlast, hid]
      simp [Graph.appendNode]
    · have hold := hr.nodes_ids k (by omega)
      simp only [Graph.appendNode, map_append]
      rw [getElem?_append_left (by rw [length_map]; omega), hold]
  · simp only [Graph.appendNode, length_append, length_singleton]
    omega
  · simp [Graph.appendNode, hr.data_length]
  · simp [Graph.appendNode, hr.dead_length]
  · simp [Graph.appendNode, hr.links0_length]
  · intro v hv
    rcases mem_append.mp hv with hv | hv
    · exact hr.dims v hv
    · rw [mem_singleton.mp hv, Graph.prep_length, hdim]
      rfl
  · intro k hk
    simp only [Graph.appendNode, map_append, mem_append, map_cons, map_nil, mem_singleton] at hk
    exact hk.elim (hr.level_le k) fun heq => heq ▸ hlevel
  · intro nd hnd
    rcases mem_append.mp hnd with hnd | hnd
    · exact hr.layered nd hnd
    · rw [mem_singleton.mp hnd]
      have hlen : (lists.set 0 []).length = ns.level + 1 := by
        rw [length_set, hnum, hlayers]
      refine ⟨?_, by simp only [hlen]; omega, by simp only [hlen]; omega⟩
      rw [getElem?_set_self (by omega)]
  · intro slot l
    rw [links_appendNode hr.links0_length]
    have hat : ∀ k, Resolved r.graph.slots r.graph.nodes.length (lists.getD k []) := by
      intro k
      rw [getD_eq_getElem?_getD]
      cases hk : lists[k]? with
      | none => exact Resolved.nil
      | some out => exact hres out (mem_of_getElem? hk)
    split
    · next heq =>
      rw [heq]
      split
      · exact (hat 0).take _
      · exact hat l
    · exact hr.list slot l
  · intro slot
    rw [links_appendNode hr.links0_length]
    split
    · rw [if_pos rfl, length_take]
      exact Nat.min_le_left ..
    · exact hr.list0 slot
  · simp only [Graph.appendNode, count_append, ← hr.live_eq]
    cases ns.deleted <;> simp

omit [Dist D] in
theorem Sound.endRestore (hr : r.Sound ids) {entryPoint : UInt64} {maxLevel : ℕ} {hasEntry : Bool}
    (hlevel : maxLevel ≤ 64) (hentry : hasEntry = decide (0 < ids.length)) {g : Graph D}
    (h : r.endRestore entryPoint maxLevel hasEntry = some g) : g.WF := by
  simp only [Restore.endRestore] at h
  split at h
  · cases h
  · next hall =>
    have hlen : r.graph.nodes.length = ids.length := by
      rw [not_not.mp hall, hr.slots_size]
    have hslotted : r.graph.Slotted := by
      refine ⟨hr.data_length, hr.dead_length, fun id s => ?_, hr.dims, hr.level_le⟩
      rw [hr.slots_iff]
      by_cases hs : s < r.graph.nodes.length
      · rw [hr.nodes_ids s hs]
      · rw [getElem?_eq_none (by omega), getElem?_eq_none (by rw [length_map]; omega)]
    have hlinked : r.graph.Linked := by
      refine ⟨hr.links0_length, fun slot l => ?_⟩
      have hres := hr.list slot l
      refine ⟨hres.nodup, hres.ne, fun y hy => ?_, fun hl => hl ▸ hr.list0 slot⟩
      obtain ⟨id, hid⟩ := hres.known y hy
      exact hslotted.lt_of_slot hid
    have hshape : r.graph.Shape := ⟨hslotted, hr.layered, hlinked, hr.m_ge, hr.ef_ge⟩
    have hnodes : r.graph.nodes ≠ [] ↔ 0 < ids.length := by
      rw [← length_pos_iff_ne_nil, hlen]
    split at h
    · next htrue =>
      obtain ⟨slot, hslot, heq⟩ := bind_eq_some_iff.mp h
      simp only [pure, some.injEq] at heq
      subst heq
      rw [htrue] at hentry
      exact ⟨hshape.of_tables rfl, hr.live_eq, by simpa [hnodes] using hentry,
        fun _ => hslotted.lt_of_slot hslot, hlevel⟩
    · next hfalse =>
      simp only [some.injEq] at h
      subst h
      have hnone : ¬ 0 < ids.length := by simpa [hentry] using hfalse
      have hnil : r.graph.nodes = [] := not_not.mp (mt hnodes.mp hnone)
      exact ⟨hshape.of_tables rfl, hr.live_eq, by simp [hnil], fun hne => absurd hnil hne, hlevel⟩

end Restore

end NuclaDB.Hnsw
