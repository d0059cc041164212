import Mathlib.Data.Finset.Card
import NuclaDB.HnswRun
import NuclaDB.KeyedLog

/-!
# The graph as a map from ids to vectors

`get` is all that a caller sees of what is stored. Every operation changes it as it would
change a map.
-/

namespace NuclaDB.Hnsw

open KeyedLog Function List

variable {D : Type} {g h : Graph D}

abbrev putVecs (f : UInt64 → Option Vec) (items : List (UInt64 × Vec)) : UInt64 → Option Vec :=
  putAll Prod.fst (fun it _ => some it.2) f items

abbrev prepared (prep : Vec → Vec) (items : List (UInt64 × Vec)) : List (UInt64 × Vec) :=
  items.map fun it => (it.1, prep it.2)

namespace Graph

theorem get_of_bare (hb : h.bare = g.bare) : h.get = g.get :=
  congrArg (fun g => g.get) hb

theorem get_of_tables (ht : h.tables = g.tables) : h.get = g.get :=
  congrArg (fun g => g.get) ht

theorem Slotted.get_store (hg : g.Slotted) {slot : ℕ} {nd : Node} {vec : Vec} {existed : Bool}
    (ht : g.Target nd.id slot existed) :
    (g.store slot nd vec existed).get = update g.get nd.id (some vec) := by
  funext id
  have hdata := hg.data_length
  have hdead := hg.dead_length
  cases existed with
  | true =>
    have hlt := hg.lt_of_slot ht
    by_cases hid : id = nd.id
    · subst hid
      rw [update_self]
      simp only [get, Graph.store, if_true, show g.slots[nd.id]? = some slot from ht, isDead, Graph.vec,
        getD_eq_getElem?_getD]
      rw [getElem?_set_self (by omega), getElem?_set_self (by omega)]
      rfl
    · rw [update_of_ne hid]
      simp only [get, Graph.store, if_true]
      cases hs : g.slots[id]? with
      | none => rfl
      | some s =>
        have hne : slot ≠ s := fun heq => hid
          ((hg.slot_iff.mp hs).2.symm.trans (heq ▸ (hg.slot_iff.mp ht).2))
        simp only [isDead, Graph.vec, getD_eq_getElem?_getD, getElem?_set_ne hne]
  | false =>
    obtain ⟨hnone, rfl⟩ := ht
    by_cases hid : id = nd.id
    · subst hid
      rw [update_self]
      have hfalse : (g.dead ++ [false]).getD g.nodes.length false = false := by
        rw [← hdead]
        simp
      have hlast : (g.data ++ [vec]).getD g.nodes.length [] = vec := by
        rw [← hdata]
        simp
      simp only [get, Graph.store, Bool.false_eq_true, if_false, Std.ExtTreeMap.getElem?_insert_self,
        isDead, Graph.vec, hfalse, hlast]
    · rw [update_of_ne hid]
      simp only [get, Graph.store, Bool.false_eq_true, if_false, Std.ExtTreeMap.getElem?_insert,
        Std.LawfulEqCmp.compare_eq_iff_eq, Ne.symm hid]
      cases hs : g.slots[id]? with
      | none => rfl
      | some s =>
        have hlt := hg.lt_of_slot hs
        simp only [isDead, Graph.vec, getD_eq_getElem?_getD]
        rw [getElem?_append_left (by omega), getElem?_append_left (by omega)]

theorem get_of_delete_error {id : UInt64} {e : Error} (hd : g.delete id = .error e) :
    g.get id = none := by
  simp only [delete] at hd
  simp only [get]
  cases hs : g.slots[id]? with
  | none => rfl
  | some slot =>
    simp only [hs] at hd ⊢
    split
    · rfl
    · next halive => simp [halive] at hd

theorem Slotted.get_delete (hg : g.Slotted) (id : UInt64) :
    ((g.delete id).toOption.getD g).get = update g.get id none := by
  cases hd : g.delete id with
  | error e => exact (update_eq_self_iff.mpr (get_of_delete_error hd).symm).symm
  | ok h =>
    obtain ⟨slot, hs, -, rfl⟩ := delete_eq_ok.mp hd
    have hlt := hg.lt_of_slot hs
    have hdead := hg.dead_length
    funext id'
    by_cases hid : id' = id
    · subst hid
      rw [update_self]
      simp only [get, Except.toOption, Option.getD_some, hs, isDead, getD_eq_getElem?_getD]
      rw [getElem?_set_self (by omega)]
      rfl
    · rw [update_of_ne hid]
      simp only [get, Except.toOption, Option.getD_some]
      cases hs' : g.slots[id']? with
      | none => rfl
      | some s =>
        have hne : slot ≠ s := fun heq => hid
          ((hg.slot_iff.mp hs').2.symm.trans (heq ▸ (hg.slot_iff.mp hs).2))
        simp only [isDead, Graph.vec, getD_eq_getElem?_getD, getElem?_set_ne hne]

theorem Shape.get_place (hs : g.Shape) {slot : ℕ} (nd : Node) {vec : Vec} {existed : Bool}
    (ht : g.Target nd.id slot existed) :
    (g.place slot nd vec existed).get = update g.get nd.id (some vec) :=
  (get_of_bare (bare_place ..)).trans (hs.slotted.get_store ht)

theorem Shape.get_placed_chunk (hs : g.Shape) {base k : ℕ} (hbase : g.nodes.length = base + k)
    {chunk : List ChunkNode} (hp : g.Placeable chunk) :
    ((chunk.zipIdx k).foldl (fun g nd => g.place (base + nd.2) nd.1.node nd.1.vec false) g).get =
      putVecs g.get (chunk.map fun nd => (nd.id, nd.vec)) := by
  induction chunk generalizing g k with
  | nil => rfl
  | cons nd chunk ih =>
    have hone := hs.placed_head hp
    have ht : g.Target nd.node.id g.nodes.length false :=
      ⟨hs.slotted.slot_eq_none.mpr (hp.fresh nd mem_cons_self), rfl⟩
    simp only [zipIdx_cons, foldl_cons, ← hbase]
    rw [ih hone.shape (by simp [hone.nodes]; omega) (hp.tail hone), hs.get_place nd.node ht]
    rfl

section Steps
variable [Dist D]

theorem WF.get_insertAt (hw : g.WF) {id : UInt64} {vec : Vec} {level slot : ℕ} {existed : Bool}
    (ht : g.Target id slot existed) (hvec : vec.length = g.cfg.dim) (hlevel : level ≤ 64) :
    (g.insertAt id vec level slot existed).get = update g.get id (some vec) := by
  obtain ⟨-, hentry, -, -⟩ | ⟨hne, hentry⟩ := hw.insertAt_cases ht
  · simp only [Graph.insertAt, hentry, Bool.not_false, if_true]
    have hs : ({ g with live := g.live + 1 } : Graph D).Shape := hw.shape.of_tables rfl
    exact hs.get_place ⟨id, level, replicate (level + 1) []⟩ ht
  · rw [insertAt_eq hentry, get_of_tables (promote_tables ..),
      get_of_bare (hw.connected_bare hne ht hvec hlevel)]
    have hs : (g.countLive slot existed).Shape := hw.shape.of_tables rfl
    exact hs.slotted.get_store ht

theorem WF.get_insertLocked (hw : g.WF) (id : UInt64) {vec : Vec} (hvec : vec.length = g.cfg.dim) :
    (g.insertLocked id vec).get = update g.get id (some vec) :=
  (hw.of_rng fun k => g.rng (k + 1)).get_insertAt (target_slotFor ..) hvec (Nat.min_le_right ..)

theorem WF.get_insertChunk (hw : g.WF) {items : List (UInt64 × Vec)}
    (hv : (Step.chunk items).Valid g) :
    (g.insertChunk items).get = putVecs g.get (prepared g.prep items) := by
  obtain ⟨⟨rng, hrng⟩, hids, hvecs, -⟩ := g.drawChunk_spec items
  have hp := hw.placeable hv
  have hs : ({ g with rng := rng } : Graph D).Shape := hw.shape.of_tables rfl
  have hitems : (g.drawChunk items).1.map (fun nd => (nd.id, nd.vec)) = prepared g.prep items := by
    rw [prepared, ← zip_map', ← zip_map', hids, hvecs]
  simp only [Graph.insertChunk, hrng]
  rw [get_of_tables (settle_tables ..), get_of_bare (joined_bare ..), ← hitems]
  exact hs.get_placed_chunk rfl ⟨hp.fresh, hp.nodup, hp.dims, hp.level_le⟩

theorem prep_eq (hunit : g.unit = false) (v : Vec) : g.prep v = v := by
  simp [prep, hunit]

theorem prep_of_settings (hset : h.settings = g.settings) : h.prep = g.prep := by
  have hunit : h.unit = g.unit := congrArg (·.2.1) hset
  funext v
  simp only [prep, hunit]

end Steps

end Graph

section Maps
variable [Dist D]

def Step.put (prep : Vec → Vec) (f : UInt64 → Option Vec) : Step → UInt64 → Option Vec
  | .insert id vector => update f id (some (prep vector))
  | .chunk items => putVecs f (prepared prep items)
  | .delete id => update f id none

theorem Step.get_apply (hw : g.WF) {s : Step} (hs : s.Valid g) :
    (s.apply g).get = s.put g.prep g.get := by
  cases s with
  | insert id vector => exact hw.get_insertLocked id ((g.prep_length vector).trans hs)
  | chunk items => exact hw.get_insertChunk hs
  | delete id => exact hw.shape.slotted.get_delete id

namespace Graph
variable {items : List (UInt64 × Vec)} {workers : Workers}

omit [Dist D] in
theorem nextStep_put (g : Graph D) (workers : Workers) (item : UInt64 × Vec)
    (rest : List (UInt64 × Vec)) (prep : Vec → Vec) (f : UInt64 → Option Vec) :
    putVecs ((g.nextStep workers item rest).1.put prep f)
        (prepared prep (g.nextStep workers item rest).2) =
      putVecs f (prepared prep (item :: rest)) := by
  simp only [nextStep]
  split
  · rfl
  · simp only [Step.put]
    rw [putVecs, putVecs, ← putAll_append, ← map_append, take_append_drop]

theorem WF.batchLoop (hw : g.WF) (workers : Workers) {m : ℕ}
    (hm : items.length ≤ m)
    (hdims : ∀ it ∈ items, it.2.length = g.cfg.dim) :
    (batchLoop workers m g items).WF ∧ (batchLoop workers m g items).settings = g.settings ∧
      (batchLoop workers m g items).get = putVecs g.get (prepared g.prep items) := by
  induction m generalizing g items with
  | zero =>
    obtain rfl : items = [] := eq_nil_of_length_eq_zero (by omega)
    exact ⟨hw, rfl, rfl⟩
  | succ m ih =>
    cases items with
    | nil => exact ⟨hw, rfl, rfl⟩
    | cons item rest =>
      obtain ⟨hvalid, hrest⟩ := nextStep_valid workers hdims
      have hset := (g.nextStep workers item rest).1.apply_settings g
      have hcfg := (g.nextStep workers item rest).1.apply_cfg g
      have hlen := g.nextStep_length workers item rest
      simp only [length_cons] at hm
      obtain ⟨hw', hset', hget'⟩ := ih (Step.wf hw hvalid) (by omega) (hcfg ▸ hrest)
      refine ⟨hw', hset'.trans hset, hget'.trans ?_⟩
      rw [Step.get_apply hw hvalid, prep_of_settings hset, nextStep_put]

theorem validateAll_eq_ok {dim : ℕ} {vectors : List Vec} :
    validateAll dim vectors = .ok () ↔ ∀ v ∈ vectors, validateVector v dim = .ok () := by
  induction vectors with
  | nil => simp [validateAll]
  | cons v vectors ih =>
    simp only [validateAll, forall_mem_cons, ← ih]
    cases validateVector v dim <;> simp [bind, Except.bind]

theorem insertBatch_eq_ok : g.insertBatch workers (items.map (·.1)) (items.map (·.2)) = .ok h ↔
      (∀ it ∈ items, validateVector it.2 g.cfg.dim = .ok ()) ∧
        h = batchLoop workers items.length g items := by
  have hzip : (items.map (·.1)).zip (items.map (·.2)) = items := by
    simp [zip_map']
  rw [← forall_mem_map (P := fun v => validateVector v g.cfg.dim = .ok ()), ← validateAll_eq_ok]
  simp only [Graph.insertBatch, length_map, ne_eq, not_true_eq_false, if_false, hzip]
  cases validateAll g.cfg.dim (items.map (·.2)) with
  | error e => simp [bind, Except.bind]
  | ok u => simp [bind, Except.bind, pure, Except.pure, eq_comm]

theorem WF.insertBatch (hw : g.WF)
    (hok : g.insertBatch workers (items.map (·.1)) (items.map (·.2)) = .ok h) :
    h.WF ∧ h.settings = g.settings ∧ h.get = putVecs g.get (prepared g.prep items) := by
  obtain ⟨hitems, rfl⟩ := insertBatch_eq_ok.mp hok
  exact hw.batchLoop workers le_rfl fun it hit => validateVector_length (hitems it hit)

omit [Dist D] in
theorem Slotted.mem_liveItems (hg : g.Slotted) {id : UInt64} {v : Vec} :
    (id, v) ∈ g.liveItems ↔ g.get id = some v := by
  simp only [liveItems, mem_map, mem_filter, Bool.not_eq_true', get, Prod.mk.injEq]
  constructor
  · rintro ⟨⟨nd, slot⟩, ⟨hmem, halive⟩, rfl, rfl⟩
    have hnd : g.nodes[slot]? = some nd := by simpa using mem_zipIdx_iff_getElem?.mp hmem
    have hslot : g.slots[nd.id]? = some slot := (hg.slots_iff _ _).mpr (by simp [hnd])
    simp [hslot, halive]
  · intro hget
    cases hslot : g.slots[id]? with
    | none => simp [hslot] at hget
    | some slot =>
      have hid := (hg.slots_iff _ _).mp hslot
      simp only [getElem?_map, Option.map_eq_some_iff] at hid
      obtain ⟨nd, hnd, hid⟩ := hid
      simp only [hslot, ite_eq_iff, Option.some.injEq, reduceCtorEq, and_false, false_or,
        Bool.not_eq_true] at hget
      exact ⟨(nd, slot), ⟨mem_zipIdx_iff_getElem?.mpr (by simpa using hnd), hget.1⟩, hid,
        hget.2⟩

theorem WF.compact (hw : g.WF) {rng : ℕ → ℕ} (hc : g.compact workers rng = .ok h) :
    h.WF ∧ h.settings = (new g.cfg rng).settings ∧
      h.get = fun id => (g.get id).map (new g.cfg rng).prep := by
  obtain ⟨hw', hset, hget⟩ := (new_wf g.cfg rng).insertBatch hc
  refine ⟨hw', hset, hget.trans (funext fun id => putAll_eq ?_ ?_)⟩
  · simp only [prepared, forall_mem_map]
    rintro ⟨id', v⟩ hit rfl _
    simp [hw.shape.slotted.mem_liveItems.mp hit]
  · intro hnone
    have hempty : (new g.cfg rng).get id = none := rfl
    have hget : g.get id = none := by
      rw [Option.eq_none_iff_forall_ne_some]
      intro v hv
      have hmem := hw.shape.slotted.mem_liveItems.mpr hv
      exact hnone _ (mem_map_of_mem (f := fun it => (it.1, (new g.cfg rng).prep it.2)) hmem) rfl
    rw [hempty, hget]
    rfl

section Live

def liveIds (g : Graph D) : Finset UInt64 := (g.liveItems.map (·.1)).toFinset

section
omit [Dist D]

theorem Slotted.mem_liveIds (hg : g.Slotted) {id : UInt64} : id ∈ g.liveIds ↔ (g.get id).isSome := by
  simp only [liveIds, mem_toFinset, mem_map, Prod.exists, exists_and_right, exists_eq_right,
    hg.mem_liveItems, Option.isSome_iff_exists]

theorem Slotted.ids_nodup (hg : g.Slotted) : (g.nodes.map (·.id)).Nodup := by
  rw [nodup_iff_getElem?_ne_getElem?]
  intro i j hij hj heq
  obtain ⟨id, hid⟩ : ∃ id, (g.nodes.map (·.id))[j]? = some id := ⟨_, getElem?_eq_getElem hj⟩
  have hi := (hg.slots_iff id i).mpr (heq.trans hid)
  have hj := (hg.slots_iff id j).mpr hid
  exact absurd (Option.some.inj (hi.symm.trans hj)) hij.ne

theorem Slotted.liveItems_nodup (hg : g.Slotted) : (g.liveItems.map (·.1)).Nodup := by
  have hsub : (g.liveItems.map (·.1)).Sublist (g.nodes.zipIdx.map (·.1.id)) := by
    rw [liveItems, map_map]
    exact filter_sublist.map _
  refine hsub.nodup ?_
  rw [show (fun nd : Node × ℕ => nd.1.id) = Node.id ∘ Prod.fst from rfl, ← map_map, zipIdx_map_fst]
  exact hg.ids_nodup

theorem WF.card_liveIds (hw : g.WF) : g.liveIds.card = g.live := by
  have hg := hw.shape.slotted
  have hdead : g.dead = (List.range g.nodes.length).map g.isDead := by
    apply ext_getElem
    · rw [length_map, length_range, hg.dead_length]
    · intro i hi _
      simp [isDead, hi]
  have hslots : g.nodes.zipIdx.map (·.2) = List.range g.nodes.length := by
    rw [zipIdx_map_snd, range_eq_range']
  rw [liveIds, toFinset_card_of_nodup hg.liveItems_nodup, length_map, hw.live_eq, liveItems, length_map,
    ← countP_eq_length_filter, hdead, ← hslots, count_eq_countP, countP_map, countP_map]
  apply countP_congr
  simp

theorem Slotted.countNew_eq (hg : g.Slotted) (ids : List UInt64) :
    g.countNew ids = (ids.toFinset \ g.liveIds).card := by
  rw [countNew, ← toFinset_card_of_nodup (nodup_dedup _)]
  congr 1
  ext id
  simp [hg.mem_liveIds]

theorem isSome_putVecs (f : UInt64 → Option Vec) (items : List (UInt64 × Vec)) (id : UInt64) :
    (putVecs f items id).isSome ↔ (f id).isSome ∨ id ∈ items.map (·.1) := by
  induction items generalizing f with
  | nil => simp
  | cons it items ih =>
    rw [putVecs, putAll_cons, ih, put_apply]
    by_cases hid : it.1 = id
    · simp [hid]
    · simp [hid, Ne.symm hid]

end

theorem WF.live_insertBatch (hw : g.WF) {workers : Workers} {items : List (UInt64 × Vec)}
    (hok : g.insertBatch workers (items.map (·.1)) (items.map (·.2)) = .ok h) :
    h.live = g.live + g.countNew (items.map (·.1)) := by
  obtain ⟨hw', -, hget⟩ := hw.insertBatch hok
  have hids : h.liveIds = g.liveIds ∪ (items.map (·.1)).toFinset := by
    ext id
    rw [hw'.shape.slotted.mem_liveIds, Finset.mem_union, hw.shape.slotted.mem_liveIds, hget, isSome_putVecs]
    simp
  rw [hw.shape.slotted.countNew_eq, ← hw'.card_liveIds, ← hw.card_liveIds, hids,
    ← Finset.union_sdiff_self_eq_union, Finset.card_union_of_disjoint Finset.disjoint_sdiff]

end Live

end Graph

end Maps

end NuclaDB.Hnsw
