import NuclaDB.HnswBlocks
import NuclaDB.HnswContents
import NuclaDB.SegmentLoad

/-!
# Loading is safe

The loader once more, with every index into the file and the tables written out, the vectors and
layer-0 lists in their blocks, slots in 32 bits and sizes in 64.
-/

namespace NuclaDB.Hnsw

open List Option
variable {D : Type} [Dist D]

section Checked

def resolveLayer (slots : Slots) (slot stamp : UInt32) :
    List UInt64 → List UInt32 → Outcome Unit (List UInt32 × List UInt32)
  | [], mark => .done ([], mark)
  | id :: rest, mark =>
    match slots[id]?.map UInt32.ofNat with
    | none => .fail ()
    | some s =>
      if s = slot then .fail ()
      else do
        let m ← Outcome.index mark s.toNat
        if m = stamp then .fail ()
        else do
          let (out, mark) ← resolveLayer slots slot stamp rest (mark.set s.toNat stamp)
          return (s :: out, mark)

structure BlockRestore (D : Type) extends Restore D where
  blocks : Blocks

namespace BlockRestore

/-- The list of one layer goes into the block of layer 0 or into the node, the last one. -/
def storeLayer (r : BlockRestore D) (slot : UInt32) (l : ℕ) (out : List UInt32) :
    Outcome Unit (BlockRestore D) :=
  let g := r.graph
  if l = 0 then do
    let b ← Outcome.orCrash (r.blocks.setLinks slot out)
    return { r with graph := g.setLinks slot.toNat 0 (out.map UInt32.toNat), blocks := b }
  else do
    let nd ← Outcome.index g.nodes (g.nodes.length - 1)
    let _ ← Outcome.index nd.neighbors l
    let nd := { nd with neighbors := nd.neighbors.set l (out.map UInt32.toNat) }
    return { r with graph := { g with nodes := g.nodes.set (g.nodes.length - 1) nd } }

def storeLayers (slot : UInt32) : ℕ → List (List UInt64) → BlockRestore D → Outcome Unit (BlockRestore D)
  | _, [], r => .done r
  | l, ids :: rest, r => do
    let (out, mark) ← resolveLayer r.graph.slots slot (r.stamp + 1) ids r.mark
    let r ← { r with mark := mark, stamp := r.stamp + 1 }.storeLayer slot l out
    storeLayers slot (l + 1) rest r

def restoreNode (r : BlockRestore D) (ns : NodeState) : Outcome Unit (BlockRestore D) :=
  let slot := UInt32.ofNat r.graph.nodes.length
  if r.graph.slots[ns.id]?.map UInt32.ofNat ≠ some slot ∨ ns.neighbors.length ≠ ns.level + 1 ∨
      ns.vector.length ≠ r.graph.cfg.dim then .fail ()
  else do
    let b ← Outcome.orCrash (r.blocks.step (.append (r.graph.prep ns.vector)))
    storeLayers slot 0 ns.neighbors
      { r with graph := r.graph.appendNode ns (replicate (ns.level + 1) []), blocks := b }

end BlockRestore

end Checked

section Agree
open Outcome (Answers)
variable {slots : Slots} {mark : List UInt32} {n : ℕ}

theorem toNat_ofNat_of_le {s : ℕ} (hs : s < mark.length) (hmark : mark.length ≤ 2 ^ 32) :
    (UInt32.ofNat s).toNat = s := UInt32.toNat_ofNat_of_lt' (lt_of_lt_of_le hs hmark)

theorem resolveLayer_answers {stamp : UInt32} {ids : List UInt64} (hmark : mark.length ≤ 2 ^ 32)
    (hlt : ∀ (id : UInt64) s, slots[id]? = some s → s < mark.length) (hn : n < mark.length) :
    Answers (fun out c => out.1.map UInt32.toNat = c.1 ∧ out.2 = c.2)
      (resolveLayer slots (UInt32.ofNat n) stamp ids mark) (restoreLayer slots n stamp ids mark) := by
  induction ids generalizing mark with
  | nil => exact .done ⟨rfl, rfl⟩
  | cons id ids ih =>
    simp only [resolveLayer, restoreLayer]
    cases hs : slots[id]? with
    | none => exact .fail
    | some s =>
      have hsm := hlt id s hs
      have hto := toNat_ofNat_of_le hsm hmark
      have hself : UInt32.ofNat s = UInt32.ofNat n ↔ s = n := by
        rw [← UInt32.toNat_inj, hto, toNat_ofNat_of_le hn hmark]
      have hat : mark.getD s 0 = mark[s] := by simp [hsm]
      simp only [map_some, hself, hto, bind_eq_bind, bind_some, hat]
      by_cases hown : s = n
      · rw [if_pos hown, if_pos (.inl hown)]
        exact .fail
      · rw [if_neg hown, Outcome.index_eq hsm, Outcome.done_bind]
        by_cases hdup : mark[s] = stamp
        · rw [if_pos hdup, if_pos (.inr hdup)]
          exact .fail
        · rw [if_neg hdup, if_neg (not_or.mpr ⟨hown, hdup⟩)]
          have hrest := ih (by rwa [length_set] : (mark.set s stamp).length ≤ 2 ^ 32) (fun id s h => by
            rw [length_set]
            exact hlt id s h) (by rwa [length_set])
          refine hrest.bind ?_
          rintro ⟨out, mark₁⟩ ⟨out', mark₂⟩ ⟨rfl, rfl⟩ -
          exact .done ⟨by rw [map_cons, hto], rfl⟩

variable {g : Graph D} {b : Blocks} {stamp : UInt32}

variable (mark stamp) in
theorem storeLayer_appendNode (hn : (UInt32.ofNat g.nodes.length).toNat = g.nodes.length)
    (hdata : g.data.length = g.nodes.length) (hlen : g.links0.length = g.nodes.length) (ns : NodeState)
    {lists : List (List ℕ)} (hb : b.Holds (g.appendNode ns lists)) {l : ℕ} (hl : l < lists.length)
    (out : List UInt32) :
    ∃ b', BlockRestore.storeLayer ⟨⟨g.appendNode ns lists, mark, stamp⟩, b⟩ (UInt32.ofNat g.nodes.length) l out =
        .done ⟨⟨g.appendNode ns (lists.set l (out.map UInt32.toNat)), mark, stamp⟩, b'⟩ ∧
      b'.Holds (g.appendNode ns (lists.set l (out.map UInt32.toNat))) := by
  generalize hstored : out.map UInt32.toNat = stored
  have hnode : (g.appendNode ns lists).nodes = g.nodes ++ [⟨ns.id, ns.level, lists.set 0 []⟩] := rfl
  have hlast : (g.appendNode ns lists).nodes.length - 1 = g.nodes.length := by simp [hnode]
  by_cases hl0 : l = 0
  · subst hl0
    have hslot : (UInt32.ofNat g.nodes.length).toNat < (g.appendNode ns lists).data.length := by
      simp [Graph.appendNode, hn, hdata]
    have hset : (g.appendNode ns lists).setLinks g.nodes.length 0 stored =
        g.appendNode ns (lists.set 0 stored) := by
      have hfirst : (lists.set 0 stored).getD 0 [] = stored := by simp [hl]
      simp only [Graph.setLinks, if_true, Graph.appendNode, hfirst, set_set]
      rw [← hlen, set_append_right _ _ le_rfl, Nat.sub_self, set_cons_zero]
    obtain ⟨b', hstep, hb'⟩ := hb.setLinks hslot out
    rw [hstored, hn, hset] at hb'
    refine ⟨b', ?_, hb'⟩
    simp only [BlockRestore.storeLayer, if_true, hstep, Outcome.orCrash, Outcome.done_bind, hstored, hn, hset]
    rfl
  · have hfirst : (lists.set l stored).getD 0 [] = lists.getD 0 [] := by
      simp [getD_eq_getElem?_getD, getElem?_set_ne hl0]
    have hindex : Outcome.index (ε := Unit) (g.appendNode ns lists).nodes g.nodes.length =
        .done ⟨ns.id, ns.level, lists.set 0 []⟩ := by
      rw [Outcome.index, hnode, getElem?_concat_length, Outcome.orCrash]
    have hlayer : l < (lists.set 0 []).length := by rwa [length_set]
    have hnodes : (g.appendNode ns lists).nodes.set g.nodes.length
        ⟨ns.id, ns.level, (lists.set 0 []).set l stored⟩ =
        g.nodes ++ [⟨ns.id, ns.level, (lists.set l stored).set 0 []⟩] := by
      rw [hnode, set_append_right _ _ le_rfl, Nat.sub_self, set_cons_zero, set_comm _ _ (Ne.symm hl0)]
    refine ⟨b, ?_, hb.congr rfl rfl (by simp only [Graph.appendNode, hfirst])⟩
    simp only [BlockRestore.storeLayer, if_neg hl0, hlast, hindex, Outcome.done_bind,
      Outcome.index_eq hlayer, hstored, hnodes]
    simp only [Graph.appendNode, hfirst]
    rfl

variable (stamp) in
theorem storeLayers_answers (hmark : mark.length ≤ 2 ^ 32) (hn : g.nodes.length < mark.length)
    (hdata : g.data.length = g.nodes.length) (hlen : g.links0.length = g.nodes.length)
    (hlt : ∀ (id : UInt64) s, g.slots[id]? = some s → s < mark.length) (ns : NodeState)
    {rest : List (List UInt64)} {l : ℕ} {lists : List (List ℕ)} (hl : l + rest.length = lists.length)
    (hb : b.Holds (g.appendNode ns lists)) :
    Answers (fun r c => r.toRestore = ⟨g.appendNode ns (lists.take l ++ c.1), c.2.1, c.2.2⟩ ∧ r.blocks.Holds r.graph)
      (BlockRestore.storeLayers (UInt32.ofNat g.nodes.length) l rest ⟨⟨g.appendNode ns lists, mark, stamp⟩, b⟩)
      (restoreLayers g.slots g.nodes.length rest mark stamp) := by
  induction rest generalizing l lists mark stamp b with
  | nil =>
    have htake : lists.take l = lists := take_of_length_le (by simp at hl; omega)
    exact .done ⟨by rw [htake, append_nil], hb⟩
  | cons ids rest ih =>
    rw [length_cons] at hl
    simp only [BlockRestore.storeLayers, restoreLayers]
    refine (resolveLayer_answers hmark hlt hn).bind ?_
    rintro ⟨out, mark'⟩ ⟨_, _⟩ ⟨rfl, rfl⟩ hout
    obtain ⟨-, -, hmarks⟩ := restoreLayer_resolved hlt hout
    obtain ⟨b', hstore, hb'⟩ := storeLayer_appendNode mark' (stamp + 1)
      (toNat_ofNat_of_le hn hmark) hdata hlen ns hb (by omega : l < lists.length) out
    have htake : (lists.set l (out.map UInt32.toNat)).take (l + 1) = lists.take l ++ [out.map UInt32.toNat] := by
      rw [take_add_one, getElem?_set_self (by omega), take_set_of_le le_rfl]
      rfl
    have hrest := @ih _ _ (stamp + 1) (by rwa [hmarks]) (by rwa [hmarks])
      (fun id s h => by rw [hmarks]; exact hlt id s h) _ _
      (by rw [length_set]; omega : l + 1 + rest.length = (lists.set l (out.map UInt32.toNat)).length) hb'
    rw [htake] at hrest
    simp only [hstore, Outcome.done_bind]
    refine hrest.then ?_
    rintro r ⟨lists', mark'', stamp'⟩ ⟨hr, hholds⟩
    exact ⟨_, rfl, by simpa using hr, hholds⟩

theorem BlockRestore.restoreNode_answers {ids : List UInt64} (hids : ids.length ≤ 2 ^ 32) {r : BlockRestore D}
    (hr : r.Sound ids) (hnext : r.graph.nodes.length < ids.length) (hb : r.blocks.Holds r.graph) (ns : NodeState) :
    Answers (fun r c => r.toRestore = c ∧ r.blocks.Holds r.graph) (r.restoreNode ns)
      (r.toRestore.restoreNode ns) := by
  obtain ⟨⟨g, mark, stamp⟩, b⟩ := r
  have hlt : ∀ (id : UInt64) s, g.slots[id]? = some s → s < mark.length := by
    intro id s hs
    rw [hr.mark_length]
    exact (List.getElem?_eq_some_iff.mp ((hr.slots_iff id s).mp hs)).1
  have hmark : mark.length ≤ 2 ^ 32 := by rwa [hr.mark_length]
  have hn : g.nodes.length < mark.length := by rwa [hr.mark_length]
  have hslot : g.slots[ns.id]?.map UInt32.ofNat ≠ some (UInt32.ofNat g.nodes.length) ↔
      g.slots[ns.id]? ≠ some g.nodes.length := by
    cases hs : g.slots[ns.id]? with
    | none => simp
    | some s =>
      simp only [map_some, ne_eq, some.injEq, ← UInt32.toNat_inj,
        toNat_ofNat_of_le (hlt ns.id s hs) hmark, toNat_ofNat_of_le hn hmark]
  simp only [BlockRestore.restoreNode, Restore.restoreNode, hslot]
  split
  · exact .fail
  · next hok =>
    simp only [not_or, not_not] at hok
    obtain ⟨t, hstep, ht⟩ := hb.store (UInt32.ofNat 0) ⟨0, 0, []⟩ ((g.prep_length ns.vector).trans hok.2.2)
      false (by simp)
    have hholds : t.Holds (g.appendNode ns (replicate (ns.level + 1) [])) :=
      ht.congr rfl rfl (by simp [Graph.appendNode, Graph.store])
    have hstore := storeLayers_answers stamp hmark hn hr.data_length hr.links0_length hlt ns
      (by rw [length_replicate, hok.2.1, Nat.zero_add] : 0 + ns.neighbors.length = _) hholds
    simp only [Bool.false_eq_true, if_false] at hstep
    simp only [hstep, Outcome.orCrash, Outcome.done_bind]
    refine hstore.then ?_
    rintro r' ⟨lists, mark', stamp'⟩ ⟨hr', hb'⟩
    exact ⟨_, rfl, by simpa using hr', hb'⟩

omit [Dist D] in
theorem Blocks.Holds.endRestore {r : Restore D} (hb : b.Holds r.graph) {entryPoint : UInt64} {maxLevel : ℕ}
    {hasEntry : Bool} (h : r.endRestore entryPoint maxLevel hasEntry = some g) : b.Holds g := by
  simp only [Restore.endRestore, ite_none_left_eq_some] at h
  obtain ⟨-, h⟩ := h
  split at h
  · obtain ⟨slot, -, h⟩ := bind_eq_some_iff.mp h
    exact some.inj h ▸ hb.congr rfl rfl rfl
  · exact some.inj h ▸ hb.congr rfl rfl rfl

end Agree

end NuclaDB.Hnsw

namespace NuclaDB.Segment.Checked
open LittleEndian Hnsw
open Indexed (need failIf lift getPos setPos len)

variable {D : Type} [Hnsw.Dist D]

section Loader

def refused {α : Type} : Outcome Unit α → Outcome LoadError α
  | .done a => .done a
  | .fail _ => .fail .invalidFormat
  | .crash => .crash

def restoreNodes : ℕ → BlockRestore D → Indexed LoadError (BlockRestore D)
  | 0, r => pure r
  | n + 1, r => do
    let nd ← readNode.indexed
    let r ← lift (refused (r.restoreNode nd))
    restoreNodes n r

def loadNodes (cfg : Config D) (rng : ℕ → ℕ) (v2 : Bool) : Indexed LoadError (Graph D × Blocks × UInt64) := do
  let size ← len
  let header ← (readHeader cfg v2 size.toNat).indexed
  let nodesAt ← getPos
  let ids ← (skipNodes cfg.dim header.nodeCount 0).indexed
  let pos ← getPos
  failIf (pos ≠ size) .invalidFormat
  let r ← lift (.ofOption .invalidFormat ((new cfg rng).beginRestore ids))
  setPos nodesAt
  let r ← restoreNodes header.nodeCount ⟨r, .new r.graph.cfg.dim r.graph.cfg.m⟩
  let g ← lift (.ofOption .invalidFormat
    (r.endRestore header.entryPoint header.maxLevel header.hasEntry))
  return (g, r.blocks, header.walSeq)

def load (cfg : Config D) (rng : ℕ → ℕ) (file : Option Bytes) : Outcome LoadError (Graph D × Blocks × UInt64) :=
  let m := file.getD []
  if m.length = 0 then
    let g := new cfg rng
    .done (g, .new g.cfg.dim g.cfg.m, 0)
  else do
    let _ ← (need short 8).run m 0
    let hdr ← Outcome.slice m 0 8
    if hdr = magic then
      if m.length < 12 then .fail .invalidFormat
      else do
        let body ← Outcome.slice m 0 (int64 (m.length - 4))
        let sum ← Outcome.slice m (int64 (m.length - 4)) m.length
        if crc32ChecksumIEEE body ≠ LittleEndian.uint32 sum then .fail .checksum
        else do
          let r ← (loadNodes cfg rng true).run body 8
          return r.1
    else if hdr = magicV1 then do
      let r ← (loadNodes cfg rng false).run m 8
      return r.1
    else .fail .invalidFormat

end Loader

section Follow
variable {data : Bytes} (hsize : data.length < 2 ^ 63)
include hsize

theorem restoreNodes_follows {ids : List UInt64} (hids : ids.length ≤ 2 ^ 32) {r : BlockRestore D}
    (hr : r.Sound ids) (hb : r.blocks.Holds r.graph) {n : ℕ} (hn : r.graph.nodes.length + n ≤ ids.length)
    {pos : ℕ} (hpos : pos ≤ data.length) :
    Indexed.FollowsFrom (fun r c => r.toRestore = c ∧ r.blocks.Holds r.graph) data pos (restoreNodes n r)
      (Segment.restoreNodes n r.toRestore) := by
  induction n generalizing r pos with
  | zero => exact Outcome.Matches.done ⟨pos, hpos, rfl, rfl, rfl, hb⟩
  | succ n ih =>
    refine (readNode.follows hsize pos hpos).bind ?_
    rintro nd _ k rfl hk hnd
    have hnode := r.restoreNode_answers hids hr (by omega) hb nd
    cases hnext : r.toRestore.restoreNode nd with
    | none =>
      rw [hnext] at hnode
      generalize r.restoreNode nd = x at hnode
      cases hnode
      exact Outcome.Matches.fail LoadError.invalidFormat
    | some next =>
      rw [hnext] at hnode
      generalize r.restoreNode nd = x at hnode
      cases hnode with
      | @done r' _ h =>
        obtain ⟨rfl, hb'⟩ := h
        have hcount : r'.graph.nodes.length = r.graph.nodes.length + 1 := by
          obtain ⟨-, -, -, lists, mark, stamp, -, heq⟩ := Restore.restoreNode_eq_some.mp hnext
          simp [heq, Graph.appendNode]
        exact ih (hr.restoreNode (readNode_level hnd) hnext) hb' (by omega) hk

/-- Slots of 32 bits for all nodes, and blocks that can be mapped if there is one. -/
def Storable (cfg : Config D) (count : ℕ) : Prop :=
  count ≤ 2 ^ 32 ∧ (0 < count → Blocks.RoomFor cfg.dim cfg.withDefaults.m)

theorem restoreNodes_begun {cfg : Config D} {rng : ℕ → ℕ} {ids : List UInt64} {r : Restore D}
    (hr : (new cfg rng).beginRestore ids = some r) (hfits : Storable cfg ids.length) {pos : ℕ}
    (hpos : pos ≤ data.length) :
    Indexed.FollowsFrom (fun r c => r.toRestore = c ∧ (r.graph.nodes ≠ [] → r.blocks.Holds r.graph)) data pos
      (restoreNodes ids.length ⟨r, .new r.graph.cfg.dim r.graph.cfg.m⟩)
      (Segment.restoreNodes ids.length r) := by
  have hsound := Restore.sound_begin hr
  obtain ⟨slots, -, rfl⟩ := Option.map_eq_some_iff.mp hr
  by_cases hroom : Blocks.RoomFor cfg.dim cfg.withDefaults.m
  · have hfollows := restoreNodes_follows hsize hfits.1 (r := ⟨_, .new _ _⟩) hsound
      ⟨_, _, Blocks.new_stores hroom, rfl, rfl, rfl, rfl⟩ (Nat.zero_add ids.length).le hpos
    exact hfollows.mono fun _ _ ⟨k, hk, ha, hc, heq, hb⟩ => ⟨k, hk, ha, hc, heq, fun _ => hb⟩
  · have hnone : ids.length = 0 := by
      by_contra hsome
      exact hroom (hfits.2 (Nat.pos_of_ne_zero hsome))
    rw [hnone]
    exact Outcome.Matches.done ⟨pos, hpos, rfl, rfl, rfl, fun hne => absurd rfl hne⟩

/-- The graph that the other loader returns, in blocks. -/
def Loaded (l : Graph D × Blocks × UInt64) (r : Graph D × UInt64) : Prop :=
  l.1 = r.1 ∧ l.2.2 = r.2 ∧ (l.1.nodes ≠ [] → l.2.1.Holds l.1)

theorem loadNodes_matches {cfg : Config D} (rng : ℕ → ℕ) {v2 : Bool} (h8 : 8 ≤ data.length)
    (hfits : ∀ header rest, (readHeader cfg v2 data.length).cursor (data.drop 8) = .ok (header, rest) →
      Storable cfg header.nodeCount) :
    Outcome.Matches (fun l r => Loaded l.1 r) ((loadNodes cfg rng v2).run data 8) (loadBody cfg rng v2 data) := by
  simp only [loadNodes, loadBody, Indexed.run_bind, Indexed.run_len, Outcome.done_bind, Int.toNat_natCast]
  refine Outcome.Matches.bind ((readHeader cfg v2 data.length).follows hsize 8 h8) ?_
  rintro ⟨header, _⟩ ⟨_, _⟩ ⟨k, hk, rfl, rfl, rfl⟩ hheader
  simp only [Indexed.run_getPos, Outcome.done_bind]
  refine Outcome.Matches.bind ((skipNodes cfg.dim header.nodeCount 0).follows hsize k hk) ?_
  rintro ⟨ids, _⟩ ⟨_, _⟩ ⟨k', hk', rfl, rfl, rfl⟩ hids
  have hlen := skipNodes_length hids
  have hend : (k' : ℤ) ≠ data.length ↔ data.drop k' ≠ [] := by
    rw [ne_eq, ne_eq, List.drop_eq_nil_iff]
    omega
  simp only [Indexed.run_failIf, hend]
  by_cases hleft : data.drop k' ≠ []
  · rw [if_pos hleft, if_pos hleft]
    exact .fail LoadError.invalidFormat
  · rw [if_neg hleft, if_neg hleft]
    cases hr : (new cfg rng).beginRestore ids with
    | none => exact .fail LoadError.invalidFormat
    | some r =>
      simp only [Outcome.done_bind, Indexed.run_lift, Outcome.ofOption, Indexed.run_setPos, ← hlen]
      refine Outcome.Matches.bind
        (restoreNodes_begun hsize hr (hlen ▸ hfits header _ hheader) hk) ?_
      rintro ⟨r, _⟩ ⟨_, _⟩ ⟨k'', -, rfl, rfl, rfl, hb⟩ -
      cases hg : r.endRestore header.entryPoint header.maxLevel header.hasEntry with
      | none => exact .fail LoadError.invalidFormat
      | some g =>
        refine .done ⟨rfl, rfl, fun hne => (hb ?_).endRestore hg⟩
        rwa [← (Restore.endRestore_tables hg).1]

end Follow

section Safe

/-- A file as it is mapped: the length of a slice is an integer of 64 bits. -/
structure Mapped where
  bytes : Bytes
  size_lt : bytes.length < 2 ^ 63

def nodeCount (cfg : Config D) (m : Bytes) : ℕ :=
  let v2 := m.take 8 = magic
  let body := if v2 then m.take (m.length - 4) else m
  match (readHeader cfg v2 body.length).cursor (body.drop 8) with
  | .ok (header, _) => header.nodeCount
  | .error _ => 0

theorem load_matches (cfg : Config D) (rng : ℕ → ℕ) (file : Option Mapped)
    (hfits : ∀ m ∈ file, Storable cfg (nodeCount cfg m.bytes)) :
    Outcome.Matches Loaded (load cfg rng (file.map (·.bytes)))
      (Segment.load cfg rng (file.map (·.bytes))) := by
  have hm : ((file.map (·.bytes)).getD []).length < 2 ^ 63 ∧
      (0 < ((file.map (·.bytes)).getD []).length →
        Storable cfg (nodeCount cfg ((file.map (·.bytes)).getD []))) := by
    cases file with
    | none => exact ⟨Nat.two_pow_pos 63, nofun⟩
    | some m => exact ⟨m.size_lt, fun _ => hfits m rfl⟩
  simp only [load, Segment.load]
  generalize (file.map (·.bytes)).getD [] = m at hm
  obtain ⟨hsize, hnodes⟩ := hm
  by_cases hempty : m.length = 0
  · rw [if_pos hempty, if_pos hempty]
    exact .done ⟨rfl, rfl, fun hne => absurd rfl hne⟩
  · rw [if_neg hempty, if_neg hempty]
    replace hnodes := hnodes (Nat.pos_of_ne_zero hempty)
    have hneed := Indexed.run_need short hsize 8 (Nat.zero_le m.length)
    simp only [Nat.cast_ofNat, Nat.cast_zero, Nat.zero_add] at hneed
    rw [hneed]
    by_cases hshort : m.length < 8
    · rw [if_pos hshort, if_pos hshort]
      exact .fail LoadError.invalidFormat
    · have htake : Outcome.slice (ε := LoadError) m 0 8 = .done (m.take 8) :=
        Outcome.slice_eq (i := 0) (n := 8) (by omega)
      rw [if_neg hshort, if_neg hshort, Outcome.done_bind, htake, Outcome.done_bind]
      by_cases hmagic : m.take 8 = magic
      · rw [if_pos hmagic, if_pos hmagic]
        by_cases hshorter : m.length < 12
        · rw [if_pos hshorter, if_pos hshorter]
          exact .fail LoadError.invalidFormat
        · have hcut : int64 (m.length - 4 : ℤ) = ((m.length - 4 : ℕ) : ℤ) := by
            rw [int64_eq (by omega) (by omega)]
            omega
          have hbody : Outcome.slice (ε := LoadError) m 0 ((m.length - 4 : ℕ) : ℤ) =
              .done (m.take (m.length - 4)) := by
            have h : 0 + (m.length - 4) ≤ m.length := by omega
            simpa using Outcome.slice_eq (ε := LoadError) h
          have hsum : Outcome.slice (ε := LoadError) m ((m.length - 4 : ℕ) : ℤ) m.length =
              .done (m.drop (m.length - 4)) := by
            have h : m.length - 4 + 4 ≤ m.length := by omega
            have hslice := Outcome.slice_eq (ε := LoadError) h
            rw [Nat.sub_add_cancel (by omega)] at hslice
            rw [hslice, List.take_of_length_le (by rw [List.length_drop]; omega)]
          rw [if_neg hshorter, if_neg hshorter, hcut, hbody, Outcome.done_bind, hsum, Outcome.done_bind]
          by_cases hcrc : crc32ChecksumIEEE (m.take (m.length - 4)) ≠
              LittleEndian.uint32 (m.drop (m.length - 4))
          · rw [if_pos hcrc, if_pos hcrc]
            exact .fail LoadError.checksum
          · rw [if_neg hcrc, if_neg hcrc]
            refine (loadNodes_matches (by rw [List.length_take]; omega) rng
              (by rw [List.length_take]; omega) fun header rest h => ?_).map fun _ _ h => h
            simpa only [nodeCount, hmagic, if_true, decide_true, h] using hnodes
      · rw [if_neg hmagic, if_neg hmagic]
        by_cases hv1 : m.take 8 = magicV1
        · rw [if_pos hv1, if_pos hv1]
          refine (loadNodes_matches hsize rng (by omega) fun header rest h => ?_).map fun _ _ h => h
          simpa [nodeCount, hmagic, h] using hnodes
        · rw [if_neg hv1, if_neg hv1]
          exact .fail LoadError.invalidFormat

/-- Whatever bytes a file holds, loading it ends without an index outside the file, a table or a block,
and a graph that it returns is one that searches, insertions and snapshots can work with. -/
theorem load_is_safe (cfg : Config D) (rng : ℕ → ℕ) (file : Option Mapped)
    (hfits : ∀ m ∈ file, Storable cfg (nodeCount cfg m.bytes)) :
    load cfg rng (file.map (·.bytes)) ≠ .crash ∧
    ∀ g b seq, load cfg rng (file.map (·.bytes)) = .done (g, b, seq) →
      g.cfg = cfg.withDefaults ∧ (g.nodes.map (·.id)).Nodup ∧
      (∀ (id : UInt64) slot, g.slots[id]? = some slot ↔ (g.nodes.map (·.id))[slot]? = some id) ∧
      g.data.length = g.nodes.length ∧ g.dead.length = g.nodes.length ∧
      g.links0.length = g.nodes.length ∧ (∀ v ∈ g.data, v.length = cfg.dim) ∧
      (∀ slot l, (∀ y ∈ g.links slot l, y < g.nodes.length) ∧ slot ∉ g.links slot l ∧
        (g.links slot l).Nodup) ∧
      (∀ slot, (g.links slot 0).length ≤ 2 * g.cfg.m) ∧
      (g.hasEntry = true ↔ g.nodes ≠ []) ∧ (g.nodes ≠ [] → g.entryPoint < g.nodes.length) ∧
      g.live = g.dead.count false ∧
      ∀ slot : UInt32, slot.toNat < g.nodes.length → b.vec slot = some (g.vec slot.toNat) ∧
        ∃ ids, b.links slot = some ids ∧ ids.map UInt32.toNat = g.links slot.toNat 0 := by
  have hmatch := load_matches cfg rng file hfits
  generalize load cfg rng (file.map (·.bytes)) = out at hmatch
  generalize hload : Segment.load cfg rng (file.map (·.bytes)) = loaded at hmatch
  cases hmatch with
  | fail e => exact ⟨nofun, nofun⟩
  | @done l r h =>
    refine ⟨nofun, ?_⟩
    rintro g b seq hdone
    obtain rfl := Outcome.done.inj hdone
    obtain ⟨hg, hseq, hb⟩ := h
    obtain ⟨loaded, seq'⟩ := r
    obtain rfl : g = loaded := hg
    have hw := load_wf hload
    have hcfg : g.cfg = cfg.withDefaults := congrArg (·.1) (load_settings hload)
    have hs := hw.shape.slotted
    have hl := hw.shape.linked
    refine ⟨hcfg, hs.ids_nodup, hs.slots_iff, hs.data_length, hs.dead_length, hl.links0_length,
      fun v hv => ?_, fun slot l => ?_, fun slot => (hl.list slot 0).length_le rfl,
      hw.hasEntry_iff, hw.entry_lt, hw.live_eq, fun slot hslot => ?_⟩
    · rw [hs.dims v hv, hcfg]
      rfl
    · exact ⟨(hl.list slot l).lt, (hl.list slot l).ne, (hl.list slot l).nodup⟩
    · replace hb := hb (List.ne_nil_of_length_pos (Nat.zero_lt_of_lt hslot))
      exact ⟨hb.vec_eq (by rwa [hs.data_length]),
        hb.links_eq (by rwa [hl.links0_length]) (hl.list _ 0).nodup (hl.list _ 0).ne⟩

def oneOnTheLine : Bytes :=
  magicV1 ++ putUint64 5 ++ [1] ++ putUint64 7 ++ putUint32 0 ++ putUint64 1 ++
    putUint64 7 ++ putUint32 0 ++ [0] ++ putUint32 1 ++ putUint32 0x3F800000 ++ putUint32 1 ++
    putUint32 0

theorem oneOnTheLine_length : oneOnTheLine.length < 2 ^ 63 := by
  have hlength : oneOnTheLine.length = 66 := by decide
  omega

theorem one_on_the_line_is_safe : ∃ g b,
    load line (fun _ => 0) (some oneOnTheLine) = .done (g, b, 5) ∧ g.nodes.length = 1 ∧
    b.vec 0 = some [0x3F800000] ∧ b.links 0 = some [] := by
  have hroom : Blocks.RoomFor line.dim line.withDefaults.m := by constructor <;> decide +kernel
  have hfits : ∀ m ∈ some (⟨_, oneOnTheLine_length⟩ : Mapped), Storable line (nodeCount line m.bytes) := by
    rintro m ⟨⟩
    exact ⟨(by decide : 1 ≤ 2 ^ 32), fun _ => hroom⟩
  have hmatch := load_matches line (fun _ => 0) (some ⟨_, oneOnTheLine_length⟩) hfits
  have hsafe := load_is_safe line (fun _ => 0) (some ⟨_, oneOnTheLine_length⟩) hfits
  obtain ⟨g, hload, hnodes, hvec, hlinks⟩ : ∃ g, Segment.load line (fun _ => 0) (some oneOnTheLine) = .ok (g, 5) ∧
      g.nodes.length = 1 ∧ g.vec 0 = [0x3F800000] ∧ g.links 0 0 = [] := ⟨_, rfl, rfl, rfl, rfl⟩
  simp only [Option.map_some] at hmatch hsafe
  rw [hload] at hmatch
  generalize load line (fun _ => 0) (some oneOnTheLine) = out at hmatch hsafe
  cases hmatch with
  | @done l _ h =>
    obtain ⟨g', b, seq⟩ := l
    obtain rfl : g' = g := h.1
    obtain rfl : seq = 5 := h.2.1
    obtain ⟨hv, ids, hids, hmap⟩ := (hsafe.2 _ _ _ rfl).2.2.2.2.2.2.2.2.2.2.2.2 0 (by rw [hnodes]; decide)
    rw [UInt32.toNat_zero, hlinks, List.map_eq_nil_iff] at hmap
    exact ⟨_, b, rfl, hnodes, hv.trans (congrArg some hvec), hmap ▸ hids⟩

theorem loadNodes_crash {cfg : Config D} {rng : ℕ → ℕ} {v2 : Bool} {data : Bytes} {header : Header} {k : ℤ}
    {ids : List UInt64} {r : Restore D}
    (hheader : (readHeader cfg v2 data.length).indexed.run data 8 = .done (header, k))
    (hskip : (skipNodes cfg.dim header.nodeCount 0).indexed.run data k = .done (ids, data.length))
    (hbegin : (new cfg rng).beginRestore ids = some r)
    (hnodes : (restoreNodes header.nodeCount ⟨r, .new r.graph.cfg.dim r.graph.cfg.m⟩).run data k = .crash) :
    (loadNodes cfg rng v2).run data 8 = .crash := by
  simp only [loadNodes, Indexed.run_bind, Indexed.run_len, Indexed.run_getPos, Int.toNat_natCast, Outcome.done_bind,
    hheader, hskip, Indexed.run_failIf, hbegin, Outcome.ofOption, Indexed.run_lift, Indexed.run_setPos, hnodes,
    ne_eq, not_true, if_false]
  rfl

theorem load_magicV1 {cfg : Config D} {rng : ℕ → ℕ} {m : Bytes} (hsize : m.length < 2 ^ 63)
    (hmagic : m.take 8 = magicV1) (hshort : ¬ m.length < 8) :
    load cfg rng (some m) = ((loadNodes cfg rng false).run m 8 >>= fun r => .done r.1) := by
  have hneed := Indexed.run_need short hsize 8 (Nat.zero_le m.length)
  simp only [Nat.cast_ofNat, Nat.cast_zero, Nat.zero_add, if_neg hshort] at hneed
  have htake : Outcome.slice (ε := LoadError) m 0 8 = .done (m.take 8) :=
    Outcome.slice_eq (i := 0) (n := 8) (by omega)
  rw [load, Option.getD_some, if_neg (by omega), hneed, Outcome.done_bind, htake, Outcome.done_bind, hmagic,
    if_neg (by decide), if_pos rfl]
  rfl

/-- The same line with `M` at `2 ^ 60`: the size of a block of lists wraps to `2 ^ 21`. -/
def wide : Config Exact := { line with m := 1152921504606846976 }

theorem wide_crashes (rng : ℕ → ℕ) : load wide rng (some oneOnTheLine) = .crash := by
  obtain ⟨header, hheader, hone⟩ : ∃ header, (readHeader wide false oneOnTheLine.length).indexed.run oneOnTheLine 8 =
      .done (header, 37) ∧ header.nodeCount = 1 := ⟨_, rfl, rfl⟩
  obtain ⟨ids, pos, hskip, rfl, rfl⟩ : ∃ ids pos, (skipNodes wide.dim 1 0).indexed.run oneOnTheLine 37 =
      .done (ids, pos) ∧ pos = oneOnTheLine.length ∧ ids = [7] := ⟨_, _, rfl, by decide, by decide⟩
  obtain ⟨nd, hread, hid, hlayers, hvector⟩ : ∃ nd, readNode.indexed.run oneOnTheLine 37 = .done (nd, 66) ∧
      nd.id = 7 ∧ nd.neighbors.length = nd.level + 1 ∧ nd.vector.length = 1 := ⟨_, rfl, by decide, rfl, rfl⟩
  obtain ⟨r, hbegin⟩ : ∃ r, (new wide rng).beginRestore [7] = some r := Option.isSome_iff_exists.mp rfl
  have hslot := ((Restore.sound_begin hbegin).slots_iff 7 0).mpr rfl
  obtain ⟨hnodes, hdim, hm⟩ : r.graph.nodes.length = 0 ∧ r.graph.cfg.dim = 1 ∧ r.graph.cfg.m = wide.m := by
    obtain ⟨slots, -, rfl⟩ := Option.map_eq_some_iff.mp hbegin
    exact ⟨rfl, rfl, rfl⟩
  have hrestore : BlockRestore.restoreNode ⟨r, .new 1 wide.m⟩ nd = .crash := by
    have hok : ¬(r.graph.slots[nd.id]?.map UInt32.ofNat ≠ some (UInt32.ofNat r.graph.nodes.length) ∨
        nd.neighbors.length ≠ nd.level + 1 ∨ nd.vector.length ≠ r.graph.cfg.dim) := by
      rw [hid, hslot, hnodes, hdim]
      exact not_or.mpr ⟨not_not.mpr rfl, not_or.mpr ⟨not_not.mpr hlayers, not_not.mpr hvector⟩⟩
    have hnone := @Blocks.new_append_none 1 wide.m (by decide +kernel) (r.graph.prep nd.vector)
    rw [BlockRestore.restoreNode, if_neg hok, hnone]
    rfl
  have hrun : (loadNodes wide rng false).run oneOnTheLine 8 = .crash := by
    refine loadNodes_crash hheader (hone.symm ▸ hskip) hbegin ?_
    rw [hone, hdim, hm, restoreNodes, Indexed.run_bind, hread, Outcome.done_bind, Indexed.run_bind, Indexed.run_lift,
      hrestore]
    rfl
  have hshort : ¬ oneOnTheLine.length < 8 := by decide
  rw [load_magicV1 oneOnTheLine_length rfl hshort, hrun]
  rfl

theorem nodup_ofNat {n : ℕ} (hn : n ≤ UInt64.size) : ((List.range n).map UInt64.ofNat).Nodup := by
  refine List.Nodup.map_on (fun x hx y hy h => ?_) List.nodup_range
  rw [List.mem_range] at hx hy
  have h' := congrArg UInt64.toNat h
  rwa [UInt64.toNat_ofNat_of_lt' (by omega), UInt64.toNat_ofNat_of_lt' (by omega)] at h'

theorem two_ids_one_slot (rng : ℕ → ℕ) {n : ℕ} (hmany : 2 ^ 32 < n) (hn : n ≤ UInt64.size) :
    ∃ r, (new line rng).beginRestore ((List.range n).map UInt64.ofNat) = some r ∧
      r.graph.slots[UInt64.ofNat 0]?.map UInt32.ofNat = some 0 ∧
      r.graph.slots[UInt64.ofNat (2 ^ 32)]?.map UInt32.ofNat = some 0 := by
  obtain ⟨slots, hslots, -, hget⟩ := @addSlots_spec (new line rng).slots 0 _
    (nodup_ofNat hn) fun _ _ => Std.ExtTreeMap.getElem?_empty
  have hat {s : ℕ} (hs : s < n) : slots[UInt64.ofNat s]? = some s :=
    (hget _ s).mpr (.inr ⟨s, by simp [hs], (Nat.zero_add s).symm⟩)
  refine ⟨_, by rw [Graph.beginRestore, hslots]; rfl, ?_, ?_⟩
  · rw [hat (by omega)]
    rfl
  · rw [hat hmany]
    rfl

/-- A block that is too small, and two ids with one slot of 32 bits in a file of more than `2 ^ 32` nodes. -/
theorem sizes_and_slots_wrap :
    (nodeCount wide oneOnTheLine = 1 ∧ load wide (fun _ => 0) (some oneOnTheLine) = .crash) ∧
    ∃ r, (new line fun _ => 0).beginRestore ((List.range (2 ^ 32 + 1)).map UInt64.ofNat) = some r ∧
      r.graph.slots[UInt64.ofNat 0]?.map UInt32.ofNat = some 0 ∧
      r.graph.slots[UInt64.ofNat (2 ^ 32)]?.map UInt32.ofNat = some 0 :=
  ⟨⟨rfl, wide_crashes _⟩, two_ids_one_slot _ (Nat.lt_succ_self _) (by decide)⟩

end Safe

end NuclaDB.Segment.Checked
