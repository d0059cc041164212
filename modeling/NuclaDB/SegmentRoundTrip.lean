import Mathlib.Algebra.BigOperators.Group.List.Basic
import NuclaDB.HnswExact
import NuclaDB.HnswLevels
import NuclaDB.SegmentFormat

/-!
# Loading what was saved

The readers read what the writers write, as long as every count fits its field. A node with
more lists than layers makes a file that cannot be loaded.
-/

namespace NuclaDB.Segment
open LittleEndian Hnsw Cursor List
open Cursor (Reads)
open Decoder (cursor_bind cursor_pure cursor_failIf)
open StampedMarks (Apart apart_of_length)

theorem int32_ofNat {l : ℕ} (h : l ≤ maxSnapshotLevel) : int32 (UInt32.ofNat l) = l := by
  have hall : ∀ l < 65, int32 (UInt32.ofNat l) = l := by decide
  exact hall l (Nat.lt_succ_of_le h)

section Nodes
variable {ids : List UInt64}

structure Sized (nd : NodeState) : Prop where
  vector : nd.vector.length < 2 ^ 32
  level : nd.level ≤ maxSnapshotLevel
  lists : nd.neighbors.length < 2 ^ 32
  counts : ∀ ids ∈ nd.neighbors, ids.length < 2 ^ 32

structure Fits (nd : NodeState) : Prop extends Sized nd where
  layers : nd.neighbors.length = nd.level + 1

theorem reads_float32Slice {v : Vec} (hv : v.length < 2 ^ 32) :
    Reads (float32Slice (UInt32.ofNat v.length)).cursor (v.flatMap putUint32) v := by
  have hlen : (v.flatMap putUint32).length = v.length * 4 := by
    simp [length_flatMap]
  have h := Reads.many putUint32 id fun x (_ : x ∈ v) => reads_uint32 short x
  rw [map_id] at h
  simp only [float32Slice, Decoder.uint32s, Decoder.words, UInt32.toNat_ofNat_of_lt' hv]
  exact h.need_bind hlen.ge

theorem reads_uint64Slice (hids : ids.length < 2 ^ 32) :
    Reads (uint64Slice (UInt32.ofNat ids.length)).cursor (ids.flatMap putUint64) ids := by
  have hlen : (ids.flatMap putUint64).length = ids.length * 8 := by
    simp [length_flatMap]
  have h := Reads.many putUint64 id fun x (_ : x ∈ ids) => reads_uint64 short x
  rw [map_id] at h
  simp only [uint64Slice, Decoder.uint64s, Decoder.words, UInt32.toNat_ofNat_of_lt' hids]
  exact h.need_bind hlen.ge

theorem reads_layer (hids : ids.length < 2 ^ 32) : Reads readLayer.cursor (writeLayer ids) ids :=
  (reads_uint32 short _).bind (reads_uint64Slice hids)

theorem Fits.reads_node {nd : NodeState} (hf : Fits nd) : Reads readNode.cursor (writeNode nd) nd := by
  have hlevel := int32_ofNat hf.level
  have hmany := Reads.many writeLayer id fun ids hids => reads_layer (hf.counts ids hids)
  have hdeleted : ((if nd.deleted then 1 else 0 : UInt8) == 1) = nd.deleted := by
    cases nd.deleted <;> rfl
  simp only [writeNode, append_assoc, readNode, cursor_bind]
  refine (reads_uint64 short _).bind ?_
  refine (reads_uint32 short _).bind ?_
  refine (reads_byte short _).bind ?_
  refine Reads.failIf_bind ?_ ?_
  · cases nd.deleted <;> decide
  refine (reads_uint32 short _).bind ?_
  refine (reads_float32Slice hf.vector).bind ?_
  refine (reads_uint32 short _).bind ?_
  refine Reads.failIf_bind ?_ ?_
  · have := hf.level
    simp only [hlevel, Int.toNat_natCast, hf.layers, not_true, or_false, ne_eq, not_or, not_lt]
    omega
  · rw [UInt32.toNat_ofNat_of_lt' hf.lists, hlevel, hdeleted]
    simpa [cursor_pure, Decoder.many] using hmany.map

theorem Sized.layers_of_read {nd nd' : NodeState} (hs : Sized nd) {rest left : Bytes}
    (h : readNode.cursor (writeNode nd ++ rest) = .ok (nd', left)) :
    nd.neighbors.length = nd.level + 1 := by
  simp only [writeNode, append_assoc, readNode, cursor_bind, cursor_failIf, bind_eq_ok,
    failIf_eq_ok] at h
  obtain ⟨_, _, h₁, _, _, h₂, _, _, h₃, _, _, ⟨-, h₄⟩, _, _, h₅, _, _, h₆, _, _, h₇, _, _, ⟨hok, -⟩, -⟩ := h
  obtain ⟨-, rfl⟩ := (reads_uint64 short _).unique h₁
  obtain ⟨rfl, rfl⟩ := (reads_uint32 short _).unique h₂
  obtain ⟨-, rfl⟩ := (reads_byte short _).unique h₃
  obtain ⟨-, rfl⟩ := Prod.mk.inj h₄
  obtain ⟨rfl, rfl⟩ := (reads_uint32 short _).unique h₅
  obtain ⟨-, rfl⟩ := (reads_float32Slice hs.vector).unique h₆
  obtain ⟨rfl, -⟩ := (reads_uint32 short _).unique h₇
  have hlevel := hs.level
  simp only [int32_ofNat hs.level, Int.toNat_natCast, not_or, not_not] at hok
  have hcount := congrArg UInt32.toNat hok.2.2
  rwa [UInt32.toNat_ofNat_of_lt' hs.lists, UInt32.toNat_ofNat_of_lt'
    (lt_of_le_of_lt (Nat.succ_le_succ hlevel) (by decide))] at hcount

theorem skip_layer (hids : ids.length < 2 ^ 32) : Reads skipLayer.cursor (writeLayer ids) () := by
  refine (reads_uint32 short _).bind (reads_skip short _ ?_)
  simp [length_flatMap, UInt32.toNat_ofNat_of_lt' hids]

theorem Fits.skip_node {nd : NodeState} (hf : Fits nd) :
    Reads skipNode.cursor (writeNode nd) (nd.id, UInt32.ofNat nd.vector.length) := by
  have hmany := Reads.many writeLayer (fun _ => ()) fun ids hids => skip_layer (hf.counts ids hids)
  simp only [writeNode, append_assoc, skipNode, cursor_bind]
  refine (reads_uint64 short _).bind ?_
  rw [← append_assoc (putUint32 _) [_]]
  refine (reads_skip short _ (by simp)).bind ?_
  refine (reads_uint32 short _).bind ?_
  refine (reads_skip short _ ?_).bind ?_
  · simp [length_flatMap, UInt32.toNat_ofNat_of_lt' hf.vector]
  refine (reads_uint32 short _).bind ?_
  rw [UInt32.toNat_ofNat_of_lt' hf.lists]
  refine Reads.failIf_bind ?_ hmany.map
  have := hf.level
  rw [hf.layers]
  omega

theorem reads_mapError {α : Type} {p : Decoder LoadError α} {bytes : Bytes} {a : α}
    (h : Reads p.cursor bytes a) (f : LoadError → LoadError) : Reads (p.mapError f).cursor bytes a := by
  intro rest
  simp only [Decoder.mapError, h rest]
  rfl

theorem skip_nodes {nodes : List NodeState} {dim : ℕ} (hf : ∀ nd ∈ nodes, Fits nd)
    (hdim : ∀ nd ∈ nodes, nd.vector.length = dim) (i : ℕ) :
    Reads (skipNodes dim nodes.length i).cursor (nodes.flatMap writeNode) (nodes.map (·.id)) := by
  induction nodes generalizing i with
  | nil => exact .pure _
  | cons nd nodes ih =>
    obtain ⟨hnd, hnodes⟩ := forall_mem_cons.mp hf
    obtain ⟨hlen, hlens⟩ := forall_mem_cons.mp hdim
    refine (reads_mapError hnd.skip_node (.decoding i)).bind (Reads.failIf_bind ?_ (ih hnodes hlens (i + 1)).map)
    rw [UInt32.toNat_ofNat_of_lt' hnd.vector, hlen]
    exact not_not.mpr rfl

variable {D : Type} [Hnsw.Dist D]

theorem restoreNodes_eq_ok {nodes : List NodeState} (hf : ∀ nd ∈ nodes, Fits nd)
    {r r' : Restore D} {rest left : Bytes} :
    restoreNodes nodes.length r (nodes.flatMap writeNode ++ rest) = .ok (r', left) ↔
      nodes.foldlM Restore.restoreNode r = some r' ∧ left = rest := by
  induction nodes generalizing r with
  | nil =>
    rw [length_nil, restoreNodes, pure_eq_ok, Prod.mk.injEq, @eq_comm _ left]
    simp
  | cons nd nodes ih =>
    obtain ⟨hnd, hnodes⟩ := forall_mem_cons.mp hf
    have hread := hnd.reads_node (nodes.flatMap writeNode ++ rest)
    simp only [length_cons, restoreNodes, flatMap_cons, append_assoc,
      bind_eq_ok, hread, Except.ok.injEq, Prod.mk.injEq, exists_and_left, exists_eq_left',
      and_assoc, foldlM_cons]
    cases hstep : r.restoreNode nd with
    | none => simp [throw, throwThe, MonadExceptOf.throw, StateT.lift, bind, Except.bind]
    | some r₁ => exact ih hnodes

theorem layers_of_restoreNodes {nodes : List NodeState} (hs : ∀ nd ∈ nodes, Sized nd)
    {r r' : Restore D} {rest left : Bytes}
    (h : restoreNodes nodes.length r (nodes.flatMap writeNode ++ rest) = .ok (r', left)) :
    ∀ nd ∈ nodes, nd.neighbors.length = nd.level + 1 := by
  induction nodes generalizing r with
  | nil => simp
  | cons nd nodes ih =>
    obtain ⟨hnd, hnodes⟩ := forall_mem_cons.mp hs
    simp only [length_cons, restoreNodes, flatMap_cons, append_assoc, bind_eq_ok] at h
    obtain ⟨nd', left', hread, h⟩ := h
    have hlayers := hnd.layers_of_read hread
    obtain ⟨rfl, rfl⟩ := (Fits.mk hnd hlayers).reads_node.unique hread
    cases hstep : r.restoreNode nd' with
    | none => simp [hstep, throw, throwThe, MonadExceptOf.throw, StateT.lift, bind, Except.bind] at h
    | some r₁ =>
      rw [hstep] at h
      exact forall_mem_cons.mpr ⟨hlayers, ih hnodes h⟩

end Nodes

section File
variable {D : Type} [Hnsw.Dist D] {cfg : Config D} {size maxLevel : ℕ} {bytes left : Bytes}
variable {hasEntry : Bool} {rng : ℕ → ℕ}

structure Headed (cfg : Config D) (count maxLevel : ℕ) (hasEntry : Bool) : Prop where
  dim_lt : cfg.dim < 2 ^ 32
  name_lt : (nameBytes (metricName cfg)).length < 256
  count_lt : count < 2 ^ 64
  level_le : maxLevel ≤ maxSnapshotLevel
  entry_eq : hasEntry = decide (0 < count)

omit [Hnsw.Dist D] in
theorem Headed.reads_config {count : ℕ} (hd : Headed cfg count maxLevel hasEntry) :
    Reads (readConfig cfg).cursor (putUint32 (UInt32.ofNat cfg.dim) ++
      ([UInt8.ofNat (nameBytes (metricName cfg)).length] ++ nameBytes (metricName cfg))) () := by
  have hlen : (UInt8.ofNat (nameBytes (metricName cfg)).length).toNat =
      (nameBytes (metricName cfg)).length := by
    rw [UInt8.toNat_ofNat']
    exact Nat.mod_eq_of_lt hd.name_lt
  simp only [readConfig, cursor_bind]
  refine (reads_uint32 short _).bind ((reads_byte short _).bind ?_)
  rw [hlen]
  refine (reads_take short _).bind_nil (reads_failIf _ ?_)
  simp only [UInt32.toNat_ofNat_of_lt' hd.dim_lt, ne_eq, not_true, or_self, not_false_eq_true]

omit [Hnsw.Dist D] in
theorem Headed.reads_header {count : ℕ} (hd : Headed cfg count maxLevel hasEntry)
    (hsize : 21 * count ≤ size) (entryPoint walSeq : UInt64) :
    Reads (readHeader cfg true size).cursor (writeHeader cfg count entryPoint maxLevel hasEntry walSeq)
      ⟨walSeq, hasEntry, entryPoint, maxLevel, count⟩ := by
  have hcount : (UInt64.ofNat count).toNat = count := by
    rw [UInt64.toNat_ofNat']
    exact Nat.mod_eq_of_lt hd.count_lt
  have hbyte : ((if hasEntry then 1 else 0 : UInt8) == 1) = hasEntry := by
    cases hasEntry <;> rfl
  simp only [writeHeader, append_assoc, readHeader, if_true, cursor_bind]
  refine (reads_uint64 short _).bind ?_
  refine (reads_byte short _).bind ?_
  refine (reads_uint64 short _).bind ?_
  refine (reads_uint32 short _).bind ?_
  refine (reads_uint64 short _).bind ?_
  rw [hcount, int32_ofNat hd.level_le, hbyte, Int.toNat_natCast]
  refine Reads.failIf_bind ?_ (hd.reads_config.bind_nil (Reads.failIf_bind ?_ (Reads.pure _)))
  · rw [not_or]
    exact ⟨by cases hasEntry <;> decide, by omega⟩
  · have := hd.level_le
    simp only [← hd.entry_eq, ne_eq, not_true, or_false, not_or, not_lt]
    omega

theorem length_writeNode (nd : NodeState) : 21 ≤ (writeNode nd).length := by
  simp [writeNode]
  omega

theorem length_writeNodes (nodes : List NodeState) :
    21 * nodes.length ≤ (nodes.flatMap writeNode).length := by
  induction nodes with
  | nil => simp
  | cons nd nodes ih =>
    have := length_writeNode nd
    simp only [flatMap_cons, length_append, length_cons]
    omega

omit [Hnsw.Dist D] in
theorem writeSnapshot_parts (cfg : Config D) (nodes : List NodeState) (entryPoint : UInt64) (maxLevel : ℕ)
    (hasEntry : Bool) (walSeq : UInt64) :
    let file := writeSnapshot cfg nodes entryPoint maxLevel hasEntry walSeq
    let body := magic ++ writeHeader cfg nodes.length entryPoint maxLevel hasEntry walSeq ++
      nodes.flatMap writeNode
    file.take 8 = magic ∧ file.take (file.length - 4) = body ∧
      file.drop (file.length - 4) = putUint32 (crc32ChecksumIEEE body) ∧ 12 ≤ file.length := by
  intro file body
  have hlen : 8 ≤ body.length := by simp [body, magic]
  have hfile : file = body ++ putUint32 (crc32ChecksumIEEE body) := rfl
  have hsplit : file.length - 4 = body.length := by simp [hfile]
  refine ⟨?_, ?_, ?_, by omega⟩
  · simp only [hfile, body, append_assoc]
    exact take_left' rfl
  · rw [hsplit]
    exact take_left
  · rw [hsplit]
    exact drop_left

theorem load_writeSnapshot (rng : ℕ → ℕ) (cfg' : Config D) (nodes : List NodeState)
    (entryPoint : UInt64) (maxLevel : ℕ) (hasEntry : Bool) (walSeq : UInt64) :
    load cfg rng (some (writeSnapshot cfg' nodes entryPoint maxLevel hasEntry walSeq)) =
      loadBody cfg rng true (magic ++ writeHeader cfg' nodes.length entryPoint maxLevel hasEntry
        walSeq ++ nodes.flatMap writeNode) := by
  obtain ⟨hmagic, hbody, hsum, hlen⟩ := writeSnapshot_parts cfg' nodes entryPoint maxLevel hasEntry walSeq
  simp only [load, Option.getD_some, hmagic, if_true, hbody, hsum, uint32_putUint32]
  rw [if_neg (by omega), if_neg (by omega), if_neg (by omega), if_neg (by simp)]

theorem loadBody_eq_ok {v2 : Bool} {body : Bytes} {g : Graph D} {seq : UInt64} :
    loadBody cfg rng v2 body = .ok (g, seq) ↔ ∃ header nodes ids r r' left,
      (readHeader cfg v2 body.length).cursor (body.drop 8) = .ok (header, nodes) ∧
      (skipNodes cfg.dim header.nodeCount 0).cursor nodes = .ok (ids, []) ∧
      (new cfg rng).beginRestore ids = some r ∧
      restoreNodes header.nodeCount r nodes = .ok (r', left) ∧
      r'.endRestore header.entryPoint header.maxLevel header.hasEntry = some g ∧
      seq = header.walSeq := by
  simp only [loadBody, except_bind_eq_ok]
  constructor
  · rintro ⟨⟨header, nodes⟩, hheader, ⟨ids, rest⟩, hids, h⟩
    split at h
    · exact absurd h (by simp [throw, throwThe, MonadExceptOf.throw, bind, Except.bind])
    · next hrest =>
      obtain rfl : rest = [] := not_not.mp hrest
      cases hr : (new cfg rng).beginRestore ids with
      | none => simp [hr, throw, throwThe, MonadExceptOf.throw] at h
      | some r =>
        simp only [hr, except_bind_eq_ok] at h
        obtain ⟨⟨r', left⟩, hr', h⟩ := h
        cases hg : r'.endRestore header.entryPoint header.maxLevel header.hasEntry with
        | none => simp [hg, throw, throwThe, MonadExceptOf.throw] at h
        | some g' =>
          simp only [hg, pure, Except.pure, Except.ok.injEq, Prod.mk.injEq] at h
          obtain ⟨rfl, rfl⟩ := h
          exact ⟨header, nodes, ids, r, r', left, hheader, hids, hr, hr', hg, rfl⟩
  · rintro ⟨header, nodes, ids, r, r', left, hheader, hids, hr, hr', hg, rfl⟩
    refine ⟨(header, nodes), hheader, (ids, []), hids, ?_⟩
    simp only [ne_eq, not_true, if_false, hr, except_bind_eq_ok]
    refine ⟨(r', left), hr', ?_⟩
    simp only [hg]
    rfl

structure Writable (cfg : Config D) (nodes : List NodeState) (maxLevel : ℕ) (hasEntry : Bool) :
    Prop extends Headed cfg nodes.length maxLevel hasEntry where
  fits : ∀ nd ∈ nodes, Fits nd
  dims : ∀ nd ∈ nodes, nd.vector.length = cfg.dim

omit [Hnsw.Dist D] in
theorem Headed.read_header {nodes : List NodeState} (hd : Headed cfg nodes.length maxLevel hasEntry)
    (entryPoint walSeq : UInt64) :
    let body := magic ++ writeHeader cfg nodes.length entryPoint maxLevel hasEntry walSeq ++
      nodes.flatMap writeNode
    (readHeader cfg true body.length).cursor (body.drop 8) =
      .ok (⟨walSeq, hasEntry, entryPoint, maxLevel, nodes.length⟩, nodes.flatMap writeNode) := by
  intro body
  have hsize : 21 * nodes.length ≤ body.length := by
    have := length_writeNodes nodes
    simp only [body, length_append]
    omega
  have hdrop : body.drop 8 =
      writeHeader cfg nodes.length entryPoint maxLevel hasEntry walSeq ++ nodes.flatMap writeNode := by
    simp only [body, append_assoc]
    exact drop_left' rfl
  rw [hdrop]
  exact hd.reads_header hsize entryPoint walSeq (nodes.flatMap writeNode)

theorem Writable.load_eq_ok {nodes : List NodeState}
    (hn : Writable cfg nodes maxLevel hasEntry) {entryPoint walSeq seq : UInt64}
    {g : Graph D} :
    load cfg rng (some (writeSnapshot cfg nodes entryPoint maxLevel hasEntry walSeq)) = .ok (g, seq) ↔
      ∃ r r', (new cfg rng).beginRestore (nodes.map (·.id)) = some r ∧
        nodes.foldlM Restore.restoreNode r = some r' ∧
        r'.endRestore entryPoint maxLevel hasEntry = some g ∧ seq = walSeq := by
  have hskip := skip_nodes hn.fits hn.dims 0 []
  rw [append_nil] at hskip
  have hrestore : ∀ (r r' : Restore D) left,
      restoreNodes nodes.length r (nodes.flatMap writeNode) = .ok (r', left) ↔
        nodes.foldlM Restore.restoreNode r = some r' ∧ left = [] := fun r r' left => by
    rw [← restoreNodes_eq_ok hn.fits, append_nil]
  rw [load_writeSnapshot, loadBody_eq_ok, hn.read_header]
  constructor
  · rintro ⟨header, left, ids, r, r', rest, hread, hids, hbegin, hall, hend, rfl⟩
    obtain ⟨rfl, rfl⟩ := Prod.mk.inj (Except.ok.inj hread)
    obtain ⟨rfl, -⟩ := Prod.mk.inj (Except.ok.inj (hskip.symm.trans hids))
    exact ⟨r, r', hbegin, ((hrestore r r' rest).mp hall).1, hend, rfl⟩
  · rintro ⟨r, r', hbegin, hall, hend, rfl⟩
    exact ⟨_, _, _, r, r', [], rfl, hskip, hbegin, (hrestore r r' []).mpr ⟨hall, rfl⟩, hend, rfl⟩

theorem readNode_level {nd : NodeState}
    (h : readNode.cursor bytes = .ok (nd, left)) : nd.level ≤ maxSnapshotLevel := by
  simp only [readNode, cursor_bind, cursor_failIf, cursor_pure, bind_eq_ok, failIf_eq_ok, pure_eq_ok] at h
  obtain ⟨_, _, -, _, _, -, _, _, -, _, _, -, _, _, -, _, _, -, _, _, -, _, _, ⟨hok, -⟩, _, _, -,
    heq⟩ := h
  rw [Prod.mk.injEq] at heq
  rw [← heq.1]
  simp only [not_or, not_lt] at hok
  simp only [maxSnapshotLevel] at hok ⊢
  omega

theorem restoreNodes_induction {P : Restore D → Prop}
    (hstep : ∀ {r nd r'}, P r → nd.level ≤ maxSnapshotLevel → r.restoreNode nd = some r' → P r')
    {n : ℕ} {r r' : Restore D} (hr : P r)
    (h : restoreNodes n r bytes = .ok (r', left)) : P r' := by
  induction n generalizing r bytes with
  | zero =>
    simp only [restoreNodes, pure_eq_ok, Prod.mk.injEq] at h
    exact h.1 ▸ hr
  | succ n ih =>
    simp only [restoreNodes, bind_eq_ok] at h
    obtain ⟨nd, rest, hnd, h⟩ := h
    cases hnode : r.restoreNode nd with
    | none =>
      simp [hnode, throw, throwThe, MonadExceptOf.throw, StateT.lift, bind, Except.bind] at h
    | some r₁ =>
      simp only [hnode] at h
      exact ih (hstep hr (readNode_level hnd) hnode) h

omit [Hnsw.Dist D] in
theorem readHeader_dim {header : Header}
    (h : (readHeader cfg true size).cursor bytes = .ok (header, left)) : cfg.dim < 2 ^ 32 := by
  simp only [readHeader, if_true, cursor_bind, bind_eq_ok] at h
  obtain ⟨_, _, -, _, _, -, _, _, -, _, _, -, _, _, -, _, _, -, _, _, hconfig, -⟩ := h
  simp only [readConfig, cursor_bind, cursor_failIf, bind_eq_ok, failIf_eq_ok] at hconfig
  obtain ⟨dim, _, -, _, _, -, _, _, -, hok, -⟩ := hconfig
  have hdim : dim.toNat = cfg.dim := by tauto
  exact hdim ▸ dim.toNat_lt

omit [Hnsw.Dist D] in
theorem readHeader_walSeq {walSeq : UInt64} {header : Header}
    (h : (readHeader cfg true size).cursor (putUint64 walSeq ++ bytes) = .ok (header, left)) :
    header.walSeq = walSeq := by
  simp only [readHeader, if_true, cursor_bind, bind_eq_ok] at h
  obtain ⟨seq, rest, hseq, _, _, -, _, _, -, _, _, -, _, _, -, _, _, -, _, _, -, _, _, -, hok⟩ := h
  have hread : (Decoder.uint64 short).cursor _ = _ := reads_uint64 short walSeq bytes
  rw [hread, Except.ok.injEq, Prod.mk.injEq] at hseq
  simp only [cursor_pure, pure_eq_ok, Prod.mk.injEq] at hok
  rw [← hok.1, hseq.1]

theorem metricName_withDefaults (cfg : Config D) : metricName cfg.withDefaults = metricName cfg := by
  cases hm : cfg.metric <;> simp [metricName, Config.withDefaults, hm]

theorem writeHeader_withDefaults (cfg : Config D) (count : ℕ) (entryPoint : UInt64) (maxLevel : ℕ)
    (hasEntry : Bool) (walSeq : UInt64) :
    writeHeader cfg.withDefaults count entryPoint maxLevel hasEntry walSeq =
      writeHeader cfg count entryPoint maxLevel hasEntry walSeq := by
  simp only [writeHeader, metricName_withDefaults]
  rfl

end File

section Graphs
variable {D : Type} [Hnsw.Dist D] {g : Graph D} {cfg : Config D} {rng : ℕ → ℕ}

omit [Hnsw.Dist D] in
theorem links_length_lt (hw : g.WF) {slot : ℕ} (hslot : slot < g.nodes.length) (l : ℕ) :
    (g.links slot l).length < g.nodes.length := by
  have hlist := hw.shape.linked.list slot l
  have hsub : slot :: g.links slot l ⊆ List.range g.nodes.length := by
    intro y hy
    rcases mem_cons.mp hy with rfl | hy
    · exact mem_range.mpr hslot
    · exact mem_range.mpr (hlist.lt y hy)
  have hnodup := nodup_cons.mpr ⟨hlist.ne, hlist.nodup⟩
  simpa [Nat.succ_le_iff] using (subperm_of_subset hnodup hsub).length_le

omit [Hnsw.Dist D] in
theorem nodes_le_listCount (hl : g.Layered) : g.nodes.length ≤ g.listCount := by
  have hpos : ∀ n ∈ g.nodes.map (·.neighbors.length), 1 ≤ n := fun n hn => by
    obtain ⟨nd, hnd, rfl⟩ := mem_map.mp hn
    have := (hl nd hnd).2.1
    omega
  simpa [Graph.listCount] using length_le_sum_of_one_le _ hpos

section
variable (hw : g.WF) (hcfg : g.cfg = cfg.withDefaults) (hdim : cfg.dim < 2 ^ 32)
  (hcount : g.nodes.length ≤ 2 ^ 32) (hname : (nameBytes (metricName cfg)).length < 256)
include hw

include hcfg in
theorem snapshot_dims {ns : NodeState} (hns : ns ∈ g.snapshot.1) : ns.vector.length = cfg.dim := by
  obtain ⟨k, hk, rfl⟩ := mem_mapIdx.mp hns
  have hmem : k < g.data.length := hw.shape.slotted.data_length ▸ hk
  have hdims := hw.shape.slotted.dims _ (getElem_mem hmem)
  rw [hcfg] at hdims
  simp only [Graph.nodeState, Graph.vec, getD_eq_getElem?_getD, getElem?_eq_getElem hmem,
    Option.getD_some, hdims]
  rfl

include hdim hcount

include hcfg in
theorem snapshot_sized : ∀ ns ∈ g.snapshot.1, Sized ns := by
  intro ns hns
  have hvec := snapshot_dims hw hcfg hns
  obtain ⟨k, hk, rfl⟩ := mem_mapIdx.mp hns
  refine ⟨hvec ▸ hdim, hw.shape.slotted.level_le _ (mem_map_of_mem (getElem_mem hk)), ?_, ?_⟩
  · have := (hw.shape.layered _ (getElem_mem hk)).2.2
    simp only [Graph.nodeState, length_map, length_range]
    omega
  · intro ids hids
    obtain ⟨l, -, rfl⟩ := mem_map.mp hids
    have := links_length_lt hw hk l
    rw [length_map]
    omega

include hname

omit [Hnsw.Dist D] in
theorem snapshot_headed : Headed cfg g.snapshot.1.length g.snapshot.2.2.1 g.snapshot.2.2.2 := by
  have hlen : g.snapshot.1.length = g.nodes.length := by simp [Graph.snapshot]
  refine ⟨hdim, hname, by omega, hw.maxLevel_le, ?_⟩
  rw [hlen, Bool.eq_iff_iff]
  simpa [length_pos_iff, Graph.snapshot] using hw.hasEntry_iff

include hcfg in
theorem snapshot_writable (hlev : g.Leveled) :
    Writable cfg g.snapshot.1 g.snapshot.2.2.1 g.snapshot.2.2.2 := by
  refine ⟨snapshot_headed hw hdim hcount hname, fun ns hns => ?_, fun ns => snapshot_dims hw hcfg⟩
  refine ⟨snapshot_sized hw hcfg hdim hcount ns hns, ?_⟩
  obtain ⟨k, hk, rfl⟩ := mem_mapIdx.mp hns
  simpa [Graph.nodeState] using hlev _ (getElem_mem hk)

end

section
variable (hw : g.WF) (hlev : g.Leveled) (hset : (new cfg rng).settings = g.settings)
  (hunit : g.unit = false) (hname : (nameBytes (metricName cfg)).length < 256)
  (hdim : cfg.dim < 2 ^ 32)
include hw hlev hset hunit hname hdim

theorem load_save_cases
    (hcount : g.nodes.length ≤ 2 ^ 32) (hentry : g.nodes = [] → g.entryPoint = 0)
    (walSeq : UInt64) :
    (Apart [] (g.snapshot.1.flatMap (·.neighbors)) ∧
      load cfg rng (some (save g walSeq)) = .ok (g.reseed rng, walSeq)) ∨
    (¬Apart [] (g.snapshot.1.flatMap (·.neighbors)) ∧
      ∀ h seq, load cfg rng (some (save g walSeq)) ≠ .ok (h, seq)) := by
  have hcfg : g.cfg = cfg.withDefaults := (congrArg (·.1) hset).symm
  have hn := snapshot_writable hw hcfg hdim hcount hname hlev
  have hids : g.snapshot.1.map (·.id) = g.nodes.map (·.id) := by
    apply ext_getElem?
    intro k
    simp [Graph.snapshot, Graph.nodeState, Function.comp_def]
  have hsave : save g walSeq = writeSnapshot cfg g.snapshot.1 g.snapshot.2.1 g.snapshot.2.2.1
      g.snapshot.2.2.2 walSeq := by
    simp only [save, writeSnapshot, hcfg, writeHeader_withDefaults]
  obtain ⟨r, hbegin, hcases⟩ := hw.restore_snapshot hlev hset hunit hentry
  rw [← hids] at hbegin
  rcases hcases with ⟨hapart, r', hall, hend⟩ | ⟨hnot, hnone⟩
  · refine .inl ⟨hapart, ?_⟩
    rw [hsave]
    exact hn.load_eq_ok.mpr ⟨r, r', hbegin, hall, hend, rfl⟩
  · refine .inr ⟨hnot, fun h seq hload => ?_⟩
    rw [hsave] at hload
    obtain ⟨r₁, r', hbegin', hall, -⟩ := hn.load_eq_ok.mp hload
    obtain rfl : r = r₁ := Option.some.inj (hbegin.symm.trans hbegin')
    exact absurd (hnone.symm.trans hall) (by simp)

theorem load_save
    (hcount : g.listCount < 2 ^ 32) (hentry : g.nodes = [] → g.entryPoint = 0) (walSeq : UInt64) :
    load cfg rng (some (save g walSeq)) = .ok (g.reseed rng, walSeq) := by
  have hnodes := nodes_le_listCount hw.shape.layered
  have hapart : Apart [] (g.snapshot.1.flatMap (·.neighbors)) :=
    apart_of_length (by rw [g.length_snapshot_lists]; simpa using hcount)
  rcases load_save_cases hw hlev hset hunit hname hdim (hnodes.trans hcount.le) hentry walSeq with
    ⟨-, hload⟩ | ⟨hnot, -⟩
  · exact hload
  · exact absurd hapart hnot

end

theorem leveled_of_load (hw : g.WF) (hcfg : g.cfg = cfg.withDefaults)
    (hname : (nameBytes (metricName cfg)).length < 256) (hcount : g.nodes.length ≤ 2 ^ 32)
    {walSeq seq : UInt64} {h : Graph D} (hload : load cfg rng (some (save g walSeq)) = .ok (h, seq)) :
    cfg.dim < 2 ^ 32 ∧ g.Leveled := by
  simp only [save, hcfg] at hload
  rw [load_writeSnapshot, writeHeader_withDefaults] at hload
  obtain ⟨header, rest, ids, r, r', left, hheader, -, -, hall, -⟩ := loadBody_eq_ok.mp hload
  have hdim := readHeader_dim hheader
  rw [(snapshot_headed hw hdim hcount hname).read_header] at hheader
  obtain ⟨rfl, rfl⟩ := Prod.mk.inj (Except.ok.inj hheader)
  rw [← append_nil (flatMap _ _)] at hall
  have hlayers := layers_of_restoreNodes (snapshot_sized hw hcfg hdim hcount) hall
  refine ⟨hdim, fun nd hnd => ?_⟩
  obtain ⟨k, hk, rfl⟩ := mem_iff_getElem.mp hnd
  simpa [Graph.nodeState] using hlayers _ (mem_mapIdx.mpr ⟨k, hk, rfl⟩)

theorem seq_of_load {walSeq seq : UInt64} {h : Graph D}
    (hload : load cfg rng (some (save g walSeq)) = .ok (h, seq)) : seq = walSeq := by
  simp only [save] at hload
  rw [load_writeSnapshot] at hload
  obtain ⟨header, nodes, _, _, _, _, hheader, -, -, -, -, rfl⟩ := loadBody_eq_ok.mp hload
  simp only [magic, writeHeader, append_assoc] at hheader
  exact readHeader_walSeq hheader

theorem unit_of_metricName (rng : ℕ → ℕ) (hmetric : metricName cfg ≠ "cosine") :
    (new cfg rng).unit = false := by
  have hname : (new cfg rng).unit = (metricName cfg == "cosine") := by
    cases hm : cfg.metric <;> simp [new, metricName, Config.withDefaults, hm]
  rw [hname, beq_eq_false_iff_ne]
  exact hmetric

/-- A graph that a run reaches is loaded back from its snapshot file exactly when the dimension
fits its field and every node has one list for each of its layers, and so it is while no step links
a node in a layer above its level. -/
theorem snapshot_round_trip (cfg : Config D) (rng rng' : ℕ → ℕ) (ops : List Op) (walSeq : UInt64)
    (hmetric : metricName cfg = "l2" ∨ metricName cfg = "dot")
    (hcount : (run (new cfg rng) ops).listCount < 2 ^ 32) :
    (load cfg rng' (some (save (run (new cfg rng) ops) walSeq)) =
        .ok ((run (new cfg rng) ops).reseed rng', walSeq) ↔
      cfg.dim < 2 ^ 32 ∧ ∀ nd ∈ (run (new cfg rng) ops).nodes, nd.neighbors.length = nd.level + 1) ∧
    (cfg.dim < 2 ^ 32 → (∀ p ∈ runTrace (new cfg rng) ops, p.2.staysInLayers p.1 = true) →
      load cfg rng' (some (save (run (new cfg rng) ops) walSeq)) =
        .ok ((run (new cfg rng) ops).reseed rng', walSeq)) := by
  have hw := run_wf cfg rng ops
  have hset := run_settings cfg rng ops
  have hentry := run_entryPoint cfg rng ops
  have hunit := unit_of_metricName rng (by rcases hmetric with h | h <;> rw [h] <;> decide)
  have hname : (nameBytes (metricName cfg)).length < 256 := by
    rcases hmetric with h | h <;> rw [h] <;> decide
  have hunit' : (run (new cfg rng) ops).unit = false := (congrArg (·.2.1) hset).trans hunit
  have hset' : (new cfg rng').settings = (new cfg rng).settings := rfl
  have hback : cfg.dim < 2 ^ 32 → (run (new cfg rng) ops).Leveled →
      load cfg rng' (some (save (run (new cfg rng) ops) walSeq)) =
        .ok ((run (new cfg rng) ops).reseed rng', walSeq) := fun hdim hlev =>
    load_save hw hlev (hset'.trans hset.symm) hunit' hname hdim hcount hentry walSeq
  refine ⟨⟨fun hload => ?_, fun ⟨hdim, hlev⟩ => hback hdim hlev⟩, fun hdim hstays => ?_⟩
  · exact leveled_of_load hw ((congrArg (·.1) hset).trans rfl) hname
      ((nodes_le_listCount hw.shape.layered).trans hcount.le) hload
  · refine hback hdim (run_induction Step.keeps_leveled (Graph.new_wf cfg rng) ?_ hstays).2
    intro nd hnd
    exact absurd hnd not_mem_nil

end Graphs

theorem three_on_a_line_load_back : load line (fun _ => 0) (some (save (run (new line fun n => n % 2)
      [.insert 1 [0xC1200000], .insert 2 [0], .insert 3 [0x41200000], .delete 2]) 7)) =
      .ok ((run (new line fun n => n % 2)
        [.insert 1 [0xC1200000], .insert 2 [0], .insert 3 [0x41200000], .delete 2]).reseed
          fun _ => 0, 7) := by
  refine (snapshot_round_trip line (fun n => n % 2) (fun _ => 0) _ 7 (.inl rfl) ?_).2 ?_ ?_ <;>
    decide +kernel

/-- A vector inserted at level 1 and again at level 0 stays the entry point of layer 1, so that the
next vector of level 1 links it there: it then has two lists at level 0, and the snapshot is
refused. -/
theorem lowered_entry_point_blocks_load :
    (load line (fun _ => 0) (some (save (run (new line fun n => if n = 1 then 0 else 1)
      [.insert 1 [0], .insert 1 [0], .insert 2 [0x41200000]]) 3))).map (fun _ => ()) =
      .error .invalidFormat := by
  simp only [save, load_writeSnapshot]
  decide +kernel

end NuclaDB.Segment
