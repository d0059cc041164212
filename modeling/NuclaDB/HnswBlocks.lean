import NuclaDB.BlockRows
import NuclaDB.HnswGraph

/-!
# Vectors and layer-0 links in blocks

`data` and `links0` are in blocks of `1 << blockShift` slots, a list as its length in 32 bits
and then room for `2M` slots. Sizes are computed in 64 bits. An index out of range, a slice past
its capacity and a block that cannot be allocated have no value.
-/

namespace NuclaDB.Hnsw

open BlockRows List Option Nat

def bitsLen (x : ℕ) : ℕ := if x = 0 then 0 else x.log2 + 1

structure Blocks where
  dim : ℕ
  m : ℕ
  nodes : ℕ
  data : List (Slice UInt32)
  links0 : List (Slice UInt32)

namespace Blocks
variable {slot : UInt32}

def new (dim m : ℕ) : Blocks := ⟨dim, m, 0, [], []⟩

def blockShift (s : Blocks) : ℕ := bitsLen (max ((8 <<< 20) / (4 * max s.dim 1)) 1) - 1

/-- An `int` by its 64 bits: a negative one is `2 ^ 63` or more. -/
def int (n : ℕ) : ℕ := n % 2 ^ 64

def linkStride (s : Blocks) : ℕ := int (1 + 2 * s.m)

def vec (s : Blocks) (slot : UInt32) : Option Vec := do
  let b ← s.data[slot.toNat >>> s.blockShift]?
  let i := (slot.toNat &&& (1 <<< s.blockShift - 1)) * s.dim
  b.window i (i + s.dim) (i + s.dim)

/-- `float32s` and `uint32s`: the block must have a first byte, and its size in bytes be an `int`. -/
def cells (n : ℕ) : Option (Slice UInt32) := if 0 < n ∧ n < 2 ^ 61 then some (Slice.empty n 0) else none

def openBlock (s : Blocks) (bi : ℕ) : Option Blocks :=
  if bi = s.data.length then do
    let per := 1 <<< s.blockShift
    let d ← cells (int (per * s.dim))
    let b ← cells (int (per * s.linkStride))
    return { s with data := s.data ++ [d], links0 := s.links0 ++ [b] }
  else some s

def appendVec (s : Blocks) (vec : Vec) : Option Blocks := do
  let bi := s.nodes >>> s.blockShift
  let s ← s.openBlock bi
  let d ← s.data[bi]?
  let d ← d.append vec
  let b ← s.links0[bi]?
  let b ← b.reslice (b.len + s.linkStride)
  return { s with data := s.data.set bi d, links0 := s.links0.set bi b }

def links (s : Blocks) (slot : UInt32) : Option (List UInt32) := do
  let b ← s.links0[slot.toNat >>> s.blockShift]?
  let i := (slot.toNat &&& (1 <<< s.blockShift - 1)) * s.linkStride
  let count ← b.get i
  b.window (i + 1) (i + 1 + count.toNat) (i + s.linkStride)

def setLinks (s : Blocks) (slot : UInt32) (ids : List UInt32) : Option Blocks := do
  let bi := slot.toNat >>> s.blockShift
  let b ← s.links0[bi]?
  let i := (slot.toNat &&& (1 <<< s.blockShift - 1)) * s.linkStride
  let (copied, b) ← b.copyAt (i + 1) (i + s.linkStride) ids
  let b ← b.put i (UInt32.ofNat copied)
  return { s with links0 := s.links0.set bi b }

def copyVec (s : Blocks) (slot : UInt32) (vec : Vec) : Option Blocks := do
  let bi := slot.toNat >>> s.blockShift
  let b ← s.data[bi]?
  let i := (slot.toNat &&& (1 <<< s.blockShift - 1)) * s.dim
  let (_, b) ← b.copyAt i (i + s.dim) vec
  return { s with data := s.data.set bi b }

inductive Event
  | append (vec : Vec)
  | overwrite (slot : UInt32) (vec : Vec)
  | setLinks (slot : UInt32) (ids : List UInt32)

def step (s : Blocks) : Event → Option Blocks
  | .append vec => do
    let s ← s.appendVec vec
    return { s with nodes := s.nodes + 1 }
  | .overwrite slot vec => s.copyVec slot vec
  | .setLinks slot ids => s.setLinks slot ids

def run (s : Blocks) (evs : List Event) : Option Blocks := evs.foldlM step s

/-- Vectors have the dimension, lists at most `2M` entries, and slots are in use; `n` of them are
at first. -/
def Fits (dim m : ℕ) : ℕ → List Event → Prop
  | _, [] => True
  | n, .append vec :: evs => vec.length = dim ∧ Fits dim m (n + 1) evs
  | n, .overwrite slot vec :: evs => slot.toNat < n ∧ vec.length = dim ∧ Fits dim m n evs
  | n, .setLinks slot ids :: evs => slot.toNat < n ∧ ids.length ≤ 2 * m ∧ Fits dim m n evs

structure Arrays where
  vecs : List Vec
  lists : List (List UInt32)

def Arrays.apply (a : Arrays) : Event → Arrays
  | .append vec => ⟨a.vecs ++ [vec], a.lists ++ [[]]⟩
  | .overwrite slot vec => { a with vecs := a.vecs.set slot.toNat vec }
  | .setLinks slot ids => { a with lists := a.lists.set slot.toNat ids }

def per (s : Blocks) : ℕ := 1 <<< s.blockShift

/-- A list in its row: its length, its entries, and what an earlier longer list left. -/
def Encodes (ids row : List UInt32) : Prop := ∃ rest, row = UInt32.ofNat ids.length :: (ids ++ rest)

/-- A block's two parts have cells, and their sizes in bytes are positive `int`s. -/
structure RoomFor (dim m : ℕ) : Prop where
  dim_pos : 0 < dim
  data_lt : (new dim m).per * dim < 2 ^ 61
  links_lt : (new dim m).per * (1 + 2 * m) < 2 ^ 61

structure Stores (s : Blocks) (a : Arrays) (rows : List (List UInt32)) : Prop where
  room : RoomFor s.dim s.m
  vecs_length : a.vecs.length = s.nodes
  lists_length : a.lists.length = s.nodes
  rows_length : rows.length = s.nodes
  dims : ∀ v ∈ a.vecs, v.length = s.dim
  data : Table s.per s.dim 0 s.nodes s.data a.vecs
  links0 : Table s.per s.linkStride 0 s.nodes s.links0 rows
  encodes : ∀ (r : ℕ) ids, a.lists[r]? = some ids → ∃ x, rows[r]? = some x ∧ Encodes ids x

variable {s : Blocks} {a : Arrays} {rows : List (List UInt32)}

theorem per_eq (s : Blocks) : s.per = 2 ^ s.blockShift := one_shiftLeft s.blockShift

theorem per_pos (s : Blocks) : 0 < s.per := s.per_eq ▸ Nat.two_pow_pos _

theorem new_stores {dim m : ℕ} (hroom : RoomFor dim m) : (new dim m).Stores ⟨[], []⟩ [] :=
  ⟨hroom, rfl, rfl, rfl, by simp, table_nil _ _ _, table_nil _ _ _, by simp⟩

theorem RoomFor.linkStride_eq (h : RoomFor s.dim s.m) : s.linkStride = 1 + 2 * s.m := by
  have hle := Nat.le_mul_of_pos_left (1 + 2 * s.m) (new s.dim s.m).per_pos
  have hlt := h.links_lt
  exact Nat.mod_eq_of_lt (by omega)

theorem cells_int {n : ℕ} (hpos : 0 < n) (hlt : n < 2 ^ 61) : cells (int n) = some (Slice.empty n 0) := by
  rw [int, mod_eq_of_lt (by omega), cells, if_pos ⟨hpos, hlt⟩]

theorem RoomFor.openBlock_eq (h : RoomFor s.dim s.m) (hlen : s.data.length = s.links0.length) :
    s.openBlock (s.nodes / s.per) = some { s with
      data := openRow s.per s.dim 0 s.data s.nodes
      links0 := openRow s.per s.linkStride 0 s.links0 s.nodes } := by
  have hdata := cells_int (Nat.mul_pos s.per_pos h.dim_pos) h.data_lt
  have hlinks : cells (int (s.per * s.linkStride)) = some (Slice.empty (s.per * s.linkStride) 0) := by
    rw [h.linkStride_eq]
    exact cells_int (Nat.mul_pos s.per_pos (by omega)) h.links_lt
  have hper : 1 <<< s.blockShift = s.per := rfl
  rw [openBlock, openRow, openRow, ← hlen]
  split
  · simp only [hper, hdata, hlinks, bind_eq_bind, bind_some]
    rfl
  · rfl

theorem shiftRight_blockShift (s : Blocks) (n : ℕ) : n >>> s.blockShift = n / s.per := by
  rw [shiftRight_eq_div_pow, per_eq]

theorem mask_blockShift (s : Blocks) (n : ℕ) : n &&& (1 <<< s.blockShift - 1) = n % s.per := by
  rw [one_shiftLeft, and_two_pow_sub_one_eq_mod, per_eq]

section
variable (hs : s.Stores a rows)
include hs

theorem Stores.vec_eq {v : Vec} (hv : a.vecs[slot.toNat]? = some v) : s.vec slot = some v := by
  obtain ⟨b, hb, hcells, -, hrow⟩ := hs.data.read s.per_pos hv
  have hfits := place_fits s.dim s.per_pos slot.toNat
  simp only [Blocks.vec, shiftRight_blockShift, mask_blockShift, hb, bind_eq_bind, bind_some]
  rw [Slice.window, if_pos (by omega), Nat.add_sub_cancel_left]
  exact congrArg some hrow

theorem Stores.links_eq {ids : List UInt32} (hids : a.lists[slot.toNat]? = some ids) :
    s.links slot = some (ids.take (ids.length % UInt32.size)) := by
  obtain ⟨x, hx, rest, hencoded⟩ := hs.encodes _ ids hids
  obtain ⟨b, hb, hcells, huse, hrow⟩ := hs.links0.read s.per_pos hx
  have hfits := place_fits s.linkStride s.per_pos slot.toNat
  have hlength : (rowOf s.linkStride b.cells (slot.toNat % s.per)).length = s.linkStride :=
    length_rowOf (by omega)
  rw [hrow, hencoded, length_cons, length_append] at hlength
  have hmod := Nat.mod_le ids.length UInt32.size
  -- the first cell of the row has the count
  have hcount := getElem?_rowOf s.linkStride b.cells (slot.toNat % s.per) 0
  rw [hrow, hencoded, getElem?_cons_zero, if_pos (by omega), Nat.add_zero] at hcount
  simp only [Blocks.links, shiftRight_blockShift, mask_blockShift, hb, bind_eq_bind, bind_some]
  rw [Slice.get, if_pos (by omega), ← hcount, bind_some, UInt32.toNat_ofNat', Slice.window,
    if_pos (by omega), Nat.add_sub_cancel_left, rowOf_window b.cells _ (by omega), hrow, hencoded,
    drop_succ_cons, drop_zero, take_append_of_le_length hmod]

theorem Stores.setLinks (hslot : slot.toNat < s.nodes) (ids : List UInt32) :
    ∃ links0 rows', s.setLinks slot ids = some { s with links0 } ∧
      Stores { s with links0 } { a with lists := a.lists.set slot.toNat (ids.take (2 * s.m)) } rows' := by
  have hx := getElem?_eq_getElem (hs.rows_length ▸ hslot)
  obtain ⟨b, hb, hcells, huse, -⟩ := hs.links0.read s.per_pos hx
  have hfits := place_fits s.linkStride s.per_pos slot.toNat
  have hstride := hs.room.linkStride_eq
  have hroom : slot.toNat % s.per * s.linkStride + s.linkStride - (slot.toNat % s.per * s.linkStride + 1) =
      2 * s.m := by omega
  -- what is copied of the list
  generalize hkept : ids.take (2 * s.m) = kept
  have hcount : min (2 * s.m) ids.length = kept.length := by rw [← hkept, length_take]
  have hcopied : ids.take kept.length = kept := by rw [← hcount, ← hkept, ← take_eq_take_min]
  have hfit : 0 + (UInt32.ofNat kept.length :: kept).length ≤ s.linkStride := by
    rw [length_cons]
    omega
  have hset : s.setLinks slot ids = some { s with
      links0 := s.links0.set (slot.toNat / s.per)
        ⟨splice b.cells (slot.toNat % s.per * s.linkStride + 0) (UInt32.ofNat kept.length :: kept), b.len⟩ } := by
    simp only [Blocks.setLinks, shiftRight_blockShift, mask_blockShift, hb, bind_eq_bind,
      bind_some]
    rw [Slice.copyAt, if_pos (by omega)]
    simp only [hroom, hcount, hcopied, bind_some, Slice.put]
    rw [if_pos (by omega), splice_splice _ (by omega)]
    rfl
  refine ⟨_, _, hset, hs.room, hs.vecs_length, by simpa using hs.lists_length, by simpa using hs.rows_length, hs.dims,
    hs.data, hs.links0.write s.per_pos hx hb hfit, fun r stored hr => ?_⟩
  by_cases hsame : r = slot.toNat
  · subst hsame
    rw [getElem?_set_self (hs.lists_length ▸ hslot), some.injEq] at hr
    subst hr
    exact ⟨_, getElem?_set_self (hs.rows_length ▸ hslot), _,
      by rw [splice_zero, length_cons, cons_append]⟩
  · rw [getElem?_set_ne (Ne.symm hsame)] at hr
    rw [getElem?_set_ne (Ne.symm hsame)]
    exact hs.encodes r stored hr

theorem Stores.copyVec (hslot : slot.toNat < s.nodes) {v : Vec} (hv : v.length = s.dim) :
    ∃ data, s.copyVec slot v = some { s with data } ∧
      Stores { s with data } { a with vecs := a.vecs.set slot.toNat v } rows := by
  have hlt : slot.toNat < a.vecs.length := hs.vecs_length ▸ hslot
  have hx := getElem?_eq_getElem hlt
  obtain ⟨b, hb, hcells, huse, -⟩ := hs.data.read s.per_pos hx
  have hfits := place_fits s.dim s.per_pos slot.toNat
  have hall : v.take s.dim = v := by rw [← hv, take_length]
  have htable := hs.data.write s.per_pos hx hb (by omega : 0 + v.length ≤ s.dim)
  rw [splice_whole (hv.trans (hs.dims _ (getElem_mem hlt)).symm)] at htable
  have hcopy : s.copyVec slot v = some { s with
      data := s.data.set (slot.toNat / s.per)
        ⟨splice b.cells (slot.toNat % s.per * s.dim + 0) v, b.len⟩ } := by
    simp only [Blocks.copyVec, shiftRight_blockShift, mask_blockShift, hb, bind_eq_bind,
      bind_some]
    rw [Slice.copyAt, if_pos (by omega)]
    simp only [Nat.add_sub_cancel_left, hv, Nat.min_self, hall]
    rfl
  refine ⟨_, hcopy, hs.room, by simpa using hs.vecs_length, hs.lists_length, hs.rows_length, fun w hw => ?_, htable,
    hs.links0, hs.encodes⟩
  rcases mem_or_eq_of_mem_set hw with hold | rfl
  · exact hs.dims w hold
  · exact hv

theorem appendVec_eq {v : Vec} (hv : v.length = s.dim) {d b : Slice UInt32}
    (hd : (openRow s.per s.dim 0 s.data s.nodes)[s.nodes / s.per]? = some d)
    (hb : (openRow s.per s.linkStride 0 s.links0 s.nodes)[s.nodes / s.per]? = some b)
    (hdroom : d.len + s.dim ≤ d.cells.length) (hbroom : b.len + s.linkStride ≤ b.cells.length) :
    s.appendVec v = some { s with
      data := (openRow s.per s.dim 0 s.data s.nodes).set (s.nodes / s.per)
        ⟨splice d.cells d.len v, d.len + s.dim⟩
      links0 := (openRow s.per s.linkStride 0 s.links0 s.nodes).set (s.nodes / s.per)
        { b with len := b.len + s.linkStride } } := by
  have hgrown := hs.room.openBlock_eq (hs.data.length_eq hs.links0)
  have hreslice : b.reslice (b.len + s.linkStride) = some { b with len := b.len + s.linkStride } :=
    if_pos hbroom
  simp only [appendVec, shiftRight_blockShift, hgrown, hd, hb, bind_eq_bind, bind_some]
  rw [Slice.append, if_pos (by omega), bind_some, hv]
  change (b.reslice (b.len + s.linkStride)).bind _ = _
  rw [hreslice]
  rfl

theorem Stores.append {v : Vec} (hv : v.length = s.dim) :
    ∃ data links0 rows', s.step (.append v) = some { s with nodes := s.nodes + 1, data, links0 } ∧
      Stores { s with nodes := s.nodes + 1, data, links0 } ⟨a.vecs ++ [v], a.lists ++ [[]]⟩ rows' := by
  have hdata := (hs.vecs_length.symm ▸ hs.data).openRow s.per_pos
  have hlinks := (hs.rows_length.symm ▸ hs.links0).openRow s.per_pos
  obtain ⟨d, hd⟩ := hdata.block (lt_succ_self _)
  obtain ⟨b, hb⟩ := hlinks.block (lt_succ_self _)
  have hdroom : d.len + s.dim ≤ d.cells.length := by
    rw [hdata.next_place s.per_pos hd, hdata.cells d (mem_of_getElem? hd)]
    exact place_fits s.dim s.per_pos _
  have hbroom : b.len + s.linkStride ≤ b.cells.length := by
    rw [hlinks.next_place s.per_pos hb, hlinks.cells b (mem_of_getElem? hb)]
    exact place_fits s.linkStride s.per_pos _
  have hvecs := hdata.push s.per_pos hd (by omega : 0 + v.length ≤ s.dim)
  have hnone : 0 + ([] : List UInt32).length ≤ s.linkStride := zero_le _
  have hrows := hlinks.push s.per_pos hb hnone
  rw [splice_whole (by rw [hv, length_replicate])] at hvecs
  rw [splice_nil, splice_nil] at hrows
  rw [hs.vecs_length] at hd hvecs
  rw [hs.rows_length] at hb hrows
  refine ⟨_, _, _, by rw [step, appendVec_eq hs hv hd hb hdroom hbroom]; rfl, hs.room, by simp [hs.vecs_length],
    by simp [hs.lists_length], by simp [hs.rows_length], fun w hw => ?_, hvecs, hrows, fun r ids hr => ?_⟩
  · rcases mem_append.mp hw with hold | hnew
    · exact hs.dims w hold
    · rw [mem_singleton.mp hnew]
      exact hv
  · by_cases hold : r < a.lists.length
    · rw [getElem?_append_left hold] at hr
      rw [getElem?_append_left (by rw [hs.rows_length, ← hs.lists_length]; exact hold)]
      exact hs.encodes r ids hr
    · have hlast := (List.getElem?_eq_some_iff.mp hr).1
      rw [List.length_append, List.length_singleton] at hlast
      obtain rfl : r = a.lists.length := by omega
      rw [getElem?_concat_length, some.injEq] at hr
      subst hr
      refine ⟨_, by rw [hs.lists_length, ← hs.rows_length, getElem?_concat_length],
        replicate (2 * s.m) 0, ?_⟩
      rw [hs.room.linkStride_eq, add_comm, replicate_succ]
      rfl

theorem Stores.run {evs : List Event} (hevs : Fits s.dim s.m s.nodes evs) :
    ∃ t rows', s.run evs = some t ∧ t.Stores (evs.foldl Arrays.apply a) rows' := by
  induction evs generalizing s a rows with
  | nil => exact ⟨s, rows, rfl, hs⟩
  | cons ev evs ih =>
    rw [Blocks.run, foldlM_cons]
    cases ev with
    | append v =>
      obtain ⟨data, links0, rows', hstep, hnext⟩ := hs.append hevs.1
      rw [hstep]
      exact ih hnext hevs.2
    | overwrite slot v =>
      obtain ⟨data, hstep, hnext⟩ := hs.copyVec hevs.1 hevs.2.1
      rw [step, hstep]
      exact ih hnext hevs.2.2
    | setLinks slot ids =>
      obtain ⟨links0, rows', hstep, hnext⟩ := hs.setLinks hevs.1 ids
      rw [take_of_length_le hevs.2.1] at hnext
      rw [step, hstep]
      exact ih hnext hevs.2.2

end

theorem length_lt_of_apply {n : ℕ} (hn : 0 < n) {evs : List Event}
    (hevs : ∀ slot ids, .setLinks slot ids ∈ evs → ids.length < n) {a : Arrays}
    (ha : ∀ ids ∈ a.lists, ids.length < n) : ∀ ids ∈ (evs.foldl Arrays.apply a).lists, ids.length < n := by
  induction evs generalizing a with
  | nil => exact ha
  | cons ev evs ih =>
    apply ih fun slot ids hids => hevs slot ids (mem_cons_of_mem _ hids)
    intro ids hids
    cases ev with
    | append v =>
      rcases mem_append.mp hids with hold | hnew
      · exact ha ids hold
      · rw [mem_singleton.mp hnew]
        exact hn
    | overwrite slot v => exact ha ids hids
    | setLinks slot new =>
      rcases mem_or_eq_of_mem_set hids with hold | rfl
      · exact ha ids hold
      · exact hevs slot ids mem_cons_self

theorem run_arrays (dim m : ℕ) (hroom : RoomFor dim m) {evs : List Event} (hevs : Fits dim m 0 evs)
    (hcount : ∀ slot ids, .setLinks slot ids ∈ evs → ids.length < UInt32.size) :
    let a := evs.foldl Arrays.apply ⟨[], []⟩
    ∃ s, (new dim m).run evs = some s ∧ a.vecs.length = s.nodes ∧ a.lists.length = s.nodes ∧
      ∀ slot : UInt32, slot.toNat < s.nodes →
        s.vec slot = a.vecs[slot.toNat]? ∧ s.links slot = a.lists[slot.toNat]? := by
  intro a
  obtain ⟨s, rows, hrun, hs⟩ := (new_stores hroom).run hevs
  refine ⟨s, hrun, hs.vecs_length, hs.lists_length, fun slot hslot => ⟨?_, ?_⟩⟩
  · have hlt : slot.toNat < a.vecs.length := hs.vecs_length ▸ hslot
    rw [getElem?_eq_getElem hlt]
    exact hs.vec_eq (getElem?_eq_getElem hlt)
  · have hlt : slot.toNat < a.lists.length := hs.lists_length ▸ hslot
    have hshort := length_lt_of_apply (by decide) hcount (by simp) _ (getElem_mem hlt)
    rw [getElem?_eq_getElem hlt, hs.links_eq (getElem?_eq_getElem hlt), mod_eq_of_lt hshort,
      take_length]

def twoSlots : List Event :=
  [.append [1, 2], .append [3, 4], .setLinks 0 [1, 7, 5], .setLinks 0 [1], .overwrite 0 [5, 6]]

theorem run_arrays_twoSlots : ∃ s, (new 2 2).run twoSlots = some s ∧
    s.vec 0 = some [5, 6] ∧ s.vec 1 = some [3, 4] ∧ s.links 0 = some [1] ∧ s.links 1 = some [] := by
  have hevs : Fits 2 2 0 twoSlots :=
    ⟨rfl, rfl, by decide, by decide, by decide, by decide, by decide, rfl, trivial⟩
  have hcount : ∀ slot ids, .setLinks slot ids ∈ twoSlots → ids.length < UInt32.size := by
    intro slot ids hids
    simp only [twoSlots, mem_cons, Event.setLinks.injEq, reduceCtorEq, not_mem_nil, false_or,
      or_false] at hids
    rcases hids with ⟨rfl, rfl⟩ | ⟨rfl, rfl⟩ <;> decide
  obtain ⟨s, hrun, hnodes, -, hread⟩ := run_arrays 2 2 (by constructor <;> decide +kernel) hevs hcount
  have htwo : s.nodes = 2 := hnodes.symm
  have hzero := hread 0 (by rw [htwo]; decide)
  have hone := hread 1 (by rw [htwo]; decide)
  exact ⟨s, hrun, hzero.1, hone.1, hzero.2, hone.2⟩

/-- Where the size of a block of lists wraps to less than one row, the first append has no room. -/
theorem new_append_none {dim m : ℕ} (hshort : int ((new dim m).per * (new dim m).linkStride) < (new dim m).linkStride)
    (v : Vec) : (new dim m).step (.append v) = none := by
  refine eq_none_iff_forall_ne_some.mpr fun t ht => ?_
  simp only [step, appendVec, bind_eq_bind, bind_eq_some_iff] at ht
  obtain ⟨_, ⟨s, hopen, _, -, _, -, b, hb, _, hreslice, -⟩, -⟩ := ht
  have hfirst : (new dim m).nodes >>> (new dim m).blockShift = (new dim m).data.length := zero_shiftRight _
  simp only [openBlock, if_pos hfirst, bind_eq_bind, bind_eq_some_iff] at hopen
  obtain ⟨d, -, c, hc, hs⟩ := hopen
  obtain rfl := some.inj hs
  obtain ⟨-, hempty⟩ := ite_none_right_eq_some.mp hc
  obtain rfl : c = b := some.inj (by simpa [new] using hb)
  obtain rfl := some.inj hempty
  have hfit := (ite_none_right_eq_some.mp hreslice).1
  rw [Slice.empty, length_replicate] at hfit
  have hlink : int ((new dim m).per * (new dim m).linkStride) < 0 + (new dim m).linkStride := by omega
  exact absurd (lt_of_lt_of_le hlink hfit) (lt_irrefl _)

/-- A list as long as `2M` allows, where that is the number of values of the count: one vector fills
a block of 8 MB. -/
def fullCount : List Event :=
  [.append (replicate 2097152 0), .setLinks 0 (replicate UInt32.size 0)]

/-- The other list is of the first vector at dimension 1 and `M` `2 ^ 42`, where a block has `2 ^ 21`
rows and the size of its lists wraps. -/
theorem fullCount_lost : (Fits 2097152 2147483648 0 fullCount ∧
      (fullCount.foldl Arrays.apply ⟨[], []⟩).lists[0]? = some (replicate UInt32.size 0) ∧
      ∃ s, (new 2097152 2147483648).run fullCount = some s ∧ s.links 0 = some []) ∧
    Fits 1 4398046511104 0 [.append [0]] ∧ (new 1 4398046511104).run [.append [0]] = none := by
  have hevs : Fits 2097152 2147483648 0 fullCount := by
    refine ⟨length_replicate, by decide, ?_, trivial⟩
    rw [length_replicate]
  obtain ⟨s, _, hrun, hs⟩ := (new_stores (by constructor <;> decide +kernel)).run hevs
  have hlast : (fullCount.foldl Arrays.apply ⟨[], []⟩).lists[(0 : UInt32).toNat]? =
    some (replicate UInt32.size 0) := rfl
  refine ⟨⟨hevs, hlast, s, hrun, ?_⟩, ⟨rfl, trivial⟩, ?_⟩
  · rw [hs.links_eq hlast, length_replicate, mod_self, take_zero]
  · rw [run, foldlM_cons, new_append_none (by decide +kernel)]
    rfl

section Graph
variable {D : Type} {g g' : Graph D} {vec : Vec} {ids : List UInt32}

/-- The blocks have the vectors and the layer-0 lists of a graph. -/
def Holds (s : Blocks) (g : Graph D) : Prop :=
  ∃ a rows, s.Stores a rows ∧ s.dim = g.cfg.dim ∧ s.m = g.cfg.m ∧ g.data = a.vecs ∧
    g.links0 = a.lists.map (·.map UInt32.toNat)

theorem Holds.congr (h : s.Holds g) (hcfg : g'.cfg = g.cfg) (hdata : g'.data = g.data)
    (hlinks : g'.links0 = g.links0) : s.Holds g' := by
  rw [Holds, hcfg, hdata, hlinks]
  exact h

theorem Holds.store (h : s.Holds g) (slot : UInt32) (nd : Node) (hvec : vec.length = g.cfg.dim) (existed : Bool)
    (hslot : existed = true → slot.toNat < g.data.length) :
    ∃ t, s.step (if existed then .overwrite slot vec else .append vec) = some t ∧
      t.Holds (g.store slot.toNat nd vec existed) := by
  obtain ⟨a, rows, hs, hdim, hm, hdata, hlinks⟩ := h
  rw [← hdim] at hvec
  cases existed with
  | false =>
    obtain ⟨data, links0, rows', hstep, hnext⟩ := hs.append hvec
    exact ⟨_, hstep, _, rows', hnext, hdim, hm, by simp [Graph.store, hdata], by simp [Graph.store, hlinks]⟩
  | true =>
    obtain ⟨data, hstep, hnext⟩ := hs.copyVec (by rw [← hs.vecs_length, ← hdata]; exact hslot rfl) hvec
    exact ⟨_, hstep, _, rows, hnext, hdim, hm, by simp [Graph.store, hdata], by simp [Graph.store, hlinks]⟩

theorem Holds.setLinks (h : s.Holds g) (hslot : slot.toNat < g.data.length) (ids : List UInt32) :
    ∃ t, s.setLinks slot ids = some t ∧ t.Holds (g.setLinks slot.toNat 0 (ids.map UInt32.toNat)) := by
  obtain ⟨a, rows, hs, hdim, hm, hdata, hlinks⟩ := h
  obtain ⟨links0, rows', hset, hnext⟩ := hs.setLinks (by rw [← hs.vecs_length, ← hdata]; exact hslot) ids
  refine ⟨_, hset, _, rows', hnext, hdim, hm, hdata, ?_⟩
  simp only [Graph.setLinks, if_true, hlinks, hm, map_set, map_take]

theorem Holds.vec_eq (h : s.Holds g) (hslot : slot.toNat < g.data.length) :
    s.vec slot = some (g.vec slot.toNat) := by
  obtain ⟨a, rows, hs, -, -, hdata, -⟩ := h
  rw [Graph.vec, hdata, getD_eq_getElem?_getD, getElem?_eq_getElem (hdata ▸ hslot)]
  exact hs.vec_eq (getElem?_eq_getElem _)

theorem Holds.links_eq (h : s.Holds g) (hslot : slot.toNat < g.links0.length)
    (hnodup : (g.links slot.toNat 0).Nodup) (hself : slot.toNat ∉ g.links slot.toNat 0) :
    ∃ ids, s.links slot = some ids ∧ ids.map UInt32.toNat = g.links slot.toNat 0 := by
  obtain ⟨a, rows, hs, -, -, -, hlinks⟩ := h
  have hlt : slot.toNat < a.lists.length := by simpa [hlinks] using hslot
  have hlist : g.links slot.toNat 0 = a.lists[slot.toNat].map UInt32.toNat := by
    simp [Graph.links, hlinks, hlt]
  rw [hlist] at hnodup hself
  -- a list of other slots is shorter than the slots are many, so that its count is not cut
  have hsub : slot.toNat :: a.lists[slot.toNat].map UInt32.toNat ⊆ range UInt32.size := by
    intro x hx
    obtain ⟨y, rfl⟩ : ∃ y : UInt32, x = y.toNat := by
      rcases mem_cons.mp hx with rfl | hx
      · exact ⟨slot, rfl⟩
      · obtain ⟨y, -, rfl⟩ := mem_map.mp hx
        exact ⟨y, rfl⟩
    exact mem_range.mpr y.toNat_lt
  have hcount := (subperm_of_subset (nodup_cons.mpr ⟨hself, hnodup⟩) hsub).length_le
  rw [length_cons, length_map, length_range] at hcount
  refine ⟨a.lists[slot.toNat], ?_, hlist.symm⟩
  rw [hs.links_eq (getElem?_eq_getElem hlt), mod_eq_of_lt hcount, take_length]

end Graph

end Blocks

end NuclaDB.Hnsw
