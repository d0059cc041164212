import Mathlib.Algebra.Order.Group.Nat
import Mathlib.Data.List.Basic

/-!
# Rows in blocks of cells

A slice has cells of its own, the first `len` of them in use. A table keeps row `r` of
`stride` cells in block `r / per` at the place `r % per`.
-/

namespace NuclaDB.BlockRows

open List Nat

variable {α : Type}

section Splice
variable {cells xs : List α} {i : ℕ}

def splice (cells : List α) (i : ℕ) (xs : List α) : List α :=
  cells.take i ++ xs ++ cells.drop (i + xs.length)

theorem length_splice (hfit : i + xs.length ≤ cells.length) : (splice cells i xs).length = cells.length := by
  simp only [splice, length_append, length_take, length_drop]
  omega

theorem getElem?_splice (hfit : i + xs.length ≤ cells.length) (k : ℕ) :
    (splice cells i xs)[k]? = if i ≤ k ∧ k < i + xs.length then xs[k - i]? else cells[k]? := by
  have htake : (cells.take i).length = i := by
    rw [length_take]
    omega
  rw [splice, append_assoc, getElem?_append, htake]
  by_cases hbefore : k < i
  · rw [if_pos hbefore, if_neg (by omega), getElem?_take, if_pos hbefore]
  · rw [if_neg hbefore, getElem?_append]
    by_cases hin : k - i < xs.length
    · rw [if_pos hin, if_pos (by omega)]
    · rw [if_neg hin, if_neg (by omega), getElem?_drop]
      congr 1
      omega

theorem splice_zero (cells xs : List α) : splice cells 0 xs = xs ++ cells.drop xs.length := by
  simp [splice]

theorem splice_nil (cells : List α) (i : ℕ) : splice cells i [] = cells := by
  simp [splice]

theorem splice_whole (h : xs.length = cells.length) : splice cells 0 xs = xs := by
  rw [splice_zero, h, drop_length, append_nil]

theorem splice_splice (x : α) (hfit : i + 1 + xs.length ≤ cells.length) :
    splice (splice cells (i + 1) xs) i [x] = splice cells i (x :: xs) := by
  have hone := length_splice hfit
  apply ext_getElem?
  intro k
  rw [getElem?_splice (by rw [length_singleton]; omega), getElem?_splice hfit,
    getElem?_splice (by rw [length_cons]; omega), length_singleton, length_cons]
  by_cases hi : k = i
  · subst hi
    simp
  · rw [if_neg (by omega)]
    by_cases hin : i + 1 ≤ k ∧ k < i + 1 + xs.length
    · rw [if_pos hin, if_pos (by omega), show k - i = k - (i + 1) + 1 by omega, getElem?_cons_succ]
    · rw [if_neg hin, if_neg (by omega)]

end Splice

structure Slice (α : Type) where
  cells : List α
  len : ℕ
deriving DecidableEq

namespace Slice

def empty (n : ℕ) (zero : α) : Slice α := ⟨replicate n zero, 0⟩

variable (s : Slice α)

/-- Append in place; past its cells a slice would be copied to new ones. -/
def append (xs : List α) : Option (Slice α) :=
  if s.len + xs.length ≤ s.cells.length then some ⟨splice s.cells s.len xs, s.len + xs.length⟩ else none

def reslice (n : ℕ) : Option (Slice α) :=
  if n ≤ s.cells.length then some { s with len := n } else none

def window (i j k : ℕ) : Option (List α) :=
  if i ≤ j ∧ j ≤ k ∧ k ≤ s.cells.length then some ((s.cells.drop i).take (j - i)) else none

def get (i : ℕ) : Option α := if i < s.len then s.cells[i]? else none

def put (i : ℕ) (x : α) : Option (Slice α) :=
  if i < s.len then some { s with cells := splice s.cells i [x] } else none

/-- `copy(s[i:j], xs)` with the number of cells copied. -/
def copyAt (i j : ℕ) (xs : List α) : Option (ℕ × Slice α) :=
  if i ≤ j ∧ j ≤ s.cells.length then
    let n := min (j - i) xs.length
    some (n, { s with cells := splice s.cells i (xs.take n) })
  else none

end Slice

section Rows
variable {stride : ℕ} {cells xs : List α} {k off : ℕ}

def rowOf (stride : ℕ) (cells : List α) (k : ℕ) : List α := (cells.drop (k * stride)).take stride

theorem getElem?_rowOf (stride : ℕ) (cells : List α) (k j : ℕ) :
    (rowOf stride cells k)[j]? = if j < stride then cells[k * stride + j]? else none := by
  rw [rowOf, getElem?_take, getElem?_drop]

theorem rowOf_window (cells : List α) (k : ℕ) {c : ℕ} (hfit : off + c ≤ stride) :
    (cells.drop (k * stride + off)).take c = ((rowOf stride cells k).drop off).take c := by
  rw [rowOf, drop_take, drop_drop, take_take, min_eq_left (by omega)]

theorem row_fits (stride : ℕ) {n : ℕ} (hk : k < n) : k * stride + stride ≤ n * stride := by
  rw [← succ_mul]
  exact mul_le_mul_right stride hk

section
variable (hrow : k * stride + stride ≤ cells.length)
include hrow

theorem length_rowOf : (rowOf stride cells k).length = stride := by
  rw [rowOf, length_take, length_drop]
  omega

theorem rowOf_splice_self (hfit : off + xs.length ≤ stride) :
    rowOf stride (splice cells (k * stride + off) xs) k = splice (rowOf stride cells k) off xs := by
  have hlength := length_rowOf hrow
  apply ext_getElem?
  intro j
  rw [getElem?_rowOf, getElem?_splice (by omega), getElem?_splice (by omega), getElem?_rowOf]
  by_cases hj : j < stride
  · simp only [hj, if_true, Nat.add_sub_add_left]
    by_cases hin : off ≤ j ∧ j < off + xs.length
    · rw [if_pos (by omega), if_pos hin]
    · rw [if_neg (by omega), if_neg hin]
  · rw [if_neg hj, if_neg hj, if_neg (by omega)]

theorem rowOf_splice_other (hfit : off + xs.length ≤ stride) {other : ℕ} (hne : other ≠ k) :
    rowOf stride (splice cells (k * stride + off) xs) other = rowOf stride cells other := by
  have hapart : other * stride + stride ≤ k * stride ∨ k * stride + stride ≤ other * stride := by
    rw [← succ_mul, ← succ_mul]
    rcases lt_or_gt_of_ne hne with hlt | hgt
    · exact .inl (mul_le_mul_right stride hlt)
    · exact .inr (mul_le_mul_right stride hgt)
  apply ext_getElem?
  intro j
  rw [getElem?_rowOf, getElem?_splice (by omega), getElem?_rowOf]
  by_cases hj : j < stride
  · rw [if_pos hj, if_pos hj, if_neg (by omega)]
  · rw [if_neg hj, if_neg hj]

end

end Rows

section Fill
variable {stride n : ℕ} {cells : List α} {f : ℕ → List α}

section
variable (hf : ∀ s < n, (f s).length = stride)
include hf

theorem length_flatMap_range : ((range n).flatMap f).length = n * stride := by
  induction n with
  | zero => simp
  | succ n ih =>
    rw [range_succ, flatMap_append, length_append, ih fun s hs => hf s (by omega),
      flatMap_singleton, hf n (by omega), succ_mul]

theorem foldl_splice_append (cells : List α) :
    (range n).foldl (fun cells s => splice cells (s * stride) (f s)) cells =
      (range n).flatMap f ++ cells.drop (n * stride) := by
  induction n with
  | zero => simp
  | succ n ih =>
    have hbefore := length_flatMap_range fun s (hs : s < n) => hf s (by omega)
    rw [range_succ, foldl_concat, ih fun s hs => hf s (by omega), splice, hf n (by omega),
      take_left' hbefore, ← hbefore, drop_length_add_append, hbefore, drop_drop, ← succ_mul,
      flatMap_append, flatMap_singleton]

theorem foldl_splice (hcells : cells.length = n * stride) :
    (range n).foldl (fun cells s => splice cells (s * stride) (f s)) cells = (range n).flatMap f := by
  rw [foldl_splice_append hf, ← hcells, drop_length, append_nil]

end

theorem rowOf_foldl_splice {p : ℕ → Prop} [DecidablePred p] (hf : ∀ s < n, (f s).length = stride)
    (hcells : n * stride ≤ cells.length) :
    ((range n).foldl (fun cells s => if p s then cells else splice cells (s * stride) (f s)) cells).length =
        cells.length ∧
      ∀ k, k * stride + stride ≤ cells.length → rowOf stride ((range n).foldl
          (fun cells s => if p s then cells else splice cells (s * stride) (f s)) cells) k =
        if k < n ∧ ¬ p k then f k else rowOf stride cells k := by
  induction n with
  | zero => exact ⟨rfl, fun k _ => (if_neg (by omega)).symm⟩
  | succ n ih =>
    rw [succ_mul] at hcells
    obtain ⟨hlength, hrows⟩ := ih (fun s hs => hf s (by omega)) (by omega)
    have hnext := hf n (by omega)
    rw [range_succ, foldl_concat]
    by_cases hp : p n
    · rw [if_pos hp]
      refine ⟨hlength, fun k hk => (hrows k hk).trans ?_⟩
      have hiff : k < n ∧ ¬ p k ↔ k < n + 1 ∧ ¬ p k := by
        refine and_congr_left fun hk => ⟨by omega, fun hlt => ?_⟩
        exact lt_of_le_of_ne (by omega) (by rintro rfl; exact hk hp)
      simp only [hiff]
    · rw [if_neg hp]
      refine ⟨by rw [length_splice (by omega), hlength], fun k hk => ?_⟩
      by_cases hkn : k = n
      · subst hkn
        have hself : rowOf stride (splice _ (k * stride + 0) (f k)) k = _ :=
          rowOf_splice_self (hlength ▸ hk) (by omega)
        rw [if_pos ⟨by omega, hp⟩]
        exact hself.trans (splice_whole (by rw [length_rowOf (hlength ▸ hk), hnext]))
      · have hother : rowOf stride (splice _ (n * stride + 0) (f n)) k = _ :=
          rowOf_splice_other (by rw [hlength]; omega) (by omega) hkn
        refine hother.trans ((hrows k hk).trans ?_)
        simp only [show k < n ↔ k < n + 1 by omega]

end Fill

section Tables
variable {per stride r : ℕ} {blocks : List (Slice α)} {b : Slice α} {rows : List (List α)} {zero : α}

def row (per stride : ℕ) (blocks : List (Slice α)) (r : ℕ) : Option (List α) :=
  blocks[r / per]?.map fun b => rowOf stride b.cells (r % per)

theorem place_fits (stride : ℕ) (hper : 0 < per) (r : ℕ) : r % per * stride + stride ≤ per * stride :=
  row_fits stride (mod_lt r hper)

/-- Blocks with room for `room` rows, of which `rows` are in use and the others are zero. -/
structure Table (per stride : ℕ) (zero : α) (room : ℕ) (blocks : List (Slice α)) (rows : List (List α)) :
    Prop where
  count : ∀ k, k < blocks.length ↔ k * per < room
  cells : ∀ b ∈ blocks, b.cells.length = per * stride
  len : ∀ k b, blocks[k]? = some b → b.len = min per (rows.length - k * per) * stride
  stored : ∀ r x, rows[r]? = some x → row per stride blocks r = some x
  fresh : ∀ r x, rows.length ≤ r → row per stride blocks r = some x → x = replicate stride zero

theorem table_nil (per stride : ℕ) (zero : α) : Table per stride zero 0 [] [] :=
  ⟨by simp, by simp, by simp, by simp, by simp [row]⟩

section Use
variable {room off : ℕ} {x xs : List α}

section
variable (ht : Table per stride zero room blocks rows)
include ht

theorem Table.block (hr : r < room) : ∃ b, blocks[r / per]? = some b := by
  have hlt : r / per < blocks.length := (ht.count _).mpr ((div_mul_le_self r per).trans_lt hr)
  exact ⟨_, getElem?_eq_getElem hlt⟩

theorem Table.read (hper : 0 < per) (hx : rows[r]? = some x) :
    ∃ b, blocks[r / per]? = some b ∧ b.cells.length = per * stride ∧ r % per * stride + stride ≤ b.len ∧
      rowOf stride b.cells (r % per) = x := by
  obtain ⟨b, hb, hrow⟩ := Option.map_eq_some_iff.mp (ht.stored r x hx)
  have hr := (List.getElem?_eq_some_iff.mp hx).1
  have hdiv := div_add_mod' r per
  have hmod := mod_lt r hper
  refine ⟨b, hb, ht.cells b (List.mem_of_getElem? hb), ?_, hrow⟩
  rw [ht.len _ b hb, ← succ_mul]
  exact mul_le_mul_right stride (by omega)

theorem Table.next_place (hper : 0 < per)
    (hb : blocks[rows.length / per]? = some b) : b.len = rows.length % per * stride := by
  have hdiv := div_add_mod' rows.length per
  have hmod := mod_lt rows.length hper
  rw [ht.len _ b hb]
  congr 1
  omega

end

theorem row_set (hper : 0 < per) (hb : blocks[r / per]? = some b) (hcells : b.cells.length = per * stride)
    (hfit : off + xs.length ≤ stride) (len other : ℕ) :
    row per stride (blocks.set (r / per) ⟨splice b.cells (r % per * stride + off) xs, len⟩) other =
      if other = r then some (splice (rowOf stride b.cells (r % per)) off xs)
      else row per stride blocks other := by
  have hlt := (List.getElem?_eq_some_iff.mp hb).1
  have hrow : r % per * stride + stride ≤ b.cells.length := hcells ▸ place_fits stride hper r
  rw [row]
  by_cases hsame : other = r
  · subst hsame
    rw [if_pos rfl, getElem?_set_self hlt]
    exact congrArg some (rowOf_splice_self hrow hfit)
  · rw [if_neg hsame, row]
    by_cases hblock : r / per = other / per
    · have hplace : other % per ≠ r % per := by
        intro heq
        apply hsame
        rw [← div_add_mod other per, ← div_add_mod r per, hblock, heq]
      rw [← hblock, getElem?_set_self hlt, hb]
      exact congrArg some (rowOf_splice_other hrow hfit hplace)
    · rw [getElem?_set_ne hblock]

theorem Table.cells_set (ht : Table per stride zero room blocks rows) (hper : 0 < per)
    (hb : blocks[r / per]? = some b) (hfit : off + xs.length ≤ stride) (len : ℕ) :
    ∀ c ∈ blocks.set (r / per) ⟨splice b.cells (r % per * stride + off) xs, len⟩,
      c.cells.length = per * stride := by
  have hcells := ht.cells b (mem_of_getElem? hb)
  have hrow := place_fits stride hper r
  intro c hc
  rcases mem_or_eq_of_mem_set hc with hold | rfl
  · exact ht.cells c hold
  · rw [length_splice (by omega), hcells]

theorem Table.write (ht : Table per stride zero room blocks rows) (hper : 0 < per) (hx : rows[r]? = some x)
    (hb : blocks[r / per]? = some b) (hfit : off + xs.length ≤ stride) :
    Table per stride zero room
      (blocks.set (r / per) ⟨splice b.cells (r % per * stride + off) xs, b.len⟩)
      (rows.set r (splice x off xs)) := by
  have hlt := (List.getElem?_eq_some_iff.mp hb).1
  have hr := (List.getElem?_eq_some_iff.mp hx).1
  have hrows := row_set hper hb (ht.cells b (List.mem_of_getElem? hb)) hfit b.len
  refine ⟨by simpa using ht.count, ht.cells_set hper hb hfit _, fun k c hc => ?_, fun other y hy => ?_,
    fun other y hother hy => ?_⟩
  · rw [length_set]
    by_cases hk : r / per = k
    · subst hk
      rw [getElem?_set_self hlt, Option.some.injEq] at hc
      exact hc ▸ ht.len _ b hb
    · exact ht.len k c (by rwa [getElem?_set_ne hk] at hc)
  · rw [hrows]
    by_cases hsame : other = r
    · subst hsame
      have hrow : rowOf stride b.cells (other % per) = x := by
        simpa [row, hb] using ht.stored other x hx
      rw [if_pos rfl, hrow, ← hy, getElem?_set_self hr]
    · rw [if_neg hsame]
      exact ht.stored other y (by rwa [getElem?_set_ne (Ne.symm hsame)] at hy)
  · rw [length_set] at hother
    exact ht.fresh other y hother (by rwa [hrows, if_neg (by omega)] at hy)

theorem Table.push (ht : Table per stride zero (rows.length + 1) blocks rows) (hper : 0 < per)
    (hb : blocks[rows.length / per]? = some b) (hfit : 0 + xs.length ≤ stride) :
    Table per stride zero (rows.length + 1)
      (blocks.set (rows.length / per) ⟨splice b.cells b.len xs, b.len + stride⟩)
      (rows ++ [splice (replicate stride zero) 0 xs]) := by
  have hlt := (List.getElem?_eq_some_iff.mp hb).1
  have hplace : b.len = rows.length % per * stride + 0 := ht.next_place hper hb
  have hrows := row_set hper hb (ht.cells b (List.mem_of_getElem? hb)) hfit (b.len + stride)
  have hcells := ht.cells_set hper hb hfit (b.len + stride)
  rw [← hplace] at hrows hcells
  refine ⟨by simpa using ht.count, hcells, fun k c hc => ?_, fun other y hy => ?_, fun other y hother hy => ?_⟩
  · rw [List.length_append, List.length_singleton]
    by_cases hk : rows.length / per = k
    · subst hk
      have hdiv := div_add_mod' rows.length per
      have hmod := mod_lt rows.length hper
      rw [getElem?_set_self hlt, Option.some.injEq] at hc
      subst hc
      change b.len + stride = _
      rw [hplace, add_zero, ← succ_mul]
      congr 1
      omega
    · -- the blocks before the last one are full
      rw [getElem?_set_ne hk] at hc
      have hcount := (ht.count k).mp (List.getElem?_eq_some_iff.mp hc).1
      have hle := (le_div_iff_mul_le hper).mpr (le_of_lt_succ hcount)
      have hbefore : k < rows.length / per := by omega
      have hfull : k * per + per ≤ rows.length := by
        rw [← succ_mul]
        exact (mul_le_mul_right per hbefore).trans (div_mul_le_self _ per)
      rw [ht.len k c hc, min_eq_left (by omega), min_eq_left (by omega)]
  · rw [hrows]
    by_cases hold : other < rows.length
    · rw [List.getElem?_append_left hold] at hy
      rw [if_neg (by omega)]
      exact ht.stored other y hy
    · have hlast := (List.getElem?_eq_some_iff.mp hy).1
      rw [List.length_append, List.length_singleton] at hlast
      obtain rfl : other = rows.length := by omega
      have hzero : rowOf stride b.cells (rows.length % per) = replicate stride zero :=
        ht.fresh rows.length _ (le_refl _) (by rw [row, hb, Option.map_some])
      rw [getElem?_concat_length] at hy
      rw [if_pos rfl, ← hy, hzero]
  · rw [List.length_append, List.length_singleton] at hother
    rw [hrows, if_neg (by omega)] at hy
    exact ht.fresh other y (by omega) hy

/-- Blocks for one more row: a new block when the rows in use fill the old ones. -/
def openRow (per stride : ℕ) (zero : α) (blocks : List (Slice α)) (n : ℕ) : List (Slice α) :=
  if n / per = blocks.length then blocks ++ [Slice.empty (per * stride) zero] else blocks

theorem row_concat (hper : 0 < per) (hx : row per stride (blocks ++ [Slice.empty (per * stride) zero]) r = some x) :
    row per stride blocks r = some x ∨ x = replicate stride zero := by
  obtain ⟨b, hb, hrow⟩ := Option.map_eq_some_iff.mp hx
  by_cases hold : r / per < blocks.length
  · rw [List.getElem?_append_left hold] at hb
    exact .inl (by rw [row, hb, Option.map_some, hrow])
  · have hlast := (List.getElem?_eq_some_iff.mp hb).1
    rw [List.length_append, List.length_singleton] at hlast
    have hnew : r / per = blocks.length := by omega
    rw [hnew, getElem?_concat_length, Option.some.injEq] at hb
    have hfits := place_fits stride hper r
    rw [← hrow, ← hb, Slice.empty, rowOf, drop_replicate, take_replicate]
    exact .inr (congrArg (replicate · zero) (by omega))

theorem Table.openRow (ht : Table per stride zero rows.length blocks rows) (hper : 0 < per) :
    Table per stride zero (rows.length + 1) (openRow per stride zero blocks rows.length) rows := by
  have hcount : ∀ k, k * per < rows.length + 1 ↔ k ≤ rows.length / per := fun k => by
    rw [Nat.lt_succ_iff, Nat.le_div_iff_mul_le hper]
  have hle := Nat.div_mul_le_self rows.length per
  rw [BlockRows.openRow]
  by_cases hfull : rows.length / per = blocks.length
  · have hn : rows.length ≤ rows.length / per * per := by
      have hnone := mt (ht.count (rows.length / per)).mpr (by omega)
      omega
    rw [if_pos hfull]
    refine ⟨fun k => ?_, fun b hb => ?_, fun k b hb => ?_, fun r x hx => ?_, fun r x hr hx => ?_⟩
    · rw [hcount, List.length_append, List.length_singleton, hfull]
      omega
    · rcases mem_append.mp hb with hold | hnew
      · exact ht.cells b hold
      · rw [mem_singleton.mp hnew, Slice.empty, length_replicate]
    · by_cases hk : k < blocks.length
      · exact ht.len k b (by rwa [List.getElem?_append_left hk] at hb)
      · have hlast := (List.getElem?_eq_some_iff.mp hb).1
        rw [List.length_append, List.length_singleton] at hlast
        obtain rfl : k = rows.length / per := by omega
        rw [hfull, getElem?_concat_length, Option.some.injEq] at hb
        rw [← hb, Nat.sub_eq_zero_of_le hn, Nat.min_zero, Nat.zero_mul, Slice.empty]
    · obtain ⟨b, hb, hrow⟩ := Option.map_eq_some_iff.mp (ht.stored r x hx)
      rw [row, List.getElem?_append_left (List.getElem?_eq_some_iff.mp hb).1, hb, Option.map_some, hrow]
    · rcases row_concat hper hx with hold | hnew
      · exact ht.fresh r x hr hold
      · exact hnew
  · have hroom : rows.length / per < blocks.length := by
      by_contra hnot
      have hgap := Nat.mul_le_mul_right per (show blocks.length + 1 ≤ rows.length / per by omega)
      have hlast := (ht.count blocks.length).mpr (by rw [Nat.succ_mul] at hgap; omega)
      omega
    rw [if_neg hfull]
    refine ⟨fun k => ?_, ht.cells, ht.len, ht.stored, ht.fresh⟩
    rw [hcount, ht.count]
    constructor
    · intro hk
      exact (Nat.le_div_iff_mul_le hper).mpr hk.le
    · intro hk
      exact (Nat.mul_le_mul_right per hk).trans_lt ((ht.count _).mp hroom)

theorem Table.length_eq {stride' : ℕ} {others : List (Slice α)} {rows' : List (List α)}
    (ht : Table per stride zero room blocks rows) (ho : Table per stride' zero room others rows') :
    blocks.length = others.length := by
  have hboth : ∀ k, k < blocks.length ↔ k < others.length := fun k => by rw [ht.count, ho.count]
  have hle := hboth others.length
  have hge := hboth blocks.length
  omega

end Use

end Tables

end NuclaDB.BlockRows
