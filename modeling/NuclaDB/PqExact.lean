import Mathlib.Algebra.Order.BigOperators.Group.List
import Mathlib.Algebra.Order.Ring.WithTop
import Mathlib.Data.List.GetD
import Mathlib.Tactic.Linarith
import NuclaDB.PqIndex
import NuclaDB.TopK

/-!
# Product quantization in exact arithmetic

The codebook's functions over an ordered ring, with `⊤` for the infinity. A code stands for the vector made of its
centroids, and squared distances add up over the parts of a vector.
-/

namespace NuclaDB.Pq

open BlockRows BinaryHeap List

section Loops
variable {β σ : Type}

theorem foldlM_checked (p : β → Prop) [DecidablePred p] (g : σ → β → σ) (l : List β) (a : σ) :
    l.foldlM (fun a x => if p x then some (g a x) else none) a =
      if ∀ x ∈ l, p x then some (l.foldl g a) else none := by
  induction l generalizing a with
  | nil => simp
  | cons x l ih =>
    by_cases hx : p x
    · simp [foldlM_cons, hx, ih]
    · simp [foldlM_cons, hx]

theorem foldlM_keeps {f : σ → β → Option σ} {I : σ → Prop} {l : List β}
    (hf : ∀ x ∈ l, ∀ s, I s → ∃ s', f s x = some s' ∧ I s') {s : σ} (hs : I s) :
    ∃ s', l.foldlM f s = some s' ∧ I s' := by
  induction l generalizing s with
  | nil => exact ⟨s, rfl, hs⟩
  | cons x l ih =>
    obtain ⟨hx, hl⟩ := forall_mem_cons.mp hf
    obtain ⟨s', hstep, hs'⟩ := hx s hs
    rw [foldlM_cons, hstep]
    exact ih hl hs'

end Loops

section Distances
variable {K : Type} [CommRing K]

def sumSquares (a b : List K) : K := (zipWith (fun x y => (x - y) * (x - y)) a b).sum

instance : Sums K (WithTop K) where
  finite _ := true
  zero := 0
  inf := ⊤
  add a b := a + b
  sumSquares a b := (sumSquares a b : K)

abbrev exactDist (a b : List K) : WithTop K := sqDist a b

theorem sqDist_of_length {a b : List K} (h : a.length = b.length) : exactDist a b = (sumSquares a b : K) :=
  if_neg (not_not.mpr h)

theorem coe_sum {ι : Type} (f : ι → K) (l : List ι) :
    ((l.map f).sum : K) = (l.map fun s => (f s : WithTop K)).sum := by
  rw [← WithTop.coe_addHom, map_list_sum, map_map]
  rfl

theorem sumSquares_append {a b c d : List K} (h : a.length = b.length) :
    sumSquares (a ++ c) (b ++ d) = sumSquares a b + sumSquares c d := by
  rw [sumSquares, zipWith_append h, sum_append]
  rfl

theorem sumSquares_flatMap {v : List K} {f : ℕ → List K} {n stride : ℕ}
    (hf : ∀ s < n, (f s).length = stride) (hv : n * stride ≤ v.length) :
    sumSquares (v.take (n * stride)) ((range n).flatMap f) =
      ((range n).map fun s => sumSquares (rowOf stride v s) (f s)).sum := by
  induction n with
  | zero => simp [sumSquares]
  | succ n ih =>
    have hbefore : ∀ s < n, (f s).length = stride := fun s hs => hf s (by omega)
    rw [Nat.succ_mul] at hv ⊢
    rw [range_succ, flatMap_append, flatMap_singleton, map_append, sum_append,
      ← ih hbefore (by omega), take_add, sumSquares_append, map_singleton, sum_singleton]
    · rfl
    · rw [length_flatMap_range hbefore, length_take]
      omega

theorem sumSquares_self (a : List K) : sumSquares a a = 0 := by
  simp [sumSquares]

variable [LinearOrder K]

instance : Arith K (WithTop K) where
  lt a b := decide (a < b)
  sortSlice less l := l.mergeSort fun a b => !less b a
  sortSlice_perm _ l := mergeSort_perm l _
  sortSlice_sorted less ho l :=
    have hw : Weak fun a b => less b a := ⟨ho.asymm, fun hab hbc => ho.not_trans hbc hab⟩
    TopK.pairwise_mergeSort hw l

theorem nearest_succ (dist : ℕ → WithTop K) {n : ℕ} (hn : 0 < n) :
    nearest dist (n + 1) = if dist n < (nearest dist n).2 then (n, dist n) else nearest dist n := by
  have hrange : range' 1 n = range' 1 (n - 1) ++ [n] := by
    have h : range' 1 (n - 1 + 1) = _ := range'_1_concat
    rwa [show n - 1 + 1 = n by omega, show 1 + (n - 1) = n by omega] at h
  rw [nearest, Nat.add_sub_cancel, hrange, foldl_concat, ← nearest]
  simp [Arith.lt]

theorem nearest_spec (dist : ℕ → WithTop K) {n : ℕ} (hn : 0 < n) :
    (nearest dist n).1 < n ∧ (nearest dist n).2 = dist (nearest dist n).1 ∧
      ∀ k < n, (nearest dist n).2 ≤ dist k := by
  induction n, hn using Nat.le_induction with
  | base => exact ⟨Nat.one_pos, rfl, fun k hk => by rw [Nat.lt_one_iff.mp hk]; exact le_refl _⟩
  | succ n hn ih =>
    obtain ⟨hlt, hdist, hleast⟩ := ih
    rw [nearest_succ dist hn]
    by_cases hcloser : dist n < (nearest dist n).2
    · rw [if_pos hcloser]
      refine ⟨Nat.lt_succ_self n, rfl, fun k hk => ?_⟩
      rcases Nat.lt_succ_iff_lt_or_eq.mp hk with hk | rfl
      · exact hcloser.le.trans (hleast k hk)
      · exact le_refl _
    · rw [if_neg hcloser]
      refine ⟨by omega, hdist, fun k hk => ?_⟩
      rcases Nat.lt_succ_iff_lt_or_eq.mp hk with hk | rfl
      · exact hleast k hk
      · exact not_lt.mp hcloser

variable [IsStrictOrderedRing K]

theorem sumSquares_nonneg (a b : List K) : 0 ≤ sumSquares a b := by
  apply sum_nonneg
  intro x hx
  obtain ⟨i, -, rfl⟩ := mem_iff_getElem.mp hx
  rw [getElem_zipWith]
  exact mul_self_nonneg _

theorem eq_of_sumSquares_nonpos {a b : List K} (hlength : a.length = b.length)
    (h : sumSquares a b ≤ 0) : a = b := by
  induction a generalizing b with
  | nil => exact (length_eq_zero_iff.mp hlength.symm).symm
  | cons x a ih =>
    cases b with
    | nil => simp at hlength
    | cons y b =>
      have hsum : sumSquares (x :: a) (y :: b) = (x - y) * (x - y) + sumSquares a b := by simp [sumSquares]
      have hsquare := mul_self_nonneg (x - y)
      have hrest := sumSquares_nonneg a b
      have hhead : (x - y) * (x - y) = 0 := by linarith
      rw [sub_eq_zero.mp (mul_self_eq_zero.mp hhead), ih (Nat.succ.inj hlength) (by linarith)]

end Distances

section Model
variable {K : Type}

theorem length_centroidAt {flat : List K} {k idx subDim : ℕ} (hflat : flat.length = k * subDim) (hidx : idx < k) :
    (centroidAt flat idx subDim).length = subDim :=
  length_rowOf (hflat ▸ row_fits subDim hidx)

namespace Codebook
variable {cb : Codebook K} {code : List UInt8}

structure Valid (cb : Codebook K) (code : List UInt8) : Prop where
  length : code.length = cb.numSubvectors
  entry : ∀ s < cb.numSubvectors, (code.getD s 0).toNat < cb.numCentroids

def concat (cb : Codebook K) (code : List UInt8) : List K :=
  (range cb.numSubvectors).flatMap fun s => cb.centroid s (code.getD s 0).toNat

theorem length_centroid (cb : Codebook K) {s k : ℕ} (hs : s < cb.numSubvectors) (hk : k < cb.numCentroids) :
    (cb.centroid s k).length = cb.subDim := by
  have hs' : s < cb.centroids.length := by rwa [cb.centroids_length]
  rw [centroid, getD_eq_getElem _ _ hs']
  exact length_centroidAt (cb.centroid_length _ (getElem_mem hs')) hk

theorem Valid.parts (h : cb.Valid code) :
    ∀ s < cb.numSubvectors, (cb.centroid s (code.getD s 0).toNat).length = cb.subDim :=
  fun s hs => cb.length_centroid hs (h.entry s hs)

theorem Valid.length_concat (h : cb.Valid code) : (cb.concat code).length = cb.dim := by
  rw [concat, length_flatMap_range h.parts, cb.subDim_mul]

end Codebook

variable [CommRing K]

namespace Codebook

def decode (cb : Codebook K) (code : List UInt8) : Option (List K) :=
  if code.length ≠ cb.numSubvectors then none
  else (range code.length).foldlM
    (fun out s =>
      if (code.getD s 0).toNat < cb.numCentroids
      then some (splice out (s * cb.subDim) (cb.centroid s (code.getD s 0).toNat)) else none)
    (replicate cb.dim 0)

variable {cb : Codebook K} {code : List UInt8} {v u : List K}

theorem Valid.decode_eq (h : cb.Valid code) : cb.decode code = some (cb.concat code) := by
  rw [decode, if_neg (not_not.mpr h.length), foldlM_checked, h.length,
    if_pos fun s hs => h.entry s (mem_range.mp hs), foldl_splice h.parts]
  · rfl
  · rw [length_replicate, cb.subDim_mul]

theorem valid_of_decode (h : cb.decode code = some u) : cb.Valid code ∧ u = cb.concat code := by
  have hvalid : cb.Valid code := by
    rw [decode] at h
    split at h
    · cases h
    · rename_i hlength
      rw [foldlM_checked] at h
      split at h
      · rename_i hentries
        rw [not_not.mp hlength] at hentries
        exact ⟨not_not.mp hlength, fun s hs => hentries s (mem_range.mpr hs)⟩
      · cases h
  exact ⟨hvalid, Option.some.inj (h.symm.trans hvalid.decode_eq)⟩

theorem centroidDist_eq (hv : v.length = cb.dim) {s k : ℕ} (hs : s < cb.numSubvectors) (hk : k < cb.numCentroids) :
    cb.centroidDist (WithTop K) v s k = sumSquares (rowOf cb.subDim v s) (cb.centroid s k) := by
  apply sqDist_of_length
  rw [cb.length_centroid hs hk, length_rowOf]
  rw [hv, ← cb.subDim_mul]
  exact row_fits cb.subDim hs

theorem Valid.sqDist_concat (h : cb.Valid code) (hv : v.length = cb.dim) :
    exactDist v (cb.concat code) = ((range cb.numSubvectors).map fun s =>
      sumSquares (rowOf cb.subDim v s) (cb.centroid s (code.getD s 0).toNat)).sum := by
  have hall : v.take (cb.numSubvectors * cb.subDim) = v := by rw [cb.subDim_mul, ← hv, take_length]
  rw [sqDist_of_length (hv.trans h.length_concat.symm)]
  nth_rewrite 1 [← hall]
  rw [concat, sumSquares_flatMap h.parts (by rw [hv, cb.subDim_mul])]

theorem takes (hv : v.length = cb.dim) : ¬(v.length ≠ cb.dim ∨ v.all (Sums.finite (WithTop K)) = false) := by
  simp [hv, Sums.finite]

def pair : Codebook ℚ :=
  ⟨2, 2, 2, 1, [[0, 1], [0, 3]], by decide, rfl, by decide, by decide, rfl, by decide⟩

variable [LinearOrder K]

theorem encode_eq (hv : v.length = cb.dim) : ∃ code, cb.encode (WithTop K) v = .ok code ∧ cb.Valid code ∧
    ∀ s < cb.numSubvectors, ∀ k < cb.numCentroids,
      sumSquares (rowOf cb.subDim v s) (cb.centroid s (code.getD s 0).toNat) ≤
        sumSquares (rowOf cb.subDim v s) (cb.centroid s k) := by
  have hnearest (s : ℕ) := nearest_spec (cb.centroidDist (WithTop K) v s) cb.numCentroids_pos
  refine ⟨_, if_neg (takes hv), ?_⟩
  have hentry : ∀ s < cb.numSubvectors, (((range cb.numSubvectors).map fun s =>
      UInt8.ofNat (nearest (cb.centroidDist (WithTop K) v s) cb.numCentroids).1).getD s 0).toNat =
      (nearest (cb.centroidDist (WithTop K) v s) cb.numCentroids).1 := by
    intro s hs
    have hbyte := (hnearest s).1.trans_le cb.numCentroids_le
    rw [getD_eq_getElem _ _ (by simpa using hs), getElem_map, getElem_range]
    exact UInt8.toNat_ofNat_of_lt hbyte
  constructor
  · refine ⟨by rw [length_map, length_range], fun s hs => ?_⟩
    rw [hentry s hs]
    exact (hnearest s).1
  · intro s hs k hk
    obtain ⟨hlt, hdist, hleast⟩ := hnearest s
    have hle := hleast k hk
    rw [hdist, centroidDist_eq hv hs hlt, centroidDist_eq hv hs hk] at hle
    rw [hentry s hs]
    exact WithTop.coe_le_coe.mp hle

theorem encode_optimal [IsStrictOrderedRing K] (cb : Codebook K) :
    (∀ v, v.length = cb.dim → ∃ code w, cb.encode (WithTop K) v = .ok code ∧ cb.decode code = some w ∧
      ∀ c u, cb.decode c = some u → exactDist v w ≤ exactDist v u) ∧
    ∀ c u, cb.decode c = some u → ∃ c', cb.encode (WithTop K) u = .ok c' ∧ cb.decode c' = some u := by
  have hoptimal : ∀ v, v.length = cb.dim → ∃ code w, cb.encode (WithTop K) v = .ok code ∧ cb.decode code = some w ∧
      ∀ c u, cb.decode c = some u → exactDist v w ≤ exactDist v u := by
    intro v hv
    obtain ⟨code, hcode, hvalid, hleast⟩ := encode_eq hv
    refine ⟨code, _, hcode, hvalid.decode_eq, fun c u hu => ?_⟩
    obtain ⟨hc, rfl⟩ := valid_of_decode hu
    rw [hvalid.sqDist_concat hv, hc.sqDist_concat hv, WithTop.coe_le_coe]
    apply sum_le_sum
    intro s hs
    have hs := mem_range.mp hs
    exact hleast s hs _ (hc.entry s hs)
  refine ⟨hoptimal, fun c u hu => ?_⟩
  -- Nothing is nearer to a vector with a code than the vector itself.
  obtain ⟨hc, rfl⟩ := valid_of_decode hu
  obtain ⟨c', w, hc', hw, hleast⟩ := hoptimal _ hc.length_concat
  obtain ⟨hvalid', rfl⟩ := valid_of_decode hw
  have hlength := hc.length_concat.trans hvalid'.length_concat.symm
  have hle := hleast c _ hu
  rw [sqDist_of_length hlength, sqDist_of_length rfl, sumSquares_self, WithTop.coe_le_coe] at hle
  refine ⟨c', hc', ?_⟩
  rw [hw, eq_of_sumSquares_nonpos hlength hle]

theorem encode_optimal_pair : pair.encode (WithTop ℚ) [3, 2] = .ok [1, 1] ∧ pair.decode [1, 1] = some [1, 3] ∧
      (∀ c u, pair.decode c = some u → ∃ c', pair.encode (WithTop ℚ) u = .ok c' ∧ pair.decode c' = some u) :=
  ⟨by decide +kernel, by decide +kernel, (encode_optimal pair).2⟩

end Codebook

end Model

def lineCodebook : Codebook ℚ :=
  ⟨1, 1, 2, 1, [[0, 10]], by decide, rfl, by decide, by decide, rfl, by decide⟩

end NuclaDB.Pq
