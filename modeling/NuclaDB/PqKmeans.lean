import Mathlib.Algebra.BigOperators.Group.Finset.Piecewise
import Mathlib.Algebra.BigOperators.Ring.List
import Mathlib.Algebra.Order.BigOperators.Group.Finset
import Mathlib.Tactic.Ring
import NuclaDB.PqExact

/-!
# Training centroids in exact arithmetic

`kmeans` seeds its centroids with points, then repeats rounds: every point goes to the first
of its nearest centroids, and every centroid that got points moves to their mean.
-/

namespace NuclaDB.Pq

open BlockRows List Nat

section Clusters
variable {α β M : Type} (key : α → ℕ) (l : List α)

theorem getElem?_foldl_modify (f : β → α → β) (cells : List β) (c : ℕ) :
    (l.foldl (fun cells x => cells.modify (key x) (f · x)) cells)[c]? =
      cells[c]?.map ((l.filter fun x => key x = c).foldl f) := by
  induction l generalizing cells with
  | nil => simp
  | cons x l ih =>
    rw [foldl_cons, ih, getElem?_modify]
    by_cases hx : key x = c
    · simp [hx, Function.comp_def]
    · simp [hx]

theorem sum_clusters [AddCommMonoid M] {k : ℕ} (f : ℕ → α → M) (hkey : ∀ x ∈ l, key x < k) :
    (l.map fun x => f (key x) x).sum =
      ∑ c ∈ Finset.range k, ((l.filter fun x => key x = c).map (f c)).sum := by
  induction l with
  | nil => simp
  | cons x l ih =>
    obtain ⟨hx, hl⟩ := forall_mem_cons.mp hkey
    have hsplit : ∀ c, (((x :: l).filter fun x => key x = c).map (f c)).sum =
        (if key x = c then f c x else 0) + ((l.filter fun x => key x = c).map (f c)).sum := by
      intro c
      by_cases hc : key x = c
      · simp [hc]
      · simp [hc]
    rw [map_cons, sum_cons, ih hl, Finset.sum_congr rfl fun c _ => hsplit c, Finset.sum_add_distrib,
      Finset.sum_ite_eq, if_pos (Finset.mem_range.mpr hx)]

end Clusters

section Means
variable {K : Type} [Field K] {a b x : List K} {ps : List (List K)} {n : ℕ}

def dot (a b : List K) : K := (zipWith (· * ·) a b).sum

theorem sumSquares_eq_dot (h : a.length = b.length) :
    sumSquares a b = dot a a - 2 * dot a b + dot b b := by
  induction a generalizing b with
  | nil => simp [sumSquares, dot, length_eq_zero_iff.mp h.symm]
  | cons u a ih =>
    obtain ⟨v, b, rfl⟩ := exists_cons_of_length_eq_add_one h.symm
    have ih := ih (succ.inj h)
    simp only [sumSquares, dot, zipWith_cons_cons, sum_cons] at ih ⊢
    rw [ih]
    ring

theorem dot_add (h : a.length = b.length) : dot (zipWith (· + ·) a b) x = dot a x + dot b x := by
  induction a generalizing b x with
  | nil => simp [dot, length_eq_zero_iff.mp h.symm]
  | cons u a ih =>
    obtain ⟨v, b, rfl⟩ := exists_cons_of_length_eq_add_one h.symm
    cases x with
    | nil => simp [dot]
    | cons w x =>
      have ih := ih (x := x) (succ.inj h)
      simp only [dot, zipWith_cons_cons, sum_cons] at ih ⊢
      rw [ih]
      ring

theorem dot_div (a x : List K) (c : K) : dot (a.map (· / c)) x = dot a x / c := by
  rw [dot, dot, zipWith_map_left, div_eq_mul_inv, ← map_id (zipWith (· * ·) a x),
    ← sum_map_mul_right, map_zipWith]
  simp only [div_eq_mul_inv, mul_right_comm, id]

theorem dot_zero (n : ℕ) (x : List K) : dot (replicate n 0) x = 0 := by
  apply sum_eq_zero
  intro y hy
  obtain ⟨i, -, rfl⟩ := mem_iff_getElem.mp hy
  simp

theorem foldl_add_spec (hps : ∀ p ∈ ps, p.length = n) (ha : a.length = n) :
    (ps.foldl (zipWith (· + ·)) a).length = n ∧
      ∀ x, dot (ps.foldl (zipWith (· + ·)) a) x = dot a x + (ps.map (dot · x)).sum := by
  induction ps generalizing a with
  | nil => simp [ha]
  | cons p ps ih =>
    obtain ⟨hp, hps⟩ := forall_mem_cons.mp hps
    obtain ⟨hlength, hdot⟩ := ih hps (a := zipWith (· + ·) a p) (by simp [ha, hp])
    refine ⟨hlength, fun x => ?_⟩
    rw [foldl_cons, hdot, dot_add (ha.trans hp.symm), map_cons, sum_cons, add_assoc]

theorem sum_sumSquares (hps : ∀ p ∈ ps, p.length = n) (hx : x.length = n) :
    (ps.map (sumSquares · x)).sum =
      (ps.map fun p => dot p p).sum - 2 * (ps.map (dot · x)).sum + ps.length * dot x x := by
  induction ps with
  | nil => simp
  | cons p ps ih =>
    obtain ⟨hp, hps⟩ := forall_mem_cons.mp hps
    simp only [map_cons, sum_cons, length_cons, cast_succ, ih hps, sumSquares_eq_dot (hp.trans hx.symm)]
    ring

/-- For the points together, nothing is better than their mean. -/
theorem sum_sumSquares_mean_le [LinearOrder K] [IsStrictOrderedRing K] (hne : ps ≠ [])
    (hps : ∀ p ∈ ps, p.length = n) (hx : x.length = n) :
    (ps.map (sumSquares · ((ps.foldl (zipWith (· + ·)) (replicate n 0)).map (· / (ps.length : K))))).sum ≤
      (ps.map (sumSquares · x)).sum := by
  have hcount : (0 : K) < ps.length := cast_pos.mpr (length_pos_of_ne_nil hne)
  obtain ⟨hlength, hdot⟩ := foldl_add_spec hps (length_replicate (n := n) (a := (0 : K)))
  generalize ps.foldl (zipWith (· + ·)) (replicate n 0) = total at *
  have hmean : (total.map (· / (ps.length : K))).length = n := (length_map _).trans hlength
  have hsum : ∀ y, (ps.map (dot · y)).sum = ps.length * dot (total.map (· / (ps.length : K))) y := by
    intro y
    rw [dot_div, mul_div_cancel₀ _ hcount.ne', hdot, dot_zero, zero_add]
  have hgap := mul_nonneg hcount.le (sumSquares_nonneg (total.map (· / (ps.length : K))) x)
  rw [sumSquares_eq_dot (hmean.trans hx.symm)] at hgap
  rw [sum_sumSquares hps hmean, sum_sumSquares hps hx, hsum, hsum]
  linarith

end Means

/-- The answers of the random generator, by the number of the call. -/
structure Rand (K : Type) where
  intn (call n : ℕ) : ℕ
  float64 (call : ℕ) : K
  intn_lt (call : ℕ) {n : ℕ} : 0 < n → intn call n < n

section Model
variable {K : Type} [Field K] [LinearOrder K]

/-- The first place where the running sum reaches `r`. -/
def pick (r : WithTop K) : ℕ → WithTop K → List (WithTop K) → ℕ
  | _, _, [] => 0
  | i, cum, d :: dists => if r ≤ cum + d then i else pick r (i + 1) (cum + d) dists

/-- `copy(flat[c*subDim:(c+1)*subDim], p)`. -/
def copyRow (flat : List K) (c subDim : ℕ) (p : List K) : Option (List K) :=
  if (c + 1) * subDim ≤ flat.length then some (splice flat (c * subDim) (p.take subDim)) else none

variable (points : List (List K)) (k subDim : ℕ) (rng : Rand K)

def seedNext (seeds : List K × List (WithTop K)) (c : ℕ) : Option (List K × List (WithTop K)) := do
  let (flat, minDist2) := seeds
  let total := minDist2.sum
  let idx := if total = 0 then rng.intn c points.length
    else pick (total.map (rng.float64 c * ·)) 0 0 minDist2
  let p ← points[idx]?
  let flat ← copyRow flat c subDim p
  return (flat, zipWith (fun q d => if exactDist q p < d then exactDist q p else d) points minDist2)

def kmeansPlusPlusInit : Option (List K) := do
  let subDim := (← points[0]?).length
  let p ← points[rng.intn 0 points.length]?
  let flat ← copyRow (replicate (k * subDim) 0) 0 subDim p
  let seeds ← (range' 1 (k - 1)).foldlM (seedNext points subDim rng) (flat, points.map (exactDist · p))
  return seeds.1

def sumsOf (assign : List ℕ) : List (List K) :=
  (points.zip assign).foldl (fun sums x => sums.modify x.2 (zipWith (· + ·) · x.1))
    (replicate k (replicate subDim 0))

def countsOf (assign : List ℕ) : List ℕ :=
  assign.foldl (fun counts c => counts.modify c (· + 1)) (replicate k 0)

/-- The centroids that have points go to their means, the others stay. -/
def moveCentroids (flat : List K) (assign : List ℕ) : List K :=
  let sums := sumsOf points k subDim assign
  let counts := countsOf k assign
  (range k).foldl (fun flat c =>
    if counts.getD c 0 = 0 then flat
    else splice flat (c * subDim) ((sums.getD c []).map (· / (counts.getD c 0 : K)))) flat

def closest (flat p : List K) : ℕ := (nearest (fun c => exactDist p (centroidAt flat c subDim)) k).1

def lloyd (flat : List K) : List K := moveCentroids points k subDim flat (points.map (closest k subDim flat))

def rounds : ℕ → ℕ → List K → List ℕ → List K
  | 0, _, flat, _ => flat
  | left + 1, iter, flat, assign =>
    let next := points.map (closest k subDim flat)
    if next = assign ∧ 0 < iter then lloyd points k subDim flat
    else rounds left (iter + 1) (lloyd points k subDim flat) next

def kmeans (iters : ℕ) : Option (List K) := do
  let subDim := (← points[0]?).length
  let centroids ← kmeansPlusPlusInit points k rng
  return rounds points k subDim iters 0 centroids (replicate points.length 0)

def totalError (flat : List K) : WithTop K :=
  (points.map fun p => (Finset.range k).inf fun c => exactDist p (centroidAt flat c subDim)).sum

end Model

section Rounds
variable {K : Type} [Field K] {points : List (List K)} {k subDim : ℕ} {flat : List K}
  {b : List K → ℕ} {c : ℕ}

omit [Field K] in
theorem getD_countsOf (hc : c < k) :
    (countsOf k (points.map b)).getD c 0 = (points.filter fun p => b p = c).length := by
  rw [countsOf, foldl_map, getD_eq_getElem?_getD, getElem?_foldl_modify b points fun n _ => n + 1,
    getElem?_replicate, if_pos hc, Option.map_some, Option.getD_some, foldl_const]
  simp

theorem getD_sumsOf (hc : c < k) : (sumsOf points k subDim (points.map b)).getD c [] =
    (points.filter fun p => b p = c).foldl (zipWith (· + ·)) (replicate subDim 0) := by
  rw [sumsOf, ← map_prod_left_eq_zip, foldl_map, getD_eq_getElem?_getD,
    getElem?_foldl_modify b points (zipWith (· + ·)), getElem?_replicate, if_pos hc]
  rfl

section
variable (hdim : ∀ p ∈ points, p.length = subDim) (hflat : flat.length = k * subDim)
include hdim hflat

theorem moveCentroids_rows (b : List K → ℕ) :
    (moveCentroids points k subDim flat (points.map b)).length = k * subDim ∧
    ∀ c < k, centroidAt (moveCentroids points k subDim flat (points.map b)) c subDim =
      let ps := points.filter fun p => b p = c
      if ps.length = 0 then centroidAt flat c subDim
      else (ps.foldl (zipWith (· + ·)) (replicate subDim 0)).map (· / (ps.length : K)) := by
  have hsums : ∀ c < k, ((sumsOf points k subDim (points.map b)).getD c []).length = subDim := by
    intro c hc
    rw [getD_sumsOf hc]
    exact (foldl_add_spec (fun p hp => hdim p (mem_of_mem_filter hp)) length_replicate).1
  obtain ⟨hlength, hrows⟩ := rowOf_foldl_splice (p := fun c => (countsOf k (points.map b)).getD c 0 = 0)
    (fun c hc => (length_map _).trans (hsums c hc)) hflat.ge
  refine ⟨hlength.trans hflat, fun c hc => (hrows c (hflat ▸ row_fits subDim hc)).trans ?_⟩
  simp only [hc, true_and, getD_countsOf hc, getD_sumsOf hc, ite_not]
  rfl

theorem coe_sum_sumSquares (hb : ∀ p, b p < k) :
    ((points.map fun p => sumSquares p (centroidAt flat (b p) subDim)).sum : K) =
      (points.map fun p => exactDist p (centroidAt flat (b p) subDim)).sum := by
  rw [coe_sum]
  congr 1
  refine map_congr_left fun p hp => (sqDist_of_length ?_).symm
  rw [hdim p hp, length_centroidAt hflat (hb p)]

variable [LinearOrder K] [IsStrictOrderedRing K]

theorem sum_moveCentroids_le (hb : ∀ p, b p < k) :
    (points.map fun p => exactDist p (centroidAt (moveCentroids points k subDim flat (points.map b)) (b p) subDim)).sum ≤
      (points.map fun p => exactDist p (centroidAt flat (b p) subDim)).sum := by
  obtain ⟨hlength, hrows⟩ := moveCentroids_rows hdim hflat b
  rw [← coe_sum_sumSquares hdim hlength hb, ← coe_sum_sumSquares hdim hflat hb, WithTop.coe_le_coe,
    sum_clusters b _ (fun c p => sumSquares p (centroidAt _ c subDim)) fun p _ => hb p,
    sum_clusters b _ (fun c p => sumSquares p (centroidAt flat c subDim)) fun p _ => hb p]
  refine Finset.sum_le_sum fun c hc => ?_
  have hc := Finset.mem_range.mp hc
  rw [hrows c hc]
  dsimp only
  split
  · exact le_refl _
  · rename_i hne
    exact sum_sumSquares_mean_le (fun hnil => hne (length_eq_zero_iff.mpr hnil))
      (fun p hp => hdim p (mem_of_mem_filter hp)) (length_centroidAt hflat hc)

theorem totalError_lloyd_le (hk : 0 < k) :
    totalError points k subDim (lloyd points k subDim flat) ≤ totalError points k subDim flat := by
  have hnearest (p : List K) := nearest_spec (fun c => exactDist p (centroidAt flat c subDim)) hk
  have hmin : ∀ p, (Finset.range k).inf (fun c => exactDist p (centroidAt flat c subDim)) =
      exactDist p (centroidAt flat (closest k subDim flat p) subDim) := by
    intro p
    obtain ⟨hlt, hdist, hleast⟩ := hnearest p
    refine le_antisymm (Finset.inf_le (Finset.mem_range.mpr hlt)) (Finset.le_inf fun c hc => ?_)
    exact hdist.symm.trans_le (hleast c (Finset.mem_range.mp hc))
  calc totalError points k subDim (lloyd points k subDim flat)
      ≤ (points.map fun p =>
          exactDist p (centroidAt (lloyd points k subDim flat) (closest k subDim flat p) subDim)).sum :=
        sum_le_sum fun p _ => Finset.inf_le (Finset.mem_range.mpr (hnearest p).1)
    _ ≤ (points.map fun p => exactDist p (centroidAt flat (closest k subDim flat p) subDim)).sum :=
        sum_moveCentroids_le hdim hflat fun p => (hnearest p).1
    _ = totalError points k subDim flat := by
        simp only [totalError, hmin]

theorem rounds_spec (hk : 0 < k) (left iter : ℕ) (assign : List ℕ) :
    let out := rounds points k subDim left iter flat assign
    out.length = k * subDim ∧ totalError points k subDim out ≤ totalError points k subDim flat := by
  induction left generalizing iter flat assign with
  | zero => exact ⟨hflat, le_refl _⟩
  | succ left ih =>
    have hlength : (lloyd points k subDim flat).length = k * subDim := (moveCentroids_rows hdim hflat _).1
    have hround := totalError_lloyd_le hdim hflat hk
    simp only [rounds]
    split
    · exact ⟨hlength, hround⟩
    · obtain ⟨hrest, hle⟩ := ih hlength (iter + 1) (points.map (closest k subDim flat))
      exact ⟨hrest, hle.trans hround⟩

end

end Rounds

section Seeds
variable {K : Type} {points : List (List K)} {k subDim : ℕ} {flat : List K}

theorem copyRow_eq (hflat : flat.length = k * subDim) {c : ℕ} (hc : c < k) {p : List K} (hp : p.length = subDim) :
    ∃ flat', copyRow flat c subDim p = some flat' ∧ flat'.length = k * subDim := by
  have hfits : (c + 1) * subDim ≤ flat.length := hflat ▸ mul_le_mul_right subDim hc
  refine ⟨_, if_pos hfits, ?_⟩
  rw [length_splice, hflat]
  rwa [take_of_length_le hp.le, hp, ← succ_mul]

variable [Field K] [LinearOrder K]

theorem pick_lt (r : WithTop K) (i : ℕ) (cum : WithTop K) (dists : List (WithTop K)) :
    pick r i cum dists < i + dists.length ∨ pick r i cum dists = 0 := by
  induction dists generalizing i cum with
  | nil => exact .inr rfl
  | cons d dists ih =>
    rw [pick, length_cons]
    split
    · exact .inl (by omega)
    · exact (ih (i + 1) (cum + d)).imp_left fun hlt => by omega

variable (hne : points ≠ []) (hdim : ∀ p ∈ points, p.length = subDim) (rng : Rand K)
include hne hdim

theorem seedNext_spec {c : ℕ} (hc : c < k) {seeds : List K × List (WithTop K)}
    (h : seeds.1.length = k * subDim ∧ seeds.2.length = points.length) :
    ∃ next, seedNext points subDim rng seeds c = some next ∧
      next.1.length = k * subDim ∧ next.2.length = points.length := by
  have hpos := length_pos_of_ne_nil hne
  have hidx : (if seeds.2.sum = 0 then rng.intn c points.length
      else pick (seeds.2.sum.map (rng.float64 c * ·)) 0 0 seeds.2) < points.length := by
    split
    · exact rng.intn_lt c hpos
    · rcases pick_lt (seeds.2.sum.map (rng.float64 c * ·)) 0 0 seeds.2 with hlt | hzero
      · rwa [zero_add, h.2] at hlt
      · rwa [hzero]
  obtain ⟨flat', hcopy, hlength⟩ := copyRow_eq h.1 hc (hdim _ (getElem_mem hidx))
  simp only [seedNext, getElem?_eq_getElem hidx, Option.bind_eq_bind, Option.bind_some, hcopy]
  refine ⟨_, rfl, hlength, ?_⟩
  rw [length_zipWith, h.2, min_self]

theorem kmeansPlusPlusInit_spec (hk : 0 < k) :
    ∃ flat, kmeansPlusPlusInit points k rng = some flat ∧ flat.length = k * subDim := by
  have hpos := length_pos_of_ne_nil hne
  have hfirst := rng.intn_lt 0 hpos
  obtain ⟨flat, hcopy, hlength⟩ := copyRow_eq
    (length_replicate : (replicate (k * subDim) (0 : K)).length = _) hk (hdim _ (getElem_mem hfirst))
  obtain ⟨seeds, hseeds, hmatrix, -⟩ := foldlM_keeps (f := seedNext points subDim rng)
    (I := fun seeds => seeds.1.length = k * subDim ∧ seeds.2.length = points.length) (l := range' 1 (k - 1))
    (s := (flat, points.map (exactDist · points[rng.intn 0 points.length])))
    (fun c hc _ hs => seedNext_spec hne hdim rng (by have := mem_range'_1.mp hc; omega) hs)
    ⟨hlength, length_map _⟩
  refine ⟨seeds.1, ?_, hmatrix⟩
  simp only [kmeansPlusPlusInit, getElem?_eq_getElem hpos, getElem?_eq_getElem hfirst, Option.bind_eq_bind,
    Option.bind_some, hdim _ (getElem_mem hpos), hcopy, hseeds]
  rfl

theorem kmeans_spec [IsStrictOrderedRing K] (hk : 0 < k) (iters : ℕ) :
    ∃ seeds flat, kmeansPlusPlusInit points k rng = some seeds ∧ kmeans points k rng iters = some flat ∧
      flat.length = k * subDim ∧ totalError points k subDim flat ≤ totalError points k subDim seeds := by
  have hpos := length_pos_of_ne_nil hne
  obtain ⟨seeds, hseeds, hlength⟩ := kmeansPlusPlusInit_spec hne hdim rng hk
  refine ⟨seeds, _, hseeds, ?_, rounds_spec hdim hlength hk iters 0 (replicate points.length 0)⟩
  simp only [kmeans, getElem?_eq_getElem hpos, Option.bind_eq_bind, Option.bind_some,
    hdim _ (getElem_mem hpos), hseeds]
  rfl

end Seeds

/-- A round never increases the error, and `kmeans` gives `k` rows of the points' length. -/
theorem lloyd_never_worse {K : Type} [Field K] [LinearOrder K] [IsStrictOrderedRing K] {points : List (List K)}
    {k dim : ℕ} (hne : points ≠ []) (hdim : ∀ p ∈ points, p.length = dim) (hk : 1 ≤ k) :
    (∀ flat : List K, flat.length = k * dim →
      totalError points k dim (lloyd points k dim flat) ≤ totalError points k dim flat) ∧
    ∀ (rng : Rand K) (iters : ℕ), ∃ flat, kmeans points k rng iters = some flat ∧ flat.length = k * dim := by
  refine ⟨fun flat hflat => totalError_lloyd_le hdim hflat hk, fun rng iters => ?_⟩
  obtain ⟨seeds, flat, -, hflat, hlength, -⟩ := kmeans_spec hne hdim rng hk iters
  exact ⟨flat, hflat, hlength⟩

theorem lloyd_halves_error :
    lloyd [[0], [2]] 1 1 [(0 : ℚ)] = [1] ∧ totalError [[0], [2]] 1 1 [(1 : ℚ)] = 2 ∧
      totalError [[0], [2]] 1 1 [(0 : ℚ)] = 4 ∧
      totalError [[0], [2]] 1 1 (lloyd [[0], [2]] 1 1 [(0 : ℚ)]) ≤ totalError [[0], [2]] 1 1 [(0 : ℚ)] :=
  ⟨by decide +kernel, by decide +kernel, by decide +kernel,
    (lloyd_never_worse (by decide) (by decide) (by decide)).1 [0] rfl⟩

end NuclaDB.Pq
