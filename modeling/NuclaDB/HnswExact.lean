import Mathlib.Algebra.Order.Ring.Int
import Mathlib.Data.List.Sort
import NuclaDB.HnswGraph

/-!
# Exact distances

An instance of `Dist` that can be evaluated: float32 values as integers, in units of the
smallest subnormal. The cosine functions are not used with this metric.
-/

namespace NuclaDB.Hnsw

structure Exact where
  sq : ℤ
deriving DecidableEq

namespace Exact

def scaled (x : UInt32) : ℤ :=
  let exponent := ((x >>> 23) &&& 0xFF).toNat
  let fraction := (x &&& 0x7FFFFF).toNat
  let magnitude := if exponent = 0 then fraction else (fraction + 2 ^ 23) * 2 ^ (exponent - 1)
  if x >>> 31 = 1 then -magnitude else magnitude

def distance (a b : Vec) : Exact :=
  ⟨((a.zip b).map fun p => (scaled p.1 - scaled p.2) ^ 2).sum⟩

def l2 : Metric Exact := ⟨"l2", distance⟩

def NotAfter (a b : Candidate Exact) : Prop := a.dist.sq ≤ b.dist.sq

instance : DecidableRel NotAfter := fun a b => inferInstanceAs (Decidable (a.dist.sq ≤ b.dist.sq))

instance : Std.Total NotAfter := ⟨fun a b => le_total a.dist.sq b.dist.sq⟩

instance : IsTrans (Candidate Exact) NotAfter := ⟨fun _ _ _ hab hbc => le_trans hab hbc⟩

end Exact

instance : Dist Exact where
  lt a b := decide (a.sq < b.sq)
  le a b := decide (a.sq ≤ b.sq)
  cosine _ _ := ⟨0⟩
  unitCosine _ _ := ⟨0⟩
  normalize v := v
  normalize_length _ := rfl
  sortSlice l := l.insertionSort Exact.NotAfter
  sortSlice_perm l := List.perm_insertionSort _ l
  sortSlice_sorted _ l := by
    refine (List.pairwise_insertionSort Exact.NotAfter l).imp fun {a b} hab => ?_
    simpa [Exact.NotAfter] using hab

theorem Exact.strictWeak : StrictWeak (Dist.lt (D := Exact)) := by
  refine ⟨fun a => by simp [Dist.lt], fun {a b c} hab hbc => ?_, fun {a b c} hab hbc => ?_⟩
  · simp only [Dist.lt, decide_eq_true_eq] at *
    exact hab.trans hbc
  · simp only [Dist.lt, decide_eq_false_iff_not, not_lt] at *
    exact hbc.trans hab

def line : Config Exact := ⟨1, 2, 200, some Exact.l2⟩

end NuclaDB.Hnsw
