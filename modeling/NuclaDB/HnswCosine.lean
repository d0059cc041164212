import Mathlib.Data.List.Sort
import NuclaDB.HnswGraph

/-!
# The cosine metric in float32

The arithmetic of `distance.go` on the bits of the numbers, with the portable kernel of the
dot product.
-/

namespace NuclaDB.Hnsw

open Float.Model (Format UnpackedFloat)

namespace Cosine

def convert (format : Format) : UnpackedFloat → UnpackedFloat
  | .finite sign mantissa exponent _ => .round format sign mantissa exponent
  | x => x

def float64 (x : Float32) : Float := .ofModel (.pack (convert .binary64 x.toModel.unpack))

def float32 (x : Float) : Float32 := .ofModel (.pack (convert .binary32 x.toModel.unpack))

def floats (v : Vec) : List Float32 := v.map Float32.ofBits

def normalize (v : Vec) : Vec :=
  let sum := (floats v).foldl (fun sum x => sum + float64 x * float64 x) 0
  if sum == 0 then v
  else
    let inv := float32 (1 / sum.sqrt)
    (floats v).map fun x => (x * inv).toBits

/-- The four running sums of the unrolled loop; the last numbers go to the first sum. -/
def dotLoop (s0 s1 s2 s3 : Float32) : List Float32 → List Float32 → Float32
  | a0 :: a1 :: a2 :: a3 :: a, b0 :: b1 :: b2 :: b3 :: b =>
    dotLoop (s0 + a0 * b0) (s1 + a1 * b1) (s2 + a2 * b2) (s3 + a3 * b3) a b
  | a, b => ((a.zip b).foldl (fun s p => s + p.1 * p.2) s0 + s1) + (s2 + s3)

def dotGo (a b : Vec) : Float32 := dotLoop 0 0 0 0 (floats a) (floats b)

def unitCosine (a b : Vec) : Float32 := 1 + -dotGo a b

structure Sums where
  dot : Float32
  normA : Float32
  normB : Float32

def sumsLoop (s : Sums) : List Float32 → List Float32 → Sums
  | a0 :: a1 :: a2 :: a3 :: a, b0 :: b1 :: b2 :: b3 :: b =>
    sumsLoop ⟨s.dot + (a0 * b0 + a1 * b1 + a2 * b2 + a3 * b3),
      s.normA + (a0 * a0 + a1 * a1 + a2 * a2 + a3 * a3),
      s.normB + (b0 * b0 + b1 * b1 + b2 * b2 + b3 * b3)⟩ a b
  | a, b => (a.zip b).foldl
      (fun s p => ⟨s.dot + p.1 * p.2, s.normA + p.1 * p.1, s.normB + p.2 * p.2⟩) s

def distance (a b : Vec) : Float32 :=
  let s := sumsLoop ⟨0, 0, 0⟩ (floats a) (floats b)
  if s.normA == 0 || s.normB == 0 then 1
  else float32 (1 - float64 s.dot / ((float64 s.normA).sqrt * (float64 s.normB).sqrt))

def NotAfter (a b : Candidate Float32) : Prop := b.dist.lt a.dist = false

instance : DecidableRel NotAfter := fun a b => inferInstanceAs (Decidable (b.dist.lt a.dist = false))

theorem normalize_length (v : Vec) : (normalize v).length = v.length := by
  unfold normalize
  generalize (floats v).foldl (fun sum x => sum + float64 x * float64 x) 0 = sum
  cases hzero : sum == 0 with
  | true => simp [hzero]
  | false => simp [hzero, floats]

end Cosine

instance : Dist Float32 where
  lt := Float32.lt
  le := Float32.le
  cosine := Cosine.distance
  unitCosine := Cosine.unitCosine
  normalize := Cosine.normalize
  normalize_length := Cosine.normalize_length
  sortSlice l := l.insertionSort Cosine.NotAfter
  sortSlice_perm l := List.perm_insertionSort _ l
  sortSlice_sorted h l := by
    have htotal : Std.Total Cosine.NotAfter := by
      refine ⟨fun a b => ?_⟩
      cases hlt : b.dist.lt a.dist with
      | false => exact .inl hlt
      | true => exact .inr (h.asymm hlt)
    have htrans : IsTrans (Candidate Float32) Cosine.NotAfter :=
      ⟨fun _ _ _ hab hbc => h.not_trans hbc hab⟩
    exact List.pairwise_insertionSort Cosine.NotAfter l

def unitLine : Config Float32 := ⟨1, 2, 200, none⟩

/-- 41 is scaled to the number before 1, and that to 1. -/
example : Cosine.normalize [0x42240000] = [0x3F7FFFFF] ∧
    Cosine.normalize [0x3F7FFFFF] = [0x3F800000] := by decide +kernel

end NuclaDB.Hnsw
