import Mathlib.Data.Int.Notation
import NuclaDB.BlockRows
import NuclaDB.ContainerHeap
import NuclaDB.HnswGraph

/-!
# Product quantization: the flat index and the inverted file

The flat index keeps all codes in one map; the inverted file spreads them over lists by the
nearest coarse centroid. The arithmetic of the components `V` and of the distances `D` and the
order of Go's maps (`Ranging`) are left open.
-/

namespace NuclaDB.Pq

open BlockRows List
open Hnsw (StrictWeak)

abbrev Code := List UInt8

abbrev Codes := Std.ExtTreeMap UInt64 Code compare

class Sums (V : outParam Type) (D : Type) where
  finite : V → Bool
  zero : D
  inf : D
  add : D → D → D
  sumSquares : List V → List V → D

/-- Distances with their order test, and the sort of the lists, of which only the documented
result is known. -/
class Arith (V : outParam Type) (D : Type) extends Sums V D where
  lt : D → D → Bool
  sortSlice : (ℕ → ℕ → Bool) → List ℕ → List ℕ
  sortSlice_perm (less : ℕ → ℕ → Bool) (l : List ℕ) : (sortSlice less l).Perm l
  sortSlice_sorted (less : ℕ → ℕ → Bool) (h : StrictWeak less) (l : List ℕ) :
    (sortSlice less l).Pairwise fun a b => less b a = false

/-- An order in which the range loops of one call visit the entries of their maps. -/
structure Ranging where
  entries : ℕ → Codes → List (UInt64 × Code)
  entries_perm (loop : ℕ) (codes : Codes) : (entries loop codes).Perm codes.toList

inductive Error
  | dimMismatch
  | badNList
deriving DecidableEq, Repr

/-- A trained codebook: for each part of a vector a table of centroids, laid end to end. -/
structure Codebook (V : Type) where
  dim : ℕ
  numSubvectors : ℕ
  numCentroids : ℕ
  subDim : ℕ
  centroids : List (List V)
  dim_pos : 0 < dim
  subDim_mul : numSubvectors * subDim = dim
  numCentroids_pos : 0 < numCentroids
  numCentroids_le : numCentroids ≤ 256
  centroids_length : centroids.length = numSubvectors
  centroid_length : ∀ c ∈ centroids, c.length = numCentroids * subDim

structure DistanceTable (D : Type) where
  m : ℕ
  k : ℕ
  table : List D

section Quantizer
variable {V D : Type}

def centroidAt (flat : List V) (idx subDim : ℕ) : List V := rowOf subDim flat idx

def Codebook.centroid (cb : Codebook V) (s k : ℕ) : List V := centroidAt (cb.centroids.getD s []) k cb.subDim

section
variable [Sums V D]

def sqDist (a b : List V) : D := if a.length ≠ b.length then Sums.inf else Sums.sumSquares a b

def Codebook.centroidDist (D : Type) [Sums V D] (cb : Codebook V) (vector : List V) (s k : ℕ) : D :=
  sqDist (rowOf cb.subDim vector s) (cb.centroid s k)

def Codebook.newDistanceTable (D : Type) [Sums V D] (cb : Codebook V) (query : List V) :
    Except Error (DistanceTable D) :=
  if query.length ≠ cb.dim ∨ query.all (Sums.finite D) = false then .error .dimMismatch
  else .ok
    { m := cb.numSubvectors
      k := cb.numCentroids
      table := (range cb.numSubvectors).foldl
        (fun table s => (range cb.numCentroids).foldl
          (fun table k => table.set (s * cb.numCentroids + k) (cb.centroidDist D query s k)) table)
        (replicate (cb.numSubvectors * cb.numCentroids) Sums.zero) }

/-- A number outside the table ends the sum. -/
def DistanceTable.distance (t : DistanceTable D) (code : Code) : D :=
  if code.length ≠ t.m then Sums.inf
  else ((range code.length).foldlM (fun sum s =>
      if (code.getD s 0).toNat < t.k
      then some (Sums.add sum (t.table.getD (s * t.k + (code.getD s 0).toNat) Sums.zero)) else none)
    Sums.zero).getD Sums.inf

end

variable [Arith V D]

/-- The loop over the centroids: the first of the nearest, with its distance. -/
def nearest (dist : ℕ → D) (n : ℕ) : ℕ × D :=
  (range' 1 (n - 1)).foldl (fun best k => if Arith.lt (dist k) best.2 then (k, dist k) else best) (0, dist 0)

def Codebook.encode (D : Type) [Arith V D] (cb : Codebook V) (vector : List V) : Except Error Code :=
  if vector.length ≠ cb.dim ∨ vector.all (Sums.finite D) = false then .error .dimMismatch
  else .ok ((range cb.numSubvectors).map fun s =>
    UInt8.ofNat (nearest (cb.centroidDist D vector s) cb.numCentroids).1)

end Quantizer

section Model
variable {V D : Type} [Arith V D]

structure SearchResult (D : Type) where
  id : UInt64
  distance : D
deriving DecidableEq

def farther (a b : SearchResult D) : Bool := Arith.lt b.distance a.distance

def beatsFarthest (d : D) : List (SearchResult D) → Bool
  | [] => false
  | top :: _ => Arith.lt d top.distance

def collect (h : List (SearchResult D)) : List (SearchResult D) :=
  (ContainerHeap.drain farther h.length h).reverse

structure Index (V : Type) where
  codebook : Codebook V
  codes : Codes

namespace Index

def new (codebook : Codebook V) : Index V := ⟨codebook, ∅⟩

def insert (D : Type) [Arith V D] (idx : Index V) (id : UInt64) (vector : List V) : Except Error (Index V) := do
  let code ← idx.codebook.encode D vector
  return { idx with codes := idx.codes.insert id code }

def delete (idx : Index V) (id : UInt64) : Index V := { idx with codes := idx.codes.erase id }

def len (idx : Index V) : ℕ := idx.codes.size

def scan (table : DistanceTable D) (topK : ℕ) (h : List (SearchResult D)) (e : UInt64 × Code) :
    List (SearchResult D) :=
  let d := table.distance e.2
  if h.length < topK then BinaryHeap.push farther h ⟨e.1, d⟩
  else if beatsFarthest d h then
    match ContainerHeap.pop farther h with
    | some (_, rest) => BinaryHeap.push farther rest ⟨e.1, d⟩
    | none => h
  else h

def search (r : Ranging) (idx : Index V) (query : List V) (topK : ℤ) :
    Except Error (List (SearchResult D)) := do
  if topK ≤ 0 then return []
  let table ← idx.codebook.newDistanceTable D query
  return collect ((r.entries 0 idx.codes).foldl (scan table topK.toNat) [])

end Index

structure IVFIndex (V : Type) where
  codebook : Codebook V
  dim : ℕ
  nlist : ℕ
  centroids : List V
  lists : List Codes
  listOf : Std.ExtTreeMap UInt64 ℕ compare

/-- The k-means of the training sample stands as an argument. -/
def trainIVF (kmeans : List (List V) → ℕ → List V) (codebook : Codebook V) (nlist : ℤ)
    (sample : List (List V)) : Except Error (IVFIndex V) := do
  if nlist < 1 ∨ (sample.length : ℤ) < nlist then throw .badNList
  if sample.any fun v => v.length ≠ codebook.dim then throw .dimMismatch
  return {
    codebook := codebook
    dim := codebook.dim
    nlist := nlist.toNat
    centroids := kmeans sample nlist.toNat
    lists := replicate nlist.toNat ∅
    listOf := ∅ }

namespace IVFIndex

def nearestLists (D : Type) [Arith V D] (idx : IVFIndex V) (v : List V) (n : ℤ) : List ℕ :=
  if n ≤ 0 then []
  else
    let dist (c : ℕ) : D := sqDist v (centroidAt idx.centroids c idx.dim)
    (Arith.sortSlice D (fun a b => Arith.lt (dist a) (dist b)) (range idx.nlist)).take n.toNat

variable (idx : IVFIndex V)

def unfile (id : UInt64) : List Codes :=
  match idx.listOf[id]? with
  | some old => idx.lists.modify old fun m => m.erase id
  | none => idx.lists

def insert (D : Type) [Arith V D] (idx : IVFIndex V) (id : UInt64) (vector : List V) :
    Except Error (IVFIndex V) := do
  let code ← idx.codebook.encode D vector
  let list := (idx.nearestLists D vector 1).getD 0 0
  return { idx with
    lists := (idx.unfile id).modify list fun m => m.insert id code
    listOf := idx.listOf.insert id list }

def delete (id : UInt64) : IVFIndex V :=
  match idx.listOf[id]? with
  | some _ => { idx with lists := idx.unfile id, listOf := idx.listOf.erase id }
  | none => idx

def len : ℕ := idx.listOf.size

def scan (table : DistanceTable D) (topK : ℕ) (h : List (SearchResult D)) (e : UInt64 × Code) :
    List (SearchResult D) :=
  let d := table.distance e.2
  if h.length < topK then BinaryHeap.push farther h ⟨e.1, d⟩
  else if beatsFarthest d h then ContainerHeap.fix farther (h.set 0 ⟨e.1, d⟩) 0
  else h

def search (r : Ranging) (idx : IVFIndex V) (query : List V) (topK nprobe : ℤ) :
    Except Error (List (SearchResult D)) := do
  if topK ≤ 0 ∨ nprobe ≤ 0 then return []
  let table ← idx.codebook.newDistanceTable D query
  let probe := idx.nearestLists D query nprobe
  let h := probe.foldl (fun h list =>
    (r.entries list (idx.lists.getD list ∅)).foldl (scan table topK.toNat) h) []
  return collect h

end IVFIndex

inductive Op (V : Type)
  | insert (id : UInt64) (vector : List V)
  | delete (id : UInt64)

def Index.apply (D : Type) [Arith V D] (idx : Index V) : Op V → Index V
  | .insert id vector => (idx.insert D id vector).toOption.getD idx
  | .delete id => idx.delete id

def IVFIndex.apply (D : Type) [Arith V D] (idx : IVFIndex V) : Op V → IVFIndex V
  | .insert id vector => (idx.insert D id vector).toOption.getD idx
  | .delete id => idx.delete id

end Model

end NuclaDB.Pq
