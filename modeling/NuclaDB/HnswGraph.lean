import Mathlib.Data.List.GetD
import Mathlib.Data.List.Perm.Basic

/-!
# The HNSW graph: slots, link lists and their storage

Vectors are lists of float32 bit patterns, and distances are in a type `D` of which only the
order tests are used. A slot is the place of a node in `nodes`. The layer-0 lists are in
`links0`, the others in the nodes; `rng` is the level draws still to come.
-/

namespace NuclaDB.Hnsw

open List

abbrev Vec := List UInt32

structure Candidate (D : Type) where
  id : ℕ
  dist : D
deriving DecidableEq, Repr

/-- The orders `sort.Slice` is documented for. -/
structure StrictWeak {D : Type} (lt : D → D → Bool) : Prop where
  irrefl (a : D) : lt a a = false
  trans {a b c : D} : lt a b = true → lt b c = true → lt a c = true
  not_trans {a b c : D} : lt a b = false → lt b c = false → lt a c = false

theorem StrictWeak.asymm {D : Type} {lt : D → D → Bool} (ho : StrictWeak lt) {a b : D}
    (hab : lt a b = true) : lt b a = false := by
  cases hba : lt b a with
  | false => rfl
  | true => exact (ho.trans hab hba).symm.trans (ho.irrefl a)

/-- Distances and their two order tests, with the metrics' arithmetic and the sort of the candidates,
of which only the documented result is known. -/
class Dist (D : Type) where
  lt : D → D → Bool
  le : D → D → Bool
  cosine : Vec → Vec → D
  unitCosine : Vec → Vec → D
  normalize : Vec → Vec
  normalize_length (v : Vec) : (normalize v).length = v.length
  sortSlice : List (Candidate D) → List (Candidate D)
  sortSlice_perm (l : List (Candidate D)) : (sortSlice l).Perm l
  sortSlice_sorted (h : StrictWeak lt) (l : List (Candidate D)) :
    (sortSlice l).Pairwise fun a b => lt b.dist a.dist = false

structure Metric (D : Type) where
  name : String
  distance : Vec → Vec → D

inductive Error
  | dimensionMismatch
  | nonFiniteVector
  | notFound
deriving DecidableEq, Repr

structure Config (D : Type) where
  dim : ℕ
  m : ℕ
  efConstruction : ℕ
  metric : Option (Metric D)

structure Node where
  id : UInt64
  level : ℕ
  neighbors : List (List ℕ)
deriving DecidableEq, Repr

instance : Inhabited Node := ⟨⟨0, 0, []⟩⟩

structure Graph (D : Type) where
  cfg : Config D
  nodes : List Node
  data : List Vec
  dead : List Bool
  links0 : List (List ℕ)
  slots : Std.ExtTreeMap UInt64 ℕ compare
  entryPoint : ℕ
  hasEntry : Bool
  maxLevel : ℕ
  live : ℕ
  unit : Bool
  dist : Vec → Vec → D
  rng : ℕ → ℕ

section Operations
variable {D : Type} [Dist D]

def Config.withDefaults (c : Config D) : Config D :=
  { c with
    m := if c.m ≤ 1 then 16 else c.m
    efConstruction := if c.efConstruction = 0 then 200 else c.efConstruction
    metric := some (c.metric.getD ⟨"cosine", Dist.cosine⟩) }

/-- NaN and the infinities are the patterns with every exponent bit set. -/
def finite (x : UInt32) : Bool := (x >>> 23) &&& 0xFF != 0xFF

def validateVector (v : Vec) (dim : ℕ) : Except Error Unit :=
  if v.length ≠ dim then .error .dimensionMismatch
  else if v.all finite then .ok ()
  else .error .nonFiniteVector

def new (cfg : Config D) (rng : ℕ → ℕ) : Graph D :=
  let cfg := cfg.withDefaults
  let metric := cfg.metric.getD ⟨"cosine", Dist.cosine⟩
  { cfg := cfg
    nodes := []
    data := []
    dead := []
    links0 := []
    slots := ∅
    entryPoint := 0
    hasEntry := false
    maxLevel := 0
    live := 0
    unit := metric.name == "cosine"
    dist := if metric.name == "cosine" then Dist.unitCosine else metric.distance
    rng := rng }

namespace Graph

variable (g : Graph D)

def prep (v : Vec) : Vec := if g.unit then Dist.normalize D v else v

def vec (slot : ℕ) : Vec := g.data.getD slot []

def isDead (slot : ℕ) : Bool := g.dead.getD slot false

def links (slot l : ℕ) : List ℕ :=
  if l = 0 then g.links0.getD slot []
  else (g.nodes.getD slot default).neighbors.getD l []

def maxLinks (l : ℕ) : ℕ := if l = 0 then 2 * g.cfg.m else g.cfg.m

end Graph

def Node.setLayer (nd : Node) (l : ℕ) (ids : List ℕ) : Node :=
  let grown := nd.neighbors ++ replicate (l + 1 - nd.neighbors.length) []
  { nd with neighbors := grown.set l ids }

namespace Graph

variable (g : Graph D)

def setLinks (slot l : ℕ) (ids : List ℕ) : Graph D :=
  { g with
    links0 := if l = 0 then g.links0.set slot (ids.take (2 * g.cfg.m)) else g.links0
    nodes := if l = 0 then g.nodes else g.nodes.modify slot (fun nd => nd.setLayer l ids) }

def store (slot : ℕ) (nd : Node) (vec : Vec) (existed : Bool) : Graph D :=
  { g with
    nodes := if existed then g.nodes.set slot nd else g.nodes ++ [nd]
    data := if existed then g.data.set slot vec else g.data ++ [vec]
    dead := if existed then g.dead.set slot false else g.dead ++ [false]
    links0 := if existed then g.links0 else g.links0 ++ [[]]
    slots := if existed then g.slots else g.slots.insert nd.id slot }

def clearStaged (slot : ℕ) : Graph D :=
  { g with nodes := g.nodes.modify slot fun nd => { nd with neighbors := nd.neighbors.set 0 [] } }

def place (slot : ℕ) (nd : Node) (vec : Vec) (existed : Bool) : Graph D :=
  ((g.store slot nd vec existed).setLinks slot 0 (nd.neighbors.getD 0 [])).clearStaged slot

def randomLevel : ℕ × Graph D :=
  (min (g.rng 0) 64, { g with rng := fun k => g.rng (k + 1) })

def get (id : UInt64) : Option Vec :=
  match g.slots[id]? with
  | some slot => if g.isDead slot then none else some (g.vec slot)
  | none => none

def delete (id : UInt64) : Except Error (Graph D) :=
  match g.slots[id]? with
  | some slot =>
    if g.isDead slot then .error .notFound
    else .ok { g with dead := g.dead.set slot true, live := g.live - 1 }
  | none => .error .notFound

end Graph

end Operations

section Links
variable {D : Type} {g : Graph D} {slot l s k : ℕ} {ids : List ℕ}

theorem Node.setLayer_getD (nd : Node) (l k : ℕ) (ids : List ℕ) :
    (nd.setLayer l ids).neighbors.getD k [] = if k = l then ids else nd.neighbors.getD k [] := by
  simp only [setLayer, getD_eq_getElem?_getD, getElem?_set, getElem?_append,
    getElem?_replicate, length_append, length_replicate]
  grind

namespace Graph
variable {existed : Bool}

theorem maxLinks_le (g : Graph D) (l : ℕ) : g.maxLinks l ≤ 2 * g.cfg.m := by
  simp only [maxLinks]
  split <;> omega

theorem links_eq_nil (hn : g.links0.length = g.nodes.length) (hs : g.nodes.length ≤ s) (k : ℕ) :
    g.links s k = [] := by
  simp only [links, getD_eq_getElem?_getD]
  split
  · rw [getElem?_eq_none (by omega)]
    rfl
  · rw [getElem?_eq_none hs]
    rfl

theorem links_setLinks_ne (hne : (s, k) ≠ (slot, l)) : (g.setLinks slot l ids).links s k = g.links s k := by
  simp only [links, setLinks, getD_eq_getElem?_getD]
  by_cases hl : l = 0
  · grind
  · simp only [hl, if_false, getElem?_modify]
    by_cases hk : k = 0
    · grind
    · cases hnd : g.nodes[s]? with
      | none => grind
      | some nd =>
        have hlayer := nd.setLayer_getD l k ids
        simp only [getD_eq_getElem?_getD] at hlayer
        grind

theorem links_setLinks (hs : slot < g.nodes.length) (hn : g.links0.length = g.nodes.length)
    (hids : l = 0 → ids.length ≤ 2 * g.cfg.m) :
    (g.setLinks slot l ids).links s k = if s = slot ∧ k = l then ids else g.links s k := by
  by_cases hsk : s = slot ∧ k = l
  · obtain ⟨rfl, rfl⟩ := hsk
    rw [if_pos ⟨rfl, rfl⟩]
    by_cases hk : k = 0
    · simp [links, setLinks, hk, hn, hs, take_of_length_le (hids hk)]
    · have hlayer := Node.setLayer_getD g.nodes[s] k k ids
      simpa [links, setLinks, hk, hs] using hlayer
  · rw [if_neg hsk, links_setLinks_ne fun h => hsk (Prod.mk.inj h)]

def Reaches (g : Graph D) (l : ℕ) : ℕ → ℕ → Prop :=
  Relation.ReflTransGen fun x y => y ∈ g.links x l

def LinksLt (g : Graph D) (l : ℕ) : Prop := ∀ x y, y ∈ g.links x l → y < g.nodes.length

theorem Reaches.lt {g : Graph D} {l x y : ℕ} (hlt : g.LinksLt l) (hx : x < g.nodes.length)
    (h : g.Reaches l x y) : y < g.nodes.length := by
  induction h with
  | refl => exact hx
  | tail _ hlink _ => exact hlt _ _ hlink

def Fits (g : Graph D) (slot : ℕ) (existed : Bool) : Prop :=
  if existed then slot < g.nodes.length else slot = g.nodes.length

theorem links_clearStaged : (g.clearStaged slot).links s k = g.links s k := by
  simp only [links, clearStaged, getD_eq_getElem?_getD, getElem?_modify]
  by_cases hk : k = 0
  · simp [hk]
  · simp only [hk, if_false]
    split
    · cases g.nodes[s]? with
      | none => rfl
      | some nd => simp [getElem?_set_ne (Ne.symm hk)]
    · simp

theorem links_store {nd : Node} {vec : Vec} (hfit : g.Fits slot existed)
    (hn : g.links0.length = g.nodes.length) (hsk : s ≠ slot ∨ k ≠ 0) :
    (g.store slot nd vec existed).links s k =
      if s = slot then nd.neighbors.getD k [] else g.links s k := by
  simp only [Fits] at hfit
  cases existed with
  | true | false =>
    simp only [links, store, getD_eq_getElem?_getD] at *
    grind

theorem store_nodes_length (g : Graph D) (slot : ℕ) (nd : Node) (vec : Vec) (existed : Bool) :
    (g.store slot nd vec existed).nodes.length = g.nodes.length + if existed then 0 else 1 := by
  cases existed <;> simp [store]

theorem store_links0_length (hn : g.links0.length = g.nodes.length) (slot : ℕ) (nd : Node)
    (vec : Vec) (existed : Bool) : (g.store slot nd vec existed).links0.length =
      (g.store slot nd vec existed).nodes.length := by
  cases existed <;> simp [store, hn]

theorem Fits.lt_store (hfit : g.Fits slot existed) (nd : Node) (vec : Vec) :
    slot < (g.store slot nd vec existed).nodes.length := by
  rw [store_nodes_length]
  cases existed <;> simp_all [Fits]

theorem links_place {nd : Node} {vec : Vec} (hfit : g.Fits slot existed)
    (hn : g.links0.length = g.nodes.length)
    (hids : (nd.neighbors.getD 0 []).length ≤ 2 * g.cfg.m) :
    (g.place slot nd vec existed).links s k =
      if s = slot then nd.neighbors.getD k [] else g.links s k := by
  simp only [place, links_clearStaged]
  rw [links_setLinks (hfit.lt_store nd vec) (store_links0_length hn ..) fun _ => hids]
  split
  · next h => simp [h]
  · next h => exact links_store hfit hn (by tauto)

@[simp] theorem setLinks_links0_length (g : Graph D) (slot l : ℕ) (ids : List ℕ) :
    (g.setLinks slot l ids).links0.length = g.links0.length := by
  simp only [setLinks]
  split <;> simp

@[simp] theorem setLinks_nodes_length (g : Graph D) (slot l : ℕ) (ids : List ℕ) :
    (g.setLinks slot l ids).nodes.length = g.nodes.length := by
  simp only [setLinks]
  split <;> simp

@[simp] theorem clearStaged_nodes_length (g : Graph D) (slot : ℕ) :
    (g.clearStaged slot).nodes.length = g.nodes.length := by
  simp [clearStaged]

end Graph

end Links

end NuclaDB.Hnsw
