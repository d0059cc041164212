import Mathlib.Data.List.Range
import NuclaDB.BinaryHeap
import NuclaDB.HnswGraph

/-!
# Greedy descent, beam search and the choice of links

The loops carry a bound on their rounds: a greedy walk improves its distance at
most once for each node, and a beam search takes each node from the frontier at
most once.
-/

namespace NuclaDB.Hnsw

open BinaryHeap List

variable {D : Type} [Dist D]

def closer (a b : Candidate D) : Bool := Dist.lt a.dist b.dist

def farther (a b : Candidate D) : Bool := Dist.lt b.dist a.dist

structure Beam (D : Type) where
  visited : List ℕ
  frontier : List (Candidate D)
  results : List (Candidate D)

def fresh : List ℕ → List ℕ → List ℕ
  | _, [] => []
  | visited, nbr :: rest =>
    if nbr ∈ visited then fresh visited rest else nbr :: fresh (nbr :: visited) rest

/-- The test against the farthest result, which stands at the root of the results' heap. -/
def beatsFarthest (test : D → Bool) (results : List (Candidate D)) : Bool :=
  match results with
  | [] => false
  | r :: _ => test r.dist

namespace Graph

variable (g : Graph D) (query : Vec)

def greedyScan (acc : ℕ × D × Bool) (nbr : ℕ) : ℕ × D × Bool :=
  let d := g.dist query (g.vec nbr)
  if Dist.lt d acc.2.1 then (nbr, d, true) else acc

def greedyLoop (g : Graph D) (query : Vec) (l : ℕ) : ℕ → ℕ → D → ℕ × D
  | 0, best, bestDist => (best, bestDist)
  | m + 1, best, bestDist =>
    let scan := (g.links best l).foldl (g.greedyScan query) (best, bestDist, false)
    if scan.2.2 then greedyLoop g query l m scan.1 scan.2.1 else (scan.1, scan.2.1)

def greedyClosest (entry : ℕ) (entryDist : D) (query : Vec) (l : ℕ) : ℕ × D :=
  g.greedyLoop query l (g.nodes.length + 1) entry entryDist

def layersDown (hi lo : ℕ) : List ℕ := (range' (lo + 1) (hi - lo)).reverse

def descend (lo : ℕ) : ℕ :=
  ((layersDown g.maxLevel lo).foldl (fun e l => g.greedyClosest e.1 e.2 query l)
    (g.entryPoint, g.dist query (g.vec g.entryPoint))).1

def score (ef : ℕ) (b : Beam D) (nbr : ℕ) : Beam D :=
  let d := g.dist query (g.vec nbr)
  if b.results.length < ef ∨ beatsFarthest (fun top => Dist.lt d top) b.results then
    let frontier := push closer b.frontier ⟨nbr, d⟩
    if g.isDead nbr then { b with frontier := frontier }
    else
      let results := push farther b.results ⟨nbr, d⟩
      if ef < results.length then
        match pop farther results with
        | some (_, rest) => { b with frontier := frontier, results := rest }
        | none => { b with frontier := frontier, results := results }
      else { b with frontier := frontier, results := results }
  else b

def expand (ef l : ℕ) (b : Beam D) (slot : ℕ) : Beam D :=
  let new := fresh b.visited (g.links slot l)
  new.foldl (g.score query ef) { b with visited := new ++ b.visited }

def searchLoop (g : Graph D) (query : Vec) (ef l : ℕ) : ℕ → Beam D → Beam D
  | 0, b => b
  | m + 1, b =>
    match pop closer b.frontier with
    | none => b
    | some (c, rest) =>
      if ef ≤ b.results.length ∧ beatsFarthest (fun top => Dist.lt top c.dist) b.results then
        { b with frontier := rest }
      else searchLoop g query ef l m (g.expand query ef l { b with frontier := rest } c.id)

def startBeam (entry : ℕ) : Beam D :=
  let c : Candidate D := ⟨entry, g.dist query (g.vec entry)⟩
  { visited := [entry]
    frontier := push closer [] c
    results := if g.isDead entry then [] else push farther [] c }

def searchLayer (entry ef l : ℕ) : List (Candidate D) :=
  let b := g.searchLoop query ef l g.nodes.length (g.startBeam query entry)
  (drain farther b.results.length b.results).reverse

def diverse (g : Graph D) (m : ℕ) : List (Candidate D) → List (Candidate D) → List (Candidate D)
  | [], out => out
  | c :: rest, out =>
    if m ≤ out.length then out
    else if out.any fun kept => Dist.lt (g.dist (g.vec c.id) (g.vec kept.id)) c.dist then
      diverse g m rest out
    else diverse g m rest (out ++ [c])

def selectNeighbors (candidates : List (Candidate D)) (m : ℕ) : List ℕ :=
  (g.diverse m candidates []).map (·.id)

structure SearchResult (D : Type) where
  id : UInt64
  distance : D

def search (topK ef : ℤ) : Except Error (List (SearchResult D)) := do
  validateVector query g.cfg.dim
  if topK ≤ 0 then return []
  let ef := max ef topK
  let query := g.prep query
  if !g.hasEntry then return []
  let candidates := g.searchLayer query (g.descend query 0) ef.toNat 0
  return (candidates.take topK.toNat).map fun c => ⟨(g.nodes.getD c.id default).id, c.dist⟩

def exactStep (topK : ℕ) (h : List (Candidate D)) (id : UInt64) :
    List (Candidate D) :=
  match g.slots[id]? with
  | none => h
  | some slot =>
    if g.isDead slot then h
    else
      let d := g.dist query (g.vec slot)
      if h.length < topK then push farther h ⟨slot, d⟩
      else if beatsFarthest (fun top => Dist.lt d top) h then
        match pop farther h with
        | some (_, rest) => push farther rest ⟨slot, d⟩
        | none => h
      else h

def exactSearch (ids : List UInt64) (topK : ℤ) :
    Except Error (List (SearchResult D)) := do
  validateVector query g.cfg.dim
  if topK ≤ 0 then return []
  let query := g.prep query
  let h := ids.foldl (g.exactStep query topK.toNat) []
  return (drain farther h.length h).reverse.map fun c =>
    ⟨(g.nodes.getD c.id default).id, c.dist⟩

end Graph

namespace Graph

section Descent
variable {g : Graph D} {query : Vec} {l : ℕ}

theorem greedyScan_foldl (g : Graph D) (query : Vec) (best : ℕ) (bestDist : D) (nbrs : List ℕ) :
    nbrs.foldl (g.greedyScan query) (best, bestDist, false) = (best, bestDist, false) ∨
      ∃ nbr ∈ nbrs, nbrs.foldl (g.greedyScan query) (best, bestDist, false) =
        (nbr, g.dist query (g.vec nbr), true) ∧
        (StrictWeak (Dist.lt (D := D)) → Dist.lt (g.dist query (g.vec nbr)) bestDist = true) := by
  induction nbrs using reverseRecOn with
  | nil => exact .inl rfl
  | append_singleton rest nbr ih =>
    simp only [foldl_append, foldl_cons, foldl_nil, mem_append, mem_singleton]
    obtain h | ⟨y, hy, h, hlt⟩ := ih
    · rw [h]
      simp only [greedyScan]
      split
      · next hlt => exact .inr ⟨nbr, .inr rfl, rfl, fun _ => hlt⟩
      · exact .inl rfl
    · rw [h]
      simp only [greedyScan]
      split
      · next hlt' => exact .inr ⟨nbr, .inr rfl, rfl, fun ho => ho.trans hlt' (hlt ho)⟩
      · exact .inr ⟨y, .inl hy, rfl, hlt⟩

theorem greedyLoop_induction {P : ℕ → Prop} (hlink : ∀ x, P x → ∀ y ∈ g.links x l, P y) (m : ℕ)
    {best : ℕ} (bestDist : D) (hbest : P best) : P (g.greedyLoop query l m best bestDist).1 := by
  induction m generalizing best bestDist with
  | zero => exact hbest
  | succ m ih =>
    simp only [greedyLoop]
    obtain h | ⟨nbr, hnbr, h, -⟩ := greedyScan_foldl g query best bestDist (g.links best l)
    · simpa [h] using hbest
    · simpa [h] using ih _ (hlink best hbest nbr hnbr)

theorem descend_induction {P : ℕ → Prop} {lo : ℕ} (hlink : ∀ k, lo < k → ∀ x, P x →
    ∀ y ∈ g.links x k, P y) (hentry : P g.entryPoint) : P (g.descend query lo) := by
  have hfold : ∀ (layers : List ℕ) (e : ℕ × D), (∀ k ∈ layers, lo < k) → P e.1 →
      P (layers.foldl (fun e l => g.greedyClosest e.1 e.2 query l) e).1 := by
    intro layers
    induction layers with
    | nil => exact fun e _ he => he
    | cons k layers ih =>
      intro e hpos he
      simp only [mem_cons, forall_eq_or_imp] at hpos
      exact ih _ hpos.2 (greedyLoop_induction (hlink k hpos.1) _ _ he)
  refine hfold _ _ (fun k hk => ?_) hentry
  simp only [layersDown, mem_reverse, mem_range'_1] at hk
  omega

def closerSlots (g : Graph D) (query : Vec) (d : D) : List ℕ :=
  (range g.nodes.length).filter fun x => Dist.lt (g.dist query (g.vec x)) d

theorem closerSlots_length_lt (ho : StrictWeak (Dist.lt (D := D))) {nbr : ℕ} {d : D}
    (hn : nbr < g.nodes.length) (hlt : Dist.lt (g.dist query (g.vec nbr)) d = true) :
    (g.closerSlots query (g.dist query (g.vec nbr))).length < (g.closerSlots query d).length := by
  have hnested : g.closerSlots query (g.dist query (g.vec nbr)) = (g.closerSlots query d).filter
      fun x => Dist.lt (g.dist query (g.vec x)) (g.dist query (g.vec nbr)) := by
    simp only [closerSlots, filter_filter]
    refine filter_congr fun x _ => ?_
    cases hx : Dist.lt (g.dist query (g.vec x)) (g.dist query (g.vec nbr)) with
    | true => simp [ho.trans hx hlt]
    | false => simp
  rw [hnested, length_filter_lt_length_iff_exists]
  exact ⟨nbr, by simp [closerSlots, hn, hlt], by simp [ho.irrefl]⟩

theorem greedyLoop_enough (ho : StrictWeak (Dist.lt (D := D))) (hlt : g.LinksLt l) {m best : ℕ}
    {bestDist : D} (hm : (g.closerSlots query bestDist).length < m) (k : ℕ) :
    g.greedyLoop query l (m + k) best bestDist = g.greedyLoop query l m best bestDist := by
  induction m generalizing best bestDist with
  | zero => omega
  | succ m ih =>
    rw [Nat.add_right_comm]
    simp only [greedyLoop]
    obtain h | ⟨nbr, hnbr, h, hcloser⟩ := greedyScan_foldl g query best bestDist (g.links best l)
    · simp [h]
    · have hdrop := closerSlots_length_lt ho (hlt best nbr hnbr) (hcloser ho)
      simpa [h] using ih (by omega)

theorem closerSlots_length_le (g : Graph D) (query : Vec) (d : D) :
    (g.closerSlots query d).length ≤ g.nodes.length := by
  simpa [closerSlots] using length_filter_le (fun x => Dist.lt (g.dist query (g.vec x)) d)
    (range g.nodes.length)

theorem greedyClosest_enough (ho : StrictWeak (Dist.lt (D := D))) (hlt : g.LinksLt l) (entry : ℕ)
    (entryDist : D) (k : ℕ) : g.greedyLoop query l (g.nodes.length + 1 + k) entry entryDist =
      g.greedyClosest entry entryDist query l :=
  greedyLoop_enough ho hlt (Nat.lt_succ_of_le (g.closerSlots_length_le query entryDist)) k

end Descent

section Choice
variable {g : Graph D}

theorem diverse_append (m : ℕ) (cs out : List (Candidate D)) :
    ∃ kept, g.diverse m cs out = out ++ kept ∧ kept.Sublist cs := by
  induction cs generalizing out with
  | nil => exact ⟨[], by simp [diverse], .refl _⟩
  | cons c rest ih =>
    simp only [diverse]
    split
    · exact ⟨[], by simp, nil_sublist _⟩
    · split
      · obtain ⟨kept, heq, hsub⟩ := ih out
        exact ⟨kept, heq, hsub.cons c⟩
      · obtain ⟨kept, heq, hsub⟩ := ih (out ++ [c])
        exact ⟨c :: kept, by simpa using heq, hsub.cons_cons c⟩

theorem diverse_sublist (g : Graph D) (m : ℕ) (cs : List (Candidate D)) :
    (g.diverse m cs []).Sublist cs := by
  obtain ⟨kept, heq, hsub⟩ := diverse_append (g := g) m cs []
  simpa [heq] using hsub

theorem diverse_length_le {m : ℕ} (cs : List (Candidate D)) {out : List (Candidate D)}
    (hout : out.length ≤ m) : (g.diverse m cs out).length ≤ m := by
  induction cs generalizing out with
  | nil => simpa [diverse] using hout
  | cons c rest ih =>
    simp only [diverse]
    split
    · exact hout
    · split
      · exact ih hout
      · exact ih (by simp; omega)

theorem diverse_ne_nil {m : ℕ} {cs : List (Candidate D)} (hm : 1 ≤ m) (hcs : cs ≠ []) :
    g.diverse m cs [] ≠ [] := by
  cases cs with
  | nil => exact absurd rfl hcs
  | cons c rest =>
    obtain ⟨kept, heq, -⟩ := diverse_append (g := g) m rest [c]
    simp [diverse, Nat.not_le.mpr hm, heq]

theorem selectNeighbors_length_le (g : Graph D) (cs : List (Candidate D)) (m : ℕ) :
    (g.selectNeighbors cs m).length ≤ m := by
  simpa [selectNeighbors] using diverse_length_le (g := g) cs (Nat.zero_le m)

theorem selectNeighbors_sublist (g : Graph D) (cs : List (Candidate D)) (m : ℕ) :
    (g.selectNeighbors cs m).Sublist (cs.map (·.id)) :=
  (g.diverse_sublist m cs).map _

theorem selectNeighbors_eq_nil {m : ℕ} {cs : List (Candidate D)} (hm : 1 ≤ m) :
    g.selectNeighbors cs m = [] ↔ cs = [] := by
  constructor
  · intro h
    by_contra hcs
    exact diverse_ne_nil hm hcs (map_eq_nil_iff.mp h)
  · rintro rfl
    rfl

end Choice

end Graph

end NuclaDB.Hnsw
