import NuclaDB.HnswClosest

/-!
# The greedy walk of one layer

`greedyRounds` is the loop of `greedyClosest` without an answer of its own when the rounds
run out.
-/

namespace NuclaDB.Hnsw.Graph

open List

variable {D : Type} [Dist D]

def greedyRounds (g : Graph D) (query : Vec) (l : ℕ) : ℕ → ℕ → D → Option (ℕ × D)
  | 0, _, _ => none
  | m + 1, best, bestDist =>
    let scan := (g.links best l).foldl (g.greedyScan query) (best, bestDist, false)
    if scan.2.2 then greedyRounds g query l m scan.1 scan.2.1 else some (scan.1, scan.2.1)

variable {g : Graph D} {query : Vec} {l : ℕ}

theorem greedyScan_stays {best : ℕ} {bestDist : D} {nbrs : List ℕ}
    (hscan : nbrs.foldl (g.greedyScan query) (best, bestDist, false) = (best, bestDist, false)) :
    ∀ nbr ∈ nbrs, Dist.lt (g.dist query (g.vec nbr)) bestDist = false := by
  induction nbrs using reverseRecOn with
  | nil =>
    intro nbr hnbr
    cases hnbr
  | append_singleton rest last ih =>
    rw [foldl_append, foldl_cons, foldl_nil, greedyScan] at hscan
    by_cases hcloser : Dist.lt (g.dist query (g.vec last))
        (rest.foldl (g.greedyScan query) (best, bestDist, false)).2.1 = true
    · simp [hcloser] at hscan
    · rw [if_neg hcloser] at hscan
      rw [hscan] at hcloser
      intro nbr hnbr
      rcases mem_append.mp hnbr with hrest | hlast
      · exact ih hscan nbr hrest
      · rw [mem_singleton.mp hlast]
        exact Bool.eq_false_iff.mpr hcloser

/-- What the walk from `best` comes to, with its distance and how far the walk has come. -/
structure EndsAt (g : Graph D) (query : Vec) (l best : ℕ) (bestDist : D) (slot : ℕ) (d : D) : Prop where
  reached : g.Reaches l best slot
  dist_eq : d = g.dist query (g.vec slot)
  not_farther : Dist.lt bestDist d = false
  least : ∀ nbr ∈ g.links slot l, Dist.lt (g.dist query (g.vec nbr)) d = false

theorem greedyRounds_ends (ho : StrictWeak (Dist.lt (D := D))) (hlt : g.LinksLt l) {m best : ℕ}
    {bestDist : D} (hm : (g.closerSlots query bestDist).length < m)
    (htrue : bestDist = g.dist query (g.vec best)) :
    g.greedyRounds query l m best bestDist = some (g.greedyLoop query l m best bestDist) ∧
      g.EndsAt query l best bestDist (g.greedyLoop query l m best bestDist).1
        (g.greedyLoop query l m best bestDist).2 := by
  -- each round that improves leaves fewer slots closer than the best
  induction m generalizing best bestDist with
  | zero => omega
  | succ m ih =>
    simp only [greedyRounds, greedyLoop]
    rcases greedyScan_foldl g query best bestDist (g.links best l) with hstay | ⟨nbr, hnbr, hmove, hcloser⟩
    · simp only [hstay]
      exact ⟨rfl, .refl, htrue, ho.irrefl bestDist, greedyScan_stays hstay⟩
    · have hdrop := closerSlots_length_lt ho (hlt best nbr hnbr) (hcloser ho)
      have hsmaller : (g.closerSlots query (g.dist query (g.vec nbr))).length < m := by omega
      have hnext := ih hsmaller rfl
      simp only [hmove, if_true]
      refine ⟨hnext.1, .head hnbr hnext.2.reached, hnext.2.dist_eq, ?_, hnext.2.least⟩
      exact ho.not_trans (ho.asymm (hcloser ho)) hnext.2.not_farther

theorem greedyClosest_local_minimum (ho : StrictWeak (Dist.lt (D := D))) (hg : g.WF) (query : Vec) (l : ℕ)
    {entry : ℕ} (hentry : entry < g.nodes.length) {entryDist : D}
    (htrue : entryDist = g.dist query (g.vec entry)) :
    ∃ slot d, g.greedyClosest entry entryDist query l = (slot, d) ∧
      (∀ rounds, g.nodes.length < rounds → g.greedyRounds query l rounds entry entryDist = some (slot, d)) ∧
      slot < g.nodes.length ∧ g.Reaches l entry slot ∧ d = g.dist query (g.vec slot) ∧
      Dist.lt entryDist d = false ∧
      ∀ nbr ∈ g.links slot l, Dist.lt (g.dist query (g.vec nbr)) d = false := by
  have hlt := hg.shape.linked.linksLt l
  have hfew := g.closerSlots_length_le query entryDist
  have hend := (greedyRounds_ends ho hlt (Nat.lt_succ_of_le hfew) htrue).2
  refine ⟨_, _, rfl, fun rounds hrounds => ?_, hend.reached.lt hlt hentry, hend.reached, hend.dist_eq,
    hend.not_farther, hend.least⟩
  obtain ⟨k, rfl⟩ := Nat.exists_eq_add_of_le (Nat.succ_le_of_lt hrounds)
  rw [(greedyRounds_ends ho hlt (by omega) htrue).1]
  exact congrArg some (greedyClosest_enough ho hlt entry entryDist k)

theorem greedyClosest_on_the_line :
    ∃ slot d, threeOnTheLine.greedyClosest 1 (threeOnTheLine.dist [0] (threeOnTheLine.vec 1)) [0] 0 =
        (slot, d) ∧ (slot, d) = (0, ⟨0⟩) ∧
      ∀ nbr ∈ threeOnTheLine.links slot 0,
        Dist.lt (threeOnTheLine.dist [0] (threeOnTheLine.vec nbr)) d = false := by
  have hentry : 1 < threeOnTheLine.nodes.length := by decide
  obtain ⟨slot, d, hends, -, -, -, -, -, hleast⟩ :=
    greedyClosest_local_minimum Exact.strictWeak threeOnTheLine_wf [0] 0 hentry rfl
  exact ⟨slot, d, hends, hends.symm.trans (by decide), hleast⟩

end NuclaDB.Hnsw.Graph
