import Mathlib.Data.List.Nodup
import NuclaDB.HnswSearch

/-!
# What a beam search finds

The search keeps one invariant (`BeamInv`), without assuming anything of the order tests.
-/

namespace NuclaDB.Hnsw

open BinaryHeap List

variable {D : Type} [Dist D]

section Fresh
variable {visited nbrs : List ℕ}

theorem mem_fresh {x : ℕ} : x ∈ fresh visited nbrs ↔ x ∈ nbrs ∧ x ∉ visited := by
  induction nbrs generalizing visited with
  | nil => simp [fresh]
  | cons nbr rest ih =>
    simp only [fresh]
    split
    · next h =>
      rw [ih]
      aesop
    · next h =>
      simp only [mem_cons, ih]
      grind

theorem fresh_nodup : (fresh visited nbrs).Nodup := by
  induction nbrs generalizing visited with
  | nil => simp [fresh]
  | cons nbr rest ih =>
    simp only [fresh]
    split
    · exact ih
    · exact nodup_cons.mpr ⟨by simp [mem_fresh], ih⟩

end Fresh

namespace Graph

section Beam
variable {g : Graph D} {query : Vec} {entry ef l : ℕ} {b : Beam D} {pend : List ℕ}

/-- What holds of a beam search while the slots of `pend` are marked but not scored yet. -/
structure BeamInv (g : Graph D) (query : Vec) (entry ef l : ℕ) (pend : List ℕ) (b : Beam D) : Prop where
  visited_nodup : b.visited.Nodup
  visited_reach : ∀ x ∈ b.visited, g.Reaches l entry x
  entry_visited : entry ∈ b.visited
  pend_nodup : pend.Nodup
  pend_visited : ∀ x ∈ pend, x ∈ b.visited ∧ x ∉ b.results.map (·.id)
  frontier_visited : ∀ c ∈ b.frontier, c.id ∈ b.visited
  results_ok : ∀ c ∈ b.results, c.id ∈ b.visited ∧ g.isDead c.id = false ∧
    c.dist = g.dist query (g.vec c.id)
  results_nodup : (b.results.map (·.id)).Nodup
  results_le : b.results.length ≤ ef
  complete : ef ≤ b.results.length ∨
    ((∀ x ∈ b.visited, g.isDead x = false → x ∈ b.results.map (·.id) ∨ x ∈ pend) ∧
      ∀ x ∈ b.visited, x ∈ b.frontier.map (·.id) ∨ x ∈ pend ∨ ∀ y ∈ g.links x l, y ∈ b.visited)

/-- Scoring one neighbor changes the results by at most the new one and one put out, and loses nothing
while they are fewer than `ef`. -/
structure Scored (g : Graph D) (query : Vec) (ef nbr : ℕ) (b b' : Beam D) : Prop where
  visited : b'.visited = b.visited
  frontier : ∀ c ∈ b'.frontier, c.id = nbr ∨ c ∈ b.frontier
  frontier_le : b'.frontier.length ≤ b.frontier.length + 1
  results : ∀ c ∈ b'.results, c ∈ b.results ∨
    (c = ⟨nbr, g.dist query (g.vec nbr)⟩ ∧ g.isDead nbr = false)
  results_nodup : (b'.results.map (·.id)).Nodup
  results_le : b'.results.length ≤ ef
  results_ge : b.results.length ≤ b'.results.length
  kept : ef ≤ b'.results.length ∨ ((∀ c ∈ b.frontier, c ∈ b'.frontier) ∧ nbr ∈ b'.frontier.map (·.id) ∧
      (∀ c ∈ b.results, c ∈ b'.results) ∧ (g.isDead nbr = false → nbr ∈ b'.results.map (·.id)))

theorem scored (g : Graph D) (query : Vec) {nbr : ℕ} (hle : b.results.length ≤ ef)
    (hnodup : (b.results.map (·.id)).Nodup) (hnew : nbr ∉ b.results.map (·.id)) :
    Scored g query ef nbr b (g.score query ef b nbr) := by
  have hfr := push_perm closer b.frontier ⟨nbr, g.dist query (g.vec nbr)⟩
  have hres := push_perm farther b.results ⟨nbr, g.dist query (g.vec nbr)⟩
  have hnodup' : ((⟨nbr, g.dist query (g.vec nbr)⟩ :: b.results : List (Candidate D)).map
      (·.id)).Nodup := nodup_cons.mpr ⟨hnew, hnodup⟩
  simp only [score]
  generalize hdist : g.dist query (g.vec nbr) = d at *
  have hfmem : ∀ x ∈ push closer b.frontier ⟨nbr, d⟩, x.id = nbr ∨ x ∈ b.frontier := by
    intro x hx
    obtain rfl | hx := mem_cons.mp (hfr.mem_iff.mp hx)
    · exact .inl rfl
    · exact .inr hx
  have hflen := hfr.length_eq.le
  have hrlen := hres.length_eq
  simp only [length_cons] at hflen hrlen
  have hfkeep : ∀ x ∈ b.frontier, x ∈ push closer b.frontier ⟨nbr, d⟩ :=
    fun x hx => hfr.mem_iff.mpr (mem_cons_of_mem _ hx)
  have hfnew : nbr ∈ (push closer b.frontier ⟨nbr, d⟩).map (·.id) :=
    mem_map.mpr ⟨_, hfr.mem_iff.mpr mem_cons_self, rfl⟩
  split
  · split
    · next hd =>
      exact ⟨rfl, hfmem, hflen, fun x hx => .inl hx, hnodup, hle, le_rfl,
        .inr ⟨hfkeep, hfnew, fun x hx => hx, by simp [hd]⟩⟩
    · next hd =>
      simp only [Bool.not_eq_true] at hd
      split
      · next hlt =>
        split
        · next x rest hpop =>
          have hperm := hres.symm.trans (pop_perm farther hpop)
          have hlen := hperm.length_eq
          simp only [length_cons] at hlen
          refine ⟨rfl, hfmem, hflen, fun y hy => ?_, ?_, by simp only; omega, by simp only; omega,
            .inl (by simp only; omega)⟩
          · obtain rfl | hy := mem_cons.mp (hperm.mem_iff.mpr (mem_cons_of_mem _ hy))
            · exact .inr ⟨by rw [hdist], hd⟩
            · exact .inl hy
          · exact (nodup_cons.mp ((hperm.map (·.id)).nodup_iff.mp hnodup')).2
        · next hpop => simp [(pop_eq_none farther).mp hpop] at hlt
      · next hlt =>
        refine ⟨rfl, hfmem, hflen, fun y hy => ?_, (hres.map (·.id)).nodup_iff.mpr hnodup',
          Nat.not_lt.mp hlt, by simp only; omega, .inr ⟨hfkeep, hfnew, fun y hy => ?_, fun _ => ?_⟩⟩
        · obtain rfl | hy := mem_cons.mp (hres.mem_iff.mp hy)
          · exact .inr ⟨by rw [hdist], hd⟩
          · exact .inl hy
        · exact hres.mem_iff.mpr (mem_cons_of_mem _ hy)
        · exact mem_map.mpr ⟨_, hres.mem_iff.mpr mem_cons_self, rfl⟩
  · next h =>
    simp only [not_or, Nat.not_lt] at h
    exact ⟨rfl, fun x hx => .inr hx, Nat.le_succ _, fun x hx => .inl hx, hnodup, hle, le_rfl, .inl h.1⟩

theorem BeamInv.score {nbr : ℕ} (h : BeamInv g query entry ef l (nbr :: pend) b) :
    BeamInv g query entry ef l pend (g.score query ef b nbr) := by
  obtain ⟨hnd, hreach, hentry, hpn, hpv, hfv, hok, hrn, hle, hcomp⟩ := h
  obtain ⟨hnbr, hnew⟩ := hpv nbr (by simp)
  obtain ⟨hnp, hpn'⟩ := nodup_cons.mp hpn
  obtain ⟨hvis, hf, -, hr, hrn', hle', hge, hkept⟩ := scored g query hle hrn hnew
  simp only [mem_map] at hpv hnew hcomp hkept
  constructor <;> (try simp only [hvis, mem_map])
  · exact hnd
  · exact hreach
  · exact hentry
  · exact hpn'
  · grind
  · grind
  · grind
  · exact hrn'
  · exact hle'
  · obtain hfull | ⟨hlive, hway⟩ := hcomp
    · exact .inl (hfull.trans hge)
    · refine hkept.imp id fun ⟨hfk, hfn, hrk, hrnew⟩ => ⟨?_, ?_⟩
      · grind
      · grind

theorem BeamInv.foldl_score (h : BeamInv g query entry ef l pend b) :
    BeamInv g query entry ef l [] (pend.foldl (g.score query ef) b) ∧
      (pend.foldl (g.score query ef) b).visited = b.visited ∧
      (pend.foldl (g.score query ef) b).frontier.length ≤ b.frontier.length + pend.length := by
  induction pend generalizing b with
  | nil => exact ⟨h, rfl, by simp⟩
  | cons nbr pend ih =>
    have hnbr := (h.pend_visited nbr (by simp)).2
    have hscored := scored g query h.results_le h.results_nodup hnbr
    obtain ⟨hinv, hvis, hlen⟩ := ih h.score
    refine ⟨hinv, hvis.trans hscored.visited, ?_⟩
    have := hscored.frontier_le
    simp only [foldl_cons, length_cons]
    omega

omit [Dist D] in
theorem BeamInv.mark {c : Candidate D} {rest : List (Candidate D)}
    (h : BeamInv g query entry ef l [] b) (hpop : b.frontier.Perm (c :: rest)) :
    BeamInv g query entry ef l (fresh b.visited (g.links c.id l))
      { b with frontier := rest, visited := fresh b.visited (g.links c.id l) ++ b.visited } := by
  obtain ⟨hnd, hreach, hentry, -, -, hfv, hok, hrn, hle, hcomp⟩ := h
  have hc : c.id ∈ b.visited := hfv c (hpop.mem_iff.mpr mem_cons_self)
  have hids : ∀ x, x ∈ b.frontier.map (·.id) ↔ x = c.id ∨ x ∈ rest.map (·.id) := fun x => by
    simpa using (hpop.map (·.id)).mem_iff (a := x)
  refine ⟨?_, ?_, mem_append_right _ hentry, fresh_nodup, ?_, ?_, ?_, hrn, hle, ?_⟩
  · refine nodup_append.mpr ⟨fresh_nodup, hnd, ?_⟩
    rintro x hx y hy rfl
    exact (mem_fresh.mp hx).2 hy
  · intro x hx
    obtain hx | hx := mem_append.mp hx
    · exact (hreach c.id hc).tail (mem_fresh.mp hx).1
    · exact hreach x hx
  · refine fun x hx => ⟨mem_append_left _ hx, fun hr => (mem_fresh.mp hx).2 ?_⟩
    obtain ⟨r, hmem, rfl⟩ := mem_map.mp hr
    exact (hok r hmem).1
  · intro x hx
    exact mem_append_right _ (hfv x (hpop.mem_iff.mpr (mem_cons_of_mem _ hx)))
  · exact fun x hx => ⟨mem_append_right _ (hok x hx).1, (hok x hx).2⟩
  · simp only [mem_append, mem_fresh]
    refine hcomp.imp id fun ⟨hlive, hway⟩ => ⟨?_, ?_⟩
    · rintro x (hx | hx) hd
      · exact .inr hx
      · exact .inl ((hlive x hx hd).resolve_right (by simp))
    · rintro x (hx | hx)
      · exact .inr (.inl hx)
      · obtain hf | hp | hw := hway x hx
        · obtain rfl | hf := (hids x).mp hf
          · exact .inr (.inr fun y hy => by tauto)
          · exact .inl hf
        · simp at hp
        · exact .inr (.inr fun y hy => .inr (hw y hy))

omit [Dist D] in
theorem BeamInv.visited_length_le
    (h : BeamInv g query entry ef l pend b) (hlt : g.LinksLt l) (he : entry < g.nodes.length) :
    b.visited.length ≤ g.nodes.length := by
  have hsub : b.visited ⊆ List.range g.nodes.length :=
    fun x hx => mem_range.mpr ((h.visited_reach x hx).lt hlt he)
  simpa using (subperm_of_subset h.visited_nodup hsub).length_le

/-- What a beam search leaves: all that can be reached, unless the results are full. -/
structure BeamDone (g : Graph D) (query : Vec) (entry ef l : ℕ) (results : List (Candidate D)) :
    Prop where
  ok : ∀ c ∈ results, g.Reaches l entry c.id ∧ g.isDead c.id = false ∧ c.dist = g.dist query (g.vec c.id)
  nodup : (results.map (·.id)).Nodup
  length_le : results.length ≤ ef
  complete : ef ≤ results.length ∨ ∀ x, g.Reaches l entry x → g.isDead x = false → x ∈ results.map (·.id)

omit [Dist D] in
theorem BeamInv.done (h : BeamInv g query entry ef l [] b)
    (hstop : ef ≤ b.results.length ∨ b.frontier = []) :
    BeamDone g query entry ef l b.results := by
  obtain ⟨-, hreach, hentry, -, -, -, hok, hrn, hle, hcomp⟩ := h
  refine ⟨fun c hc => ⟨hreach _ (hok c hc).1, (hok c hc).2⟩, hrn, hle, ?_⟩
  obtain hfull | hempty := hstop
  · exact .inl hfull
  · refine hcomp.imp id fun ⟨hlive, hway⟩ x hx hd => ?_
    -- with nothing left in the frontier, the visited slots are closed under links
    have hclosed : ∀ y ∈ b.visited, ∀ z ∈ g.links y l, z ∈ b.visited := fun y hy => by
      simpa [hempty] using hway y hy
    have hvisited : x ∈ b.visited := by
      clear hd
      induction hx with
      | refl => exact hentry
      | tail _ hlink ih => exact hclosed _ ih _ hlink
    exact (hlive x hvisited hd).resolve_right (by simp)

def roundsLeft (g : Graph D) (b : Beam D) : ℕ :=
  b.frontier.length + (g.nodes.length - b.visited.length)

section
variable (hlt : g.LinksLt l) (he : entry < g.nodes.length) (h : BeamInv g query entry ef l [] b)
include hlt he h

theorem BeamInv.expand {c : Candidate D} {rest : List (Candidate D)}
    (hperm : b.frontier.Perm (c :: rest)) :
    BeamInv g query entry ef l [] (g.expand query ef l { b with frontier := rest } c.id) ∧
      g.roundsLeft (g.expand query ef l { b with frontier := rest } c.id) < g.roundsLeft b := by
  have hmark := h.mark hperm
  obtain ⟨hinv, hvis, hlen⟩ := hmark.foldl_score
  refine ⟨hinv, ?_⟩
  have hvlen := hmark.visited_length_le hlt he
  have hplen := hperm.length_eq
  simp only [roundsLeft, Graph.expand, hvis, length_append, length_cons]
    at hlen hvlen hplen ⊢
  omega

theorem searchLoop_done {m : ℕ} (hm : g.roundsLeft b ≤ m) :
    BeamDone g query entry ef l (g.searchLoop query ef l m b).results := by
  induction m generalizing b with
  | zero => exact h.done (.inr (length_eq_zero_iff.mp (by rw [roundsLeft] at hm; omega)))
  | succ m ih =>
    simp only [searchLoop]
    split
    · next hpop => exact h.done (.inr ((pop_eq_none closer).mp hpop))
    · next c rest hpop =>
      split
      · next hbreak => exact h.done (.inl hbreak.1)
      · obtain ⟨hinv, hless⟩ := h.expand hlt he (pop_perm closer hpop)
        exact ih hinv (by omega)

theorem searchLoop_enough {m : ℕ} (hm : g.roundsLeft b ≤ m) (k : ℕ) :
    g.searchLoop query ef l (m + k) b = g.searchLoop query ef l m b := by
  induction m generalizing b with
  | zero =>
    have hempty : b.frontier = [] :=
      length_eq_zero_iff.mp (by rw [roundsLeft] at hm; omega)
    cases k <;> simp [searchLoop, hempty, pop]
  | succ m ih =>
    rw [Nat.add_right_comm]
    simp only [searchLoop]
    split
    · rfl
    · next c rest hpop =>
      split
      · rfl
      · obtain ⟨hinv, hless⟩ := h.expand hlt he (pop_perm closer hpop)
        exact ih hinv (by omega)

end

theorem startBeam_inv (g : Graph D) (query : Vec) (entry : ℕ) (hef : 1 ≤ ef) :
    BeamInv g query entry ef l [] (g.startBeam query entry) := by
  have hpush : ∀ before : Candidate D → Candidate D → Bool, ∀ c, push before [] c = [c] :=
    fun before c => perm_singleton.mp (push_perm before [] c)
  by_cases hd : g.isDead entry = true <;>
    constructor <;> simp_all [startBeam, Reaches, Relation.ReflTransGen.refl]

omit [Dist D] in
theorem BeamDone.perm {results out : List (Candidate D)} (h : BeamDone g query entry ef l results)
    (hperm : out.Perm results) : BeamDone g query entry ef l out := by
  obtain ⟨hok, hnodup, hle, hcomp⟩ := h
  refine ⟨fun c hc => hok c (hperm.mem_iff.mp hc), (hperm.map _).nodup_iff.mpr hnodup,
    hperm.length_eq ▸ hle, ?_⟩
  rw [hperm.length_eq]
  exact hcomp.imp id fun h x hx hd => (hperm.map _).mem_iff.mpr (h x hx hd)

theorem startBeam_roundsLeft (g : Graph D) (query : Vec) (he : entry < g.nodes.length) :
    g.roundsLeft (g.startBeam query entry) ≤ g.nodes.length := by
  have hfrontier : (g.startBeam query entry).frontier.length = 1 :=
    (push_perm closer [] _).length_eq
  have hvisited : (g.startBeam query entry).visited.length = 1 := rfl
  rw [roundsLeft]
  omega

theorem searchLayer_done (g : Graph D) (query : Vec) (hlt : g.LinksLt l)
    (he : entry < g.nodes.length) (hef : 1 ≤ ef) :
    BeamDone g query entry ef l (g.searchLayer query entry ef l) := by
  have hdone := searchLoop_done hlt he (startBeam_inv (l := l) g query entry hef)
    (startBeam_roundsLeft g query he)
  exact hdone.perm ((reverse_perm _).trans (drain_perm farther le_rfl))

end Beam

end Graph

end NuclaDB.Hnsw
