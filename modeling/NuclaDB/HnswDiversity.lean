import NuclaDB.HnswClosest

/-!
# Which candidates the diversity heuristic keeps

`diverse` scans its candidates once and keeps positions of them.
-/

namespace NuclaDB.Hnsw.Graph

open List

variable {D : Type} [Dist D]

/-- The candidate at `j` is closer to the one at `i` than the distance it is listed with. -/
def CloserTo (g : Graph D) (cs : List (Candidate D)) (j i : Fin cs.length) : Prop :=
  Dist.lt (g.dist (g.vec cs[j].id) (g.vec cs[i].id)) cs[j].dist = true

structure Selection (g : Graph D) (m : ℕ) (cs : List (Candidate D)) (n : ℕ) (sel : List (Fin cs.length)) :
    Prop where
  ascending : sel.Pairwise (· < ·)
  scanned : ∀ i ∈ sel, i.val < n
  length_le : sel.length ≤ m
  first : 1 ≤ m → ∀ j : Fin cs.length, j.val = 0 → j.val < n → j ∈ sel
  apart : ∀ j ∈ sel, ∀ i ∈ sel, i < j → ¬ g.CloserTo cs j i
  skipped : ∀ j : Fin cs.length, j.val < n → j ∉ sel →
    (∃ i ∈ sel, i < j ∧ g.CloserTo cs j i) ∨ (sel.filter fun i => i < j).length = m

variable {g : Graph D} {m n : ℕ} {cs : List (Candidate D)} {sel : List (Fin cs.length)}

theorem selection_nil (g : Graph D) (m : ℕ) (cs : List (Candidate D)) : g.Selection m cs 0 [] :=
  ⟨.nil, by simp, Nat.zero_le m, by simp, by simp, by simp⟩

section
variable (hs : g.Selection m cs n sel)
include hs

theorem Selection.full (hfull : m ≤ sel.length) : g.Selection m cs cs.length sel := by
  refine ⟨hs.ascending, fun i _ => i.isLt, hs.length_le, fun hm j hj _ => ?_, hs.apart, fun j _ hj => ?_⟩
  · have hkept : 0 < sel.length := by omega
    have hn := hs.scanned _ (getElem_mem hkept)
    exact hs.first hm j hj (by omega)
  · by_cases hjn : j.val < n
    · exact hs.skipped j hjn hj
    · have hall : (sel.filter fun i => i < j) = sel := by
        rw [filter_eq_self]
        intro i hi
        have hin := hs.scanned i hi
        exact decide_eq_true (Fin.lt_def.mpr (by omega))
      exact .inr (by rw [hall]; exact Nat.le_antisymm hs.length_le hfull)

theorem Selection.skip (hn : n < cs.length)
    (hclose : ∃ i ∈ sel, g.CloserTo cs ⟨n, hn⟩ i) : g.Selection m cs (n + 1) sel := by
  obtain ⟨kept, hkept, hcloser⟩ := hclose
  have hbefore := hs.scanned kept hkept
  refine ⟨hs.ascending, fun i hi => Nat.lt_succ_of_lt (hs.scanned i hi), hs.length_le,
    fun hm j hj _ => hs.first hm j hj (by omega), hs.apart, fun j hj hnot => ?_⟩
  by_cases hjn : j.val < n
  · exact hs.skipped j hjn hnot
  · obtain rfl : j = ⟨n, hn⟩ := Fin.ext (by simp only; omega)
    exact .inl ⟨kept, hkept, hbefore, hcloser⟩

theorem Selection.keep (hn : n < cs.length) (hroom : sel.length < m)
    (hfar : ∀ i ∈ sel, ¬ g.CloserTo cs ⟨n, hn⟩ i) : g.Selection m cs (n + 1) (sel ++ [⟨n, hn⟩]) := by
  constructor
  · rw [pairwise_append]
    refine ⟨hs.ascending, pairwise_singleton _ _, fun i hi j hj => ?_⟩
    rw [mem_singleton.mp hj]
    exact hs.scanned i hi
  · intro i hi
    rcases mem_append.mp hi with hi | hi
    · exact Nat.lt_succ_of_lt (hs.scanned i hi)
    · simp [mem_singleton.mp hi]
  · simpa using hroom
  · intro hm j hj _
    by_cases hjn : j.val < n
    · exact mem_append_left _ (hs.first hm j hj hjn)
    · obtain rfl : j = ⟨n, hn⟩ := Fin.ext (by simp only; omega)
      simp
  · intro j hj i hi hij
    rcases mem_append.mp hi with hi | hi
    · rcases mem_append.mp hj with hj | hj
      · exact hs.apart j hj i hi hij
      · rw [mem_singleton.mp hj]
        exact hfar i hi
    · -- nothing that is kept stands behind the new one
      have hbehind : n < j.val := by simpa [mem_singleton.mp hi, Fin.lt_def] using hij
      rcases mem_append.mp hj with hj | hj
      · have hjn := hs.scanned j hj
        omega
      · simp [mem_singleton.mp hj] at hbehind
  · intro j hj hnot
    rw [mem_append, not_or, mem_singleton] at hnot
    have hjn : j.val < n := by
      have hne : j.val ≠ n := fun h => hnot.2 (Fin.ext h)
      omega
    have hlast : ¬ (⟨n, hn⟩ : Fin cs.length) < j := Nat.not_lt_of_lt hjn
    rcases hs.skipped j hjn hnot.1 with ⟨i, hi, hij, hcloser⟩ | hcount
    · exact .inl ⟨i, mem_append_left _ hi, hij, hcloser⟩
    · exact .inr (by simpa [hlast] using hcount)

theorem Selection.diverse (hn : n ≤ cs.length) : ∃ all, g.Selection m cs cs.length all ∧
      g.diverse m (cs.drop n) (sel.map cs.get) = all.map cs.get := by
  obtain ⟨k, hk⟩ := Nat.exists_eq_add_of_le hn
  induction k generalizing n sel with
  | zero =>
    obtain rfl : n = cs.length := by omega
    exact ⟨sel, hs, by simp [Graph.diverse]⟩
  | succ k ih =>
    have hn : n < cs.length := by omega
    rw [drop_eq_getElem_cons hn]
    simp only [Graph.diverse, length_map]
    by_cases hfull : m ≤ sel.length
    · exact ⟨sel, hs.full hfull, by rw [if_pos hfull]⟩
    · rw [if_neg hfull]
      by_cases hclose : ∃ i ∈ sel, g.CloserTo cs ⟨n, hn⟩ i
      · have hany : (sel.map cs.get).any (fun kept =>
            Dist.lt (g.dist (g.vec cs[n].id) (g.vec kept.id)) cs[n].dist) = true := by
          simpa [CloserTo] using hclose
        rw [if_pos hany]
        exact ih (hs.skip hn hclose) (by omega) (by omega)
      · have hany : ¬ (sel.map cs.get).any (fun kept =>
            Dist.lt (g.dist (g.vec cs[n].id) (g.vec kept.id)) cs[n].dist) = true := by
          simpa [CloserTo] using hclose
        rw [if_neg hany]
        have hkeep := hs.keep hn (by omega) fun i hi hcloser => hclose ⟨i, hi, hcloser⟩
        simpa using ih hkeep (by omega) (by omega)

end

theorem diverse_selects (g : Graph D) {m : ℕ} (hm : 1 ≤ m) (cs : List (Candidate D)) :
    ∃ sel : List (Fin cs.length), g.diverse m cs [] = sel.map cs.get ∧ sel.Pairwise (· < ·) ∧
      sel.length ≤ m ∧ (∀ h : 0 < cs.length, ⟨0, h⟩ ∈ sel) ∧
      (∀ j ∈ sel, ∀ i ∈ sel, i < j →
        Dist.lt (g.dist (g.vec cs[j].id) (g.vec cs[i].id)) cs[j].dist = false) ∧
      ∀ j ∉ sel,
        (∃ i ∈ sel, i < j ∧ Dist.lt (g.dist (g.vec cs[j].id) (g.vec cs[i].id)) cs[j].dist = true) ∨
          (sel.filter fun i => i < j).length = m := by
  obtain ⟨sel, hs, hdiverse⟩ := (selection_nil g m cs).diverse (Nat.zero_le _)
  refine ⟨sel, hdiverse, hs.ascending, hs.length_le, fun h => hs.first hm _ rfl h, ?_, ?_⟩
  · intro j hj i hi hij
    exact Bool.eq_false_iff.mpr (hs.apart j hj i hi hij)
  · intro j hj
    exact hs.skipped j j.isLt hj

def nearAndFar : List (Candidate Exact) :=
  [2, 1].map fun slot => ⟨slot, threeOnTheLine.dist [0] (threeOnTheLine.vec slot)⟩

theorem diverse_nearAndFar : threeOnTheLine.diverse 2 nearAndFar [] = nearAndFar.take 1 ∧
    ∃ sel : List (Fin nearAndFar.length), threeOnTheLine.diverse 2 nearAndFar [] = sel.map nearAndFar.get ∧
      sel.length ≤ 2 ∧ ⟨0, by decide⟩ ∈ sel := by
  have hm : 1 ≤ 2 := by decide
  obtain ⟨sel, hdiverse, -, hlength, hfirst, -⟩ := diverse_selects threeOnTheLine hm nearAndFar
  exact ⟨by decide, sel, hdiverse, hlength, hfirst (by decide)⟩

end NuclaDB.Hnsw.Graph
