import NuclaDB.TopK

/-!
# The best of several answers

Entries have keys in a linear order, and each of some parts of them answers with its
`k` smallest.
-/

namespace NuclaDB.Gather

open TopK BinaryHeap List

section Smallest
variable {α κ : Type*} [LinearOrder κ] {key : α → κ} {k : ℕ} {all kept : List α}

structure Smallest (key : α → κ) (k : ℕ) (all kept : List α) : Prop where
  best : Best (fun a b => decide (key b < key a)) k all kept
  sorted : kept.Pairwise fun a b => key a ≤ key b

theorem weak_key (key : α → κ) : Weak fun a b => decide (key b < key a) where
  asymm h := by simpa using le_of_lt (by simpa using h)
  not_trans hab hbc := by simpa using le_trans (by simpa using hab) (by simpa using hbc)

theorem smallest_take {l : List α} (hl : l.Pairwise fun a b => key a ≤ key b) (hperm : l.Perm all) :
    Smallest key k all (l.take k) := by
  refine ⟨⟨l.drop k, by rwa [take_append_drop], by simp [hperm.length_eq], ?_⟩, hl.take⟩
  intro a ha b hb
  have hsplit : (l.take k ++ l.drop k).Pairwise fun a b => key a ≤ key b := by
    rwa [take_append_drop]
  simpa using (pairwise_append.mp hsplit).2.2 a ha b hb

section
variable (h : Smallest key k all kept)
include h

theorem Smallest.keys {ks : List κ} (hks : ks.Pairwise (· ≤ ·))
    (hperm : ks.Perm (all.map key)) : kept.map key = ks.take k := by
  have hbest : Best (fun a b : κ => decide (b < a)) k (all.map key) (kept.map key) :=
    h.best.map key fun a b => rfl
  have hpair : (kept.map key).Pairwise fun a b => decide (b < a) = false := by
    rw [pairwise_map]
    exact h.sorted.imp fun hab => by simpa using hab
  refine hbest.eq_take (weak_key fun a => a) ?_ hpair (hks.imp fun hab => by simpa using hab) hperm
  intro a b hab hba
  exact le_antisymm (by simpa using hab) (by simpa using hba)

theorem Smallest.length_le : kept.length ≤ k := by
  rw [h.best.length_eq]
  exact min_le_left _ _

theorem Smallest.mem_or {z : α} (hz : z ∈ all) :
    z ∈ kept ∨ kept.length = k ∧ ∀ x ∈ kept, key x ≤ key z := by
  obtain ⟨⟨dropped, hperm, hlen, hout⟩, -⟩ := h
  rcases mem_append.mp (hperm.mem_iff.mpr hz) with hmem | hmem
  · exact .inl hmem
  · refine .inr ⟨?_, fun x hx => by simpa using hout x hx z hmem⟩
    have hsum := hperm.length_eq
    have hpos : 0 < dropped.length := length_pos_of_mem hmem
    rw [length_append] at hsum
    omega

theorem Smallest.countP_lt {x : α} (hx : x ∈ kept) :
    kept.countP (fun a => key a < key x) = all.countP fun a => key a < key x := by
  obtain ⟨⟨dropped, hperm, -, hout⟩, -⟩ := h
  have hnone : dropped.countP (fun a => key a < key x) = 0 := by
    rw [countP_eq_zero]
    intro a ha
    simpa using hout x hx a ha
  rw [← hperm.countP_eq, countP_append, hnone, Nat.add_zero]

end

end Smallest

section Lists
variable {α : Type*} {l l' : List α}

theorem countP_le_of_subset (hl : l.Nodup) (p : α → Bool) (h : ∀ a ∈ l, p a = true → a ∈ l') :
    l.countP p ≤ l'.countP p := by
  rw [countP_eq_length_filter, countP_eq_length_filter]
  refine (subperm_of_subset (hl.filter p) ?_).length_le
  intro a ha
  obtain ⟨ha, hp⟩ := mem_filter.mp ha
  exact mem_filter.mpr ⟨h a ha hp, hp⟩

theorem countP_add_count_le [DecidableEq α] (l : List α) {p : α → Bool} {x : α} (hx : p x = false) :
    l.countP p + l.count x ≤ l.length := by
  rw [length_eq_countP_add_countP p]
  refine Nat.add_le_add_left (countP_mono_left fun a _ ha => ?_) _
  have hax : a = x := by simpa using ha
  simp [hax, hx]

end Lists

section Parts
variable {α ι : Type*} [DecidableEq α] {is : List ι} {answer : ι → List α}

theorem count_flatMap_le (his : is.Nodup) (hanswer : ∀ i ∈ is, (answer i).Nodup) {x : α}
    (hone : ∀ i ∈ is, ∀ j ∈ is, x ∈ answer i → x ∈ answer j → i = j) :
    (is.flatMap answer).count x ≤ 1 := by
  induction is with
  | nil => simp
  | cons i is ih =>
    obtain ⟨hi, his⟩ := nodup_cons.mp his
    rw [flatMap_cons, count_append]
    by_cases hx : x ∈ answer i
    · have hrest : (is.flatMap answer).count x = 0 := by
        rw [count_eq_zero]
        intro hmem
        obtain ⟨j, hj, hxj⟩ := mem_flatMap.mp hmem
        have hij := hone i mem_cons_self j (mem_cons_of_mem i hj) hx hxj
        exact hi (hij ▸ hj)
      have hfirst := nodup_iff_count_le_one.mp (hanswer i mem_cons_self) x
      omega
    · rw [count_eq_zero.mpr hx, Nat.zero_add]
      refine ih his (fun j hj => hanswer j (mem_cons_of_mem i hj)) fun j hj j' hj' => ?_
      exact hone j (mem_cons_of_mem i hj) j' (mem_cons_of_mem i hj')

end Parts

structure Parts {α ι : Type*} (W : List α) (is : List ι) (part : ι → List α) : Prop where
  nodup : W.Nodup
  indices : is.Nodup
  part_nodup (i : ι) : (part i).Nodup
  sub (i : ι) : ∀ x ∈ part i, x ∈ W
  cover : ∀ x ∈ W, ∃ i ∈ is, x ∈ part i

section Merge
variable {α ι κ : Type*} [LinearOrder κ] {key : α → κ} {k : ℕ} {W R : List α} {is : List ι}
  {part answer : ι → List α} (hW : Parts W is part) (hanswer : ∀ i ∈ is, Smallest key k (part i) (answer i))
include hanswer

theorem answer_mem {i : ι} (hi : i ∈ is) {x : α} (hx : x ∈ answer i) : x ∈ part i :=
  (hanswer i hi).best.subset hx

include hW

theorem answer_nodup {i : ι} (hi : i ∈ is) : (answer i).Nodup := by
  obtain ⟨dropped, hperm, -, -⟩ := (hanswer i hi).best
  exact (nodup_append.mp (hperm.nodup_iff.mpr (hW.part_nodup i))).1

theorem mem_of_answered {x : α} (hx : x ∈ is.flatMap answer) : x ∈ W := by
  obtain ⟨i, hi, hx⟩ := mem_flatMap.mp hx
  exact hW.sub i x (answer_mem hanswer hi hx)

theorem answered_or {z : α} (hz : z ∈ W) :
    z ∈ is.flatMap answer ∨ k ≤ (is.flatMap answer).countP fun x => key x ≤ key z := by
  obtain ⟨i, hi, hzi⟩ := hW.cover z hz
  rcases (hanswer i hi).mem_or hzi with hmem | ⟨hlen, hle⟩
  · exact .inl (mem_flatMap.mpr ⟨i, hi, hmem⟩)
  · right
    have hcount : (answer i).countP (fun x => key x ≤ key z) = k := by
      rw [← hlen, countP_eq_length]
      intro x hx
      simpa using hle x hx
    rw [← hcount]
    exact (sublist_flatten_of_mem (mem_map_of_mem hi)).countP_le

theorem le_countP_answered {x : α} (h : k ≤ W.countP (fun a => key a < key x) + 1) :
    k ≤ (is.flatMap answer).countP (fun a => key a < key x) + 1 := by
  by_cases hall : ∀ z ∈ W, decide (key z < key x) = true → z ∈ is.flatMap answer
  · have hle := countP_le_of_subset hW.nodup (fun a => decide (key a < key x)) hall
    omega
  · push Not at hall
    obtain ⟨z, hz, hlt, hnot⟩ := hall
    have hk := (answered_or hW hanswer hz).resolve_left hnot
    refine hk.trans ((countP_mono_left fun a _ ha => ?_).trans (Nat.le_succ _))
    have hle : key a ≤ key z := by simpa using ha
    simpa using lt_of_le_of_lt hle (by simpa using hlt)

section
variable (hR : Smallest key k (is.flatMap answer) R)
include hR

theorem nodup_of_late (hlate : ∀ i ∈ is, ∀ j ∈ is, i ≠ j → ∀ x ∈ part i, x ∈ part j →
      k ≤ W.countP (fun a => key a < key x) + 1) : R.Nodup := by
  classical
  rw [nodup_iff_count_le_one]
  intro x
  by_contra htwice
  have hxR : x ∈ R := count_pos_iff.mp (by omega)
  have htwo : ¬ (is.flatMap answer).count x ≤ 1 := by
    obtain ⟨⟨dropped, hperm, -, -⟩, -⟩ := hR
    rw [← hperm.count_eq, count_append]
    omega
  obtain ⟨i, hi, j, hj, hxi, hxj, hne⟩ : ∃ i ∈ is, ∃ j ∈ is, x ∈ answer i ∧ x ∈ answer j ∧ i ≠ j := by
    by_contra hnone
    push Not at hnone
    exact htwo (count_flatMap_le hW.indices (fun i hi => answer_nodup hW hanswer hi) hnone)
  -- `k - 1` smaller answers and the two take more room than there is
  have hlow := le_countP_answered hW hanswer
    (hlate i hi j hj hne x (answer_mem hanswer hi hxi) (answer_mem hanswer hj hxj))
  rw [← hR.countP_lt hxR] at hlow
  have hroom := countP_add_count_le R (p := fun a => decide (key a < key x)) (x := x) (by simp)
  have hlen := hR.length_le
  omega

theorem smallest_of_nodup (hnodup : R.Nodup) : Smallest key k W R := by
  classical
  have hsub : ∀ x ∈ R, x ∈ W := fun x hx => mem_of_answered hW hanswer (hR.best.subset hx)
  have hlen : R.length = min k W.length := by
    have hle : R.length ≤ W.length := (subperm_of_subset hnodup hsub).length_le
    have hcount := hR.best.length_eq
    by_cases hk : k ≤ (is.flatMap answer).length
    · omega
    · -- then everything is answered
      have hall : ∀ z ∈ W, z ∈ R := by
        intro z hz
        have hmem : z ∈ is.flatMap answer := by
          refine (answered_or hW hanswer hz).resolve_right fun hle => hk (hle.trans ?_)
          exact countP_le_length
        refine (hR.mem_or hmem).resolve_right fun hfull => ?_
        have hfull := hfull.1
        omega
      have hle' : W.length ≤ R.length := (subperm_of_subset hW.nodup hall).length_le
      omega
  refine ⟨⟨W.filter fun z => z ∉ R, ?_, hlen, fun x hx z hz => ?_⟩, hR.sorted⟩
  · have hperm : (W.filter fun z => z ∈ R).Perm R := by
      rw [perm_ext_iff_of_nodup (hW.nodup.filter _) hnodup]
      intro z
      simp only [mem_filter, decide_eq_true_eq]
      exact ⟨fun h => h.2, fun h => ⟨hsub z h, h⟩⟩
    have hsplit := filter_append_perm (fun z => decide (z ∈ R)) W
    simp only [← decide_not] at hsplit
    exact (hperm.symm.append_right _).trans hsplit
  · obtain ⟨hzW, hzR⟩ := mem_filter.mp hz
    have hzR : z ∉ R := by simpa using hzR
    by_contra hlt
    have hlt : key z < key x := by simpa using hlt
    have hk : k ≤ (is.flatMap answer).countP fun a => key a < key x := by
      rcases answered_or hW hanswer hzW with hmem | hk
      · have hzx := ((hR.mem_or hmem).resolve_left hzR).2 x hx
        exact absurd hlt (not_lt.mpr hzx)
      · refine hk.trans (countP_mono_left fun a _ ha => ?_)
        have hle : key a ≤ key z := by simpa using ha
        simpa using lt_of_le_of_lt hle hlt
    rw [← hR.countP_lt hx] at hk
    have hroom := countP_add_count_le R (p := fun a => decide (key a < key x)) (x := x) (by simp)
    have hpos : 0 < R.count x := count_pos_iff.mpr hx
    have hle := hR.length_le
    omega

theorem not_nodup_of_early {x : α} {i j : ι} (hi : i ∈ is)
    (hj : j ∈ is) (hne : i ≠ j) (hxi : x ∈ part i) (hxj : x ∈ part j)
    (hx : ∀ a ∈ W, key a = key x → a = x)
    (hearly : W.countP (fun a => key a < key x) + 2 ≤ k) : ¬ R.Nodup := by
  classical
  intro hnodup
  have hprefer : ∀ a ∈ W, key a ≤ key x → a ≠ x → key a < key x :=
    fun a ha hle hax => lt_of_le_of_ne hle fun heq => hax (hx a ha heq)
  -- both parts answer with it
  have hanswered : ∀ i ∈ is, x ∈ part i → x ∈ answer i := by
    intro i hi hxi
    by_contra hnot
    obtain ⟨hlen, hle⟩ := ((hanswer i hi).mem_or hxi).resolve_left hnot
    have hbefore : (answer i).countP (fun a => key a < key x) = k := by
      rw [← hlen, countP_eq_length]
      intro a ha
      have hax : a ≠ x := fun heq => hnot (heq ▸ ha)
      have haW := hW.sub i a (answer_mem hanswer hi ha)
      simpa using hprefer a haW (hle a ha) hax
    have hcount := countP_le_of_subset (answer_nodup hW hanswer hi) (fun a => decide (key a < key x))
      fun a ha _ => hW.sub i a (answer_mem hanswer hi ha)
    omega
  have htwo : 2 ≤ (is.flatMap answer).count x := by
    obtain ⟨s, t, rfl⟩ := append_of_mem hi
    have hj' : j ∈ s ++ t := by
      rcases mem_append.mp hj with hj | hj
      · exact mem_append_left t hj
      · exact mem_append_right s ((mem_cons.mp hj).resolve_left hne.symm)
    have hfirst : 0 < (answer i).count x := count_pos_iff.mpr (hanswered i hi hxi)
    have hsecond : 0 < ((s ++ t).flatMap answer).count x :=
      count_pos_iff.mpr (mem_flatMap.mpr ⟨j, hj', hanswered j hj hxj⟩)
    simp only [flatMap_append, flatMap_cons, count_append] at hsecond ⊢
    omega
  -- so one of its answers is left out, and those kept come before it
  have hbefore : k ≤ R.countP (fun a => key a < key x) + R.count x := by
    obtain ⟨⟨dropped, hperm, hlen, hout⟩, -⟩ := hR
    have hone := nodup_iff_count_le_one.mp hnodup x
    rw [← hperm.count_eq, count_append] at htwo
    have hdropped : x ∈ dropped := count_pos_iff.mp (by omega)
    have hfull : R.length = k := by
      have hsum := hperm.length_eq
      have hpos : 0 < dropped.length := length_pos_of_mem hdropped
      rw [length_append] at hsum
      omega
    rw [← hfull, length_eq_countP_add_countP (fun a => decide (key a < key x)), List.count]
    refine Nat.add_le_add_left (countP_mono_left fun a ha hlt => ?_) _
    have haW := mem_of_answered hW hanswer (hperm.mem_iff.mp (mem_append_left dropped ha))
    have hle : key a ≤ key x := by simpa using hout a ha x hdropped
    by_contra hax
    exact absurd (hprefer a haW hle (by simpa using hax)) (by simpa using hlt)
  have hlow : R.countP (fun a => key a < key x) ≤ W.countP fun a => key a < key x := by
    exact countP_le_of_subset hnodup _ fun a ha _ => mem_of_answered hW hanswer (hR.best.subset ha)
  have hone := nodup_iff_count_le_one.mp hnodup x
  omega

end

end Merge

end NuclaDB.Gather
