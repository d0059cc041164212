import Mathlib.Data.Set.Card
import NuclaDB.HnswExact
import NuclaDB.HnswRun
import NuclaDB.TopK

/-!
# The closest of what a search scores

Both searches keep the closest of the live slots scored so far, in a heap with the farthest
at its root.
-/

namespace NuclaDB.Hnsw

open TopK BinaryHeap List

variable {D : Type} [Dist D]

theorem StrictWeak.farther (ho : StrictWeak (Dist.lt (D := D))) : Weak (farther (D := D)) :=
  ⟨ho.asymm, fun hab hbc => ho.not_trans hbc hab⟩

omit [Dist D] in
theorem beatsFarthest_eq_false {test : D → Bool} {results : List (Candidate D)}
    (hne : results ≠ []) (hbeats : beatsFarthest test results = false) :
    ∃ top, results[0]? = some top ∧ test top.dist = false := by
  cases results with
  | nil => exact absurd rfl hne
  | cons top rest => exact ⟨top, rfl, hbeats⟩

omit [Dist D] in
theorem beatsFarthest_eq_true {test : D → Bool} {results : List (Candidate D)}
    (hbeats : beatsFarthest test results = true) :
    ∃ top, results[0]? = some top ∧ test top.dist = true := by
  cases results with
  | nil => cases hbeats
  | cons top rest => exact ⟨top, rfl, hbeats⟩

namespace Graph

variable {g : Graph D} {query : Vec}

section Beam
variable {entry ef l : ℕ} {b : Beam D}

def liveCandidates (g : Graph D) (query : Vec) (slots : List ℕ) : List (Candidate D) :=
  (slots.filter fun slot => !g.isDead slot).map fun slot => ⟨slot, g.dist query (g.vec slot)⟩

omit [Dist D] in
theorem liveCandidates_cons (nbr : ℕ) (slots : List ℕ) : g.liveCandidates query (nbr :: slots) =
      if g.isDead nbr then g.liveCandidates query slots
      else ⟨nbr, g.dist query (g.vec nbr)⟩ :: g.liveCandidates query slots := by
  cases hd : g.isDead nbr <;> simp [liveCandidates, hd]

theorem held_score (ho : StrictWeak (Dist.lt (D := D))) (hef : 1 ≤ ef) {scored : List ℕ} {nbr : ℕ}
    (h : Held farther ef (g.liveCandidates query scored) b.results) :
    Held farther ef (g.liveCandidates query (nbr :: scored)) (g.score query ef b nbr).results := by
  have hw := ho.farther
  rw [liveCandidates_cons]
  simp only [score]
  cases hd : g.isDead nbr with
  | true =>
    simp only [if_true]
    split <;> exact h
  | false =>
    simp only [Bool.false_eq_true, if_false]
    have hlen := (push_perm farther b.results ⟨nbr, g.dist query (g.vec nbr)⟩).length_eq
    rw [length_cons] at hlen
    by_cases hroom : b.results.length < ef
    · rw [if_pos (.inl hroom), if_neg (by omega)]
      exact h.push hw hroom _
    · have hfull : ef ≤ b.results.length := Nat.not_lt.mp hroom
      cases hbeats : beatsFarthest (fun top => Dist.lt (g.dist query (g.vec nbr)) top)
        b.results with
      | true =>
        rw [if_pos (.inr rfl), if_pos (by omega)]
        split
        · next out rest hpop => exact h.pushPop hw hfull hpop
        · next hpop => simp [(pop_eq_none farther).mp hpop] at hlen
      | false =>
        rw [if_neg (by simpa using hfull)]
        obtain ⟨top, htop, hlt⟩ := beatsFarthest_eq_false
          (ne_nil_of_length_pos (by omega)) hbeats
        exact h.skip hw hfull htop hlt

theorem score_visited (g : Graph D) (query : Vec) (ef : ℕ) (b : Beam D) (nbr : ℕ) :
    (g.score query ef b nbr).visited = b.visited := by
  simp only [score]
  repeat' split
  all_goals rfl

theorem held_foldl_score (ho : StrictWeak (Dist.lt (D := D))) (hef : 1 ≤ ef) {scored : List ℕ}
    (nbrs : List ℕ) (h : Held farther ef (g.liveCandidates query scored) b.results) :
    Held farther ef (g.liveCandidates query (nbrs ++ scored))
        (nbrs.foldl (g.score query ef) b).results ∧
      (nbrs.foldl (g.score query ef) b).visited = b.visited := by
  induction nbrs generalizing b scored with
  | nil => exact ⟨h, rfl⟩
  | cons nbr nbrs ih =>
    obtain ⟨hheld, hvis⟩ := ih (held_score ho hef h)
    refine ⟨⟨hheld.heap, hheld.best.perm .rfl ?_⟩, hvis.trans (score_visited g query ef b nbr)⟩
    exact (perm_middle.symm.filter _).map _

theorem held_searchLoop (ho : StrictWeak (Dist.lt (D := D))) (hef : 1 ≤ ef) (m : ℕ)
    (h : Held farther ef (g.liveCandidates query b.visited) b.results) :
    Held farther ef (g.liveCandidates query (g.searchLoop query ef l m b).visited)
      (g.searchLoop query ef l m b).results := by
  induction m generalizing b with
  | zero => exact h
  | succ m ih =>
    simp only [searchLoop]
    split
    · exact h
    · next c rest hpop =>
      split
      · exact h
      · refine ih ?_
        obtain ⟨hheld, hvis⟩ := held_foldl_score ho hef
          (b := { b with frontier := rest, visited := fresh b.visited (g.links c.id l) ++ b.visited })
          (fresh b.visited (g.links c.id l)) h
        rw [expand, hvis]
        exact hheld

theorem held_startBeam (g : Graph D) (query : Vec) (entry : ℕ)
    (ho : StrictWeak (Dist.lt (D := D))) (hef : 1 ≤ ef) :
    Held farther ef (g.liveCandidates query (g.startBeam query entry).visited)
      (g.startBeam query entry).results := by
  simp only [startBeam, liveCandidates_cons]
  split
  · exact held_nil
  · exact held_nil.push ho.farther hef _

def scoredSlots (g : Graph D) (query : Vec) (entry ef l : ℕ) : List ℕ :=
  (g.searchLoop query ef l g.nodes.length (g.startBeam query entry)).visited

omit [Dist D] in
theorem BeamDone.all_of_ncard_le (hlt : g.LinksLt l) (he : entry < g.nodes.length)
    {results : List (Candidate D)} (h : BeamDone g query entry ef l results)
    (hfew : {x | g.Reaches l entry x ∧ g.isDead x = false}.ncard ≤ ef) {x : ℕ}
    (hx : g.Reaches l entry x) (hlive : g.isDead x = false) : x ∈ results.map (·.id) := by
  obtain hfull | hall := h.complete
  · have hfinite : {x | g.Reaches l entry x ∧ g.isDead x = false}.Finite :=
      (Set.finite_lt_nat g.nodes.length).subset fun y hy => hy.1.lt hlt he
    have hsub : ((results.map (·.id)).toFinset : Set ℕ) ⊆
        {x | g.Reaches l entry x ∧ g.isDead x = false} := by
      intro y hy
      simp only [Finset.mem_coe, mem_toFinset, mem_map] at hy
      obtain ⟨c, hc, rfl⟩ := hy
      exact ⟨(h.ok c hc).1, (h.ok c hc).2.1⟩
    have hcard : ((results.map (·.id)).toFinset : Set ℕ).ncard = results.length := by
      rw [Set.ncard_coe_finset, toFinset_card_of_nodup h.nodup, length_map]
    have hsame := Set.eq_of_subset_of_ncard_le hsub (by omega) hfinite
    have hmem : x ∈ ((results.map (·.id)).toFinset : Set ℕ) := hsame ▸ ⟨hx, hlive⟩
    simpa using hmem
  · exact hall x hx hlive

theorem searchLoop_visited_nodup (hlt : g.LinksLt l) (he : entry < g.nodes.length) {m : ℕ}
    (h : BeamInv g query entry ef l [] b) : (g.searchLoop query ef l m b).visited.Nodup := by
  induction m generalizing b with
  | zero => exact h.visited_nodup
  | succ m ih =>
    simp only [searchLoop]
    split
    · exact h.visited_nodup
    · next c rest hpop =>
      split
      · exact h.visited_nodup
      · exact ih (h.expand hlt he (pop_perm closer hpop)).1

/-- What a beam search returns, with any order of the distances: the closest live slots of all it
scored, in order, and every live slot it can reach when `ef` leaves room for them. -/
theorem searchLayer_closest (g : Graph D) (query : Vec) {entry ef l : ℕ}
    (ho : StrictWeak (Dist.lt (D := D))) (hlt : g.LinksLt l) (he : entry < g.nodes.length)
    (hef : 1 ≤ ef) :
    (∀ k, g.searchLoop query ef l (g.nodes.length + k) (g.startBeam query entry) =
      g.searchLoop query ef l g.nodes.length (g.startBeam query entry)) ∧
    ((g.searchLayer query entry ef l).map (·.id)).Nodup ∧
    (∀ c ∈ g.searchLayer query entry ef l, g.Reaches l entry c.id ∧ g.isDead c.id = false ∧
      c.dist = g.dist query (g.vec c.id)) ∧
    (g.searchLayer query entry ef l).Pairwise (fun a b => Dist.lt b.dist a.dist = false) ∧
    (g.scoredSlots query entry ef l).Nodup ∧
    Best farther ef (g.liveCandidates query (g.scoredSlots query entry ef l))
      (g.searchLayer query entry ef l) ∧
    ({x | g.Reaches l entry x ∧ g.isDead x = false}.ncard ≤ ef →
      ∀ x, g.Reaches l entry x → g.isDead x = false →
        x ∈ (g.searchLayer query entry ef l).map (·.id)) := by
  have hinv := startBeam_inv (l := l) g query entry hef
  have hdone := searchLayer_done g query hlt he hef
  obtain ⟨hbest, hsorted⟩ := (held_searchLoop (l := l) ho hef g.nodes.length
    (held_startBeam g query entry ho hef)).drain ho.farther
  refine ⟨searchLoop_enough hlt he hinv (startBeam_roundsLeft g query he), hdone.nodup, hdone.ok,
    hsorted, searchLoop_visited_nodup hlt he hinv, hbest, fun hfew x hx hlive => ?_⟩
  exact hdone.all_of_ncard_le hlt he hfew hx hlive

def threeOnTheLine : Graph Exact :=
  run (new line fun _ => 0)
    [.insert 1 [0], .insert 2 [0x41200000], .insert 3 [0x3F800000]]

theorem threeOnTheLine_wf : threeOnTheLine.WF := run_wf line _ _

theorem closest_on_the_line : 0 < threeOnTheLine.nodes.length ∧
    (threeOnTheLine.searchLayer [0] 1 2 0).map (·.id) = [0, 2] ∧
    Best farther 2 (threeOnTheLine.liveCandidates [0] (threeOnTheLine.scoredSlots [0] 1 2 0))
      (threeOnTheLine.searchLayer [0] 1 2 0) :=
  ⟨by decide, by decide, (searchLayer_closest threeOnTheLine [0] Exact.strictWeak
    (threeOnTheLine_wf.shape.linked.linksLt 0) (by decide) (by decide)).2.2.2.2.2.1⟩

end Beam

section ExactSearch
variable {k : ℕ} {all h : List (Candidate D)}

def exactCandidate (g : Graph D) (query : Vec) (id : UInt64) : Option (Candidate D) :=
  match g.slots[id]? with
  | none => none
  | some slot => if g.isDead slot then none else some ⟨slot, g.dist query (g.vec slot)⟩

theorem held_exactStep (g : Graph D) (query : Vec) (ho : StrictWeak (Dist.lt (D := D)))
    (hk : 1 ≤ k) (hh : Held farther k all h) (id : UInt64) :
    Held farther k ((g.exactCandidate query id).toList ++ all) (g.exactStep query k h id) := by
  have hw := ho.farther
  simp only [exactStep, exactCandidate]
  cases g.slots[id]? with
  | none => exact hh
  | some slot =>
    dsimp only
    cases hd : g.isDead slot with
    | true => exact hh
    | false =>
      simp only [Bool.false_eq_true, if_false, Option.toList_some, singleton_append]
      by_cases hroom : h.length < k
      · rw [if_pos hroom]
        exact hh.push hw hroom _
      · have hfull : k ≤ h.length := Nat.not_lt.mp hroom
        rw [if_neg hroom]
        cases hbeats : beatsFarthest (fun top => Dist.lt (g.dist query (g.vec slot)) top) h with
        | true =>
          obtain ⟨top, htop, hlt⟩ := beatsFarthest_eq_true hbeats
          rw [if_pos rfl]
          split
          · next out rest hpop =>
            rw [getElem?_of_pop hpop, Option.some.injEq] at htop
            subst htop
            have hworse : farther out ⟨slot, g.dist query (g.vec slot)⟩ = true := hlt
            exact hh.popPush hw hfull hpop hworse
          · next hpop => simp [(pop_eq_none farther).mp hpop] at htop
        | false =>
          rw [if_neg (by simp)]
          obtain ⟨top, htop, hlt⟩ := beatsFarthest_eq_false
            (ne_nil_of_length_pos (by omega)) hbeats
          exact hh.skip hw hfull htop hlt

def exactMatches (g : Graph D) (query : Vec) (ids : List UInt64) : List (SearchResult D) :=
  ids.filterMap fun id => (g.get id).map fun v => ⟨id, g.dist query v⟩

omit [Dist D] in
theorem Slotted.map_exactCandidate (hs : g.Slotted) (query : Vec) (ids : List UInt64) :
    (ids.filterMap (g.exactCandidate query)).map
        (fun c => ⟨(g.nodes.getD c.id default).id, c.dist⟩) = g.exactMatches query ids := by
  rw [map_filterMap]
  refine filterMap_congr fun id _ => ?_
  simp only [exactCandidate, get]
  cases hslot : g.slots[id]? with
  | none => rfl
  | some slot =>
    have hid := (hs.slots_iff id slot).mp hslot
    rw [getElem?_map, Option.map_eq_some_iff] at hid
    obtain ⟨nd, hnd, rfl⟩ := hid
    dsimp only
    cases g.isDead slot <;> simp [getD_eq_getElem?_getD, hnd]

omit [Dist D] in
theorem mem_exactMatches {ids : List UInt64} {r : SearchResult D} : r ∈ g.exactMatches query ids ↔
      r.id ∈ ids ∧ ∃ v, g.get r.id = some v ∧ r.distance = g.dist query v := by
  obtain ⟨id, d⟩ := r
  simp only [exactMatches, mem_filterMap, Option.map_eq_some_iff, SearchResult.mk.injEq]
  constructor
  · rintro ⟨x, hx, v, hv, rfl, rfl⟩
    exact ⟨hx, v, hv, rfl⟩
  · rintro ⟨hx, v, hv, rfl⟩
    exact ⟨id, hx, v, hv, rfl, rfl⟩

theorem Slotted.exactSearch_eq (hs : g.Slotted) (ho : StrictWeak (Dist.lt (D := D)))
    (hvalid : validateVector query g.cfg.dim = .ok ()) (ids : List UInt64) {topK : ℤ}
    (htop : 1 ≤ topK) :
    ∃ out, g.exactSearch query ids topK = .ok out ∧
      Best (fun a b : SearchResult D => Dist.lt b.distance a.distance) topK.toNat
        (g.exactMatches (g.prep query) ids) out ∧
      out.Pairwise fun a b => Dist.lt b.distance a.distance = false := by
  obtain ⟨hbest, hsorted⟩ := (Held.foldl (k := topK.toNat)
    (fun _ _ id hh => held_exactStep g (g.prep query) ho (by omega) hh id) ids held_nil).drain
    ho.farther
  rw [append_nil, ← filterMap_eq_flatMap_toList] at hbest
  refine ⟨_, by simp only [exactSearch, hvalid, if_neg (show ¬topK ≤ 0 by omega)]; rfl, ?_, ?_⟩
  · rw [← hs.map_exactCandidate]
    exact hbest.map _ fun _ _ => rfl
  · exact pairwise_map.mpr hsorted

/-- An exact search over any list of ids, with any order of the distances: the closest of the
list's positions that hold a live id, in order. -/
theorem exactSearch_is_exact (hg : g.WF) (ho : StrictWeak (Dist.lt (D := D))) (query : Vec)
    (hdim : query.length = g.cfg.dim) (ids : List UInt64) {topK : ℤ} (htop : 1 ≤ topK) :
    (query.all finite = false ∧ g.exactSearch query ids topK = .error .nonFiniteVector) ∨
    ∃ out, g.exactSearch query ids topK = .ok out ∧
      out.length = min topK.toNat (ids.filter fun id => (g.get id).isSome).length ∧
      out.Pairwise (fun a b => Dist.lt b.distance a.distance = false) ∧
      (∀ r ∈ out, r.id ∈ ids ∧ ∃ v, g.get r.id = some v ∧ r.distance = g.dist (g.prep query) v) ∧
      Best (fun a b => Dist.lt b a) topK.toNat
        ((g.exactMatches (g.prep query) ids).map (·.distance)) (out.map (·.distance)) := by
  cases hfinite : query.all finite with
  | false =>
    refine .inl ⟨rfl, ?_⟩
    simp only [exactSearch, validateVector, hdim, ne_eq, not_true, if_false, hfinite, Bool.false_eq_true]
    rfl
  | true =>
    have hvalid : validateVector query g.cfg.dim = .ok () := by simp [validateVector, hdim, hfinite]
    obtain ⟨out, hout, hbest, hsorted⟩ := hg.shape.slotted.exactSearch_eq ho hvalid ids htop
    refine .inr ⟨out, hout, ?_, hsorted, fun r hr => mem_exactMatches.mp (hbest.subset hr),
      hbest.map _ fun _ _ => rfl⟩
    rw [hbest.length_eq]
    congr 1
    simp only [exactMatches, length_filterMap_eq_countP, Option.isSome_map, countP_eq_length_filter]

theorem length_exactStep (g : Graph D) (query : Vec) {h : List (Candidate D)} (hk : 1 ≤ k)
    (hle : h.length ≤ k) (id : UInt64) : (g.exactStep query k h id).length =
      min k (h.length + if (g.get id).isSome then 1 else 0) := by
  cases hslot : g.slots[id]? with
  | none => simp [exactStep, get, hslot, hle]
  | some slot =>
    cases hdead : g.isDead slot with
    | true => simp [exactStep, get, hslot, hdead, hle]
    | false =>
      simp only [exactStep, get, hslot, hdead, Bool.false_eq_true, if_false, Option.isSome_some, if_true]
      split
      · rw [(push_perm _ _ _).length_eq, length_cons]
        omega
      · split
        · cases hpop : pop farther h with
          | none =>
            rw [pop_eq_none] at hpop
            simp [hpop] at *
            omega
          | some out =>
            have hlen := length_of_pop _ hpop
            rw [(push_perm _ _ _).length_eq, length_cons]
            omega
        · omega

theorem length_exactSearch (g : Graph D) (hvalid : validateVector query g.cfg.dim = .ok ())
    (ids : List UInt64) {topK : ℤ} (htop : 1 ≤ topK) :
    ∃ out, g.exactSearch query ids topK = .ok out ∧
      out.length = min topK.toNat (ids.filter fun id => (g.get id).isSome).length := by
  have hfold : ∀ (ids : List UInt64) (h : List (Candidate D)), h.length ≤ topK.toNat →
      (ids.foldl (g.exactStep (g.prep query) topK.toNat) h).length =
        min topK.toNat (h.length + (ids.filter fun id => (g.get id).isSome).length) := by
    intro ids
    induction ids with
    | nil =>
      intro h hle
      simp [hle]
    | cons id ids ih =>
      intro h hle
      have hstep := length_exactStep g (g.prep query) (by omega) hle id
      rw [foldl_cons, ih _ (by omega), hstep, filter_cons]
      split
      · rw [length_cons]
        omega
      · omega
  refine ⟨_, by simp only [exactSearch, hvalid, if_neg (show ¬topK ≤ 0 by omega)]; rfl, ?_⟩
  rw [length_map, length_reverse, (drain_perm _ (Nat.le_refl _)).length_eq,
    hfold ids [] (Nat.zero_le _), length_nil, Nat.zero_add]

theorem exactStep_subperm (g : Graph D) (query : Vec) (k : ℕ) (h : List (Candidate D)) (id : UInt64) :
    (g.exactStep query k h id).Subperm ((g.exactCandidate query id).toList ++ h) := by
  simp only [exactStep, exactCandidate]
  cases g.slots[id]? with
  | none => exact List.Subperm.refl h
  | some slot =>
    dsimp only
    cases g.isDead slot with
    | true => exact List.Subperm.refl h
    | false =>
      simp only [Bool.false_eq_true, if_false, Option.toList_some, singleton_append]
      split
      · exact (push_perm _ _ _).subperm
      · split
        · split
          · next out rest hpop =>
            have hrest : rest.Subperm h :=
              ((sublist_cons_self out rest).subperm).trans (pop_perm _ hpop).symm.subperm
            exact (push_perm _ _ _).subperm.trans ((subperm_cons _).mpr hrest)
          · exact (sublist_cons_self _ h).subperm
        · exact (sublist_cons_self _ h).subperm

omit [Dist D] in
theorem map_id_exactMatches (g : Graph D) (query : Vec) (ids : List UInt64) :
    (g.exactMatches query ids).map (·.id) = ids.filter fun id => (g.get id).isSome := by
  induction ids with
  | nil => rfl
  | cons id ids ih =>
    rw [exactMatches, filterMap_cons, filter_cons, ← ih]
    cases g.get id <;> rfl

theorem Slotted.exactSearch_ids (hs : g.Slotted) {ids : List UInt64} {topK : ℤ}
    {out : List (SearchResult D)} (h : g.exactSearch query ids topK = .ok out) :
    (out.map (·.id)).Subperm (ids.filter fun id => (g.get id).isSome) := by
  have hfold : ∀ (ids : List UInt64) (h : List (Candidate D)),
      (ids.foldl (g.exactStep (g.prep query) topK.toNat) h).Subperm
        (ids.filterMap (g.exactCandidate (g.prep query)) ++ h) := by
    intro ids
    induction ids with
    | nil => exact fun h => List.Subperm.refl h
    | cons id ids ih =>
      intro h
      rw [foldl_cons, ← singleton_append, filterMap_append, append_assoc]
      refine (ih _).trans (((subperm_append_left _).mpr (exactStep_subperm g _ _ h id)).trans ?_)
      have hone : [id].filterMap (g.exactCandidate (g.prep query)) =
          (g.exactCandidate (g.prep query) id).toList := by
        rw [filterMap_cons]
        cases g.exactCandidate (g.prep query) id <;> rfl
      rw [hone, ← append_assoc, ← append_assoc]
      exact (perm_append_comm.append_right h).subperm
  cases hvalid : validateVector query g.cfg.dim with
  | error err =>
    simp only [exactSearch, hvalid, bind, Except.bind] at h
    cases h
  | ok u =>
    by_cases htop : topK ≤ 0
    · simp only [exactSearch, hvalid, if_pos htop, bind, Except.bind, pure, Except.pure,
        Except.ok.injEq] at h
      subst h
      exact nil_subperm
    · simp only [exactSearch, hvalid, if_neg htop, bind, Except.bind, pure, Except.pure,
        Except.ok.injEq] at h
      subst h
      rw [← map_id_exactMatches g (g.prep query), ← hs.map_exactCandidate, map_map, map_map]
      have hheap := hfold ids []
      rw [append_nil] at hheap
      obtain ⟨l, hperm, hsub⟩ :=
        ((reverse_perm _).trans (drain_perm _ (Nat.le_refl _))).subperm.trans hheap
      exact ⟨l.map _, hperm.map _, hsub.map _⟩

theorem exact_on_the_line :
    ∃ out, threeOnTheLine.exactSearch [0] [2, 7, 3, 2, 1] 2 = .ok out ∧ out.length = 2 := by
  obtain ⟨hfinite, -⟩ | ⟨out, hout, hlen, -⟩ := exactSearch_is_exact threeOnTheLine_wf
    Exact.strictWeak [0] (by decide) [2, 7, 3, 2, 1] (show (1 : ℤ) ≤ 2 by decide)
  · exact absurd hfinite (by decide)
  · exact ⟨out, hout, hlen.trans (by decide)⟩

end ExactSearch

end Graph

end NuclaDB.Hnsw
