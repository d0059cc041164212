import NuclaDB.EnginePostings
import NuclaDB.HnswClosest
import NuclaDB.HnswReachability
import NuclaDB.IndexedCursor
import NuclaDB.SortedSlice

/-!
# Filtered search

A search scores the matches of a selective filter directly. For a broad one it asks the
graph for more and more candidates, three times, and scores all matches after that.
-/

namespace NuclaDB

open LittleEndian Hnsw EventRun List
open Hnsw.Graph (SearchResult)

structure Result (D : Type) where
  id : UInt64
  distance : D
  metadata : Meta

/-- `panicked` is the panic of `make` in `filterMatches`. -/
inductive SearchError
  | graph (e : Error)
  | filter (e : BadFilter)
  | panicked
deriving DecidableEq, Repr

def defaultEf : ℤ := 64

section Model
variable {D F : Type} [Hnsw.Dist D] (N : Numbers F)

def validateFilters : List Filter → Except BadFilter Unit
  | [] => .ok ()
  | f :: filters =>
    match f.validate N with
    | .error e => .error e
    | .ok () => validateFilters filters

namespace Engine

variable (e : Engine D)

def withMetadata (res : List (SearchResult D)) : List (Result D) :=
  res.map fun r => ⟨r.id, r.distance, metaAt e.metadata r.id⟩

/-- The loop stops when it has `topK` matches, and so never for a `topK` of 0. -/
def firstMatches (candidates : List (SearchResult D)) (filters : List Filter)
    (topK : ℤ) : List (Result D) :=
  let matched := e.withMetadata
    (candidates.filter fun c => matchesFilters N (metaAt e.metadata c.id) filters)
  if 0 < topK then matched.take topK.toNat else matched

def filterMatches (candidates : List (SearchResult D)) (filters : List Filter)
    (topK : ℤ) : Except SearchError (List (Result D)) :=
  if topK < 0 then .error .panicked else .ok (e.firstMatches N candidates filters topK)

/-- The attempts on the graph, each four times as wide as the one before; `none` if none of them
was enough. -/
def attempts (e : Engine D) (query : Vec) (topK : ℤ) (filters : List Filter) :
    ℕ → ℤ → Except SearchError (Option (List (Result D)))
  | 0, _ => .ok none
  | n + 1, overfetch =>
    match e.graph.search query overfetch overfetch with
    | .error err => .error (.graph err)
    | .ok candidates =>
      match e.filterMatches N candidates filters topK with
      | .error err => .error err
      | .ok matched =>
        if topK ≤ matched.length ∨ candidates.length < overfetch then .ok (some matched)
        else e.attempts query topK filters n (int64 (overfetch * 4))

def maxAttempts : ℕ := 3

def scoreIds (query : Vec) (topK : ℤ) (ids : List UInt64) :
    Except SearchError (List (Result D)) :=
  match e.graph.exactSearch query ids topK with
  | .error err => .error (.graph err)
  | .ok res => .ok (e.withMetadata res)

def beamWidth (topK ef : ℤ) : ℤ := max (if ef ≤ 0 then defaultEf else ef) topK

def search (limit : ℤ) (query : Vec) (topK ef : ℤ) (filters : List Filter) :
    Except SearchError (List (Result D)) :=
  match validateFiniteVector query e.cfg.dim with
  | .error err => .error (.graph err)
  | .ok () =>
    match validateFilters N filters with
    | .error err => .error (.filter err)
    | .ok () =>
      match if filters = [] then none else e.filterCandidates N filters limit with
      | some ids => e.scoreIds query topK ids
      | none =>
        let overfetch :=
          if filters = [] then beamWidth topK ef else int64 (beamWidth topK ef * 4)
        match e.attempts N query topK filters maxAttempts overfetch with
        | .error err => .error err
        | .ok (some matched) => .ok matched
        | .ok none => e.scoreIds query topK ((e.filterCandidates N filters maxInt).getD [])

def matching (filters : List Filter) : List UInt64 :=
  e.graph.ids.filter fun id => matchesFilters N (metaAt e.metadata id) filters

def reachedMatching (query : Vec) (filters : List Filter) : Set UInt64 :=
  {id | id ∈ e.graph.reachedIds query ∧ matchesFilters N (metaAt e.metadata id) filters = true}

end Engine

end Model

section Counts
variable {D F : Type} [Hnsw.Dist D] {N : Numbers F} {e : Engine D} {query : Vec}
  {filters : List Filter} {topK : ℤ}

theorem validateFilters_ok (h : ∀ f ∈ filters, f.validate N = .ok ()) :
    validateFilters N filters = .ok () := by
  induction filters with
  | nil => rfl
  | cons f filters ih =>
    simp only [validateFilters, h f mem_cons_self]
    exact ih fun f' hf' => h f' (mem_cons_of_mem _ hf')

omit [Hnsw.Dist D] in
theorem length_firstMatches (N : Numbers F) (e : Engine D) (candidates : List (SearchResult D))
    (filters : List Filter) (htop : 1 ≤ topK) :
    (e.firstMatches N candidates filters topK).length = min topK.toNat
      ((candidates.map (·.id)).filter
        fun id => matchesFilters N (metaAt e.metadata id) filters).length := by
  simp only [Engine.firstMatches, if_pos (show 0 < topK by omega), Engine.withMetadata,
    length_take, length_map, filter_map]
  rfl

theorem length_scoreIds (hvalid : validateVector query e.graph.cfg.dim = .ok ()) (htop : 1 ≤ topK)
    {ids : List UInt64} (hlive : ∀ id ∈ ids, (e.graph.get id).isSome = true) :
    ∃ res, e.scoreIds query topK ids = .ok res ∧ res.length = min topK.toNat ids.length := by
  obtain ⟨out, hout, hlen⟩ := e.graph.length_exactSearch hvalid ids htop
  rw [filter_eq_self.mpr hlive] at hlen
  exact ⟨e.withMetadata out, by simp [Engine.scoreIds, hout], by simp [Engine.withMetadata, hlen]⟩

def overfetchAt (overfetch : ℤ) : ℕ → ℤ
  | 0 => overfetch
  | n + 1 => int64 (overfetchAt overfetch n * 4)

theorem overfetchAt_succ (overfetch : ℤ) (n : ℕ) :
    overfetchAt overfetch (n + 1) = overfetchAt (int64 (overfetch * 4)) n := by
  induction n with
  | zero => rfl
  | succ n ih => rw [overfetchAt, ih, overfetchAt]

section
variable (hs : e.Searchable)
include hs

theorem Engine.Searchable.candidates
    (hvalid : validateVector query e.graph.cfg.dim = .ok ()) (filters : List Filter) (k : ℤ) :
    ∃ res, e.graph.search query k k = .ok res ∧
      ((res.length : ℤ) < k ↔ ((e.graph.reachedIds query).ncard : ℤ) < k) ∧
      ((res.map (·.id)).filter fun id => matchesFilters N (metaAt e.metadata id) filters).length ≤
        (e.reachedMatching N query filters).ncard ∧
      ((res.length : ℤ) < k → ((res.map (·.id)).filter
          fun id => matchesFilters N (metaAt e.metadata id) filters).length =
            (e.reachedMatching N query filters).ncard) := by
  have hw := hs.sound.wf
  obtain ⟨res, hres, hnodup, hsub, hlen, hall⟩ := hw.search_reached hvalid k
  have hfin : (e.graph.reachedIds query).Finite :=
    (Finset.finite_toSet _).subset (hw.reachedIds_subset query)
  have hcard : ∀ l : List UInt64, l.Nodup → ({id | id ∈ l} : Set UInt64).ncard = l.length := by
    intro l hl
    rw [← coe_toFinset, Set.ncard_coe_finset, toFinset_card_of_nodup hl]
  have hmatched : {id | id ∈ (res.map (·.id)).filter
      fun id => matchesFilters N (metaAt e.metadata id) filters} ⊆
      e.reachedMatching N query filters := by
    intro id hid
    obtain ⟨hmem, hmatch⟩ := mem_filter.mp hid
    exact ⟨hsub id hmem, hmatch⟩
  have hle := Set.ncard_le_ncard (show {id | id ∈ res.map (·.id)} ⊆ _ from hsub) hfin
  rw [hcard _ hnodup, length_map] at hle
  refine ⟨res, hres, ⟨fun hfew => ?_, fun hfew => by omega⟩, ?_, fun hfew => ?_⟩
  · have hge := Set.ncard_le_ncard (show _ ⊆ {id | id ∈ res.map (·.id)} from hall hfew)
      (finite_toSet _)
    rw [hcard _ hnodup, length_map] at hge
    omega
  · rw [← hcard _ (hnodup.filter _)]
    exact Set.ncard_le_ncard hmatched (hfin.subset fun id hid => hid.1)
  · rw [← hcard _ (hnodup.filter _)]
    refine congrArg Set.ncard (hmatched.antisymm fun id hid => ?_)
    exact mem_filter.mpr ⟨hall hfew id hid.1, hid.2⟩

theorem Engine.Searchable.attempts
    (hvalid : validateVector query e.graph.cfg.dim = .ok ()) (filters : List Filter)
    (htop : 1 ≤ topK) (n : ℕ) (overfetch : ℤ) :
    ∃ out, e.attempts N query topK filters n overfetch = .ok out ∧ (out = none → ∀ i < n,
        overfetchAt overfetch i ≤ ((e.graph.reachedIds query).ncard : ℤ)) ∧
      ∀ res, out = some res →
        topK.toNat ≤ res.length ∧ topK.toNat ≤ (e.reachedMatching N query filters).ncard ∨
        (∃ i < n, ((e.graph.reachedIds query).ncard : ℤ) < overfetchAt overfetch i) ∧
          res.length = min topK.toNat (e.reachedMatching N query filters).ncard := by
  induction n generalizing overfetch with
  | zero => exact ⟨none, rfl, by simp, by simp⟩
  | succ n ih =>
    obtain ⟨cands, hsearch, hfew, hle, hall⟩ := hs.candidates (N := N) hvalid filters overfetch
    have hlen := length_firstMatches N e cands filters htop
    have hmatches : e.filterMatches N cands filters topK = .ok (e.firstMatches N cands filters topK) :=
      if_neg (by omega)
    by_cases hstop : topK ≤ (e.firstMatches N cands filters topK).length ∨
        (cands.length : ℤ) < overfetch
    · refine ⟨some (e.firstMatches N cands filters topK), ?_, by simp, ?_⟩
      · simp only [Engine.attempts, hsearch, hmatches, if_pos hstop]
      · rintro res hres
        obtain rfl := Option.some.inj hres
        rcases hstop with henough | hshort
        · exact .inl (by omega)
        · exact .inr ⟨⟨0, by omega, hfew.mp hshort⟩, by rw [hlen, hall hshort]⟩
    · obtain ⟨out, hout, hnone, hsome⟩ := ih (int64 (overfetch * 4))
      refine ⟨out, ?_, fun ho i hi => ?_, fun res hres => ?_⟩
      · simp only [Engine.attempts, hsearch, hmatches, if_neg hstop, hout]
      · cases i with
        | zero =>
          have hwide : ¬ ((e.graph.reachedIds query).ncard : ℤ) < overfetch :=
            fun h => hstop (.inr (hfew.mpr h))
          simpa [overfetchAt] using hwide
        | succ i =>
          rw [overfetchAt_succ]
          exact hnone ho i (by omega)
      · rcases hsome res hres with henough | ⟨⟨i, hi, hlt⟩, hlen'⟩
        · exact .inl henough
        · exact .inr ⟨⟨i + 1, by omega, by rwa [overfetchAt_succ]⟩, hlen'⟩

section
omit [Hnsw.Dist D]

theorem Engine.Searchable.mem_matching {id : UInt64} :
    id ∈ e.matching N filters ↔ (e.graph.get id).isSome = true ∧
      matchesFilters N (metaAt e.metadata id) filters = true := by
  rw [Engine.matching, mem_filter, hs.sound.wf.shape.slotted.mem_ids]

theorem Engine.Searchable.nodup_ids : e.graph.ids.Nodup := by
  rw [Graph.ids_eq]
  exact hs.sound.wf.shape.slotted.liveItems_nodup

theorem Engine.Searchable.matching_nodup : (e.matching N filters).Nodup :=
  hs.nodup_ids.filter _

end

theorem Engine.Searchable.scoreIds (hvalid : validateVector query e.graph.cfg.dim = .ok ())
    (hfilters : ∀ f ∈ filters, f.validate N = .ok ()) (htop : 1 ≤ topK) {limit : ℤ}
    {ids : List UInt64} (hids : e.filterCandidates N filters limit = some ids) :
    ∃ res, e.scoreIds query topK ids = .ok res ∧
      min topK.toNat (e.matching N filters).length ≤ res.length := by
  have hmem := hs.indexed.mem_filterCandidates hs.sound.wf.shape.slotted hs.sound.metadata hfilters
    hids
  obtain ⟨res, hres, hlen⟩ := length_scoreIds hvalid htop fun id hid => ((hmem id).mp hid).1
  have hle := (subperm_of_subset (hs.matching_nodup (N := N)) fun id hid =>
    (hmem id).mpr (hs.mem_matching.mp hid)).length_le
  exact ⟨res, hres, by omega⟩

theorem Engine.Searchable.reachedMatching_ncard (N : Numbers F) (query : Vec)
    (filters : List Filter) :
    (e.reachedMatching N query filters).ncard ≤ (e.matching N filters).length ∧
      ((e.matching N filters).length ≤ (e.reachedMatching N query filters).ncard ↔
        ∀ id ∈ e.matching N filters, id ∈ e.graph.reachedIds query) := by
  have hsub : e.reachedMatching N query filters ⊆ ↑(e.matching N filters).toFinset := by
    rintro id ⟨hreach, hmatch⟩
    have hlive := hs.sound.wf.reachedIds_subset query hreach
    rw [Finset.mem_coe, hs.sound.wf.shape.slotted.mem_liveIds] at hlive
    simpa using hs.mem_matching.mpr ⟨hlive, hmatch⟩
  have hcard : (↑(e.matching N filters).toFinset : Set UInt64).ncard =
      (e.matching N filters).length := by
    rw [Set.ncard_coe_finset, toFinset_card_of_nodup hs.matching_nodup]
  have hle := Set.ncard_le_ncard hsub
  refine ⟨by omega, fun hge id hid => ?_, fun hall => ?_⟩
  · have heq := Set.eq_of_subset_of_ncard_le hsub (by omega)
    have hin : id ∈ e.reachedMatching N query filters := by
      rw [heq]
      simpa using hid
    exact hin.1
  · rw [← hcard]
    refine Set.ncard_le_ncard (fun id hid => ?_) ((Finset.finite_toSet _).subset hsub)
    have hid' : id ∈ e.matching N filters := by simpa using hid
    exact ⟨hall id hid', (hs.mem_matching.mp hid').2⟩

end

end Counts

section Twice
variable {D F : Type} {N : Numbers F} {e : Engine D} {filters : List Filter} {ids : List UInt64}

def Meta.postedUnder (md : Meta) (f : Filter) : Set String :=
  {v | v ∈ f.values ∧ md.HasPosting (postingKey f.key v)}

variable (N) in
/-- Every match is posted under one value only of the filter whose postings are scanned. -/
def Engine.PostedOnce (e : Engine D) (filters : List Filter) : Prop :=
  ∀ f ∈ filters, (f.op = .opEq ∨ f.op = .opIn) → e.bestSets filters = some (e.postingSets f) →
    ∀ id, matchesFilters N (metaAt e.metadata id) filters = true →
      ((metaAt e.metadata id).postedUnder f).Subsingleton

theorem Engine.Indexed.nodup_postingSets (h : e.Indexed) (f : Filter) (p : UInt64 → Bool) :
    (((e.postingSets f).flatMap (·.toList)).filter p).Nodup ↔
      ∀ id, p id = true → ((metaAt e.metadata id).postedUnder f).Subsingleton := by
  have hmem : ∀ v id, id ∈ (e.postings[postingKey f.key v]?.getD ∅).toList ↔
      (metaAt e.metadata id).HasPosting (postingKey f.key v) := by
    intro v id
    rw [Std.ExtTreeSet.mem_toList]
    exact h _ id
  rw [filter_flatMap, postingSets, flatMap_map, nodup_flatMap]
  constructor
  · rintro ⟨-, hpairs⟩ id hid v ⟨hv, hposted⟩ v' ⟨hv', hposted'⟩
    by_contra hne
    have hsymm : Std.Symm (Function.onFun List.Disjoint fun v =>
        (e.postings[postingKey f.key v]?.getD ∅).toList.filter p) := ⟨fun _ _ hd => hd.symm⟩
    have hdisjoint := hpairs.forall (mem_eraseDups.mpr hv) (mem_eraseDups.mpr hv') hne
    exact hdisjoint (mem_filter.mpr ⟨(hmem v id).mpr hposted, hid⟩)
      (mem_filter.mpr ⟨(hmem v' id).mpr hposted', hid⟩)
  · intro hone
    constructor
    · intro v _
      refine List.Nodup.filter _ (Std.ExtTreeSet.distinct_toList.imp fun {a b} hab heq => hab ?_)
      rw [heq]
      exact Std.ReflCmp.compare_self
    · refine (SortedSlice.nodup_eraseDups f.values).imp_of_mem fun {v v'} hv hv' hne id hid hid' => ?_
      obtain ⟨hset, hp⟩ := mem_filter.mp hid
      obtain ⟨hset', -⟩ := mem_filter.mp hid'
      exact hne (hone id hp ⟨mem_eraseDups.mp hv, (hmem v id).mp hset⟩
        ⟨mem_eraseDups.mp hv', (hmem v' id).mp hset'⟩)

theorem Engine.Searchable.nodup_filterCandidates (hs : e.Searchable) {limit : ℤ}
    (hids : e.filterCandidates N filters limit = some ids) :
    ids.Nodup ↔ e.PostedOnce N filters := by
  obtain ⟨pool, hpool, rfl⟩ := Option.map_eq_some_iff.mp hids
  rcases e.bestSets_cases filters with ⟨hnone, -⟩ | ⟨f, hf, hop, hsome⟩
  · simp only [filterPool, hnone, Option.ite_none_right_eq_some, Option.some.injEq] at hpool
    refine iff_of_true (List.Nodup.filter _ (hpool.2 ▸ hs.nodup_ids)) fun f _ _ hsome => ?_
    cases hnone.symm.trans hsome
  · simp only [filterPool, hsome, Option.ite_none_right_eq_some, Option.some.injEq] at hpool
    obtain ⟨-, rfl⟩ := hpool
    constructor
    · intro hnodup f' hf' hop' hsome'
      rw [Option.some.inj (hsome.symm.trans hsome')] at hnodup
      exact (hs.indexed.nodup_postingSets f' _).mp hnodup
    · exact fun hone => (hs.indexed.nodup_postingSets f _).mpr (hone f hf hop hsome)

variable [Hnsw.Dist D] {query : Vec} {topK : ℤ}

theorem Engine.Searchable.nodup_scoreIds (hs : e.Searchable) (hnodup : ids.Nodup)
    {res : List (Result D)} (h : e.scoreIds query topK ids = .ok res) : (res.map (·.id)).Nodup := by
  unfold Engine.scoreIds at h
  split at h
  · cases h
  · next out hout =>
    cases h
    obtain ⟨l, hperm, hsub⟩ := hs.sound.wf.shape.slotted.exactSearch_ids hout
    rw [Engine.withMetadata, map_map]
    exact hperm.nodup_iff.mp (hsub.nodup (hnodup.filter _))

theorem Engine.Searchable.scoreIds_all (hs : e.Searchable)
    (hvalid : validateVector query e.graph.cfg.dim = .ok ())
    (hlive : ∀ id ∈ ids, (e.graph.get id).isSome = true) :
    ∃ res, e.scoreIds query (ids.length + 1) ids = .ok res ∧ (res.map (·.id)).Perm ids := by
  obtain ⟨out, hout, hlen⟩ := e.graph.length_exactSearch hvalid ids
    (show (1 : ℤ) ≤ ids.length + 1 by omega)
  have hsub := hs.sound.wf.shape.slotted.exactSearch_ids hout
  rw [filter_eq_self.mpr hlive] at hlen hsub
  refine ⟨e.withMetadata out, by simp [Engine.scoreIds, hout], ?_⟩
  rw [Engine.withMetadata, map_map]
  refine hsub.perm_of_length_le ?_
  rw [length_map, hlen]
  omega

theorem Engine.Searchable.nodup_attempts (hs : e.Searchable)
    (hvalid : validateVector query e.graph.cfg.dim = .ok ()) {n : ℕ} {overfetch : ℤ}
    {res : List (Result D)} (h : e.attempts N query topK filters n overfetch = .ok (some res)) :
    (res.map (·.id)).Nodup := by
  induction n generalizing overfetch with
  | zero => cases h
  | succ n ih =>
    obtain ⟨cands, hsearch, hnodup, -⟩ := hs.sound.wf.search_reached hvalid overfetch
    simp only [Engine.attempts, hsearch] at h
    split at h
    · cases h
    · next matched hmatched =>
      split at h
      · cases h
        unfold Engine.filterMatches at hmatched
        split_ifs at hmatched
        cases hmatched
        have hsub : ((e.firstMatches N cands filters topK).map (·.id)).Sublist (cands.map (·.id)) := by
          have hall : ((e.withMetadata (cands.filter fun c =>
              matchesFilters N (metaAt e.metadata c.id) filters)).map (·.id)).Sublist
                (cands.map (·.id)) := by
            rw [Engine.withMetadata, map_map]
            exact filter_sublist.map _
          simp only [Engine.firstMatches]
          split
          · exact ((take_sublist _ _).map _).trans hall
          · exact hall
        exact hsub.nodup hnodup
      · exact ih h

/-- A search returns no id twice if every match is posted once; and where the candidates are scored
directly, it is only then that no search does. -/
theorem no_id_twice_iff (crc : Bytes → UInt32) (J : Codec) {cfg : Config D} {workers : Workers}
    {rng : ℕ → ℕ} {disk disk' : Disk} {e₀ : Engine D} {evs : List LifeEvent}
    (hopen : openEngine crc J cfg workers rng disk = .ok (e₀, disk'))
    (hevs : Along (Engine.live crc J) (fun e ev => LifeEvent.Valid e ev) e₀ evs)
    (hrun : run (Engine.live crc J) e₀ evs = .ok e)
    (hfilters : ∀ f ∈ filters, f.validate N = .ok ()) :
    (e.PostedOnce N filters → ∀ limit query topK ef res,
      e.search N limit query topK ef filters = .ok res → (res.map (·.id)).Nodup) ∧
    ∀ limit, filters ≠ [] → (e.filterCandidates N filters limit).isSome = true → (∀ query topK ef res,
        e.search N limit query topK ef filters = .ok res → (res.map (·.id)).Nodup) →
      e.PostedOnce N filters := by
  have hs := searchable_of_run hopen hevs hrun
  constructor
  · intro hone limit query topK ef res h
    simp only [Engine.search] at h
    split at h
    · cases h
    · next hquery =>
      have hvalid : validateVector query e.graph.cfg.dim = .ok () := by
        rw [hs.sound.dim_eq]
        exact hquery
      split at h
      · cases h
      · split at h
        · next ids hids =>
          have hcands : e.filterCandidates N filters limit = some ids := by
            by_cases hnil : filters = []
            · simp [hnil] at hids
            · simpa [hnil] using hids
          exact hs.nodup_scoreIds ((hs.nodup_filterCandidates hcands).mpr hone) h
        · split at h
          · cases h
          · next matched hmatched =>
            cases h
            exact hs.nodup_attempts hvalid hmatched
          · obtain ⟨ids, hids⟩ := e.filterCandidates_maxInt N filters
            rw [hids, Option.getD_some] at h
            exact hs.nodup_scoreIds ((hs.nodup_filterCandidates hids).mpr hone) h
  · intro limit hne hsome hall
    obtain ⟨ids, hids⟩ := Option.isSome_iff_exists.mp hsome
    have hquery : validateFiniteVector (replicate e.cfg.dim 0) e.cfg.dim = .ok () := by
      simp [validateFiniteVector, validateVector, finite]
    have hmem := hs.indexed.mem_filterCandidates hs.sound.wf.shape.slotted hs.sound.metadata hfilters
      hids
    have hvalid : validateVector (replicate e.cfg.dim 0) e.graph.cfg.dim = .ok () := by
      rw [hs.sound.dim_eq]
      exact hquery
    obtain ⟨res, hres, hperm⟩ := hs.scoreIds_all hvalid fun id hid => ((hmem id).mp hid).1
    have hsearch : e.search N limit (replicate e.cfg.dim 0) (ids.length + 1) 0 filters = .ok res := by
      simp only [Engine.search, hquery, validateFilters_ok hfilters, if_neg hne, hids]
      exact hres
    exact (hs.nodup_filterCandidates hids).mp (hperm.nodup_iff.mp (hall _ _ _ _ hsearch))

theorem collidingInserts_valid : Along (Engine.live crc32ChecksumIEEE anyCodec)
    (fun e ev => LifeEvent.Valid e ev) freshEngine [.commit one .ok [] collidingInserts] :=
  ⟨forall_mem_cons.mpr ⟨rfl, forall_mem_singleton.mpr rfl⟩, fun _ _ => trivial⟩

theorem one_value_posted_once : ∃ e, run (Engine.live crc32ChecksumIEEE anyCodec) freshEngine
        [.commit one .ok [] collidingInserts] = .ok e ∧
      ∀ limit query topK ef res,
        e.search wholeNumbers limit query topK ef [⟨"a", .opIn, ["b\x00c"]⟩] = .ok res →
          (res.map (·.id)).Nodup := by
  refine ⟨_, rfl, (no_id_twice_iff crc32ChecksumIEEE anyCodec (freshEngine_eq_open _) collidingInserts_valid rfl
    (by simp [Filter.validate])).1 ?_⟩
  intro f hf _ _ id _ v hv v' hv'
  obtain rfl := mem_singleton.mp hf
  exact (mem_singleton.mp hv.1).trans (mem_singleton.mp hv'.1).symm

def postedTwice : List Change := [.insert 1 [0] {("a", "x"), ("a\x00b", "c")}]

theorem search_returns_one_id_twice : ∃ e, run (Engine.live crc32ChecksumIEEE anyCodec) freshEngine
        [.commit one .ok [] postedTwice] = .ok e ∧
      (e.search wholeNumbers 4096 [0] 5 0 [⟨"a", .opIn, ["x", "b\x00c"]⟩]).toOption.map
        (·.map (·.id)) = some [1, 1] := by
  refine ⟨_, rfl, ?_⟩
  decide +kernel

end Twice

section Short
variable {D F : Type} [Hnsw.Dist D] (crc : Bytes → UInt32) (J : Codec) (N : Numbers F)

/-- The filter is selective, or the graph reaches as many live ids as the widest attempt asks for, or
`topK` matches, or all matches. -/
def Engine.reachesEnough (e : Engine D) (limit : ℤ) (query : Vec) (topK ef : ℤ)
    (filters : List Filter) : Prop :=
  (e.filterCandidates N filters limit).isSome = true ∨
    (∀ i < Engine.maxAttempts, overfetchAt (int64 (Engine.beamWidth topK ef * 4)) i ≤
      ((e.graph.reachedIds query).ncard : ℤ)) ∨
    topK.toNat ≤ (e.reachedMatching N query filters).ncard ∨
    ∀ id ∈ e.matching N filters, id ∈ e.graph.reachedIds query

/-- A filtered search returns enough results exactly under `reachesEnough`, in every state of an
engine and for every query, `topK`, `ef`, limit and filters that are valid. -/
theorem filtered_search_enough_iff {cfg : Config D} {workers : Workers} {rng : ℕ → ℕ}
    {disk disk' : Disk} {e₀ e : Engine D} {evs : List LifeEvent}
    (hopen : openEngine crc J cfg workers rng disk = .ok (e₀, disk'))
    (hevs : Along (Engine.live crc J) (fun e ev => LifeEvent.Valid e ev) e₀ evs)
    (hrun : run (Engine.live crc J) e₀ evs = .ok e) {query : Vec}
    (hquery : validateFiniteVector query e.cfg.dim = .ok ()) {filters : List Filter}
    (hne : filters ≠ []) (hfilters : ∀ f ∈ filters, f.validate N = .ok ()) {topK : ℤ}
    (htop : 1 ≤ topK) (ef limit : ℤ) :
    (∃ res, e.search N limit query topK ef filters = .ok res ∧
      min topK.toNat (e.matching N filters).length ≤ res.length) ↔
    e.reachesEnough N limit query topK ef filters := by
  have hs := searchable_of_run hopen hevs hrun
  have hvalid : validateVector query e.graph.cfg.dim = .ok () := by
    rw [hs.sound.dim_eq]
    exact hquery
  simp only [Engine.search, hquery, validateFilters_ok hfilters, if_neg hne]
  cases hcands : e.filterCandidates N filters limit with
  | some ids =>
    simp only [Engine.reachesEnough, hcands, Option.isSome_some, true_or, iff_true]
    exact hs.scoreIds hvalid hfilters htop hcands
  | none =>
    simp only [Engine.reachesEnough, hcands, Option.isSome_none, Bool.false_eq_true, false_or]
    obtain ⟨out, hout, hnone, hsome⟩ := hs.attempts (N := N) hvalid filters htop Engine.maxAttempts
      (int64 (Engine.beamWidth topK ef * 4))
    obtain ⟨hle, hall⟩ := hs.reachedMatching_ncard N query filters
    simp only [hout]
    cases out with
    | none =>
      obtain ⟨ids, hids⟩ := e.filterCandidates_maxInt N filters
      simp only [hids, Option.getD_some]
      exact iff_of_true (hs.scoreIds hvalid hfilters htop hids) (.inl (hnone rfl))
    | some res =>
      simp only [Except.ok.injEq, exists_eq_left']
      rw [← hall]
      rcases hsome res rfl with ⟨henough, hreached⟩ | ⟨⟨i, hi, hlt⟩, hlen⟩
      · exact iff_of_true (by omega) (.inr (.inl hreached))
      · have hnarrow : ¬ ∀ i < Engine.maxAttempts,
            overfetchAt (int64 (Engine.beamWidth topK ef * 4)) i ≤
              ((e.graph.reachedIds query).ncard : ℤ) := fun h => absurd (h i hi) (by omega)
        simp only [hnarrow, false_or]
        omega

theorem selective_search_finds_its_match :
    ∃ e res, run (Engine.live crc32ChecksumIEEE anyCodec) freshEngine
        [.commit one .ok [] collidingInserts] = .ok e ∧
      e.search wholeNumbers 10 [0] 5 0 [⟨"a", .opIn, ["b\x00c"]⟩] = .ok res ∧ 1 ≤ res.length := by
  have hfilters : ∀ f ∈ [(⟨"a", .opIn, ["b\x00c"]⟩ : Filter)], f.validate wholeNumbers = .ok () := by
    simp [Filter.validate]
  have hquery : validateFiniteVector [0] (freshEngine.commit crc32ChecksumIEEE anyCodec one .ok []
      collidingInserts).1.cfg.dim = .ok () := rfl
  obtain ⟨res, hres, hlen⟩ := (filtered_search_enough_iff crc32ChecksumIEEE anyCodec wholeNumbers
    (freshEngine_eq_open _) collidingInserts_valid rfl hquery (by simp) hfilters
    (show (1 : ℤ) ≤ 5 by decide) 0 10).mpr (.inl (by decide +kernel))
  refine ⟨_, res, rfl, hres, le_trans ?_ hlen⟩
  decide +kernel

def cutOffInserts : List Change :=
  [.insert 1 [0xC1200000] ∅, .insert 2 [0] ∅, .insert 3 [0x41200000] ∅, .insert 2 [0xC1A00000] ∅]

/-- All three points match, and a search for three returns two: the graph, asked for 256, returns
the two that it reaches. -/
theorem search_returns_two_of_three : ∃ e, run (Engine.live crc32ChecksumIEEE anyCodec) freshEngine
        [.commit one .ok [] cutOffInserts] = .ok e ∧
      (e.matching wholeNumbers [⟨"k", .opNe, ["v"]⟩]).length = 3 ∧
      (e.search wholeNumbers 4096 [0] 3 0 [⟨"k", .opNe, ["v"]⟩]).toOption.map (·.map (·.id)) =
        some [1, 2] := by
  refine ⟨_, rfl, ?_, ?_⟩ <;> decide +kernel

end Short

end NuclaDB
