import NuclaDB.Router

/-!
# Scatter and gather

`Search` takes a node's answer for each shard that the node owns, though a node answers
from all that it holds.
-/

namespace NuclaDB.Routing

open Hnsw Strconv NuclaDB.Topology SortedSlice Api Gather List

structure Match (κ : Type) where
  id : UInt64
  score : κ
  metadata : Meta

def Match.message {κ : Type} (m : Match κ) : ScoredVector κ := ⟨formatUint m.id, m.score, m.metadata⟩

inductive SearchError
  | invalidShardCount (n : ℤ)
  | invalidArguments
  | invalidMatchID (shard : ℤ) (id : String)
  | shardsFailed (failed : List (ℤ × Option CallError))

/-- On each attempt at a shard: the error of the context, that of a new connection, and the node's
answer. -/
structure Meets (κ : Type) where
  ctxErr : ℤ → ℕ → Option Status
  dial : ℤ → ℕ → String → Option Status
  answer : ℤ → ℕ → String → Api.Request → Except Status (List (ScoredVector κ))

section Search
variable {κ : Type}

def pbFilters (visit : MapOrder (String × String)) (filters : Std.ExtTreeMap String String compare) :
    List Pb.MetadataFilter :=
  (visit.list filters.toList).map fun (k, v) => ⟨k, v, .opEq, []⟩

def searchAttempts : ℕ := 2

def maxInt32 : ℤ := 2147483647

/-- The loop over the attempts at a shard. A context that has ended is an error only where no other
one came before. -/
def attempt (r : Router) (meets : Meets κ) (req : Api.Request) (shard : ℤ) :
    ℕ → ℕ → Option CallError → Except (Option CallError) (List (ScoredVector κ))
  | 0, i, err => .error (err <|> (meets.ctxErr shard i).map .call)
  | left + 1, i, err =>
    match meets.ctxErr shard i with
    | some e => .error (err <|> some (.call e))
    | none =>
      match r.ownerClient (meets.dial shard i) shard with
      | .error e => attempt r meets req shard left (i + 1) (some e)
      | .ok addr =>
        match meets.answer shard i addr req with
        | .error e => attempt r meets req shard left (i + 1) (some (.call e))
        | .ok found => .ok found

def parseMatches (shard : ℤ) : List (ScoredVector κ) → Except SearchError (List (Match κ))
  | [] => .ok []
  | m :: ms =>
    match parseUint m.id with
    | none => .error (.invalidMatchID shard m.id)
    | some id => do
      let rest ← parseMatches shard ms
      .ok (⟨id, m.score, m.metadata⟩ :: rest)

def gather : List (ℤ × Except (Option CallError) (List (ScoredVector κ))) →
    Except SearchError (List (Match κ) × List (ℤ × Option CallError))
  | [] => .ok ([], [])
  | (shard, .error e) :: results => do
    let (merged, failed) ← gather results
    .ok (merged, (shard, e) :: failed)
  | (shard, .ok found) :: results => do
    let matched ← parseMatches shard found
    let (merged, failed) ← gather results
    .ok (matched ++ merged, failed)

def shardsUpTo (numShards : ℤ) : List ℤ := (range numShards.toNat).map fun s : ℕ => (s : ℤ)

variable [LinearOrder κ]

def search (r : Router) (sort : KeySort (Match.score (κ := κ))) (visit : MapOrder (String × String))
    (meets : Meets κ) (query : Vec) (topK efSearch : ℤ) (filters : Std.ExtTreeMap String String compare) :
    List (Match κ) × Option SearchError :=
  let numShards := r.resolver.numShards
  if numShards ≤ 0 then ([], some (.invalidShardCount numShards))
  else if topK ≤ 0 ∨ maxInt32 < topK ∨ efSearch < 0 ∨ maxInt32 < efSearch then ([], some .invalidArguments)
  else
    let req := Api.Request.search r.tenantID query topK .unspecified efSearch (pbFilters visit filters)
    match gather ((shardsUpTo numShards).map fun s => (s, attempt r meets req s searchAttempts 0 none)) with
    | .error e => ([], some e)
    | .ok (merged, failed) =>
      let merged := (sort.sort merged).take topK.toNat
      if failed.length = numShards then ([], some (.shardsFailed failed))
      else if 0 < failed.length then (merged, some (.shardsFailed failed))
      else (merged, none)

end Search

section Spec
variable {κ : Type}

def matchesOf (score : Vec → κ) (lets : Meta → Bool) (n : Node) : List (Match κ) :=
  (n.toList.filter fun e => lets e.2.2).map fun e => ⟨e.1, score e.2.1, e.2.2⟩

variable [LinearOrder κ]

/-- Every node answers every search at the first attempt, with the best of what it holds. -/
structure Meets.Exact (meets : Meets κ) (score : Vec → Vec → κ) (lets : List Pb.MetadataFilter → Meta → Bool)
    (nodes : Nodes) : Prop where
  ctxErr (shard : ℤ) (i : ℕ) : meets.ctxErr shard i = none
  dial (shard : ℤ) (i : ℕ) (addr : String) : meets.dial shard i addr = none
  answer (shard : ℤ) (i : ℕ) (addr tenantID : String) (query : Vec) (topK : ℤ) (metric : DistanceMetric)
    (efSearch : ℤ) (filters : List Pb.MetadataFilter) :
    ∃ found, Smallest Match.score topK.toNat (matchesOf (score query) (lets filters) (nodes addr)) found ∧
      meets.answer shard i addr (.search tenantID query topK metric efSearch filters) =
        .ok (found.map Match.message)

structure Right (k : ℕ) (stored : List (Match κ)) (out : List (Match κ) × Option SearchError) : Prop where
  no_error : out.2 = none
  ids : (out.1.map Match.id).Nodup
  scores : out.1.map Match.score = ((stored.map Match.score).mergeSort fun a b => decide (a ≤ b)).take k

/-- The arguments are in range, and of a node that owns two shards no vector has fewer than
`topK - 1` stored ones before it. -/
structure Suits (r : Router) (topK efSearch : ℤ) (stored : List (Match κ)) : Prop where
  shards : 0 < r.resolver.numShards
  results : 0 < topK ∧ topK ≤ maxInt32
  effort : 0 ≤ efSearch ∧ efSearch ≤ maxInt32
  late (s s' : ℤ) : 0 ≤ s → s < s' → s' < r.resolver.numShards → r.ownerOf s = r.ownerOf s' →
    ∀ m ∈ stored, r.ownerOf (r.shardOf m.id) = r.ownerOf s →
      topK ≤ (stored.countP fun m' => m'.score < m.score) + 1

end Spec

section Gathering
variable {κ : Type}

theorem parseMatches_message (shard : ℤ) (ms : List (Match κ)) :
    parseMatches shard (ms.map Match.message) = .ok ms := by
  induction ms with
  | nil => rfl
  | cons m ms ih =>
    simp only [map_cons, parseMatches, Match.message, parseUint_formatUint] at ih ⊢
    rw [ih]
    rfl

theorem gather_ok {shards : List ℤ} {result : ℤ → Except (Option CallError) (List (ScoredVector κ))}
    {found : ℤ → List (Match κ)} (h : ∀ s ∈ shards, result s = .ok ((found s).map Match.message)) :
    gather (shards.map fun s => (s, result s)) = .ok (shards.flatMap found, []) := by
  induction shards with
  | nil => rfl
  | cons s shards ih =>
    obtain ⟨hs, hshards⟩ := forall_mem_cons.mp h
    simp only [map_cons, hs, gather, parseMatches_message, ih hshards]
    rfl

end Gathering

section Stored
variable {κ : Type} {score : Vec → κ} {lets : Meta → Bool} {n stored : Node} {m : Match κ}

theorem mem_matchesOf : m ∈ matchesOf score lets n ↔
    ∃ v, n[m.id]? = some (v, m.metadata) ∧ lets m.metadata = true ∧ score v = m.score := by
  obtain ⟨id, sc, md⟩ := m
  simp only [matchesOf, mem_map, mem_filter, Match.mk.injEq, Prod.exists,
    Std.ExtTreeMap.mem_toList_iff_getElem?_eq_some]
  constructor
  · rintro ⟨_, v, _, ⟨hget, hlets⟩, rfl, rfl, rfl⟩
    exact ⟨v, hget, hlets, rfl⟩
  · rintro ⟨v, hget, hlets, rfl⟩
    exact ⟨id, v, md, ⟨hget, hlets⟩, rfl, rfl, rfl⟩

theorem nodup_ids (score : Vec → κ) (lets : Meta → Bool) (n : Node) :
    ((matchesOf score lets n).map Match.id).Nodup := by
  have hkeys : (n.toList.map Prod.fst).Nodup := by
    rw [Std.ExtTreeMap.map_fst_toList_eq_keys]
    exact Std.ExtTreeMap.nodup_keys
  rw [matchesOf, map_map]
  exact (filter_sublist.map Prod.fst).nodup hkeys

theorem eq_of_id {m' : Match κ} (hm : m ∈ matchesOf score lets n) (hm' : m' ∈ matchesOf score lets n)
    (hid : m.id = m'.id) : m = m' := inj_on_of_nodup_map (nodup_ids score lets n) hm hm' hid

variable {r : Router} {nodes : Nodes} {addr : String}

theorem mem_node (h : Routed r nodes stored) : m ∈ matchesOf score lets (nodes addr) ↔
    m ∈ matchesOf score lets stored ∧ r.ownerOf (r.shardOf m.id) = some addr := by
  simp only [mem_matchesOf, h addr]
  split_ifs with howner
  · simp [howner]
  · simp [howner]

theorem mem_shardsUpTo {numShards s : ℤ} : s ∈ shardsUpTo numShards ↔ 0 ≤ s ∧ s < numShards := by
  simp only [shardsUpTo, mem_map, mem_range]
  constructor
  · rintro ⟨i, hi, rfl⟩
    omega
  · intro hs
    exact ⟨s.toNat, by omega, by omega⟩

def part (score : Vec → κ) (lets : Meta → Bool) (nodes : Nodes) (r : Router) (s : ℤ) : List (Match κ) :=
  match r.ownerOf s with
  | some addr => matchesOf score lets (nodes addr)
  | none => []

theorem mem_part (h : Routed r nodes stored) {s : ℤ} (hs : (r.ownerOf s).isSome = true) :
    m ∈ part score lets nodes r s ↔
      m ∈ matchesOf score lets stored ∧ r.ownerOf (r.shardOf m.id) = r.ownerOf s := by
  obtain ⟨addr, haddr⟩ := Option.isSome_iff_exists.mp hs
  simp only [part, haddr]
  exact mem_node h

theorem parts (score : Vec → κ) (lets : Meta → Bool) (h : Routed r nodes stored) (hpos : 0 < r.resolver.numShards)
    (howned : ∀ s, 0 ≤ s → s < r.resolver.numShards → (r.ownerOf s).isSome = true) :
    Parts (matchesOf score lets stored) (shardsUpTo r.resolver.numShards) (part score lets nodes r) where
  nodup := (nodup_ids score lets stored).of_map
  indices := nodup_range.map fun _ _ hij => by simpa using hij
  part_nodup s := by
    unfold part
    split
    · exact (nodup_ids score lets _).of_map
    · exact nodup_nil
  sub s m hm := by
    unfold part at hm
    split at hm
    · exact ((mem_node h).mp hm).1
    · cases hm
  cover m hm := by
    have hrange := shardFor_range hpos m.id
    refine ⟨r.shardOf m.id, mem_shardsUpTo.mpr hrange, ?_⟩
    exact (mem_part h (howned _ hrange.1 hrange.2)).mpr ⟨hm, rfl⟩

end Stored

section Outcome
variable {κ : Type} {r : Router} {meets : Meets κ} {s : ℤ} {addr : String}

theorem ownerClient_eq (hopen : r.closed = false) {dial : String → Option Status} (hdial : dial addr = none)
    (howner : r.ownerOf s = some addr) : r.ownerClient dial s = .ok addr := by
  unfold Router.ownerOf at howner
  unfold Router.ownerClient
  cases hresolve : r.resolver.shardOwner s with
  | error e =>
    rw [hresolve] at howner
    cases howner
  | ok p =>
    rw [hresolve] at howner
    cases howner
    simp [Router.clientFor, hopen, hdial]

theorem attempt_eq (hopen : r.closed = false) (hctx : meets.ctxErr s 0 = none)
    (hdial : meets.dial s 0 addr = none) (howner : r.ownerOf s = some addr) {req : Api.Request}
    {found : List (ScoredVector κ)} (hanswer : meets.answer s 0 addr req = .ok found) :
    attempt r meets req s searchAttempts 0 none = .ok found := by
  simp only [searchAttempts, attempt, hctx, ownerClient_eq hopen hdial howner, hanswer]

variable [LinearOrder κ] {score : Vec → Vec → κ} {lets : List Pb.MetadataFilter → Meta → Bool}
  {nodes : Nodes} {query : Vec} {topK efSearch : ℤ} {sort : KeySort (Match.score (κ := κ))}
  {visit : MapOrder (String × String)} {filters : Std.ExtTreeMap String String compare}

theorem search_no_error (h : (search r sort visit meets query topK efSearch filters).2 = none) :
    0 < r.resolver.numShards ∧ (0 < topK ∧ topK ≤ maxInt32) ∧ 0 ≤ efSearch ∧ efSearch ≤ maxInt32 := by
  simp only [search] at h
  split_ifs at h with hshards hrange
  push Not at hshards hrange
  exact ⟨hshards, ⟨hrange.1, hrange.2.1⟩, hrange.2.2⟩

theorem search_eq (hshards : 0 < r.resolver.numShards) (htopK : 0 < topK ∧ topK ≤ maxInt32)
    (hef : 0 ≤ efSearch ∧ efSearch ≤ maxInt32) {found : ℤ → List (Match κ)}
    (hfound : ∀ s ∈ shardsUpTo r.resolver.numShards,
      attempt r meets (.search r.tenantID query topK .unspecified efSearch (pbFilters visit filters)) s
        searchAttempts 0 none = .ok ((found s).map Match.message)) :
    search r sort visit meets query topK efSearch filters =
      ((sort.sort ((shardsUpTo r.resolver.numShards).flatMap found)).take topK.toNat, none) := by
  have hrange : ¬ (topK ≤ 0 ∨ maxInt32 < topK ∨ efSearch < 0 ∨ maxInt32 < efSearch) := by omega
  have hcount : ((0 : ℕ) : ℤ) ≠ r.resolver.numShards := by omega
  simp only [search, if_neg (not_le.mpr hshards), if_neg hrange, gather_ok hfound, length_nil,
    if_neg hcount, lt_irrefl, if_false]

def exactly (sort : KeySort (Match.score (κ := κ))) (score : Vec → Vec → κ)
    (lets : List Pb.MetadataFilter → Meta → Bool) (nodes : Nodes) : Meets κ where
  ctxErr _ _ := none
  dial _ _ _ := none
  answer _ _ addr
    | .search _ query topK _ _ filters =>
      .ok (((sort.sort (matchesOf (score query) (lets filters) (nodes addr))).take topK.toNat).map Match.message)
    | _ => .ok []

theorem exactly_exact (sort : KeySort (Match.score (κ := κ))) (score : Vec → Vec → κ)
    (lets : List Pb.MetadataFilter → Meta → Bool) (nodes : Nodes) :
    (exactly sort score lets nodes).Exact score lets nodes where
  ctxErr _ _ := rfl
  dial _ _ _ := rfl
  answer _ _ _ _ _ _ _ _ _ := ⟨_, smallest_take (sort.sorted _) (sort.perm _), rfl⟩

theorem Meets.Exact.found (h : meets.Exact score lets nodes) (hopen : r.closed = false)
    (howner : (r.ownerOf s).isSome = true) :
    ∃ found, Smallest Match.score topK.toNat (part (score query) (lets (pbFilters visit filters)) nodes r s) found ∧
      attempt r meets (.search r.tenantID query topK .unspecified efSearch (pbFilters visit filters)) s
        searchAttempts 0 none = .ok (found.map Match.message) := by
  obtain ⟨addr, haddr⟩ := Option.isSome_iff_exists.mp howner
  obtain ⟨found, hsmallest, hanswer⟩ := h.answer s 0 addr r.tenantID query topK .unspecified efSearch
    (pbFilters visit filters)
  refine ⟨found, by rwa [part, haddr], attempt_eq hopen (h.ctxErr s 0) (h.dial s 0 addr) haddr hanswer⟩

end Outcome

section Favoured
variable {κ : Type} [LinearOrder κ] (id : UInt64)

def favour (m : Match κ) : κ ×ₗ Bool := toLex (m.score, decide (m.id ≠ id))

theorem favour_lt_of_score (a b : Match κ) (h : a.score < b.score) : favour id a < favour id b :=
  Prod.Lex.toLex_lt_toLex.mpr (.inl h)

theorem favour_lt_iff {a x : Match κ} : favour x.id a < favour x.id x ↔ a.score < x.score := by
  simp [favour, Prod.Lex.toLex_lt_toLex]

omit [LinearOrder κ] in
theorem favour_eq {a x : Match κ} (h : favour x.id a = favour x.id x) : a.id = x.id := by
  simpa [favour] using (Prod.mk.inj (toLex.injective h)).2

def favouring : KeySort (Match.score (κ := κ)) :=
  (KeySort.merge (favour id)).coarsen (favour_lt_of_score id)

theorem smallest_favouring (k : ℕ) (l : List (Match κ)) :
    Smallest (favour id) k l (((favouring id).sort l).take k) :=
  smallest_take ((KeySort.merge (favour id)).sorted l) ((KeySort.merge (favour id)).perm l)

end Favoured

section Searching
variable {κ : Type} [LinearOrder κ] {r : Router} {nodes : Nodes} {stored : Node} {score : Vec → Vec → κ}
  {lets : List Pb.MetadataFilter → Meta → Bool} {query : Vec} {topK efSearch : ℤ}
  {visit : MapOrder (String × String)} {filters : Std.ExtTreeMap String String compare}

def candidates (score : Vec → Vec → κ) (lets : List Pb.MetadataFilter → Meta → Bool)
    (visit : MapOrder (String × String)) (query : Vec) (filters : Std.ExtTreeMap String String compare)
    (stored : Node) : List (Match κ) :=
  matchesOf (score query) (lets (pbFilters visit filters)) stored

section
variable (hstored : Routed r nodes stored) (hopen : r.closed = false)
  (howned : ∀ s, 0 ≤ s → s < r.resolver.numShards → (r.ownerOf s).isSome = true)
include hstored hopen howned

theorem right_of_suits
    (hsuits : Suits r topK efSearch (candidates score lets visit query filters stored))
    {meets : Meets κ} (hexact : meets.Exact score lets nodes) (sort : KeySort (Match.score (κ := κ))) :
    Right topK.toNat (candidates score lets visit query filters stored)
      (search r sort visit meets query topK efSearch filters) := by
  have hfound : ∀ s, ∃ found, s ∈ shardsUpTo r.resolver.numShards →
      Smallest Match.score topK.toNat (part (score query) (lets (pbFilters visit filters)) nodes r s) found ∧
        attempt r meets (.search r.tenantID query topK .unspecified efSearch (pbFilters visit filters)) s
          searchAttempts 0 none = .ok (found.map Match.message) := by
    intro s
    by_cases hs : s ∈ shardsUpTo r.resolver.numShards
    · have hrange := mem_shardsUpTo.mp hs
      obtain ⟨found, hfound⟩ := hexact.found hopen (howned s hrange.1 hrange.2)
      exact ⟨found, fun _ => hfound⟩
    · exact ⟨[], fun h => absurd h hs⟩
  choose found hfound using hfound
  have hparts := parts (score query) (lets (pbFilters visit filters)) hstored hsuits.shards howned
  have hanswer := fun s hs => (hfound s hs).1
  rw [search_eq hsuits.shards hsuits.results hsuits.effort fun s hs => (hfound s hs).2]
  have hbest : Smallest Match.score topK.toNat ((shardsUpTo r.resolver.numShards).flatMap found) _ :=
    smallest_take (sort.sorted _) (sort.perm _)
  have hnodup := nodup_of_late hparts hanswer hbest fun s hs s' hs' hne m hm hm' => by
    have hrange := mem_shardsUpTo.mp hs
    have hrange' := mem_shardsUpTo.mp hs'
    obtain ⟨hmem, howner⟩ := (mem_part hstored (howned s hrange.1 hrange.2)).mp hm
    obtain ⟨-, howner'⟩ := (mem_part hstored (howned s' hrange'.1 hrange'.2)).mp hm'
    have hle : topK ≤ ((candidates score lets visit query filters stored).countP
        fun m' => m'.score < m.score) + 1 := by
      rcases lt_or_gt_of_ne hne with hlt | hlt
      · exact hsuits.late s s' hrange.1 hlt hrange'.2 (howner.symm.trans howner') m hmem howner
      · exact hsuits.late s' s hrange'.1 hlt hrange.2 (howner'.symm.trans howner) m hmem howner'
    exact Int.toNat_le.mpr (by exact_mod_cast hle)
  have hsmallest := smallest_of_nodup hparts hanswer hbest hnodup
  refine ⟨rfl, ?_, hsmallest.keys ?_ (mergeSort_perm _ _)⟩
  · exact hnodup.map_on fun a ha b hb hid =>
      eq_of_id (hsmallest.best.subset ha) (hsmallest.best.subset hb) hid
  · exact (KeySort.merge fun a : κ => a).sorted _

theorem not_right_of_early (hshards : 0 < r.resolver.numShards) (htopK : 0 < topK ∧ topK ≤ maxInt32)
    (hef : 0 ≤ efSearch ∧ efSearch ≤ maxInt32) {s s' : ℤ} (hs : 0 ≤ s) (hlt : s < s')
    (hs' : s' < r.resolver.numShards) (hsame : r.ownerOf s = r.ownerOf s') {m : Match κ}
    (hm : m ∈ candidates score lets visit query filters stored)
    (howner : r.ownerOf (r.shardOf m.id) = r.ownerOf s)
    (hearly : ((candidates score lets visit query filters stored).countP
      fun m' => m'.score < m.score) + 1 < topK) :
    ¬ Right topK.toNat (candidates score lets visit query filters stored)
      (search r (favouring m.id) visit (exactly (favouring m.id) score lets nodes) query topK efSearch filters) := by
  intro hright
  have hparts := parts (score query) (lets (pbFilters visit filters)) hstored hshards howned
  have hsowned := howned s hs (hlt.trans hs')
  have hsowned' := howned s' (hs.trans hlt.le) hs'
  have hfound : ∀ s ∈ shardsUpTo r.resolver.numShards,
      attempt r (exactly (favouring m.id) score lets nodes)
        (.search r.tenantID query topK .unspecified efSearch (pbFilters visit filters)) s searchAttempts 0 none =
      .ok ((((favouring m.id).sort (part (score query) (lets (pbFilters visit filters)) nodes r s)).take
        topK.toNat).map Match.message) := by
    intro s hs
    have hrange := mem_shardsUpTo.mp hs
    obtain ⟨addr, haddr⟩ := Option.isSome_iff_exists.mp (howned s hrange.1 hrange.2)
    rw [part, haddr]
    exact attempt_eq hopen rfl rfl haddr rfl
  rw [search_eq hshards htopK hef hfound] at hright
  refine not_nodup_of_early hparts (fun s _ => smallest_favouring m.id topK.toNat _)
    (smallest_favouring m.id topK.toNat _) (mem_shardsUpTo.mpr ⟨hs, hlt.trans hs'⟩)
    (mem_shardsUpTo.mpr ⟨hs.trans hlt.le, hs'⟩) hlt.ne ((mem_part hstored hsowned).mpr ⟨hm, howner⟩)
    ((mem_part hstored hsowned').mpr ⟨hm, howner.trans hsame⟩)
    (fun a ha hfavour => eq_of_id ha hm (favour_eq hfavour)) ?_ hright.ids.of_map
  simp only [favour_lt_iff]
  have hearly := hearly
  simp only [candidates] at hearly
  omega

end

end Searching

/-- After any calls that went well and with nodes that answer exactly, every search finds the best of
what is stored, in whatever way ties are broken, just when it suits the way the shards are owned. -/
theorem search_right_iff {κ : Type} [LinearOrder κ] {r : Router} {ops : List Op} {nodes : Nodes}
    (hopen : r.closed = false)
    (howned : ∀ s, 0 ≤ s → s < r.resolver.numShards → (r.ownerOf s).isSome = true)
    (hrun : run r ops = some nodes) (score : Vec → Vec → κ) (lets : List Pb.MetadataFilter → Meta → Bool)
    (visit : MapOrder (String × String)) (query : Vec) (topK efSearch : ℤ)
    (filters : Std.ExtTreeMap String String compare) :
    (∀ (sort : KeySort (Match.score (κ := κ))) (meets : Meets κ), meets.Exact score lets nodes →
      Right topK.toNat (candidates score lets visit query filters (storedBy ops))
        (search r sort visit meets query topK efSearch filters)) ↔
    Suits r topK efSearch (candidates score lets visit query filters (storedBy ops)) := by
  have hstored := routed_of_run hrun
  constructor
  · intro hright
    have hsome := hright (KeySort.merge _) _ (exactly_exact (KeySort.merge _) score lets nodes)
    obtain ⟨hshards, htopK, hef⟩ := search_no_error hsome.no_error
    refine ⟨hshards, htopK, hef, fun s s' hs hlt hs' hsame m hm howner => ?_⟩
    by_contra hearly
    exact not_right_of_early hstored hopen howned hshards htopK hef hs hlt hs' hsame hm howner
      (not_le.mp hearly) (hright _ _ (exactly_exact _ score lets nodes))
  · intro hsuits sort meets hexact
    exact right_of_suits hstored hopen howned hsuits hexact sort

section Examples

def twoShards (fst snd : String) : Router where
  resolver :=
    let state := State.new.applyAll [⟨.addNode, "a", "a:1", 0⟩, ⟨.addNode, "b", "b:1", 0⟩,
      ⟨.setShardLeader, fst, "", 0⟩, ⟨.setShardLeader, snd, "", 1⟩]
    .ofCluster (fun _ => 0) state
      (Cluster.new (fun _ => 0) (KeySort.insertion _) .listed state 2 1 1)
  tenantID := ""
  closed := false

def items : List Op := [.insert ⟨1, [5], ∅⟩, .insert ⟨2, [3], ∅⟩, .insert ⟨3, [4], ∅⟩, .delete 2]

def firstValue (_ v : Vec) : ℕ := (v.headD 0).toNat

theorem one_owner_found_twice : ∃ nodes, run (twoShards "a" "a") items = some nodes ∧
    (exactly (KeySort.insertion _) firstValue (fun _ _ => true) nodes).Exact firstValue (fun _ _ => true) nodes ∧
      (storedBy items).toList.map Prod.fst = [1, 3] ∧
      ((search (twoShards "a" "a") (KeySort.insertion _) .listed
        (exactly (KeySort.insertion _) firstValue (fun _ _ => true) nodes) [0] 2 0 ∅).1.map Match.id) = [3, 3] := by
  have hrun : (run (twoShards "a" "a") items).isSome = true := by decide +kernel
  obtain ⟨nodes, hnodes⟩ := Option.isSome_iff_exists.mp hrun
  refine ⟨nodes, hnodes, exactly_exact _ _ _ _, by decide +kernel, ?_⟩
  have hfound : (run (twoShards "a" "a") items).map (fun nodes => (search (twoShards "a" "a")
      (KeySort.insertion _) .listed (exactly (KeySort.insertion _) firstValue (fun _ _ => true) nodes)
      [0] 2 0 ∅).1.map Match.id) = some [3, 3] := by
    decide +kernel
  rw [hnodes] at hfound
  exact Option.some.inj hfound

theorem two_owners_found_right : ∃ nodes, run (twoShards "a" "b") items = some nodes ∧
    ∀ (sort : KeySort (Match.score (κ := ℕ))) (meets : Meets ℕ), meets.Exact firstValue (fun _ _ => true) nodes →
      Right 2 (candidates firstValue (fun _ _ => true) .listed [0] ∅ (storedBy items))
        (search (twoShards "a" "b") sort .listed meets [0] 2 0 ∅) := by
  have hrun : (run (twoShards "a" "b") items).isSome = true := by decide +kernel
  have hshards : (twoShards "a" "b").resolver.numShards = 2 := rfl
  have howners : (twoShards "a" "b").ownerOf 0 = some "a:1" ∧ (twoShards "a" "b").ownerOf 1 = some "b:1" := by
    decide +kernel
  obtain ⟨nodes, hnodes⟩ := Option.isSome_iff_exists.mp hrun
  refine ⟨nodes, hnodes, (search_right_iff rfl (fun s hs hs' => ?_) hnodes firstValue (fun _ _ => true)
    .listed [0] 2 0 ∅).mpr ⟨by decide, by decide, by decide, fun s s' hs hlt hs' hsame => ?_⟩⟩
  · rw [hshards] at hs'
    obtain rfl | rfl : s = 0 ∨ s = 1 := by omega
    · rw [howners.1]
      rfl
    · rw [howners.2]
      rfl
  · rw [hshards] at hs'
    obtain ⟨rfl, rfl⟩ : s = 0 ∧ s' = 1 := by omega
    rw [howners.1, howners.2] at hsame
    exact absurd hsame (by decide)

end Examples

end NuclaDB.Routing
