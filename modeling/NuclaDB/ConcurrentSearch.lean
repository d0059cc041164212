import NuclaDB.EngineSearch
import NuclaDB.EngineSteps

/-!
# Filtered search beside commits

`Search` reads the graph and the metadata under their own locks, one after the other. Where it scores
the matches of a filter it attaches the metadata afterwards, and does not look at them again.
-/

namespace NuclaDB

open LittleEndian Hnsw EventRun List Function
open Hnsw.Graph (SearchResult)

/-- A call of `Search`; `limit` is the engine's `exactFilterLimit`. -/
structure SearchCall where
  limit : ℤ
  query : Vec
  topK : ℤ
  ef : ℤ
  filters : List Filter

inductive Searching (D : Type)
  | ready
  | scoring (ids : List UInt64)
  | attaching (res : List (SearchResult D))
  | fetching (attempts : ℕ) (overfetch : ℤ)
  | matching (attempts : ℕ) (overfetch : ℤ) (candidates : List (SearchResult D))
  | collecting
  | done (r : Except SearchError (List (Result D)))

namespace SearchCall
variable {D F : Type} [Hnsw.Dist D] (N : Numbers F) (q : SearchCall)

def tryAgain (overfetch : ℤ) : ℕ → Searching D
  | 0 => .collecting
  | attempts + 1 => .fetching attempts overfetch

def overfetch : ℤ :=
  if q.filters = [] then Engine.beamWidth q.topK q.ef else int64 (Engine.beamWidth q.topK q.ef * 4)

def read (e : Engine D) : Searching D → Searching D
  | .ready =>
    match validateFiniteVector q.query e.cfg.dim with
    | .error err => .done (.error (.graph err))
    | .ok () =>
      match validateFilters N q.filters with
      | .error err => .done (.error (.filter err))
      | .ok () =>
        match if q.filters = [] then none else e.filterCandidates N q.filters q.limit with
        | some ids => .scoring ids
        | none => tryAgain q.overfetch Engine.maxAttempts
  | .scoring ids =>
    match e.graph.exactSearch q.query ids q.topK with
    | .error err => .done (.error (.graph err))
    | .ok res => .attaching res
  | .attaching res => .done (.ok (e.withMetadata res))
  | .fetching attempts overfetch =>
    match e.graph.search q.query overfetch overfetch with
    | .error err => .done (.error (.graph err))
    | .ok candidates => .matching attempts overfetch candidates
  | .matching attempts overfetch candidates =>
    match e.filterMatches N candidates q.filters q.topK with
    | .error err => .done (.error err)
    | .ok matched =>
      if q.topK ≤ matched.length ∨ candidates.length < overfetch then .done (.ok matched)
      else tryAgain (int64 (overfetch * 4)) attempts
  | .collecting => .scoring ((e.filterCandidates N q.filters maxInt).getD [])
  | .done r => .done r

section Alone
variable (e : Engine D)

theorem reads_scoring (ids : List UInt64) :
    ∃ k, (q.read N e)^[k] (.scoring ids) = .done (e.scoreIds q.query q.topK ids) := by
  rw [Engine.scoreIds]
  cases hexact : e.graph.exactSearch q.query ids q.topK with
  | error err => exact ⟨1, by simp [read, hexact]⟩
  | ok res => exact ⟨2, by simp [read, hexact]⟩

theorem reads_tryAgain (attempts : ℕ) (overfetch : ℤ) :
    ∃ k, (q.read N e)^[k] (tryAgain overfetch attempts) =
      .done (match e.attempts N q.query q.topK q.filters attempts overfetch with
        | .error err => .error err
        | .ok (some matched) => .ok matched
        | .ok none => e.scoreIds q.query q.topK ((e.filterCandidates N q.filters maxInt).getD [])) := by
  induction attempts generalizing overfetch with
  | zero =>
    obtain ⟨k, hk⟩ := reads_scoring N q e ((e.filterCandidates N q.filters maxInt).getD [])
    exact ⟨k + 1, by rw [iterate_succ_apply]; exact hk⟩
  | succ attempts ih =>
    rw [Engine.attempts]
    cases hsearch : e.graph.search q.query overfetch overfetch with
    | error err => exact ⟨1, by simp [read, tryAgain, hsearch]⟩
    | ok candidates =>
      cases hmatches : e.filterMatches N candidates q.filters q.topK with
      | error err => exact ⟨2, by simp [read, tryAgain, hsearch, hmatches]⟩
      | ok matched =>
        by_cases hstop : q.topK ≤ matched.length ∨ candidates.length < overfetch
        · exact ⟨2, by simp [read, tryAgain, hsearch, hmatches, if_pos hstop]⟩
        · obtain ⟨k, hk⟩ := ih (int64 (overfetch * 4))
          refine ⟨k + 2, ?_⟩
          rw [iterate_add_apply]
          simp only [hmatches, if_neg hstop]
          rw [← hk]
          simp [read, tryAgain, hsearch, hmatches, if_neg hstop]

/-- With nothing written in between, the steps of a search come to `Engine.search`. -/
theorem reads_alone : ∃ k, (q.read N e)^[k] .ready =
    .done (e.search N q.limit q.query q.topK q.ef q.filters) := by
  rw [Engine.search]
  cases hquery : validateFiniteVector q.query e.cfg.dim with
  | error err => exact ⟨1, by simp [read, hquery]⟩
  | ok u =>
    cases hfilters : validateFilters N q.filters with
    | error err => exact ⟨1, by simp [read, hquery, hfilters]⟩
    | ok u =>
      have hread : q.read N e .ready =
          match if q.filters = [] then none else e.filterCandidates N q.filters q.limit with
          | some ids => .scoring ids
          | none => tryAgain q.overfetch Engine.maxAttempts := by
        simp only [read, hquery, hfilters]
      cases hids : if q.filters = [] then none else e.filterCandidates N q.filters q.limit with
      | some ids =>
        obtain ⟨k, hk⟩ := reads_scoring N q e ids
        exact ⟨k + 1, by rw [iterate_succ_apply, hread, hids]; exact hk⟩
      | none =>
        obtain ⟨k, hk⟩ := reads_tryAgain N q e Engine.maxAttempts q.overfetch
        exact ⟨k + 1, by rw [iterate_succ_apply, hread, hids]; exact hk⟩

end Alone

end SearchCall

namespace Searching
variable {D F : Type}

def chosen : Searching D → List UInt64
  | .scoring ids => ids
  | .attaching res => res.map (·.id)
  | _ => []

def Matches (N : Numbers F) (filters : List Filter) (e : Engine D) : Searching D → Prop
  | .done (.ok res) => ∀ r ∈ res, matchesFilters N r.metadata filters = true
  | s => ∀ id ∈ s.chosen, matchesFilters N (metaAt e.metadata id) filters = true

variable {N : Numbers F} {filters : List Filter} {e : Engine D} {s : Searching D}

theorem Matches.of_chosen {e' : Engine D} (h : s.Matches N filters e)
    (hchosen : ∀ id ∈ s.chosen, matchesFilters N (metaAt e'.metadata id) filters = true) :
    s.Matches N filters e' := by
  cases s with
  | done r =>
    cases r with
    | error err => exact hchosen
    | ok res => exact h
  | _ => exact hchosen

theorem Matches.chosen (h : s.Matches N filters e) :
    ∀ id ∈ s.chosen, matchesFilters N (metaAt e.metadata id) filters = true := by
  cases s with
  | done r => exact nofun
  | _ => exact h

theorem matches_tryAgain (overfetch : ℤ) (attempts : ℕ) :
    (SearchCall.tryAgain overfetch attempts).Matches N filters e := by
  cases attempts with
  | zero => exact nofun
  | succ attempts => exact nofun

theorem matches_of_filterCandidates {limit : ℤ} {ids : List UInt64}
    (h : e.filterCandidates N filters limit = some ids) :
    ∀ id ∈ ids, matchesFilters N (metaAt e.metadata id) filters = true := by
  obtain ⟨pool, -, rfl⟩ := Option.map_eq_some_iff.mp h
  exact fun id hid => (mem_filter.mp hid).2

theorem matches_of_filterMatches {candidates : List (SearchResult D)} {topK : ℤ} {res : List (Result D)}
    (h : e.filterMatches N candidates filters topK = .ok res) :
    ∀ r ∈ res, matchesFilters N r.metadata filters = true := by
  intro r hr
  unfold Engine.filterMatches at h
  split_ifs at h
  cases h
  have hmem : r ∈ e.withMetadata
      (candidates.filter fun c => matchesFilters N (metaAt e.metadata c.id) filters) := by
    simp only [Engine.firstMatches] at hr
    split at hr
    · exact mem_of_mem_take hr
    · exact hr
  obtain ⟨c, hc, rfl⟩ := mem_map.mp hmem
  exact (mem_filter.mp hc).2

theorem Matches.read [Hnsw.Dist D] {q : SearchCall} (h : s.Matches N q.filters e) (hs : e.graph.Slotted) :
    (q.read N e s).Matches N q.filters e := by
  cases s with
  | ready =>
    simp only [SearchCall.read]
    split
    · exact nofun
    · split
      · exact nofun
      · split
        · next ids hids =>
          have hcandidates : e.filterCandidates N q.filters q.limit = some ids := by
            by_cases hnil : q.filters = []
            · simp [hnil] at hids
            · simpa [hnil] using hids
          exact matches_of_filterCandidates hcandidates
        · exact matches_tryAgain ..
  | scoring ids =>
    simp only [SearchCall.read]
    split
    · exact nofun
    · next res hres =>
      intro id hid
      exact h id (mem_of_mem_filter ((hs.exactSearch_ids hres).subset hid))
  | attaching res =>
    intro r hr
    obtain ⟨found, hfound, rfl⟩ := mem_map.mp hr
    exact h found.id (mem_map.mpr ⟨found, hfound, rfl⟩)
  | fetching attempts overfetch =>
    simp only [SearchCall.read]
    split
    · exact nofun
    · exact nofun
  | matching attempts overfetch candidates =>
    simp only [SearchCall.read]
    split
    · exact nofun
    · next matched hmatched =>
      split
      · exact matches_of_filterMatches hmatched
      · exact matches_tryAgain ..
  | collecting =>
    simp only [SearchCall.read]
    cases hids : e.filterCandidates N q.filters maxInt with
    | none => exact nofun
    | some ids => exact matches_of_filterCandidates hids
  | done r => exact h

end Searching

structure Finding (D : Type) where
  busy : Busy D
  search : Searching D

inductive SearchEvent
  | commit (workers : Workers) (io : Wal.Outcome) (file : Bytes) (cs : List Change)
  | next
  | read

namespace Finding
variable {D F : Type} [Hnsw.Dist D] (crc : Bytes → UInt32) (J : Codec) (N : Numbers F) (q : SearchCall)

def step (s : Finding D) : SearchEvent → Except Empty (Finding D)
  | .commit workers io file cs => .ok { s with busy := s.busy.commit crc J workers io file cs }
  | .next => .ok { s with busy := s.busy.next }
  | .read => .ok { s with search := q.read N s.busy.engine s.search }

/-- What a commit sets for an id that has been taken for a match is still a match. -/
def Calm (s : Finding D) : SearchEvent → Prop
  | .next => ∀ id ∈ s.search.chosen, (s.busy.sets id).all (matchesFilters N · q.filters) = true
  | _ => True

instance (s : Finding D) (ev : SearchEvent) : Decidable (s.Calm N q ev) :=
  match ev with
  | .commit _ _ _ _ => .isTrue trivial
  | .next => decidableBAll (fun id => (s.busy.sets id).all (matchesFilters N · q.filters) = true) _
  | .read => .isTrue trivial

def Valid (s : Finding D) : SearchEvent → Prop
  | .commit workers io file cs => s.busy.Valid (.commit workers io file cs)
  | _ => True

structure Inv (s : Finding D) : Prop where
  busy : ∃ f₀ old done ahead, Busy.Inv J f₀ s.busy old done ahead
  search : s.search.Matches N q.filters s.busy.engine

section Steps
variable {crc J N q} {s s' : Finding D}

omit [Hnsw.Dist D] in
theorem Inv.next (h : s.Inv J N q) (hcalm : s.Calm N q .next) :
    Inv J N q { s with busy := s.busy.next } := by
  obtain ⟨f₀, old, done, ahead, hbusy⟩ := h.busy
  obtain ⟨-, done', ahead', hbusy'⟩ := hbusy.next
  refine ⟨⟨f₀, old, done', ahead', hbusy'⟩, h.search.of_chosen fun id hid => ?_⟩
  have hset := hcalm id hid
  rw [s.busy.metaAt_next]
  cases hmd : s.busy.sets id with
  | none => exact h.search.chosen id hid
  | some md =>
    rw [hmd] at hset
    exact hset

omit [Hnsw.Dist D] in
theorem mismatch_attached {found : List (SearchResult D)} (hfound : s.search = .attaching found)
    (hnot : ¬s.Calm N q .next) :
    ∃ r ∈ s.busy.next.engine.withMetadata found, matchesFilters N r.metadata q.filters = false := by
  simp only [Calm, hfound, Searching.chosen, not_forall, Bool.not_eq_true] at hnot
  obtain ⟨id, hid, hset⟩ := hnot
  obtain ⟨r, hr, rfl⟩ := mem_map.mp hid
  refine ⟨_, mem_map.mpr ⟨r, hr, rfl⟩, ?_⟩
  rw [s.busy.metaAt_next]
  cases hmd : s.busy.sets r.id with
  | none => simp [hmd] at hset
  | some md =>
    rw [hmd] at hset
    exact hset

theorem Inv.step {ev : SearchEvent} (h : s.Inv J N q) (hev : s.Valid ev ∧ s.Calm N q ev)
    (hstep : s.step crc J N q ev = .ok s') : s'.Inv J N q := by
  obtain ⟨f₀, old, done, ahead, hbusy⟩ := h.busy
  cases ev with
  | commit workers io file cs =>
    obtain rfl := Except.ok.inj hstep
    have hvalid : s.busy.Valid (.commit workers io file cs) := hev.1
    have hsame := s.busy.metadata_commit crc J workers io file cs
    refine ⟨?_, h.search.of_chosen fun id hid => ?_⟩
    · rcases hbusy.step crc hvalid with ⟨-, done', ahead', h'⟩ | ⟨ws, -, h'⟩
      · exact ⟨f₀, old, done', ahead', h'⟩
      · exact ⟨f₀, _, _, _, h'⟩
    · rw [hsame]
      exact h.search.chosen id hid
  | next => exact Except.ok.inj hstep ▸ h.next hev.2
  | read =>
    obtain rfl := Except.ok.inj hstep
    exact ⟨h.busy, h.search.read hbusy.wf.shape.slotted⟩

/-- The results of a search match its filters, if no commit sets metadata that do not match for an id
that the search has chosen and not yet returned; such a step just before the metadata are attached
makes a mismatch of a result. -/
theorem results_match {cfg : Config D} {workers : Workers} {rng : ℕ → ℕ} {disk disk' : Disk} {e : Engine D}
    (hopen : openEngine crc J cfg workers rng disk = .ok (e, disk')) {evs : List SearchEvent}
    (hcalm : Along (Finding.step crc J N q) (fun s ev => s.Valid ev ∧ s.Calm N q ev) ⟨.idle e, .ready⟩ evs)
    {s : Finding D} (hrun : run (Finding.step crc J N q) ⟨.idle e, .ready⟩ evs = .ok s) :
    (∀ res, s.search = .done (.ok res) → ∀ r ∈ res, matchesFilters N r.metadata q.filters = true) ∧
    ∀ found, s.search = .attaching found → ¬s.Calm N q .next →
      ∃ s' res, run (Finding.step crc J N q) s [.next, .read] = .ok s' ∧ s'.search = .done (.ok res) ∧
        ∃ r ∈ res, matchesFilters N r.metadata q.filters = false := by
  have hstart : (⟨.idle e, .ready⟩ : Finding D).Inv J N q :=
    ⟨⟨e.contents, [], [], [], .idle e (searchable_of_open hopen).sound⟩, nofun⟩
  constructor
  · intro res hdone
    have hs := (run_keeps (fun h hev hstep => h.step hev hstep) hstart hcalm hrun).search
    rw [hdone] at hs
    exact hs
  · intro found hfound hnot
    refine ⟨_, s.busy.next.engine.withMetadata found, rfl, ?_, mismatch_attached hfound hnot⟩
    simp only [hfound, SearchCall.read]

end Steps

end Finding

section Examples

def tagIsX : SearchCall := ⟨10, [0], 5, 0, [⟨"tag", .opEq, ["x"]⟩]⟩

/-- An insert with the tag, and a search that finds it by the tag while the tag is changed to another. -/
def tagChanges (tag : String) : List SearchEvent :=
  [.commit one .ok [] [.insert 1 [0] {("tag", "x")}], .next, .next, .read,
    .commit one .ok [] [.update 1 {("tag", tag)}], .read, .next, .read]

noncomputable def findX (evs : List SearchEvent) : Except Empty (Finding Exact) :=
  run (Finding.step crc32ChecksumIEEE anyCodec wholeNumbers tagIsX) ⟨.idle freshEngine, .ready⟩ evs

def Searching.verdict {D : Type} : Searching D → Option (List Bool)
  | .done (.ok res) => some (res.map fun r => matchesFilters wholeNumbers r.metadata tagIsX.filters)
  | _ => none

theorem exists_of_verdict {evs : List SearchEvent} {matched : List Bool}
    (h : (findX evs).toOption.map (·.search.verdict) = some (some matched)) :
    ∃ s res, findX evs = .ok s ∧ s.search = .done (.ok res) ∧
      res.map (fun r => matchesFilters wholeNumbers r.metadata tagIsX.filters) = matched := by
  cases hrun : findX evs with
  | error err => exact err.elim
  | ok s =>
    rw [hrun] at h
    have hverdict : s.search.verdict = some matched := Option.some.inj h
    unfold Searching.verdict at hverdict
    split at hverdict
    · next res hdone => exact ⟨s, res, rfl, hdone, Option.some.inj hverdict⟩
    · cases hverdict

theorem tag_changed_before_attached :
    ∃ s res, run (Finding.step crc32ChecksumIEEE anyCodec wholeNumbers tagIsX) ⟨.idle freshEngine, .ready⟩
        (tagChanges "y") = .ok s ∧
      s.search = .done (.ok res) ∧ ∃ r ∈ res, matchesFilters wholeNumbers r.metadata tagIsX.filters = false := by
  have hverdict : (findX (tagChanges "y")).toOption.map (·.search.verdict) = some (some [false]) := by
    decide +kernel
  obtain ⟨s, res, hrun, hdone, hres⟩ := exists_of_verdict hverdict
  refine ⟨s, res, hrun, hdone, ?_⟩
  have hmem : false ∈ res.map fun r => matchesFilters wholeNumbers r.metadata tagIsX.filters := by
    rw [hres]
    exact mem_cons_self
  exact mem_map.mp hmem

theorem tag_kept_before_attached :
    ∃ s res, run (Finding.step crc32ChecksumIEEE anyCodec wholeNumbers tagIsX) ⟨.idle freshEngine, .ready⟩
        (tagChanges "x") = .ok s ∧
      s.search = .done (.ok res) ∧ res.length = 1 ∧
      ∀ r ∈ res, matchesFilters wholeNumbers r.metadata tagIsX.filters = true := by
  have hverdict : (findX (tagChanges "x")).toOption.map (·.search.verdict) = some (some [true]) := by
    decide +kernel
  obtain ⟨s, res, hrun, hdone, hres⟩ := exists_of_verdict hverdict
  refine ⟨s, res, hrun, hdone, by simpa using congrArg length hres,
    (Finding.results_match (freshEngine_eq_open _) ?_ hrun).1 res hdone⟩
  refine .cons ⟨forall_mem_singleton.mpr rfl, trivial⟩ rfl ?_
  refine .cons ⟨trivial, nofun⟩ rfl (.cons ⟨trivial, nofun⟩ rfl (.cons ⟨trivial, trivial⟩ rfl ?_))
  refine .cons ⟨forall_mem_singleton.mpr trivial, trivial⟩ rfl (.cons ⟨trivial, trivial⟩ rfl ?_)
  refine .cons ⟨trivial, ?_⟩ rfl (.cons ⟨trivial, trivial⟩ rfl trivial)
  decide +kernel

end Examples

end NuclaDB
