import NuclaDB.EngineSteps

/-!
# Get beside commits and loads

`Get` reads the vector from the graph and then, under another lock, the metadata.
-/

namespace NuclaDB

open LittleEndian Hnsw KeyedLog EventRun List

/-- How far `Get` is. `seen` is not in the source: how much of the history the graph showed. -/
inductive Getting
  | waiting
  | vector (v : Vec) (seen : ℕ)
  | done (r : Option (Vec × Meta))

structure Reading (D : Type) where
  busy : Busy D
  get : Getting

inductive GetEvent
  | write (ev : WriteEvent)
  | readGraph
  | readMeta

namespace Reading
variable {D : Type} [Hnsw.Dist D] (crc : Bytes → UInt32) (J : Codec) (id : UInt64) (s : Reading D)

def readGraph : Reading D :=
  match s.get with
  | .waiting =>
    match s.busy.engine.graph.get id with
    | none => { s with get := .done none }
    | some v => { s with get := .vector v s.busy.history.length }
  | _ => s

def readMeta : Reading D :=
  match s.get with
  | .vector v _ => { s with get := .done (some (v, metaAt s.busy.engine.metadata id)) }
  | _ => s

def step : GetEvent → Except Empty (Reading D)
  | .write ev => .ok { s with busy := s.busy.step crc J ev }
  | .readGraph => .ok (s.readGraph id)
  | .readMeta => .ok (s.readMeta id)

def between (ws : List Written) (m n : ℕ) : List Written := (ws.take (max m n)).drop (min m n)

/-- Between what the metadata show and what the graph showed there are neither inserts or deletes of
the id nor loads. -/
def CalmSince (b : Busy D) : Getting → Prop
  | .vector _ seen => ∀ w ∈ between b.history seen b.shown, w.KeepsVector id
  | _ => True

instance (b : Busy D) (get : Getting) : Decidable (CalmSince id b get) :=
  match get with
  | .waiting => .isTrue trivial
  | .vector _ seen => List.decidableBAll (Written.KeepsVector id) (between b.history seen b.shown)
  | .done _ => .isTrue trivial

def Calm : GetEvent → Prop
  | .readMeta => CalmSince id s.busy s.get
  | _ => True

instance (s : Reading D) (ev : GetEvent) : Decidable (s.Calm id ev) :=
  match ev with
  | .write _ => .isTrue trivial
  | .readGraph => .isTrue trivial
  | .readMeta => inferInstanceAs (Decidable (CalmSince id s.busy s.get))

def Valid : GetEvent → Prop
  | .write ev => s.busy.Valid ev
  | _ => True

end Reading

section Versions

theorem between_comm (ws : List Written) (m n : ℕ) : Reading.between ws m n = Reading.between ws n m := by
  rw [Reading.between, Reading.between, max_comm, min_comm]

theorem between_of_le (ws : List Written) {m n : ℕ} (h : m ≤ n) :
    Reading.between ws m n = (ws.take n).drop m := by
  rw [Reading.between, max_eq_right h, min_eq_left h]

theorem mem_between_mono {ws : List Written} {w : Written} {m m' n' n : ℕ} (hm : m ≤ m') (hmn : m' ≤ n')
    (hn : n' ≤ n) (h : w ∈ Reading.between ws m' n') : w ∈ Reading.between ws m n := by
  rw [between_of_le ws hmn] at h
  rw [between_of_le ws (hm.trans (hmn.trans hn))]
  have hdrop : w ∈ (ws.take n').drop m := by
    rw [show m' = m + (m' - m) by omega, ← drop_drop] at h
    exact mem_of_mem_drop h
  rw [drop_take] at hdrop ⊢
  exact take_subset_take_left _ (by omega) hdrop

theorem vector_between {f : Contents} {ws : List Written} {id : UInt64} {m n : ℕ}
    (h : ∀ w ∈ Reading.between ws m n, w.KeepsVector id) :
    (versionAfter f (ws.take m) id).map (·.1) = (versionAfter f (ws.take n) id).map (·.1) := by
  wlog hmn : m ≤ n generalizing m n
  · exact (this (between_comm ws m n ▸ h) (Nat.le_of_not_le hmn)).symm
  have hsplit : ws.take n = ws.take m ++ Reading.between ws m n := by
    rw [between_of_le ws hmn]
    have htake : ws.take m = (ws.take n).take m := by rw [take_take, min_eq_left hmn]
    rw [htake, take_append_drop]
  rw [hsplit, versionAfter_append, vector_versionAfter h]

end Versions

section Get
variable {D : Type} [Hnsw.Dist D] {crc : Bytes → UInt32} {J : Codec} {id : UInt64} {f₀ : Contents}
variable {s : Reading D}

def Getting.Of (f₀ : Contents) (id : UInt64) (b : Busy D) : Getting → Prop
  | .waiting => True
  | .vector v seen => (versionAfter f₀ (b.history.take seen) id).map (·.1) = some v ∧
      (seen = b.history.length ∨ seen ≤ b.base)
  | .done r => ∀ x, r = some x → ∃ n ≤ b.history.length, versionAfter f₀ (b.history.take n) id = some x

variable {b b' : Busy D} {old done ahead : List Written}

section
omit [Hnsw.Dist D]

theorem Getting.Of.grow {get : Getting} (h : get.Of f₀ id b) (hbase : b.base ≤ b.history.length)
    {ws : List Written} (hhistory : b'.history = b.history ++ ws) (hbase' : b'.base = b.history.length) :
    get.Of f₀ id b' := by
  have htake : ∀ n ≤ b.history.length, b'.history.take n = b.history.take n := fun n hn => by
    rw [hhistory, take_append_of_le_length hn]
  cases get with
  | waiting => trivial
  | vector v seen =>
    obtain ⟨hvector, hseen⟩ := h
    have hle : seen ≤ b.history.length := by
      rcases hseen with rfl | hle
      · exact le_rfl
      · exact hle.trans hbase
    exact ⟨by rw [htake seen hle, hvector], .inr (hbase' ▸ hle)⟩
  | done r =>
    intro x hx
    obtain ⟨n, hn, hversion⟩ := h x hx
    exact ⟨n, by rw [hhistory, length_append]; omega, by rw [htake n hn, hversion]⟩

theorem Getting.Of.same {get : Getting} (h : get.Of f₀ id b) (hhistory : b'.history = b.history)
    (hbase : b'.base = b.base) : get.Of f₀ id b' := by
  cases get with
  | waiting => trivial
  | vector v seen => exact ⟨by rw [hhistory]; exact h.1, by rw [hhistory, hbase]; exact h.2⟩
  | done r =>
    intro x hx
    rw [hhistory]
    exact h x hx

theorem Busy.Inv.version (h : Busy.Inv J f₀ b old done ahead) {v : Vec} {seen : ℕ}
    (hvector : (versionAfter f₀ (b.history.take seen) id).map (·.1) = some v)
    (hseen : seen = b.history.length ∨ seen ≤ b.base)
    (hcalm : ∀ w ∈ Reading.between b.history seen b.shown, w.KeepsVector id) :
    ∃ n ≤ b.history.length,
      versionAfter f₀ (b.history.take n) id = some (v, metaAt b.engine.metadata id) := by
  have hshown : b.history.take b.shown = old ++ done := by
    rw [h.shown_eq, h.history, take_left']
    rfl
  have hold : b.history.take b.base = old := by
    rw [h.base, h.history, append_assoc, take_left']
    rfl
  have hsome : ∀ {y : Option (Vec × Meta)}, y.map (·.1) = some v → ∃ md, y = some (v, md) := by
    intro y hy
    obtain ⟨⟨v', md⟩, rfl, rfl⟩ := Option.map_eq_some_iff.mp hy
    exact ⟨md, rfl⟩
  by_cases hlive : b.engine.graph.get id = none
  · -- The id is being deleted, by a call that began after the vector was read.
    have hle : seen ≤ b.base := by
      rcases hseen with rfl | hle
      · rw [take_length, h.vectors, hlive] at hvector
        cases hvector
      · exact hle
    have hbase : b.base ≤ b.shown := by
      rw [h.base, h.shown_eq, length_append]
      omega
    have hdone : Reading.between b.history b.base b.shown = done := by
      rw [between_of_le _ hbase, hshown, h.base, drop_left']
      rfl
    have hkeeps : ∀ w ∈ done, w.KeepsVector id := fun w hw =>
      hcalm w (mem_between_mono hle hbase le_rfl (hdone.symm ▸ hw))
    have hfirst : ∀ w ∈ Reading.between b.history seen b.base, w.KeepsVector id := fun w hw =>
      hcalm w (mem_between_mono le_rfl hle hbase hw)
    rw [vector_between hfirst, hold] at hvector
    obtain ⟨md, hmd⟩ := hsome hvector
    refine ⟨b.base, hbase.trans (Nat.sub_le _ _), ?_⟩
    rw [hold, hmd, h.dead id _ hlive hkeeps hmd]
  · rw [vector_between hcalm, hshown] at hvector
    obtain ⟨md, hmd⟩ := hsome hvector
    refine ⟨b.shown, Nat.sub_le _ _, ?_⟩
    rw [hshown, hmd, h.live id _ hlive hmd]

end

def Reading.Inv (J : Codec) (f₀ : Contents) (id : UInt64) (s : Reading D) : Prop :=
  ∃ old done ahead, Busy.Inv J f₀ s.busy old done ahead ∧ s.get.Of f₀ id s.busy

section
variable (h : s.Inv J f₀ id)
include h

theorem Reading.Inv.write {ev : WriteEvent} (hv : s.busy.Valid ev) :
    Reading.Inv J f₀ id { s with busy := s.busy.step crc J ev } := by
  obtain ⟨old, done, ahead, hbusy, hget⟩ := h
  rcases hbusy.step crc hv with ⟨hhistory, done', ahead', hbusy'⟩ | ⟨ws, hhistory, hbusy'⟩
  · exact ⟨old, done', ahead', hbusy', hget.same hhistory (hbusy'.base.trans hbusy.base.symm)⟩
  · have hbase : s.busy.base ≤ s.busy.history.length := by
      rw [hbusy.base, hbusy.history, length_append, length_append]
      omega
    exact ⟨_, _, _, hbusy', hget.grow hbase hhistory hbusy'.base⟩

omit [Hnsw.Dist D] in
theorem Reading.Inv.readGraph : (s.readGraph id).Inv J f₀ id := by
  obtain ⟨old, done, ahead, hbusy, hget⟩ := h
  rw [Reading.readGraph]
  split
  · split
    · exact ⟨old, done, ahead, hbusy, nofun⟩
    · next v hv =>
      refine ⟨old, done, ahead, hbusy, ?_, .inl rfl⟩
      rw [take_length, hbusy.vectors, hv]
  · exact ⟨old, done, ahead, hbusy, hget⟩

omit [Hnsw.Dist D] in
theorem Reading.Inv.readMeta (hcalm : s.Calm id .readMeta) : (s.readMeta id).Inv J f₀ id := by
  obtain ⟨old, done, ahead, hbusy, hget⟩ := h
  rw [Reading.Calm] at hcalm
  rw [Reading.readMeta]
  split
  · next v seen hs =>
    rw [hs] at hget hcalm
    refine ⟨old, done, ahead, hbusy, fun x hx => ?_⟩
    obtain rfl := Option.some.inj hx
    exact hbusy.version hget.1 hget.2 hcalm
  · exact ⟨old, done, ahead, hbusy, hget⟩

theorem Reading.Inv.step {s' : Reading D} {ev : GetEvent}
    (hev : s.Valid ev ∧ s.Calm id ev) (hstep : s.step crc J id ev = .ok s') : s'.Inv J f₀ id := by
  cases ev with
  | write ev => exact Except.ok.inj hstep ▸ h.write hev.1
  | readGraph => exact Except.ok.inj hstep ▸ h.readGraph
  | readMeta => exact Except.ok.inj hstep ▸ h.readMeta hev.2

end

/-- A `Get` that succeeds returns the id's value after some part of what has been committed and
loaded, if nothing but updates of the id lies between the two versions that it reads. -/
theorem get_returns_version {cfg : Config D} {workers : Workers} {rng : ℕ → ℕ} {disk disk' : Disk}
    {e : Engine D} (hopen : openEngine crc J cfg workers rng disk = .ok (e, disk')) {evs : List GetEvent}
    (hcalm : Along (Reading.step crc J id) (fun s ev => s.Valid ev ∧ s.Calm id ev) ⟨.idle e, .waiting⟩ evs)
    {s : Reading D} (hrun : run (Reading.step crc J id) ⟨.idle e, .waiting⟩ evs = .ok s)
    {x : Vec × Meta} (hget : s.get = .done (some x)) :
    ∃ n ≤ s.busy.history.length, versionAfter e.contents (s.busy.history.take n) id = some x := by
  have hstart : Reading.Inv J e.contents id (⟨.idle e, .waiting⟩ : Reading D) :=
    ⟨[], [], [], .idle e (searchable_of_open hopen).sound, trivial⟩
  obtain ⟨old, done, ahead, -, hof⟩ := run_keeps (fun h hev hstep => h.step hev hstep) hstart hcalm hrun
  rw [hget] at hof
  exact hof x rfl

end Get

section Examples

def tagged (x : UInt32) (tag : String) : GetEvent := .write (.commit one .ok [] [.insert 1 [x] {("tag", tag)}])

def readDuring : List GetEvent := [tagged 0 "x", .readGraph, .readMeta]

def insertBetween : List GetEvent :=
  [tagged 0 "x", .write .next, .write .next, .readGraph, tagged 1 "y", .write .next, .readMeta]

def updateBetween : List GetEvent :=
  [tagged 0 "x", .write .next, .write .next, .readGraph,
    .write (.commit one .ok [] [.update 1 {("tag", "y")}]), .write .next, .readMeta]

noncomputable def readOne (evs : List GetEvent) : Except Empty (Reading Exact) :=
  run (Reading.step crc32ChecksumIEEE anyCodec 1) ⟨.idle freshEngine, .waiting⟩ evs

def vectorAndTag (x : Vec × Meta) : Vec × Option String := (x.1, x.2["tag"]?)

def Reading.result {D : Type} (s : Reading D) : Option (Vec × Meta) :=
  match s.get with
  | .done r => r
  | _ => none

noncomputable def outcome (evs : List GetEvent) :
    Option (Option (Vec × Option String) × List (Option (Vec × Option String))) :=
  (readOne evs).toOption.map fun s => (s.result.map vectorAndTag,
    (List.range (s.busy.history.length + 1)).map fun n =>
      (versionAfter freshEngine.contents (s.busy.history.take n) 1).map vectorAndTag)

theorem exists_of_outcome {evs : List GetEvent} {r : Vec × Option String}
    {versions : List (Option (Vec × Option String))} (h : outcome evs = some (some r, versions)) :
    ∃ s x, readOne evs = .ok s ∧ s.get = .done (some x) ∧ vectorAndTag x = r ∧
      ∀ n, (versionAfter freshEngine.contents (s.busy.history.take n) 1).map vectorAndTag ∈ versions := by
  rw [outcome] at h
  cases hrun : readOne evs with
  | error err => exact err.elim
  | ok s =>
    rw [hrun] at h
    obtain ⟨hresult, hversions⟩ := Prod.mk.inj (Option.some.inj h)
    obtain ⟨x, hx, hr⟩ := Option.map_eq_some_iff.mp hresult
    refine ⟨s, x, rfl, ?_, hr, fun n => ?_⟩
    · rw [Reading.result] at hx
      split at hx
      · next r hget => rw [hget, hx]
      · cases hx
    · rw [← hversions, take_eq_take_min]
      exact mem_map.mpr ⟨_, mem_range.mpr (by omega), rfl⟩

theorem exists_not_version {evs : List GetEvent} {r : Vec × Option String}
    {versions : List (Option (Vec × Option String))} (h : outcome evs = some (some r, versions))
    (hr : some r ∉ versions) :
    ∃ s x, readOne evs = .ok s ∧ s.get = .done (some x) ∧
      ∀ n, versionAfter freshEngine.contents (s.busy.history.take n) 1 ≠ some x := by
  obtain ⟨s, x, hrun, hget, hx, hall⟩ := exists_of_outcome h
  refine ⟨s, x, hrun, hget, fun n hn => hr ?_⟩
  have hmem := hall n
  rwa [hn, Option.map_some, hx] at hmem

/-- A `Get` in the middle of an insert, and one around the graph's and the metadata's part of
another. -/
theorem get_mixes_versions :
    (∃ s x, run (Reading.step crc32ChecksumIEEE anyCodec 1) ⟨.idle freshEngine, .waiting⟩ readDuring = .ok s ∧
      s.get = .done (some x) ∧
      ∀ n, versionAfter freshEngine.contents (s.busy.history.take n) 1 ≠ some x) ∧
    ∃ s x, run (Reading.step crc32ChecksumIEEE anyCodec 1) ⟨.idle freshEngine, .waiting⟩ insertBetween = .ok s ∧
      s.get = .done (some x) ∧
      ∀ n, versionAfter freshEngine.contents (s.busy.history.take n) 1 ≠ some x := by
  have hduring : outcome readDuring = some (some ([0], none), [none, some ([0], some "x")]) := by
    decide +kernel
  have hbetween : outcome insertBetween = some (some ([0], some "y"),
      [none, some ([0], some "x"), some ([1], some "y")]) := by decide +kernel
  exact ⟨exists_not_version hduring (by decide), exists_not_version hbetween (by decide)⟩

theorem get_around_update :
    ∃ s x, run (Reading.step crc32ChecksumIEEE anyCodec 1) ⟨.idle freshEngine, .waiting⟩ updateBetween = .ok s ∧
      s.get = .done (some x) ∧ vectorAndTag x = ([0], some "y") ∧
      ∃ n ≤ s.busy.history.length, versionAfter freshEngine.contents (s.busy.history.take n) 1 = some x := by
  have houtcome : outcome updateBetween = some (some ([0], some "y"),
      [none, some ([0], some "x"), some ([0], some "y")]) := by decide +kernel
  obtain ⟨s, x, hrun, hget, hx, -⟩ := exists_of_outcome houtcome
  refine ⟨s, x, hrun, hget, hx, get_returns_version (freshEngine_eq_open _) ?_ hrun hget⟩
  refine .cons ⟨forall_mem_singleton.mpr rfl, trivial⟩ rfl ?_
  refine .cons ⟨trivial, trivial⟩ rfl (.cons ⟨trivial, trivial⟩ rfl (.cons ⟨trivial, trivial⟩ rfl ?_))
  refine .cons ⟨forall_mem_singleton.mpr trivial, trivial⟩ rfl (.cons ⟨trivial, trivial⟩ rfl ?_)
  refine .cons ⟨trivial, ?_⟩ rfl trivial
  decide +kernel

end Examples

end NuclaDB
