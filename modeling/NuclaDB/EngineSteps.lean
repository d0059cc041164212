import NuclaDB.EnginePostings

/-!
# Commits and loads as their readers see them

A commit applies its records to the graph and only then sets their metadata, one after the
other; `LoadSnapshot` puts a graph in place and then its metadata. A `Busy` engine is one
between two of these steps.
-/

namespace NuclaDB

open LittleEndian Hnsw KeyedLog Install FileScript Wal List Function Change

section History

/-- What has become of the engine's map: a record of a commit, or a snapshot in its place. -/
inductive Written
  | record (c : Change)
  | snapshot (f : Contents)

variable (f : Contents)

def Written.act : Written → Contents
  | .record c => put Change.id Change.act f c
  | .snapshot f' => f'

def versionAfter (ws : List Written) : Contents := ws.foldl Written.act f

def Written.KeepsVector (id : UInt64) : Written → Prop
  | .record (.update _ _) => True
  | .record c => c.id ≠ id
  | .snapshot _ => False

instance (id : UInt64) : DecidablePred (Written.KeepsVector id) := fun w =>
  match w with
  | .record (.insert _ _ _) => inferInstanceAs (Decidable (_ ≠ _))
  | .record (.delete _) => inferInstanceAs (Decidable (_ ≠ _))
  | .record (.update _ _) => .isTrue trivial
  | .snapshot _ => .isFalse fun h => h

theorem versionAfter_append (ws ws' : List Written) :
    versionAfter f (ws ++ ws') = versionAfter (versionAfter f ws) ws' := foldl_append

theorem versionAfter_stored (c : Change) (prep : Vec → Vec) (id : UInt64) :
    versionAfter f [.record (c.stored prep)] id =
      if c.id = id then (c.stored prep).act (f id) else f id := by
  have hput : versionAfter f [.record (c.stored prep)] = put Change.id Change.act f (c.stored prep) := rfl
  rw [hput, put_apply, Change.id_stored]

theorem versionAfter_records (cs : List Change) :
    versionAfter f (cs.map .record) = applyAll f cs := by
  rw [versionAfter, foldl_map]
  rfl

theorem Written.KeepsVector.act {id : UInt64} {w : Written} (h : w.KeepsVector id) (f : Contents) :
    (w.act f id).map (·.1) = (f id).map (·.1) := by
  cases w with
  | snapshot f' => exact h.elim
  | record c =>
    rw [Written.act, put_apply]
    split
    · next hid =>
      cases c with
      | insert _ vector md => exact absurd hid h
      | delete _ => exact absurd hid h
      | update _ md => simp [Change.act, comp_def]
    · rfl

theorem vector_versionAfter {id : UInt64} {ws : List Written} (h : ∀ w ∈ ws, w.KeepsVector id)
    (f : Contents) : (versionAfter f ws id).map (·.1) = (f id).map (·.1) := by
  induction ws generalizing f with
  | nil => rfl
  | cons w ws ih =>
    obtain ⟨hw, hws⟩ := forall_mem_cons.mp h
    exact (ih hws _).trans (hw.act f)

end History

inductive Todo
  | nothing
  | metas (items : List (Record × Meta)) (seq : UInt64)
  | swap (metadata : Metadata)

/-- `history` and `base` are not in the source: all that has been written so far, and how much of it
when the last call began. -/
structure Busy (D : Type) where
  engine : Engine D
  todo : Todo
  history : List Written
  base : ℕ

def Todo.length : Todo → ℕ
  | .nothing => 0
  | .metas items _ => items.length
  | .swap _ => 1

def Busy.shown {D : Type} (b : Busy D) : ℕ := b.history.length - b.todo.length

def Busy.idle {D : Type} (e : Engine D) : Busy D := ⟨e, .nothing, [], 0⟩

inductive WriteEvent
  | commit (workers : Workers) (io : Wal.Outcome) (file : Bytes) (cs : List Change)
  | load (M : Json (Target → Bool)) (rng : ℕ → ℕ) (snapshot metadata : Bytes) (seq : UInt64)
      (d : Files Name) (faults : List Fault)
  | next

namespace Busy
variable {D : Type} [Hnsw.Dist D] (crc : Bytes → UInt32) (J : Codec) (b : Busy D)

def commit (workers : Workers) (io : Wal.Outcome) (file : Bytes) (cs : List Change) : Busy D :=
  match b.todo with
  | .nothing =>
    match b.engine.w.appendBatch crc io file (cs.map (record J)) with
    | (w, _, .error _) => { b with engine := { b.engine with w := w } }
    | (w, _, .ok seqs) =>
      match Queue.applyRecords workers ⟨b.engine.graph, []⟩ (cs.map (record J)) with
      | (g, some _) => { b with engine := { b.engine with w := w, graph := g } }
      | (g, none) =>
        { engine := { b.engine with w := w, graph := g }
          todo := .metas (cs.map fun c => (c.record J, c.md)) (seqs.getLastD b.engine.seq)
          history := b.history ++ cs.map fun c => .record (c.stored b.engine.graph.prep)
          base := b.history.length }
  | _ => b

def contentsOf (l : Loaded D) : Contents := fun id =>
  (l.graph.get id).map fun v => (v, metaAt l.metadata id)

def load : Option (Loaded D × Bool) → Busy D
  | none => b
  | some (l, _) =>
    match b.todo with
    | .nothing =>
      { engine := { b.engine with
          graph := l.graph
          w := ⟨l.seq + 1, false, false⟩
          seq := l.seq
          snapshotSeq := l.seq }
        todo := .swap l.metadata
        history := b.history ++ [.snapshot (contentsOf l)]
        base := b.history.length }
    | _ => b

def next : Busy D :=
  match b.todo with
  | .nothing => b
  | .metas [] seq => { b with engine := { b.engine with seq := seq }, todo := .nothing }
  | .metas ((rec, md) :: items) seq =>
    { b with
      engine :=
        if (b.engine.graph.get rec.id).isSome ∨ rec.op = opDelete then b.engine.setMeta rec.id md
        else b.engine
      todo := .metas items seq }
  | .swap metadata =>
    { b with
      engine := { b.engine with metadata := metadata, postings := buildPostings metadata }
      todo := .nothing }

def step : WriteEvent → Busy D
  | .commit workers io file cs => b.commit crc J workers io file cs
  | .load M rng snapshot metadata seq d faults =>
    b.load ((loadSnapshot J M b.engine.cfg rng snapshot metadata seq).run d faults).1
  | .next => b.next

def finish : Engine D :=
  match b.todo with
  | .nothing => b.engine
  | .metas items seq =>
    { items.foldl (fun e r =>
        if (b.engine.graph.get r.1.id).isSome ∨ r.1.op = opDelete then e.setMeta r.1.id r.2 else e)
        b.engine with seq := seq }
  | .swap metadata => { b.engine with metadata := metadata, postings := buildPostings metadata }

def sets (id : UInt64) : Option Meta :=
  match b.todo with
  | .metas ((rec, md) :: _) _ =>
    if rec.id = id ∧ ((b.engine.graph.get rec.id).isSome ∨ rec.op = opDelete) then some md else none
  | .swap metadata => some (metaAt metadata id)
  | _ => none

section Finish
variable {crc J} {b : Busy D}

omit [Hnsw.Dist D] in
theorem metaAt_next (b : Busy D) (id : UInt64) :
    metaAt b.next.engine.metadata id = (b.sets id).getD (metaAt b.engine.metadata id) := by
  obtain ⟨e, todo, history, base⟩ := b
  cases todo with
  | nothing => rfl
  | swap metadata => rfl
  | metas items seq =>
    cases items with
    | nil => rfl
    | cons r items =>
      obtain ⟨rec, md⟩ := r
      simp only [next, sets]
      by_cases hset : (e.graph.get rec.id).isSome = true ∨ rec.op = opDelete
      · rw [if_pos hset, e.setMeta_metaAt]
        by_cases hid : rec.id = id
        · subst hid
          simp [hset]
        · rw [update_of_ne (Ne.symm hid), if_neg (fun h => hid h.1)]
          rfl
      · rw [if_neg hset, if_neg (fun h => hset h.2)]
        rfl

variable (crc J) in
theorem metadata_commit (b : Busy D) (workers : Workers) (io : Wal.Outcome) (file : Bytes) (cs : List Change) :
    (b.commit crc J workers io file cs).engine.metadata = b.engine.metadata := by
  rw [commit]
  split
  · split
    · rfl
    · split
      · rfl
      · rfl
  · rfl

omit [Hnsw.Dist D] in
theorem setMeta_graph (e : Engine D) (id : UInt64) (md : Meta) : (e.setMeta id md).graph = e.graph :=
  congrArg (·.graph) (e.setMeta_core id md)

omit [Hnsw.Dist D] in
theorem finish_next (b : Busy D) : b.next.finish = b.finish := by
  obtain ⟨e, todo, history, base⟩ := b
  cases todo with
  | nothing => rfl
  | swap metadata => rfl
  | metas items seq =>
    cases items with
    | nil => rfl
    | cons r items =>
      obtain ⟨rec, md⟩ := r
      simp only [next, finish, foldl_cons]
      by_cases hset : (e.graph.get rec.id).isSome = true ∨ rec.op = opDelete
      · simp only [if_pos hset, setMeta_graph]
      · simp only [if_neg hset]

theorem finish_commit (hidle : b.todo = .nothing) (workers : Workers) (io : Wal.Outcome) (file : Bytes)
    (cs : List Change) :
    (b.commit crc J workers io file cs).finish = (b.engine.commit crc J workers io file cs).1 := by
  have hzip : (cs.map (record J)).zip (cs.map md) = cs.map fun c => (c.record J, c.md) := by
    rw [zip_map']
  simp only [commit, hidle, Engine.commit, Engine.commitLocked, Engine.setMetas, hzip]
  rcases b.engine.w.appendBatch crc io file (cs.map (record J)) with ⟨w, file', err | seqs⟩
  · simp only [finish]
  · rcases Queue.applyRecords workers ⟨b.engine.graph, []⟩ (cs.map (record J)) with ⟨g, _ | err⟩
    · have hcore := (Engine.setMetas_spec J g cs { b.engine with w := w, graph := g }).1
      have hseq := congrArg (·.seq) hcore
      simp only [Engine.core, Engine.setMetas, hzip] at hseq
      simp only [finish, hseq]
    · simp only [finish]

omit [Hnsw.Dist D] in
theorem finish_load (hidle : b.todo = .nothing) (r : Option (Loaded D × Bool)) :
    (b.load r).finish = afterLoad b.engine r := by
  cases r with
  | none | some out => simp only [load, finish, hidle, afterLoad]

theorem commit_busy (hbusy : b.todo ≠ .nothing) (workers : Workers) (io : Wal.Outcome) (file : Bytes)
    (cs : List Change) : b.commit crc J workers io file cs = b := by
  rw [commit]
  split
  · next hidle => exact absurd hidle hbusy
  · rfl

omit [Hnsw.Dist D] in
theorem load_busy (hbusy : b.todo ≠ .nothing) (r : Option (Loaded D × Bool)) : b.load r = b := by
  cases r with
  | none => rfl
  | some out =>
    rw [load]
    split
    · next hidle => exact absurd hidle hbusy
    · rfl

def callOf : WriteEvent → Option LifeEvent
  | .commit workers io file cs => some (.commit workers io file cs)
  | .load M rng snapshot metadata seq d faults => some (.load M rng snapshot metadata seq d faults)
  | .next => none

variable (crc J) in
theorem finish_step (b : Busy D) (ev : WriteEvent) : (b.step crc J ev).finish = b.finish ∨
      ∃ call, callOf ev = some call ∧ b.finish.live crc J call = .ok (b.step crc J ev).finish := by
  by_cases hidle : b.todo = .nothing
  · have hfinish : b.finish = b.engine := by rw [finish, hidle]
    cases ev with
    | next => exact .inl (finish_next b)
    | commit workers io file cs =>
      refine .inr ⟨.commit workers io file cs, rfl, ?_⟩
      rw [step, finish_commit hidle, hfinish]
      rfl
    | load M rng snapshot metadata seq d faults =>
      refine .inr ⟨.load M rng snapshot metadata seq d faults, rfl, ?_⟩
      rw [step, finish_load hidle, hfinish]
      rfl
  · cases ev with
    | next => exact .inl (finish_next b)
    | commit workers io file cs => exact .inl (congrArg finish (commit_busy hidle ..))
    | load M rng snapshot metadata seq d faults => exact .inl (congrArg finish (load_busy hidle _))

variable (crc J) in
/-- Commits and loads that are made in steps come to whole calls: those that found no other under
way, in their order. -/
theorem steps_refine_calls (b : Busy D) (evs : List WriteEvent) :
    ∃ calls, calls.Sublist (evs.filterMap callOf) ∧
      EventRun.run (Engine.live crc J) b.finish calls = .ok (evs.foldl (step crc J) b).finish := by
  induction evs generalizing b with
  | nil => exact ⟨[], .slnil, rfl⟩
  | cons ev evs ih =>
    obtain ⟨calls, hsub, hcalls⟩ := ih (b.step crc J ev)
    rcases finish_step crc J b ev with hsame | ⟨call, hcall, hlive⟩
    · exact ⟨calls, hsub.trans ((sublist_cons_self ev evs).filterMap _), hsame ▸ hcalls⟩
    · refine ⟨call :: calls, ?_, by rw [EventRun.run_cons hlive]; exact hcalls⟩
      rw [filterMap_cons_some hcall]
      exact hsub.cons_cons call

end Finish

section Shown

def Ahead (ahead : List Written) : Todo → Prop
  | .nothing => ahead = []
  | .metas items _ => ∃ (cs : List Change) (prep : Vec → Vec),
      items = cs.map (fun c => (c.record J, c.md)) ∧ ahead = cs.map fun c => .record (c.stored prep)
  | .swap metadata => ∃ f : Contents, ahead = [.snapshot f] ∧ ∀ id x, f id = some x → metaAt metadata id = x.2

/-- The history is in three parts: before the last call, what of the call's writes the metadata show,
and what is ahead. Ids that the graph holds no more keep the metadata of before the call. -/
structure Inv (f₀ : Contents) (b : Busy D) (old done ahead : List Written) : Prop where
  wf : b.engine.graph.WF
  dim_eq : b.engine.graph.cfg.dim = b.engine.cfg.dim
  history : b.history = old ++ done ++ ahead
  base : b.base = old.length
  todo : Ahead J ahead b.todo
  vectors (id : UInt64) : (versionAfter f₀ b.history id).map (·.1) = b.engine.graph.get id
  live (id : UInt64) (x : Vec × Meta) : b.engine.graph.get id ≠ none →
    versionAfter f₀ (old ++ done) id = some x → metaAt b.engine.metadata id = x.2
  dead (id : UInt64) (x : Vec × Meta) : b.engine.graph.get id = none → (∀ w ∈ done, w.KeepsVector id) →
    versionAfter f₀ old id = some x → metaAt b.engine.metadata id = x.2

variable {crc J} {f₀ : Contents} {b : Busy D} {old done ahead : List Written}

section
omit [Hnsw.Dist D]

theorem Inv.shown_eq (h : Inv J f₀ b old done ahead) : b.shown = (old ++ done).length := by
  have hlen : b.todo.length = ahead.length := by
    have htodo := h.todo
    cases ht : b.todo with
    | nothing =>
      rw [ht] at htodo
      rw [show ahead = [] from htodo]
      rfl
    | metas items seq =>
      rw [ht] at htodo
      obtain ⟨cs, prep, rfl, rfl⟩ := htodo
      simp [Todo.length]
    | swap metadata =>
      rw [ht] at htodo
      obtain ⟨f, rfl, -⟩ := htodo
      rfl
  rw [shown, hlen, h.history, length_append, Nat.add_sub_cancel]

theorem Inv.idle_meta (h : Inv J f₀ b old done ahead) (hidle : b.todo = .nothing) (id : UInt64)
    (x : Vec × Meta) (hx : versionAfter f₀ b.history id = some x) : metaAt b.engine.metadata id = x.2 := by
  have hahead := h.todo
  rw [hidle] at hahead
  have hlive : b.engine.graph.get id ≠ none := by
    rw [← h.vectors id, hx]
    simp
  refine h.live id x hlive ?_
  rw [← hx, h.history, show ahead = [] from hahead, append_nil]

theorem Inv.idle (e : Engine D) (hs : e.Sound) : Inv J e.contents (Busy.idle e) [] [] [] where
  wf := hs.wf
  dim_eq := hs.dim_eq
  history := rfl
  base := rfl
  todo := rfl
  vectors id := congrFun e.vecs_contents id
  live _ _ _ hx := md_of_map hx
  dead _ _ _ _ hx := md_of_map hx

end

section
variable (h : Inv J f₀ b old done ahead)
include h

omit [Hnsw.Dist D] in
theorem Inv.begin (hidle : b.todo = .nothing) {b' : Busy D}
    {ahead' : List Written} (hwf : b'.engine.graph.WF) (hdim : b'.engine.graph.cfg.dim = b'.engine.cfg.dim)
    (hhistory : b'.history = b.history ++ ahead') (hbase : b'.base = b.history.length)
    (htodo : Ahead J ahead' b'.todo) (hmeta : b'.engine.metadata = b.engine.metadata)
    (hvectors : ∀ id, (versionAfter f₀ b'.history id).map (·.1) = b'.engine.graph.get id) :
    Inv J f₀ b' b.history [] ahead' where
  wf := hwf
  dim_eq := hdim
  history := by rw [hhistory, append_nil]
  base := hbase
  todo := htodo
  vectors := hvectors
  live id x _ hx := by
    rw [append_nil] at hx
    rw [hmeta, h.idle_meta hidle id x hx]
  dead id x _ _ hx := by rw [hmeta, h.idle_meta hidle id x hx]

theorem Inv.commit (hidle : b.todo = .nothing) (workers : Workers)
    (io : Wal.Outcome) (file : Bytes) {cs : List Change} (hcs : ∀ c ∈ cs, c.Valid b.engine.cfg.dim) :
    (b.commit crc J workers io file cs).history = b.history ∧
        Inv J f₀ (b.commit crc J workers io file cs) old done ahead ∨
      ∃ ws, (b.commit crc J workers io file cs).history = b.history ++ ws ∧
        Inv J f₀ (b.commit crc J workers io file cs) b.history [] ws := by
  obtain ⟨g, happly, hg⟩ := (Queue.holds_graph h.wf).applyRecords J workers (h.dim_eq ▸ hcs)
  have htodo := h.todo
  rw [hidle] at htodo
  simp only [Busy.commit, hidle, happly]
  rcases b.engine.w.appendBatch crc io file (cs.map (record J)) with ⟨w, file', err | seqs⟩
  · exact .inl ⟨rfl, h.wf, h.dim_eq, h.history, h.base, htodo, h.vectors, h.live, h.dead⟩
  · refine .inr ⟨cs.map fun c => .record (c.stored b.engine.graph.prep), rfl, h.begin hidle hg.wf ?_ rfl rfl
      ⟨cs, b.engine.graph.prep, rfl, rfl⟩ rfl fun id => ?_⟩
    · exact hg.dim_eq.trans h.dim_eq
    · have hget : g.get = _ := hg.get
      have hmap : (cs.map fun c => Written.record (c.stored b.engine.graph.prep)) =
          (cs.map (stored b.engine.graph.prep)).map .record := by simp
      simp only [versionAfter_append, hmap, versionAfter_records, vecs_applyAll, h.vectors, hget]

omit [Hnsw.Dist D] in
theorem Inv.load (hidle : b.todo = .nothing) {l : Loaded D} (synced : Bool)
    (hwf : l.graph.WF) (hdim : l.graph.cfg.dim = b.engine.cfg.dim) :
    Inv J f₀ (b.load (some (l, synced))) b.history [] [.snapshot (contentsOf l)] := by
  simp only [Busy.load, hidle]
  refine h.begin hidle hwf hdim rfl rfl ⟨_, rfl, fun id x hx => md_of_map hx⟩ rfl fun id => ?_
  simp [versionAfter, Written.act, contentsOf, comp_def]

end

omit [Hnsw.Dist D] in
theorem Inv.setMeta {c : Change} {prep : Vec → Vec}
    (h : Inv J f₀ b old done (.record (c.stored prep) :: ahead)) {e : Engine D} {todo : Todo}
    (he : e = if (b.engine.graph.get c.id).isSome ∨ (c.record J).op = opDelete
      then b.engine.setMeta c.id c.md else b.engine) (htodo : Ahead J ahead todo) :
    Inv J f₀ { b with engine := e, todo := todo } old (done ++ [.record (c.stored prep)]) ahead := by
  have hcore : e.core = b.engine.core := by
    rw [he]
    split
    · exact b.engine.setMeta_core _ _
    · rfl
  have hgraph : e.graph = b.engine.graph := congrArg (·.graph) hcore
  have hcfg : e.cfg = b.engine.cfg := congrArg (·.cfg) hcore
  have hother : ∀ id, c.id ≠ id → metaAt e.metadata id = metaAt b.engine.metadata id := by
    intro id hne
    rw [he]
    split
    · rw [b.engine.setMeta_metaAt, update_of_ne (Ne.symm hne)]
    · rfl
  refine ⟨hgraph ▸ h.wf, ?_, ?_, h.base, htodo, ?_, fun id x hlive hx => ?_, fun id x hdead hkeeps hx => ?_⟩
  · rw [hgraph, hcfg]
    exact h.dim_eq
  · rw [h.history]
    simp
  · rw [hgraph]
    exact h.vectors
  · rw [hgraph] at hlive
    rw [← append_assoc, versionAfter_append] at hx
    by_cases hid : c.id = id
    · -- The id's metadata become those of the record, which is what the version has.
      subst hid
      have hset : e = b.engine.setMeta c.id c.md := by
        rw [he, if_pos (.inl (Option.isSome_iff_ne_none.mpr hlive))]
      rw [versionAfter_stored, if_pos rfl] at hx
      rw [hset, b.engine.setMeta_metaAt, update_self, ← md_of_act hx, md_stored]
    · rw [versionAfter_stored, if_neg hid] at hx
      rw [hother id hid]
      exact h.live id x hlive hx
  · rw [hgraph] at hdead
    obtain ⟨hdone, hlast⟩ := forall_mem_append.mp hkeeps
    have hold := h.dead id x hdead hdone hx
    by_cases hid : c.id = id
    · -- An update of an id that is gone sets nothing.
      subst hid
      have hkept := hlast _ mem_cons_self
      have hskip : e = b.engine := by
        rw [he, if_neg]
        cases c with
        | update id md => simpa [Change.id, record, opMeta, opDelete] using hdead
        | insert id vector md => exact absurd rfl hkept
        | delete id => exact absurd rfl hkept
      rw [hskip, hold]
    · rw [hother id hid, hold]

omit [Hnsw.Dist D] in
theorem Inv.next (h : Inv J f₀ b old done ahead) : b.next.history = b.history ∧
    ∃ done' ahead', Inv J f₀ b.next old done' ahead' := by
  obtain ⟨e, todo, history, base⟩ := b
  have htodo := h.todo
  cases todo with
  | nothing => exact ⟨rfl, done, ahead, h⟩
  | swap metadata =>
    obtain ⟨f, rfl, hf⟩ := htodo
    refine ⟨rfl, done ++ [.snapshot f], [], h.wf, h.dim_eq, h.history.trans (by simp), h.base, rfl,
      h.vectors, fun id x _ hx => hf id x ?_, fun id x _ hkeeps _ => ?_⟩
    · rw [← hx, ← append_assoc, versionAfter_append]
      rfl
    · exact (hkeeps (.snapshot f) (by simp)).elim
  | metas items seq =>
    obtain ⟨cs, prep, rfl, rfl⟩ := htodo
    cases cs with
    | nil =>
      exact ⟨rfl, done, [], h.wf, h.dim_eq, h.history, h.base, rfl, h.vectors, h.live, h.dead⟩
    | cons c cs =>
      refine ⟨rfl, _, _, Inv.setMeta h ?_ ⟨cs, prep, rfl, rfl⟩⟩
      simp only [record_id]

def Valid (b : Busy D) : WriteEvent → Prop
  | .commit _ _ _ cs => ∀ c ∈ cs, c.Valid b.engine.cfg.dim
  | _ => True

variable (crc) in
theorem Inv.step (h : Inv J f₀ b old done ahead) {ev : WriteEvent} (hv : b.Valid ev) :
    ((b.step crc J ev).history = b.history ∧
        ∃ done' ahead', Inv J f₀ (b.step crc J ev) old done' ahead') ∨
      ∃ ws, (b.step crc J ev).history = b.history ++ ws ∧ Inv J f₀ (b.step crc J ev) b.history [] ws := by
  by_cases hidle : b.todo = .nothing
  · cases ev with
    | next => exact .inl h.next
    | commit workers io file cs =>
      rcases h.commit hidle workers io file hv with ⟨hhistory, hinv⟩ | hnew
      · exact .inl ⟨hhistory, done, ahead, hinv⟩
      · exact .inr hnew
    | load M rng snapshot metadata seq d faults =>
      cases hrun : ((loadSnapshot J M b.engine.cfg rng snapshot metadata seq).run d faults).1 with
      | none =>
        rw [Busy.step, hrun]
        exact .inl ⟨rfl, done, ahead, h⟩
      | some out =>
        obtain ⟨l, synced⟩ := out
        obtain ⟨file, md, hload, -⟩ := loadSnapshot_loaded hrun
        rw [Busy.step, hrun]
        have hdim := congrArg (·.1.dim) (Segment.load_settings hload)
        refine .inr ⟨_, ?_, h.load hidle synced (Segment.load_wf hload) hdim⟩
        simp only [Busy.load, hidle]
  · cases ev with
    | next => exact .inl h.next
    | commit workers io file cs =>
      rw [Busy.step, commit_busy hidle]
      exact .inl ⟨rfl, done, ahead, h⟩
    | load M rng snapshot metadata seq d faults =>
      rw [Busy.step, load_busy hidle]
      exact .inl ⟨rfl, done, ahead, h⟩

end Shown

end Busy

end NuclaDB
