import NuclaDB.EngineOpen
import NuclaDB.HnswContents

/-!
# The engine as a map from ids to vectors and metadata

`Contents` is what a database is for its users. Group commit, replication and replay treat
metadata in three ways, which come to the same map.
-/

namespace NuclaDB

open LittleEndian Hnsw KeyedLog Function Wal Std List Change

abbrev Contents := UInt64 → Option (Vec × Meta)

namespace Change

def act : Change → Option (Vec × Meta) → Option (Vec × Meta)
  | .insert _ vector md, _ => some (vector, md)
  | .delete _, _ => none
  | .update _ md, x => x.map fun p => (p.1, md)

def vecAct : Change → Option Vec → Option Vec
  | .insert _ vector _, _ => some vector
  | .delete _, _ => none
  | .update _ _, x => x

variable (prep : Vec → Vec)

def stored : Change → Change
  | .insert id vector md => .insert id (prep vector) md
  | .delete id => .delete id
  | .update id md => .update id md

@[simp] theorem id_stored (c : Change) : (c.stored prep).id = c.id := by
  cases c <;> rfl

@[simp] theorem md_stored (c : Change) : (c.stored prep).md = c.md := by
  cases c <;> rfl

theorem op_stored (J : Codec) (prep : Vec → Vec) (c : Change) :
    ((c.stored prep).record J).op = (c.record J).op := by
  cases c <;> rfl

theorem map_stored {prep : Vec → Vec} (hprep : ∀ v, prep v = v) (cs : List Change) :
    cs.map (stored prep) = cs := by
  apply map_id''
  intro c
  cases c <;> simp [stored, hprep]

theorem putAll_stored {V : Type} {act : Change → V → V} (prep : Vec → Vec)
    (hact : ∀ c : Change, act (c.stored prep) = act c) (f : UInt64 → V) (cs : List Change) :
    putAll Change.id act f (cs.map (stored prep)) = putAll Change.id act f cs := by
  simp only [putAll_map, id_stored, hact]

end Change

def applyAll (f : Contents) (cs : List Change) : Contents := putAll Change.id act f cs

def metaAt (metadata : Metadata) (id : UInt64) : Meta := metadata[id]?.getD ∅

variable {D : Type}

def Engine.contents (e : Engine D) : Contents := fun id =>
  (e.graph.get id).map fun v => (v, metaAt e.metadata id)

section Metadata

theorem md_of_map {v : Option Vec} {md : Meta} {p : Vec × Meta}
    (h : (v.map fun v => (v, md)) = some p) : md = p.2 := by
  obtain ⟨v, -, rfl⟩ := Option.map_eq_some_iff.mp h
  rfl

variable (metadata : Metadata)

theorem metaAt_insert (id : UInt64) (md : Meta) :
    metaAt (metadata.insert id md) = update (metaAt metadata) id md := by
  funext id'
  simp only [metaAt, ExtTreeMap.getElem?_insert, LawfulEqCmp.compare_eq_iff_eq]
  by_cases hid : id = id'
  · subst hid
    simp
  · rw [update_of_ne (Ne.symm hid), if_neg hid]
    rfl

theorem metaAt_erase (id : UInt64) :
    metaAt (metadata.erase id) = update (metaAt metadata) id ∅ := by
  funext id'
  simp only [metaAt, ExtTreeMap.getElem?_erase, LawfulEqCmp.compare_eq_iff_eq]
  by_cases hid : id = id'
  · subst hid
    simp
  · rw [update_of_ne (Ne.symm hid), if_neg hid]
    rfl

theorem metaAt_filter (live : UInt64 → Bool) (id : UInt64) :
    metaAt (metadata.filter fun id _ => live id) id = if live id then metaAt metadata id else ∅ := by
  simp only [metaAt, ExtTreeMap.getElem?_filter, ExtTreeMap.getKey_eq]
  cases metadata[id]? with
  | none => simp
  | some md => cases live id <;> simp [Option.filter]

theorem decodeExtra_extra (J : Codec) (md : Meta) : decodeExtra J (extra J md) = some md := by
  simp only [decodeExtra, extra]
  by_cases hmd : md.isEmpty = true
  · simp only [hmd, if_true, length_nil]
    rw [ExtTreeMap.isEmpty_iff.mp hmd]
  · have hne : (J.md.marshal md).length ≠ 0 := by simpa using J.md.marshal_ne_nil md
    simp [hmd, hne, J.md.unmarshal_marshal]

namespace Engine

theorem setMeta_metaAt (e : Engine D) (id : UInt64) (md : Meta) :
    metaAt (e.setMeta id md).metadata = update (metaAt e.metadata) id md := by
  simp only [setMeta]
  split
  · next hmd => rw [metaAt_erase, ExtTreeMap.isEmpty_iff.mp hmd]
  · exact metaAt_insert ..

def core (e : Engine D) : Engine D := { e with metadata := ∅, postings := ∅ }

theorem setMeta_core (e : Engine D) (id : UInt64) (md : Meta) : (e.setMeta id md).core = e.core := by
  simp only [setMeta]
  split <;> rfl

end Engine

end Metadata

section Vectors
variable [Hnsw.Dist D]

structure Queue.Holds (g : Graph D) (q : Queue D) (f : UInt64 → Option Vec) : Prop where
  wf : q.graph.WF
  settings : q.graph.settings = g.settings
  items : ∀ it ∈ q.items, validateVector it.2 g.cfg.dim = .ok ()
  get : putVecs q.graph.get (prepared g.prep q.items) = f

namespace Queue

variable {g : Graph D} {q : Queue D} {f : UInt64 → Option Vec}

theorem holds_graph (hw : g.WF) : Holds g ⟨g, []⟩ g.get := ⟨hw, rfl, by simp, rfl⟩

theorem Holds.dim_eq (hq : q.Holds g f) : q.graph.cfg.dim = g.cfg.dim :=
  congrArg (·.1.dim) hq.settings

theorem Holds.flush (hq : q.Holds g f) (workers : Workers) :
    ∃ h, q.flush workers = .ok ⟨h, []⟩ ∧ Holds g ⟨h, []⟩ f := by
  have hok : q.graph.insertBatch workers (q.items.map (·.1)) (q.items.map (·.2)) = .ok _ :=
    Graph.insertBatch_eq_ok.mpr ⟨hq.dim_eq ▸ hq.items, rfl⟩
  obtain ⟨hw, hset, hget⟩ := hq.wf.insertBatch hok
  rw [Graph.prep_of_settings hq.settings] at hget
  refine ⟨_, ?_, hw, hset.trans hq.settings, by simp, hget.trans hq.get⟩
  simp only [Queue.flush, hok]

theorem Holds.push (hq : q.Holds g f) {rec : Record}
    (hrec : validateVector rec.vector g.cfg.dim = .ok ()) :
    (q.push rec).Holds g (update f rec.id (some (g.prep rec.vector))) := by
  obtain ⟨hw, hset, hitems, rfl⟩ := hq
  refine ⟨hw, hset, ?_, ?_⟩
  · exact forall_mem_append.mpr ⟨hitems, forall_mem_singleton.mpr hrec⟩
  · rw [Queue.push, prepared, map_append, putVecs, putAll_append]
    rfl

theorem Holds.drop {h : Graph D} (hq : Holds g ⟨h, []⟩ f) (id : UInt64) :
    (Queue.drop ⟨h, []⟩ id).Holds g (update f id none) := by
  obtain ⟨hw, hset, -, rfl⟩ := hq
  exact ⟨Step.wf (s := .delete id) hw trivial, ((Step.delete id).apply_settings h).trans hset,
    by simp [Queue.drop], hw.shape.slotted.get_delete id⟩

end Queue

theorem Queue.Holds.applyRecords {g : Graph D} (J : Codec) (workers : Workers) {q : Queue D}
    {f : UInt64 → Option Vec} (hq : q.Holds g f) {cs : List Change}
    (hcs : ∀ c ∈ cs, c.Valid g.cfg.dim) :
    ∃ h, Queue.applyRecords workers q (cs.map (record J)) = (h, none) ∧
      Holds g ⟨h, []⟩ (putAll Change.id vecAct f (cs.map (stored g.prep))) := by
  induction cs generalizing q f with
  | nil =>
    obtain ⟨h, hflush, hh⟩ := hq.flush workers
    exact ⟨h, by simp [Queue.applyRecords, hflush], hh⟩
  | cons c cs ih =>
    obtain ⟨hc, hrest⟩ := forall_mem_cons.mp hcs
    cases c with
    | insert id vector md =>
      have hpush : (q.push (record J (.insert id vector md))).Holds g
          (update f id (some (g.prep vector))) := hq.push hc
      exact ih hpush hrest
    | delete id =>
      obtain ⟨h, hflush, hh⟩ := hq.flush workers
      obtain ⟨h', happly, hh'⟩ := ih (hh.drop id) hrest
      refine ⟨h', ?_, hh'⟩
      simpa [Queue.applyRecords, record, hflush, opInsert, opDelete] using happly
    | update id md =>
      have hsame : put Change.id vecAct f ((Change.update id md).stored g.prep) = f :=
        update_eq_self id f
      simp only [map_cons, putAll_cons, hsame]
      exact ih hq hrest

end Vectors

section Commit
variable [Hnsw.Dist D] {e : Engine D} (J : Codec)

structure Engine.Sound (e : Engine D) : Prop where
  wf : e.graph.WF
  dim_eq : e.graph.cfg.dim = e.cfg.dim
  metadata (id : UInt64) : e.graph.get id = none → metaAt e.metadata id = ∅

structure Engine.Became (e e' : Engine D) (f : Contents) : Prop where
  sound : e'.Sound
  cfg : e'.cfg = e.cfg
  settings : e'.graph.settings = e.graph.settings
  snapshotSeq : e'.snapshotSeq = e.snapshotSeq
  contents : e'.contents = f

def Change.gatedAct (live : UInt64 → Bool) (c : Change) (md : Meta) : Meta :=
  if live c.id ∨ (c.record J).op = opDelete then c.md else md

theorem Change.record_id (c : Change) : (c.record J).id = c.id := by
  cases c <;> rfl

theorem Change.gatedAct_stored (live : UInt64 → Bool) (prep : Vec → Vec) (c : Change) :
    gatedAct J live (c.stored prep) = gatedAct J live c := by
  funext md
  simp only [gatedAct, id_stored, md_stored, op_stored]

omit [Hnsw.Dist D] in
theorem Engine.setMetas_spec (g : Graph D) (cs : List Change) (e : Engine D) :
    (e.setMetas g (cs.map (record J)) (cs.map md)).core = e.core ∧
      metaAt (e.setMetas g (cs.map (record J)) (cs.map md)).metadata =
        putAll Change.id (gatedAct J fun id => (g.get id).isSome) (metaAt e.metadata) cs := by
  induction cs generalizing e with
  | nil => exact ⟨rfl, rfl⟩
  | cons c cs ih =>
    simp only [Engine.setMetas, map_cons, zip_cons_cons, foldl_cons, putAll_cons, record_id]
    split
    · next hset =>
      obtain ⟨hcore, hmeta⟩ := ih (e.setMeta c.id c.md)
      refine ⟨hcore.trans (e.setMeta_core ..), hmeta.trans ?_⟩
      rw [e.setMeta_metaAt, put, gatedAct, if_pos hset]
    · next hset =>
      obtain ⟨hcore, hmeta⟩ := ih e
      refine ⟨hcore, hmeta.trans ?_⟩
      rw [put, gatedAct, if_neg hset, update_eq_self]

theorem vecs_applyAll (f : Contents) (cs : List Change) (id : UInt64) : (applyAll f cs id).map (·.1) =
      putAll Change.id vecAct (fun id => (f id).map (·.1)) cs id := by
  apply putAll_keeps (R := fun (v : Option (Vec × Meta)) (w : Option Vec) => v.map (·.1) = w)
  · rintro c - - v w rfl
    cases c <;> simp [act, vecAct, comp_def]
  · rfl

omit [Hnsw.Dist D] in
theorem Engine.vecs_contents (e : Engine D) : (fun id => (e.contents id).map (·.1)) = e.graph.get := by
  funext id
  simp [Engine.contents, comp_def]

theorem Change.md_of_act {c : Change} {v : Option (Vec × Meta)} {p : Vec × Meta}
    (h : c.act v = some p) : c.md = p.2 := by
  cases c with
  | insert id vector md =>
    simp only [act, Option.some.injEq] at h
    rw [← h]
    rfl
  | delete id => simp [act] at h
  | update id md =>
    simp only [act, Option.map_eq_some_iff] at h
    obtain ⟨q, -, rfl⟩ := h
    rfl

theorem gated_of_live {live : UInt64 → Bool} {id : UInt64} (hlive : live id = true)
    {f : Contents} {m : UInt64 → Meta} (hm : ∀ p, f id = some p → m id = p.2) (cs : List Change) :
    ∀ p, applyAll f cs id = some p → putAll Change.id (gatedAct J live) m cs id = p.2 := by
  apply putAll_settles (R := fun (v : Option (Vec × Meta)) (w : Meta) => ∀ p, v = some p → w = p.2)
  · rintro c - rfl v w p hp
    rw [gatedAct, if_pos (.inl hlive)]
    exact md_of_act hp
  · exact fun _ => hm

theorem gated_of_dead {live : UInt64 → Bool} {id : UInt64} (hlive : live id = false)
    {f : Contents} {m : UInt64 → Meta} (hm : f id = none → m id = ∅) (cs : List Change) :
    applyAll f cs id = none → putAll Change.id (gatedAct J live) m cs id = ∅ := by
  apply putAll_keeps (R := fun (v : Option (Vec × Meta)) (w : Meta) => v = none → w = ∅)
  · rintro c - rfl v w hvw hv
    cases c with
    | insert id vector md => simp [act] at hv
    | delete id => simp [gatedAct, record, md]
    | update id md =>
      simp only [act, Option.map_eq_none_iff] at hv
      simpa [gatedAct, hlive, record, opMeta, opDelete] using hvw hv
  · exact hm

omit [Hnsw.Dist D] in
theorem Engine.Sound.gated (hs : e.Sound) (J : Codec) (cs : List Change) {g : Graph D}
    (hg : g.get = putAll Change.id vecAct e.graph.get cs) (id : UInt64) :
    let md := putAll Change.id (gatedAct J fun id => (g.get id).isSome) (metaAt e.metadata) cs
    ((g.get id).map fun v => (v, md id)) = applyAll e.contents cs id ∧
      (g.get id = none → md id = ∅) := by
  intro md
  have hvecs : (applyAll e.contents cs id).map (·.1) = g.get id := by
    rw [vecs_applyAll, e.vecs_contents, hg]
  cases happly : applyAll e.contents cs id with
  | none =>
    have hget : g.get id = none := by simpa [happly] using hvecs.symm
    have hstart : e.contents id = none → metaAt e.metadata id = ∅ := fun h =>
      hs.metadata id (by simpa [Engine.contents] using h)
    exact ⟨by simp [hget], fun _ => gated_of_dead J (by simp [hget]) hstart cs happly⟩
  | some p =>
    have hget : g.get id = some p.1 := by simpa [happly] using hvecs.symm
    have hstart : ∀ p, e.contents id = some p → metaAt e.metadata id = p.2 := fun p => md_of_map
    have hmd : md id = p.2 := gated_of_live J (by simp [hget]) hstart cs p happly
    exact ⟨by simp [hget, hmd], by simp [hget]⟩

theorem Engine.Sound.became (hs : e.Sound) (J : Codec) (cs : List Change) {e' : Engine D}
    {g : Graph D} (hg : Queue.Holds e.graph ⟨g, []⟩ (putAll Change.id vecAct e.graph.get cs))
    (hmeta : metaAt e'.metadata = putAll Change.id
      (gatedAct J fun id => (g.get id).isSome) (metaAt e.metadata) cs)
    (hgraph : e'.graph = g) (hcfg : e'.cfg = e.cfg) (hsnap : e'.snapshotSeq = e.snapshotSeq) :
    e.Became e' (applyAll e.contents cs) := by
  subst hgraph
  have hhalves := hs.gated J cs hg.get
  simp only [← hmeta] at hhalves
  have hset : e'.graph.settings = e.graph.settings := hg.settings
  refine ⟨⟨hg.wf, ?_, fun id => (hhalves id).2⟩, hcfg, hset, hsnap, funext fun id => (hhalves id).1⟩
  rw [hcfg]
  exact (congrArg (·.1.dim) hset).trans hs.dim_eq

theorem Engine.Sound.commit (hs : e.Sound) (crc : Bytes → UInt32) (J : Codec) (workers : Workers)
    {io : Wal.Outcome} {file file' : Bytes} {w : Writer} {seqs : List UInt64}
    {cs : List Change} (hcs : ∀ c ∈ cs, c.Valid e.cfg.dim)
    (hlog : e.w.appendBatch crc io file (cs.map (record J)) = (w, file', .ok seqs)) :
    ∃ e', e.commit crc J workers io file cs = (e', file', .ok ()) ∧
      e.Became e' (applyAll e.contents (cs.map (stored e.graph.prep))) ∧ e'.w = w ∧
      e'.seq = seqs.getLastD e.seq := by
  obtain ⟨g, happly, hg⟩ := (Queue.holds_graph hs.wf).applyRecords J workers (hs.dim_eq ▸ hcs)
  obtain ⟨hcore, hmeta⟩ := Engine.setMetas_spec J g cs { e with w := w, graph := g }
  rw [← putAll_stored e.graph.prep (gatedAct_stored J _ _)] at hmeta
  have hseq := congrArg (·.seq) hcore
  simp only [Engine.core] at hseq
  refine ⟨{ ({ e with w := w, graph := g } : Engine D).setMetas g (cs.map (record J))
    (cs.map md) with seq := seqs.getLastD e.seq }, ?_, hs.became J _ hg hmeta
    (congrArg (·.graph) hcore) (congrArg (·.cfg) hcore) (congrArg (·.snapshotSeq) hcore),
    congrArg (·.w) hcore, rfl⟩
  simp only [Engine.commit, Engine.commitLocked, hlog, happly, hseq]

def Change.logged (seq : UInt64) (c : Change) : Record :=
  { c.record J with seq := seq }

theorem Engine.Sound.setMeta_became (hs : e.Sound) (J : Codec) {c : Change} {g : Graph D}
    (hg : Queue.Holds e.graph ⟨g, []⟩ (put Change.id vecAct e.graph.get c))
    (hset : (g.get c.id).isSome ∨ (c.record J).op = opDelete) :
    e.Became (({ e with graph := g } : Engine D).setMeta c.id c.md) (applyAll e.contents [c]) ∧
      (({ e with graph := g } : Engine D).setMeta c.id c.md).w = e.w := by
  have hcore := ({ e with graph := g } : Engine D).setMeta_core c.id c.md
  refine ⟨hs.became J [c] hg ?_ (congrArg (·.graph) hcore) (congrArg (·.cfg) hcore)
    (congrArg (·.snapshotSeq) hcore), congrArg (·.w) hcore⟩
  rw [Engine.setMeta_metaAt, putAll_cons, putAll_nil, put, gatedAct, if_pos hset]

section Logged
variable (J : Codec) (seq id : UInt64) (vector : Vec) (md : Meta)

@[simp] theorem Change.logged_insert : (Change.insert id vector md).logged J seq =
    ⟨seq, opInsert, id, vector, extra J md⟩ := rfl

@[simp] theorem Change.logged_delete : (Change.delete id).logged J seq =
    ⟨seq, opDelete, id, [], []⟩ := rfl

@[simp] theorem Change.logged_update : (Change.update id md).logged J seq =
    ⟨seq, opMeta, id, [], extra J md⟩ := rfl

end Logged

theorem Engine.Sound.insert_holds (hs : e.Sound) (id : UInt64) {vector : Vec}
    (hvec : validateVector vector e.cfg.dim = .ok ()) :
    ∃ g, e.graph.insert id vector = .ok g ∧ Queue.Holds e.graph ⟨g, []⟩
        (update e.graph.get id (some (e.graph.prep vector))) := by
  have hok : validateVector vector e.graph.cfg.dim = .ok () := hs.dim_eq ▸ hvec
  have hlen := (e.graph.prep_length vector).trans (validateVector_length hok)
  refine ⟨e.graph.insertLocked id (e.graph.prep vector), ?_, hs.wf.insertLocked id hlen,
    (Step.insert id vector).apply_settings e.graph, by simp, hs.wf.get_insertLocked id hlen⟩
  simp only [Graph.insert, hok]
  rfl

theorem Engine.Sound.applyRecord (hs : e.Sound) (J : Codec) {c : Change} (hc : c.Valid e.cfg.dim)
    (seq : UInt64) : ∃ e', e.applyRecord J (c.logged J seq) = (e', none) ∧
      e.Became e' (applyAll e.contents [c.stored e.graph.prep]) ∧ e'.w = e.w := by
  cases c with
  | insert id vector md =>
    obtain ⟨g, hins, hg⟩ := hs.insert_holds id hc
    have hlive : (g.get id).isSome := by
      have hget : g.get = _ := hg.get
      simp [hget]
    refine ⟨_, ?_, hs.setMeta_became J (c := .insert id (e.graph.prep vector) md) hg (.inl hlive)⟩
    simp [Engine.applyRecord, hins, decodeExtra_extra, Change.id, Change.md]
  | delete id =>
    refine ⟨_, ?_, hs.setMeta_became J (c := .delete id) ((Queue.holds_graph hs.wf).drop id)
      (.inr rfl)⟩
    simp [Engine.applyRecord, Change.id, Change.md]
  | update id md =>
    have hsame : put Change.id Change.vecAct e.graph.get (.update id md) = e.graph.get :=
      update_eq_self id e.graph.get
    have hg : Queue.Holds e.graph ⟨e.graph, []⟩
        (put Change.id Change.vecAct e.graph.get (.update id md)) := by
      rw [hsame]
      exact Queue.holds_graph hs.wf
    have happly : e.applyRecord J ((Change.update id md).logged J seq) =
        (if (e.graph.get id).isSome then e.setMeta id md else e, none) := by
      simp only [Engine.applyRecord, Engine.applyMeta, Change.logged_update, decodeExtra_extra,
        opMeta_ne_opInsert, opMeta_ne_opDelete, if_true, if_false]
      rfl
    rw [happly]
    by_cases hlive : (e.graph.get id).isSome = true
    · rw [if_pos hlive]
      exact ⟨_, rfl, hs.setMeta_became J hg (.inl hlive)⟩
    · rw [if_neg hlive]
      refine ⟨e, rfl, hs.became J [.update id md] hg ?_ rfl rfl rfl, rfl⟩
      simp [put, Change.gatedAct, Change.id, Change.record, hlive]

theorem Engine.Sound.applyReplicated (hs : e.Sound) (crc : Bytes → UInt32) (J : Codec)
    {io : Wal.Outcome} {file file' : Bytes} {w : Writer} {c : Change} {seq : UInt64}
    (hc : c.Valid e.cfg.dim)
    (hlog : e.w.appendRecord crc io file (c.logged J seq) = (w, file', .ok ())) :
    ∃ e', e.applyReplicated crc J io file (c.logged J seq) = (e', file', .ok ()) ∧
      e.Became e' (applyAll e.contents [c.stored e.graph.prep]) ∧ e'.w = w ∧ e'.seq = seq := by
  have hs' : ({ e with w := w } : Engine D).Sound := ⟨hs.wf, hs.dim_eq, hs.metadata⟩
  obtain ⟨e', happly, hb, hw⟩ := hs'.applyRecord J hc seq
  refine ⟨{ e' with seq := seq }, ?_, ?_, hw, rfl⟩
  · simp only [Engine.applyReplicated, hlog, happly]
    rfl
  · obtain ⟨⟨h1, h2, h3⟩, hcfg, hset, hsnap, hcontents⟩ := hb
    exact ⟨⟨h1, h2, h3⟩, hcfg, hset, hsnap, hcontents⟩

end Commit

section Replay
variable [Hnsw.Dist D] {g : Graph D} {f : UInt64 → Option Vec} {snapshotSeq : UInt64}

def Change.rawAct (c : Change) (_ : Meta) : Meta := c.md

theorem Change.rawAct_stored (prep : Vec → Vec) (c : Change) :
    rawAct (c.stored prep) = rawAct c := by
  funext md
  exact md_stored prep c

theorem raw_of_live {f : Contents} {m : UInt64 → Meta} {cs : List Change} {id : UInt64}
    (hm : (∀ c ∈ cs, c.id ≠ id) → ∀ p, f id = some p → m id = p.2) :
    ∀ p, applyAll f cs id = some p → putAll Change.id rawAct m cs id = p.2 := by
  apply putAll_settles (R := fun (v : Option (Vec × Meta)) (w : Meta) => ∀ p, v = some p → w = p.2)
  · rintro c - - v w p hp
    exact md_of_act hp
  · exact hm

theorem replayMeta_extra (J : Codec) (metadata : Metadata) (rec : Record) {md : Meta}
    (hrec : rec.extra = extra J md) :
    ∃ metadata', replayMeta J metadata rec = .ok metadata' ∧
      metaAt metadata' = update (metaAt metadata) rec.id md := by
  simp only [replayMeta, hrec]
  by_cases hmd : md.isEmpty = true
  · refine ⟨metadata.erase rec.id, by simp [extra, hmd], ?_⟩
    rw [metaAt_erase, ExtTreeMap.isEmpty_iff.mp hmd]
  · have hne : 0 < (J.md.marshal md).length := length_pos_iff.mpr (J.md.marshal_ne_nil md)
    exact ⟨metadata.insert rec.id md, by simp [extra, hmd, hne, J.md.unmarshal_marshal],
      metaAt_insert ..⟩

section
variable (J : Codec) (workers : Workers)

theorem replayRecord_spec {s : Replay D} (hq : s.queue.Holds g f) {c : Change}
    (hc : c.Valid g.cfg.dim) (hnew : snapshotSeq < s.lastSeq + 1) :
    ∃ s', replayRecord J workers snapshotSeq s (c.logged J (s.lastSeq + 1)) = .ok s' ∧
      s'.queue.Holds g (put Change.id vecAct f (c.stored g.prep)) ∧
      metaAt s'.metadata = put Change.id rawAct (metaAt s.metadata) c ∧
      s'.lastSeq = s.lastSeq + 1 := by
  have hnot : ¬ s.lastSeq + 1 ≤ snapshotSeq := by simpa using hnew
  cases c with
  | insert id vector md =>
    obtain ⟨metadata, hreplay, hmeta⟩ := replayMeta_extra J s.metadata
      ⟨s.lastSeq + 1, opInsert, id, vector, extra J md⟩ rfl
    refine ⟨⟨s.queue.push ⟨s.lastSeq + 1, opInsert, id, vector, extra J md⟩, metadata,
      s.lastSeq + 1⟩, ?_, hq.push hc, hmeta, rfl⟩
    simp [replayRecord, hnot, hreplay]
  | delete id =>
    obtain ⟨h, hflush, hh⟩ := hq.flush workers
    refine ⟨⟨Queue.drop ⟨h, []⟩ id, s.metadata.erase id, s.lastSeq + 1⟩, ?_, hh.drop id,
      metaAt_erase .., rfl⟩
    simp [replayRecord, hnot, hflush]
  | update id md =>
    obtain ⟨metadata, hreplay, hmeta⟩ := replayMeta_extra J s.metadata
      ⟨s.lastSeq + 1, opMeta, id, [], extra J md⟩ rfl
    have hsame : put Change.id vecAct f ((Change.update id md).stored g.prep) = f :=
      update_eq_self id f
    refine ⟨⟨s.queue, metadata, s.lastSeq + 1⟩, ?_, hsame.symm ▸ hq, hmeta, rfl⟩
    simp [replayRecord, hnot, hreplay]

theorem replay_new {s : Replay D}
    (hq : s.queue.Holds g f) {cs : List Change} (hcs : ∀ c ∈ cs, c.Valid g.cfg.dim)
    (hle : snapshotSeq ≤ s.lastSeq) (hroom : s.lastSeq.toNat + cs.length < 2 ^ 64) :
    ∃ s', (Writer.assignSeqs (s.lastSeq + 1) (cs.map (record J))).foldlM
        (replayRecord J workers snapshotSeq) s = .ok s' ∧
      s'.queue.Holds g (putAll Change.id vecAct f (cs.map (stored g.prep))) ∧
      metaAt s'.metadata = putAll Change.id rawAct (metaAt s.metadata) cs ∧
      s'.lastSeq = s.lastSeq + UInt64.ofNat cs.length := by
  induction cs generalizing s f with
  | nil => exact ⟨s, rfl, hq, rfl, by simp⟩
  | cons c cs ih =>
    obtain ⟨hc, hrest⟩ := forall_mem_cons.mp hcs
    simp only [length_cons] at hroom
    have hnext := toNat_add_one (n := s.lastSeq) (by omega)
    have hnew := lt_add_one_of_le hle (by omega)
    obtain ⟨s₁, hstep, hq₁, hmeta₁, hseq₁⟩ := replayRecord_spec J workers hq hc hnew
    have hle₁ : snapshotSeq ≤ s₁.lastSeq := hseq₁ ▸ UInt64.le_of_lt hnew
    have hroom₁ : s₁.lastSeq.toNat + cs.length < 2 ^ 64 := by
      rw [hseq₁, hnext]
      omega
    obtain ⟨s₂, hfold, hq₂, hmeta₂, hseq₂⟩ := ih hq₁ hrest hle₁ hroom₁
    refine ⟨s₂, ?_, hq₂, hmeta₂.trans (by rw [hmeta₁, putAll_cons]), ?_⟩
    · rw [← hfold, hseq₁]
      simp only [map_cons, Writer.assignSeqs, foldlM_cons]
      rw [show { c.record J with seq := s.lastSeq + 1 } = c.logged J (s.lastSeq + 1) from rfl, hstep]
      rfl
    · rw [hseq₂, hseq₁, length_cons, UInt64.ofNat_add, UInt64.add_assoc]
      congr 1
      exact UInt64.add_comm ..

theorem replay_old (s : Replay D) {recs : List Record} (hold : ∀ r ∈ recs, r.seq ≤ snapshotSeq) :
    recs.foldlM (replayRecord J workers snapshotSeq) s = .ok s := by
  induction recs with
  | nil => rfl
  | cons r recs ih =>
    obtain ⟨hr, hrest⟩ := forall_mem_cons.mp hold
    rw [foldlM_cons, replayRecord, if_pos hr]
    exact ih hrest

end

theorem finishReplay_spec (workers : Workers) {s : Replay D}
    (hq : s.queue.Holds g f) : ∃ h metadata, finishReplay workers s = .ok (h, metadata) ∧
      Queue.Holds g ⟨h, []⟩ f ∧
      ∀ id, metaAt metadata id = if (f id).isSome then metaAt s.metadata id else ∅ := by
  obtain ⟨h, hflush, hh⟩ := hq.flush workers
  have hget : h.get = f := hh.get
  refine ⟨h, s.metadata.filter fun id _ => (h.get id).isSome, ?_, hh, fun id => ?_⟩
  · simp only [finishReplay, hflush]
  · rw [metaAt_filter s.metadata (fun id => (h.get id).isSome), hget]

/-- The metadata may be newer than the graph, as long as the records that the graph lacks are among
those replayed. -/
theorem openFrom_spec (J : Codec) (cfg : Config D) (workers : Workers) (start : Contents)
    (metadata : Metadata) (snapshotSeq : UInt64) (old : List Record) (cs : List Change)
    (hw : g.WF) (hdim : g.cfg.dim = cfg.dim)
    (hget : g.get = fun id => (start id).map (·.1))
    (hmeta : ∀ id, (∀ c ∈ cs, c.id ≠ id) → ∀ p, start id = some p → metaAt metadata id = p.2)
    (hold : ∀ r ∈ old, r.seq ≤ snapshotSeq) (hcs : ∀ c ∈ cs, c.Valid cfg.dim)
    (hroom : snapshotSeq.toNat + cs.length < 2 ^ 64) :
    ∃ e, openFrom J cfg workers g snapshotSeq metadata
        (old ++ Writer.assignSeqs (snapshotSeq + 1) (cs.map (record J))) = .ok e ∧
      e.Sound ∧ e.contents = applyAll start (cs.map (stored g.prep)) ∧ e.cfg = cfg ∧
      e.graph.settings = g.settings ∧ e.seq = snapshotSeq + UInt64.ofNat cs.length ∧ e.w = ⟨e.seq + 1, false, false⟩ ∧
      e.snapshotSeq = snapshotSeq := by
  obtain ⟨s, hfold, hq, hraw, hseq⟩ := replay_new J workers
    (s := ⟨⟨g, []⟩, metadata, snapshotSeq⟩) (Queue.holds_graph hw) (hdim ▸ hcs) (UInt64.le_refl _)
    hroom
  have hall : (old ++ Writer.assignSeqs (snapshotSeq + 1) (cs.map (record J))).foldlM
      (replayRecord J workers snapshotSeq) ⟨⟨g, []⟩, metadata, snapshotSeq⟩ = .ok s := by
    rw [foldlM_append, replay_old J workers _ hold]
    exact hfold
  obtain ⟨h, md, hfinish, hh, hmd⟩ := finishReplay_spec workers hq
  have hget' : h.get = putAll Change.id vecAct g.get (cs.map (stored g.prep)) := hh.get
  have hvecs : ∀ id, h.get id = (applyAll start (cs.map (stored g.prep)) id).map (·.1) := by
    intro id
    rw [hget', vecs_applyAll, hget]
  have hmd' : ∀ id p, applyAll start (cs.map (stored g.prep)) id = some p →
      metaAt md id = p.2 := by
    intro id p hp
    have hlive : (h.get id).isSome := by simp [hvecs, hp]
    rw [hmd, ← hget', if_pos hlive, hraw, ← putAll_stored g.prep (rawAct_stored _)]
    refine raw_of_live ?_ p hp
    intro hne
    exact hmeta id fun c hc => id_stored g.prep c ▸ hne _ (mem_map_of_mem hc)
  have hset : h.settings = g.settings := hh.settings
  refine ⟨⟨cfg, h, ⟨s.lastSeq + 1, false, false⟩, s.lastSeq, snapshotSeq, md, buildPostings md⟩, ?_,
    ⟨hh.wf, (congrArg (·.1.dim) hset).trans hdim, ?_⟩, ?_, rfl, hset, hseq, rfl, rfl⟩
  · simp only [openFrom, hall, hfinish]
  · intro id hnone
    have hnone' : h.get id = none := hnone
    rw [hmd, ← hget', hnone']
    rfl
  · funext id
    simp only [Engine.contents, hvecs]
    cases happly : applyAll start (cs.map (stored g.prep)) id with
    | none => rfl
    | some p => simp [hmd' id p happly]

theorem openEngine_empty (crc : Bytes → UInt32) (J : Codec) (cfg : Config D) (workers : Workers)
    (rng : ℕ → ℕ) :
    ∃ e, openEngine crc J cfg workers rng Disk.empty = .ok (e, ⟨none, none, some [], none⟩) ∧
      e.Sound ∧ e.contents = (fun _ => none) ∧ e.cfg = cfg ∧
      e.graph.settings = (new cfg rng).settings ∧ e.seq = 0 ∧ e.w = ⟨1, false, false⟩ ∧
      e.snapshotSeq = 0 := by
  obtain ⟨e, hopen, hs, hcontents, hcfg, hset, hseq, hw, hsnap⟩ := openFrom_spec J cfg workers
    (fun _ => none) ∅ 0 [] [] (Graph.new_wf cfg rng) rfl rfl (by simp) (by simp) (by simp)
    (by simp)
  have hempty : openEngine crc J cfg workers rng Disk.empty = .ok (e, ⟨none, none, some [], none⟩) :=
    openEngine_of_missing rfl rfl rfl hopen
  have hseq' : e.seq = 0 := hseq
  refine ⟨e, hempty, hs, hcontents, hcfg, hset, hseq', ?_, hsnap⟩
  rw [hw, hseq']
  rfl

end Replay

end NuclaDB
