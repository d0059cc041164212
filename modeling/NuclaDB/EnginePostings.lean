import NuclaDB.EngineFilter
import NuclaDB.EngineReplica
import NuclaDB.SegmentLoad

/-!
# The postings along the life of an engine

Along any life of an engine, with any I/O failures, the postings agree with the metadata.
-/

namespace NuclaDB

open LittleEndian Hnsw Install FileScript EventRun Wal Segment Function Except

section Life
variable {D : Type} [Hnsw.Dist D] (crc : Bytes → UInt32) (J : Codec)

/-- What can happen to an engine. A log is given as the bytes it holds at the time. -/
inductive LifeEvent
  | commit (workers : Workers) (io : Wal.Outcome) (file : Bytes) (cs : List Change)
  | replicate (io : Wal.Outcome) (file : Bytes) (rec : Record)
  | compact (workers : Workers) (rng : ℕ → ℕ)
  | rotate (w : Writer) (snapshotSeq : UInt64)
  | restart (workers : Workers) (rng : ℕ → ℕ) (disk : Disk)
  | load (M : Json (Target → Bool)) (rng : ℕ → ℕ) (snapshot metadata : Bytes) (seq : UInt64)
      (d : Files Name) (faults : List Fault)

def Engine.live (e : Engine D) : LifeEvent → Except OpenError (Engine D)
  | .commit workers io file cs => .ok (e.commit crc J workers io file cs).1
  | .replicate io file rec => .ok (e.applyReplicated crc J io file rec).1
  | .compact workers rng => .ok ((e.compactLocked workers rng).toOption.getD e)
  | .rotate w snapshotSeq => .ok { e with w := w, snapshotSeq := snapshotSeq }
  | .restart workers rng disk => (openEngine crc J e.cfg workers rng disk).map (·.1)
  | .load M rng snapshot metadata seq d faults =>
    .ok (afterLoad e ((loadSnapshot J M e.cfg rng snapshot metadata seq).run d faults).1)

def LifeEvent.Valid (e : Engine D) : LifeEvent → Prop
  | .commit _ _ _ cs => ∀ c ∈ cs, c.Valid e.cfg.dim
  | _ => True

structure Engine.Searchable (e : Engine D) : Prop where
  sound : e.Sound
  indexed : e.Indexed

section Steps
variable {crc J} {e e' : Engine D} {workers : Workers} {rng : ℕ → ℕ} {cfg : Config D} {g : Graph D}

section
omit [Hnsw.Dist D]

theorem Engine.Searchable.of_writer (h : e.Searchable) {w : Writer} {seq snapshotSeq : UInt64} :
    ({ e with w := w, seq := seq, snapshotSeq := snapshotSeq } : Engine D).Searchable :=
  ⟨⟨h.sound.wf, h.sound.dim_eq, h.sound.metadata⟩, h.indexed⟩

theorem Engine.Searchable.setMeta (h : e.Searchable) {id : UInt64} {md : Meta}
    (hw : g.WF) (hset : g.settings = e.graph.settings)
    (hothers : ∀ id', id' ≠ id → g.get id' = none → e.graph.get id' = none)
    (hid : g.get id = none → md = ∅) :
    (({ e with graph := g } : Engine D).setMeta id md).Searchable := by
  have hcore := ({ e with graph := g } : Engine D).setMeta_core id md
  have hgraph : (({ e with graph := g } : Engine D).setMeta id md).graph = g :=
    congrArg (·.graph) hcore
  have hcfg : (({ e with graph := g } : Engine D).setMeta id md).cfg = e.cfg :=
    congrArg (·.cfg) hcore
  refine ⟨⟨?_, ?_, fun id' hnone => ?_⟩, ?_⟩
  · rw [hgraph]
    exact hw
  · rw [hgraph, hcfg]
    exact (congrArg (·.1.dim) hset).trans h.sound.dim_eq
  · rw [hgraph] at hnone
    rw [Engine.setMeta_metaAt]
    by_cases hne : id' = id
    · subst hne
      rw [update_self, hid hnone]
    · rw [update_of_ne hne]
      exact h.sound.metadata id' (hothers id' hne hnone)
  · exact Engine.Indexed.setMeta (e := { e with graph := g }) h.indexed id md

theorem Engine.Indexed.setMetas (h : e.Indexed) (g : Graph D) (records : List Record)
    (metas : List Meta) : (e.setMetas g records metas).Indexed := by
  simp only [Engine.setMetas]
  generalize records.zip metas = items
  induction items generalizing e with
  | nil => exact h
  | cons r items ih =>
    rw [List.foldl_cons]
    split
    · exact ih (h.setMeta _ _)
    · exact ih h

end

section
variable (h : e.Searchable)
include h

theorem Engine.Searchable.commit (workers : Workers) (io : Wal.Outcome)
    (file : Bytes) {cs : List Change} (hcs : ∀ c ∈ cs, c.Valid e.cfg.dim) :
    (e.commit crc J workers io file cs).1.Searchable := by
  cases hlog : e.w.appendBatch crc io file (cs.map (Change.record J)) with
  | mk w out =>
    obtain ⟨file', _ | seqs⟩ := out
    · simp only [Engine.commit, Engine.commitLocked, hlog]
      exact h.of_writer
    · obtain ⟨e', hcommit, hbecame, -⟩ := h.sound.commit crc J workers hcs hlog
      obtain ⟨g, happly, -⟩ := (Queue.holds_graph h.sound.wf).applyRecords J workers
        (h.sound.dim_eq ▸ hcs)
      rw [hcommit]
      refine ⟨hbecame.sound, ?_⟩
      simp only [Engine.commit, Engine.commitLocked, hlog, happly, Prod.mk.injEq] at hcommit
      rw [← hcommit.1]
      exact Engine.Indexed.setMetas (e := { e with w := w, graph := g }) h.indexed _ _ _

theorem Engine.Searchable.graph_insert {id : UInt64} {vector : Vec}
    (hins : e.graph.insert id vector = .ok g) : g.WF ∧ g.settings = e.graph.settings ∧
      g.get = update e.graph.get id (some (e.graph.prep vector)) := by
  have hvec : validateVector vector e.cfg.dim = .ok () := by
    rw [← h.sound.dim_eq]
    cases hv : validateVector vector e.graph.cfg.dim with
    | error err => simp [Graph.insert, hv, bind, Except.bind] at hins
    | ok u => rfl
  obtain ⟨g', hins', hg⟩ := h.sound.insert_holds id hvec
  obtain rfl : g' = g := by simpa [hins] using hins'.symm
  exact ⟨hg.wf, hg.settings, hg.get⟩

theorem Engine.Searchable.applyRecord (rec : Record) : (e.applyRecord J rec).1.Searchable := by
  by_cases hins : rec.op = opInsert
  · simp only [Engine.applyRecord, if_pos hins]
    cases hg : e.graph.insert rec.id rec.vector with
    | error err => exact h
    | ok g =>
      obtain ⟨hw, hset, hget⟩ := h.graph_insert hg
      cases hd : decodeExtra J rec.extra with
      | none =>
        refine ⟨⟨hw, (congrArg (·.1.dim) hset).trans h.sound.dim_eq, fun id hnone => ?_⟩, h.indexed⟩
        refine h.sound.metadata id ?_
        by_cases hid : id = rec.id <;> simp_all
      | some md =>
        apply h.setMeta hw hset
        · intro id hne hnone
          simpa [hget, update_of_ne hne] using hnone
        · simp [hget]
  · by_cases hdel : rec.op = opDelete
    · simp only [Engine.applyRecord, if_neg hins, if_pos hdel]
      have hg := (Queue.holds_graph h.sound.wf).drop rec.id
      have hget := h.sound.wf.shape.slotted.get_delete rec.id
      apply h.setMeta hg.wf hg.settings
      · intro id hne hnone
        rw [Queue.drop, hget, update_of_ne hne] at hnone
        exact hnone
      · exact fun _ => rfl
    · by_cases hmeta : rec.op = opMeta
      · simp only [Engine.applyRecord, if_neg hins, if_neg hdel, if_pos hmeta, Engine.applyMeta]
        cases hd : decodeExtra J rec.extra with
        | none => exact h
        | some md =>
          dsimp only
          split
          · next hlive =>
            exact h.setMeta h.sound.wf rfl (fun _ _ => id) fun hnone => by simp [hnone] at hlive
          · exact h
      · simp only [Engine.applyRecord, if_neg hins, if_neg hdel, if_neg hmeta]
        exact h

theorem Engine.Searchable.replicate (io : Wal.Outcome) (file : Bytes)
    (rec : Record) : (e.applyReplicated crc J io file rec).1.Searchable := by
  cases hlog : e.w.appendRecord crc io file rec with
  | mk w out =>
    obtain ⟨file', _ | _⟩ := out
    · simp only [Engine.applyReplicated, hlog]
      exact h.of_writer
    · have hlogged : ({ e with w := w } : Engine D).Searchable := h.of_writer
      have happly := hlogged.applyRecord (J := J) rec
      simp only [Engine.applyReplicated, hlog]
      generalize ({ e with w := w } : Engine D).applyRecord J rec = applied at happly
      obtain ⟨e', _ | err⟩ := applied
      · exact happly.of_writer
      · exact happly

theorem Engine.Searchable.compact (hc : e.compactLocked workers rng = .ok e') : e'.Searchable := by
  simp only [Engine.compactLocked] at hc
  split at hc
  · simp only [ok.injEq] at hc
    exact hc ▸ h
  · split at hc
    · simp at hc
    · next g hcompact =>
      simp only [ok.injEq] at hc
      subst hc
      obtain ⟨hw, hset, hget⟩ := h.sound.wf.compact hcompact
      refine ⟨⟨hw, (congrArg (·.1.dim) hset).trans h.sound.dim_eq, fun id hnone => ?_⟩, h.indexed⟩
      exact h.sound.metadata id (by simpa [hget] using hnone)

end

omit [Hnsw.Dist D] in
theorem searchable_of_filtered (hw : g.WF)
    (hdim : g.cfg.dim = cfg.dim) (w : Writer) (seq snapshotSeq : UInt64) (metadata : Metadata) :
    (⟨cfg, g, w, seq, snapshotSeq, metadata.filter fun id _ => (g.get id).isSome,
      buildPostings (metadata.filter fun id _ => (g.get id).isSome)⟩ : Engine D).Searchable := by
  refine ⟨⟨hw, hdim, fun id hnone => ?_⟩, buildPostings_indexes _⟩
  rw [metaAt_filter metadata fun id => (g.get id).isSome]
  simp [show g.get id = none from hnone]

theorem Wal.recover_keeps {σ ε : Type*} {fn : σ → Record → Except ε σ} {P : σ → Prop}
    (hfn : ∀ {s rec s'}, P s → fn s rec = .ok s' → P s') (path : Option Bytes) {s : σ} (hs : P s) :
    P (recover crc fn path s).state := by
  have hloop : ∀ (file : Bytes) (fuel : ℕ) (r : Bytes) (validBytes : ℕ) (lastSeq : UInt64) (s : σ),
      P s → P (recoverLoop crc fn file fuel r validBytes lastSeq s).state := by
    intro file fuel
    induction fuel with
    | zero => exact fun _ _ _ _ hs => hs
    | succ fuel ih =>
      intro r validBytes lastSeq s hs
      simp only [recoverLoop]
      split
      · exact hs
      · split <;> exact hs
      · split
        · exact hs
        · split
          · exact hs
          · next hfn' => exact ih _ _ _ _ (hfn hs hfn')
  cases path with
  | none => exact hs
  | some file => exact hloop file _ _ _ _ _ hs

structure Replay.Sound (g : Graph D) (s : Replay D) : Prop where
  wf : s.queue.graph.WF
  settings : s.queue.graph.settings = g.settings

theorem Replay.Sound.flush {s : Replay D} (h : s.Sound g)
    {q : Queue D} (hq : s.queue.flush workers = .ok q) :
    q.graph.WF ∧ q.graph.settings = g.settings ∧ q.items = [] := by
  simp only [Queue.flush] at hq
  split at hq
  · next g' hg' =>
    obtain ⟨hw, hset, -⟩ := h.wf.insertBatch hg'
    rw [← ok.inj hq]
    exact ⟨hw, hset.trans h.settings, rfl⟩
  · cases hq

theorem Replay.Sound.record {s s' : Replay D} (h : s.Sound g) {snapshotSeq : UInt64} {rec : Record}
    (hrec : replayRecord J workers snapshotSeq s rec = .ok s') : s'.Sound g := by
  simp only [replayRecord] at hrec
  split at hrec
  · exact ok.inj hrec ▸ h
  · split at hrec
    · cases hrec
    · split at hrec
      · split at hrec
        · cases hrec
        · rw [← ok.inj hrec]
          refine ⟨?_, ?_⟩ <;> dsimp only <;> split
          · exact h.wf
          · exact h.wf
          · exact h.settings
          · exact h.settings
      · split at hrec
        · split at hrec
          · cases hrec
          · next q hq =>
            obtain ⟨hw, hset, -⟩ := h.flush hq
            have hdrop := (Queue.holds_graph hw).drop rec.id
            rw [← ok.inj hrec]
            exact ⟨hdrop.wf, hdrop.settings.trans hset⟩
        · exact ok.inj hrec ▸ ⟨h.wf, h.settings⟩

variable {disk disk' : Disk}

theorem openEngine_parts
    (hopen : openEngine crc J cfg workers rng disk = .ok (e, disk')) :
    ∃ (g : Graph D) (md : Metadata) (seq snapshotSeq : UInt64), g.WF ∧
      g.settings = (new cfg rng).settings ∧
      e = ⟨cfg, g, ⟨seq + 1, false, false⟩, seq, snapshotSeq, md.filter fun id _ => (g.get id).isSome,
        buildPostings (md.filter fun id _ => (g.get id).isSome)⟩ := by
  simp only [openEngine] at hopen
  split at hopen
  · cases hopen
  · next g snapshotSeq hload =>
    split at hopen
    · cases hopen
    · next metadata hmeta =>
      have hreplay : ((recover crc (replayRecord J workers snapshotSeq) disk.wal
          ⟨⟨g, []⟩, metadata, snapshotSeq⟩).state).Sound g :=
        recover_keeps (P := fun s => Replay.Sound g s) (fun hs hrec => hs.record hrec) disk.wal
          ⟨load_wf hload, rfl⟩
      split at hopen
      · cases hopen
      · split at hopen
        · cases hopen
        · next h md hfinish =>
          simp only [finishReplay] at hfinish
          split at hfinish
          · cases hfinish
          · next q hq =>
            obtain ⟨hw, hset, -⟩ := hreplay.flush hq
            simp only [ok.injEq, Prod.mk.injEq] at hopen hfinish
            rw [← hopen.1, ← hfinish.1, ← hfinish.2]
            exact ⟨q.graph, _, _, snapshotSeq, hw, hset.trans (load_settings hload), rfl⟩

theorem searchable_of_open
    (hopen : openEngine crc J cfg workers rng disk = .ok (e, disk')) : e.Searchable := by
  obtain ⟨g, md, seq, snapshotSeq, hw, hset, rfl⟩ := openEngine_parts hopen
  have hdim : g.cfg.dim = cfg.dim := congrArg (·.1.dim) hset
  exact searchable_of_filtered hw hdim _ _ _ _

theorem Engine.Kept.opened
    (hopen : openEngine crc J cfg workers rng disk = .ok (e, disk')) : e.Kept cfg := by
  have hsound := (searchable_of_open hopen).sound
  obtain ⟨g, md, seq, snapshotSeq, -, hset, rfl⟩ := openEngine_parts hopen
  exact ⟨hsound, rfl, fun _ => hset, fun _ => rfl⟩

theorem safe_of_anything {P N α : Type*} [DecidableEq N] (s : Script P N α) (d : Files N) :
    s.Safe (fun _ _ _ => True) (fun _ => True) (fun _ _ => True) d := by
  induction s generalizing d with
  | done a => exact ⟨trivial, trivial⟩
  | op p o k ih => exact ⟨trivial, fun f _ => ih _ _⟩

/-- Read from a snapshot file, with the metadata of the vectors in it. -/
def Install.Loaded.FromFile (cfg : Config D) (rng : ℕ → ℕ) (seq : UInt64) (l : Loaded D) : Prop :=
  ∃ file md, load cfg rng file = .ok (l.graph, seq) ∧
    l.metadata = Std.ExtTreeMap.filter (fun id _ => (l.graph.get id).isSome) md

theorem loadSnapshot_loaded {M : Json (Target → Bool)}
    {snapshot metadata : Bytes} {seq : UInt64} {d : Files Name} {faults : List Fault} {l : Loaded D}
    {synced : Bool}
    (h : ((loadSnapshot J M cfg rng snapshot metadata seq).run d faults).1 = some (l, synced)) :
    l.FromFile cfg rng seq := by
  have hreceive : (receive J cfg rng snapshot metadata seq).Safe (fun _ _ _ => True)
      (fun _ => True) (fun r _ => ∀ l, r = some l → l.FromFile cfg rng seq) d := by
    apply (safe_of_anything _ d).bind
    rintro (_ | _) d' - -
    · exact ⟨trivial, by simp⟩
    · refine ⟨trivial, fun f _ => ?_⟩
      dsimp only
      cases hg : checkSnapshot cfg rng seq ((Op.read (.incoming .snapshot)).perform d' f).1 with
      | none => exact ⟨trivial, by simp⟩
      | some g =>
        obtain ⟨file, -, hload⟩ := checkSnapshot_eq_some hg
        refine ⟨trivial, fun f' _ => ⟨trivial, fun l hl => ?_⟩⟩
        obtain ⟨-, md, -, -, rfl⟩ := checkMetadata_eq_some hl
        exact ⟨file, md, hload, rfl⟩
  have hall : (loadSnapshot J M cfg rng snapshot metadata seq).Safe (fun _ _ _ => True)
      (fun _ => True) (fun r _ => ∀ l synced, r = some (l, synced) → l.FromFile cfg rng seq) d := by
    apply hreceive.bind
    rintro (_ | l) d' - hl
    · apply (safe_of_anything _ d').bind
      exact fun _ _ _ _ => ⟨trivial, by simp⟩
    · apply (safe_of_anything _ d').bind
      rintro r d'' - -
      apply (safe_of_anything _ d'').bind
      refine fun _ _ _ _ => ⟨trivial, fun l' synced hl' => ?_⟩
      obtain ⟨_, -, heq⟩ := Option.map_eq_some_iff.mp hl'
      obtain rfl : l = l' := (Prod.mk.inj heq).1
      exact hl l rfl
  exact (hall.run fun _ _ => trivial).2 l synced h

theorem Engine.Searchable.load (h : e.Searchable) (M : Json (Target → Bool)) (rng : ℕ → ℕ)
    (snapshot metadata : Bytes) (seq : UInt64) (d : Files Name) (faults : List Fault) :
    (afterLoad e ((loadSnapshot J M e.cfg rng snapshot metadata seq).run d faults).1).Searchable := by
  cases hrun : ((loadSnapshot J M e.cfg rng snapshot metadata seq).run d faults).1 with
  | none => exact h
  | some out =>
    obtain ⟨l, synced⟩ := out
    obtain ⟨file, md, hload, hmd⟩ := loadSnapshot_loaded hrun
    simp only [afterLoad, hmd]
    exact searchable_of_filtered (load_wf hload)
      (congrArg (·.1.dim) (load_settings hload)) _ _ _ _

theorem Engine.Searchable.live (h : e.Searchable) {ev : LifeEvent} (hv : ev.Valid e)
    (hlive : e.live crc J ev = .ok e') : e'.Searchable := by
  cases ev with
  | commit workers io file cs => exact ok.inj hlive ▸ h.commit workers io file hv
  | replicate io file rec => exact ok.inj hlive ▸ h.replicate io file rec
  | compact workers rng =>
    rw [← ok.inj hlive]
    cases hc : e.compactLocked workers rng with
    | error err => exact h
    | ok e₁ => exact h.compact hc
  | rotate w snapshotSeq => exact ok.inj hlive ▸ h.of_writer
  | restart workers rng disk =>
    simp only [Engine.live, Except.map] at hlive
    split at hlive
    · cases hlive
    · next out hopen =>
      obtain ⟨e₁, disk'⟩ := out
      exact ok.inj hlive ▸ searchable_of_open hopen
  | load M rng snapshot metadata seq d faults =>
    exact ok.inj hlive ▸ h.load M rng snapshot metadata seq d faults

theorem searchable_of_run {e₀ : Engine D} {evs : List LifeEvent}
    (hopen : openEngine crc J cfg workers rng disk = .ok (e₀, disk'))
    (hevs : Along (Engine.live crc J) (fun e ev => LifeEvent.Valid e ev) e₀ evs)
    (hrun : run (Engine.live crc J) e₀ evs = .ok e) : e.Searchable :=
  run_keeps (I := fun e => e.Searchable) (fun hs hv hlive => hs.live hv hlive)
    (searchable_of_open hopen) hevs hrun

end Steps

/-- However an engine came to its state, the ids that `filterCandidates` finds by the postings are
the live ids whose metadata match. -/
theorem postings_agree_with_scan {F : Type} (N : Numbers F) {cfg : Config D} {workers : Workers}
    {rng : ℕ → ℕ} {disk disk' : Disk} {e₀ e : Engine D} {evs : List LifeEvent}
    (hopen : openEngine crc J cfg workers rng disk = .ok (e₀, disk'))
    (hvalid : Along (Engine.live crc J) (fun e ev => LifeEvent.Valid e ev) e₀ evs)
    (hrun : run (Engine.live crc J) e₀ evs = .ok e)
    {filters : List Filter} (hfilters : ∀ f ∈ filters, f.validate N = .ok ()) {limit : ℤ}
    {ids : List UInt64} (hids : e.filterCandidates N filters limit = some ids) (id : UInt64) :
    id ∈ ids ↔ (e.graph.get id).isSome = true ∧
      matchesFilters N (metaAt e.metadata id) filters = true := by
  have hs := searchable_of_run hopen hvalid hrun
  exact hs.indexed.mem_filterCandidates hs.sound.wf.shape.slotted hs.sound.metadata hfilters hids id

def wholeNumbers : Numbers ℤ :=
  ⟨fun s => (s.toInt?.getD 0, s.toInt?.isSome), fun a b => decide (a < b), fun a b => decide (a ≤ b)⟩

def collidingInserts : List Change :=
  [.insert 1 [0] {("a\x00b", "c")}, .insert 2 [0] {("a", "b\x00c")}]

theorem colliding_postings_told_apart : ∃ e, run (Engine.live crc32ChecksumIEEE anyCodec) freshEngine
        [.commit one .ok [] collidingInserts] = .ok e ∧
      e.filterCandidates wholeNumbers [⟨"a", .opIn, ["b\x00c"]⟩] 10 = some [2] ∧
      ∀ id, id ∈ [2] ↔ (e.graph.get id).isSome = true ∧
        matchesFilters wholeNumbers (metaAt e.metadata id) [⟨"a", .opIn, ["b\x00c"]⟩] = true := by
  have hids : ((freshEngine.commit crc32ChecksumIEEE anyCodec one .ok [] collidingInserts).1
      ).filterCandidates wholeNumbers [⟨"a", .opIn, ["b\x00c"]⟩] 10 = some [2] := by decide +kernel
  have hvalid : Along (Engine.live crc32ChecksumIEEE anyCodec)
      (fun e ev => LifeEvent.Valid e ev) freshEngine [.commit one .ok [] collidingInserts] := by
    refine ⟨?_, fun _ _ => trivial⟩
    exact List.forall_mem_cons.mpr ⟨rfl, List.forall_mem_singleton.mpr rfl⟩
  exact ⟨_, rfl, hids, postings_agree_with_scan crc32ChecksumIEEE anyCodec wholeNumbers
    (freshEngine_eq_open _) hvalid rfl (by simp [Filter.validate]) hids⟩

end Life

end NuclaDB
