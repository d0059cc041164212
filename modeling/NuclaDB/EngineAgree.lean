import Mathlib.Data.Countable.Basic
import Mathlib.Logic.Equiv.List
import NuclaDB.EngineContents
import NuclaDB.EventRun
import NuclaDB.SegmentRoundTrip

/-!
# Three ways of applying a log

A list of changes comes to the same map when it is committed in groups, replicated record by
record, or replayed on a snapshot that loads.
-/

namespace NuclaDB

open LittleEndian Hnsw KeyedLog Function Wal List Std Change Writer

variable {D : Type} [Hnsw.Dist D] (crc : Bytes → UInt32) (J : Codec)

/-- The states of an engine: opened on an empty directory, changed by commits and a leader's records,
compacted, given a new writer, and opened again on a snapshot and the records after it. -/
inductive Reachable (cfg : Config D) : Engine D → Prop
  | opened {e : Engine D} {disk : Disk} (workers : Workers) (rng : ℕ → ℕ) :
      openEngine crc J cfg workers rng Disk.empty = .ok (e, disk) → Reachable cfg e
  | commit {e : Engine D} (workers : Workers) (io : Wal.Outcome) (file : Bytes) (cs : List Change) :
      Reachable cfg e → cs ≠ [] → (∀ c ∈ cs, c.Valid cfg.dim) →
      Reachable cfg (e.commit crc J workers io file cs).1
  | replicated {e : Engine D} (io : Wal.Outcome) (file : Bytes) (seq : UInt64) (c : Change) :
      Reachable cfg e → c.Valid cfg.dim →
      Reachable cfg (e.applyReplicated crc J io file (c.logged J seq)).1
  | compacted {e e' : Engine D} (workers : Workers) (rng : ℕ → ℕ) :
      Reachable cfg e → e.compactLocked workers rng = .ok e' → Reachable cfg e'
  | rotated {e : Engine D} (snapshotSeq : UInt64) : Reachable cfg e →
      Reachable cfg { e with w := ⟨e.seq + 1, false, false⟩, snapshotSeq := snapshotSeq }
  | reopened {e e' : Engine D} (workers : Workers) (rng : ℕ → ℕ) (cs : List Change) :
      Reachable cfg e → (∀ c ∈ cs, c.Valid cfg.dim) → e.seq.toNat + cs.length < 2 ^ 64 →
      openFrom J cfg workers (e.graph.reseed rng) e.seq e.metadata
        (assignSeqs (e.seq + 1) (cs.map (record J))) = .ok e' → Reachable cfg e'

/-- A snapshot of a state, and a log of the changes after it. -/
def Engine.files (e : Engine D) (cs : List Change) : Disk :=
  ⟨some (Segment.save e.graph e.seq), some (J.all.marshal e.metadata),
    some ((walCode crc).encAll (assignSeqs (e.seq + 1) (cs.map (record J)))), none⟩

def Hnsw.Config.prep (cfg : Config D) : Vec → Vec := (new cfg fun _ => 0).prep

structure Engine.Kept (cfg : Config D) (e : Engine D) : Prop where
  sound : e.Sound
  cfg_eq : e.cfg = cfg
  settings : ∀ rng, e.graph.settings = (new cfg rng).settings
  next : e.w.readyLocked = .ok () → e.w.nextSeq = e.seq + 1

section Reachability
variable {crc J} {cfg : Config D} {e e' : Engine D} {io : Wal.Outcome} {file : Bytes} {cs : List Change}

section
variable (hmetric : Segment.metricName cfg = "l2" ∨ Segment.metricName cfg = "dot")
include hmetric

theorem Hnsw.Config.unit_of_metricName (rng : ℕ → ℕ) : (new cfg rng).unit = false := by
  apply Segment.unit_of_metricName
  rcases hmetric with h | h <;> rw [h] <;> decide

theorem Hnsw.Config.prep_of_metricName (v : Vec) : cfg.prep v = v :=
  Graph.prep_eq (Config.unit_of_metricName hmetric _) v

end

section
variable (hk : e.Kept cfg)
include hk

theorem Engine.Kept.cfg_graph : e.graph.cfg = cfg.withDefaults := congrArg (·.1) (hk.settings fun _ => 0)

theorem Engine.Kept.prep_eq : e.graph.prep = cfg.prep :=
  Graph.prep_of_settings (hk.settings _)

theorem Engine.Kept.of_became {f : Contents} (hb : e.Became e' f)
    (hnext : e'.w.readyLocked = .ok () → e'.w.nextSeq = e'.seq + 1) : e'.Kept cfg :=
  ⟨hb.sound, hb.cfg.trans hk.cfg_eq, fun rng => hb.settings.trans (hk.settings rng), hnext⟩

theorem Engine.Kept.of_writer {w : Writer} {snapshotSeq : UInt64}
    (hnext : w.readyLocked = .ok () → w.nextSeq = e.seq + 1) :
    ({ e with w := w, snapshotSeq := snapshotSeq } : Engine D).Kept cfg :=
  ⟨⟨hk.sound.wf, hk.sound.dim_eq, hk.sound.metadata⟩, hk.cfg_eq, hk.settings, hnext⟩

theorem Engine.Kept.commit_logged (workers : Workers)
    {file' : Bytes} {w : Writer} {seqs : List UInt64} (hne : cs ≠ [])
    (hcs : ∀ c ∈ cs, c.Valid cfg.dim)
    (hlog : e.w.appendBatch crc io file (cs.map (record J)) = (w, file', .ok seqs)) :
    ∃ e', e.commit crc J workers io file cs = (e', file', .ok ()) ∧ e'.Kept cfg ∧
      e'.contents = applyAll e.contents (cs.map (stored cfg.prep)) ∧ e'.w = w ∧
      e'.snapshotSeq = e.snapshotSeq ∧ e'.seq = seqs.getLastD e.seq := by
  obtain ⟨e', hcommit, hb, hw, hseq⟩ := hk.sound.commit crc J workers (hk.cfg_eq.symm ▸ hcs) hlog
  obtain ⟨rfl, rfl, -⟩ := appendBatch_ok crc hlog
  refine ⟨e', hcommit, hk.of_became hb fun _ => ?_, hk.prep_eq ▸ hb.contents, hw, hb.snapshotSeq, hseq⟩
  rw [hw, hseq]
  exact advance_eq_last _ _ (by simpa using hne)

theorem Engine.Kept.commit {workers : Workers} (hne : cs ≠ []) (hcs : ∀ c ∈ cs, c.Valid cfg.dim) :
    ((e.commit crc J workers io file cs).1).Kept cfg := by
  rcases hlog : e.w.appendBatch crc io file (cs.map (record J)) with ⟨w, file', err | seqs⟩
  · have hnot := appendBatch_error crc hlog
    simp only [Engine.commit, Engine.commitLocked, hlog]
    exact hk.of_writer fun hready => absurd hready hnot
  · obtain ⟨e', hcommit, hk', -⟩ := hk.commit_logged workers hne hcs hlog
    rw [hcommit]
    exact hk'

theorem Engine.Kept.replicate_logged {file' : Bytes}
    {w : Writer} {seq : UInt64} {c : Change} (hc : c.Valid cfg.dim)
    (hlog : e.w.appendRecord crc io file (c.logged J seq) = (w, file', .ok ())) :
    ∃ e', e.applyReplicated crc J io file (c.logged J seq) = (e', file', .ok ()) ∧ e'.Kept cfg ∧
      e'.contents = applyAll e.contents [c.stored cfg.prep] ∧ e'.w = w ∧
      e'.snapshotSeq = e.snapshotSeq ∧ e'.seq = seq := by
  obtain ⟨e', happly, hb, hw, hseq⟩ := hk.sound.applyReplicated crc J (hk.cfg_eq.symm ▸ hc) hlog
  obtain ⟨hnext, rfl, -⟩ := appendRecord_ok crc hlog
  refine ⟨e', happly, hk.of_became hb fun _ => ?_, hk.prep_eq ▸ hb.contents, hw, hb.snapshotSeq, hseq⟩
  rw [hw, hseq]
  exact congrArg (· + 1) hnext.symm

theorem Engine.Kept.replicate {seq : UInt64} {c : Change} (hc : c.Valid cfg.dim) :
    ((e.applyReplicated crc J io file (c.logged J seq)).1).Kept cfg := by
  rcases hlog : e.w.appendRecord crc io file (c.logged J seq) with ⟨w, file', err | _⟩
  · simp only [Engine.applyReplicated, hlog]
    apply hk.of_writer
    intro hready
    rcases appendRecord_error crc hlog with rfl | hnot
    · exact hk.next hready
    · exact absurd hready hnot
  · obtain ⟨e', happly, hk', -⟩ := hk.replicate_logged hc hlog
    rw [happly]
    exact hk'

theorem Engine.Kept.compact {workers : Workers} {rng : ℕ → ℕ}
    (hc : e.compactLocked workers rng = .ok e') :
    e'.Kept cfg ∧ ((∀ id v, e.graph.get id = some v → cfg.prep v = v) →
      e'.contents = e.contents) ∧ e'.w = e.w ∧ e'.seq = e.seq ∧ e'.snapshotSeq = e.snapshotSeq := by
  simp only [Engine.compactLocked] at hc
  split at hc
  · simp only [Except.ok.injEq] at hc
    exact hc ▸ ⟨hk, fun _ => rfl, rfl, rfl, rfl⟩
  · split at hc
    · simp at hc
    · next g hcompact =>
      simp only [Except.ok.injEq] at hc
      subst hc
      have hcfg := hk.cfg_graph
      have hset : (new e.graph.cfg rng).settings = e.graph.settings := by
        rw [hcfg, hk.settings rng]
        exact new_withDefaults_settings cfg rng rng
      have hprep : (new e.graph.cfg rng).prep = cfg.prep :=
        (Graph.prep_of_settings hset).trans hk.prep_eq
      obtain ⟨hw, hset', hget⟩ := hk.sound.wf.compact hcompact
      have hset'' := hset'.trans hset
      refine ⟨⟨⟨hw, ?_, ?_⟩, hk.cfg_eq, fun r => hset''.trans (hk.settings r), hk.next⟩, ?_, rfl,
        rfl, rfl⟩
      · exact (congrArg (·.1.dim) hset'').trans hk.sound.dim_eq
      · intro id hnone
        apply hk.sound.metadata id
        simpa [hget] using hnone
      · intro hstable
        funext id
        simp only [Engine.contents, hget, hprep, Option.map_map]
        cases hid : e.graph.get id with
        | none => rfl
        | some v => simp [hstable id v hid]

theorem Engine.Kept.reopen (workers : Workers) (rng : ℕ → ℕ)
    (hcs : ∀ c ∈ cs, c.Valid cfg.dim) (hroom : e.seq.toNat + cs.length < 2 ^ 64) :
    ∃ e', openFrom J cfg workers (e.graph.reseed rng) e.seq e.metadata
        (assignSeqs (e.seq + 1) (cs.map (record J))) = .ok e' ∧ e'.Kept cfg ∧
      e'.contents = applyAll e.contents (cs.map (stored cfg.prep)) := by
  have hprep : (e.graph.reseed rng).prep = cfg.prep := hk.prep_eq
  have hmeta : ∀ id, (∀ c ∈ cs, c.id ≠ id) → ∀ p, e.contents id = some p →
      metaAt e.metadata id = p.2 := fun id _ p => md_of_map
  obtain ⟨e', hopen, hs, hcontents, hcfg, hset, hseq, hw, -⟩ := openFrom_spec J cfg workers
    e.contents e.metadata e.seq [] cs (hk.sound.wf.of_rng rng)
    (hk.sound.dim_eq.trans (congrArg Config.dim hk.cfg_eq)) e.vecs_contents.symm hmeta (by simp) hcs
    hroom
  refine ⟨e', hopen, ⟨hs, hcfg, fun r => hset.trans (hk.settings r), fun _ => ?_⟩, hprep ▸ hcontents⟩
  rw [hw]

variable (crc) in
theorem Engine.Kept.open_files (hmetric : Segment.metricName cfg = "l2" ∨ Segment.metricName cfg = "dot")
    (hentry : e.graph.nodes = [] → e.graph.entryPoint = 0) (hcount : e.graph.listCount < 2 ^ 32)
    (hcs : ∀ c ∈ cs, c.Valid cfg.dim) (hreadable : ∀ c ∈ cs, (c.record J).Readable)
    (hroom : e.seq.toNat + cs.length < 2 ^ 64) (workers : Workers) (rng : ℕ → ℕ) :
    (∃ e' disk, openEngine crc J cfg workers rng (e.files crc J cs) = .ok (e', disk) ∧
      e'.contents = applyAll e.contents (cs.map (stored cfg.prep))) ↔
    cfg.dim < 2 ^ 32 ∧ e.graph.Leveled := by
  have hw := hk.sound.wf
  have hname : (Segment.nameBytes (Segment.metricName cfg)).length < 256 := by
    rcases hmetric with h | h <;> rw [h] <;> decide
  constructor
  · rintro ⟨e', disk, hopen, -⟩
    cases hload : Segment.load cfg rng (some (Segment.save e.graph e.seq)) with
    | error err => simp [openEngine, Engine.files, hload] at hopen
    | ok out =>
      have hnodes := Segment.nodes_le_listCount hw.shape.layered
      exact Segment.leveled_of_load hw hk.cfg_graph hname (hnodes.trans hcount.le) hload
  · rintro ⟨hdim, hlev⟩
    have hunit := (congrArg (·.2.1) (hk.settings rng)).trans (Config.unit_of_metricName hmetric rng)
    have hload := Segment.load_save hw hlev (hk.settings rng).symm hunit hname hdim hcount hentry e.seq
    have hmeta : loadMetadata J (some (J.all.marshal e.metadata)) = some e.metadata := by
      simp [loadMetadata, J.all.marshal_ne_nil, J.all.unmarshal_marshal]
    obtain ⟨e', hopen, -, hcontents⟩ := hk.reopen workers rng hcs hroom
    have hrecs := readable_assignSeqs (forall_mem_map.mpr hreadable) (e.seq + 1)
    have hframes : openEngine crc J cfg workers rng (e.files crc J cs) = _ := openEngine_of_frames hload hmeta
      (congrArg some (append_nil _).symm) hrecs (linked_zero_assignSeqs _ _)
      (walCode crc).dec_nil (.inl rfl) hopen
    exact ⟨e', _, hframes, hcontents⟩

/-- The entry point of an empty graph is not written to its snapshot. -/
theorem Engine.Kept.with_entryPoint (hnil : e.graph.nodes = []) (slot : ℕ) :
    ({ e with graph := { e.graph with entryPoint := slot } } : Engine D).Kept cfg :=
  ⟨⟨⟨hk.sound.wf.shape.of_tables rfl, hk.sound.wf.live_eq, hk.sound.wf.hasEntry_iff,
    fun hne => absurd hnil hne, hk.sound.wf.maxLevel_le⟩, hk.sound.dim_eq, hk.sound.metadata⟩,
    hk.cfg_eq, hk.settings, hk.next⟩

end

theorem Reachable.kept (hr : Reachable crc J cfg e) : e.Kept cfg := by
  induction hr with
  | opened workers rng hopen =>
    obtain ⟨e', hopen', hs, -, hcfg, hset, hseq, hw, -⟩ := openEngine_empty crc J cfg workers rng
    rw [hopen', Except.ok.injEq, Prod.mk.injEq] at hopen
    obtain ⟨rfl, -⟩ := hopen
    refine ⟨hs, hcfg, fun r => hset.trans rfl, fun _ => ?_⟩
    rw [hw, hseq]
    rfl
  | commit workers io file cs _ hne hcs ih => exact ih.commit hne hcs
  | replicated io file seq c _ hc ih => exact ih.replicate hc
  | compacted workers rng _ hc ih => exact (ih.compact hc).1
  | rotated snapshotSeq _ ih => exact ih.of_writer fun _ => rfl
  | reopened workers rng cs _ hcs hroom hopen ih =>
    obtain ⟨e', hopen', hk, -⟩ := ih.reopen workers rng hcs hroom
    rw [hopen', Except.ok.injEq] at hopen
    exact hopen ▸ hk

theorem Engine.Kept.commitAll (hk : e.Kept cfg) (hready : e.w.readyLocked = .ok ()) (file : Bytes)
    {groups : List (Workers × List Change)} (hne : ∀ gr ∈ groups, gr.2 ≠ [])
    (hvalid : ∀ gr ∈ groups, ∀ c ∈ gr.2, c.Valid cfg.dim) :
    ∃ e' file', e.commitAll crc J file groups = (e', file', .ok ()) ∧ e'.contents = applyAll e.contents
        ((groups.map (·.2)).flatten.map (stored cfg.prep)) := by
  induction groups generalizing e file with
  | nil => exact ⟨e, file, rfl, rfl⟩
  | cons gr groups ih =>
    obtain ⟨hne₁, hne⟩ := forall_mem_cons.mp hne
    obtain ⟨hvalid₁, hvalid⟩ := forall_mem_cons.mp hvalid
    have hne' : gr.2.map (record J) ≠ [] := by simpa using hne₁
    obtain ⟨e₁, hcommit, hk₁, hcontents, hw, -⟩ := hk.commit_logged gr.1 hne₁ hvalid₁
      (appendBatch_ready crc hready file hne')
    have hready₁ : e₁.w.readyLocked = .ok () := by
      rw [hw]
      exact hready
    obtain ⟨e₂, file₂, hall, hcontents₂⟩ := ih hk₁ hready₁ _ hne hvalid
    refine ⟨e₂, file₂, ?_, ?_⟩
    · simp only [Engine.commitAll, hcommit]
      exact hall
    · rw [hcontents₂, hcontents, map_cons, flatten_cons, map_append]
      exact (putAll_append ..).symm

theorem Engine.Kept.replicateAll (hk : e.Kept cfg) (hready : e.w.readyLocked = .ok ())
    (file : Bytes) (hcs : ∀ c ∈ cs, c.Valid cfg.dim) :
    ∃ e' file', e.replicateAll crc J file
        (assignSeqs (e.seq + 1) (cs.map (record J))) = (e', file', .ok ()) ∧
      e'.contents = applyAll e.contents (cs.map (stored cfg.prep)) := by
  induction cs generalizing e file with
  | nil => exact ⟨e, file, rfl, rfl⟩
  | cons c cs ih =>
    obtain ⟨hc, hrest⟩ := forall_mem_cons.mp hcs
    have hnext := hk.next hready
    have hseq₁ : (c.logged J (e.seq + 1)).seq = e.w.nextSeq := hnext.symm
    obtain ⟨e₁, happly, hk₁, hcontents, hw, -⟩ := hk.replicate_logged hc
      (appendRecord_ready crc hready file hseq₁)
    have hready₁ : e₁.w.readyLocked = .ok () := by
      rw [hw]
      exact hready
    have hseq : e₁.seq + 1 = e.seq + 1 + 1 := by
      rw [← hk₁.next hready₁, hw, hnext]
    obtain ⟨e₂, file₂, hall, hcontents₂⟩ := ih hk₁ hready₁ (file ++ _) hrest
    rw [hseq] at hall
    refine ⟨e₂, file₂, ?_, ?_⟩
    · simp only [map_cons, assignSeqs, Engine.replicateAll]
      rw [show { c.record J with seq := e.seq + 1 } = c.logged J (e.seq + 1) from rfl, happly]
      exact hall
    · rw [hcontents₂, hcontents]
      exact (putAll_append ..).symm

end Reachability

/-- In every state whose writer takes appends, committing and replicating a list of changes do not fail,
and the map is the one that the changes make one after the other. By replay on the state's snapshot it
comes to the same map exactly when the dimension fits its field and every node has one list for each
of its layers. -/
theorem log_application_agrees (cfg : Config D) (e : Engine D) (cs : List Change) (file : Bytes)
    (hmetric : Segment.metricName cfg = "l2" ∨ Segment.metricName cfg = "dot")
    (hr : Reachable crc J cfg e) (hready : e.w.readyLocked = .ok ())
    (hcs : ∀ c ∈ cs, c.Valid cfg.dim) (hroom : e.seq.toNat + cs.length < 2 ^ 64) :
    (∀ groups : List (Workers × List Change), (groups.map (·.2)).flatten = cs →
      (∀ gr ∈ groups, gr.2 ≠ []) →
      ∃ e' file', e.commitAll crc J file groups = (e', file', .ok ()) ∧
        e'.contents = applyAll e.contents cs) ∧
    (∃ e' file', e.replicateAll crc J file
        (assignSeqs (e.seq + 1) (cs.map (record J))) = (e', file', .ok ()) ∧
      e'.contents = applyAll e.contents cs) ∧
    ((∀ c ∈ cs, (c.record J).Readable) → e.graph.listCount < 2 ^ 32 →
      ∀ (workers : Workers) (rng : ℕ → ℕ),
        (∃ e' disk, openEngine crc J cfg workers rng (e.files crc J cs) = .ok (e', disk) ∧
          e'.contents = applyAll e.contents cs) ↔
        cfg.dim < 2 ^ 32 ∧ ∀ nd ∈ e.graph.nodes, nd.neighbors.length = nd.level + 1) := by
  have hk := hr.kept
  have hsame := map_stored (Config.prep_of_metricName hmetric) cs
  refine ⟨?_, ?_, ?_⟩
  · rintro groups rfl hne
    rw [← hsame]
    apply hk.commitAll hready file hne
    intro gr hgr c hc
    exact hcs c (mem_flatten_of_mem (mem_map_of_mem hgr) hc)
  · obtain ⟨e', file', hall, hcontents⟩ := hk.replicateAll hready file hcs
    exact ⟨e', file', hall, hsame ▸ hcontents⟩
  · intro hreadable hcount workers rng
    by_cases hnil : e.graph.nodes = []
    · have hfiles : Engine.files crc J { e with graph := { e.graph with entryPoint := 0 } } cs =
          e.files crc J cs := by
        simp [Engine.files, Segment.save, Graph.snapshot, Graph.idAt, hnil]
      have hopens := (hk.with_entryPoint hnil 0).open_files crc hmetric (fun _ => rfl) hcount hcs
        hreadable hroom workers rng
      rw [hfiles, hsame] at hopens
      exact hopens
    · have hopens := hk.open_files crc hmetric (fun h => absurd h hnil) hcount hcs hreadable hroom
        workers rng
      rwa [hsame] at hopens

section Encodings

theorem Json.exists_of_countable (α : Type) [Countable α] : Nonempty (Json α) := by
  obtain ⟨f, hf⟩ := exists_injective_nat α
  refine ⟨⟨fun a => replicate (f a + 1) 0, fun b => partialInv f (b.length - 1), ?_, ?_⟩⟩
  · intro a
    simp [partialInv_left hf]
  · simp

/-- Any encoding, with the empty map as a pair of braces: runs that only write the empty one evaluate. -/
def Json.braced {α : Type} [EmptyCollection α] (J : Json α) (isEmpty : α → Bool)
    (hempty : ∀ a, isEmpty a → a = ∅) : Json α where
  marshal a := if isEmpty a then [0x7B, 0x7D] else 0 :: J.marshal a
  unmarshal
    | [0x7B, 0x7D] => some ∅
    | _ :: b => J.unmarshal b
    | [] => none
  unmarshal_marshal a := by
    by_cases h : isEmpty a
    · rw [if_pos h, hempty a h]
      rfl
    · simp [h, J.unmarshal_marshal]
  marshal_ne_nil a := by split <;> simp

theorem countable_string : Countable String := by
  have hchar : Injective Char.toNat := fun _ _ h => Char.toNat_inj.mp h
  have := hchar.countable
  exact Injective.countable (f := String.toList) fun _ _ h => String.toList_inj.mp h

theorem countable_meta : Countable Meta := by
  have := countable_string
  exact Injective.countable (f := ExtTreeMap.toList)
    fun _ _ h => ExtTreeMap.toList_inj.mp h

theorem countable_metadata : Countable Metadata := by
  have := countable_meta
  have hid : Injective UInt64.toNat := fun _ _ h => UInt64.toNat_inj.mp h
  have := hid.countable
  exact Injective.countable (f := ExtTreeMap.toList)
    fun _ _ h => ExtTreeMap.toList_inj.mp h

noncomputable def anyCodec : Codec :=
  have := countable_meta
  have := countable_metadata
  ⟨(Classical.choice (Json.exists_of_countable Meta)).braced (·.isEmpty)
      fun _ => ExtTreeMap.isEmpty_iff.mp,
    (Classical.choice (Json.exists_of_countable Metadata)).braced (·.isEmpty)
      fun _ => ExtTreeMap.isEmpty_iff.mp⟩

end Encodings

/-- A vector deleted and its metadata updated afterwards, and one that has its metadata updated. -/
def twoGroups : List (Workers × List Change) :=
  [(⟨1, Nat.one_pos⟩, [.insert 1 [0] {("k", "v")}, .delete 1, .update 1 {("k", "w")}]),
    (⟨2, Nat.two_pos⟩, [.insert 2 [0x3F800000] ∅, .update 2 {("k", "v")}])]

theorem deleted_and_updated_agree :
    ∃ (e e' : Engine Exact) (file : Bytes), Reachable crc32ChecksumIEEE anyCodec line e ∧
      e.commitAll crc32ChecksumIEEE anyCodec [] twoGroups = (e', file, .ok ()) ∧
      e'.contents 1 = none ∧ e'.contents 2 = some ([0x3F800000], {("k", "v")}) ∧
      ∃ e'' disk, openEngine crc32ChecksumIEEE anyCodec line ⟨1, by decide⟩ (fun _ => 0)
          (e.files crc32ChecksumIEEE anyCodec [.insert 2 [0x3F800000] ∅]) = .ok (e'', disk) ∧
        e''.contents 2 = some ([0x3F800000], ∅) := by
  have hopen : openEngine crc32ChecksumIEEE anyCodec line ⟨1, by decide⟩ (fun _ => 0) Disk.empty =
      .ok (⟨line, new line fun _ => 0, ⟨1, false, false⟩, 0, 0, ∅, ∅⟩, ⟨none, none, some [], none⟩) := rfl
  have hr : Reachable crc32ChecksumIEEE anyCodec line _ := .opened _ _ hopen
  have hvalid : ∀ c ∈ (twoGroups.map Prod.snd).flatten, c.Valid line.dim := by
    simp only [twoGroups, map_cons, map_nil, flatten_cons, flatten_nil, cons_append, nil_append, forall_mem_cons]
    exact ⟨rfl, trivial, trivial, rfl, trivial, by simp⟩
  obtain ⟨e', file, hcommit, hcontents⟩ := (log_application_agrees crc32ChecksumIEEE anyCodec line _ _ []
    (.inl rfl) hr rfl hvalid (by decide)).1 twoGroups rfl (by simp [twoGroups])
  obtain ⟨e'', disk, hreplay, hreplayed⟩ := ((log_application_agrees crc32ChecksumIEEE anyCodec line _
    [.insert 2 [0x3F800000] ∅] [] (.inl rfl) hr rfl (by decide) (by decide)).2.2 (by decide)
    (by decide) ⟨1, by decide⟩ fun _ => 0).mpr ⟨by decide, by simp [new]⟩
  refine ⟨_, e', file, hr, hcommit, ?_, ?_, e'', disk, hreplay, ?_⟩
  · rw [hcontents]
    rfl
  · rw [hcontents]
    rfl
  · rw [hreplayed]
    rfl

/-- A vector inserted at level 1, again at level 0, and another at level 1. -/
noncomputable def lowered : Engine Exact :=
  let e : Engine Exact := ⟨line, new line fun n => if n = 1 then 0 else 1, ⟨1, false, false⟩, 0, 0, ∅, ∅⟩
  [.insert 1 [0] ∅, .insert 1 [0] ∅, .insert 2 [0x41200000] ∅].foldl
    (fun e c => (e.commit crc32ChecksumIEEE anyCodec ⟨1, Nat.one_pos⟩ .ok [] [c]).1) e

/-- The first vector has two lists at level 0: a deletion can be committed, and not replayed. -/
theorem lowered_entry_point_blocks_replay :
    Reachable crc32ChecksumIEEE anyCodec line lowered ∧ lowered.w.readyLocked = .ok () ∧
    lowered.graph.listCount = 4 ∧
    (lowered.commitAll crc32ChecksumIEEE anyCodec [] [(⟨1, by decide⟩, [.delete 2])]).2.2 = .ok () ∧
    openEngine crc32ChecksumIEEE anyCodec line ⟨1, by decide⟩ (fun _ => 0)
      (lowered.files crc32ChecksumIEEE anyCodec [.delete 2]) = .error (.load .invalidFormat) := by
  have hopened : Reachable crc32ChecksumIEEE anyCodec line
      ⟨line, new line fun n => if n = 1 then 0 else 1, ⟨1, false, false⟩, 0, 0, ∅, ∅⟩ :=
    .opened ⟨1, by decide⟩ (fun n => if n = 1 then 0 else 1) rfl
  refine ⟨?_, by decide +kernel, by decide +kernel, by decide +kernel, by decide +kernel⟩
  apply Reachable.commit _ _ _ _ _ (by simp) (by decide)
  apply Reachable.commit _ _ _ _ _ (by simp) (by decide)
  exact Reachable.commit _ _ _ _ hopened (by simp) (by decide)

end NuclaDB
