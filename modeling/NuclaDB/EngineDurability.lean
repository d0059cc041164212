import NuclaDB.EngineSequence

/-!
# What a crash leaves

The snapshot file covers the first `sn` changes, the metadata file the first `mt`, and the
log all from `w0` on, with `w0 ≤ sn ≤ mt`. Replay makes up for the lag.
-/

namespace NuclaDB

open LittleEndian Hnsw KeyedLog Wal Segment List Except Change

section Contents
variable {D : Type} [Hnsw.Dist D]

def contentsAt (cfg : Config D) (L : List Change) (k : ℕ) : Contents :=
  applyAll (fun _ => none) ((L.take k).map (stored cfg.prep))

/-- Preparing the change's vector a second time does not change it. -/
def Change.Stable (cfg : Config D) : Change → Prop
  | .insert _ vector _ => cfg.prep (cfg.prep vector) = cfg.prep vector
  | .delete _ => True
  | .update _ _ => True

variable {cfg : Config D} {L : List Change} {i k : ℕ}

theorem contentsAt_append (hi : i ≤ L.length) (ds : List Change) :
    contentsAt cfg (L ++ ds) i = contentsAt cfg L i := by
  rw [contentsAt, take_append_of_le_length hi, contentsAt]

theorem contentsAt_split (hik : i ≤ k) : contentsAt cfg L k =
      applyAll (contentsAt cfg L i) (((L.take k).drop i).map (stored cfg.prep)) := by
  have hsplit : L.take k = L.take i ++ (L.take k).drop i := by
    have htake : (L.take k).take i = L.take i := by rw [take_take, min_eq_left hik]
    rw [← htake, take_append_drop]
  rw [contentsAt, hsplit, map_append, applyAll, putAll_append, ← hsplit]
  rfl

theorem contentsAt_untouched (hik : i ≤ k) {id : UInt64} (hid : ∀ c ∈ L.drop i, c.id ≠ id) :
    contentsAt cfg L k id = contentsAt cfg L i id := by
  rw [contentsAt_split hik]
  apply putAll_untouched
  simp only [forall_mem_map, id_stored]
  intro c hc
  rw [drop_take] at hc
  exact hid c (mem_of_mem_take hc)

theorem prep_contentsAt (hL : ∀ c ∈ L, c.Stable cfg) (k : ℕ) (id : UInt64) :
    ∀ p, contentsAt cfg L k id = some p → cfg.prep p.1 = p.1 := by
  apply putAll_all (P := fun v => ∀ p : Vec × Meta, v = some p → cfg.prep p.1 = p.1)
  · simp only [forall_mem_map]
    intro c hc _ v hv p hp
    have hstable := hL c (mem_of_mem_take hc)
    cases c with
    | insert id vector md =>
      simp only [stored, act, Option.some.injEq] at hp
      rw [← hp]
      exact hstable
    | delete id => simp [stored, act] at hp
    | update id md =>
      simp only [stored, act, Option.map_eq_some_iff] at hp
      obtain ⟨q, hq, rfl⟩ := hp
      exact hv q hq
  · simp

end Contents

section Invariant
variable {D : Type} [Hnsw.Dist D] (J : Codec) (cfg : Config D)

def SnapHolds (file : Option Bytes) (L : List Change) (i : ℕ) : Prop :=
  ∀ rng, ∃ g, load cfg rng file = .ok (g, UInt64.ofNat i) ∧ g.WF ∧
    (∀ r, g.settings = (new cfg r).settings) ∧
    g.get = fun id => (contentsAt cfg L i id).map (·.1)

def MetaHolds (file : Option Bytes) (L : List Change) (i : ℕ) : Prop :=
  ∃ metadata, loadMetadata J file = some metadata ∧
    ∀ id p, contentsAt cfg L i id = some p → metaAt metadata id = p.2

def Stage.Saves (L : List Change) (mt : ℕ) : Stage D → Prop
  | .captured c => ∃ i, mt ≤ i ∧ i ≤ L.length ∧ c.seq = UInt64.ofNat i ∧
      SnapHolds cfg (some (save c.graph c.seq)) L i ∧ MetaHolds J cfg (some c.metaJSON) L i
  | .metadataWritten c => c.seq = UInt64.ofNat mt ∧ SnapHolds cfg (some (save c.graph c.seq)) L mt
  | .snapshotWritten c => c.seq = UInt64.ofNat mt
  | .tailCopied c => c.seq = UInt64.ofNat mt
  | .idle => True

structure Durable (crc : Bytes → UInt32) (s : Sys D) (L : List Change) (w0 sn mt : ℕ) : Prop where
  log : LogInv crc J cfg s L w0 sn L.length []
  ready : s.engine.w.readyLocked = .ok ()
  stable : ∀ c ∈ L, c.Stable cfg
  contents : s.engine.contents = contentsAt cfg L L.length
  sn_le : sn ≤ mt
  mt_le : mt ≤ L.length
  snapshot : SnapHolds cfg s.disk.snapshot L sn
  metadata : MetaHolds J cfg s.disk.metadata L mt
  stage : s.stage.Saves J cfg L mt

variable {J cfg} {file : Option Bytes} {L : List Change} {i mt : ℕ}

theorem SnapHolds.append (h : SnapHolds cfg file L i) (hi : i ≤ L.length) (ds : List Change) :
    SnapHolds cfg file (L ++ ds) i := by
  rw [SnapHolds, contentsAt_append hi]
  exact h

theorem MetaHolds.append (h : MetaHolds J cfg file L i) (hi : i ≤ L.length) (ds : List Change) :
    MetaHolds J cfg file (L ++ ds) i := by
  rw [MetaHolds, contentsAt_append hi]
  exact h

theorem Stage.Saves.append {stage : Stage D} (h : stage.Saves J cfg L mt) (hmt : mt ≤ L.length)
    (ds : List Change) : stage.Saves J cfg (L ++ ds) mt := by
  cases stage with
  | captured c =>
    obtain ⟨i, hi, hle, hseq, hsnap, hmeta⟩ := h
    refine ⟨i, hi, ?_, hseq, hsnap.append hle ds, hmeta.append hle ds⟩
    rw [length_append]
    omega
  | metadataWritten c => exact ⟨h.1, h.2.append hmt ds⟩
  | idle => trivial
  | snapshotWritten c => exact h
  | tailCopied c => exact h

end Invariant

section Steps
variable {D : Type} [Hnsw.Dist D] {crc : Bytes → UInt32} {J : Codec} {cfg : Config D} {s : Sys D}
  {L : List Change} {w0 sn mt : ℕ}

namespace Durable
variable {cs : List Change}

section
variable (h : Durable J cfg crc s L w0 sn mt)
include h

theorem grow {s' : Sys D} (hlog : LogInv crc J cfg s' (L ++ cs) w0 sn (L ++ cs).length [])
    (hready : s'.engine.w.readyLocked = .ok ()) (hstable : ∀ c ∈ cs, c.Stable cfg)
    (hcontents : s'.engine.contents = applyAll s.engine.contents (cs.map (stored cfg.prep)))
    (hsnap : s'.disk.snapshot = s.disk.snapshot) (hmeta : s'.disk.metadata = s.disk.metadata)
    (hstage : s'.stage = s.stage) : Durable J cfg crc s' (L ++ cs) w0 sn mt := by
  refine ⟨hlog, hready, forall_mem_append.mpr ⟨h.stable, hstable⟩, ?_, h.sn_le, ?_,
    hsnap ▸ h.snapshot.append (h.sn_le.trans h.mt_le) cs, hmeta ▸ h.metadata.append h.mt_le cs,
    hstage ▸ h.stage.append h.mt_le cs⟩
  · rw [hcontents, h.contents, contentsAt, contentsAt, take_length, take_length, map_append]
    exact (putAll_append ..).symm
  · rw [length_append]
    have hmt := h.mt_le
    omega

theorem commit (hlocked : s.locked = false)
    (hne : cs ≠ []) (hcs : s.Loggable J cfg cs) (hstable : ∀ c ∈ cs, c.Stable cfg)
    (workers : Workers) :
    Durable J cfg crc (s.commit crc J workers cs .ok) (L ++ cs) w0 sn mt := by
  have hne' : cs.map (record J) ≠ [] := by simpa using hne
  obtain ⟨hlog, hcontents, hready⟩ := h.log.commit_logged hlocked h.ready hne hcs workers
    (Writer.appendBatch_ready crc h.ready s.wal hne')
  apply h.grow hlog hready hstable hcontents <;> simp [Sys.commit, hlocked]

theorem compact {workers : Workers} {rng : ℕ → ℕ}
    {e : Engine D} (hc : s.engine.compactLocked workers rng = .ok e) :
    e.Kept cfg ∧ e.contents = contentsAt cfg L L.length ∧ e.w = s.engine.w ∧
      e.seq = s.engine.seq ∧ e.snapshotSeq = s.engine.snapshotSeq := by
  obtain ⟨hkept, hcontents, hw, hseq, hsnap⟩ := h.log.kept.compact hc
  refine ⟨hkept, (hcontents fun id v hv => ?_).trans h.contents, hw, hseq, hsnap⟩
  have hid : contentsAt cfg L L.length id = some (v, metaAt s.engine.metadata id) := by
    rw [← h.contents, Engine.contents, hv]
    rfl
  exact prep_contentsAt h.stable _ id _ hid

theorem capture {workers : Workers} {rng : ℕ → ℕ}
    (hloads : ∀ e, s.engine.compactLocked workers rng = .ok e → ∀ rng seq,
      load cfg rng (some (save e.graph seq)) = .ok (e.graph.reseed rng, seq)) :
    Durable J cfg crc (s.capture J workers rng) L w0 sn mt := by
  have hlog := h.log.capture workers rng
  cases hstage : s.stage with
  | idle =>
    simp only [Sys.capture, hstage] at hlog ⊢
    cases hcompact : s.engine.compactLocked workers rng with
    | error err => exact h
    | ok e =>
      obtain ⟨hkept, hcontents, hw, hseq, -⟩ := h.compact hcompact
      have hready : e.w.readyLocked = .ok () := hw ▸ h.ready
      simp only [hcompact, Writer.size, hready] at hlog ⊢
      refine ⟨hlog, hready, h.stable, hcontents, h.sn_le, h.mt_le, h.snapshot, h.metadata, L.length,
        h.mt_le, le_rfl, hseq.trans h.log.seq, fun r => ?_, e.metadata, ?_, ?_⟩
      · refine ⟨e.graph.reseed r, ?_, hkept.sound.wf.of_rng r, hkept.settings, ?_⟩
        · rw [hloads e hcompact r e.seq, hseq, h.log.seq]
        · rw [← hcontents]
          exact e.vecs_contents.symm
      · simp [loadMetadata, J.all.marshal_ne_nil, J.all.unmarshal_marshal]
      · intro id p hp
        rw [← hcontents] at hp
        exact md_of_map hp
  | captured c | metadataWritten c | snapshotWritten c | tailCopied c => simpa only [Sys.capture, hstage] using h

theorem replaceMetadata : ∃ mt', Durable J cfg crc s.replaceMetadata L w0 sn mt' := by
  have hlog := h.log.replaceMetadata
  have hstage := h.stage
  cases hst : s.stage with
  | captured c =>
    rw [hst] at hstage
    obtain ⟨i, hmt, hi, hseq, hsnap, hmeta⟩ := hstage
    simp only [Sys.replaceMetadata, hst] at hlog ⊢
    exact ⟨i, hlog, h.ready, h.stable, h.contents, h.sn_le.trans hmt, hi, h.snapshot, hmeta, hseq, hsnap⟩
  | _ => exact ⟨mt, by simpa only [Sys.replaceMetadata, hst] using h⟩

theorem replaceSnapshot : ∃ sn', Durable J cfg crc s.replaceSnapshot L w0 sn' mt := by
  obtain ⟨sn', hlog, hcapture⟩ := h.log.replaceSnapshot
  have hstage := h.stage
  cases hst : s.stage with
  | metadataWritten c =>
    rw [hst] at hstage
    obtain ⟨hseq, hsnap⟩ := hstage
    have hroom := h.log.holds.room
    have hle := hlog.holds.sn_le
    have hmt := h.mt_le
    have heq : sn' = mt := by
      have hboth := (hcapture c hst).seq.symm.trans hseq
      exact (ofNat_inj (by omega) (by omega)).mp hboth
    subst heq
    simp only [Sys.replaceSnapshot, hst] at hlog ⊢
    exact ⟨sn', hlog, h.ready, h.stable, h.contents, le_rfl, h.mt_le, hsnap, h.metadata, hseq⟩
  | _ => exact ⟨sn, by simpa only [Sys.replaceSnapshot, hst] using h⟩

theorem copyTail : Durable J cfg crc s.copyTail L w0 sn mt := by
  have hlog := h.log.copyTail
  have hstage := h.stage
  simp only [Sys.copyTail] at hlog ⊢
  split at hlog
  · next c hst =>
    rw [hst] at hstage
    exact ⟨hlog, h.ready, h.stable, h.contents, h.sn_le, h.mt_le, h.snapshot, h.metadata, hstage⟩
  · exact h

theorem rename : ∃ w0', Durable J cfg crc (s.rename crc) L w0' sn mt := by
  have hstep := h.log.ack_eq_of_inStep.mpr rfl
  obtain ⟨w0', T', hlog⟩ := h.log.rename fun _ _ _ _ _ => hstep
  have hready := Sys.rename_readyLocked crc h.ready
  obtain rfl := (hlog.ready hready).1
  refine ⟨w0', hlog, hready, h.stable, ?_, h.sn_le, h.mt_le, ?_, ?_, ?_⟩
  · rw [← h.contents]
    simp only [Sys.rename]
    split
    · split <;> rfl
    · rfl
  · simp only [Sys.rename]
    split
    · split <;> exact h.snapshot
    · exact h.snapshot
  · simp only [Sys.rename]
    split
    · split <;> exact h.metadata
    · exact h.metadata
  · simp only [Sys.rename]
    split
    · split <;> trivial
    · exact h.stage

theorem crash (hcs : s.Loggable J cfg cs) (hstable : ∀ c ∈ cs, c.Stable cfg) {n : ℕ}
    (workers : Workers) (rng : ℕ → ℕ)
    (hopens : (recover crc deliver (s.crashed crc J cs n).wal []).err = none ∨
      ∃ out, openEngine crc J cfg workers rng (s.crashed crc J cs n) = .ok out) :
    ∃ j e disk, openEngine crc J cfg workers rng (s.crashed crc J cs n) = .ok (e, disk) ∧
      Durable J cfg crc ⟨disk, e, .idle⟩ (L ++ cs.take j) w0 sn mt := by
  obtain ⟨j, T', hholds, hsnapFile, hmetaFile⟩ := h.log.crashed hcs n
  have hsn := h.sn_le.trans h.mt_le
  have hsnap := h.snapshot.append hsn (cs.take j)
  obtain ⟨md, hmd, hmeta⟩ := h.metadata.append h.mt_le (cs.take j)
  obtain ⟨g, hload, hw, hset, hget⟩ := hsnap rng
  have hmeta' : ∀ id, (∀ c ∈ (L ++ cs.take j).drop sn, c.id ≠ id) →
      ∀ p, contentsAt cfg (L ++ cs.take j) sn id = some p → metaAt md id = p.2 := by
    intro id hid p hp
    apply hmeta id p
    rw [contentsAt_untouched h.sn_le hid, hp]
  obtain ⟨e, hfrom, hkept, hcontents, hseq, hwriter, hsnapSeq⟩ := hholds.replayed hw hset
    (contentsAt cfg (L ++ cs.take j) sn) hget hmeta' workers
  rw [← hsnapFile] at hload
  rw [← hmetaFile] at hmd
  have hclean := hopens.elim
    (fun hrec => (recover_frames crc deliver (hholds.readable w0) (linked_recsFrom w0 _)
      hholds.torn (foldlM_ok (fun rs r => rs ++ [r]) _ [])).2.2.2.1.mp (hholds.wal ▸ hrec))
    fun ⟨_, hopen⟩ => openEngine_clean hload hmd hholds.wal (hholds.readable w0)
      (linked_recsFrom w0 _) hholds.torn hfrom hopen
  refine ⟨j, e, _, openEngine_of_frames hload hmd hholds.wal (hholds.readable w0)
    (linked_recsFrom w0 _) hholds.torn hclean hfrom, hholds.logInv hkept hseq hsnapSeq, ?_,
    forall_mem_append.mpr ⟨h.stable, fun c hc => hstable c (mem_of_mem_take hc)⟩, ?_,
    h.sn_le, ?_, hsnapFile ▸ hsnap, ⟨md, hmd, hmeta⟩, trivial⟩
  · rw [hwriter]
    rfl
  · rw [hcontents, contentsAt_split (hsn.trans (by simp : L.length ≤ (L ++ cs.take j).length)),
      take_length]
  · rw [length_append]
    have hmt := h.mt_le
    omega

end

end Durable

theorem durable_empty {e : Engine D} {disk : Disk} {workers : Workers} {rng : ℕ → ℕ}
    (hopen : openEngine crc J cfg workers rng Disk.empty = .ok (e, disk)) :
    Durable J cfg crc ⟨disk, e, .idle⟩ [] 0 0 0 := by
  obtain ⟨hlog, hcontents⟩ := logInv_empty hopen
  obtain ⟨e', hopen', -, -, -, -, -, hw, -⟩ := openEngine_empty crc J cfg workers rng
  rw [hopen', ok.injEq, Prod.mk.injEq] at hopen
  obtain ⟨rfl, rfl⟩ := hopen
  refine ⟨hlog, ?_, by simp, hcontents, le_rfl, le_rfl, fun r => ?_, ⟨∅, rfl, ?_⟩, trivial⟩
  · rw [hw]
    rfl
  · exact ⟨new cfg r, rfl, Graph.new_wf cfg r, fun _ => rfl, rfl⟩
  · simp [contentsAt, applyAll]

end Steps

section Runs
variable {D : Type} [Hnsw.Dist D] (crc : Bytes → UInt32) (J : Codec)

open EventRun

/-- A run: commits whose write succeeds, captures of a graph that its snapshot file loads back as, and
crashes after which recovery finds no fault with the log. -/
def Sys.Allowed (cfg : Config D) (s : Sys D) : Event → Prop
  | .commit _ cs io => io = .ok ∧ cs ≠ [] ∧ s.locked = false ∧ s.Loggable J cfg cs
  | .capture workers rng => ∀ e, s.engine.compactLocked workers rng = .ok e → ∀ rng seq,
      load cfg rng (some (save e.graph seq)) = .ok (e.graph.reseed rng, seq)
  | .crash cs n _ _ => s.Loggable J cfg cs ∧
      (recover crc deliver (s.crashed crc J cs n).wal []).err = none
  | _ => True

def Sys.Acknowledges (s : Sys D) : Event → Prop
  | .commit workers cs io => (s.engine.commit crc J workers io s.wal cs).2.2 = .ok ()
  | _ => True

def Event.Adds : Event → List Change → Prop
  | .commit _ cs _, part => part = cs
  | .crash cs _ _ _, part => part <+: cs
  | _, part => part = []

def Event.logs : Event → List Change
  | .commit _ cs _ => cs
  | .crash cs _ _ _ => cs
  | _ => []

variable {crc J} {cfg : Config D} {s : Sys D} {L : List Change}

theorem Durable.step {w0 sn mt : ℕ} (h : Durable J cfg crc s L w0 sn mt) {ev : Event}
    (hev : s.Allowed crc J cfg ev) (hstable : ∀ c ∈ ev.logs, c.Stable cfg) :
    ∃ s' part, s.step crc J ev = .ok s' ∧ s.Acknowledges crc J ev ∧ ev.Adds part ∧
      ∃ w0 sn mt, Durable J cfg crc s' (L ++ part) w0 sn mt := by
  cases ev with
  | commit workers cs io =>
    obtain ⟨rfl, hne, hlocked, hcs⟩ := hev
    have hne' : cs.map (record J) ≠ [] := by simpa using hne
    obtain ⟨e, hcommit, -⟩ := h.log.kept.commit_logged workers hne (fun c hc => (hcs.1 c hc).1)
      (Writer.appendBatch_ready crc h.ready s.wal hne')
    refine ⟨_, cs, rfl, ?_, rfl, w0, sn, mt, h.commit hlocked hne hcs hstable workers⟩
    rw [Sys.Acknowledges, hcommit]
  | capture workers rng =>
    exact ⟨_, [], rfl, trivial, rfl, w0, sn, mt, by simpa using h.capture hev⟩
  | replaceMetadata =>
    obtain ⟨mt', h'⟩ := h.replaceMetadata
    exact ⟨_, [], rfl, trivial, rfl, w0, sn, mt', by simpa using h'⟩
  | replaceSnapshot =>
    obtain ⟨sn', h'⟩ := h.replaceSnapshot
    exact ⟨_, [], rfl, trivial, rfl, w0, sn', mt, by simpa using h'⟩
  | copyTail => exact ⟨_, [], rfl, trivial, rfl, w0, sn, mt, by simpa using h.copyTail⟩
  | rename =>
    obtain ⟨w0', h'⟩ := h.rename
    exact ⟨_, [], rfl, trivial, rfl, w0', sn, mt, by simpa using h'⟩
  | crash cs n workers rng =>
    obtain ⟨j, e, disk, hopen, h'⟩ := h.crash hev.1 hstable workers rng (.inl hev.2)
    refine ⟨⟨disk, e, .idle⟩, cs.take j, ?_, trivial, take_prefix j cs, w0, sn, mt, h'⟩
    simp only [Sys.step, h.log.kept.cfg_eq, hopen]

variable (crc J)

/-- Every commit of a run is acknowledged, every `Open` after a crash succeeds, and the engine then
holds what the commits so far and a first part of each interrupted write come to. -/
theorem acknowledged_survive_crashes (cfg : Config D) (workers : Workers) (rng : ℕ → ℕ)
    (e : Engine D) (disk : Disk) (evs : List Event)
    (hmetric : metricName cfg = "l2" ∨ metricName cfg = "dot")
    (hopen : openEngine crc J cfg workers rng Disk.empty = .ok (e, disk))
    (hevs : Along (Sys.step crc J) (Sys.Allowed crc J cfg) ⟨disk, e, .idle⟩ evs) :
    Along (Sys.step crc J) (Sys.Acknowledges crc J) ⟨disk, e, .idle⟩ evs ∧
      ∃ s parts, run (Sys.step crc J) ⟨disk, e, .idle⟩ evs = .ok s ∧ Forall₂ Event.Adds evs parts ∧
        s.engine.contents = applyAll (fun _ => none) parts.flatten := by
  have hprep := Config.prep_of_metricName hmetric
  have hstable : ∀ c : Change, c.Stable cfg := by
    intro c
    cases c with
    | insert id vector md => exact hprep _
    | delete id => trivial
    | update id md => trivial
  have hstart : ∃ w0 sn mt, Durable J cfg crc ⟨disk, e, .idle⟩ [] w0 sn mt :=
    ⟨0, 0, 0, durable_empty hopen⟩
  obtain ⟨hacked, s, parts, hrun, hadds, w0, sn, mt, h⟩ := run_accumulates
    (I := fun s L => ∃ w0 sn mt, Durable J cfg crc s L w0 sn mt) (R := Sys.Acknowledges crc J)
    (by
      rintro s L ev ⟨w0, sn, mt, h⟩ hev
      exact h.step hev fun c _ => hstable c) hstart hevs
  refine ⟨hacked, s, parts, hrun, hadds, ?_⟩
  rw [h.contents, contentsAt, take_length, map_stored hprep, nil_append]

end Runs

section Example

open EventRun

/-- An insert after a capture, and a crash with five bytes of another insert in the log. -/
def crashRun : List Event :=
  [.capture one fun _ => 0, .commit one [firstInsert] .ok, .replaceMetadata, .replaceSnapshot,
    .crash [secondInsert] 5 one fun _ => 0]

theorem crashRun_allowed :
    Along (Sys.step crc32ChecksumIEEE anyCodec) (Sys.Allowed crc32ChecksumIEEE anyCodec line)
      ⟨⟨none, none, some [], none⟩, freshEngine, .idle⟩ crashRun := by
  refine ⟨fun e he rng seq => ?_, fun s hs => ?_⟩
  · obtain rfl : freshEngine = e := ok.inj he
    exact load_freshEngine rng seq
  · obtain rfl := ok.inj hs
    refine ⟨⟨rfl, by simp, rfl, by decide +kernel⟩, fun s hs => ?_⟩
    obtain rfl := ok.inj hs
    refine ⟨trivial, fun s hs => ?_⟩
    obtain rfl := ok.inj hs
    refine ⟨trivial, fun s hs => ?_⟩
    obtain rfl := ok.inj hs
    exact ⟨⟨by decide +kernel, by decide +kernel⟩, fun _ _ => trivial⟩

theorem insert_survives_crash : ∃ s : Sys Exact, run (Sys.step crc32ChecksumIEEE anyCodec)
        ⟨⟨none, none, some [], none⟩, freshEngine, .idle⟩ crashRun = .ok s ∧
      s.engine.contents 1 = some ([0], ∅) := by
  obtain ⟨-, s, parts, hrun, hadds, hcontents⟩ := acknowledged_survive_crashes crc32ChecksumIEEE
    anyCodec line one (fun _ => 0) freshEngine _ _ (.inl rfl) (freshEngine_eq_open _)
    crashRun_allowed
  simp only [crashRun, List.forall₂_cons_left_iff, List.forall₂_nil_left_iff, Event.Adds] at hadds
  obtain ⟨_, _, rfl, ⟨_, _, rfl, ⟨_, _, rfl, ⟨_, _, rfl, ⟨p, _, hp, rfl, rfl⟩, rfl⟩, rfl⟩, rfl⟩,
    rfl⟩ := hadds
  refine ⟨s, hrun, ?_⟩
  rw [hcontents]
  change putAll Change.id act (fun _ => none) ([firstInsert] ++ (p ++ [])) 1 = _
  rw [putAll_append, putAll_untouched]
  · rfl
  · intro c hc
    rw [append_nil] at hc
    rw [mem_singleton.mp (hp.subset hc)]
    decide

end Example

end NuclaDB
