import NuclaDB.LeaderFiles
import NuclaDB.LoadSnapshot

/-!
# An engine as a replica

A replica's history grows by the leader's records, and a loaded snapshot replaces it. A `Node`
is an engine with its whole directory.
-/

namespace NuclaDB

open LittleEndian Hnsw KeyedLog Install FileScript Wal List

section Replicate
variable {D : Type} [Hnsw.Dist D] (crc : Bytes → UInt32) (J : Codec)

def Sys.replicate (s : Sys D) (rec : Record) : Sys D × Except EngineError Unit :=
  let (e, file, result) := s.engine.applyReplicated crc J .ok s.wal rec
  ({ s with disk := { s.disk with wal := some file }, engine := e }, result)

variable {crc J} {cfg : Config D} {s : Sys D} {L : List Change} {w0 sn mt : ℕ}

section
variable (h : Durable J cfg crc s L w0 sn mt)
include h

theorem Durable.disk_wal : s.disk.wal = some s.wal := by
  rw [Sys.wal, h.log.holds.wal]
  rfl

theorem Durable.nextSeq : s.engine.w.nextSeq = UInt64.ofNat L.length + 1 := by
  rw [h.log.kept.next h.ready, h.log.seq]

theorem Durable.replicate (hlocked : s.locked = false) {c : Change}
    (hc : c.Valid cfg.dim) (hread : (c.record J).Readable) (hstable : c.Stable cfg)
    (hroom : L.length + 1 < 2 ^ 64) :
    ∃ s', s.replicate crc J (c.logged J (UInt64.ofNat L.length + 1)) = (s', .ok ()) ∧
      Durable J cfg crc s' (L ++ [c]) w0 sn mt ∧ s'.stage = s.stage := by
  have hnext : (c.logged J (UInt64.ofNat L.length + 1)).seq = s.engine.w.nextSeq := h.nextSeq.symm
  obtain ⟨e, happly, hkept, hcontents, hw, hsnap, hseq⟩ := h.log.kept.replicate_logged hc
    (Writer.appendRecord_ready crc h.ready s.wal hnext)
  have hready : e.w.readyLocked = .ok () := by
    rw [hw]
    exact h.ready
  have hlen : (L ++ [c]).length = L.length + 1 := by simp
  have hcount : e.seq = UInt64.ofNat (L ++ [c]).length := by
    rw [hseq, hlen, UInt64.ofNat_add]
    rfl
  have hw0 : w0 ≤ L.length := h.log.holds.w0_le.trans h.log.holds.sn_le
  have hfile : s.wal ++ encodeRecord crc (c.logged J (UInt64.ofNat L.length + 1)) =
      (walCode crc).encAll (recsFrom J w0 (L ++ [c])) ++ [] := by
    have hone := FrameCode.encAll_singleton (C := walCode crc)
      (c.logged J (UInt64.ofNat L.length + 1))
    rw [recsFrom_append hw0, FrameCode.encAll_append, h.log.wal_eq, append_nil, append_nil]
    exact congrArg _ hone.symm
  have hlog := h.log.grow hlocked hkept (forall_mem_singleton.mpr ⟨hc, hread⟩)
    (by rwa [hlen]) hfile (walCode crc).dec_nil hcount (by omega) le_rfl
    (fun _ => ⟨rfl, rfl⟩) hsnap
  refine ⟨{ s with
      disk := { s.disk with
        wal := some (s.wal ++ encodeRecord crc (c.logged J (UInt64.ofNat L.length + 1))) }
      engine := e }, ?_, ?_, rfl⟩
  · simp only [Sys.replicate, happly]
  · exact h.grow hlog hready (forall_mem_singleton.mpr hstable) hcontents rfl rfl rfl

theorem Durable.replicate_refused {rec : Record} (hseq : rec.seq ≠ UInt64.ofNat L.length + 1) :
    ∃ err, s.replicate crc J rec = (s, .error err) := by
  have hout : s.engine.w.appendRecord crc .ok s.wal rec =
      (s.engine.w, s.wal, .error (.outOfOrder rec.seq s.engine.w.nextSeq)) := by
    simp only [Writer.appendRecord, h.ready, h.nextSeq, ne_eq, hseq, not_false_eq_true, if_true]
  refine ⟨.wal (.outOfOrder rec.seq s.engine.w.nextSeq), ?_⟩
  simp only [Sys.replicate, Engine.applyReplicated, hout, ← h.disk_wal]

end

end Replicate

section Load
variable {D : Type} [Hnsw.Dist D] {crc : Bytes → UInt32} {J : Codec} {cfg : Config D} {L : List Change} {i : ℕ}
variable {file : Option Bytes}

theorem contentsAt_take (cfg : Config D) (L : List Change) (i : ℕ) :
    contentsAt cfg (L.take i) i = contentsAt cfg L i := by
  rw [contentsAt, take_take, min_self, contentsAt]

theorem SnapHolds.take (h : SnapHolds cfg file L i) : SnapHolds cfg file (L.take i) i := by
  rw [SnapHolds, contentsAt_take]
  exact h

theorem MetaHolds.take (h : MetaHolds J cfg file L i) : MetaHolds J cfg file (L.take i) i := by
  rw [MetaHolds, contentsAt_take]
  exact h

theorem SnapHolds.snapAt (h : SnapHolds cfg file L i) : SnapAt cfg file i := by
  intro rng g seq hload
  obtain ⟨g', hload', -⟩ := h rng
  rw [hload', Except.ok.injEq, Prod.mk.injEq] at hload
  exact hload.2.symm

theorem durable_afterLoad {rng : ℕ → ℕ} {snapshot metadata : Bytes} {l : Loaded D} {e : Engine D}
    (hkept : e.Kept cfg) (hL : ∀ c ∈ L, c.Valid cfg.dim ∧ (c.record J).Readable)
    (hstable : ∀ c ∈ L, c.Stable cfg) (hroom : L.length < 2 ^ 64) (hi : i ≤ L.length)
    (hsnap : SnapHolds cfg (some snapshot) L i) (hmeta : MetaHolds J cfg (some metadata) L i)
    (hof : l.Of J cfg rng snapshot metadata (UInt64.ofNat i)) (synced : Bool) (walNew : Option Bytes) :
    Durable J cfg crc ⟨⟨some snapshot, some metadata, some [], walNew⟩,
      afterLoad e (some (l, synced)), .idle⟩ (L.take i) i i i := by
  obtain ⟨g, hload, hwf, hset, hget⟩ := hsnap rng
  obtain ⟨md, hmd, hall⟩ := hmeta
  obtain ⟨md', hmd', hfilter⟩ := hof.metadata
  obtain rfl : md = md' := Option.some.inj (hmd.symm.trans hmd')
  obtain rfl : g = l.graph := congrArg Prod.fst (Except.ok.inj (hload.symm.trans hof.load))
  have hlen : (L.take i).length = i := by simpa using hi
  have hlive : ∀ id, metaAt l.metadata id = if (l.graph.get id).isSome then metaAt md id else ∅ := by
    intro id
    rw [hfilter]
    exact metaAt_filter md (fun id => (l.graph.get id).isSome) id
  have hkept' : (afterLoad e (some (l, synced))).Kept cfg := by
    refine ⟨⟨hwf, ?_, fun id hnone => ?_⟩, hkept.cfg_eq, hset, fun _ => rfl⟩
    · exact (congrArg (·.1.dim) (hset fun _ => 0)).trans (congrArg Config.dim hkept.cfg_eq.symm)
    · rw [show (afterLoad e (some (l, synced))).metadata = l.metadata from rfl, hlive,
        show l.graph.get id = none from hnone]
      rfl
  have hcontents : (afterLoad e (some (l, synced))).contents = contentsAt cfg L i := by
    funext id
    change (l.graph.get id).map (fun v => (v, metaAt l.metadata id)) = _
    have hid := congrFun hget id
    cases hat : contentsAt cfg L i id with
    | none => simp [hid, hat]
    | some p => simp [hlive, hid, hat, hall id p hat]
  have hmem : ∀ c ∈ L.take i, c ∈ L := fun c hc => mem_of_mem_take hc
  have hwal : (walCode crc).encAll (recsFrom J i (L.take i)) ++ [] = [] := by
    rw [recsFrom_eq_nil hlen.le]
    rfl
  have hlog : LogInv crc J cfg ⟨⟨some snapshot, some metadata, some [], walNew⟩,
      afterLoad e (some (l, synced)), .idle⟩ (L.take i) i i (L.take i).length [] :=
    ⟨hkept', ⟨fun c hc => hL c (hmem c hc), by omega, le_rfl, hlen.ge, congrArg some hwal.symm,
      (walCode crc).dec_nil, hsnap.snapAt⟩, hlen.ge, le_rfl, by rw [hlen]; exact hof.seq_eq,
      fun _ => ⟨rfl, rfl⟩, ⟨i, le_rfl, le_rfl, hof.seq_eq⟩, trivial⟩
  refine ⟨hlog, rfl, fun c hc => hstable c (hmem c hc), ?_, le_rfl, hlen.ge, hsnap.take,
    MetaHolds.take ⟨md, hmd, hall⟩, trivial⟩
  rw [hlen, contentsAt_take]
  exact hcontents

end Load

section Reopen
variable {D : Type} [Hnsw.Dist D] {crc : Bytes → UInt32} {J : Codec} {cfg : Config D} {s : Sys D}
  {L : List Change} {w0 sn mt : ℕ}

theorem Durable.reopen (h : Durable J cfg crc s L w0 sn mt) (workers : Workers) (rng : ℕ → ℕ) :
    ∃ e disk, openEngine crc J cfg workers rng s.disk = .ok (e, disk) ∧
      Durable J cfg crc ⟨disk, e, .idle⟩ L w0 sn mt := by
  have hsame : s.crashed crc J [] 0 = s.disk := by
    simp only [Sys.crashed]
    split
    · simp [← h.disk_wal]
    · rfl
  have hrec : (recover crc deliver (s.crashed crc J [] 0).wal []).err = none := by
    rw [hsame, h.log.holds.wal]
    exact recover_short crc deliver (h.log.holds.readable w0) (linked_recsFrom w0 L) (by simp)
      (foldlM_ok (fun rs r => rs ++ [r]) _ [])
  have hnone : s.Loggable J cfg [] := by
    refine ⟨by simp, ?_⟩
    rw [h.log.toNat_seq]
    exact h.log.holds.room
  obtain ⟨j, e, disk, hopen, h'⟩ := h.crash hnone (by simp) workers rng (.inl hrec)
  rw [hsame] at hopen
  exact ⟨e, disk, hopen, by simpa using h'⟩

end Reopen

structure Node (D : Type) where
  sys : Sys D
  rest : Files Name

namespace Node

variable {D : Type} [Hnsw.Dist D] (crc : Bytes → UInt32) (J : Codec) (M : Json (Target → Bool)) (cfg : Config D)
variable {d : Files Name} {rng : ℕ → ℕ}

def dir (n : Node D) : Files Name := withDisk n.rest n.sys.disk

/-- `LoadSnapshot`; the result is whether it went well, unless nothing was loaded. -/
def load (n : Node D) (rng : ℕ → ℕ) (snapshot metadata : Bytes) (seq : UInt64) (faults : List Fault) :
    Node D × Option Bool :=
  let out := (loadSnapshot J M cfg rng snapshot metadata seq).run n.dir faults
  (⟨⟨diskOf out.2 n.sys.disk.walNew, afterLoad n.sys.engine out.1, n.sys.stage⟩, out.2⟩, out.1.map (·.2))

def restart (workers : Workers) (rng : ℕ → ℕ) (interrupted : List ℕ) (d : Files Name)
    (walNew : Option Bytes) : Except DirectoryError (Node D) :=
  match (recoverSnapshotInstall M).run
    (interrupted.foldl (fun d k => (recoverSnapshotInstall M).crashed d [] k) d) [] with
  | (false, _) => .error .install
  | (true, d) =>
    match openEngine crc J cfg workers rng (diskOf d walNew) with
    | .error err => .error (.opening err)
    | .ok (e, disk) => .ok ⟨⟨disk, e, .idle⟩, d⟩

structure Holds (n : Node D) (L : List Change) : Prop where
  sys : ∃ w0 sn mt, Durable J cfg crc n.sys L w0 sn mt
  marker : n.rest .marker = none

variable {crc J M cfg} {n : Node D} {L : List Change}

theorem Holds.unmarked (h : n.Holds crc J cfg L) : Unmarked (fun t => n.dir (.live t)) n.dir :=
  ⟨h.marker, fun _ => rfl⟩

omit [Hnsw.Dist D] in
theorem diskOf_of_live {d' : Files Name} {disk : Disk} (h : ∀ t, d' (.live t) = withDisk d disk (.live t)) :
    diskOf d' disk.walNew = disk := by
  rw [diskOf, h, h, h]
  rfl

variable (crc J cfg) in
theorem restart_eq {d' : Files Name} {disk : Disk}
    (hsettles : Settles M (fun t => withDisk d disk (.live t)) d') (workers : Workers) (rng : ℕ → ℕ)
    (interrupted : List ℕ) :
    ∃ rest, restart crc J M cfg workers rng interrupted d' disk.walNew =
        (match openEngine crc J cfg workers rng disk with
        | .error err => .error (.opening err)
        | .ok (e, disk) => .ok ⟨⟨disk, e, .idle⟩, rest⟩) ∧
      rest .marker = none := by
  obtain ⟨hok, hrec⟩ := recoveries_settle hsettles interrupted
  simp only [restart]
  generalize (recoverSnapshotInstall M).run _ [] = out at hok hrec ⊢
  obtain ⟨ok, rest⟩ := out
  obtain rfl : ok = true := hok
  refine ⟨rest, ?_, hrec.marker⟩
  simp only [diskOf_of_live hrec.live]

theorem Holds.restart (h : n.Holds crc J cfg L)
    (hsettles : Settles M (fun t => n.dir (.live t)) d) (workers : Workers) (rng : ℕ → ℕ)
    (interrupted : List ℕ) :
    ∃ n', Node.restart crc J M cfg workers rng interrupted d n.sys.disk.walNew = .ok n' ∧
      n'.Holds crc J cfg L := by
  obtain ⟨w0, sn, mt, hd⟩ := h.sys
  obtain ⟨e, disk, hopen, hd'⟩ := hd.reopen workers rng
  obtain ⟨rest, hrestart, hmarker⟩ := restart_eq crc J cfg hsettles workers rng interrupted
  rw [hopen] at hrestart
  exact ⟨_, hrestart, ⟨w0, sn, mt, hd'⟩, hmarker⟩

structure Ships (J : Codec) (cfg : Config D) (snapshot metadata : Bytes) (seq : UInt64)
    (L : List Change) (i : ℕ) : Prop where
  le : i ≤ L.length
  seq : seq = UInt64.ofNat i
  snapshot : SnapHolds cfg (some snapshot) L i
  metadata : MetaHolds J cfg (some metadata) L i

variable {snapshot metadata : Bytes} {seq : UInt64} {i : ℕ} {s : Sys D} {w0 sn mt : ℕ}

section
variable (h : Ships J cfg snapshot metadata seq L i)
include h

theorem Ships.append (ds : List Change) : Ships J cfg snapshot metadata seq (L ++ ds) i :=
  ⟨h.le.trans (by simp), h.seq, h.snapshot.append h.le ds, h.metadata.append h.le ds⟩

theorem Ships.loaded (rng : ℕ → ℕ) : ∃ l : Loaded D, l.Of J cfg rng snapshot metadata seq := by
  obtain ⟨g, hload, -⟩ := h.snapshot rng
  obtain ⟨md, hmd, -⟩ := h.metadata
  exact ⟨⟨g, seq, md.filter fun id _ => (g.get id).isSome⟩, h.seq ▸ hload, rfl, md, hmd, rfl⟩

theorem Ships.durable (hsource : Durable J cfg crc s L w0 sn mt) {e : Engine D} (hkept : e.Kept cfg)
    {l : Loaded D} (hl : l.Of J cfg rng snapshot metadata seq) (synced : Bool) (walNew : Option Bytes) :
    Durable J cfg crc ⟨⟨some snapshot, some metadata, some [], walNew⟩,
      afterLoad e (some (l, synced)), .idle⟩ (L.take i) i i i :=
  durable_afterLoad hkept hsource.log.holds.valid hsource.stable hsource.log.holds.room h.le h.snapshot
    h.metadata (h.seq ▸ hl) synced walNew

end

theorem diskOf_loaded (h : Unmarked (fun t => some (loadedFiles snapshot metadata t)) d)
    (walNew : Option Bytes) : diskOf d walNew = ⟨some snapshot, some metadata, some [], walNew⟩ := by
  rw [diskOf, h.live, h.live, h.live]
  rfl

section
variable (h : n.Holds crc J cfg L)
include h

theorem Holds.load (hidle : n.sys.stage = .idle) (rng : ℕ → ℕ) {faults : List Fault}
    (hfaults : ∀ ev ∈ (loadSnapshot J M cfg rng snapshot metadata seq).log n.dir faults,
      Tolerated False ev.label ev.op ev.fault) {after : Node D} {result : Option Bool}
    (hload : n.load J M cfg rng snapshot metadata seq faults = (after, result)) :
    (result = none → after.sys = n.sys ∧ after.Holds crc J cfg L) ∧
      ∀ synced, result = some synced →
        ∀ L' i s w0 sn mt, Ships J cfg snapshot metadata seq L' i → Durable J cfg crc s L' w0 sn mt →
          after.sys.stage = .idle ∧ after.Holds crc J cfg (L'.take i) := by
  obtain ⟨rfl, rfl⟩ := Prod.mk.inj hload
  have hend := ((loadSnapshot_safe (A := False) False.elim h.unmarked).run hfaults).2
  generalize (loadSnapshot J M cfg rng snapshot metadata seq).run n.dir faults = out at hend ⊢
  obtain ⟨r, d⟩ := out
  constructor
  · intro hnone
    obtain rfl : r = none := Option.map_eq_none_iff.mp hnone
    have hlive : diskOf d n.sys.disk.walNew = n.sys.disk := diskOf_of_live (d := n.rest) hend.live
    have hmarker : d .marker = none := hend.marker.resolve_right fun hleft => hleft.1
    refine ⟨?_, ?_, hmarker⟩
    · simp only [hlive, afterLoad]
    · simp only [hlive, afterLoad]
      exact h.sys
  · intro synced hsome L' i s w0 sn mt hships hsource
    obtain ⟨⟨l, ok⟩, rfl, -⟩ := Option.map_eq_some_iff.mp hsome
    obtain ⟨hof, hunmarked⟩ : l.Of J cfg rng snapshot metadata seq ∧
      Unmarked (fun t => some (loadedFiles snapshot metadata t)) d := hend
    obtain ⟨w0', sn', mt', hd⟩ := h.sys
    refine ⟨hidle, ⟨i, i, i, ?_⟩, hunmarked.marker⟩
    simp only [diskOf_loaded hunmarked, hidle]
    exact hships.durable hsource hd.log.kept hof ok _

theorem Holds.restart_loading {L' : List Change}
    (hships : Ships J cfg snapshot metadata seq L' i) (hsource : Durable J cfg crc s L' w0 sn mt)
    {faults : List Fault}
    (hfaults : ∀ ev ∈ (loadSnapshot J M cfg rng snapshot metadata seq).log n.dir faults,
      Tolerated False ev.label ev.op ev.fault) (ops : ℕ) (workers : Workers) (rng' : ℕ → ℕ)
    (interrupted : List ℕ) :
    ∃ n', Node.restart crc J M cfg workers rng' interrupted
        ((loadSnapshot J M cfg rng snapshot metadata seq).crashed n.dir faults ops)
        n.sys.disk.walNew = .ok n' ∧
      (n'.Holds crc J cfg L ∨ n'.Holds crc J cfg (L'.take i)) := by
  have hsettles := (loadSnapshot_safe (A := False) False.elim h.unmarked).crashed hfaults ops
  rcases hsettles with hold | hnew
  · obtain ⟨n', hrestart, hn'⟩ := h.restart hold workers rng' interrupted
    exact ⟨n', hrestart, .inl hn'⟩
  · obtain ⟨w0', sn', mt', hd⟩ := h.sys
    obtain ⟨l, hl⟩ := hships.loaded rng'
    have hloaded := hships.durable hsource hd.log.kept hl true n.sys.disk.walNew
    obtain ⟨e, disk, hopen, hd'⟩ := hloaded.reopen workers rng'
    have hfiles : (fun t => some (loadedFiles snapshot metadata t)) = fun t =>
        withDisk n.rest ⟨some snapshot, some metadata, some [], n.sys.disk.walNew⟩ (.live t) := by
      funext t
      cases t <;> rfl
    rw [hfiles] at hnew
    obtain ⟨rest, hrestart, hmarker⟩ := restart_eq crc J cfg hnew workers rng' interrupted
    rw [hopen] at hrestart
    exact ⟨_, hrestart, .inr ⟨⟨i, i, i, hd'⟩, hmarker⟩⟩

theorem Holds.restart_committing {cs : List Change}
    (hcs : n.sys.Loggable J cfg cs) (hstable : ∀ c ∈ cs, c.Stable cfg) {k : ℕ}
    (workers : Workers) (rng : ℕ → ℕ) (interrupted : List ℕ)
    (hopens : (recover crc deliver (n.sys.crashed crc J cs k).wal []).err = none ∨
      ∃ n', Node.restart crc J M cfg workers rng interrupted
        (withDisk n.rest (n.sys.crashed crc J cs k)) (n.sys.crashed crc J cs k).walNew = .ok n') :
    ∃ n' j, Node.restart crc J M cfg workers rng interrupted
        (withDisk n.rest (n.sys.crashed crc J cs k)) (n.sys.crashed crc J cs k).walNew = .ok n' ∧
      n'.Holds crc J cfg (L ++ cs.take j) := by
  obtain ⟨w0, sn, mt, hd⟩ := h.sys
  have hsettles : Settles M (fun t => withDisk n.rest (n.sys.crashed crc J cs k) (.live t))
      (withDisk n.rest (n.sys.crashed crc J cs k)) := .inl ⟨h.marker, fun _ => rfl⟩
  obtain ⟨rest, hrestart, hmarker⟩ := restart_eq crc J cfg hsettles workers rng interrupted
  rw [hrestart] at hopens ⊢
  obtain ⟨j, e, disk, hopen, hd'⟩ := hd.crash hcs hstable workers rng <| hopens.imp_right fun ⟨_, hn'⟩ => by
    split at hn'
    · cases hn'
    · next hopen => exact ⟨_, hopen⟩
  rw [hopen]
  exact ⟨_, j, rfl, ⟨w0, sn, mt, hd'⟩, hmarker⟩

theorem Holds.toNat_seq : n.sys.engine.seq.toNat = L.length := by
  obtain ⟨w0, sn, mt, hd⟩ := h.sys
  exact hd.log.toNat_seq

theorem Holds.contents : n.sys.engine.contents = contentsAt cfg L L.length := by
  obtain ⟨w0, sn, mt, hd⟩ := h.sys
  exact hd.contents

end

end Node

end NuclaDB
