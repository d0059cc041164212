import NuclaDB.EngineCommit

/-!
# Opening a directory

`Open` replays the log's records that are newer than the snapshot. Inserts are queued and
given to the graph at the next delete or at the end. The directory has no interrupted
installation.
-/

namespace NuclaDB

open LittleEndian Hnsw Wal

variable {D : Type} [Hnsw.Dist D]

/-- The files of a directory; `walNew` is the log that a rotation is building. -/
structure Disk where
  snapshot : Option Bytes
  metadata : Option Bytes
  wal : Option Bytes
  walNew : Option Bytes
deriving DecidableEq

def Disk.empty : Disk := ⟨none, none, none, none⟩

inductive ReplayError
  | invalidSequence (got after : UInt64)
  | json
  | graph (e : Hnsw.Error)
deriving DecidableEq

inductive OpenError
  | load (e : Segment.LoadError)
  | metadata
  | wal (e : RecoverError ReplayError)
  | graph (e : Hnsw.Error)
deriving DecidableEq

structure Replay (D : Type) where
  queue : Queue D
  metadata : Metadata
  lastSeq : UInt64

section Open
variable (crc : Bytes → UInt32) (J : Codec)

def replayMeta (metadata : Metadata) (rec : Record) : Except ReplayError Metadata :=
  if 0 < rec.extra.length then
    match J.md.unmarshal rec.extra with
    | none => .error .json
    | some md => .ok (metadata.insert rec.id md)
  else .ok (metadata.erase rec.id)

def replayRecord (workers : Workers) (snapshotSeq : UInt64) (s : Replay D) (rec : Record) :
    Except ReplayError (Replay D) :=
  if rec.seq ≤ snapshotSeq then .ok s
  else if rec.seq ≠ s.lastSeq + 1 then .error (.invalidSequence rec.seq s.lastSeq)
  else if rec.op = opInsert ∨ rec.op = opMeta then
    let queue := if rec.op = opInsert then s.queue.push rec else s.queue
    match replayMeta J s.metadata rec with
    | .error e => .error e
    | .ok metadata => .ok ⟨queue, metadata, rec.seq⟩
  else if rec.op = opDelete then
    match s.queue.flush workers with
    | .error e => .error (.graph e)
    | .ok queue => .ok ⟨queue.drop rec.id, s.metadata.erase rec.id, rec.seq⟩
  else .ok { s with lastSeq := rec.seq }

def finishReplay (workers : Workers) (s : Replay D) : Except Hnsw.Error (Graph D × Metadata) :=
  match s.queue.flush workers with
  | .error e => .error e
  | .ok queue =>
    .ok (queue.graph, s.metadata.filter fun id _ => (queue.graph.get id).isSome)

def openFrom (cfg : Config D) (workers : Workers) (g : Graph D) (snapshotSeq : UInt64)
    (metadata : Metadata) (recs : List Record) : Except ReplayError (Engine D) :=
  match recs.foldlM (replayRecord J workers snapshotSeq) ⟨⟨g, []⟩, metadata, snapshotSeq⟩ with
  | .error e => .error e
  | .ok s =>
    match finishReplay workers s with
    | .error e => .error (.graph e)
    | .ok (g, metadata) => .ok ⟨cfg, g, ⟨s.lastSeq + 1, false, false⟩, s.lastSeq, snapshotSeq,
        metadata, buildPostings metadata⟩

def loadMetadata (file : Option Bytes) : Option Metadata :=
  match file with
  | none => some ∅
  | some b => if b.length = 0 then some ∅ else J.all.unmarshal b

def openEngine (cfg : Config D) (workers : Workers) (rng : ℕ → ℕ) (disk : Disk) :
    Except OpenError (Engine D × Disk) :=
  match Segment.load cfg rng disk.snapshot with
  | .error e => .error (.load e)
  | .ok (g, snapshotSeq) =>
    match loadMetadata J disk.metadata with
    | none => .error .metadata
    | some metadata =>
      let out := recover crc (replayRecord J workers snapshotSeq) disk.wal
        ⟨⟨g, []⟩, metadata, snapshotSeq⟩
      match out.err with
      | some e => .error (.wal e)
      | none =>
        match finishReplay workers out.state with
        | .error e => .error (.graph e)
        | .ok (g, metadata) =>
          let (w, file) := openWriterAt disk.wal out.state.lastSeq out.validBytes
          .ok (⟨cfg, g, w, out.state.lastSeq, snapshotSeq, metadata, buildPostings metadata⟩,
            { disk with wal := some file })

section Frames
variable {crc J} {cfg : Config D} {workers : Workers} {rng : ℕ → ℕ} {disk : Disk} {g : Graph D}
  {snapshotSeq : UInt64} {metadata : Metadata} {e : Engine D} {recs : List Record}

theorem openFrom_eq_ok (h : openFrom J cfg workers g snapshotSeq metadata recs = .ok e) :
    ∃ s, recs.foldlM (replayRecord J workers snapshotSeq) ⟨⟨g, []⟩, metadata, snapshotSeq⟩ = .ok s ∧
      ∃ h md, finishReplay workers s = .ok (h, md) ∧ e = ⟨cfg, h, ⟨s.lastSeq + 1, false, false⟩,
        s.lastSeq, snapshotSeq, md, buildPostings md⟩ := by
  simp only [openFrom] at h
  split at h
  · simp at h
  · next s hfold =>
    split at h
    · simp at h
    · next h' md hfinish =>
      simp only [Except.ok.injEq] at h
      exact ⟨s, hfold, h', md, hfinish, h.symm⟩

section
variable (hload : Segment.load cfg rng disk.snapshot = .ok (g, snapshotSeq))
  (hmeta : loadMetadata J disk.metadata = some metadata)
include hload hmeta

section
variable {t : Bytes} (hwal : disk.wal = some ((walCode crc).encAll recs ++ t)) (hrecs : ∀ r ∈ recs, r.Readable)
  (hlinked : Linked 0 recs) (ht : frameAt crc t = none)
include hwal hrecs hlinked ht

theorem openEngine_of_frames
    (hclean : t = [] ∨ CleanTail crc (lastSeqFrom 0 recs) t)
    (hopen : openFrom J cfg workers g snapshotSeq metadata recs = .ok e) :
    openEngine crc J cfg workers rng disk =
      .ok (e, { disk with wal := some ((walCode crc).encAll recs) }) := by
  obtain ⟨s, hfold, h, md, hfinish, rfl⟩ := openFrom_eq_ok hopen
  obtain ⟨hbytes, -, hstate, herr, -⟩ := recover_frames crc _ hrecs hlinked ht hfold
  simp only [openEngine, hload, hmeta, hwal, herr.mpr hclean, hstate, hbytes, hfinish,
    openWriterAt, openAppend, Option.map_some, truncateTo_append, Option.getD_some]

theorem openEngine_clean {out : Engine D × Disk}
    (hfold : openFrom J cfg workers g snapshotSeq metadata recs = .ok e)
    (hopen : openEngine crc J cfg workers rng disk = .ok out) :
    t = [] ∨ CleanTail crc (lastSeqFrom 0 recs) t := by
  obtain ⟨s, hfold, -⟩ := openFrom_eq_ok hfold
  obtain ⟨-, -, -, herr, -⟩ := recover_frames crc _ hrecs hlinked ht hfold
  rw [← herr]
  simp only [openEngine, hload, hmeta, hwal] at hopen
  split at hopen
  · simp at hopen
  · next hnone => exact hnone

end

theorem openEngine_of_missing (hwal : disk.wal = none)
    (hopen : openFrom J cfg workers g snapshotSeq metadata [] = .ok e) :
    openEngine crc J cfg workers rng disk = .ok (e, { disk with wal := some [] }) := by
  obtain ⟨s, hfold, h, md, hfinish, rfl⟩ := openFrom_eq_ok hopen
  simp only [List.foldlM_nil, pure, Except.pure, Except.ok.injEq] at hfold
  subst hfold
  simp only [openEngine, hload, hmeta, hwal, recover, hfinish, openWriterAt,
    openAppend, Option.map_none, Option.getD_none]

end

end Frames

end Open

end NuclaDB
