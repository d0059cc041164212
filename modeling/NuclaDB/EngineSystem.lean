import NuclaDB.EngineAgree
import NuclaDB.EventRun

/-!
# An engine and its directory

The files, the engine that has them open and the snapshot in progress. A commit, each visible
step of a snapshot, and a crash with the `Open` after it are the events.
-/

namespace NuclaDB

open LittleEndian Hnsw

structure Capture (D : Type) where
  graph : Graph D
  seq : UInt64
  metaJSON : Bytes
  walOffset : ℕ

inductive Stage (D : Type)
  | idle
  | captured (c : Capture D)
  | metadataWritten (c : Capture D)
  | snapshotWritten (c : Capture D)
  | tailCopied (c : Capture D)

structure Sys (D : Type) where
  disk : Disk
  engine : Engine D
  stage : Stage D

inductive Event
  | commit (workers : Workers) (cs : List Change) (io : Wal.Outcome)
  | capture (workers : Workers) (rng : ℕ → ℕ)
  | replaceMetadata
  | replaceSnapshot
  | copyTail
  | rename
  | crash (cs : List Change) (n : ℕ) (workers : Workers) (rng : ℕ → ℕ)

namespace Sys

variable {D : Type} [Hnsw.Dist D] (crc : Bytes → UInt32) (J : Codec) (s : Sys D)

def wal : Bytes := s.disk.wal.getD []

def locked : Bool :=
  match s.stage with
  | .tailCopied _ => true
  | _ => false

def commit (workers : Workers) (cs : List Change) (io : Wal.Outcome) : Sys D :=
  if s.locked then s
  else
    let (e, file, _) := s.engine.commit crc J workers io s.wal cs
    { s with disk := { s.disk with wal := some file }, engine := e }

def capture (workers : Workers) (rng : ℕ → ℕ) : Sys D :=
  match s.stage with
  | .idle =>
    match s.engine.compactLocked workers rng with
    | .error _ => s
    | .ok e =>
      match e.w.size s.wal with
      | .error _ => { s with engine := e }
      | .ok offset => { s with
          engine := e
          stage := .captured ⟨e.graph, e.seq, J.all.marshal e.metadata, offset⟩ }
  | _ => s

def replaceMetadata : Sys D :=
  match s.stage with
  | .captured c =>
    { s with disk := { s.disk with metadata := some c.metaJSON }, stage := .metadataWritten c }
  | _ => s

def replaceSnapshot : Sys D :=
  match s.stage with
  | .metadataWritten c => { s with
      disk := { s.disk with snapshot := some (Segment.save c.graph c.seq) }
      stage := .snapshotWritten c }
  | _ => s

def copyTail : Sys D :=
  match s.stage with
  | .snapshotWritten c => { s with
      disk := { s.disk with walNew := some (s.wal.drop c.walOffset) }
      stage := .tailCopied c }
  | _ => s

/-- The end of a rotation: the new log gets a writer and takes the old one's place. -/
def rename : Sys D :=
  match s.stage with
  | .tailCopied c =>
    match Wal.openWriter crc s.disk.walNew s.engine.seq with
    | .error _ => { s with stage := .idle }
    | .ok (w, file) => {
        disk := { s.disk with wal := some file, walNew := none }
        engine := { s.engine with w := w, snapshotSeq := c.seq }
        stage := .idle }
  | _ => s

/-- The files that a crash leaves when `n` bytes of the write of `cs` got to the log. -/
def crashed (cs : List Change) (n : ℕ) : Disk :=
  match s.locked, s.engine.w.readyLocked with
  | false, .ok () =>
    let recs := Wal.Writer.assignSeqs s.engine.w.nextSeq (cs.map (Change.record J))
    { s.disk with wal := some (s.wal ++ ((Wal.walCode crc).encAll recs).take n) }
  | _, _ => s.disk

def step : Event → Except OpenError (Sys D)
  | .commit workers cs io => .ok (s.commit crc J workers cs io)
  | .capture workers rng => .ok (s.capture J workers rng)
  | .replaceMetadata => .ok s.replaceMetadata
  | .replaceSnapshot => .ok s.replaceSnapshot
  | .copyTail => .ok s.copyTail
  | .rename => .ok (s.rename crc)
  | .crash cs n workers rng =>
    match openEngine crc J s.engine.cfg workers rng (s.crashed crc J cs n) with
    | .error e => .error e
    | .ok (e, disk) => .ok ⟨disk, e, .idle⟩

end Sys

end NuclaDB
