import NuclaDB.HnswSnapshot
import NuclaDB.IndexedCursor

/-!
# The snapshot file

A file is a header, the nodes and a checksum trailer. The loader goes over the nodes twice.
Version 1 files have neither the configuration fields nor the trailer.
-/

namespace NuclaDB.Segment
open LittleEndian Hnsw

def magicV1 : Bytes := [0x4E, 0x55, 0x43, 0x4C, 0x41, 0x44, 0x42, 0x31]

def magic : Bytes := [0x4E, 0x55, 0x43, 0x4C, 0x41, 0x44, 0x42, 0x32]

def maxSnapshotLevel : ℕ := 64

inductive LoadError
  | invalidFormat
  | checksum
  | configMismatch (dim : UInt32) (name : Bytes)
  | nodeMismatch (id : UInt64) (dim : UInt32)
  | decoding (node : ℕ) (err : LoadError)
deriving DecidableEq

variable {D : Type} [Hnsw.Dist D]

def metricName (cfg : Config D) : String :=
  match cfg.metric with
  | none => "cosine"
  | some metric => metric.name

def nameBytes (name : String) : Bytes := name.toUTF8.data.toList

section Writer

def writeLayer (ids : List UInt64) : Bytes :=
  putUint32 (UInt32.ofNat ids.length) ++ ids.flatMap putUint64

def writeNode (nd : NodeState) : Bytes :=
  putUint64 nd.id ++ putUint32 (UInt32.ofNat nd.level) ++ [if nd.deleted then 1 else 0] ++
    putUint32 (UInt32.ofNat nd.vector.length) ++ nd.vector.flatMap putUint32 ++
    putUint32 (UInt32.ofNat nd.neighbors.length) ++ nd.neighbors.flatMap writeLayer

def writeHeader (cfg : Config D) (count : ℕ) (entryPoint : UInt64) (maxLevel : ℕ)
    (hasEntry : Bool) (walSeq : UInt64) : Bytes :=
  putUint64 walSeq ++ [if hasEntry then 1 else 0] ++ putUint64 entryPoint ++
    putUint32 (UInt32.ofNat maxLevel) ++ putUint64 (UInt64.ofNat count) ++
    putUint32 (UInt32.ofNat cfg.dim) ++ [UInt8.ofNat (nameBytes (metricName cfg)).length] ++
    nameBytes (metricName cfg)

def writeSnapshot (cfg : Config D) (nodes : List NodeState) (entryPoint : UInt64) (maxLevel : ℕ)
    (hasEntry : Bool) (walSeq : UInt64) : Bytes :=
  let body := magic ++ writeHeader cfg nodes.length entryPoint maxLevel hasEntry walSeq ++
    nodes.flatMap writeNode
  body ++ putUint32 (crc32ChecksumIEEE body)

def save (g : Graph D) (walSeq : UInt64) : Bytes :=
  let (nodes, entryPoint, maxLevel, hasEntry) := g.snapshot
  writeSnapshot g.cfg nodes entryPoint maxLevel hasEntry walSeq

end Writer

section Loader
open Decoder (byte uint32 uint64 bytes skip skipWords uint32s uint64s failIf many)

def short : LoadError := .invalidFormat

def float32Slice (n : UInt32) : Decoder LoadError Vec := uint32s short n

def uint64Slice (n : UInt32) : Decoder LoadError (List UInt64) := uint64s short n

def int32 (x : UInt32) : ℤ := x.toInt32.toInt

def skipLayer : Decoder LoadError Unit := do
  let cnt ← uint32 short
  skipWords short cnt 8

def skipNode : Decoder LoadError (UInt64 × UInt32) := do
  let id ← uint64 short
  skip short (4 + 1)
  let dim ← uint32 short
  skipWords short dim 4
  let levels ← uint32 short
  failIf (maxSnapshotLevel + 1 < levels.toNat) .invalidFormat
  let _ ← many skipLayer levels.toNat
  return (id, dim)

def readLayer : Decoder LoadError (List UInt64) := do
  let cnt ← uint32 short
  uint64Slice cnt

def readNode : Decoder LoadError NodeState := do
  let id ← uint64 short
  let levelRaw ← uint32 short
  let deletedByte ← byte short
  failIf (1 < deletedByte) .invalidFormat
  let dim ← uint32 short
  let vector ← float32Slice dim
  let numLevels ← uint32 short
  let level := int32 levelRaw
  failIf (level < 0 ∨ maxSnapshotLevel < level ∨ numLevels ≠ UInt32.ofNat (level.toNat + 1))
    .invalidFormat
  let neighbors ← many readLayer numLevels.toNat
  return ⟨id, vector, level.toNat, neighbors, deletedByte == 1⟩

variable (cfg : Config D)

/-- The dimension and the metric of a version 2 file must be the configured ones. -/
def readConfig : Decoder LoadError Unit := do
  let dim ← uint32 short
  let nameLen ← byte short
  let name ← bytes short nameLen.toNat
  failIf (dim.toNat ≠ cfg.dim ∨ name ≠ nameBytes (metricName cfg)) (.configMismatch dim name)

structure Header where
  walSeq : UInt64
  hasEntry : Bool
  entryPoint : UInt64
  maxLevel : ℕ
  nodeCount : ℕ

def readHeader (v2 : Bool) (size : ℕ) : Decoder LoadError Header := do
  let walSeq ← uint64 short
  let hasEntryByte ← byte short
  let entryPoint ← uint64 short
  let maxLevelRaw ← uint32 short
  let nodeCount ← uint64 short
  failIf (1 < hasEntryByte ∨ size / 21 < nodeCount.toNat) .invalidFormat
  let _ ← if v2 then readConfig cfg else pure ()
  let maxLevel := int32 maxLevelRaw
  let hasEntry := hasEntryByte == 1
  failIf (maxLevel < 0 ∨ maxSnapshotLevel < maxLevel ∨ hasEntry ≠ decide (0 < nodeCount.toNat))
    .invalidFormat
  return ⟨walSeq, hasEntry, entryPoint, maxLevel.toNat, nodeCount.toNat⟩

def skipNodes (dim : ℕ) : ℕ → ℕ → Decoder LoadError (List UInt64)
  | 0, _ => pure []
  | n + 1, i => do
    let nd ← skipNode.mapError (.decoding i)
    failIf (nd.2.toNat ≠ dim) (.nodeMismatch nd.1 nd.2)
    let ids ← skipNodes dim n (i + 1)
    return nd.1 :: ids

def restoreNodes : ℕ → Restore D → Cursor LoadError (Restore D)
  | 0, r => pure r
  | n + 1, r => do
    let nd ← readNode.cursor
    match r.restoreNode nd with
    | none => throw .invalidFormat
    | some r => restoreNodes n r

def loadBody (rng : ℕ → ℕ) (v2 : Bool) (body : Bytes) :
    Except LoadError (Graph D × UInt64) := do
  let (header, nodes) ← (readHeader cfg v2 body.length).cursor (body.drop 8)
  let (ids, rest) ← (skipNodes cfg.dim header.nodeCount 0).cursor nodes
  if rest ≠ [] then throw .invalidFormat
  let some r := (new cfg rng).beginRestore ids | throw .invalidFormat
  let (r, _) ← restoreNodes header.nodeCount r nodes
  let some g := r.endRestore header.entryPoint header.maxLevel header.hasEntry
    | throw .invalidFormat
  return (g, header.walSeq)

def load (rng : ℕ → ℕ) (file : Option Bytes) : Except LoadError (Graph D × UInt64) := do
  let m := file.getD []
  if m.length = 0 then return (new cfg rng, 0)
  if m.length < 8 then throw .invalidFormat
  if m.take 8 = magic then
    if m.length < 12 then throw .invalidFormat
    let body := m.take (m.length - 4)
    if crc32ChecksumIEEE body ≠ LittleEndian.uint32 (m.drop (m.length - 4)) then throw .checksum
    loadBody cfg rng true body
  else if m.take 8 = magicV1 then loadBody cfg rng false m
  else throw .invalidFormat

end Loader

end NuclaDB.Segment
