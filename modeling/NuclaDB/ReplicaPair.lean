import NuclaDB.Handshake
import NuclaDB.ReplicaStream

/-!
# A leader and its follower

The leader with the files of its log, the follower with its directory, and the bytes on
the connection between them, which may break anywhere.
-/

namespace NuclaDB.Replication

open LittleEndian Hnsw Install SplitReader Wal
open FileScript (Files Fault)

def markerSnapshotFollows : UInt8 := 'S'.toUInt8

def markerNoSnapshot : UInt8 := 'N'.toUInt8

inductive Serving
  | greeted (hello : Hello)
  | resync
  | sentSnapshot (seq : UInt64)
  | streaming (r : Reader)
  | closed

inductive Awaits
  | answer
  | records

/-- `wire` has what was written to the connection and is not used yet. -/
structure Conn where
  serving : Serving
  awaits : Awaits
  wire : Bytes

inductive Arrival
  | more
  | failed
  | stream (rest : Bytes)
  | snapshot (seq : UInt64) (snapshot metadata rest : Bytes)
  | record (rec : Record) (rest : Bytes)

namespace Conn

/-- The bytes end too early; unless the connection is closed there may be more. -/
def short (c : Conn) : Arrival :=
  match c.serving with
  | .closed => .failed
  | _ => .more

def arrival (crc : Bytes → UInt32) (c : Conn) : Arrival :=
  match c.awaits with
  | .answer =>
    match c.wire with
    | [] => c.short
    | marker :: rest =>
      if marker ≠ markerSnapshotFollows then .stream rest
      else if rest.length < 8 then c.short
      else
        match readBlobs Stream.ofList (rest.drop 8) with
        | (.ok (snapshot, metadata), more) =>
          .snapshot (uint64BE (rest.take 8)) snapshot metadata more
        | (.error (.failed _), _) => .failed
        | (.error _, _) => c.short
  | .records =>
    match readFrame crc c.wire with
    | .ok (rec, _, rest) => .record rec rest
    | .error .corruptTail => .failed
    | .error _ => c.short

end Conn

structure Pair (D : Type) where
  leader : Leader D
  follower : Node D
  conn : Option Conn

/-- What the follower was at when it stopped: nothing, receiving files, of which `left` had come,
logging a record, or loading a snapshot. -/
inductive Halt
  | receiving (left : Target → Option Bytes)
  | applying (n : ℕ)
  | loading (rng : ℕ → ℕ) (faults : List Fault) (ops : ℕ)

inductive PairEvent
  | lead (ev : Event)
  | connect
  | answer
  | sendSnapshot
  | openLog
  | read
  | stat (answers : Bool)
  | reopen (opens : Bool)
  | cut (n : ℕ)
  | own (ev : Event)
  | follow (rng : ℕ → ℕ) (faults : List Fault) (left : Target → Option Bytes)
  | restart (halt : Halt) (workers : Workers) (rng : ℕ → ℕ) (interrupted : List ℕ)

def PairEvent.changes : PairEvent → List Change
  | .lead ev => ev.changes
  | _ => []

def withIncoming (d : Files Name) (left : Target → Option Bytes) : Files Name
  | .incoming t => left t
  | n => d n

section Step
variable {D : Type} [Hnsw.Dist D] (crc : Bytes → UInt32) (J : Codec) (M : Json (Target → Bool))
  (cfg : Config D)

/-- The files that a crash leaves when `n` bytes of a replicated record got to the log. -/
def halted (s : Sys D) (rec : Record) (n : ℕ) : Disk :=
  match s.locked, s.engine.w.readyLocked with
  | false, .ok () =>
    if rec.seq ≠ s.engine.w.nextSeq then s.disk
    else { s.disk with wal := some (s.wal ++ (encodeRecord crc rec).take n) }
  | _, _ => s.disk

namespace Pair

variable (s : Pair D)

def connect : Pair D :=
  match s.conn with
  | none => { s with conn := some ⟨.greeted (s.follower.sys.hello crc), .answer, []⟩ }
  | some _ => s

/-- `OpenWALForReplication` waits for a snapshot in progress. -/
def answer : Pair D :=
  match s.conn, s.leader.sys.stage with
  | some ⟨.greeted hello, awaits, wire⟩, .idle =>
    match s.leader.sys.openWALForReplication crc hello with
    | .failed => { s with conn := some ⟨.closed, awaits, wire⟩ }
    | .snapshot => { s with conn := some ⟨.resync, awaits, wire⟩ }
    | .stream =>
      let r := Reader.start s.leader.live hello.fromSeq
      { s with conn := some ⟨.streaming r, awaits, wire ++ [markerNoSnapshot]⟩ }
  | _, _ => s

/-- The end of `OpenSnapshot`, when its rotation is done, and what is sent of the files. -/
def sendSnapshot : Pair D :=
  match s.conn with
  | some ⟨.resync, awaits, wire⟩ =>
    if s.leader.sys.rotates crc .rename then
      let l : Leader D := ⟨s.leader.sys.rename crc, s.leader.older ++ [s.leader.sys.wal]⟩
      match l.sys.disk.snapshot, l.sys.disk.metadata with
      | some snapshot, some metadata =>
        let seq := l.sys.engine.snapshotSeq
        { s with leader := l, conn := some ⟨.sentSnapshot seq, awaits, wire ++
          markerSnapshotFollows :: (putUint64BE seq ++ (writeBlob snapshot ++ writeBlob metadata))⟩ }
      | _, _ => { s with leader := l, conn := some ⟨.closed, awaits, wire⟩ }
    else s
  | _ => s

def openLog : Pair D :=
  match s.conn with
  | some ⟨.sentSnapshot seq, awaits, wire⟩ =>
    { s with conn := some ⟨.streaming (.start s.leader.live seq), awaits, wire⟩ }
  | _ => s

/-- A step of `FollowOpened`; what it passes on is written to the connection. -/
def stream (f : Reader → Reader) : Pair D :=
  match s.conn with
  | some ⟨.streaming r, awaits, wire⟩ =>
    let passed := (f r).passed.drop r.passed.length
    { s with conn := some ⟨.streaming (f r), awaits, wire ++ passed.flatMap (encodeRecord crc)⟩ }
  | _ => s

/-- The connection breaks, and `n` of the bytes that are on the wire still come. -/
def cut (n : ℕ) : Pair D :=
  { s with conn := s.conn.map fun c => ⟨.closed, c.awaits, c.wire.take n⟩ }

def apply (c : Conn) (rec : Record) (rest : Bytes) : Pair D :=
  if s.follower.sys.locked then s
  else
    match s.follower.sys.replicate crc J rec with
    | (sys, .ok ()) =>
      { s with follower := { s.follower with sys := sys }, conn := some { c with wire := rest } }
    | (sys, .error _) => { s with follower := { s.follower with sys := sys }, conn := none }

def load (c : Conn) (rng : ℕ → ℕ) (faults : List Fault) (seq : UInt64)
    (snapshot metadata rest : Bytes) : Pair D :=
  match s.follower.sys.stage with
  | .idle =>
    let (n, result) := s.follower.load J M cfg rng snapshot metadata seq faults
    { s with
      follower := n
      conn := if result = some true then some ⟨c.serving, .records, rest⟩ else none }
  | _ => s

def follow (rng : ℕ → ℕ) (faults : List Fault) (left : Target → Option Bytes) : Pair D :=
  match s.conn with
  | none => s
  | some c =>
    match c.arrival crc with
    | .more => s
    | .failed =>
      { s with follower := { s.follower with rest := withIncoming s.follower.rest left }, conn := none }
    | .stream rest => { s with conn := some ⟨c.serving, .records, rest⟩ }
    | .snapshot seq snapshot metadata rest => s.load J M cfg c rng faults seq snapshot metadata rest
    | .record rec rest => s.apply crc J c rec rest

def left (s : Pair D) : Halt → Files Name
  | .receiving left => withIncoming s.follower.dir left
  | .applying n =>
    match s.conn.map (Conn.arrival crc) with
    | some (.record rec _) => withDisk s.follower.rest (halted crc s.follower.sys rec n)
    | _ => s.follower.dir
  | .loading rng faults ops =>
    match s.conn.map (Conn.arrival crc), s.follower.sys.stage with
    | some (.snapshot seq snapshot metadata _), .idle =>
      (loadSnapshot J M cfg rng snapshot metadata seq).crashed s.follower.dir faults ops
    | _, _ => s.follower.dir

def step : PairEvent → Except DirectoryError (Pair D)
  | .lead ev =>
    match s.leader.step crc J ev with
    | .error err => .error (.opening err)
    | .ok l => .ok { s with leader := l }
  | .connect => .ok (s.connect crc)
  | .answer => .ok (s.answer crc)
  | .sendSnapshot => .ok (s.sendSnapshot crc)
  | .openLog => .ok s.openLog
  | .read => .ok (s.stream crc fun r => r.read crc (s.leader.file r.fd))
  | .stat answers => .ok (s.stream crc fun r => r.stat (if answers then some s.leader.live else none))
  | .reopen opens => .ok (s.stream crc fun r => r.reopen (if opens then some s.leader.live else none))
  | .cut n => .ok (s.cut n)
  | .own ev =>
    match s.follower.sys.step crc J ev with
    | .error err => .error (.opening err)
    | .ok sys => .ok { s with follower := { s.follower with sys := sys } }
  | .follow rng faults left => .ok (s.follow crc J M cfg rng faults left)
  | .restart halt workers rng interrupted =>
    match Node.restart crc J M cfg workers rng interrupted (s.left crc J M cfg halt)
        s.follower.sys.disk.walNew with
    | .error err => .error err
    | .ok n => .ok { s with follower := n, conn := none }

end Pair

end Step

end NuclaDB.Replication
