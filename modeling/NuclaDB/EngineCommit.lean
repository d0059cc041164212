import NuclaDB.SegmentFormat
import NuclaDB.WalWriter

/-!
# The engine: logging and applying changes

A `Change` is what one call asks for, before it has a sequence number. `commitLocked` logs
a group of records with one write and then applies it. Of `encoding/json` only that it
decodes what it encoded is used.
-/

namespace NuclaDB

open LittleEndian Hnsw Wal

abbrev Meta := Std.ExtTreeMap String String compare

abbrev Metadata := Std.ExtTreeMap UInt64 Meta compare

abbrev Postings := Std.ExtTreeMap String (Std.ExtTreeSet UInt64 compare) compare

/-- `encoding/json` at one type. -/
structure Json (α : Type) where
  marshal : α → Bytes
  unmarshal : Bytes → Option α
  unmarshal_marshal (a : α) : unmarshal (marshal a) = some a
  marshal_ne_nil (a : α) : marshal a ≠ []

/-- The two types the engine encodes: an id's metadata and all of it. -/
structure Codec where
  md : Json Meta
  all : Json Metadata

inductive Change
  | insert (id : UInt64) (vector : Vec) (md : Meta)
  | delete (id : UInt64)
  | update (id : UInt64) (md : Meta)

namespace Change

def id : Change → UInt64
  | .insert id _ _ => id
  | .delete id => id
  | .update id _ => id

def md : Change → Meta
  | .insert _ _ md => md
  | .delete _ => ∅
  | .update _ md => md

def extra (J : Codec) (md : Meta) : Bytes := if md.isEmpty then [] else J.md.marshal md

def record (J : Codec) : Change → Record
  | .insert id vector md => ⟨0, opInsert, id, vector, extra J md⟩
  | .delete id => ⟨0, opDelete, id, [], []⟩
  | .update id md => ⟨0, opMeta, id, [], extra J md⟩

def Valid (dim : ℕ) : Change → Prop
  | .insert _ vector _ => validateVector vector dim = .ok ()
  | .delete _ => True
  | .update _ _ => True

instance (dim : ℕ) : DecidablePred (Valid dim)
  | .insert _ _ _ => inferInstanceAs (Decidable (_ = _))
  | .delete _ => .isTrue trivial
  | .update _ _ => .isTrue trivial

end Change

inductive EngineError
  | wal (e : WriterError)
  | graph (e : Error)
  | json
  | notFound
deriving DecidableEq

structure Engine (D : Type) where
  cfg : Config D
  graph : Graph D
  w : Writer
  seq : UInt64
  snapshotSeq : UInt64
  metadata : Metadata
  postings : Postings

def postingKey (k v : String) : String := k ++ "\x00" ++ v

def addPosting (p : Postings) (key : String) (id : UInt64) : Postings :=
  p.insert key ((p[key]?.getD ∅).insert id)

def removePosting (p : Postings) (key : String) (id : UInt64) : Postings :=
  let ids := (p[key]?.getD ∅).erase id
  if ids.isEmpty then p.erase key else p.insert key ids

def addPostings (p : Postings) (id : UInt64) (md : Meta) : Postings :=
  md.toList.foldl (fun p kv => addPosting p (postingKey kv.1 kv.2) id) p

def buildPostings (metadata : Metadata) : Postings :=
  metadata.toList.foldl (fun p entry => addPostings p entry.1 entry.2) ∅

/-- `len(rec.Extra) > 0` decides whether there is anything to decode. -/
def decodeExtra (J : Codec) (extra : Bytes) : Option Meta :=
  if extra.length = 0 then some ∅ else J.md.unmarshal extra

variable {D : Type} [Hnsw.Dist D]

structure Queue (D : Type) where
  graph : Graph D
  items : List (UInt64 × Vec)

namespace Queue

def push (q : Queue D) (rec : Record) : Queue D :=
  ⟨q.graph, q.items ++ [(rec.id, rec.vector)]⟩

def flush (workers : Workers) (q : Queue D) : Except Error (Queue D) :=
  match q.graph.insertBatch workers (q.items.map (·.1)) (q.items.map (·.2)) with
  | .ok g => .ok ⟨g, []⟩
  | .error e => .error e

def drop (q : Queue D) (id : UInt64) : Queue D :=
  ⟨(q.graph.delete id).toOption.getD q.graph, q.items⟩

/-- The graph's part of a commit: the graph it leaves, and the error that stopped it. -/
def applyRecords (workers : Workers) : Queue D → List Record → Graph D × Option Error
  | q, [] =>
    match q.flush workers with
    | .ok q => (q.graph, none)
    | .error e => (q.graph, some e)
  | q, rec :: recs =>
    if rec.op = opInsert then applyRecords workers (q.push rec) recs
    else if rec.op = opDelete then
      match q.flush workers with
      | .ok q => applyRecords workers (q.drop rec.id) recs
      | .error e => (q.graph, some e)
    else applyRecords workers q recs

end Queue

namespace Engine

def setMeta (e : Engine D) (id : UInt64) (md : Meta) : Engine D :=
  let removed := (e.metadata[id]?.getD ∅).toList.foldl
    (fun p kv => removePosting p (postingKey kv.1 kv.2) id) e.postings
  if md.isEmpty then { e with metadata := e.metadata.erase id, postings := removed }
  else { e with metadata := e.metadata.insert id md, postings := addPostings removed id md }

/-- The metadata of a group, for the ids that `g` holds and for those the group deletes. -/
def setMetas (e : Engine D) (g : Graph D) (records : List Record) (metas : List Meta) : Engine D :=
  (records.zip metas).foldl (fun e r =>
    if (g.get r.1.id).isSome ∨ r.1.op = opDelete then e.setMeta r.1.id r.2 else e) e

section Log
variable (crc : Bytes → UInt32) (J : Codec)

def commitLocked (workers : Workers) (e : Engine D) (io : Wal.Outcome) (file : Bytes)
    (records : List Record) (metas : List Meta) : Engine D × Bytes × Except EngineError Unit :=
  match e.w.appendBatch crc io file records with
  | (w, file, .error err) => ({ e with w := w }, file, .error (.wal err))
  | (w, file, .ok seqs) =>
    match Queue.applyRecords workers ⟨e.graph, []⟩ records with
    | (g, some err) => ({ e with w := w, graph := g }, file, .error (.graph err))
    | (g, none) =>
      let e := ({ e with w := w, graph := g }).setMetas g records metas
      ({ e with seq := seqs.getLastD e.seq }, file, .ok ())

def commit (workers : Workers) (e : Engine D) (io : Wal.Outcome) (file : Bytes)
    (cs : List Change) : Engine D × Bytes × Except EngineError Unit :=
  e.commitLocked crc workers io file (cs.map (Change.record J)) (cs.map Change.md)

def applyMeta (e : Engine D) (rec : Record) : Except EngineError (Engine D) :=
  match decodeExtra J rec.extra with
  | none => .error .json
  | some md => .ok (if (e.graph.get rec.id).isSome then e.setMeta rec.id md else e)

def applyRecord (e : Engine D) (rec : Record) : Engine D × Option EngineError :=
  if rec.op = opInsert then
    match e.graph.insert rec.id rec.vector with
    | .error err => (e, some (.graph err))
    | .ok g =>
      let e := { e with graph := g }
      match decodeExtra J rec.extra with
      | none => (e, some .json)
      | some md => (e.setMeta rec.id md, none)
  else if rec.op = opDelete then
    (({ e with graph := (e.graph.delete rec.id).toOption.getD e.graph }).setMeta rec.id ∅, none)
  else if rec.op = opMeta then
    match e.applyMeta J rec with
    | .error err => (e, some err)
    | .ok e => (e, none)
  else (e, none)

def applyReplicated (e : Engine D) (io : Wal.Outcome) (file : Bytes) (rec : Record) :
    Engine D × Bytes × Except EngineError Unit :=
  match e.w.appendRecord crc io file rec with
  | (w, file, .error err) => ({ e with w := w }, file, .error (.wal err))
  | (w, file, .ok ()) =>
    match ({ e with w := w }).applyRecord J rec with
    | (e, some err) => (e, file, .error err)
    | (e, none) => ({ e with seq := rec.seq }, file, .ok ())

def commitAll (e : Engine D) (file : Bytes) :
    List (Workers × List Change) → Engine D × Bytes × Except EngineError Unit
  | [] => (e, file, .ok ())
  | group :: groups =>
    match e.commit crc J group.1 .ok file group.2 with
    | (e, file, .ok ()) => e.commitAll file groups
    | (e, file, .error err) => (e, file, .error err)

def replicateAll (e : Engine D) (file : Bytes) : List Record → Engine D × Bytes × Except EngineError Unit
  | [] => (e, file, .ok ())
  | rec :: recs =>
    match e.applyReplicated crc J .ok file rec with
    | (e, file, .ok ()) => e.replicateAll file recs
    | (e, file, .error err) => (e, file, .error err)

end Log

def minCompact : ℕ := 256

def compactLocked (workers : Workers) (rng : ℕ → ℕ) (e : Engine D) : Except EngineError (Engine D) :=
  let dead := e.graph.tombstones
  if dead < minCompact ∨ dead ≤ e.graph.live then .ok e
  else
    match e.graph.compact workers rng with
    | .error err => .error (.graph err)
    | .ok g => .ok { e with graph := g }

end Engine

section Requests

def validateFiniteVector (v : Vec) (dim : ℕ) : Except Error Unit := validateVector v dim

inductive Request
  | insert (id : UInt64) (vector : Vec) (md : Meta)
  | insertBatch (items : List (UInt64 × Vec × Meta))
  | updateMetadata (id : UInt64) (md : Meta)
  | delete (id : UInt64)

def validateItems (dim : ℕ) : List (UInt64 × Vec × Meta) → Except Error Unit
  | [] => .ok ()
  | it :: items => do
    validateFiniteVector it.2.1 dim
    validateItems dim items

/-- What a call hands to the commit. A delete of an id that is not stored has nothing to log. -/
def Engine.accept (e : Engine D) : Request → Except EngineError (List Change)
  | .insert id vector md =>
    match validateFiniteVector vector e.cfg.dim with
    | .error err => .error (.graph err)
    | .ok () => .ok [.insert id vector md]
  | .insertBatch items =>
    match validateItems e.cfg.dim items with
    | .error err => .error (.graph err)
    | .ok () => .ok (items.map fun it => .insert it.1 it.2.1 it.2.2)
  | .updateMetadata id md =>
    if e.graph.countNew [id] = 1 then .error .notFound else .ok [.update id md]
  | .delete id => .ok (if e.graph.countNew [id] = 1 then [] else [.delete id])

theorem validateItems_ok {dim : ℕ} {items : List (UInt64 × Vec × Meta)}
    (h : validateItems dim items = .ok ()) : ∀ it ∈ items, validateVector it.2.1 dim = .ok () := by
  induction items with
  | nil => simp
  | cons it items ih =>
    simp only [validateItems, validateFiniteVector] at h
    cases hv : validateVector it.2.1 dim with
    | error err => simp [hv, bind, Except.bind] at h
    | ok u =>
      rw [hv] at h
      exact List.forall_mem_cons.mpr ⟨hv, ih h⟩

omit [Hnsw.Dist D] in
theorem Engine.accept_valid {e : Engine D} {req : Request} {cs : List Change}
    (h : e.accept req = .ok cs) : ∀ c ∈ cs, c.Valid e.cfg.dim := by
  cases req with
  | insert id vector md =>
    simp only [accept, validateFiniteVector] at h
    cases hv : validateVector vector e.cfg.dim with
    | error err => simp [hv] at h
    | ok u =>
      simp only [hv, Except.ok.injEq] at h
      rw [← h]
      exact List.forall_mem_singleton.mpr hv
  | insertBatch items =>
    simp only [accept] at h
    cases hv : validateItems e.cfg.dim items with
    | error err => simp [hv] at h
    | ok u =>
      simp only [hv, Except.ok.injEq] at h
      rw [← h]
      exact List.forall_mem_map.mpr (validateItems_ok hv)
  | updateMetadata id md =>
    simp only [accept] at h
    split at h
    · simp at h
    · simp only [Except.ok.injEq] at h
      simp [← h, Change.Valid]
  | delete id =>
    simp only [accept, Except.ok.injEq] at h
    rw [← h]
    split <;> simp [Change.Valid]

end Requests

end NuclaDB
