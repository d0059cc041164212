import NuclaDB.HnswSearch

/-!
# Insertion, one vector or one chunk at a time

The parallel stages of a chunk run in index order. A `Step` is one insertion or a delete, an
`Op` is a call on the graph, and `Op.trace` lists the steps of a call.
-/

namespace NuclaDB.Hnsw

open List

variable {D : Type} [Dist D] (g : Graph D)

abbrev Workers := { n : ℕ // 0 < n }

structure ChunkNode where
  id : UInt64
  level : ℕ
  vec : Vec

def ChunkNode.node (nd : ChunkNode) : Node := ⟨nd.id, nd.level, replicate (nd.level + 1) []⟩

namespace Graph

def appendNew (cur newIDs : List ℕ) : List ℕ :=
  newIDs.foldl (fun cur id => if id ∈ cur then cur else cur ++ [id]) cur

variable (g : Graph D) (chunk : List ChunkNode) (id : UInt64) (base : ℕ)

/-- The list `addLinks` stores: the old links and the new ones, picked anew when they are too many. -/
def mergedLinks (nbr : ℕ) (newIDs : List ℕ) (l mMax : ℕ) : List ℕ :=
  let cur := appendNew (g.links nbr l) newIDs
  if mMax < cur.length then
    let cands := cur.map fun id => (⟨id, g.dist (g.vec nbr) (g.vec id)⟩ : Candidate D)
    g.selectNeighbors (Dist.sortSlice cands) mMax
  else cur

def addLinks (nbr : ℕ) (newIDs : List ℕ) (l mMax : ℕ) : Graph D :=
  g.setLinks nbr l (g.mergedLinks nbr newIDs l mMax)

def addAll (ups : List ((ℕ × ℕ) × List ℕ)) : Graph D :=
  ups.foldl (fun h up => h.addLinks up.1.1 up.2 up.1.2 (h.maxLinks up.1.2)) g

def layerFound (vec : Vec) (keep : ℕ → Bool) (entry l : ℕ) : List (Candidate D) :=
  (g.searchLayer vec entry g.cfg.efConstruction l).filter fun c => keep c.id

def nextEntry (found : List (Candidate D)) (entry : ℕ) : ℕ :=
  match found with
  | [] => entry
  | c :: _ => c.id

/-- The candidates of each layer, layer 0 first. Each search starts at the closest candidate of the
layer above. -/
def searchDown (g : Graph D) (vec : Vec) (keep : ℕ → Bool) : ℕ → ℕ → List (List (Candidate D))
  | 0, entry => [g.layerFound vec keep entry 0]
  | l + 1, entry =>
    let found := g.layerFound vec keep entry (l + 1)
    searchDown g vec keep l (nextEntry found entry) ++ [found]

def picks (vec : Vec) (slot level : ℕ) (existed : Bool) : List (List ℕ) :=
  let top := min level g.maxLevel
  let found := g.searchDown vec (fun id => !existed || id != slot) top (g.descend vec level)
  found.mapIdx (fun l cs => g.selectNeighbors cs (g.maxLinks l)) ++ replicate (level - top) []

def connect (slot level : ℕ) : Graph D :=
  (range (level + 1)).foldl (fun g l =>
    (g.links slot l).foldl (fun g nbr => g.addLinks nbr [slot] l (g.maxLinks l)) g) g

def promote (slot level : ℕ) : Graph D :=
  if g.maxLevel < level then { g with maxLevel := level, entryPoint := slot }
  else if (g.links slot 0).length = 0 then { g with entryPoint := slot }
  else g

def countLive (slot : ℕ) (existed : Bool) : Graph D :=
  { g with live := if !existed || g.isDead slot then g.live + 1 else g.live }

def insertAt (vec : Vec) (level slot : ℕ) (existed : Bool) : Graph D :=
  if !g.hasEntry then
    let nd : Node := ⟨id, level, replicate (level + 1) []⟩
    { ({ g with live := g.live + 1 }).place slot nd vec existed with
      entryPoint := slot
      hasEntry := true
      maxLevel := level }
  else
    let nd : Node := ⟨id, level, g.picks vec slot level existed⟩
    (((g.countLive slot existed).place slot nd vec existed).connect slot level).promote slot level

def slotFor : ℕ × Bool :=
  match g.slots[id]? with
  | some slot => (slot, true)
  | none => (g.nodes.length, false)

def insertLocked (vec : Vec) : Graph D :=
  let (level, g) := g.randomLevel
  let (slot, existed) := g.slotFor id
  g.insertAt id vec level slot existed

def insert (vector : Vec) : Except Error (Graph D) := do
  validateVector vector g.cfg.dim
  return g.insertLocked id (g.prep vector)

def mergeLoop : ℕ → List (Candidate D) → List (Candidate D) → List (Candidate D)
  | 0, _, _ => []
  | _ + 1, [], [] => []
  | m + 1, a :: as, [] => a :: mergeLoop m as []
  | m + 1, [], b :: bs => b :: mergeLoop m [] bs
  | m + 1, a :: as, b :: bs =>
    if Dist.le a.dist b.dist then a :: mergeLoop m as (b :: bs)
    else b :: mergeLoop m (a :: as) bs

def mergeClosest (sorted extra : List (Candidate D)) (m : ℕ) : List (Candidate D) :=
  mergeLoop m sorted (Dist.sortSlice extra)

def drawChunk (g : Graph D) : List (UInt64 × Vec) → List ChunkNode × Graph D
  | [] => ([], g)
  | (id, vector) :: rest =>
    let (level, g) := g.randomLevel
    let (nodes, g) := g.drawChunk rest
    (⟨id, level, g.prep vector⟩ :: nodes, g)

def chunkFound (nd : ChunkNode) : List (List (Candidate D)) :=
  let top := min nd.level g.maxLevel
  (g.searchDown nd.vec (fun _ => true) top (g.descend nd.vec nd.level)).mapIdx fun l found =>
    g.diverse (g.maxLinks l) found []

/-- The earlier nodes of the chunk that reach the layer, with their distances. -/
def mates (before : List ChunkNode) (nd : ChunkNode) (l : ℕ) :
    List (Candidate D) :=
  (before.zipIdx.filter fun m => l ≤ m.1.level).map fun m => ⟨base + m.2, g.dist nd.vec m.1.vec⟩

/-- The links a node of a chunk picks in layer `l`, from its search and its chunk-mates. -/
def chunkPicks (placed : Graph D) (base : ℕ) (before : List ChunkNode)
    (nd : ChunkNode) (l : ℕ) : List ℕ :=
  let found := (g.chunkFound nd).getD l []
  let mates := g.mates base before nd l
  placed.selectNeighbors (mergeClosest found mates (found.length + mates.length)) (g.maxLinks l)

def placeChunk (nodes : List ChunkNode) : Graph D :=
  nodes.zipIdx.foldl (fun g nd => g.place (base + nd.2) nd.1.node nd.1.vec false) g

def linkChunk (placed : Graph D) (base : ℕ) (nodes : List ChunkNode) : Graph D :=
  nodes.zipIdx.foldl (fun h nd =>
    (range (nd.1.level + 1)).foldl (fun h l =>
      h.setLinks (base + nd.2) l (g.chunkPicks placed base (nodes.take nd.2) nd.1 l)) h) placed

def addGroup (groups : List ((ℕ × ℕ) × List ℕ)) (key : ℕ × ℕ) (slot : ℕ) : List ((ℕ × ℕ) × List ℕ) :=
  match groups with
  | [] => [(key, [slot])]
  | (k, slots) :: rest =>
    if k = key then (k, slots ++ [slot]) :: rest else (k, slots) :: addGroup rest key slot

def backLinks (nodes : List ChunkNode) : List ((ℕ × ℕ) × List ℕ) :=
  nodes.zipIdx.foldl (fun groups nd =>
    (range (nd.1.level + 1)).foldl (fun groups l =>
      (g.links (base + nd.2) l).foldl (fun groups nbr => addGroup groups (nbr, l) (base + nd.2))
        groups) groups) []

def placedChunk : Graph D :=
  g.placeChunk g.nodes.length chunk

def linkedChunk : Graph D :=
  g.linkChunk (g.placedChunk chunk) g.nodes.length chunk

def joinedChunk : Graph D :=
  (g.linkedChunk chunk).addAll ((g.linkedChunk chunk).backLinks g.nodes.length chunk)

def settle (nodes : List (ChunkNode × ℕ)) : Graph D :=
  nodes.foldl (fun h nd => ({ h with live := h.live + 1 }).promote (base + nd.2) nd.1.level) g

def insertChunk (items : List (UInt64 × Vec)) : Graph D :=
  let (chunk, g) := g.drawChunk items
  (g.joinedChunk chunk).settle g.nodes.length chunk.zipIdx

def freshIDs (ids : List UInt64) : Bool :=
  (ids.all fun id => (g.slots[id]?).isNone) && decide ids.Nodup

end Graph

def maxBatchChunk : ℕ := 128

/-- One change of the graph: an insertion by itself or of a whole chunk, or a delete. -/
inductive Step
  | insert (id : UInt64) (vector : Vec)
  | chunk (items : List (UInt64 × Vec))
  | delete (id : UInt64)

def Step.apply : Step → Graph D
  | .insert id vector => g.insertLocked id (g.prep vector)
  | .chunk items => g.insertChunk items
  | .delete id => (g.delete id).toOption.getD g

namespace Graph

variable (g : Graph D) (workers : Workers)

/-- What `insertBatch` does next with the items left, and the items left after it. -/
def nextStep (item : UInt64 × Vec)
    (rest : List (UInt64 × Vec)) : Step × List (UInt64 × Vec) :=
  let items := item :: rest
  let size := min maxBatchChunk (min (g.nodes.length / 8) items.length)
  if workers.1 = 1 ∨ size < 2 * workers.1 ∨ g.freshIDs ((items.take size).map (·.1)) = false then
    (.insert item.1 item.2, rest)
  else (.chunk (items.take size), items.drop size)

/-- The steps of a batch, each with the graph it starts from. -/
def batchTrace (workers : Workers) : ℕ → Graph D → List (UInt64 × Vec) → List (Graph D × Step)
  | 0, _, _ => []
  | _ + 1, _, [] => []
  | m + 1, g, item :: rest =>
    let next := g.nextStep workers item rest
    (g, next.1) :: batchTrace workers m (next.1.apply g) next.2

def batchLoop (workers : Workers) : ℕ → Graph D → List (UInt64 × Vec) → Graph D
  | 0, g, _ => g
  | _ + 1, g, [] => g
  | m + 1, g, item :: rest =>
    let next := g.nextStep workers item rest
    batchLoop workers m (next.1.apply g) next.2

def validateAll (dim : ℕ) : List Vec → Except Error Unit
  | [] => .ok ()
  | v :: rest => do
    validateVector v dim
    validateAll dim rest

def insertBatch (ids : List UInt64) (vectors : List Vec) :
    Except Error (Graph D) := do
  if ids.length ≠ vectors.length then throw .dimensionMismatch
  validateAll g.cfg.dim vectors
  return batchLoop workers ids.length g (ids.zip vectors)

def liveItems : List (UInt64 × Vec) :=
  (g.nodes.zipIdx.filter fun nd => !g.isDead nd.2).map fun nd => (nd.1.id, g.vec nd.2)

def tombstones : ℕ := g.nodes.length - g.live

def compact (rng : ℕ → ℕ) : Except Error (Graph D) :=
  (new g.cfg rng).insertBatch workers (g.liveItems.map (·.1)) (g.liveItems.map (·.2))

def countNew (ids : List UInt64) : ℕ :=
  (ids.filter fun id => (g.get id).isNone).dedup.length

end Graph

inductive Op
  | insert (id : UInt64) (vector : Vec)
  | insertBatch (workers : Workers) (ids : List UInt64) (vectors : List Vec)
  | delete (id : UInt64)

def Op.apply : Op → Graph D
  | .insert id vector => (g.insert id vector).toOption.getD g
  | .insertBatch workers ids vectors => (g.insertBatch workers ids vectors).toOption.getD g
  | .delete id => (g.delete id).toOption.getD g

def Op.trace : Op → List (Graph D × Step)
  | .insert id vector =>
    match validateVector vector g.cfg.dim with
    | .ok _ => [(g, .insert id vector)]
    | .error _ => []
  | .insertBatch workers ids vectors =>
    if ids.length ≠ vectors.length then []
    else
      match Graph.validateAll g.cfg.dim vectors with
      | .ok _ => Graph.batchTrace workers ids.length g (ids.zip vectors)
      | .error _ => []
  | .delete id => [(g, .delete id)]

def run (ops : List Op) : Graph D := ops.foldl Op.apply g

def runTrace : Graph D → List Op → List (Graph D × Step)
  | _, [] => []
  | g, op :: ops => op.trace g ++ runTrace (op.apply g) ops

end NuclaDB.Hnsw
