import NuclaDB.ApiServer
import NuclaDB.Unwinding

/-!
# The store's calls

A tenant's engine is opened by the first call on its data. Settings are in the directories of
`StoreRoot`; the files of an engine are kept apart from them.
-/

namespace NuclaDB.StoreCalls

open LittleEndian Hnsw Auth StoreRoot Api Unwinding Function

inductive CallError
  | store (e : StoreError)
  | opening (e : OpenError)
  | engine (e : EngineError)
  | search (e : SearchError)
  | quotaExceeded
  | rateLimited
  | notFound

namespace CallError

def ofGraph : Hnsw.Error → Sentinel
  | .dimensionMismatch => .dimensionMismatch
  | .nonFiniteVector => .nonFiniteVector
  | .notFound => .notFound

def sentinel : CallError → Sentinel
  | .store .tenantNotFound => .tenantNotFound
  | .store .tenantExists => .tenantExists
  | .store .invalidTenantID => .invalidTenantID
  | .store .invalidQuota => .invalidQuota
  | .store .defaultTenant => .defaultTenant
  | .store .badIndexSpec => .badIndexSpec
  | .opening (.graph e) | .opening (.wal (.callback (.graph e))) | .engine (.graph e)
  | .search (.graph e) => ofGraph e
  | .search (.filter _) => .badFilter
  | .engine .notFound | .notFound => .notFound
  | .quotaExceeded => .quotaExceeded
  | .rateLimited => .rateLimited
  | _ => .other

end CallError

/-- What a store is built from. `graphCfg` is the store's graph settings with the dimension and the
metric of a tenant. -/
structure Setup (D F : Type) where
  crc : Bytes → UInt32
  json : Codec
  files : FileCodec
  numbers : Numbers F
  graphCfg : StoreRoot.Config → Hnsw.Config D
  workers : Workers
  exactFilterLimit : ℤ
  errorText : CallError → String

/-- The level draws of a graph that is opened, the outcomes of log writes, the answers of the rate
limiters, and the time. -/
structure Env where
  rng : String → ℕ → ℕ
  io : ℕ → Wal.Outcome
  allowed : ℕ → Bool
  nanos : ℤ

structure Store (D : Type) where
  base : StoreRoot.Store
  engines : String → Option (Engine D)
  disks : String → NuclaDB.Disk

abbrev Run (D α : Type) := ExceptT CallError (StateM (Store D)) α

structure Place (D : Type) where
  closed : Bool
  tenant : Option Tenant
  engine : Option (Engine D)
  disk : NuclaDB.Disk

section Calls
variable {D F : Type}

def look (id : String) : Run D (Place D) := do
  let s ← get
  pure ⟨s.base.closed, s.base.tenants.lookup id, s.engines id, s.disks id⟩

def keep (id : String) (e : Engine D) (disk : NuclaDB.Disk) : Run D Unit := do
  let s ← get
  set { s with
    engines := update s.engines id (some e)
    disks := update s.disks id disk }

def onBase (f : StoreRoot.Store → Except StoreError StoreRoot.Store) : Run D Unit := do
  let s ← get
  match f s.base with
  | .error err => throw (.store err)
  | .ok base => set { s with base := base }

variable [Hnsw.Dist D] (P : Setup D F) (env : Env) (tenantID : String) (id : UInt64)

def acquire : Run D (Tenant × Engine D) := do
  let p ← look (tenantOf tenantID)
  if p.closed then throw (.store .storeClosed)
  else
    match p.tenant, p.engine with
    | none, _ => throw (.store .tenantNotFound)
    | some t, some e => pure (t, e)
    | some t, none =>
      match openEngine P.crc P.json (P.graphCfg t.cfg) P.workers (env.rng (tenantOf tenantID)) p.disk with
      | .error err => throw (.opening err)
      | .ok (e, disk) => do
        keep (tenantOf tenantID) e disk
        pure (t, e)

/-- A call on the engine that a call has acquired, and that stays open until it is done. -/
def commit (io : Wal.Outcome) (req : NuclaDB.Request) : Run D Unit := do
  let p ← look (tenantOf tenantID)
  match p.engine with
  | none => pure ()
  | some e =>
    match e.accept req with
    | .error err => throw (.engine err)
    | .ok [] => pure ()
    | .ok cs =>
      match e.commit P.crc P.json P.workers io (p.disk.wal.getD []) cs with
      | (e, file, r) => do
        keep (tenantOf tenantID) e { p.disk with wal := some file }
        match r with
        | .error err => throw (.engine err)
        | .ok () => pure ()

def limited (i : ℕ) : Run D Unit := if env.allowed i then pure () else throw .rateLimited

/-- The room that a call takes of the quota, when its tenant's other calls have `reserved`. -/
def reserve (t : Tenant) (e : Engine D) (reserved : ℤ) (ids : List UInt64) : Except CallError ℕ :=
  if t.quota.maxVectors ≤ 0 then .ok 0
  else
    let n := e.graph.countNew ids
    if t.quota.maxVectors < e.graph.live + (reserved + n) then .error .quotaExceeded else .ok n

def orThrow {α : Type} : Except CallError α → Run D α
  | .error err => throw err
  | .ok a => pure a

def insert (vector : Vec) (metadata : Meta) : Run D Unit := do
  let (t, e) ← acquire P env tenantID
  limited env 0
  let _ ← orThrow (reserve t e 0 [id])
  commit P tenantID (env.io 0) (.insert id vector metadata)

section InsertBatches

def acquireAll (env : Env) : List TenantBatch → Run D (List (TenantBatch × Tenant × Engine D))
  | [] => pure []
  | b :: bs => do
    let (t, e) ← acquire P env b.tenantID
    match validateItems (P.graphCfg t.cfg).dim b.items with
    | .error err => throw (.engine (.graph err))
    | .ok () => do
      let rest ← acquireAll env bs
      pure ((b, t, e) :: rest)

def limitedAll (env : Env) : ℕ → List TenantBatch → Run D Unit
  | _, [] => pure ()
  | i, _ :: bs => do
    limited env i
    limitedAll env (i + 1) bs

def reserveAll (reserved : String → ℤ) : List (TenantBatch × Tenant × Engine D) → Except CallError Unit
  | [] => .ok ()
  | (b, t, e) :: rest =>
    match reserve t e (reserved (tenantOf b.tenantID)) (b.items.map (·.1)) with
    | .error err => .error err
    | .ok n =>
      reserveAll (update reserved (tenantOf b.tenantID) (reserved (tenantOf b.tenantID) + n)) rest

def commitAll (env : Env) : ℕ → List TenantBatch → Run D Unit
  | _, [] => pure ()
  | i, b :: bs => do
    commit P b.tenantID (env.io i) (.insertBatch b.items)
    commitAll env (i + 1) bs

def insertBatches (env : Env) (batches : List TenantBatch) : Run D Unit := do
  let acquired ← acquireAll P env batches
  limitedAll env 0 batches
  orThrow (reserveAll (fun _ => 0) acquired)
  commitAll P env 0 batches

end InsertBatches

def delete : Run D Unit := do
  let _ ← acquire P env tenantID
  limited env 0
  commit P tenantID (env.io 0) (.delete id)

def updateMetadata (metadata : Meta) : Run D Unit := do
  let _ ← acquire P env tenantID
  limited env 0
  commit P tenantID (env.io 0) (.updateMetadata id metadata)

def get : Run D (Vec × Meta) := do
  let (_, e) ← acquire P env tenantID
  limited env 0
  match e.graph.get id with
  | none => throw .notFound
  | some v => pure (v, metaAt e.metadata id)

def page (e : Engine D) (start : UInt64) (limit : ℕ) : Page :=
  let all := (e.graph.ids.mergeSort fun a b => decide (a ≤ b)).dropWhile (· < start)
  if limit < all.length then ⟨all.take limit, true⟩ else ⟨all, false⟩

def list (start : UInt64) (limit : ℕ) : Run D Page := do
  let (_, e) ← acquire P env tenantID
  limited env 0
  pure (page e start limit)

def search (query : Vec) (topK ef : ℤ) (filters : List Filter) :
    Run D (List (Result D)) := do
  let (_, e) ← acquire P env tenantID
  limited env 0
  match e.search P.numbers P.exactFilterLimit query topK ef filters with
  | .error err => throw (.search err)
  | .ok results => pure results

def stats : Run D TenantStats := do
  let (t, e) ← acquire P env tenantID
  pure ⟨e.graph.live, t.quota, t.cfg.spec⟩

def indexOf : Run D IndexSpec := do
  let p ← look (tenantOf tenantID)
  match p.tenant with
  | none => throw (.store .tenantNotFound)
  | some t => pure t.cfg.spec

def createTenantWithIndex (quota : Quota) (spec : IndexSpec) : Run D Unit :=
  onBase fun base => base.createTenantWithIndex P.files tenantID quota spec

def setQuota (quota : Quota) : Run D Unit :=
  onBase fun base => base.setQuota P.files tenantID quota

/-- The engine is discarded before its directory is moved, and so also when that fails. -/
def deleteTenant : Run D Unit := do
  let s ← MonadState.get
  match s.base.deleteTenant tenantID env.nanos none with
  | .ok base =>
    set { base := base
          engines := update s.engines tenantID none
          disks := update s.disks tenantID NuclaDB.Disk.empty : Store D }
  | .error (.fs err) => do
    set { s with engines := update s.engines tenantID none }
    throw (.store (.fs err))
  | .error err => throw (.store err)

def allStats (s : Store D) : Std.ExtTreeMap String TenantStats compare :=
  s.base.tenants.entries.foldl (fun all t =>
    all.insert t.1 ⟨(s.engines t.1).elim 0 fun e => e.graph.live, t.2.quota, t.2.cfg.spec⟩) ∅

def reply {α : Type} (m : Run D α) (s : Store D) : Except Failure α × Store D :=
  let out := exec m s
  (out.1.mapError fun err => .sentinel err.sentinel (P.errorText err), out.2)

def answer : (c : StoreCall) → Store D → Answer D c × Store D
  | .createTenantWithIndex tenantID quota spec, s => reply P (createTenantWithIndex P tenantID quota spec) s
  | .insert tenantID id vector metadata, s => reply P (insert P env tenantID id vector metadata) s
  | .insertBatches batches, s => reply P (insertBatches P env batches) s
  | .delete tenantID id, s => reply P (delete P env tenantID id) s
  | .indexOf tenantID, s => reply P (indexOf tenantID) s
  | .search tenantID query topK ef filters, s => reply P (search P env tenantID query topK ef filters) s
  | .get tenantID id, s => reply P (get P env tenantID id) s
  | .list tenantID start limit, s => reply P (list P env tenantID start limit) s
  | .stats tenantID, s => reply P (stats P env tenantID) s
  | .updateMetadata tenantID id metadata, s => reply P (updateMetadata P env tenantID id metadata) s
  | .deleteTenant tenantID, s => reply P (deleteTenant env tenantID) s
  | .setQuota tenantID quota, s => reply P (setQuota P tenantID quota) s
  | .allStats, s => (allStats s, s)

end Calls

section Data
variable {D F : Type} [Hnsw.Dist D] (P : Setup D F) (env : Env)

/-- The programs that acquire tenants of some names and call their engines. -/
inductive OnData (names : String → Prop) : {α : Type} → Run D α → Prop
  | pure {α : Type} (a : α) : OnData names (pure a)
  | throw {α : Type} (e : CallError) : OnData names (throw e : Run D α)
  | bind {α β : Type} {m : Run D α} {f : α → Run D β} :
      OnData names m → (∀ a, OnData names (f a)) → OnData names (m >>= f)
  | look (id : String) : names id → OnData names (look id)
  | acquire (id : String) : names (tenantOf id) → OnData names (acquire P env id)
  | commit (id : String) (io : Wal.Outcome) (req : NuclaDB.Request) :
      names (tenantOf id) → OnData names (commit P id io req)

namespace OnData
variable {P env} {names : String → Prop} {α : Type} {bs : List TenantBatch}

theorem limited (i : ℕ) : OnData P env names (limited env i) := by
  unfold StoreCalls.limited
  split_ifs
  · exact .pure _
  · exact .throw _

theorem orThrow (x : Except CallError α) : OnData P env names (orThrow x) := by
  cases x with
  | error e => exact .throw e
  | ok a => exact .pure a

theorem acquireAll (hbs : ∀ b ∈ bs, names (tenantOf b.tenantID)) :
    OnData P env names (acquireAll P env bs) := by
  induction bs with
  | nil => exact .pure []
  | cons b bs ih =>
    obtain ⟨hb, hbs⟩ := List.forall_mem_cons.mp hbs
    refine (OnData.acquire b.tenantID hb).bind fun te => ?_
    obtain ⟨t, e⟩ := te
    dsimp only
    split
    · exact .throw _
    · exact (ih hbs).bind fun rest => .pure _

theorem limitedAll (i : ℕ) (bs : List TenantBatch) : OnData P env names (limitedAll env i bs) := by
  induction bs generalizing i with
  | nil => exact .pure ()
  | cons b bs ih => exact (limited i).bind fun _ => ih (i + 1)

theorem commitAll (i : ℕ) (hbs : ∀ b ∈ bs, names (tenantOf b.tenantID)) :
    OnData P env names (commitAll P env i bs) := by
  induction bs generalizing i with
  | nil => exact .pure ()
  | cons b bs ih =>
    obtain ⟨hb, hbs⟩ := List.forall_mem_cons.mp hbs
    exact (OnData.commit b.tenantID _ _ hb).bind fun _ => ih (i + 1) hbs

theorem insertBatches (hbs : ∀ b ∈ bs, names (tenantOf b.tenantID)) :
    OnData P env names (insertBatches P env bs) :=
  (acquireAll hbs).bind fun _ => (limitedAll 0 bs).bind fun _ =>
    (orThrow _).bind fun _ => commitAll 0 hbs

variable {tenantID : String} (hname : names (tenantOf tenantID)) (n : UInt64)
include hname

theorem insert (vector : Vec) (metadata : Meta) :
    OnData P env names (insert P env tenantID n vector metadata) :=
  (OnData.acquire tenantID hname).bind fun _ => (limited 0).bind fun _ =>
    (orThrow _).bind fun _ => .commit tenantID _ _ hname

theorem delete : OnData P env names (delete P env tenantID n) :=
  (OnData.acquire tenantID hname).bind fun _ => (limited 0).bind fun _ => .commit tenantID _ _ hname

theorem updateMetadata (metadata : Meta) :
    OnData P env names (updateMetadata P env tenantID n metadata) :=
  (OnData.acquire tenantID hname).bind fun _ => (limited 0).bind fun _ => .commit tenantID _ _ hname

theorem get : OnData P env names (get P env tenantID n) := by
  refine (OnData.acquire tenantID hname).bind fun te => (limited 0).bind fun _ => ?_
  split
  · exact .throw _
  · exact .pure _

theorem list (start : UInt64) (limit : ℕ) : OnData P env names (list P env tenantID start limit) :=
  (OnData.acquire tenantID hname).bind fun _ => (limited 0).bind fun _ => .pure _

theorem search (query : Vec) (topK ef : ℤ) (filters : List Filter) :
    OnData P env names (search P env tenantID query topK ef filters) := by
  refine (OnData.acquire tenantID hname).bind fun te => (limited 0).bind fun _ => ?_
  split
  · exact .throw _
  · exact .pure _

theorem stats : OnData P env names (stats P env tenantID) :=
  (OnData.acquire tenantID hname).bind fun _ => .pure _

theorem indexOf : OnData P env names (indexOf tenantID : Run D IndexSpec) := by
  refine (OnData.look _ hname).bind fun p => ?_
  split
  · exact .throw _
  · exact .pure _

end OnData

def isData : StoreCall → Bool
  | .createTenantWithIndex .. | .deleteTenant .. | .setQuota .. | .allStats => false
  | _ => true

theorem answer_data (names : String → Prop) {c : StoreCall} (hdata : isData c = true)
    (hnames : ∀ T, c.Touches T → names T) :
    ∃ (α : Type) (m : Run D α) (g : Except Failure α → Answer D c), OnData P env names m ∧
      ∀ s, answer P env c s = (g (reply P m s).1, (reply P m s).2) := by
  cases c with
  | insert tenantID n vector metadata =>
    exact ⟨_, _, id, .insert (hnames _ rfl) n vector metadata, fun _ => rfl⟩
  | insertBatches bs =>
    exact ⟨_, _, id, .insertBatches fun b hb => hnames _ ⟨b, hb, rfl⟩, fun _ => rfl⟩
  | delete tenantID n => exact ⟨_, _, id, .delete (hnames _ rfl) n, fun _ => rfl⟩
  | indexOf tenantID => exact ⟨_, _, id, .indexOf (hnames _ rfl), fun _ => rfl⟩
  | search tenantID query topK ef filters =>
    exact ⟨_, _, id, .search (hnames _ rfl) query topK ef filters, fun _ => rfl⟩
  | get tenantID n => exact ⟨_, _, id, .get (hnames _ rfl) n, fun _ => rfl⟩
  | list tenantID start limit => exact ⟨_, _, id, .list (hnames _ rfl) start limit, fun _ => rfl⟩
  | stats tenantID => exact ⟨_, _, id, .stats (hnames _ rfl), fun _ => rfl⟩
  | updateMetadata tenantID n metadata =>
    exact ⟨_, _, id, .updateMetadata (hnames _ rfl) n metadata, fun _ => rfl⟩
  | _ => cases hdata

end Data

end NuclaDB.StoreCalls
