import NuclaDB.EngineCommit
import NuclaDB.EventRun
import NuclaDB.FileTree
import NuclaDB.KeyedLog

/-!
# The store's root directory

Each tenant has a directory with its quota and its index settings below the root. A data call
changes some file of its engine. A quota's rate is the bits of a `float64`.
-/

namespace NuclaDB.StoreRoot

open LittleEndian FileTree EventRun KeyedLog

section Settings

inductive Metric
  | cosine
  | l2
  | dot
deriving DecidableEq

def Metric.name : Metric → String
  | cosine => "cosine"
  | l2 => "l2"
  | dot => "dot"

def metricByName (name : String) : Option Metric :=
  if name = "cosine" then some .cosine
  else if name = "l2" then some .l2
  else if name = "dot" then some .dot
  else none

structure Config where
  dim : ℤ
  metric : Option Metric
deriving DecidableEq

def Config.metricName (cfg : Config) : String :=
  match cfg.metric with
  | none => "cosine"
  | some m => m.name

structure Quota where
  maxVectors : ℤ
  maxQPS : UInt64
deriving DecidableEq

def unlimited : Quota := ⟨0, 0⟩

def isNaN (x : UInt64) : Bool := 0x7FF0000000000000 < x.toNat % 2 ^ 63

def isInf (x : UInt64) : Bool := x.toNat % 2 ^ 63 = 0x7FF0000000000000

def isNegative (x : UInt64) : Bool := 2 ^ 63 < x.toNat && !isNaN x

def validateQuota (q : Quota) : Bool :=
  !(q.maxVectors < 0 || isNegative q.maxQPS || isNaN q.maxQPS || isInf q.maxQPS)

structure IndexSpec where
  dim : ℤ
  metric : String
deriving DecidableEq

end Settings

section Names

def defaultTenant : String := "default"

def snapshotFile : String := "snapshot.bin"

def metadataFile : String := "metadata.json"

def walFile : String := "wal.log"

def installFile : String := "snapshot.install.json"

def indexFile : String := "index.json"

def quotaFile : String := "quota.json"

def engineFiles : List String :=
  [snapshotFile, metadataFile, walFile, installFile].flatMap fun name =>
    [name, name ++ ".tmp", name ++ ".new", name ++ ".incoming", name ++ ".install-backup"]

abbrev EngineFile := { name : String // name ∈ engineFiles }

def isControl (c : Char) : Bool := c.toNat < 0x20 || (0x7F ≤ c.toNat && c.toNat ≤ 0x9F)

def base (path : List Char) : List Char :=
  if path.isEmpty then ['.']
  else
    let stripped := (path.reverse.dropWhile (· = '/')).reverse
    let last := (stripped.reverse.takeWhile (· ≠ '/')).reverse
    if last.isEmpty then ['/'] else last

def validTenantID (id : String) : Bool :=
  !(id = "" || 128 < id.utf8ByteSize || id = "." || id = ".." || base id.toList ≠ id.toList) &&
    !id.toList.any isControl

def tenantPath (id : String) : List String :=
  ((id.toList.splitOn '/').filter fun part => !part.isEmpty).map String.ofList

def deletedName (nanos : ℤ) (id : String) : String := ".deleted-" ++ toString nanos ++ "-" ++ id

def isDeletedName (name : String) : Bool := ".deleted-".toList.isPrefixOf name.toList

end Names

inductive StoreError
  | tenantExists
  | tenantNotFound
  | invalidTenantID
  | defaultTenant
  | invalidQuota
  | badIndexSpec
  | storeClosed
  | bothLegacyAndDefault
  | migrationDestination (path : List String)
  | inFile (path : List String) (err : StoreError)
  | fs (err : FileTree.Error)
  | json
deriving DecidableEq

/-- `encoding/json` at the two types. A rate that is no finite number has no encoding. -/
structure FileCodec where
  index : Json IndexSpec
  marshalQuota : Quota → Option Bytes
  unmarshalQuota : Bytes → Option Quota
  quota_round_trip (q : Quota) : validateQuota q → ∃ b, marshalQuota q = some b ∧ unmarshalQuota b = some q

structure Tenant where
  quota : Quota
  cfg : Config
deriving DecidableEq

structure Store where
  root : Tree
  cfg : Config
  tenants : AList fun _ : String => Tenant
  closed : Bool

section Files
variable (J : FileCodec) (root : Tree) (dir : List String)

def onDisk {α : Type} (x : Except FileTree.Error α) : Except StoreError α := x.mapError .fs

def isTenantDir : Bool :=
  [quotaFile, walFile].any fun f => (root.get (dir ++ [f])).isOk

def loadQuota : Except StoreError Quota :=
  match root.readFile (dir ++ [quotaFile]) with
  | .error .notExist => .ok unlimited
  | .error e => .error (.fs e)
  | .ok b => (J.unmarshalQuota b).elim (.error .json) .ok

def saveQuota (q : Quota) : Except StoreError Tree :=
  match J.marshalQuota q with
  | none => .error .json
  | some b => onDisk (root.edit (Tree.replaceHere quotaFile b) dir)

def loadIndex (cfg : Config) : Except StoreError Config :=
  match root.readFile (dir ++ [indexFile]) with
  | .error .notExist => .ok cfg
  | .error e => .error (.fs e)
  | .ok b =>
    match J.index.unmarshal b with
    | none => .error .json
    | some ij =>
      match metricByName ij.metric with
      | some m => if ij.dim ≤ 0 then .error (.inFile (dir ++ [indexFile]) .badIndexSpec) else .ok ⟨ij.dim, some m⟩
      | none => .error (.inFile (dir ++ [indexFile]) .badIndexSpec)

def saveIndex (cfg : Config) : Except StoreError Tree :=
  onDisk (root.edit (Tree.replaceHere indexFile (J.index.marshal ⟨cfg.dim, cfg.metricName⟩)) dir)

def createFiles (quota : Quota) (cfg : Config) :
    Except StoreError Tree := do
  let root ← onDisk (root.mkdirAll dir)
  let root ← saveIndex J root dir cfg
  saveQuota J root dir quota

end Files

section OpenStore
variable (J : FileCodec) (root : Tree)

def rootFiles : List String := [snapshotFile, metadataFile, walFile]

def statFile (path : List String) : Except StoreError Bool :=
  match root.get path with
  | .ok _ => .ok true
  | .error .notExist => .ok false
  | .error e => .error (.fs e)

def moveFile (name : String) : Except StoreError Tree := do
  if ← statFile root [name] then
    if (root.get [defaultTenant, name]).isOk then .error (.migrationDestination [defaultTenant, name])
    else onDisk (root.rename [name] [defaultTenant] name)
  else .ok root

def migrateLegacyDefault (cfg : Config) : Except StoreError Tree := do
  let found ← rootFiles.mapM fun name => statFile root [name]
  let legacyExists := found.any id
  let finished ← statFile root [defaultTenant, quotaFile]
  if !legacyExists && finished then .ok root
  else
    let unfinished := !finished && isTenantDir root [defaultTenant]
    if !legacyExists && !unfinished then .ok root
    else if legacyExists && finished then .error .bothLegacyAndDefault
    else
      let root ← onDisk (root.mkdirAll [defaultTenant])
      let root ← rootFiles.foldlM moveFile root
      let root ← saveIndex J root [defaultTenant] cfg
      saveQuota J root [defaultTenant] unlimited

def loadTenant (cfg : Config) (e : Sigma fun _ : String => Tree) :
    Except StoreError (Option Tenant) := do
  if !e.2.isDir || isDeletedName e.1 || !isTenantDir root [e.1] then .ok none
  else
    let quota ← loadQuota J root [e.1]
    if validateQuota quota then
      let cfg ← loadIndex J root [e.1] cfg
      .ok (some ⟨quota, cfg⟩)
    else .error (.inFile [e.1, quotaFile] .invalidQuota)

def loadTenants (root : Tree) (cfg : Config) :
    Entries → (AList fun _ : String => Tenant) → Except StoreError (AList fun _ : String => Tenant)
  | [], tenants => .ok tenants
  | e :: entries, tenants => do
    match ← loadTenant J root cfg e with
    | none => loadTenants root cfg entries tenants
    | some t => loadTenants root cfg entries (tenants.insert e.1 t)

def openStore (cfg : Config) : Except StoreError Store := do
  let root ← migrateLegacyDefault J root cfg
  let entries ← onDisk (root.readDir [])
  let tenants ← loadTenants J root cfg entries ∅
  if (tenants.lookup defaultTenant).isSome then .ok ⟨root, cfg, tenants, false⟩
  else
    let root ← createFiles J root (tenantPath defaultTenant) unlimited cfg
    .ok ⟨root, cfg, tenants.insert defaultTenant ⟨unlimited, cfg⟩, false⟩

end OpenStore

section Calls
variable (J : FileCodec)

/-- The settings a tenant is created with: the store's, unless it has its own. -/
def Config.withSpec (cfg : Config) (spec : IndexSpec) : Except StoreError Config :=
  if spec.dim < 0 then .error .badIndexSpec
  else
    let cfg := if 0 < spec.dim then { cfg with dim := spec.dim } else cfg
    if spec.metric = "" then .ok cfg
    else
      match metricByName spec.metric with
      | none => .error .badIndexSpec
      | some m => .ok { cfg with metric := some m }

namespace Store

variable (s : Store) (id : String)

def createTenantWithIndex (quota : Quota) (spec : IndexSpec) :
    Except StoreError Store := do
  if s.closed then .error .storeClosed
  else if !validateQuota quota then .error .invalidQuota
  else if !validTenantID id then .error .invalidTenantID
  else
    let cfg ← s.cfg.withSpec spec
    if (s.tenants.lookup id).isSome then .error .tenantExists
    else
      let root ← createFiles J s.root (tenantPath id) quota cfg
      .ok { s with root := root, tenants := s.tenants.insert id ⟨quota, cfg⟩ }

def setQuota (quota : Quota) : Except StoreError Store := do
  if s.closed then .error .storeClosed
  else if !validateQuota quota then .error .invalidQuota
  else
    let id := if id = "" then defaultTenant else id
    match s.tenants.lookup id with
    | none => .error .tenantNotFound
    | some t =>
      let root ← saveQuota J s.root (tenantPath id) quota
      .ok { s with root := root, tenants := s.tenants.insert id { t with quota := quota } }

/-- The tenant is gone once its directory has its new name; `left` is what `RemoveAll` then leaves of
it, if it fails. -/
def deleteTenant (nanos : ℤ) (left : Option Entries) :
    Except StoreError Store := do
  if s.closed then .error .storeClosed
  else if id = "" || id = StoreRoot.defaultTenant then .error .defaultTenant
  else if (s.tenants.lookup id).isNone then .error .tenantNotFound
  else
    let tombstone := deletedName nanos id
    let root ← onDisk (s.root.rename (tenantPath id) [] tombstone)
    let root ← match left with
      | none => .ok (root.cut [tombstone])
      | some es => onDisk (root.edit (fun _ => .ok (.dir es)) [tombstone])
    .ok { s with root := root, tenants := s.tenants.erase id }

def data (file : EngineFile) (content : Option Bytes) : Except StoreError Store := do
  if s.closed then .error .storeClosed
  else
    let id := if id = "" then defaultTenant else id
    if (s.tenants.lookup id).isNone then .error .tenantNotFound
    else
      let change := match content with
        | some b => Tree.writeHere file.1 b
        | none => Tree.removeHere file.1
      let root ← onDisk (s.root.edit change (tenantPath id))
      .ok { s with root := root }

end Store

inductive Call
  | createTenantWithIndex (id : String) (quota : Quota) (spec : IndexSpec)
  | setQuota (id : String) (quota : Quota)
  | deleteTenant (id : String) (nanos : ℤ) (left : Option Entries)
  | data (id : String) (file : EngineFile) (content : Option Bytes)
  | close

def Store.step (s : Store) : Call → Except StoreError Store
  | .createTenantWithIndex id quota spec => s.createTenantWithIndex J id quota spec
  | .setQuota id quota => s.setQuota J id quota
  | .deleteTenant id nanos left => s.deleteTenant id nanos left
  | .data id file content => s.data id file content
  | .close => .ok { s with closed := true }

end Calls

section Expected

def Config.spec (cfg : Config) : IndexSpec := ⟨cfg.dim, cfg.metricName⟩

def Tenant.info (t : Tenant) : Quota × IndexSpec := (t.quota, t.cfg.spec)

namespace Call

def tenant : Call → String
  | createTenantWithIndex id _ _ => id
  | setQuota id _ => if id = "" then defaultTenant else id
  | deleteTenant id _ _ => id
  | data id _ _ => if id = "" then defaultTenant else id
  | close => defaultTenant

def effect (cfg : IndexSpec) : Call → Option (Quota × IndexSpec) → Option (Quota × IndexSpec)
  | createTenantWithIndex _ quota spec, _ =>
    some (quota, ⟨if 0 < spec.dim then spec.dim else cfg.dim,
      if spec.metric = "" then cfg.metric else spec.metric⟩)
  | setQuota _ quota, x => x.map fun info => (quota, info.2)
  | deleteTenant _ _ _, _ => none
  | data _ _ _, x => x
  | close, x => x

end Call

/-- The tenants after some calls: the default one and those created and not deleted. -/
def expected (cfg : IndexSpec) (calls : List Call) : String → Option (Quota × IndexSpec) :=
  putAll Call.tenant (Call.effect cfg)
    (fun id => if id = defaultTenant then some (unlimited, cfg) else none) calls

/-- The ids that `validTenantID` accepts and `OpenStore` does not take for tenants. -/
def isReserved (id : String) : Bool := id = "/" || rootFiles.contains id || isDeletedName id

end Expected

end NuclaDB.StoreRoot
