import NuclaDB.ApiKeys
import NuclaDB.CallProgram
import NuclaDB.EngineSearch
import NuclaDB.Strconv

/-!
# The gRPC server

Each handler checks the caller's key, then its request, and calls the store. A handler is a
program of store calls, and the store is whatever answers them.
-/

namespace NuclaDB.Api

open Hnsw Auth StoreRoot Strconv CallProgram List Std

section Messages

inductive DistanceMetric
  | unspecified
  | cosine
  | l2
  | dot
  | unknown (n : ℤ)
deriving DecidableEq

def metricNames : DistanceMetric → Option String
  | .cosine => some "cosine"
  | .l2 => some "l2"
  | .dot => some "dot"
  | _ => none

def metricEnum (name : String) : DistanceMetric :=
  if name = "cosine" then .cosine
  else if name = "l2" then .l2
  else if name = "dot" then .dot
  else .unspecified

structure Pb.Vector where
  id : String
  values : Vec
  metadata : Meta
  tenantID : String

structure Pb.MetadataFilter where
  key : String
  value : String
  op : FilterOp
  values : List String

inductive Request
  | createTenant (tenantID : String) (quota : Option Quota) (dim : ℤ) (metric : DistanceMetric)
  | insert (vector : Option Pb.Vector)
  | batchUpsert (vectors : List Pb.Vector)
  | delete (tenantID id : String)
  | search (tenantID : String) (query : Vec) (topK : ℤ) (metric : DistanceMetric) (efSearch : ℤ)
      (filters : List Pb.MetadataFilter)
  | get (tenantID id : String)
  | list (tenantID pageToken : String) (pageSize : ℤ)
  | count (tenantID : String)
  | updateMetadata (tenantID id : String) (metadata : Meta)
  | deleteTenant (tenantID : String)
  | setQuota (tenantID : String) (quota : Option Quota)
  | listTenants

/-- The requests on the tenants themselves, all others being on their data. -/
def Request.isAdmin : Request → Bool
  | .createTenant .. | .deleteTenant .. | .setQuota .. | .listTenants => true
  | _ => false

structure ScoredVector (D : Type) where
  id : String
  score : D
  metadata : Meta

structure TenantInfo where
  tenantID : String
  vectorCount : ℤ
  quota : Quota
  dim : ℤ
  metric : DistanceMetric

inductive Response (D : Type)
  | createTenant
  | insert (id : String)
  | batchUpsert (upserted : ℤ)
  | delete (deleted : Bool)
  | search (results : List (ScoredVector D))
  | get (vector : Pb.Vector)
  | list (ids : List String) (nextPageToken : String)
  | count (count : ℤ)
  | updateMetadata
  | deleteTenant
  | setQuota
  | listTenants (tenants : List TenantInfo)

end Messages

section Calls

abbrev InsertItem := UInt64 × Vec × Meta

structure TenantBatch where
  tenantID : String
  items : List InsertItem

inductive StoreCall
  | createTenantWithIndex (tenantID : String) (quota : Quota) (spec : IndexSpec)
  | insert (tenantID : String) (id : UInt64) (vector : Vec) (metadata : Meta)
  | insertBatches (batches : List TenantBatch)
  | delete (tenantID : String) (id : UInt64)
  | indexOf (tenantID : String)
  | search (tenantID : String) (query : Vec) (topK ef : ℤ) (filters : List Filter)
  | get (tenantID : String) (id : UInt64)
  | list (tenantID : String) (start : UInt64) (limit : ℕ)
  | stats (tenantID : String)
  | updateMetadata (tenantID : String) (id : UInt64) (metadata : Meta)
  | deleteTenant (tenantID : String)
  | setQuota (tenantID : String) (quota : Quota)
  | allStats

/-- The tenants that the store reads or changes to answer a call. -/
def StoreCall.Touches : StoreCall → String → Prop
  | .createTenantWithIndex id _ _, t | .insert id _ _ _, t | .delete id _, t | .indexOf id, t
  | .search id _ _ _ _, t | .get id _, t | .list id _ _, t | .stats id, t
  | .updateMetadata id _ _, t | .deleteTenant id, t | .setQuota id _, t => t = tenantOf id
  | .insertBatches batches, t => ∃ b ∈ batches, t = tenantOf b.tenantID
  | .allStats, _ => True

inductive Code
  | canceled
  | invalidArgument
  | deadlineExceeded
  | notFound
  | alreadyExists
  | permissionDenied
  | resourceExhausted
  | unauthenticated
  | internal
  | other (n : ℕ)
deriving DecidableEq

structure Status where
  code : Code
  message : String
deriving DecidableEq

inductive Sentinel
  | canceled
  | deadlineExceeded
  | tenantNotFound
  | tenantExists
  | invalidTenantID
  | invalidQuota
  | dimensionMismatch
  | nonFiniteVector
  | defaultTenant
  | badFilter
  | badIndexSpec
  | quotaExceeded
  | rateLimited
  | notFound
  | other
deriving DecidableEq

/-- An error of the store, which is a status already or has the text of its `Error()`. -/
inductive Failure
  | status (s : Status)
  | sentinel (is : Sentinel) (text : String)

def toStatus : Failure → Status
  | .status s => s
  | .sentinel is text =>
    match is with
    | .canceled => ⟨.canceled, "request canceled"⟩
    | .deadlineExceeded => ⟨.deadlineExceeded, "request deadline exceeded"⟩
    | .tenantNotFound | .notFound => ⟨.notFound, text⟩
    | .tenantExists => ⟨.alreadyExists, text⟩
    | .invalidTenantID | .invalidQuota | .dimensionMismatch | .nonFiniteVector | .defaultTenant
    | .badFilter | .badIndexSpec => ⟨.invalidArgument, text⟩
    | .quotaExceeded | .rateLimited => ⟨.resourceExhausted, text⟩
    | .other => ⟨.internal, "internal server error"⟩

structure Page where
  ids : List UInt64
  more : Bool

structure TenantStats where
  vectorCount : ℤ
  quota : Quota
  index : IndexSpec

def Answer (D : Type) : StoreCall → Type
  | .createTenantWithIndex .. | .insert .. | .insertBatches .. | .delete .. | .updateMetadata ..
  | .deleteTenant .. | .setQuota .. => Except Failure Unit
  | .indexOf .. => Except Failure IndexSpec
  | .search .. => Except Failure (List (Result D))
  | .get .. => Except Failure (Vec × Meta)
  | .list .. => Except Failure Page
  | .stats .. => Except Failure TenantStats
  | .allStats => ExtTreeMap String TenantStats compare

abbrev Handler (D α : Type) := CallProgram Status (Answer D) α

def orStatus {D α : Type} (r : Except Failure α) : Handler D α := ofExcept (r.mapError toStatus)

end Calls

def invalidArgument (message : String) : Status := ⟨.invalidArgument, message⟩

def parseID (s : String) : Except Status UInt64 :=
  match parseUint s with
  | none => .error (invalidArgument ("id must be a decimal uint64, got " ++ s.quote))
  | some id => .ok id

def maxTopK : ℤ := 1000

def maxEf : ℤ := 10000

def maxPageSize : ℤ := 1000

structure Server where
  keys : Option Keys

namespace Server
variable {D : Type} (srv : Server) (given tenantID : String)

def new : Server := ⟨none⟩

def requireKeys (ks : Keys) (_ : Server) : Server := ⟨some ks⟩

def allow (admin : Bool) : Except Status Unit :=
  match srv.keys with
  | none => .ok ()
  | some ks =>
    match ks.allow given tenantID admin with
    | .error .noKey => .error ⟨.unauthenticated, AuthError.noKey.text⟩
    | .error .forbidden => .error ⟨.permissionDenied, AuthError.forbidden.text⟩
    | .ok () => .ok ()

def indexMetric (metric : DistanceMetric) : Except Status String :=
  if metric = .unspecified then .ok ""
  else
    match metricNames metric with
    | none => .error (invalidArgument "unknown distance metric")
    | some name => .ok name

def createTenant (quota : Option Quota) (dim : ℤ)
    (metric : DistanceMetric) : Handler D (Response D) := do
  ofExcept (srv.allow given tenantID true)
  if tenantID = "" then fail (invalidArgument "tenant_id is required")
  else do
    let metricName ← ofExcept (indexMetric metric)
    orStatus (← ask (StoreCall.createTenantWithIndex tenantID (quota.getD unlimited) ⟨dim, metricName⟩))
    pure .createTenant

def insert (given : String) (vector : Option Pb.Vector) : Handler D (Response D) := do
  ofExcept (srv.allow given (vector.elim "" (·.tenantID)) false)
  match vector with
  | none => fail (invalidArgument "vector is required")
  | some v =>
    let id ← ofExcept (parseID v.id)
    orStatus (← ask (StoreCall.insert v.tenantID id v.values v.metadata))
    pure (.insert v.id)

structure Groups where
  byTenant : ExtTreeMap String (List InsertItem) compare
  tenantOrder : List String

def addVector (given : String) (g : Groups) (v : Pb.Vector) : Except Status Groups := do
  let id ← parseID v.id
  let order ←
    if v.tenantID ∈ g.byTenant then .ok g.tenantOrder
    else do
      srv.allow given v.tenantID false
      .ok (g.tenantOrder ++ [v.tenantID])
  .ok ⟨g.byTenant.insert v.tenantID
    (g.byTenant.getD v.tenantID [] ++ [(id, v.values, v.metadata)]), order⟩

def groupVectors (srv : Server) (given : String) (g : Groups) : List Pb.Vector → Except Status Groups
  | [] => .ok g
  | v :: vs => do
    let g ← srv.addVector given g v
    srv.groupVectors given g vs

def Groups.batches (g : Groups) : List TenantBatch :=
  g.tenantOrder.map fun t => ⟨t, g.byTenant.getD t []⟩

def batchUpsert (given : String) (vectors : List Pb.Vector) : Handler D (Response D) := do
  let g ← ofExcept (srv.groupVectors given ⟨∅, []⟩ vectors)
  orStatus (← ask (StoreCall.insertBatches g.batches))
  pure (.batchUpsert (g.batches.map (·.items.length)).sum)

def delete (given tenantID id : String) : Handler D (Response D) := do
  ofExcept (srv.allow given tenantID false)
  let id ← ofExcept (parseID id)
  orStatus (← ask (StoreCall.delete tenantID id))
  pure (.delete true)

/-- A search cannot use another metric than its tenant's index was built with. -/
def checkMetric (tenantID : String) (want : DistanceMetric) : Handler D Unit :=
  if want = .unspecified then pure ()
  else do
    let spec ← orStatus (← ask (StoreCall.indexOf tenantID))
    if (metricNames want).getD "" ≠ spec.metric then
      fail (invalidArgument ("tenant's index was built with metric " ++ spec.metric ++
        "; search cannot use a different one"))
    else pure ()

def toFilter (f : Pb.MetadataFilter) : Filter :=
  ⟨f.key, f.op, if f.values.isEmpty && f.op ≠ .opExists then [f.value] else f.values⟩

def search (query : Vec) (topK : ℤ) (metric : DistanceMetric)
    (efSearch : ℤ) (filters : List Pb.MetadataFilter) : Handler D (Response D) := do
  ofExcept (srv.allow given tenantID false)
  checkMetric tenantID metric
  if topK ≤ 0 || maxTopK < topK then
    fail (invalidArgument ("top_k must be between 1 and " ++ toString maxTopK))
  else if efSearch < 0 || maxEf < efSearch then
    fail (invalidArgument ("ef_search must be between 0 (server default) and " ++ toString maxEf))
  else do
    let results ← orStatus (← ask (StoreCall.search tenantID query topK efSearch (filters.map toFilter)))
    pure (.search (results.map fun r => ⟨formatUint r.id, r.distance, r.metadata⟩))

def get (given tenantID id : String) : Handler D (Response D) := do
  ofExcept (srv.allow given tenantID false)
  let n ← ofExcept (parseID id)
  let (values, metadata) ← orStatus (← ask (StoreCall.get tenantID n))
  pure (.get ⟨id, values, metadata, tenantID⟩)

def pageStart (pageToken : String) : Except Status UInt64 :=
  if pageToken = "" then .ok 0
  else
    match parseUint pageToken with
    | none => .error (invalidArgument "bad page_token")
    | some start => .ok start

/-- More ids follow only a page that is full, and so has a last id. -/
def nextPageToken (page : Page) : String :=
  match page.more, page.ids.getLast? with
  | true, some id => formatUint (id + 1)
  | _, _ => ""

def list (given tenantID pageToken : String) (pageSize : ℤ) : Handler D (Response D) := do
  ofExcept (srv.allow given tenantID false)
  if pageSize < 0 || maxPageSize < pageSize then
    fail (invalidArgument ("page_size must be between 0 (default 100) and " ++ toString maxPageSize))
  else do
    let start ← ofExcept (pageStart pageToken)
    let page ← orStatus (← ask (StoreCall.list tenantID start (if pageSize = 0 then 100 else pageSize.toNat)))
    pure (.list (page.ids.map formatUint) (nextPageToken page))

def count : Handler D (Response D) := do
  ofExcept (srv.allow given tenantID false)
  let st ← orStatus (← ask (StoreCall.stats tenantID))
  pure (.count st.vectorCount)

def updateMetadata (given tenantID id : String) (metadata : Meta) :
    Handler D (Response D) := do
  ofExcept (srv.allow given tenantID false)
  let n ← ofExcept (parseID id)
  orStatus (← ask (StoreCall.updateMetadata tenantID n metadata))
  pure .updateMetadata

def deleteTenant : Handler D (Response D) := do
  ofExcept (srv.allow given tenantID true)
  orStatus (← ask (StoreCall.deleteTenant tenantID))
  pure .deleteTenant

def setQuota (quota : Option Quota) :
    Handler D (Response D) := do
  ofExcept (srv.allow given tenantID true)
  orStatus (← ask (StoreCall.setQuota tenantID (quota.getD unlimited)))
  pure .setQuota

def tenantInfo (id : String) (st : TenantStats) : TenantInfo :=
  ⟨id, st.vectorCount, st.quota, st.index.dim.bmod (2 ^ 32), metricEnum st.index.metric⟩

def listTenants (given : String) : Handler D (Response D) := do
  ofExcept (srv.allow given "" true)
  let all ← ask StoreCall.allStats
  let all : ExtTreeMap String TenantStats compare := all
  pure (.listTenants (all.toList.map fun (id, st) => tenantInfo id st))

def serve (given : String) : Request → Handler D (Response D)
  | .createTenant tenantID quota dim metric => srv.createTenant given tenantID quota dim metric
  | .insert vector => srv.insert given vector
  | .batchUpsert vectors => srv.batchUpsert given vectors
  | .delete tenantID id => srv.delete given tenantID id
  | .search tenantID query topK metric efSearch filters =>
    srv.search given tenantID query topK metric efSearch filters
  | .get tenantID id => srv.get given tenantID id
  | .list tenantID pageToken pageSize => srv.list given tenantID pageToken pageSize
  | .count tenantID => srv.count given tenantID
  | .updateMetadata tenantID id metadata => srv.updateMetadata given tenantID id metadata
  | .deleteTenant tenantID => srv.deleteTenant given tenantID
  | .setQuota tenantID quota => srv.setQuota given tenantID quota
  | .listTenants => srv.listTenants given

structure Groups.Of (srv : Server) (given : String) (g : Groups) (vs : List (Pb.Vector × UInt64)) :
    Prop where
  items (t : String) : g.byTenant.getD t [] =
    (vs.filter fun p => p.1.tenantID = t).map fun p => (p.2, p.1.values, p.1.metadata)
  mem (t : String) : t ∈ g.byTenant ↔ ∃ p ∈ vs, p.1.tenantID = t
  order : g.tenantOrder = (vs.map fun p => p.1.tenantID).eraseDups
  allowed (t : String) : t ∈ g.byTenant → srv.allow given t false = .ok ()

variable {srv : Server} {given : String} {g g' : Groups} {v : Pb.Vector} {vs : List Pb.Vector}
  {done : List (Pb.Vector × UInt64)}

theorem Groups.Of.empty : Groups.Of srv given ⟨∅, []⟩ [] where
  items t := by simp
  mem t := by simp
  order := rfl
  allowed t h := by simp at h

theorem addVector_cases (h : srv.addVector given g v = .ok g') : ∃ id, parseID v.id = .ok id ∧
      (v.tenantID ∉ g.byTenant → srv.allow given v.tenantID false = .ok ()) ∧
      g' = ⟨g.byTenant.insert v.tenantID (g.byTenant.getD v.tenantID [] ++ [(id, v.values, v.metadata)]),
        if v.tenantID ∈ g.byTenant then g.tenantOrder else g.tenantOrder ++ [v.tenantID]⟩ := by
  unfold addVector at h
  cases hid : parseID v.id with
  | error e =>
    rw [hid] at h
    cases h
  | ok id =>
    rw [hid] at h
    refine ⟨id, rfl, ?_⟩
    by_cases hmem : v.tenantID ∈ g.byTenant
    · simp only [hmem, if_true] at h ⊢
      cases h
      exact ⟨fun hn => absurd trivial hn, rfl⟩
    · simp only [hmem, if_false] at h ⊢
      cases hallow : srv.allow given v.tenantID false with
      | error e =>
        rw [hallow] at h
        cases h
      | ok u =>
        rw [hallow] at h
        cases h
        exact ⟨fun _ => rfl, rfl⟩

theorem Groups.Of.add (hg : Groups.Of srv given g done) (h : srv.addVector given g v = .ok g') :
    ∃ id, parseID v.id = .ok id ∧ Groups.Of srv given g' (done ++ [(v, id)]) := by
  obtain ⟨id, hid, hallow, rfl⟩ := addVector_cases h
  refine ⟨id, hid, ?_, ?_, ?_, ?_⟩
  · intro t
    by_cases ht : v.tenantID = t
    · simp [ht, ← hg.items]
    · simp [ht, hg.items, ExtTreeMap.getD_insert]
  · intro t
    by_cases ht : v.tenantID = t
    · simp [ht]
    · simp [ht, hg.mem]
  · rw [map_append, eraseDups_append, ← hg.order]
    by_cases hmem : v.tenantID ∈ g.byTenant
    · have hold : v.tenantID ∈ done.map fun p => p.1.tenantID := by
        simpa using (hg.mem _).mp hmem
      simp [hmem, hold, removeAll]
    · have hnew : v.tenantID ∉ done.map fun p => p.1.tenantID := by
        simpa using fun h => hmem ((hg.mem _).mpr h)
      simp [hmem, hnew, removeAll, eraseDups_cons]
  · intro t ht
    by_cases hmem : t ∈ g.byTenant
    · exact hg.allowed t hmem
    · have heq : v.tenantID = t := by simpa [hmem] using ht
      subst heq
      exact hallow hmem

theorem Groups.Of.group (hg : Groups.Of srv given g done)
    (h : srv.groupVectors given g vs = .ok g') :
    ∃ ps : List (Pb.Vector × UInt64), ps.map Prod.fst = vs ∧
      (∀ p ∈ ps, parseID p.1.id = .ok p.2) ∧ Groups.Of srv given g' (done ++ ps) := by
  induction vs generalizing g done with
  | nil =>
    cases h
    exact ⟨[], rfl, by simp, by simpa using hg⟩
  | cons v vs ih =>
    simp only [groupVectors] at h
    cases hadd : srv.addVector given g v with
    | error e =>
      rw [hadd] at h
      cases h
    | ok g₁ =>
      rw [hadd] at h
      obtain ⟨id, hid, hg₁⟩ := hg.add hadd
      obtain ⟨ps, rfl, hids, hg'⟩ := ih hg₁ h
      exact ⟨(v, id) :: ps, rfl, forall_mem_cons.mpr ⟨hid, hids⟩, by simpa using hg'⟩

section Authorization
variable {keys : List Key} {ks : Keys} {t : String} {P : StoreCall → Prop}

theorem allow_some (admin : Bool) (h : (new.requireKeys ks).allow given t admin = .ok ()) :
    ks.allow given t admin = .ok () := by
  simp only [allow, requireKeys] at h
  split at h
  · cases h
  · cases h
  · assumption

theorem covers_of_serverAllow (hks : Auth.new keys = .ok ks)
    (h : (new.requireKeys ks).allow given t false = .ok ()) : Covers keys given (tenantOf t) :=
  keys_of_new hks ▸ Keys.covers_of_allow (allow_some false h)

theorem isAdmin_of_serverAllow (hks : Auth.new keys = .ok ks)
    (h : (new.requireKeys ks).allow given t true = .ok ()) : IsAdmin keys given :=
  keys_of_new hks ▸ Keys.isAdmin_of_allow (allow_some true h)

theorem makes_call {β : Type} {c : StoreCall} {f : Answer D c → Handler D β} (hc : P c)
    (hf : ∀ r, (f r).Makes P) : (ask c >>= f).Makes P := makes_bind ((makes_ask c).mpr hc) hf

theorem makes_orStatus_pure {α β : Type} (r : Except Failure α) (f : α → β) :
    (orStatus r >>= fun a => (pure (f a) : Handler D β)).Makes P := by
  simp [orStatus]

theorem makes_checkMetric {want : DistanceMetric} (h : P (.indexOf t)) :
    (checkMetric t want : Handler D Unit).Makes P := by
  unfold checkMetric
  split_ifs
  · exact makes_pure ()
  · refine makes_call h fun r => ?_
    simp only [orStatus, makes_ofExcept_bind]
    intro spec _
    split_ifs
    · exact makes_fail _
    · exact makes_pure ()

theorem makes_admin {req : Request} (hks : Auth.new keys = .ok ks) (hreq : req.isAdmin = true) :
    ((new.requireKeys ks).serve given req : Handler D (Response D)).Makes fun _ => IsAdmin keys given := by
  cases req with
  | createTenant tenantID quota dim metric =>
    simp only [serve, createTenant, makes_ofExcept_bind]
    intro _ hallow
    have hadmin := isAdmin_of_serverAllow hks hallow
    split_ifs
    · exact makes_fail _
    · simp only [makes_ofExcept_bind]
      intro name _
      exact makes_call hadmin fun _ => makes_orStatus_pure _ _
  | deleteTenant | setQuota =>
    simp only [serve, deleteTenant, setQuota, makes_ofExcept_bind]
    intro _ hallow
    exact makes_call (isAdmin_of_serverAllow hks hallow) fun _ => makes_orStatus_pure _ _
  | listTenants =>
    simp only [serve, listTenants, makes_ofExcept_bind]
    intro _ hallow
    exact makes_call (isAdmin_of_serverAllow hks hallow) fun _ => makes_pure _
  | _ => cases hreq

def Covered (keys : List Key) (given : String) (c : StoreCall) : Prop :=
  ∀ T, c.Touches T → Covers keys given T

theorem Groups.Of.covers (hks : Auth.new keys = .ok ks)
    (hg : Groups.Of (new.requireKeys ks) given g done) :
    (∀ p ∈ done, Covers keys given (tenantOf p.1.tenantID)) ∧
      Covered keys given (.insertBatches g.batches) := by
  have hall : ∀ p ∈ done, Covers keys given (tenantOf p.1.tenantID) := by
    intro p hp
    have hmem := (hg.mem p.1.tenantID).mpr ⟨p, hp, rfl⟩
    exact covers_of_serverAllow hks (hg.allowed _ hmem)
  refine ⟨hall, ?_⟩
  rintro T ⟨b, hb, rfl⟩
  simp only [Groups.batches, hg.order, mem_map, mem_eraseDups] at hb
  obtain ⟨_, ⟨p, hp, rfl⟩, rfl⟩ := hb
  exact hall p hp

theorem makes_batchUpsert (hks : Auth.new keys = .ok ks) :
    ((new.requireKeys ks).batchUpsert given vs : Handler D (Response D)).Makes fun c =>
      Covered keys given c ∧ ∀ v ∈ vs, Covers keys given (tenantOf v.tenantID) := by
  simp only [batchUpsert, makes_ofExcept_bind]
  intro g hg
  obtain ⟨ps, rfl, -, hof⟩ := Groups.Of.empty.group hg
  obtain ⟨hall, hcovered⟩ := hof.covers hks
  refine makes_call ⟨hcovered, ?_⟩ fun _ => makes_orStatus_pure _ _
  intro v hv
  obtain ⟨p, hp, rfl⟩ := mem_map.mp hv
  exact hall p hp

theorem makes_data {req : Request} (hks : Auth.new keys = .ok ks) (hreq : req.isAdmin = false) :
    ((new.requireKeys ks).serve given req : Handler D (Response D)).Makes (Covered keys given) := by
  -- A handler of one tenant has checked it, and calls the store for that tenant alone.
  have hone : ∀ {t : String}, (new.requireKeys ks).allow given t false = .ok () →
      ∀ T, T = tenantOf t → Covers keys given T := by
    rintro t hallow T rfl
    exact covers_of_serverAllow hks hallow
  cases req with
  | insert vector =>
    simp only [serve, insert, makes_ofExcept_bind]
    intro _ hallow
    cases vector with
    | none => exact makes_fail _
    | some v =>
      simp only [makes_ofExcept_bind]
      intro id _
      exact makes_call (hone hallow) fun _ => makes_orStatus_pure _ _
  | batchUpsert vectors => exact (makes_batchUpsert hks).mono fun c hc => hc.1
  | delete | get | updateMetadata =>
    simp only [serve, delete, get, updateMetadata, makes_ofExcept_bind]
    intro _ hallow n _
    exact makes_call (hone hallow) fun _ => makes_orStatus_pure _ _
  | search tenantID query topK metric efSearch filters =>
    simp only [serve, search, makes_ofExcept_bind]
    intro _ hallow
    refine makes_bind (makes_checkMetric (hone hallow)) fun _ => ?_
    split_ifs
    · exact makes_fail _
    · exact makes_fail _
    · exact makes_call (hone hallow) fun _ => makes_orStatus_pure _ _
  | list tenantID pageToken pageSize =>
    simp only [serve, list, makes_ofExcept_bind]
    intro _ hallow
    split
    · exact makes_fail _
    · simp only [makes_ofExcept_bind]
      intro start _
      exact makes_call (hone hallow) fun _ => makes_orStatus_pure _ _
  | count tenantID =>
    simp only [serve, count, makes_ofExcept_bind]
    intro _ hallow
    exact makes_call (hone hallow) fun _ => makes_orStatus_pure _ _
  | _ => cases hreq

/-- With keys required, a request on data calls the store for allowed tenants only and a batch not
before all its tenants are; a request on the tenants themselves needs an admin key. -/
theorem every_rpc_is_authorized {keys : List Key} {ks : Keys} (hks : Auth.new keys = .ok ks)
    (given : String) (req : Request) {σ : Type} (store : (c : StoreCall) → σ → Answer D c × σ) (s : σ) :
    let calls := ((new.requireKeys ks).serve given req : Handler D (Response D)).calls store s
    (req.isAdmin = true → calls ≠ [] → IsAdmin keys given) ∧
      (req.isAdmin = false → ∀ c ∈ calls, ∀ T, c.Touches T → Covers keys given T) ∧
      ∀ vectors, req = .batchUpsert vectors → calls ≠ [] →
        ∀ v ∈ vectors, Covers keys given (tenantOf v.tenantID) := by
  refine ⟨?_, ?_, ?_⟩
  · intro hreq hne
    obtain ⟨c, hc⟩ := exists_mem_of_ne_nil _ hne
    exact (makes_admin hks hreq).calls store s c hc
  · intro hreq c hc
    exact (makes_data hks hreq).calls store s c hc
  · rintro vectors rfl hne
    obtain ⟨c, hc⟩ := exists_mem_of_ne_nil _ hne
    exact ((makes_batchUpsert hks).calls store s c hc).2

def someKeys : List Key := [⟨"0123456789abcdef", ["default"], false⟩]

def unavailable : (c : StoreCall) → Unit → Answer ℕ c × Unit
  | .createTenantWithIndex .., _ | .insert .., _ | .insertBatches .., _ | .delete .., _
  | .updateMetadata .., _ | .deleteTenant .., _ | .setQuota .., _ | .indexOf .., _ | .search .., _
  | .get .., _ | .list .., _ | .stats .., _ => (.error (.sentinel .other ""), ())
  | .allStats, _ => ((∅ : ExtTreeMap String TenantStats compare), ())

theorem allowed_get_reaches_the_store : ∃ ks, Auth.new someKeys = .ok ks ∧
      ((new.requireKeys ks).serve "0123456789abcdef" (.get "" "7")).calls unavailable () = [.get "" 7] ∧
      Covers someKeys "0123456789abcdef" "default" := by
  have hks : ∃ ks, Auth.new someKeys = .ok ks := ⟨_, rfl⟩
  obtain ⟨ks, hks⟩ := hks
  have hcalls : ((new.requireKeys ks).serve "0123456789abcdef" (.get "" "7")).calls unavailable () =
      [.get "" 7] := by
    cases hks
    rfl
  refine ⟨ks, hks, hcalls, ?_⟩
  have h := every_rpc_is_authorized hks "0123456789abcdef" (.get "" "7") unavailable ()
  exact h.2.1 rfl (.get "" 7) (by rw [hcalls]; exact mem_singleton_self _) "default" rfl

end Authorization

end Server

end NuclaDB.Api
