import NuclaDB.StoreCalls
import NuclaDB.StoreRestart

/-!
# Tenants beside each other

What the calls on one tenant return depends on that tenant's entry, engine and directory
alone, as long as no two tenants' directories meet.
-/

namespace NuclaDB.StoreCalls

open LittleEndian Hnsw Auth StoreRoot Api Unwinding FileTree Function List Option

section Entries
variable {n : String}

end Entries

section Base
variable {b b' b₁ : StoreRoot.Store} {T id : String} {es es' : Entries}

def entry (root : Tree) (n : String) : Option Tree :=
  match root with
  | .dir es => es.dlookup n
  | .file _ => none

structure Tidy (b : StoreRoot.Store) (es : Entries) : Prop where
  root : b.root = .dir es
  nodup : es.NodupKeys
  entries (n : String) : b.tenants.lookup n = none → es.dlookup n = none
  paths (n : String) : b.tenants.lookup n ≠ none → tenantPath n = [n]

structure BaseView where
  closed : Bool
  cfg : StoreRoot.Config
  tenant : Option Tenant
  dir : Option Tree

def baseView (T : String) (b : StoreRoot.Store) : BaseView :=
  ⟨b.closed, b.cfg, b.tenants.lookup T, entry b.root T⟩

def put (b : StoreRoot.Store) (es : Entries) (id : String) (t : Tenant) (u : Tree) : StoreRoot.Store :=
  { b with root := .dir (es.kinsert id u), tenants := b.tenants.insert id t }

theorem Tidy.put (h : Tidy b es) (hid : tenantPath id = [id]) (t : Tenant) (u : Tree) :
    Tidy (put b es id t u) (es.kinsert id u) where
  root := rfl
  nodup := kinsert_nodupKeys id u h.nodup
  entries n hn := by
    by_cases heq : n = id
    · subst heq
      simp [StoreCalls.put] at hn
    · rw [dlookup_kinsert_ne heq]
      exact h.entries n (by simpa [StoreCalls.put, AList.lookup_insert_ne heq] using hn)
  paths n hn := by
    by_cases heq : n = id
    · exact heq ▸ hid
    · exact h.paths n (by simpa [StoreCalls.put, AList.lookup_insert_ne heq] using hn)

def Alike (id : String) (b b' : StoreRoot.Store) (es es' : Entries)
    (x x' : Except StoreError StoreRoot.Store) : Prop :=
  (∃ e, x = .error e ∧ x' = .error e) ∨
    ∃ t u, tenantPath id = [id] ∧ x = .ok (put b es id t u) ∧ x' = .ok (put b' es' id t u)

theorem Alike.error (e : StoreError) : Alike id b b' es es' (.error e) (.error e) :=
  Or.inl ⟨e, rfl, rfl⟩

variable (J : FileCodec)

def without (b : StoreRoot.Store) (es : Entries) (id tomb : String) : StoreRoot.Store :=
  { b with root := .dir ((es.kerase id).kerase tomb), tenants := b.tenants.erase id }

section Delete
variable {tomb : String}

theorem dlookup_without (h : es.NodupKeys) (hfree : es.dlookup tomb = none) (n : String) :
    ((es.kerase id).kerase tomb).dlookup n = if n = id then none else es.dlookup n := by
  by_cases htomb : n = tomb
  · rw [htomb, dlookup_kerase _ (h.kerase id)]
    split_ifs
    · rfl
    · exact hfree.symm
  · rw [dlookup_kerase_ne htomb]
    split_ifs with hid
    · rw [hid, dlookup_kerase _ h]
    · rw [dlookup_kerase_ne hid]

section
variable (h : Tidy b es) (hfree : b.tenants.lookup tomb = none)
include h hfree

theorem Tidy.without : Tidy (without b es id tomb) ((es.kerase id).kerase tomb) where
  root := rfl
  nodup := (h.nodup.kerase id).kerase tomb
  entries n hn := by
    rw [dlookup_without h.nodup (h.entries tomb hfree)]
    split_ifs with hid
    · rfl
    · exact h.entries n (by simpa [StoreCalls.without, AList.lookup_erase_ne hid] using hn)
  paths n hn := by
    by_cases hid : n = id
    · simp [StoreCalls.without, ← hid] at hn
    · exact h.paths n (by simpa [StoreCalls.without, AList.lookup_erase_ne hid] using hn)

end

end Delete

end Base

section Views
variable {D F : Type} {T id : String} {s s' : Store D}

structure View (D : Type) where
  base : BaseView
  engine : Option (Engine D)
  disk : NuclaDB.Disk

def view (T : String) (s : Store D) : View D := ⟨baseView T s.base, s.engines T, s.disks T⟩

/-- The program works on one tenant's part: it sees no more of the store, and changes no more. -/
structure Within {α : Type} (id : String) (m : Run D α) : Prop where
  sees : Sees (view id) m
  keeps (T : String) : T ≠ id → Keeps (view T) m
  base : Keeps Store.base m

namespace Within
variable {α β : Type}

theorem pure (a : α) : Within id (pure a : Run D α) := ⟨.pure a, fun _ _ => .pure a, .pure a⟩

theorem throw (e : CallError) : Within id (throw e : Run D α) := ⟨.throw e, fun _ _ => .throw e, .throw e⟩

theorem bind {m : Run D α} {f : α → Run D β} (hm : Within id m) (hf : ∀ a, Within id (f a)) :
    Within id (m >>= f) :=
  ⟨hm.sees.bind fun a => (hf a).sees, fun T hT => (hm.keeps T hT).bind fun a => (hf a).keeps T hT,
    hm.base.bind fun a => (hf a).base⟩

theorem look (id : String) : Within id (look id : Run D (Place D)) := by
  refine ⟨?_, fun _ _ _ => rfl, fun _ => rfl⟩
  intro s s' h
  refine ⟨?_, h⟩
  simp only [view, View.mk.injEq, baseView, BaseView.mk.injEq] at h
  obtain ⟨⟨hclosed, -, htenant, -⟩, hengine, hdisk⟩ := h
  change Except.ok (Place.mk _ _ _ _) = Except.ok (Place.mk _ _ _ _)
  rw [hclosed, htenant, hengine, hdisk]

theorem keep (id : String) (e : Engine D) (disk : NuclaDB.Disk) : Within id (keep id e disk) := by
  have hexec (s : Store D) : exec (StoreCalls.keep id e disk) s = (.ok (), { s with
      engines := update s.engines id (some e)
      disks := update s.disks id disk }) := rfl
  refine ⟨?_, ?_, fun _ => rfl⟩
  · intro s s' h
    simp only [view, View.mk.injEq] at h
    simp only [hexec, view, h.1, update_self, and_self]
  · intro T hT s
    simp only [hexec, view, update_of_ne hT]

variable [Hnsw.Dist D] {P : Setup D F} {env : Env}

theorem acquire (P : Setup D F) (env : Env) (id : String) : Within (tenantOf id) (acquire P env id) := by
  refine (look _).bind fun p => ?_
  split_ifs
  · exact throw _
  split
  · exact throw _
  · exact pure _
  · split
    · exact throw _
    · exact (keep _ _ _).bind fun _ => pure _

theorem commit (P : Setup D F) (id : String) (io : Wal.Outcome) (req : NuclaDB.Request) :
    Within (tenantOf id) (commit P id io req) := by
  refine (look _).bind fun p => ?_
  split
  · exact pure _
  split
  · exact throw _
  · exact pure _
  · refine (keep _ _ _).bind fun _ => ?_
    split
    · exact throw _
    · exact pure _

end Within

end Views

section Isolation
variable {D F : Type} [Hnsw.Dist D] (P : Setup D F)

def target : StoreCall → Option String
  | .createTenantWithIndex id _ _ | .insert id _ _ _ | .delete id _ | .indexOf id | .search id _ _ _ _
  | .get id _ | .list id _ _ | .stats id | .updateMetadata id _ _ | .deleteTenant id
  | .setQuota id _ => some (tenantOf id)
  | .insertBatches (b :: bs) =>
    if ∀ b' ∈ bs, tenantOf b'.tenantID = tenantOf b.tenantID then some (tenantOf b.tenantID) else none
  | .insertBatches [] | .allStats => none

structure Event where
  call : StoreCall
  env : Env

/-- What an event tells a tenant it is for: not the time. -/
structure Label where
  call : StoreCall
  rng : ℕ → ℕ
  io : ℕ → Wal.Outcome
  allowed : ℕ → Bool

def label (T : String) (e : Event) : Option Label :=
  if target e.call = some T then some ⟨e.call, e.env.rng T, e.env.io, e.env.allowed⟩ else none

def step (s : Store D) (e : Event) : (Σ c, Answer D c) × Store D :=
  (⟨e.call, (answer P e.env e.call s).1⟩, (answer P e.env e.call s).2)

/-- The call is on one tenant, which is not created as the root itself, and whose directory is not
moved over another tenant's. -/
def Clear (s : Store D) (e : Event) : Prop :=
  (target e.call).isSome = true ∧ match e.call with
    | .createTenantWithIndex id _ _ => id ≠ "/"
    | .deleteTenant id => s.base.tenants.lookup (deletedName e.env.nanos id) = none
    | _ => True

variable {P} {s s' : Store D} {env env' : Env} {c : StoreCall} {T id : String}

omit [Hnsw.Dist D] in
theorem reply_sees {α : Type} {m m' : Run D α} (h : (exec m s).1 = (exec m' s').1 ∧
    view id (exec m s).2 = view id (exec m' s').2) :
    (reply P m s).1 = (reply P m' s').1 ∧ view id (reply P m s).2 = view id (reply P m' s').2 :=
  ⟨congrArg (Except.mapError _) h.1, h.2⟩

omit [Hnsw.Dist D] in
theorem Within.reply {α : Type} {m : Run D α} (h : Within id m) (hs : view id s = view id s') :
    (reply P m s).1 = (reply P m s').1 ∧ view id (reply P m s).2 = view id (reply P m s').2 :=
  reply_sees (h.sees s s' hs)

section Env
variable (hrng : env.rng T = env'.rng T)
include hrng

end Env

section OnBase
variable {f : StoreRoot.Store → Except StoreError StoreRoot.Store} {es es' : Entries}

section
omit [Hnsw.Dist D]

end

end OnBase

section DeleteTenant
variable {es es' : Entries}

section
variable (h : Tidy s.base es)
include h

section
variable (hfree : s.base.tenants.lookup (deletedName env.nanos id) = none)
include hfree

end

section
omit [Hnsw.Dist D]

end

end

end DeleteTenant

end Isolation

section Examples

noncomputable def lineSetup : Setup Exact ℤ where
  crc := crc32ChecksumIEEE
  json := anyCodec
  files := anyFileCodec
  numbers := wholeNumbers
  graphCfg _ := line
  workers := one
  exactFilterLimit := 1000
  errorText _ := ""

def someEnv : Env := ⟨fun _ _ => 0, fun _ => .ok, fun _ => true, 7⟩

def create (id : String) : Event := ⟨.createTenantWithIndex id unlimited ⟨0, ""⟩, someEnv⟩

end Examples

end NuclaDB.StoreCalls
