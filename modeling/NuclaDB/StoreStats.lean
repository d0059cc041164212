import NuclaDB.EngineReplica
import NuclaDB.StoreContents
import NuclaDB.StoreIsolation

/-!
# The counts of `AllStats`

Of a tenant whose engine is not open `AllStats` reports what `CloseIdle` remembered when it
closed it, and 0 if nothing did. `Stats` opens the engine and counts.
-/

namespace NuclaDB.StoreStats

open Auth StoreRoot StoreCalls EventRun Hnsw LittleEndian Option Unwinding Except

structure Tenant (D : Type) where
  cfg : Hnsw.Config D
  engine : Option (Engine D)
  disk : Disk
  idleLen : ℕ

abbrev Store (D : Type) := String → Option (Tenant D)

/-- How `DeleteTenant` ends: with the engine not discarded, with the engine discarded and the entry left
as the directory could not be moved or synced (in the last case it may have been lost), or with the
tenant gone. -/
inductive Deleted
  | refused
  | left
  | lost
  | gone

/-- `rng` are the level draws of the graphs that are opened or compacted. -/
inductive Event (D : Type)
  | acquire (tenantID : String) (rng : ℕ → ℕ)
  | commit (tenantID : String) (io : Wal.Outcome) (req : Request)
  | createTenant (tenantID : String) (cfg : Hnsw.Config D)
  | deleteTenant (tenantID : String) (outcome : Deleted)
  | snapshot (rng : String → ℕ → ℕ)
  | closeIdle (idle : String → Bool) (rng : String → ℕ → ℕ)
  | restart (rng : String → ℕ → ℕ)

section Model
variable {D F : Type}

def newTenant (cfg : Hnsw.Config D) : Tenant D := ⟨cfg, none, Disk.empty, 0⟩

def only (t : Tenant D) : Store D := fun id => if id = defaultTenant then some t else none

def fresh (cfg : Hnsw.Config D) : Store D := only (newTenant cfg)

namespace Tenant

def len (t : Tenant D) : ℕ := t.engine.elim t.idleLen fun e => e.graph.live

def delete (t : Tenant D) : Deleted → Option (Tenant D)
  | .refused => some t
  | .left => some { t with engine := none }
  | .lost => some { t with engine := none, disk := Disk.empty }
  | .gone => none

variable [Hnsw.Dist D] (P : Setup D F) (rng : ℕ → ℕ)

def acquire (t : Tenant D) : Tenant D :=
  match t.engine with
  | some _ => t
  | none =>
    match openEngine P.crc P.json t.cfg P.workers rng t.disk with
    | .error _ => t
    | .ok (e, disk) => { t with engine := some e, disk := disk }

def commit (io : Wal.Outcome) (req : Request) (t : Tenant D) : Tenant D :=
  match t.engine with
  | none => t
  | some e =>
    match e.accept req with
    | .error _ | .ok [] => t
    | .ok cs =>
      let s := (⟨t.disk, e, .idle⟩ : Sys D).commit P.crc P.json P.workers cs io
      { t with engine := some s.engine, disk := s.disk }

/-- What `snapshotLocked` has done by the time it opens the new log. -/
def closing (s : Sys D) : Sys D := (s.capture P.json P.workers rng).replaceMetadata.replaceSnapshot.copyTail

def snapshot (t : Tenant D) : Tenant D :=
  match t.engine with
  | none => t
  | some e =>
    let s := (closing P rng ⟨t.disk, e, .idle⟩).rename P.crc
    { t with engine := some s.engine, disk := s.disk }

def closes (t : Tenant D) : Bool :=
  match t.engine with
  | none => false
  | some e => (closing P rng ⟨t.disk, e, .idle⟩).rotates P.crc .rename

def closeIdle (t : Tenant D) : Tenant D :=
  if t.closes P rng then ⟨t.cfg, none, (t.snapshot P rng).disk, t.len⟩
  else t.snapshot P rng

/-- `Close` drops the engine also if its snapshot fails, and `OpenStore` makes a new entry. -/
def restart (t : Tenant D) : Tenant D := ⟨t.cfg, none, (t.snapshot P rng).disk, 0⟩

end Tenant

variable [Hnsw.Dist D] (P : Setup D F) (s : Store D) (id : String)

def Event.act (o : Option (Tenant D)) : Event D → Option (Tenant D)
  | .acquire tid rng => if id = tenantOf tid then o.map (Tenant.acquire P rng) else o
  | .commit tid io req => if id = tenantOf tid then o.map (Tenant.commit P io req) else o
  | .createTenant tid cfg => if id = tid then o.or (some (newTenant cfg)) else o
  | .deleteTenant tid outcome =>
    if id = tid ∧ ¬(tid = "" ∨ tid = defaultTenant) then o.bind fun t => t.delete outcome else o
  | .snapshot rng => o.map (Tenant.snapshot P (rng id))
  | .closeIdle idle rng => if idle id then o.map (Tenant.closeIdle P (rng id)) else o
  | .restart rng => o.map (Tenant.restart P (rng id))

def step (ev : Event D) : Except Empty (Store D) := .ok fun id => ev.act P id (s id)

def stats (rng : ℕ → ℕ) (s : Store D) (id : String) : Option ℕ :=
  (s id).bind fun t => (t.acquire P rng).engine.map fun e => e.graph.live

def allStats : Option ℕ := (s id).map Tenant.len

def Event.Remembers (t : Tenant D) : Event D → Prop
  | .deleteTenant tid .left => id = tid ∧ ¬(tid = "" ∨ tid = defaultTenant) →
      ∀ e, t.engine = some e → e.graph.live = t.idleLen
  | .deleteTenant tid .lost => id = tid ∧ ¬(tid = "" ∨ tid = defaultTenant) → t.idleLen = 0
  | .restart _ => t.len = 0
  | _ => True

def Remembers (ev : Event D) : Prop := ∀ id t, s id = some t → ev.Remembers id t

/-- The snapshot of the engine, if it is open, loads back. -/
def Tenant.LoadsBack (rng : ℕ → ℕ) (t : Tenant D) : Prop :=
  ∀ e, t.engine = some e → (⟨t.disk, e, .idle⟩ : Sys D).Allowed P.crc P.json t.cfg (.capture P.workers rng)

/-- Writes to logs succeed and what is written can be read, captured graphs load back, and `OpenStore`
finds the tenants. -/
def Event.Admits (t : Tenant D) : Event D → Prop
  | .commit tid io req => id = tenantOf tid → io = .ok ∧ ∀ e cs, t.engine = some e → e.accept req = .ok cs →
      (⟨t.disk, e, .idle⟩ : Sys D).Loggable P.json t.cfg cs ∧ ∀ c ∈ cs, c.Stable t.cfg
  | .snapshot rng => t.LoadsBack P (rng id)
  | .closeIdle idle rng => idle id → t.LoadsBack P (rng id)
  | .restart rng => t.LoadsBack P (rng id) ∧ 0 < t.cfg.dim ∧ ¬isReserved id
  | _ => True

def Admits (ev : Event D) : Prop := ∀ id t, s id = some t → ev.Admits P id t

end Model

section Engines
variable {D F : Type} [Hnsw.Dist D] (P : Setup D F)

/-- The engine holds what its files do. -/
def Lives (cfg : Hnsw.Config D) (disk : Disk) (e : Engine D) : Prop :=
  ∃ L w0 sn mt, Durable P.json cfg P.crc ⟨disk, e, .idle⟩ L w0 sn mt

def Reopens (cfg : Hnsw.Config D) (disk : Disk) (n : ℕ) : Prop :=
  ∀ rng, ∃ e disk', openEngine P.crc P.json cfg P.workers rng disk = .ok (e, disk') ∧ Lives P cfg disk' e ∧
    e.graph.live = n

/-- The tenant has `n` vectors, in the open engine and in its files. -/
def Tenant.Stores (t : Tenant D) (n : ℕ) : Prop :=
  match t.engine with
  | some e => Lives P t.cfg t.disk e ∧ e.graph.live = n
  | none => Reopens P t.cfg t.disk n

/-- What `AllStats` reports of the tenant is what it has. -/
def Tenant.Known (t : Tenant D) : Prop := t.Stores P t.len

variable {P} {cfg : Hnsw.Config D} {disk : Disk} {e : Engine D} {t : Tenant D} {n : ℕ} {rng : ℕ → ℕ}

omit [Hnsw.Dist D] in
theorem live_eq_of_contents {e e' : Engine D} (h : e.Sound) (h' : e'.Sound)
    (hsame : e.contents = e'.contents) : e.graph.live = e'.graph.live := by
  have hget : e.graph.get = e'.graph.get := by rw [← Engine.vecs_contents, ← Engine.vecs_contents, hsame]
  rw [← h.wf.card_liveIds, ← h'.wf.card_liveIds]
  congr 1
  ext id
  rw [h.wf.shape.slotted.mem_liveIds, h'.wf.shape.slotted.mem_liveIds, hget]

theorem live_eq_of_durable {s s' : Sys D} {L : List Change} {w0 sn mt w0' sn' mt' : ℕ}
    (h : Durable P.json cfg P.crc s L w0 sn mt) (h' : Durable P.json cfg P.crc s' L w0' sn' mt') :
    s.engine.graph.live = s'.engine.graph.live :=
  live_eq_of_contents h.log.kept.sound h'.log.kept.sound (h.contents.trans h'.contents.symm)

theorem Lives.reopens (h : Lives P cfg disk e) : Reopens P cfg disk e.graph.live := by
  obtain ⟨L, w0, sn, mt, h⟩ := h
  intro rng
  obtain ⟨e', disk', hopen, h'⟩ := h.reopen P.workers rng
  exact ⟨e', disk', hopen, ⟨L, w0, sn, mt, h'⟩, live_eq_of_durable h' h⟩

theorem reopens_empty (cfg : Hnsw.Config D) : Reopens P cfg Disk.empty 0 := by
  intro rng
  obtain ⟨e, hopen, hsound, hcontents, -⟩ := openEngine_empty P.crc P.json cfg P.workers rng
  refine ⟨e, _, hopen, ⟨_, _, _, _, durable_empty hopen⟩, ?_⟩
  have hget : e.graph.get = fun _ => none := by
    rw [← Engine.vecs_contents, hcontents]
    rfl
  rw [← hsound.wf.card_liveIds, Finset.card_eq_zero, Finset.eq_empty_iff_forall_notMem]
  intro id
  rw [hsound.wf.shape.slotted.mem_liveIds, hget]
  simp

variable (P) in
theorem stage_of_snapshot (rng : ℕ → ℕ) (disk : Disk) (e : Engine D) :
    ((Tenant.closing P rng ⟨disk, e, .idle⟩).rename P.crc).stage = .idle := by
  simp only [Tenant.closing, Sys.capture]
  cases e.compactLocked P.workers rng with
  | error err => rfl
  | ok e' =>
    dsimp only
    split
    · rfl
    · simp only [Sys.replaceMetadata, Sys.replaceSnapshot, Sys.copyTail, Sys.rename]
      split <;> rfl

theorem Lives.snapshot (h : Lives P cfg disk e)
    (hloads : (⟨disk, e, .idle⟩ : Sys D).Allowed P.crc P.json cfg (.capture P.workers rng)) :
    let s := (Tenant.closing P rng ⟨disk, e, .idle⟩).rename P.crc
    Lives P cfg s.disk s.engine ∧ s.engine.graph.live = e.graph.live := by
  obtain ⟨L, w0, sn, mt, h⟩ := h
  obtain ⟨mt₁, h₁⟩ := (h.capture hloads).replaceMetadata
  obtain ⟨sn₁, h₂⟩ := h₁.replaceSnapshot
  obtain ⟨w₁, h₃⟩ := h₂.copyTail.rename
  have hidle := stage_of_snapshot P rng disk e
  change Durable P.json cfg P.crc ((Tenant.closing P rng ⟨disk, e, .idle⟩).rename P.crc) L w₁ sn₁ mt₁ at h₃
  generalize (Tenant.closing P rng ⟨disk, e, .idle⟩).rename P.crc = s at h₃ hidle
  obtain ⟨disk', e', stage⟩ := s
  obtain rfl : stage = .idle := hidle
  exact ⟨⟨L, w₁, sn₁, mt₁, h₃⟩, live_eq_of_durable h₃ h⟩

namespace Tenant

theorem Stores.reopens (h : t.Stores P n) : Reopens P t.cfg t.disk n := by
  obtain ⟨cfg, _ | e, disk, k⟩ := t
  · exact h
  · exact h.2 ▸ h.1.reopens

theorem known_of_lives (h : Lives P cfg disk e) (k : ℕ) :
    (⟨cfg, some e, disk, k⟩ : Tenant D).Known P := ⟨h, rfl⟩

theorem known_newTenant (cfg : Hnsw.Config D) : (newTenant cfg).Known P := reopens_empty cfg

section Known
variable (h : t.Known P)
include h

theorem Known.acquire (rng : ℕ → ℕ) : (t.acquire P rng).Known P := by
  obtain ⟨cfg, _ | e, disk, k⟩ := t
  · obtain ⟨e, disk', hopen, hlives, -⟩ := h rng
    simp only [Tenant.acquire, hopen]
    exact known_of_lives hlives k
  · exact h

theorem Known.commit {id tid : String} {io : Wal.Outcome} {req : Request} (hid : id = tenantOf tid)
    (hev : (Event.commit tid io req).Admits P id t) : (t.commit P io req).Known P := by
  obtain ⟨rfl, hlog⟩ := hev hid
  obtain ⟨cfg, _ | e, disk, k⟩ := t
  · exact h
  · cases haccept : e.accept req with
    | error err => simpa only [Tenant.commit, haccept] using h
    | ok cs =>
      cases cs with
      | nil => simpa only [Tenant.commit, haccept] using h
      | cons c cs =>
        obtain ⟨⟨L, w0, sn, mt, hd⟩, -⟩ := h
        obtain ⟨hloggable, hstable⟩ := hlog e _ rfl haccept
        simp only [Tenant.commit, haccept]
        exact known_of_lives ⟨_, _, _, _, hd.commit rfl (by simp) hloggable hstable P.workers⟩ k

section Snapshot
variable (hloads : t.LoadsBack P rng)
include hloads

theorem Known.snapshot : (t.snapshot P rng).Known P ∧
    (t.snapshot P rng).len = t.len ∧ (t.snapshot P rng).cfg = t.cfg := by
  obtain ⟨cfg, _ | e, disk, k⟩ := t
  · exact ⟨h, rfl, rfl⟩
  · obtain ⟨hlives, hlive⟩ := h.1.snapshot (hloads e rfl)
    exact ⟨known_of_lives hlives k, hlive, rfl⟩

theorem Known.reopens_snapshot : Reopens P t.cfg (t.snapshot P rng).disk t.len := by
  obtain ⟨hknown, hlen, hcfg⟩ := h.snapshot hloads
  rw [← hlen, ← hcfg]
  exact hknown.reopens

theorem Known.closeIdle : (t.closeIdle P rng).Known P := by
  unfold Tenant.closeIdle
  split
  · exact h.reopens_snapshot hloads
  · exact (h.snapshot hloads).1

end Snapshot

end Known

end Tenant

end Engines

section Runs
variable {D F : Type} [Hnsw.Dist D] {P : Setup D F} {s : Store D} {ev : Event D} {id : String} {t t' : Tenant D}

theorem known_of_ite {p : Prop} [Decidable p] {f : Tenant D → Tenant D} (h : t.Known P) (hf : p → (f t).Known P)
    (hact : (if p then (some t).map f else some t) = some t') : t'.Known P := by
  split at hact
  · next hp => exact some.inj hact ▸ hf hp
  · exact some.inj hact ▸ h

/-- What is left of a tenant has a count, which `AllStats` reports exactly if the event finds it. -/
theorem act_stores (h : t.Known P) (hev : ev.Admits P id t) (hact : ev.act P id (some t) = some t') :
    ∃ n, t'.Stores P n ∧ (t'.len = n ↔ ev.Remembers id t) := by
  have hkeeps : t'.Known P → ev.Remembers id t → ∃ n, t'.Stores P n ∧
      (t'.len = n ↔ ev.Remembers id t) := fun hknown hrem => ⟨_, hknown, iff_of_true rfl hrem⟩
  cases ev with
  | acquire tid rng => exact hkeeps (known_of_ite h (fun _ => h.acquire rng) hact) trivial
  | commit tid io req => exact hkeeps (known_of_ite h (fun hid => h.commit hid hev) hact) trivial
  | createTenant tid cfg =>
    refine hkeeps ?_ trivial
    simp only [Event.act, some_or, ite_self] at hact
    exact some.inj hact ▸ h
  | deleteTenant tid outcome =>
    simp only [Event.act] at hact
    split at hact
    · next hid =>
      cases outcome with
      | refused => exact hkeeps (some.inj hact ▸ h) trivial
      | left =>
        obtain rfl := some.inj hact
        refine ⟨t.len, h.reopens, ?_⟩
        obtain ⟨cfg, _ | e, disk, k⟩ := t
        · exact iff_of_true rfl fun _ e he => by cases he
        · exact ⟨fun hlen _ e' he' => some.inj he' ▸ hlen.symm, fun hrem => (hrem hid e rfl).symm⟩
      | lost =>
        obtain rfl := some.inj hact
        exact ⟨0, reopens_empty t.cfg, fun hlen _ => hlen, fun hrem => hrem hid⟩
      | gone => cases hact
    · next hid =>
      refine hkeeps (some.inj hact ▸ h) ?_
      cases outcome with
      | left | lost => exact fun hyes => absurd hyes hid
      | refused | gone => trivial
  | snapshot rng => exact hkeeps (some.inj hact ▸ (h.snapshot hev).1) trivial
  | closeIdle idle rng => exact hkeeps (known_of_ite h (fun hidle => h.closeIdle (hev hidle)) hact) trivial
  | restart rng =>
    obtain rfl := some.inj hact
    exact ⟨t.len, h.reopens_snapshot hev.1, eq_comm⟩

theorem act_none (hact : ev.act P id none = some t') : t'.Known P := by
  cases ev with
  | createTenant tid cfg =>
    simp only [Event.act, none_or, ite_none_right_eq_some] at hact
    exact some.inj hact.2 ▸ Tenant.known_newTenant cfg
  | _ => simp [Event.act] at hact

variable (P)

def Known (s : Store D) : Prop := ∀ id t, s id = some t → t.Known P

variable {P}

theorem Known.step (h : Known P s) (hev : Admits P s ev) (hrem : Remembers s ev) :
    Known P fun id => ev.act P id (s id) := by
  intro id t' hact
  dsimp only at hact
  cases ht : s id with
  | none =>
    rw [ht] at hact
    exact act_none hact
  | some t =>
    rw [ht] at hact
    obtain ⟨n, hn, hlen⟩ := act_stores (h id t ht) (hev id t ht) hact
    rw [Tenant.Known, hlen.mpr (hrem id t ht)]
    exact hn

end Runs

section Calls
variable {D F : Type} [Hnsw.Dist D] {P : Setup D F} {env : Env}

/-- The tenants of a store whose idle engines were closed with the counts `idleLen`. -/
def view (P : Setup D F) (idleLen : String → ℕ) (s : StoreCalls.Store D) : Store D := fun id =>
  (s.base.tenants.lookup id).map fun t => ⟨P.graphCfg t.cfg, s.engines id, s.disks id, idleLen id⟩

variable (idleLen : String → ℕ) {s : StoreCalls.Store D}

theorem run_withEngine (ev : Event D) (T : String) {e : Engine D} {disk : Disk}
    (hother : ∀ id o, id ≠ T → ev.act P id o = o)
    (hact : ev.act P T (view P idleLen s T) = view P idleLen (withEngine s T e disk) T) :
    run (step P) (view P idleLen s) [ev] = .ok (view P idleLen (withEngine s T e disk)) := by
  refine run_cons (congrArg ok (funext fun id => ?_)) []
  by_cases hid : id = T
  · exact hid ▸ hact
  · rw [hother id _ hid]
    simp [view, withEngine, Function.update_of_ne hid]

theorem exec_is_run {names : String → Prop} {α : Type} {m : Run D α} (hm : OnData P env names m)
    (s : StoreCalls.Store D) :
    ∃ evs, run (step P) (view P idleLen s) evs = .ok (view P idleLen (exec m s).2) := by
  induction hm generalizing s with
  | pure a | throw err | look id _ => exact ⟨[], rfl⟩
  | acquire id _ =>
    rcases acquire_cases P env s id with ⟨err, hexec⟩ | ⟨t, ht, ⟨e, he, hexec⟩ | ⟨hnone, e, disk, hopen, hexec⟩⟩ <;>
      rw [hexec]
    · exact ⟨[], rfl⟩
    · exact ⟨[], rfl⟩
    · refine ⟨_, run_withEngine idleLen (.acquire id (env.rng (tenantOf id))) _ (fun _ _ hid => if_neg hid) ?_⟩
      simp [view, withEngine, ht, hnone, Event.act, Tenant.acquire, hopen]
  | commit id io req _ =>
    rcases commit_cases P s id io req with ⟨r, hexec, -⟩ | ⟨e, cs, he, haccept, hne, hexec⟩ <;> rw [hexec]
    · exact ⟨[], rfl⟩
    · obtain ⟨c, cs, rfl⟩ := List.exists_cons_of_ne_nil hne
      refine ⟨_, run_withEngine idleLen (.commit id io req) _ (fun _ _ hid => if_neg hid) ?_⟩
      cases ht : s.base.tenants.lookup (tenantOf id) with
      | none => simp [view, withEngine, ht, Event.act]
      | some t => simp [view, withEngine, ht, he, Event.act, Tenant.commit, haccept, Sys.commit, Sys.locked, Sys.wal]
  | @bind α β m f _ _ ihm ihf =>
    obtain ⟨evs, hrun⟩ := ihm s
    rw [exec_bind]
    rcases hexec : exec m s with ⟨err | a, s₁⟩
    · rw [hexec] at hrun
      exact ⟨evs, hrun⟩
    · rw [hexec] at hrun
      obtain ⟨evs', hrun'⟩ := ihf a s₁
      refine ⟨evs ++ evs', ?_⟩
      rw [EventRun.run, List.foldlM_append]
      exact (congrArg (· >>= _) hrun).trans hrun'

/-- A call on data leaves the tenants as a run of events does. -/
theorem answer_is_run {c : Api.StoreCall} (hdata : isData c = true) (s : StoreCalls.Store D) :
    ∃ evs, run (step P) (view P idleLen s) evs = .ok (view P idleLen (answer P env c s).2) := by
  obtain ⟨α, m, g, hm, hanswer⟩ := answer_data P env (fun _ => True) hdata fun _ _ => trivial
  rw [hanswer]
  exact exec_is_run idleLen hm s

end Calls

section Examples

open Install

section Only
variable {D F : Type} [Hnsw.Dist D] (P : Setup D F) (t : Tenant D) {t' : Tenant D} {ev : Event D}

variable {P t}

end Only

noncomputable def opened : Tenant Exact := ⟨line, some freshEngine, ⟨none, none, some [], none⟩, 0⟩

end Examples

end NuclaDB.StoreStats
