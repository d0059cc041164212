import NuclaDB.BatchOrder

/-!
# Refused batches

`InsertBatches` checks all batches, asks the rate limiters, reserves room in the quotas, and
only then writes. Deferred calls release what it has reserved.
-/

namespace NuclaDB.StoreCalls

open LittleEndian Hnsw Auth StoreRoot Api Unwinding Function Except

structure Counted (D : Type) where
  store : Store D
  reserved : String → ℤ

structure Calling (D : Type) extends Counted D where
  deferred : List (String × ℤ)

abbrev Deferring (D α : Type) := ExceptT CallError (StateM (Calling D)) α

def releaseAll : List (String × ℤ) → (String → ℤ) → String → ℤ
  | [], reserved => reserved
  | (id, n) :: rest, reserved => releaseAll rest (update reserved id (reserved id + -n))

section Model
variable {D F : Type}

def onStore {α : Type} (m : Run D α) : Deferring D α := do
  let s ← MonadState.get
  let out := exec m s.store
  set { s with store := out.2 }
  match out.1 with
  | .error err => throw err
  | .ok a => pure a

def addReserved (id : String) (n : ℤ) : Deferring D ℤ := do
  let s ← MonadState.get
  set { s with reserved := update s.reserved id (s.reserved id + n) }
  pure (s.reserved id + n)

def deferRelease (id : String) (n : ℤ) : Deferring D Unit := do
  let s ← MonadState.get
  set { s with deferred := (id, n) :: s.deferred }

def reserveRoom (t : Tenant) (e : Engine D) (id : String) (ids : List UInt64) : Deferring D Unit :=
  if t.quota.maxVectors ≤ 0 then pure ()
  else do
    let n : ℤ := e.graph.countNew ids
    let total ← addReserved id n
    if t.quota.maxVectors < e.graph.live + total then do
      let _ ← addReserved id (-n)
      throw .quotaExceeded
    else deferRelease id n

def reserveEach : List (TenantBatch × Tenant × Engine D) → Deferring D Unit
  | [] => pure ()
  | (b, t, e) :: rest => do
    reserveRoom t e (tenantOf b.tenantID) (b.items.map (·.1))
    reserveEach rest

variable [Hnsw.Dist D] (P : Setup D F)

def checkAndInsert (env : Env) (batches : List TenantBatch) : Deferring D Unit := do
  let acquired ← onStore (acquireAll P env batches)
  onStore (limitedAll env 0 batches)
  reserveEach acquired
  onStore (commitAll P env 0 batches)

def Counted.insertBatches (env : Env) (batches : List TenantBatch) (s : Counted D) :
    Except CallError Unit × Counted D :=
  let out := exec (checkAndInsert P env batches) ⟨s, []⟩
  (out.1, ⟨out.2.store, releaseAll out.2.deferred out.2.reserved⟩)

/-- An error of the disk: of this write to the log, or of an earlier one after which the log takes no
more. -/
def CallError.ofDisk : CallError → Bool
  | .engine (.wal .io) => true
  | .engine (.wal .writerFailed) => true
  | _ => false

end Model

section Counters
variable {D F : Type} {α : Type}

theorem exec_onStore (m : Run D α) (s : Calling D) :
    exec (onStore m) s = ((exec m s.store).1, { s with store := (exec m s.store).2 }) := by
  simp only [onStore, exec_bind, exec_get, exec_set]
  cases (exec m s.store).1 <;> rfl

def Calling.afterReleases (s : Calling D) : String → ℤ := releaseAll s.deferred s.reserved

theorem update_add_neg (reserved : String → ℤ) (id : String) (n : ℤ) :
    update (update reserved id (reserved id + n)) id (reserved id + n + -n) = reserved := by
  rw [update_idem, Int.add_neg_cancel_right, update_eq_self]

theorem keeps_onStore (m : Run D α) : Keeps Calling.afterReleases (onStore m) := by
  intro s
  rw [exec_onStore]
  rfl

/-- Nothing without a quota; else it is refused and the counter is as it was, or it is held and will
be released. -/
theorem exec_reserveRoom (t : Tenant) (e : Engine D) (id : String) (ids : List UInt64) (s : Calling D) :
    exec (reserveRoom t e id ids) s = if t.quota.maxVectors ≤ 0 then (.ok (), s)
      else if t.quota.maxVectors < e.graph.live + (s.reserved id + e.graph.countNew ids) then
        (.error .quotaExceeded, s)
      else (.ok (), ⟨⟨s.store, update s.reserved id (s.reserved id + e.graph.countNew ids)⟩,
        (id, (e.graph.countNew ids : ℤ)) :: s.deferred⟩) := by
  unfold reserveRoom
  split_ifs with hlimit hover
  · rfl
  · simp only [addReserved, exec_bind, exec_get, exec_set, exec_pure, hover, if_true,
      update_self, exec_throw, update_add_neg]
  · simp only [addReserved, deferRelease, exec_bind, exec_get, exec_set, exec_pure, hover, if_false]

theorem keeps_reserveRoom (t : Tenant) (e : Engine D) (id : String) (ids : List UInt64) :
    Keeps Calling.afterReleases (reserveRoom t e id ids) := by
  intro s
  rw [exec_reserveRoom]
  split_ifs
  · rfl
  · rfl
  · simp only [Calling.afterReleases, releaseAll, update_self, update_add_neg]

section
variable (acquired : List (TenantBatch × Tenant × Engine D))

theorem keeps_reserveEach : Keeps Calling.afterReleases (reserveEach acquired) := by
  induction acquired with
  | nil => exact .pure ()
  | cons a rest ih => exact (keeps_reserveRoom _ _ _ _).bind fun _ => ih

theorem store_reserveEach : Keeps (fun s : Calling D => s.store) (reserveEach acquired) := by
  induction acquired with
  | nil => exact .pure ()
  | cons a rest ih =>
    refine Keeps.bind (fun s => ?_) fun _ => ih
    rw [exec_reserveRoom]
    split_ifs <;> rfl

theorem exec_reserveEach (s : Calling D) :
    (exec (reserveEach acquired) s).1 = reserveAll s.reserved acquired := by
  induction acquired generalizing s with
  | nil => rfl
  | cons a rest ih =>
    obtain ⟨b, t, e⟩ := a
    rw [reserveEach, exec_bind, exec_reserveRoom, reserveAll, reserve]
    split_ifs with hlimit hover
    · simp only [Nat.cast_zero, Int.add_zero, update_eq_self]
      exact ih s
    · simp only [if_pos hover]
    · simp only [if_neg hover]
      exact ih _

end

variable [Hnsw.Dist D] (P : Setup D F) (env : Env)

theorem keeps_checkAndInsert (batches : List TenantBatch) :
    Keeps Calling.afterReleases (checkAndInsert P env batches) :=
  (keeps_onStore _).bind fun acquired => (keeps_onStore _).bind fun _ =>
    (keeps_reserveEach acquired).bind fun _ => keeps_onStore _

/-- Whatever the call returns, its reservations are released in the end. -/
theorem insertBatches_of_zero (batches : List TenantBatch) (s : Store D) :
    Counted.insertBatches P env batches ⟨s, fun _ => 0⟩ =
      ((exec (insertBatches P env batches) s).1, ⟨(exec (insertBatches P env batches) s).2, fun _ => 0⟩) := by
  have hreleases := keeps_checkAndInsert P env batches ⟨⟨s, fun _ => 0⟩, []⟩
  have hboth : (exec (checkAndInsert P env batches) ⟨⟨s, fun _ => 0⟩, []⟩).1 =
        (exec (insertBatches P env batches) s).1 ∧
      (exec (checkAndInsert P env batches) ⟨⟨s, fun _ => 0⟩, []⟩).2.store =
        (exec (insertBatches P env batches) s).2 := by
    simp only [checkAndInsert, insertBatches, exec_bind, exec_onStore]
    rcases exec (acquireAll P env batches) s with ⟨err | acquired, s₁⟩
    · exact ⟨rfl, rfl⟩
    simp only
    rcases exec (limitedAll env 0 batches) s₁ with ⟨err | u, s₂⟩
    · exact ⟨rfl, rfl⟩
    simp only
    have hresult := exec_reserveEach acquired ⟨⟨s₂, fun _ => 0⟩, []⟩
    have hstore : (exec (reserveEach acquired) ⟨⟨s₂, fun _ => 0⟩, []⟩).2.store = s₂ :=
      store_reserveEach acquired ⟨⟨s₂, fun _ => 0⟩, []⟩
    rcases hreserve : exec (reserveEach acquired) ⟨⟨s₂, fun _ => 0⟩, []⟩ with ⟨err | u, c⟩
    · rw [hreserve] at hresult hstore
      simp only at hresult hstore
      rw [← hresult]
      exact ⟨rfl, hstore⟩
    · rw [hreserve] at hresult hstore
      simp only at hresult hstore
      subst hstore
      rw [← hresult]
      exact ⟨rfl, rfl⟩
  rw [Counted.insertBatches, hboth.1, hboth.2]
  exact congrArg (fun r => (_, Counted.mk _ r)) hreleases

end Counters

section Engines
variable {D F : Type} [Hnsw.Dist D] {P : Setup D F} {env : Env} {s s' : Store D} {α : Type}
  {I : Engine D → Prop}

structure EngineInvariant (P : Setup D F) (I : Engine D → Prop) : Prop where
  opened {cfg : Config D} {rng : ℕ → ℕ} {disk disk' : NuclaDB.Disk} {e : Engine D} :
    openEngine P.crc P.json cfg P.workers rng disk = .ok (e, disk') → I e
  commit {e : Engine D} {io : Wal.Outcome} {file : Bytes} {cs : List Change} :
    I e → cs ≠ [] → (∀ c ∈ cs, c.Valid e.cfg.dim) → I (e.commit P.crc P.json P.workers io file cs).1

def AllEngines (I : Engine D → Prop) (s : Store D) : Prop := ∀ id e, s.engines id = some e → I e

omit [Hnsw.Dist D] in
theorem AllEngines.withEngine (h : AllEngines I s) {e : Engine D} (he : I e) (id : String)
    (disk : NuclaDB.Disk) : AllEngines I (withEngine s id e disk) := by
  intro id' e' he'
  by_cases hid : id' = id
  · subst hid
    simp only [StoreCalls.withEngine, update_self, Option.some.injEq] at he'
    exact he' ▸ he
  · simp only [StoreCalls.withEngine, update_of_ne hid] at he'
    exact h id' e' he'

theorem AllEngines.acquire (hI : EngineInvariant P I) (h : AllEngines I s) (id : String) :
    AllEngines I (exec (acquire P env id) s).2 := by
  rcases acquire_cases P env s id with ⟨err, herr⟩ | ⟨t, -, ⟨e, -, hok⟩ | ⟨-, e, disk, hopen, hok⟩⟩
  · rwa [herr]
  · rwa [hok]
  · rw [hok]
    exact h.withEngine (hI.opened hopen) _ _

theorem AllEngines.commit (hI : EngineInvariant P I) (h : AllEngines I s) (id : String) (io : Wal.Outcome)
    (req : NuclaDB.Request) : AllEngines I (exec (commit P id io req) s).2 := by
  rcases commit_cases P s id io req with ⟨r, hexec, -⟩ | ⟨e, cs, he, haccept, hne, hexec⟩
  · rwa [hexec]
  · rw [hexec]
    exact h.withEngine (hI.commit (h _ e he) hne (Engine.accept_valid haccept)) _ _

theorem AllEngines.onData (hI : EngineInvariant P I) {names : String → Prop} {m : Run D α}
    (hm : OnData P env names m) (h : AllEngines I s) : AllEngines I (exec m s).2 :=
  hm.keeps (fun id _ h => h.acquire hI id) (fun id io req _ h => h.commit hI id io req) h

section
omit [Hnsw.Dist D]

theorem AllEngines.onBase (h : AllEngines I s) (f : StoreRoot.Store → Except StoreError StoreRoot.Store) :
    AllEngines I (exec (onBase f) s).2 := by
  simp only [StoreCalls.onBase, exec_bind, exec_get]
  cases f s.base with
  | error e => exact h
  | ok base => exact h

theorem AllEngines.without (h : AllEngines I s) (id : String) (base : StoreRoot.Store)
    (disks : String → NuclaDB.Disk) : AllEngines I ⟨base, update s.engines id none, disks⟩ := by
  intro id' e he
  by_cases hid : id' = id
  · simp [hid] at he
  · exact h id' e (by simpa [hid] using he)

theorem AllEngines.deleteTenant (h : AllEngines I s) (id : String) :
    AllEngines I (exec (deleteTenant env id) s).2 := by
  simp only [StoreCalls.deleteTenant, exec_bind, exec_get]
  cases s.base.deleteTenant id env.nanos none with
  | ok base => exact h.without id base _
  | error err =>
    cases err with
    | fs err => exact h.without id _ _
    | _ => exact h

end

theorem Reached.allEngines (hI : EngineInvariant P I) (h : Reached P s) : AllEngines I s := by
  induction h with
  | opened base disks =>
    intro id e he
    cases he
  | @called s env c _ ih =>
    cases hdata : isData c with
    | true =>
      obtain ⟨α, m, g, hm, hanswer⟩ := answer_data P env (fun _ => True) hdata fun _ _ => trivial
      rw [hanswer]
      exact ih.onData hI hm
    | false =>
      cases c with
      | createTenantWithIndex id quota spec => exact ih.onBase _
      | setQuota id quota => exact ih.onBase _
      | deleteTenant id => exact ih.deleteTenant id
      | allStats => exact ih
      | _ => cases hdata

end Engines

section Refused
variable {D F : Type} [Hnsw.Dist D] {P : Setup D F} {env : Env} {s s' : Store D} {err : CallError}
variable {bs : List TenantBatch}

structure LogOpen (e : Engine D) : Prop where
  kept : e.Kept e.cfg
  closed : e.w.closed = true → e.w.failed = true

theorem appendBatch_open {crc : Bytes → UInt32} {w w' : Wal.Writer} (h : w.closed = true → w.failed = true)
    {io : Wal.Outcome} {file file' : Bytes} {items : List Wal.Record} {r : Except Wal.WriterError (List UInt64)}
    (happend : w.appendBatch crc io file items = (w', file', r)) :
    (w'.closed = true → w'.failed = true) ∧
      ∀ err, r = .error err → (CallError.engine (.wal err)).ofDisk = true := by
  have hready : ∀ err, w.readyLocked = .error err → err = .writerFailed := by
    intro err herr
    unfold Wal.Writer.readyLocked at herr
    split_ifs at herr with hfailed hclosed
    · exact (error.inj herr).symm
    · exact absurd (h hclosed) hfailed
  simp only [Wal.Writer.appendBatch] at happend
  split at happend
  · cases happend
    exact ⟨h, fun err herr => by cases herr⟩
  · split at happend
    · next err herr =>
      cases happend
      refine ⟨h, fun err' herr' => ?_⟩
      rw [← error.inj herr', hready err herr]
      rfl
    · split at happend
      · cases happend
        refine ⟨fun _ => rfl, fun err' herr' => ?_⟩
        rw [← error.inj herr']
        rfl
      · cases happend
        exact ⟨h, fun err herr => by cases herr⟩

theorem LogOpen.commit {e : Engine D} (h : LogOpen e) (P : Setup D F) (io : Wal.Outcome) (file : Bytes)
    {cs : List Change} (hne : cs ≠ []) (hcs : ∀ c ∈ cs, c.Valid e.cfg.dim) :
    LogOpen (e.commit P.crc P.json P.workers io file cs).1 ∧
      ∀ err, (e.commit P.crc P.json P.workers io file cs).2.2 = .error err →
        (CallError.engine err).ofDisk = true := by
  have hkept : (e.commit P.crc P.json P.workers io file cs).1.Kept e.cfg := h.kept.commit hne hcs
  have hcfg := hkept.cfg_eq
  rcases hlog : e.w.appendBatch P.crc io file (cs.map (Change.record P.json)) with ⟨w, file', err | seqs⟩
  · obtain ⟨hopen, hdisk⟩ := appendBatch_open h.closed hlog
    have hcommit : e.commit P.crc P.json P.workers io file cs = ({ e with w := w }, file', .error (.wal err)) := by
      simp only [Engine.commit, Engine.commitLocked, hlog]
    rw [hcommit] at hkept ⊢
    refine ⟨⟨hkept, hopen⟩, fun err' herr => ?_⟩
    rw [← error.inj herr]
    exact hdisk err rfl
  · obtain ⟨e', hcommit, -, -, hw, -⟩ := h.kept.commit_logged P.workers hne hcs hlog
    rw [hcommit] at hkept hcfg ⊢
    refine ⟨⟨hcfg.symm ▸ hkept, ?_⟩, fun err herr => by cases herr⟩
    rw [hw]
    exact (appendBatch_open h.closed hlog).1

theorem logOpen_invariant (P : Setup D F) : EngineInvariant P (LogOpen (D := D)) where
  opened hopen := by
    have hkept := Engine.Kept.opened hopen
    obtain ⟨g, md, seq, snapshotSeq, -, -, rfl⟩ := openEngine_parts hopen
    exact ⟨hkept, nofun⟩
  commit h hne hcs := (h.commit P _ _ hne hcs).1

theorem commit_refused (hs : Sound P s) (hall : AllEngines LogOpen s) {id : String} {t : Tenant}
    (ht : s.base.tenants.lookup (tenantOf id) = some t)
    (hopen : (s.engines (tenantOf id)).isSome = true) {items : List InsertItem}
    (hvalid : validateItems (P.graphCfg t.cfg).dim items = .ok ()) {io : Wal.Outcome}
    (h : exec (commit P id io (.insertBatch items)) s = (.error err, s')) : err.ofDisk = true := by
  obtain ⟨e, he⟩ := Option.isSome_iff_exists.mp hopen
  obtain ⟨t', ht', hk⟩ := hs _ e he
  obtain rfl : t = t' := Option.some.inj (ht.symm.trans ht')
  have haccept : e.accept (.insertBatch items) = .ok (items.map itemChange) := by
    simp only [Engine.accept, hk.cfg_eq, hvalid]
    rfl
  rcases commit_cases P s id io (.insertBatch items) with ⟨r, hexec, hnothing⟩ |
    ⟨e', cs, he', haccept', hne, hexec⟩
  · rw [hexec] at h
    cases h
    rcases hnothing e he with ⟨hok, -⟩ | ⟨err', -, hrefused⟩
    · cases hok
    · rw [haccept] at hrefused
      cases hrefused
  · obtain rfl : e = e' := Option.some.inj (he.symm.trans he')
    rw [hexec] at h
    have hdisk := ((hall _ e he).commit P io ((s.disks (tenantOf id)).wal.getD []) hne
      (Engine.accept_valid haccept')).2
    have hres := (Prod.mk.inj h).1
    generalize (e.commit P.crc P.json P.workers io ((s.disks (tenantOf id)).wal.getD []) cs).2.2 = r
      at hres hdisk
    cases r with
    | ok u => cases hres
    | error err' =>
      obtain rfl : CallError.engine err' = err := error.inj hres
      exact hdisk err' rfl

theorem commitAll_refused (hs : Sound P s) (hall : AllEngines LogOpen s) {i : ℕ}
    (hopen : ∀ b ∈ bs, (s.engines (tenantOf b.tenantID)).isSome = true)
    (hvalid : ∀ b ∈ bs, ∃ t, s.base.tenants.lookup (tenantOf b.tenantID) = some t ∧
      validateItems (P.graphCfg t.cfg).dim b.items = .ok ())
    (h : exec (commitAll P env i bs) s = (.error err, s')) : err.ofDisk = true := by
  induction bs generalizing s i with
  | nil => cases h
  | cons b bs ih =>
    obtain ⟨hb, hbs⟩ := List.forall_mem_cons.mp hopen
    obtain ⟨⟨t, ht, hitems⟩, hvalid⟩ := List.forall_mem_cons.mp hvalid
    rw [commitAll, exec_bind] at h
    rcases hcommit : exec (commit P b.tenantID (env.io i) (.insertBatch b.items)) s with ⟨err' | u, s₁⟩
    · rw [hcommit] at h
      cases h
      exact commit_refused hs hall ht hb hitems hcommit
    · rw [hcommit] at h
      have hafter : After P env s s₁ _ := commit_ok hs hb (fun e cs => accept_insertBatch) hcommit
      have hall₁ := hall.commit (logOpen_invariant P) b.tenantID (env.io i) (.insertBatch b.items)
      rw [hcommit] at hall₁
      refine ih hafter.sound hall₁ (fun b' hb' => hafter.opened _ (hbs b' hb')) ?_ h
      rw [hafter.base]
      exact hvalid

theorem after_acquire (env : Env) (hs : Sound P s) (id : String) : After P env s (exec (acquire P env id) s).2 [] := by
  rcases hacquire : exec (acquire P env id) s with ⟨err | ⟨t, e⟩, s'⟩
  · rcases acquire_cases P env s id with ⟨err', herr⟩ | ⟨t, -, ⟨e, -, hok⟩ | ⟨-, e, disk, -, hok⟩⟩
    · rw [herr] at hacquire
      cases hacquire
      exact .refl hs
    · rw [hok] at hacquire
      cases hacquire
    · rw [hok] at hacquire
      cases hacquire
  · exact (acquire_ok hs hacquire).1

theorem after_acquireAll (env : Env) (hs : Sound P s) (bs : List TenantBatch) :
    After P env s (exec (acquireAll P env bs) s).2 [] := by
  induction bs generalizing s with
  | nil => exact .refl hs
  | cons b bs ih =>
    have hafter := after_acquire env hs b.tenantID
    rw [acquireAll, exec_bind]
    rcases hacquire : exec (acquire P env b.tenantID) s with ⟨err | ⟨t, e⟩, s₁⟩
    · rwa [hacquire] at hafter
    · rw [hacquire] at hafter
      dsimp only at hafter ⊢
      split
      · exact hafter
      · have hrest := hafter.trans (ih hafter.sound)
        rw [exec_bind]
        rcases hexec : exec (acquireAll P env bs) s₁ with ⟨err | rest, s₂⟩
        · rwa [hexec] at hrest
        · rwa [hexec] at hrest

theorem acquireAll_valid {acquired : List (TenantBatch × Tenant × Engine D)}
    (hs : Sound P s) (h : exec (acquireAll P env bs) s = (.ok acquired, s')) :
    ∀ b ∈ bs, ∃ t, s.base.tenants.lookup (tenantOf b.tenantID) = some t ∧
      validateItems (P.graphCfg t.cfg).dim b.items = .ok () := by
  induction bs generalizing s s' acquired with
  | nil => simp
  | cons b bs ih =>
    obtain ⟨⟨t, e⟩, s₁, hacquire, h⟩ := exec_bind_ok h
    obtain ⟨hafter, -, ht⟩ := acquire_ok hs hacquire
    dsimp only at h
    split at h
    · cases h
    · next hitems =>
      obtain ⟨rest, s₂, hrest, -⟩ := exec_bind_ok h
      refine List.forall_mem_cons.mpr ⟨⟨t, ht, hitems⟩, ?_⟩
      rw [← hafter.base]
      exact ih hafter.sound hrest

omit [Hnsw.Dist D] in
theorem limitedAll_same (env : Env) (s : Store D) (i : ℕ) (bs : List TenantBatch) : (exec (limitedAll env i bs) s).2 = s := by
  induction bs generalizing i with
  | nil => rfl
  | cons b bs ih =>
    rw [limitedAll, exec_bind, limited]
    split_ifs
    · exact ih (i + 1)
    · rfl

theorem checkAndInsert_refused (hs : Sound P s) (hall : AllEngines LogOpen s)
    {reserved : String → ℤ} {deferred : List (String × ℤ)} {c : Calling D}
    (h : exec (checkAndInsert P env bs) ⟨⟨s, reserved⟩, deferred⟩ = (.error err, c))
    (hdisk : err.ofDisk = false) : After P env s c.store [] := by
  rw [checkAndInsert, exec_bind, exec_onStore] at h
  have hafter := after_acquireAll env hs bs
  have hall₁ : AllEngines LogOpen (exec (acquireAll P env bs) s).2 :=
    hall.onData (logOpen_invariant P)
      (show OnData P env (fun _ => True) _ from OnData.acquireAll fun _ _ => trivial)
  rcases hacquire : exec (acquireAll P env bs) s with ⟨err' | acquired, s₁⟩
  · simp only [hacquire] at h hafter
    cases h
    exact hafter
  have hvalid := acquireAll_valid hs hacquire
  obtain ⟨-, hopen⟩ := acquireAll_ok hs hacquire
  simp only [hacquire] at h hafter hall₁
  rw [exec_bind, exec_onStore] at h
  have hlimited := limitedAll_same env s₁ 0 bs
  rcases hlimit : exec (limitedAll env 0 bs) s₁ with ⟨err' | u, s₂⟩
  · simp only [hlimit] at h hlimited
    cases h
    exact hlimited ▸ hafter
  simp only [hlimit] at h hlimited
  subst hlimited
  rw [exec_bind] at h
  have hstore := store_reserveEach acquired ⟨⟨s₂, reserved⟩, deferred⟩
  rcases hreserve : exec (reserveEach acquired) ⟨⟨s₂, reserved⟩, deferred⟩ with ⟨err' | u, c₁⟩
  · simp only [hreserve] at h hstore
    cases h
    exact hstore ▸ hafter
  simp only [hreserve] at h hstore
  rw [exec_onStore, hstore] at h
  have hcommit : exec (commitAll P env 0 bs) s₂ = (.error err, (exec (commitAll P env 0 bs) s₂).2) :=
    Prod.ext (Prod.mk.inj h).1 rfl
  have hrefused := commitAll_refused hafter.sound hall₁ hopen (by rw [hafter.base]; exact hvalid) hcommit
  rw [hrefused] at hdisk
  cases hdisk

end Refused

/-- Whatever happens, the counters are as before; and a request that is refused for another reason
than the disk has changed no tenant's map. -/
theorem refused_batches_change_nothing {D F : Type} [Hnsw.Dist D] (P : Setup D F) (env : Env)
    (s : Counted D) (hs : Reached P s.store) (batches : List TenantBatch) :
    (∀ err, (s.insertBatches P env batches).1 = .error err → err.ofDisk = false →
      ∀ id, mapOf P env (s.insertBatches P env batches).2.store id = mapOf P env s.store id) ∧
    (s.insertBatches P env batches).2.reserved = s.reserved := by
  constructor
  · intro err herr hdisk id
    have hexec : exec (checkAndInsert P env batches) ⟨s, []⟩ =
        (.error err, (exec (checkAndInsert P env batches) ⟨s, []⟩).2) := Prod.ext herr rfl
    have hafter := checkAndInsert_refused hs.sound (hs.allEngines (logOpen_invariant P)) hexec hdisk
    have hmap := hafter.maps id
    simp only [itemsFor, List.filter_nil, List.map_nil, upsert_nil, Option.map_id'] at hmap
    exact hmap
  · exact keeps_checkAndInsert P env batches ⟨s, []⟩

def almostFull : Counted Exact where
  store := { oneTenant with
    base := { oneTenant.base with
      tenants := AList.singleton "default" ⟨{ unlimited with maxVectors := 2 }, ⟨1, none⟩⟩ } }
  reserved _ := 1

def underBothNames : List TenantBatch := [⟨"", [(1, [0], ∅)]⟩, ⟨"default", [(2, [1], ∅)]⟩]

def overQuota : Except CallError Unit → Bool
  | .error .quotaExceeded => true
  | _ => false

theorem refused_by_quota :
    (∃ err, (almostFull.insertBatches lineSetup someEnv underBothNames).1 = .error err ∧
      err.ofDisk = false) ∧
    (∀ id, mapOf lineSetup someEnv (almostFull.insertBatches lineSetup someEnv underBothNames).2.store id =
      mapOf lineSetup someEnv almostFull.store id) ∧
    (almostFull.insertBatches lineSetup someEnv underBothNames).2.reserved = almostFull.reserved := by
  have hquota : overQuota (almostFull.insertBatches lineSetup someEnv underBothNames).1 = true := by
    decide +kernel
  have herr : (almostFull.insertBatches lineSetup someEnv underBothNames).1 = .error .quotaExceeded := by
    unfold overQuota at hquota
    split at hquota
    · assumption
    · cases hquota
  obtain ⟨hmaps, hreserved⟩ :=
    refused_batches_change_nothing lineSetup someEnv almostFull (.opened _ _) underBothNames
  exact ⟨⟨_, herr, rfl⟩, hmaps _ herr rfl, hreserved⟩

end NuclaDB.StoreCalls
