import NuclaDB.StoreCalls

/-!
# What the store's tenants hold

The map of a tenant is that of its engine, or of the engine that the next call would
open. Calls on data change it by the items that they insert.
-/

namespace NuclaDB.StoreCalls

open LittleEndian Hnsw Auth StoreRoot Api Unwinding KeyedLog Function List
open Cursor (except_bind_eq_ok)

variable {D F : Type} [Hnsw.Dist D] (P : Setup D F)

inductive Reached : Store D → Prop
  | opened (base : StoreRoot.Store) (disks : String → NuclaDB.Disk) : Reached ⟨base, fun _ => none, disks⟩
  | called {s : Store D} (env : Env) (c : StoreCall) : Reached s → Reached (answer P env c s).2

def Sound (s : Store D) : Prop :=
  ∀ id e, s.engines id = some e → ∃ t, s.base.tenants.lookup id = some t ∧ e.Kept (P.graphCfg t.cfg)

/-- The map of a tenant, as the next call on its data finds it. -/
def mapOf (env : Env) (s : Store D) (id : String) : Option Contents :=
  match s.engines id, s.base.tenants.lookup id with
  | some e, _ => some e.contents
  | none, none => none
  | none, some t =>
    (openEngine P.crc P.json (P.graphCfg t.cfg) P.workers (env.rng id) (s.disks id)).toOption.map
      (·.1.contents)

def prepOf (s : Store D) (id : String) : Vec → Vec :=
  match s.base.tenants.lookup id with
  | none => fun v => v
  | some t => (P.graphCfg t.cfg).prep

def itemChange (it : InsertItem) : Change := .insert it.1 it.2.1 it.2.2

def upsert (prep : Vec → Vec) (f : Contents) (items : List InsertItem) : Contents :=
  applyAll f (items.map fun it => (itemChange it).stored prep)

def itemsFor (id : String) (writes : List (String × InsertItem)) : List InsertItem :=
  (writes.filter fun w => w.1 = id).map (·.2)

structure Changed (env : Env) (s s' : Store D) (act : String → Contents → Contents) : Prop where
  sound : Sound P s'
  base : s'.base = s.base
  opened (id : String) : (s.engines id).isSome = true → (s'.engines id).isSome = true
  maps (id : String) : mapOf P env s' id = (mapOf P env s id).map (act id)

def After (env : Env) (s s' : Store D) (writes : List (String × InsertItem)) : Prop :=
  Changed P env s s' fun id f => upsert (prepOf P s id) f (itemsFor id writes)

section Effects
variable {P} {env : Env} {s s' s₁ : Store D} {id : String} {ws ws' : List (String × InsertItem)}
variable {e : Engine D} {io : Wal.Outcome} {cs : List Change}

theorem upsert_nil (prep : Vec → Vec) (f : Contents) : upsert prep f [] = f := rfl

theorem upsert_append (prep : Vec → Vec) (f : Contents) (xs ys : List InsertItem) :
    upsert prep f (xs ++ ys) = upsert prep (upsert prep f xs) ys := by
  simp only [upsert, applyAll, map_append, putAll_append]

theorem itemsFor_self (id : String) (items : List InsertItem) :
    itemsFor id (items.map fun it => (id, it)) = items := by
  simp [itemsFor, filter_map, comp_def]

theorem itemsFor_ne {id id' : String} (hne : id ≠ id') (items : List InsertItem) :
    itemsFor id' (items.map fun it => (id, it)) = [] := by
  simp [itemsFor, filter_map, comp_def, hne]

theorem After.refl (hs : Sound P s) : After P env s s [] := by
  refine ⟨hs, rfl, fun _ h => h, fun id => ?_⟩
  cases mapOf P env s id <;> rfl

theorem After.trans (h : After P env s s₁ ws) (h' : After P env s₁ s' ws') :
    After P env s s' (ws ++ ws') := by
  refine ⟨h'.sound, h'.base.trans h.base, fun id hid => h'.opened id (h.opened id hid), fun id => ?_⟩
  have hprep : prepOf P s₁ id = prepOf P s id := by simp only [prepOf, h.base]
  rw [h'.maps, h.maps, hprep, Option.map_map]
  refine congrArg (fun g => Option.map g _) (funext fun f => ?_)
  simp only [comp_apply, itemsFor, filter_append, map_append, upsert_append]

def withEngine (s : Store D) (id : String) (e : Engine D) (disk : NuclaDB.Disk) : Store D :=
  { s with
    engines := update s.engines id (some e)
    disks := update s.disks id disk }

theorem acquire_cases (P : Setup D F) (env : Env) (s : Store D) (id : String) :
    (∃ err, exec (acquire P env id) s = (.error err, s)) ∨
      ∃ t, s.base.tenants.lookup (tenantOf id) = some t ∧
        ((∃ e, s.engines (tenantOf id) = some e ∧ exec (acquire P env id) s = (.ok (t, e), s)) ∨
          s.engines (tenantOf id) = none ∧ ∃ e disk, openEngine P.crc P.json (P.graphCfg t.cfg) P.workers
              (env.rng (tenantOf id)) (s.disks (tenantOf id)) = .ok (e, disk) ∧
            exec (acquire P env id) s = (.ok (t, e), withEngine s (tenantOf id) e disk)) := by
  have hlook : exec (look (tenantOf id)) s = (.ok ⟨s.base.closed, s.base.tenants.lookup (tenantOf id),
      s.engines (tenantOf id), s.disks (tenantOf id)⟩, s) := rfl
  simp only [acquire, exec_bind, hlook]
  by_cases hc : s.base.closed = true
  · simp only [if_pos hc]
    exact .inl ⟨_, rfl⟩
  simp only [if_neg hc]
  cases htenant : s.base.tenants.lookup (tenantOf id) with
  | none => exact .inl ⟨_, rfl⟩
  | some t =>
    cases hengine : s.engines (tenantOf id) with
    | some e => exact .inr ⟨t, rfl, .inl ⟨e, rfl, rfl⟩⟩
    | none =>
      cases hopen : openEngine P.crc P.json (P.graphCfg t.cfg) P.workers (env.rng (tenantOf id))
          (s.disks (tenantOf id)) with
      | error err => exact .inl ⟨_, by simp only [hopen]; rfl⟩
      | ok out => exact .inr ⟨t, rfl, .inr ⟨rfl, out.1, out.2, hopen, by simp only [hopen]; rfl⟩⟩

theorem Sound.withEngine (hs : Sound P s) {t : Tenant} (ht : s.base.tenants.lookup id = some t)
    (he : e.Kept (P.graphCfg t.cfg)) (disk : NuclaDB.Disk) :
    Sound P (withEngine s id e disk) := by
  intro id' e' he'
  by_cases hid : id' = id
  · subst hid
    simp only [StoreCalls.withEngine, update_self, Option.some.injEq] at he'
    exact ⟨t, ht, he' ▸ he⟩
  · simp only [StoreCalls.withEngine, update_of_ne hid] at he'
    exact hs id' e' he'

omit [Hnsw.Dist D] in
theorem opened_withEngine (s : Store D) (id : String) (e : Engine D) (disk : NuclaDB.Disk) (id' : String)
    (h : (s.engines id').isSome = true) : ((withEngine s id e disk).engines id').isSome = true := by
  by_cases hid : id' = id
  · simp [withEngine, hid]
  · simpa [withEngine, update_of_ne hid] using h

theorem mapOf_withEngine (env : Env) (s : Store D) (id : String) (e : Engine D) (disk : NuclaDB.Disk)
    (id' : String) : mapOf P env (withEngine s id e disk) id' =
      if id' = id then some e.contents else mapOf P env s id' := by
  by_cases hid : id' = id
  · subst hid
    simp [mapOf, withEngine]
  · simp [mapOf, withEngine, hid]

theorem acquire_ok (hs : Sound P s) {t : Tenant}
    (h : exec (acquire P env id) s = (.ok (t, e), s')) :
    After P env s s' [] ∧ s'.engines (tenantOf id) = some e ∧
      s.base.tenants.lookup (tenantOf id) = some t := by
  rcases acquire_cases P env s id with ⟨err, herr⟩ | ⟨t', ht, ⟨e', he, hok⟩ | ⟨hnone, e', disk, hopen, hok⟩⟩
  · rw [herr] at h
    cases h
  · rw [hok] at h
    cases h
    exact ⟨.refl hs, he, ht⟩
  · rw [hok] at h
    cases h
    refine ⟨⟨hs.withEngine ht (.opened hopen) disk, rfl, opened_withEngine s _ e disk, fun id' => ?_⟩,
      by simp [withEngine], ht⟩
    rw [mapOf_withEngine]
    split_ifs with hid
    · subst hid
      simp [mapOf, hnone, ht, hopen, Except.toOption, itemsFor, upsert_nil]
    · cases mapOf P env s id' <;> rfl

theorem acquire_sound (hs : Sound P s) : Sound P (exec (acquire P env id) s).2 := by
  rcases acquire_cases P env s id with ⟨err, herr⟩ | ⟨t', ht, ⟨e', he, hok⟩ | ⟨hnone, e', disk, hopen, hok⟩⟩
  · rw [herr]
    exact hs
  · rw [hok]
    exact hs
  · rw [hok]
    exact hs.withEngine ht (.opened hopen) disk

theorem commit_cases (P : Setup D F) (s : Store D) (id : String) (io : Wal.Outcome) (req : NuclaDB.Request) :
    (∃ r, exec (commit P id io req) s = (r, s) ∧ ∀ e, s.engines (tenantOf id) = some e →
        r = .ok () ∧ e.accept req = .ok [] ∨ ∃ err, r = .error (.engine err) ∧ e.accept req = .error err) ∨
      ∃ e cs, s.engines (tenantOf id) = some e ∧ e.accept req = .ok cs ∧ cs ≠ [] ∧
        exec (commit P id io req) s =
          ((e.commit P.crc P.json P.workers io ((s.disks (tenantOf id)).wal.getD []) cs).2.2.mapError .engine,
            withEngine s (tenantOf id)
              (e.commit P.crc P.json P.workers io ((s.disks (tenantOf id)).wal.getD []) cs).1
              { s.disks (tenantOf id) with
                wal := some (e.commit P.crc P.json P.workers io
                  ((s.disks (tenantOf id)).wal.getD []) cs).2.1 }) := by
  have hlook : exec (look (tenantOf id)) s = (.ok ⟨s.base.closed, s.base.tenants.lookup (tenantOf id),
      s.engines (tenantOf id), s.disks (tenantOf id)⟩, s) := rfl
  simp only [commit, exec_bind, hlook]
  cases hengine : s.engines (tenantOf id) with
  | none => exact .inl ⟨_, rfl, by simp⟩
  | some e =>
    cases haccept : e.accept req with
    | error err =>
      refine .inl ⟨.error (.engine err), by simp only [haccept]; rfl, ?_⟩
      intro e' he'
      cases he'
      exact .inr ⟨err, rfl, haccept⟩
    | ok cs =>
      cases cs with
      | nil =>
        refine .inl ⟨.ok (), by simp only [haccept]; rfl, ?_⟩
        intro e' he'
        cases he'
        exact .inl ⟨rfl, haccept⟩
      | cons c cs =>
        refine .inr ⟨e, c :: cs, rfl, haccept, by simp, ?_⟩
        simp only [haccept]
        generalize e.commit P.crc P.json P.workers io ((s.disks (tenantOf id)).wal.getD []) (c :: cs) = out
        obtain ⟨e', file, r⟩ := out
        cases r with
        | error err => rfl
        | ok u => rfl

theorem commit_sound (hs : Sound P s) {req : NuclaDB.Request} :
    Sound P (exec (commit P id io req) s).2 := by
  rcases commit_cases P s id io req with ⟨r, hexec, -⟩ | ⟨e, cs, he, haccept, hne, hexec⟩
  · rw [hexec]
    exact hs
  · rw [hexec]
    obtain ⟨t, ht, hk⟩ := hs _ e he
    have hvalid : ∀ c ∈ cs, c.Valid (P.graphCfg t.cfg).dim := hk.cfg_eq ▸ Engine.accept_valid haccept
    exact hs.withEngine ht (hk.commit hne hvalid) _

theorem contents_of_commit {cfg : Config D} (hk : e.Kept cfg) {crc : Bytes → UInt32}
    {J : Codec} {workers : Workers} {file : Bytes} (hne : cs ≠ [])
    (hcs : ∀ c ∈ cs, c.Valid cfg.dim) (hok : (e.commit crc J workers io file cs).2.2 = .ok ()) :
    (e.commit crc J workers io file cs).1.contents =
      applyAll e.contents (cs.map (Change.stored cfg.prep)) := by
  rcases hlog : e.w.appendBatch crc io file (cs.map (Change.record J)) with ⟨w, file', err | seqs⟩
  · simp [Engine.commit, Engine.commitLocked, hlog] at hok
  · obtain ⟨e', hcommit, -, hcontents, -⟩ := hk.commit_logged workers hne hcs hlog
    rw [hcommit]
    exact hcontents

theorem commit_changes (hs : Sound P s) (he : s.engines (tenantOf id) = some e)
    {req : NuclaDB.Request} {changes : List Change}
    (hreq : ∀ cs prep, e.accept req = .ok cs → applyAll e.contents (cs.map (Change.stored prep)) =
      applyAll e.contents (changes.map (Change.stored prep)))
    (h : exec (commit P id io req) s = (.ok (), s')) :
    Changed P env s s' fun T f =>
      if T = tenantOf id then applyAll f (changes.map (Change.stored (prepOf P s T))) else f := by
  obtain ⟨t, ht, hk⟩ := hs _ e he
  have hmap : mapOf P env s (tenantOf id) = some e.contents := by simp [mapOf, he]
  have hprep : prepOf P s (tenantOf id) = (P.graphCfg t.cfg).prep := by simp [prepOf, ht]
  rcases commit_cases P s id io req with ⟨r, hexec, hnothing⟩ | ⟨e', cs, he', haccept, hne, hexec⟩
  · rw [hexec] at h
    cases h
    have haccept : e.accept req = .ok [] := by
      rcases hnothing e he with ⟨-, haccept⟩ | ⟨err, herr, -⟩
      · exact haccept
      · cases herr
    refine ⟨hs, rfl, fun _ h => h, fun T => ?_⟩
    by_cases hT : T = tenantOf id
    · subst hT
      rw [hmap, Option.map_some, if_pos rfl, ← hreq [] _ haccept]
      rfl
    · simp [hT]
  · obtain rfl : e = e' := Option.some.inj (he.symm.trans he')
    have hvalid : ∀ c ∈ cs, c.Valid (P.graphCfg t.cfg).dim := hk.cfg_eq ▸ Engine.accept_valid haccept
    rw [hexec] at h
    obtain ⟨hres, hstate⟩ := Prod.mk.inj h
    subst hstate
    have hok : (e.commit P.crc P.json P.workers io ((s.disks (tenantOf id)).wal.getD []) cs).2.2 = .ok () := by
      generalize (e.commit P.crc P.json P.workers io ((s.disks (tenantOf id)).wal.getD []) cs).2.2 = r at hres
      cases r with
      | error err => cases hres
      | ok u => rfl
    refine ⟨hs.withEngine ht (hk.commit hne hvalid) _, rfl, opened_withEngine s _ _ _, fun T => ?_⟩
    rw [mapOf_withEngine]
    split_ifs with hT
    · subst hT
      rw [hmap, hprep, Option.map_some, contents_of_commit hk hne hvalid hok, hreq cs _ haccept]
    · simp

theorem commit_ok (hs : Sound P s) (hopen : (s.engines (tenantOf id)).isSome = true)
    {req : NuclaDB.Request} {items : List InsertItem}
    (hreq : ∀ (e : Engine D) cs, e.accept req = .ok cs → cs = items.map itemChange)
    (h : exec (commit P id io req) s = (.ok (), s')) :
    After P env s s' (items.map fun it => (tenantOf id, it)) := by
  obtain ⟨e, he⟩ := Option.isSome_iff_exists.mp hopen
  have hc : Changed P env s s' _ := commit_changes hs he (fun cs _ haccept => by rw [hreq e cs haccept]) h
  refine ⟨hc.sound, hc.base, hc.opened, fun T => (hc.maps T).trans ?_⟩
  refine congrArg (fun g => Option.map g _) (funext fun f => ?_)
  split_ifs with hT
  · subst hT
    rw [itemsFor_self, map_map]
    rfl
  · rw [itemsFor_ne (Ne.symm hT)]
    rfl

omit [Hnsw.Dist D] in
theorem accept_insert {id : UInt64} {v : Vec} {md : Meta}
    (h : e.accept (.insert id v md) = .ok cs) : cs = [(id, v, md)].map itemChange := by
  simp only [Engine.accept] at h
  split at h
  · cases h
  · exact (Except.ok.inj h).symm

omit [Hnsw.Dist D] in
theorem accept_insertBatch {items : List InsertItem}
    (h : e.accept (.insertBatch items) = .ok cs) : cs = items.map itemChange := by
  simp only [Engine.accept] at h
  split at h
  · cases h
  · exact (Except.ok.inj h).symm

end Effects

section Programs
variable {P} {env : Env} {s s' : Store D} {α β : Type} {bs : List TenantBatch}

omit [Hnsw.Dist D] in
theorem limited_ok {i : ℕ} {u : Unit} (h : exec (limited env i) s = (.ok u, s')) : s = s' := by
  unfold limited at h
  split_ifs at h
  · exact (Prod.mk.inj h).2
  · cases h

omit [Hnsw.Dist D] in
theorem orThrow_ok {x : Except CallError α} {a : α} (h : exec (orThrow x) s = (.ok a, s')) : s = s' := by
  cases x with
  | error e => cases h
  | ok b => exact (Prod.mk.inj h).2

theorem insert_ok (hs : Sound P s) {tenantID : String} {id : UInt64} {v : Vec} {md : Meta}
    (h : exec (insert P env tenantID id v md) s = (.ok (), s')) :
    After P env s s' [(tenantOf tenantID, (id, v, md))] := by
  obtain ⟨⟨t, e⟩, s₁, hacquire, h⟩ := exec_bind_ok h
  obtain ⟨_, s₂, hlimited, h⟩ := exec_bind_ok h
  obtain ⟨_, s₃, hreserve, h⟩ := exec_bind_ok h
  obtain rfl := limited_ok hlimited
  obtain rfl := orThrow_ok hreserve
  obtain ⟨hafter, hengine, -⟩ := acquire_ok hs hacquire
  have hopen : (s₁.engines (tenantOf tenantID)).isSome = true := by rw [hengine]; rfl
  exact hafter.trans (commit_ok hafter.sound hopen (fun e cs => accept_insert) h)

theorem delete_ok (hs : Sound P s) {tenantID : String} {id : UInt64}
    (h : exec (delete P env tenantID id) s = (.ok (), s')) :
    Sound P s' ∧ s'.base = s.base ∧ mapOf P env s' (tenantOf tenantID) =
      (mapOf P env s (tenantOf tenantID)).map fun f => update f id none := by
  obtain ⟨⟨t, e⟩, s₁, hacquire, h⟩ := exec_bind_ok h
  obtain ⟨_, s₂, hlimited, h⟩ := exec_bind_ok h
  obtain rfl := limited_ok hlimited
  obtain ⟨hafter, hengine, -⟩ := acquire_ok hs hacquire
  have hreq : ∀ cs prep, e.accept (.delete id) = .ok cs → applyAll e.contents (cs.map (Change.stored prep)) =
      applyAll e.contents ([.delete id].map (Change.stored prep)) := by
    intro cs prep haccept
    simp only [Engine.accept, Except.ok.injEq] at haccept
    subst haccept
    split_ifs with hnew
    · have hnone : e.contents id = none := by
        cases hget : e.graph.get id with
        | none => simp [Engine.contents, hget]
        | some v => simp [Graph.countNew, hget] at hnew
      exact (update_eq_self_iff.mpr hnone.symm).symm
    · rfl
  have hc : Changed P env _ s' _ := commit_changes hafter.sound hengine hreq h
  refine ⟨hc.sound, hc.base.trans hafter.base, ?_⟩
  rw [hc.maps, hafter.maps, Option.map_map]
  simp only [if_true]
  rfl

theorem acquireAll_ok (hs : Sound P s) {acquired : List (TenantBatch × Tenant × Engine D)}
    (h : exec (acquireAll P env bs) s = (.ok acquired, s')) :
    After P env s s' [] ∧ ∀ b ∈ bs, (s'.engines (tenantOf b.tenantID)).isSome = true := by
  induction bs generalizing s acquired with
  | nil =>
    cases h
    exact ⟨.refl hs, by simp⟩
  | cons b bs ih =>
    obtain ⟨⟨t, e⟩, s₁, hacquire, h⟩ := exec_bind_ok h
    obtain ⟨hafter, hengine, -⟩ := acquire_ok hs hacquire
    dsimp only at h
    split at h
    · cases h
    · obtain ⟨rest, s₂, hrest, h⟩ := exec_bind_ok h
      cases h
      obtain ⟨hafter', hopen⟩ := ih hafter.sound hrest
      refine ⟨hafter.trans hafter', forall_mem_cons.mpr ⟨?_, hopen⟩⟩
      exact hafter'.opened _ (by rw [hengine]; rfl)

omit [Hnsw.Dist D] in
theorem limitedAll_ok {i : ℕ} {u : Unit}
    (h : exec (limitedAll env i bs) s = (.ok u, s')) : s = s' := by
  induction bs generalizing s i with
  | nil => exact (Prod.mk.inj h).2
  | cons b bs ih =>
    obtain ⟨_, s₁, hlimited, h⟩ := exec_bind_ok h
    exact (limited_ok hlimited).trans (ih h)

def batchWrites (bs : List TenantBatch) : List (String × InsertItem) :=
  bs.flatMap fun b => b.items.map fun it => (tenantOf b.tenantID, it)

theorem commitAll_ok (hs : Sound P s) {i : ℕ}
    (hopen : ∀ b ∈ bs, (s.engines (tenantOf b.tenantID)).isSome = true) {u : Unit}
    (h : exec (commitAll P env i bs) s = (.ok u, s')) : After P env s s' (batchWrites bs) := by
  induction bs generalizing s i with
  | nil =>
    cases h
    exact .refl hs
  | cons b bs ih =>
    obtain ⟨hb, hbs⟩ := forall_mem_cons.mp hopen
    obtain ⟨_, s₁, hcommit, h⟩ := exec_bind_ok h
    have hafter : After P env s s₁ _ := commit_ok hs hb (fun e cs => accept_insertBatch) hcommit
    exact hafter.trans (ih hafter.sound (fun b' hb' => hafter.opened _ (hbs b' hb')) h)

theorem insertBatches_ok (hs : Sound P s) (h : exec (insertBatches P env bs) s = (.ok (), s')) :
    After P env s s' (batchWrites bs) ∧ ∀ b ∈ bs, (s'.engines (tenantOf b.tenantID)).isSome = true := by
  obtain ⟨acquired, s₁, hacquire, h⟩ := exec_bind_ok h
  obtain ⟨_, s₂, hlimited, h⟩ := exec_bind_ok h
  obtain ⟨_, s₃, hreserve, h⟩ := exec_bind_ok h
  obtain rfl := limitedAll_ok hlimited
  obtain rfl := orThrow_ok hreserve
  obtain ⟨hafter, hopen⟩ := acquireAll_ok hs hacquire
  have hcommitted := commitAll_ok hafter.sound hopen h
  exact ⟨hafter.trans hcommitted, fun b hb => hcommitted.opened _ (hopen b hb)⟩

end Programs

section Reached
variable {P} {env : Env} {s : Store D} {α : Type} {id : String}

/-- What opening an engine and committing to one keep, every call on tenants' data keeps. -/
theorem OnData.keeps {K : Store D → Prop}
    (hacquire : ∀ id s, K s → K (exec (StoreCalls.acquire P env id) s).2)
    (hcommit : ∀ id io req s, K s → K (exec (StoreCalls.commit P id io req) s).2) {names : String → Prop}
    {m : Run D α} (hm : OnData P env names m) (hs : K s) : K (exec m s).2 := by
  induction hm generalizing s with
  | pure a => exact hs
  | throw e => exact hs
  | @bind α β m f _ _ ihm ihf =>
    rw [exec_bind]
    have hafter := ihm hs
    rcases hexec : exec m s with ⟨e | a, s'⟩
    · rwa [hexec] at hafter
    · rw [hexec] at hafter
      exact ihf a hafter
  | look id _ => exact hs
  | acquire id _ => exact hacquire id s hs
  | commit id io req _ => exact hcommit id io req s hs

theorem Sound.onBase (hs : Sound P s) {f : StoreRoot.Store → Except StoreError StoreRoot.Store}
    (hf : ∀ base, f s.base = .ok base → ∀ id t, s.base.tenants.lookup id = some t →
      (base.tenants.lookup id).map Tenant.cfg = some t.cfg) :
    Sound P (exec (onBase f) s).2 := by
  simp only [StoreCalls.onBase, exec_bind, exec_get]
  cases hbase : f s.base with
  | error e => exact hs
  | ok base =>
    intro id e he
    obtain ⟨t, ht, hk⟩ := hs id e he
    obtain ⟨t', ht', hcfg⟩ := Option.map_eq_some_iff.mp (hf base hbase id t ht)
    exact ⟨t', ht', hcfg ▸ hk⟩

section Base
variable {J : FileCodec} {b b' : StoreRoot.Store} {quota : Quota}

theorem create_spec {spec : IndexSpec} (h : b.createTenantWithIndex J id quota spec = .ok b') :
    b.tenants.lookup id = none ∧ b'.closed = b.closed ∧ (b'.tenants.lookup id).isSome = true ∧
      ∀ id', id' ≠ id → b'.tenants.lookup id' = b.tenants.lookup id' := by
  simp only [StoreRoot.Store.createTenantWithIndex] at h
  split_ifs at h with hclosed hquota hid hexists
  · obtain ⟨_, -, h⟩ := except_bind_eq_ok.mp h
    cases h
  obtain ⟨cfg, -, h⟩ := except_bind_eq_ok.mp h
  obtain ⟨root, -, h⟩ := except_bind_eq_ok.mp h
  cases h
  exact ⟨by simpa using hexists, rfl, by simp, fun id' hne => AList.lookup_insert_ne hne⟩

theorem setQuota_spec (h : b.setQuota J id quota = .ok b') : b'.closed = b.closed ∧
      ∀ id', (b'.tenants.lookup id').map Tenant.cfg = (b.tenants.lookup id').map Tenant.cfg := by
  simp only [StoreRoot.Store.setQuota] at h
  generalize (if id = "" then defaultTenant else id) = name at h
  split_ifs at h with hclosed hquota
  split at h
  · cases h
  · next t ht =>
    obtain ⟨root, -, h⟩ := except_bind_eq_ok.mp h
    cases h
    refine ⟨rfl, fun id' => ?_⟩
    by_cases hname : id' = name
    · subst hname
      simp [ht]
    · rw [AList.lookup_insert_ne hname]

theorem delete_spec {nanos : ℤ} (h : b.deleteTenant id nanos none = .ok b') :
    b'.closed = b.closed ∧ b'.tenants.lookup id = none ∧
      ∀ id', id' ≠ id → b'.tenants.lookup id' = b.tenants.lookup id' := by
  simp only [StoreRoot.Store.deleteTenant] at h
  split_ifs at h with hclosed hdefault hnone
  obtain ⟨root, -, h⟩ := except_bind_eq_ok.mp h
  obtain ⟨root', -, h⟩ := except_bind_eq_ok.mp h
  cases h
  exact ⟨rfl, AList.lookup_erase .., fun id' hne => AList.lookup_erase_ne hne⟩

end Base

theorem Sound.without (hs : Sound P s) {base : StoreRoot.Store}
    (hbase : ∀ id', id' ≠ id → base.tenants.lookup id' = s.base.tenants.lookup id')
    (disks : String → NuclaDB.Disk) : Sound P ⟨base, update s.engines id none, disks⟩ := by
  intro id' e he
  have hne : id' ≠ id := by
    rintro rfl
    simp at he
  obtain ⟨t, ht, hk⟩ := hs id' e (by simpa [hne] using he)
  exact ⟨t, (hbase id' hne).trans ht, hk⟩

theorem Sound.deleteTenant (hs : Sound P s) (id : String) : Sound P (exec (deleteTenant env id) s).2 := by
  simp only [StoreCalls.deleteTenant, exec_bind, exec_get]
  cases hdelete : s.base.deleteTenant id env.nanos none with
  | ok base => exact hs.without (fun id' hne => (delete_spec hdelete).2.2 id' hne) _
  | error err =>
    cases err with
    | fs err => exact hs.without (fun _ _ => rfl) _
    | _ => exact hs

theorem Sound.answer (hs : Sound P s) (env : Env) (c : StoreCall) : Sound P (answer P env c s).2 := by
  cases hdata : isData c with
  | true =>
    obtain ⟨α, m, g, hm, hanswer⟩ := answer_data P env (fun _ => True) hdata fun _ _ => trivial
    rw [hanswer]
    exact hm.keeps (fun _ _ h => acquire_sound h) (fun _ _ _ _ h => commit_sound h) hs
  | false =>
    cases c with
    | createTenantWithIndex id quota spec =>
      refine hs.onBase fun base h id' t ht => ?_
      obtain ⟨hnone, -, -, hsame⟩ := create_spec h
      have hne : id' ≠ id := by
        rintro rfl
        rw [ht] at hnone
        cases hnone
      rw [hsame id' hne, ht]
      rfl
    | setQuota id quota =>
      refine hs.onBase fun base h id' t ht => ?_
      rw [(setQuota_spec h).2, ht]
      rfl
    | deleteTenant id => exact hs.deleteTenant id
    | allStats => exact hs
    | _ => cases hdata

theorem Reached.sound (h : Reached P s) : Sound P s := by
  induction h with
  | opened base disks =>
    intro id e he
    cases he
  | called env c _ ih => exact ih.answer env c

end Reached

end NuclaDB.StoreCalls
