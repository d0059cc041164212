import NuclaDB.StoreContents
import NuclaDB.StoreIsolation

/-!
# The order of a batch

`BatchUpsert` groups vectors by the tenant ids that they carry. The default tenant has two
ids, the empty one and its name.
-/

namespace NuclaDB.StoreCalls

open Hnsw Auth StoreRoot Api Unwinding KeyedLog CallProgram Strconv List

section Grouping
variable {α N : Type} [DecidableEq N] {name : α → N} {a b : N} {l : List N} {xs : List α}

def grouped (name : α → N) (xs : List α) : List α :=
  (xs.map name).eraseDups.flatMap fun t => xs.filter fun x => name x = t

theorem eraseDups_const (h : ∀ t ∈ l, t = b) : l.eraseDups = if l = [] then [] else [b] := by
  cases l with
  | nil => rfl
  | cons t l =>
    obtain ⟨rfl, hl⟩ := forall_mem_cons.mp h
    have hnil : (l.filter fun b => !b == t) = [] := by simpa using hl
    rw [eraseDups_cons, hnil]
    rfl

theorem grouped_filter (q : N → Bool) (xs : List α) :
    ((xs.map name).eraseDups.filter q).flatMap (fun t => xs.filter fun x => name x = t) =
      grouped name (xs.filter fun x => q (name x)) := by
  rw [← SortedSlice.eraseDups_filter, grouped, filter_map]
  refine flatMap_congr fun t ht => ?_
  have hq : q t = true := by
    obtain ⟨x, hx, rfl⟩ := mem_map.mp (mem_eraseDups.mp ht)
    exact (mem_filter.mp hx).2
  rw [filter_filter]
  refine filter_congr fun x _ => ?_
  by_cases hx : name x = t
  · simp [hx, hq]
  · simp [hx]

theorem grouped_one (h : ∀ x ∈ xs, name x = a) : grouped name xs = xs := by
  have hnames : ∀ t ∈ xs.map name, t = a := by simpa using h
  rw [grouped, eraseDups_const hnames]
  cases xs with
  | nil => rfl
  | cons x xs => simpa using h

theorem grouped_two (h : ∀ x ∈ xs, name x = a ∨ name x = b) (hab : a ≠ b)
    (hfirst : ∀ x, xs.head? = some x → name x = a) :
    grouped name xs = (xs.filter fun x => !(name x = b)) ++ xs.filter fun x => name x = b := by
  have hfilter : (xs.filter fun x => !(name x = b)) = xs.filter fun x => name x = a := by
    refine filter_congr fun x hx => ?_
    rcases h x hx with hx | hx
    · simp [hx, hab]
    · simp [hx, Ne.symm hab]
  cases xs with
  | nil => rfl
  | cons x xs =>
    have hx : name x = a := hfirst x rfl
    have hrest : ∀ t ∈ (xs.map name).filter fun t => !t == a, t = b := by
      intro t ht
      obtain ⟨ht, hne⟩ := mem_filter.mp ht
      obtain ⟨y, hy, rfl⟩ := mem_map.mp ht
      exact (h y (mem_cons_of_mem x hy)).resolve_left (by simpa using hne)
    rw [hfilter, grouped, map_cons, eraseDups_cons, hx, flatMap_cons, eraseDups_const hrest]
    congr 1
    split_ifs with hnil
    · -- the other name does not come up
      have hall : ∀ y ∈ xs, name y = a := by simpa using hnil
      symm
      rw [flatMap_nil, filter_eq_nil_iff]
      intro y hy
      rcases mem_cons.mp hy with rfl | hy
      · simpa [hx] using hab
      · simpa [hall y hy] using hab
    · simp

end Grouping

variable {D F : Type} [Hnsw.Dist D] (P : Setup D F)

def insertEach (srv : Server) (given : String) : List (Env × Pb.Vector) → Store D → Except Status Unit × Store D
  | [], s => (.ok (), s)
  | (env, v) :: calls, s =>
    match (srv.insert given (some v)).run (answer P env) s with
    | (.error e, s') => (.error e, s')
    | (.ok _, s') => insertEach srv given calls s'

def ofTenant (id : String) (vs : List Pb.Vector) : List Pb.Vector := vs.filter fun v => tenantOf v.tenantID = id

def named (name : String) (vs : List Pb.Vector) : List Pb.Vector := vs.filter fun v => v.tenantID = name

/-- The one of the default tenant's two ids that is not the first to come up. -/
def laterName (vs : List Pb.Vector) : String :=
  if (ofTenant defaultTenant vs).head?.map (·.tenantID) = some "" then defaultTenant else ""

def lastValue (prep : Vec → Vec) (id : Option UInt64) (vs : List Pb.Vector) : Option (Vec × Meta) :=
  (lastAt (fun v => parseUint v.id) id vs).map fun v => (prep v.values, v.metadata)

/-- An id under the default tenant's later name gets the same there as from the vectors under both
names. -/
def InOrder (prep : Vec → Vec) (vs : List Pb.Vector) : Prop :=
  ∀ v ∈ named (laterName vs) vs, lastValue prep (parseUint v.id) (named (laterName vs) vs) =
    lastValue prep (parseUint v.id) (ofTenant defaultTenant vs)

def itemOf (v : Pb.Vector) : InsertItem := ((parseUint v.id).getD 0, v.values, v.metadata)

section Writes
variable {vs ws : List Pb.Vector} {prep : Vec → Vec} {f : Contents}

theorem upsert_eq (hvs : ∀ v ∈ vs, (parseUint v.id).isSome = true) (prep : Vec → Vec) (f : Contents) (n : UInt64) :
    upsert prep f (vs.map itemOf) n = (lastValue prep (some n) vs).or (f n) := by
  have hlast : lastAt (fun v => (parseUint v.id).getD 0) n vs = lastAt (fun v => parseUint v.id) (some n) vs := by
    simp only [lastAt]
    congr 1
    refine filter_congr fun v hv => ?_
    obtain ⟨m, hm⟩ := Option.isSome_iff_exists.mp (hvs v hv)
    simp [hm]
  rw [upsert, applyAll, map_map, putAll_map]
  refine (putAll_overwrites (x := fun v => some (prep v.values, v.metadata)) (fun v _ => rfl) f vs).trans ?_
  change (Option.map _ (lastAt (fun v => (parseUint v.id).getD 0) n vs)).getD (f n) = _
  rw [hlast, lastValue]
  cases lastAt (fun v => parseUint v.id) (some n) vs <;> rfl

theorem lastValue_append (id : Option UInt64) :
    lastValue prep id (vs ++ ws) = (lastValue prep id ws).or (lastValue prep id vs) := by
  rw [lastValue, lastAt_append, Option.map_or]
  rfl

theorem lastValue_isSome (prep : Vec → Vec) {v : Pb.Vector} (hv : v ∈ vs) :
    (lastValue prep (parseUint v.id) vs).isSome = true := by
  cases hlast : lastAt (fun w => parseUint w.id) (parseUint v.id) vs with
  | none => exact absurd rfl (lastAt_eq_none.mp hlast v hv)
  | some w => simp [lastValue, hlast]

theorem upsert_moved_iff (hvs : ∀ v ∈ vs, (parseUint v.id).isSome = true) (q : Pb.Vector → Bool) :
    upsert prep f (((vs.filter fun v => !q v) ++ vs.filter q).map itemOf) = upsert prep f (vs.map itemOf) ↔
      ∀ v ∈ vs.filter q, lastValue prep (parseUint v.id) (vs.filter q) = lastValue prep (parseUint v.id) vs := by
  have hmoved : ∀ v ∈ (vs.filter fun v => !q v) ++ vs.filter q, (parseUint v.id).isSome = true := by
    intro v hv
    rcases mem_append.mp hv with hv | hv
    · exact hvs v (mem_filter.mp hv).1
    · exact hvs v (mem_filter.mp hv).1
  rw [funext_iff]
  simp only [upsert_eq hmoved, upsert_eq hvs, lastValue_append]
  constructor
  · intro h v hv
    have hmem := (mem_filter.mp hv).1
    obtain ⟨n, hn⟩ := Option.isSome_iff_exists.mp (hvs v hmem)
    obtain ⟨x, hx⟩ := Option.isSome_iff_exists.mp (lastValue_isSome prep hv)
    obtain ⟨y, hy⟩ := Option.isSome_iff_exists.mp (lastValue_isSome prep hmem)
    have hsame := h n
    rw [hn] at hx hy ⊢
    rw [hx, hy] at hsame ⊢
    exact hsame
  · intro h n
    congr 1
    cases hlast : lastAt (fun v => parseUint v.id) (some n) (vs.filter q) with
    | none =>
      have hnone : lastValue prep (some n) (vs.filter q) = none := by rw [lastValue, hlast]; rfl
      rw [hnone, lastValue, lastAt_filter hlast]
      rfl
    | some v =>
      have hmem : v ∈ (vs.filter q).filter fun v => parseUint v.id = some n := mem_of_getLast? hlast
      obtain ⟨hv, hid⟩ := mem_filter.mp hmem
      have hid : parseUint v.id = some n := by simpa using hid
      rw [← hid, ← h v hv]
      obtain ⟨x, hx⟩ := Option.isSome_iff_exists.mp (lastValue_isSome prep hv)
      rw [hx]
      rfl

end Writes

section Ids
variable {t T : String}

theorem tenantOf_eq_default (h : tenantOf t = defaultTenant) : t = "" ∨ t = defaultTenant := by
  unfold tenantOf at h
  split_ifs at h with ht
  · exact .inl ht
  · exact .inr h

theorem eq_of_tenantOf (hT : T ≠ defaultTenant) (h : tenantOf t = T) : t = T := by
  unfold tenantOf at h
  split_ifs at h
  · exact absurd h.symm hT
  · exact h

theorem grouped_ofTenant (hT : T ≠ defaultTenant) (vs : List Pb.Vector) :
    grouped (·.tenantID) (ofTenant T vs) = ofTenant T vs := by
  refine grouped_one (a := T) fun v hv => ?_
  exact eq_of_tenantOf hT (by simpa using (mem_filter.mp hv).2)

theorem grouped_default (vs : List Pb.Vector) : grouped (·.tenantID) (ofTenant defaultTenant vs) =
      ((ofTenant defaultTenant vs).filter fun v => !(v.tenantID = laterName vs)) ++
        (ofTenant defaultTenant vs).filter fun v => v.tenantID = laterName vs := by
  have hnames : ∀ v ∈ ofTenant defaultTenant vs, v.tenantID = "" ∨ v.tenantID = defaultTenant :=
    fun v hv => tenantOf_eq_default (by simpa using (mem_filter.mp hv).2)
  have hne : ("" : String) ≠ defaultTenant := by decide
  by_cases hfirst : (ofTenant defaultTenant vs).head?.map (·.tenantID) = some ""
  · rw [laterName, if_pos hfirst]
    refine grouped_two hnames hne fun v hv => ?_
    simpa [hv] using hfirst
  · rw [laterName, if_neg hfirst]
    refine grouped_two (fun v hv => (hnames v hv).symm) hne.symm fun v hv => ?_
    refine (hnames v (mem_of_mem_head? hv)).resolve_left fun hempty => hfirst ?_
    simp [hv, hempty]

theorem named_later (vs : List Pb.Vector) :
    ((ofTenant defaultTenant vs).filter fun v => v.tenantID = laterName vs) = named (laterName vs) vs := by
  have hlater : tenantOf (laterName vs) = defaultTenant := by
    unfold laterName
    split_ifs
    · decide
    · rfl
  rw [ofTenant, filter_filter, named]
  refine filter_congr fun v _ => ?_
  by_cases hv : v.tenantID = laterName vs
  · simp [hv, hlater]
  · simp [hv]

end Ids

section Effects
variable {P} {srv : Server} {given : String} {env env' : Env} {s s' s₁ s₂ : Store D}
  {vs : List Pb.Vector}

theorem itemsFor_append (id : String) (xs ys : List (String × InsertItem)) :
    itemsFor id (xs ++ ys) = itemsFor id xs ++ itemsFor id ys := by
  simp only [itemsFor, filter_append, map_append]

theorem itemsFor_batchWrites (id : String) (bs : List TenantBatch) :
    itemsFor id (batchWrites bs) = (bs.filter fun b => tenantOf b.tenantID = id).flatMap (·.items) := by
  induction bs with
  | nil => rfl
  | cons b bs ih =>
    have hcons : batchWrites (b :: bs) =
        (b.items.map fun it => (tenantOf b.tenantID, it)) ++ batchWrites bs := by
      simp only [batchWrites, flatMap_cons]
    rw [hcons, itemsFor_append, ih]
    by_cases hb : tenantOf b.tenantID = id
    · simp [hb, itemsFor_self]
    · simp [hb, itemsFor_ne hb]

theorem itemsFor_each (id : String) (vs : List Pb.Vector) :
    itemsFor id (vs.map fun v => (tenantOf v.tenantID, itemOf v)) = (ofTenant id vs).map itemOf := by
  simp [itemsFor, ofTenant, filter_map, Function.comp_def]

theorem parseUint_of_parseID {v : Pb.Vector} {id : UInt64} (h : parseID v.id = .ok id) :
    parseUint v.id = some id := by
  unfold parseID at h
  split at h
  · cases h
  · next hid => rw [hid, Except.ok.inj h]

theorem itemsFor_batches {g : Server.Groups} (h : srv.groupVectors given ⟨∅, []⟩ vs = .ok g) :
    (∀ v ∈ vs, (parseUint v.id).isSome = true) ∧ (∀ v ∈ vs, ∃ b ∈ g.batches, b.tenantID = v.tenantID) ∧
      ∀ id, itemsFor id (batchWrites g.batches) =
        (grouped (·.tenantID) (ofTenant id vs)).map itemOf := by
  obtain ⟨ps, rfl, hids, hg⟩ := Server.Groups.Of.empty.group h
  rw [nil_append] at hg
  have hparse : ∀ p ∈ ps, parseUint p.1.id = some p.2 := fun p hp => parseUint_of_parseID (hids p hp)
  have horder : g.tenantOrder = ((ps.map Prod.fst).map (·.tenantID)).eraseDups := by
    rw [hg.order, map_map]
    rfl
  have hitems : ∀ t, g.byTenant.getD t [] =
      ((ps.map Prod.fst).filter fun v => v.tenantID = t).map itemOf := by
    intro t
    rw [hg.items, filter_map, map_map]
    refine map_congr_left fun p hp => ?_
    simp [itemOf, hparse p (mem_filter.mp hp).1]
  refine ⟨?_, ?_, fun id => ?_⟩
  · intro v hv
    obtain ⟨p, hp, rfl⟩ := mem_map.mp hv
    rw [hparse p hp]
    rfl
  · intro v hv
    refine ⟨⟨v.tenantID, g.byTenant.getD v.tenantID []⟩, ?_, rfl⟩
    refine mem_map.mpr ⟨v.tenantID, ?_, rfl⟩
    rw [horder]
    exact mem_eraseDups.mpr (mem_map_of_mem hv)
  · rw [itemsFor_batchWrites, Server.Groups.batches, filter_map, flatMap_map, horder]
    simp only [hitems, Function.comp_def]
    rw [← map_flatMap, grouped_filter]
    rfl

omit [Hnsw.Dist D] in
theorem ok_of_reply {α : Type} {m : Run D α} {a : α} (h : (reply P m s).1.mapError toStatus = .ok a) :
    exec m s = (.ok a, (reply P m s).2) := by
  simp only [reply] at h ⊢
  rcases hexec : exec m s with ⟨e | b, s'⟩
  · rw [hexec] at h
    cases h
  · rw [hexec] at h
    cases h
    rfl

theorem batchUpsert_ok (hs : Sound P s) {r : Response D}
    (h : (srv.batchUpsert given vs).run (answer P env) s = (.ok r, s')) :
    (∀ v ∈ vs, (parseUint v.id).isSome = true) ∧
      (∀ v ∈ vs, (s'.engines (tenantOf v.tenantID)).isSome = true) ∧
      ∃ ws, After P env s s' ws ∧
        ∀ id, itemsFor id ws = (grouped (·.tenantID) (ofTenant id vs)).map itemOf := by
  obtain ⟨g, hgroup, h⟩ := run_ofExcept_bind_ok h
  rw [run_ask_bind] at h
  obtain ⟨u, hok, h⟩ := run_ofExcept_bind_ok h
  have hexec : exec (insertBatches P env g.batches) s = (.ok (), s') := by
    obtain ⟨-, rfl⟩ := Prod.mk.inj h
    exact ok_of_reply hok
  obtain ⟨hafter, hopen⟩ := insertBatches_ok hs hexec
  obtain ⟨hparse, hbatch, hitems⟩ := itemsFor_batches hgroup
  refine ⟨hparse, fun v hv => ?_, _, hafter, hitems⟩
  obtain ⟨b, hb, hname⟩ := hbatch v hv
  exact hname ▸ hopen b hb

theorem serverInsert_ok (hs : Sound P s) {v : Pb.Vector} {r : Response D}
    (h : (srv.insert given (some v)).run (answer P env) s = (.ok r, s')) :
    After P env s s' [(tenantOf v.tenantID, itemOf v)] := by
  obtain ⟨_, -, h⟩ := run_ofExcept_bind_ok h
  obtain ⟨id, hid, h⟩ := run_ofExcept_bind_ok h
  rw [run_ask_bind] at h
  obtain ⟨u, hok, h⟩ := run_ofExcept_bind_ok h
  have hexec : exec (insert P env v.tenantID id v.values v.metadata) s = (.ok (), s') := by
    obtain ⟨-, rfl⟩ := Prod.mk.inj h
    exact ok_of_reply hok
  have hitem : itemOf v = (id, v.values, v.metadata) := by
    simp [itemOf, parseUint_of_parseID hid]
  rw [hitem]
  exact insert_ok hs hexec

theorem After.of_rng {ws : List (String × InsertItem)} (hrng : env'.rng = env.rng) (h : After P env' s s' ws) :
    After P env s s' ws := by
  refine ⟨h.sound, h.base, h.opened, fun id => ?_⟩
  have hmap : ∀ s : Store D, mapOf P env s id = mapOf P env' s id := by
    intro s
    simp only [mapOf, hrng]
  rw [hmap, hmap]
  exact h.maps id

theorem insertEach_ok {calls : List (Env × Pb.Vector)} (hs : Sound P s)
    (hrng : ∀ c ∈ calls, c.1.rng = env.rng) (h : insertEach P srv given calls s = (.ok (), s')) :
    After P env s s' ((calls.map Prod.snd).map fun v => (tenantOf v.tenantID, itemOf v)) := by
  induction calls generalizing s with
  | nil =>
    cases h
    exact .refl hs
  | cons c calls ih =>
    obtain ⟨env', v⟩ := c
    obtain ⟨hc, hcalls⟩ := forall_mem_cons.mp hrng
    simp only [insertEach] at h
    rcases hinsert : (srv.insert given (some v)).run (answer P env') s with ⟨e | r, s₁⟩
    · rw [hinsert] at h
      cases h
    · rw [hinsert] at h
      have hafter := serverInsert_ok hs hinsert
      exact (hafter.of_rng hc).trans (ih hafter.sound hcalls h)

end Effects

/-- After `BatchUpsert` every tenant's map is that of the vectors inserted one by one exactly when the
default tenant's two names do not upset the order. -/
theorem batchUpsert_in_order_iff {srv : Server} {given : String} {vectors : List Pb.Vector} {env : Env}
    {calls : List (Env × Pb.Vector)} {s s₁ s₂ : Store D} {r : Response D} (hs : Reached P s)
    (hbatch : (srv.batchUpsert given vectors).run (answer P env) s = (.ok r, s₁))
    (hcalls : calls.map Prod.snd = vectors) (hrng : ∀ c ∈ calls, c.1.rng = env.rng)
    (heach : insertEach P srv given calls s = (.ok (), s₂)) :
    (∀ id, mapOf P env s₁ id = mapOf P env s₂ id) ↔ InOrder (prepOf P s defaultTenant) vectors := by
  subst hcalls
  obtain ⟨hparse, hopen, ws, hafter, hitems⟩ := batchUpsert_ok hs.sound hbatch
  have hone := insertEach_ok hs.sound hrng heach
  have hmap₁ : ∀ id, mapOf P env s₁ id = (mapOf P env s id).map fun f => upsert (prepOf P s id) f
      ((grouped (·.tenantID) (ofTenant id (calls.map Prod.snd))).map itemOf) := fun id => by
    rw [hafter.maps, hitems]
  have hmap₂ : ∀ id, mapOf P env s₂ id = (mapOf P env s id).map fun f => upsert (prepOf P s id) f
      ((ofTenant id (calls.map Prod.snd)).map itemOf) := fun id => by
    rw [hone.maps, itemsFor_each]
  -- the other tenants have one name, and so one group
  have hdefault : (∀ id, mapOf P env s₁ id = mapOf P env s₂ id) ↔
      mapOf P env s₁ defaultTenant = mapOf P env s₂ defaultTenant := by
    refine ⟨fun h => h _, fun h id => ?_⟩
    by_cases hid : id = defaultTenant
    · rw [hid, h]
    · rw [hmap₁, hmap₂, grouped_ofTenant hid]
  have hparse' : ∀ v ∈ ofTenant defaultTenant (calls.map Prod.snd), (parseUint v.id).isSome = true :=
    fun v hv => hparse v (mem_filter.mp hv).1
  rw [hdefault, hmap₁, hmap₂, grouped_default, InOrder, ← named_later]
  cases hmap : mapOf P env s defaultTenant with
  | some f =>
    rw [Option.map_some, Option.map_some, Option.some.injEq]
    exact upsert_moved_iff hparse' _
  | none =>
    -- then the request has no vector for the default tenant
    refine iff_of_true rfl fun v hv => ?_
    have hv := (mem_filter.mp hv).1
    have hname : tenantOf v.tenantID = defaultTenant := by simpa using (mem_filter.mp hv).2
    have hengine := hopen v (mem_filter.mp hv).1
    rw [hname] at hengine
    obtain ⟨e, he⟩ := Option.isSome_iff_exists.mp hengine
    have hsome : mapOf P env s₁ defaultTenant = some e.contents := by simp [mapOf, he]
    rw [hmap₁, hmap] at hsome
    cases hsome

section Examples

def oneTenant : Store Exact where
  base := ⟨.dir [⟨"default", .dir []⟩], ⟨1, none⟩, AList.singleton "default" ⟨unlimited, ⟨1, none⟩⟩, false⟩
  engines _ := none
  disks _ := NuclaDB.Disk.empty

noncomputable def batched (vs : List Pb.Vector) : Except Status (Response Exact) × Store Exact :=
  (Server.new.batchUpsert "" vs).run (answer lineSetup someEnv) oneTenant

noncomputable def oneByOne (vs : List Pb.Vector) : Except Status Unit × Store Exact :=
  insertEach lineSetup Server.new "" (vs.map fun v => (someEnv, v)) oneTenant

theorem eq_ok {ε α σ : Type} {x : Except ε α × σ} (h : x.1.isOk = true) : ∃ a, x = (.ok a, x.2) := by
  obtain ⟨e | a, s⟩ := x
  · cases h
  · exact ⟨a, rfl⟩

def twice : List Pb.Vector := [⟨"1", [0], ∅, ""⟩, ⟨"1", [1], ∅, "default"⟩, ⟨"1", [2], ∅, ""⟩]

theorem batchUpsert_reorders : Reached lineSetup oneTenant ∧
    ∃ r s₁ s₂, (Server.new.batchUpsert "" twice).run (answer lineSetup someEnv) oneTenant = (.ok r, s₁) ∧
      insertEach lineSetup Server.new "" (twice.map fun v => (someEnv, v)) oneTenant = (.ok (), s₂) ∧
      (mapOf lineSetup someEnv s₁ "default").map (fun f => (f 1).map Prod.fst) = some (some [1]) ∧
      (mapOf lineSetup someEnv s₂ "default").map (fun f => (f 1).map Prod.fst) = some (some [2]) := by
  have hbatched : (batched twice).1.isOk = true := by decide +kernel
  have hone : (oneByOne twice).1.isOk = true := by decide +kernel
  obtain ⟨r, hr⟩ := eq_ok hbatched
  obtain ⟨u, hu⟩ := eq_ok hone
  refine ⟨.opened _ _, r, _, _, hr, hu, ?_, ?_⟩
  · decide +kernel
  · decide +kernel

def once : List Pb.Vector := [⟨"1", [0], ∅, ""⟩, ⟨"2", [1], ∅, "default"⟩, ⟨"1", [2], ∅, ""⟩]

theorem once_in_order :
    ∃ r s₁ s₂, (Server.new.batchUpsert "" once).run (answer lineSetup someEnv) oneTenant = (.ok r, s₁) ∧
      insertEach lineSetup Server.new "" (once.map fun v => (someEnv, v)) oneTenant = (.ok (), s₂) ∧
      ∀ id, mapOf lineSetup someEnv s₁ id = mapOf lineSetup someEnv s₂ id := by
  have hbatched : (batched once).1.isOk = true := by decide +kernel
  have hone : (oneByOne once).1.isOk = true := by decide +kernel
  obtain ⟨r, hr⟩ := eq_ok hbatched
  obtain ⟨u, hu⟩ := eq_ok hone
  have hlater : named (laterName once) once = [⟨"2", [1], ∅, "default"⟩] := rfl
  refine ⟨r, _, _, hr, hu, (batchUpsert_in_order_iff lineSetup (.opened _ _) hr rfl ?_ hu).mpr ?_⟩
  · intro c hc
    obtain ⟨v, -, rfl⟩ := mem_map.mp hc
    rfl
  · intro v hv
    rw [hlater] at hv ⊢
    obtain rfl := mem_singleton.mp hv
    rfl

end Examples

end NuclaDB.StoreCalls
