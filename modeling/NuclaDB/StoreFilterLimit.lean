import NuclaDB.StoreContents

/-!
# The exact-filter limit of the tenants' engines

`SetExactFilterLimit` hands the limit to the engines that are open, and `acquire` to those it
opens later, unless it is 0.
-/

namespace NuclaDB.FilterLimit

open StoreRoot Auth

def defaultExactFilterLimit : ℤ := 4096

/-- Of a tenant the store has its engine, if it is open, and of that the limit is kept. -/
structure Store where
  exactFilterLimit : ℤ
  closed : Bool
  tenants : String → Option (Option ℤ)

inductive Deleted
  | notDiscarded
  | notMoved
  | gone

inductive Event
  | setExactFilterLimit (n : ℤ)
  | setEngineLimit (tenantID : String) (n : ℤ)
  | acquire (tenantID : String) (opens : Bool)
  | createTenant (tenantID : String) (made : Bool)
  | closeIdle (closes : String → Bool)
  | deleteTenant (tenantID : String) (outcome : Deleted)
  | close
  | closeEngine (tenantID : String)

namespace Store

def openStore (found : String → Bool) : Store where
  exactFilterLimit := 0
  closed := false
  tenants id := if found id || id == defaultTenant then some none else none

variable (s : Store) (id : String)

def put (t : Option (Option ℤ)) : Store :=
  { s with tenants := Function.update s.tenants id t }

def setExactFilterLimit (n : ℤ) : Store :=
  { s with exactFilterLimit := n, tenants := fun id => (s.tenants id).map fun e => e.map fun _ => n }

/-- An engine is opened with the default limit, and given the store's if that is set. -/
def openEngine : ℤ :=
  if 0 < s.exactFilterLimit then s.exactFilterLimit else defaultExactFilterLimit

def acquire (opens : Bool) : Store :=
  if s.closed then s
  else
    match s.tenants id with
    | some none => if opens then s.put id (some (some s.openEngine)) else s
    | _ => s

def createTenant (made : Bool) : Store :=
  if s.closed || (s.tenants id).isSome || !made then s else s.put id (some none)

def closeIdle (closes : String → Bool) : Store :=
  { s with tenants := fun id => if closes id then (s.tenants id).map fun _ => none else s.tenants id }

def deleteTenant (outcome : Deleted) : Store :=
  if s.closed || id == defaultTenant then s
  else
    match s.tenants id with
    | none => s
    | some _ =>
      match outcome with
      | .notDiscarded => s
      | .notMoved => s.put id (some none)
      | .gone => s.put id none

def step : Event → Store
  | .setExactFilterLimit n => s.setExactFilterLimit n
  | .setEngineLimit id n =>
    match s.tenants id with
    | some (some _) => s.put id (some (some n))
    | _ => s
  | .acquire id opens => s.acquire (tenantOf id) opens
  | .createTenant id made => s.createTenant id made
  | .closeIdle closes => s.closeIdle closes
  | .deleteTenant id outcome => s.deleteTenant (tenantOf id) outcome
  | .close => { s with closed := true }
  | .closeEngine id => if s.closed then s.closeIdle (· == id) else s

def run (evs : List Event) : Store := evs.foldl step s

end Store

def Event.setsLimit : Event → Bool
  | .setExactFilterLimit _ | .setEngineLimit _ _ => true
  | _ => false

namespace Store
variable {s : Store} {n : ℤ} {id : String}

structure Limited (n : ℤ) (s : Store) : Prop where
  store : s.exactFilterLimit = n
  engine : ∀ id limit, s.tenants id = some (some limit) → limit = n

theorem limited_set (s : Store) (n : ℤ) : (s.setExactFilterLimit n).Limited n := by
  refine ⟨rfl, fun id limit h => ?_⟩
  obtain ⟨e, -, he⟩ := Option.map_eq_some_iff.mp h
  obtain ⟨_, -, rfl⟩ := Option.map_eq_some_iff.mp he
  rfl

theorem Limited.put (h : s.Limited n) {t : Option (Option ℤ)} (ht : ∀ limit, t = some (some limit) → limit = n) :
    (s.put id t).Limited n := by
  refine ⟨h.store, fun other limit hother => ?_⟩
  by_cases heq : other = id
  · subst heq
    exact ht limit (by simpa [Store.put] using hother)
  · exact h.engine other limit (by simpa [Store.put, heq] using hother)

theorem Limited.closeIdle (h : s.Limited n) (closes : String → Bool) : (s.closeIdle closes).Limited n := by
  refine ⟨h.store, fun id limit hid => ?_⟩
  cases hc : closes id <;> simp only [Store.closeIdle, hc, Bool.false_eq_true, if_true, if_false] at hid
  · exact h.engine id limit hid
  · simp at hid

theorem Limited.step (h : s.Limited n) (hn : 0 < n) {ev : Event} (hev : ev.setsLimit = false) :
    (s.step ev).Limited n := by
  cases ev with
  | setExactFilterLimit m => cases hev
  | setEngineLimit id m => cases hev
  | acquire id opens =>
    have hopen : s.openEngine = n := by rw [openEngine, h.store, if_pos hn]
    rw [Store.step, Store.acquire]
    split
    · exact h
    · split
      · split
        · exact h.put fun limit hl => by rw [← Option.some.inj (Option.some.inj hl), hopen]
        · exact h
      · exact h
  | createTenant id made =>
    rw [Store.step, Store.createTenant]
    split
    · exact h
    · exact h.put (by simp)
  | closeIdle closes => exact h.closeIdle closes
  | deleteTenant id outcome =>
    rw [Store.step]
    unfold Store.deleteTenant
    split
    · exact h
    · split
      · exact h
      · cases outcome with
        | notDiscarded => exact h
        | notMoved => exact h.put (by simp)
        | gone => exact h.put (by simp)
  | close => exact ⟨h.store, h.engine⟩
  | closeEngine id =>
    rw [Store.step]
    split
    · exact h.closeIdle _
    · exact h

theorem Limited.run (h : s.Limited n) (hn : 0 < n) {evs : List Event} (hevs : ∀ ev ∈ evs, ev.setsLimit = false) :
    (s.run evs).Limited n := by
  induction evs generalizing s with
  | nil => exact h
  | cons ev evs ih =>
    obtain ⟨hev, hevs⟩ := List.forall_mem_cons.mp hevs
    exact ih (h.step hn hev) hevs

end Store

section Calls
variable {D F : Type} {f : Store} {s : StoreCalls.Store D}

/-- An open store has the tenants of `s`, and has the same engines open. -/
def Tracks (f : Store) (s : StoreCalls.Store D) : Prop :=
  f.closed = false ∧ ∀ id, (f.tenants id).map Option.isSome =
    (s.base.tenants.lookup id).map fun _ => (s.engines id).isSome

theorem Tracks.acquire [Hnsw.Dist D] (h : Tracks f s) (P : StoreCalls.Setup D F) (env : StoreCalls.Env)
    (id : String) :
    let out := Unwinding.exec (StoreCalls.acquire P env id) s
    Tracks (f.step (.acquire id out.1.isOk)) out.2 := by
  have hat := h.2 (tenantOf id)
  simp only [Store.step, Store.acquire, h.1, if_neg Bool.false_ne_true]
  rcases StoreCalls.acquire_cases P env s id with
    ⟨err, hexec⟩ | ⟨t, ht, ⟨e, he, hexec⟩ | ⟨hnone, e, disk, -, hexec⟩⟩
  · rw [hexec]
    split <;> exact h
  · rw [ht, he] at hat
    obtain ⟨_ | limit, hf, hsome⟩ := Option.map_eq_some_iff.mp hat
    · cases hsome
    · rw [hexec, hf]
      exact h
  · rw [ht, hnone] at hat
    obtain ⟨_ | limit, hf, hsome⟩ := Option.map_eq_some_iff.mp hat
    · rw [hexec, hf]
      refine ⟨h.1, fun other => ?_⟩
      obtain rfl | hid := eq_or_ne other (tenantOf id)
      · simp [Store.put, StoreCalls.withEngine, Except.isOk, Except.toBool, ht]
      · simpa [Store.put, StoreCalls.withEngine, Except.isOk, Except.toBool, hid] using h.2 other
    · cases hsome

end Calls

theorem zero_limit_not_applied :
    ((Store.openStore fun _ => false).run [.setExactFilterLimit 0, .acquire "" true]).tenants defaultTenant =
      some (some 4096) := rfl

/-- A limit applies to every engine that is open after it, whenever it was opened, unless it is 0. -/
theorem limit_applies_iff {n : ℤ} (hn : 0 ≤ n) :
    (∀ found before after, (∀ ev ∈ after, ev.setsLimit = false) → ∀ id limit,
      ((Store.openStore found).run (before ++ .setExactFilterLimit n :: after)).tenants id = some (some limit) →
        limit = n) ↔ 0 < n := by
  constructor
  · intro h
    by_contra hzero
    obtain rfl : n = 0 := by omega
    have hlimit := h (fun _ => false) [] [.acquire "" true] (by simp [Event.setsLimit]) defaultTenant 4096 rfl
    omega
  · intro hpos found before after hafter id limit hid
    rw [Store.run, List.foldl_append, List.foldl_cons] at hid
    exact ((Store.limited_set _ n).run hpos hafter).engine id limit hid

theorem limit_applies_of_ten :
    ((Store.openStore fun _ => false).run [.acquire "" true, .setExactFilterLimit 10, .closeIdle fun _ => true,
      .acquire "" true]).tenants defaultTenant = some (some 10) ∧
    ∀ found before after, (∀ ev ∈ after, ev.setsLimit = false) → ∀ id limit,
      ((Store.openStore found).run (before ++ .setExactFilterLimit 10 :: after)).tenants id = some (some limit) →
        limit = 10 :=
  ⟨rfl, (limit_applies_iff (by decide)).mpr (by decide)⟩

end NuclaDB.FilterLimit
