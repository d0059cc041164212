import Mathlib.Data.List.Permutation
import NuclaDB.RwLock

/-!
# The locks of the store

Every `Store` method as its sequence of lock steps. Entries of the tenant map are numbered
in the order of their creation, engines in the order in which they were opened.
-/

namespace NuclaDB.StoreLocks

open RwLock List

inductive Lock
  | mu
  | use (t : ℕ)
deriving DecidableEq

structure Shared where
  closed : Bool
  tenants : List (String × ℕ)
  made : ℕ
  engine : ℕ → Option ℕ
  engines : List (String × Bool)

namespace Shared

variable (s : Shared)

def addTenant (id : String) : Shared :=
  { s with tenants := s.tenants ++ [(id, s.made)], made := s.made + 1 }

def removeTenant (id : String) : Shared :=
  { s with tenants := s.tenants.filter fun e => e.1 ≠ id }

/-- An engine is recorded with its directory and whether its log is open. -/
def openEngine (id : String) (t : ℕ) : Shared :=
  { s with
    engine := Function.update s.engine t (some s.engines.length)
    engines := s.engines ++ [(id, true)] }

def closeEngine (t : ℕ) : Shared :=
  match s.engine t with
  | some e => { s with engines := s.engines.modify e fun p => (p.1, false) }
  | none => s

def dropEngine (t : ℕ) : Shared := { s with engine := Function.update s.engine t none }

end Shared

inductive Query
  | order
  | idle
  | open
  | close
  | discard
  | remove
  | create
  | shutdown

/-- `closeFails` is an error of the last step of `Engine.Close`, when the log is marked closed. -/
inductive Answer
  | ok
  | fails
  | closeFails
  | order (n : ℕ)
deriving DecidableEq

def Answer.arrange (ts : List ℕ) : Answer → List ℕ
  | .order n => ts.permutations.getD n ts
  | _ => ts

abbrev StoreCode := Code Lock Shared Query Answer

section Methods

def look (k : Shared → StoreCode) : StoreCode := .access (fun s => s) k

variable (id : String)

def resolve : String := if id = "" then "default" else id

def acquireSlow (fail : StoreCode) (k : ℕ → StoreCode) : StoreCode :=
  .lock .mu <| look fun s =>
    if s.closed then .unlock .mu fail
    else look fun s =>
      match s.tenants.lookup id with
      | none => .unlock .mu fail
      | some t =>
        let taken := Code.rlock (Lock.use t) (.unlock .mu (.enter (.use t) (k t)))
        if (s.engine t).isSome then taken
        else .ask .open fun
          | .ok => .access (fun s => s.openEngine id t) fun _ => taken
          | _ => .unlock .mu fail

def acquire (fail : StoreCode) (k : ℕ → StoreCode) : StoreCode :=
  look fun s =>
    if s.closed then fail
    else .rlock .mu <| look fun s =>
      match s.tenants.lookup (resolve id) with
      | none => .runlock .mu fail
      | some t => .rlock (.use t) <| look fun s =>
        if s.closed then .runlock (.use t) (.runlock .mu fail)
        else look fun s =>
          if (s.engine t).isSome then .runlock .mu (.enter (.use t) (k t))
          else .runlock (.use t) (.runlock .mu (acquireSlow (resolve id) fail k))

def leaveAll (held : List ℕ) : StoreCode := held.foldr (fun t k => .leave (.use t) k) .done

/-- The deferred unlocks are done last first. A call on one tenant is a batch of one. -/
def insertBatches : List String → List ℕ → StoreCode
  | [], held => leaveAll held
  | id :: ids, held => acquire id (leaveAll held) fun t => insertBatches ids (t :: held)

def createTenant : StoreCode :=
  look fun s =>
    if s.closed then .done
    else .lock .mu <| look fun s =>
      if s.closed then .unlock .mu .done
      else look fun s =>
        match s.tenants.lookup id with
        | some _ => .unlock .mu .done
        | none => .ask .create fun
          | .ok => .access (fun s => s.addTenant id) fun _ => .unlock .mu .done
          | _ => .unlock .mu .done

def setQuota : StoreCode :=
  look fun s => if s.closed then .done else .lock .mu (.unlock .mu .done)

def indexOf : StoreCode := .rlock .mu (.runlock .mu .done)

def deleteTenant : StoreCode :=
  look fun s =>
    if s.closed then .done
    else if id = "" ∨ id = "default" then .done
    else .lock .mu <| look fun s =>
      if s.closed then .unlock .mu .done
      else look fun s =>
        match s.tenants.lookup id with
        | none => .unlock .mu .done
        | some t =>
          let finish := Code.unlock (Lock.use t) (.unlock .mu .done)
          let remove := Code.ask Query.remove fun
            | .ok => .access (fun s => s.removeTenant id) fun _ => finish
            | _ => finish
          .lock (.use t) <| look fun s =>
            if (s.engine t).isSome then .ask .discard fun
              | .ok => .access (fun s => (s.closeEngine t).dropEngine t) fun _ => remove
              | _ => .access (fun s => s.closeEngine t) fun _ => finish
            else remove

def rangeTenants (k : List ℕ → StoreCode) : StoreCode :=
  look fun s => .ask .order fun a => k (a.arrange (s.tenants.map (·.2)))

def forTenants (body : ℕ → StoreCode → StoreCode) (k : StoreCode) : StoreCode :=
  rangeTenants fun ts => ts.foldr body k

def closeIfIdle (t : ℕ) (k : StoreCode) : StoreCode :=
  look fun s =>
    if (s.engine t).isNone then k
    else .ask .idle fun
      | .ok => .tryLock (.use t)
        (look fun s =>
          if (s.engine t).isNone then .panic
          else .ask .close fun
            | .ok => .access (fun s => (s.closeEngine t).dropEngine t) fun _ => .unlock (.use t) k
            | .closeFails => .access (fun s => s.closeEngine t) fun _ => .unlock (.use t) k
            | _ => .unlock (.use t) k)
        k
      | _ => k

def closeIdle : StoreCode := .lock .mu (forTenants closeIfIdle (.unlock .mu .done))

def readEngine (t : ℕ) (k : StoreCode) : StoreCode := .rlock (.use t) (.runlock (.use t) k)

def setExactFilterLimit : StoreCode := .lock .mu (forTenants readEngine (.unlock .mu .done))

def allStats : StoreCode := .rlock .mu (forTenants readEngine (.runlock .mu .done))

def openTenants : List ℕ → List ℕ → StoreCode
  | [], out => .runlock .mu (leaveAll out)
  | t :: ts, out => .rlock (.use t) <| look fun s =>
    if (s.engine t).isNone then .runlock (.use t) (openTenants ts out)
    else .enter (.use t) (openTenants ts (out ++ [t]))

def snapshot : StoreCode :=
  look fun s =>
    if s.closed then .done
    else .rlock .mu <| rangeTenants fun ts => openTenants ts []

/-- A failed snapshot leaves the log open, and the engine is given up all the same. -/
def shutdown (t : ℕ) (k : StoreCode) : StoreCode :=
  .lock (.use t) <| look fun s =>
    if (s.engine t).isNone then .unlock (.use t) k
    else .ask .shutdown fun
      | .fails => .access (fun s => s.dropEngine t) fun _ => .unlock (.use t) k
      | _ => .access (fun s => (s.closeEngine t).dropEngine t) fun _ => .unlock (.use t) k

def close : StoreCode :=
  .access (fun s => { s with closed := true }) fun s =>
    if s.closed then .done
    else .rlock .mu <| rangeTenants fun ts => .runlock .mu (ts.foldr shutdown .done)

end Methods

inductive Call
  | insertBatches (ids : List String)
  | createTenant (id : String)
  | setQuota
  | indexOf
  | deleteTenant (id : String)
  | closeIdle
  | setExactFilterLimit
  | allStats
  | snapshot
  | close

def Call.code : Call → StoreCode
  | .insertBatches ids => StoreLocks.insertBatches ids []
  | .createTenant id => StoreLocks.createTenant id
  | .setQuota => StoreLocks.setQuota
  | .indexOf => StoreLocks.indexOf
  | .deleteTenant id => StoreLocks.deleteTenant id
  | .closeIdle => StoreLocks.closeIdle
  | .setExactFilterLimit => StoreLocks.setExactFilterLimit
  | .allStats => StoreLocks.allStats
  | .snapshot => StoreLocks.snapshot
  | .close => StoreLocks.close

abbrev StoreConfig := Config Lock Shared Query Answer

def start (ids : List String) (calls : List Call) : StoreConfig :=
  ⟨fun _ => RW.unlocked, ⟨false, ids.zipIdx, ids.length, fun _ => none, []⟩,
    calls.map fun call => ⟨call.code, []⟩⟩

section Entries

structure Shared.Wf (s : Shared) : Prop where
  nodup : (s.tenants.map (·.2)).Nodup
  made : ∀ t ∈ s.tenants.map (·.2), t < s.made

namespace Shared.Wf

variable {s : Shared}

theorem addTenant (h : s.Wf) (id : String) : (s.addTenant id).Wf := by
  simp only [Shared.addTenant]
  constructor
  · simp only [map_append, map_cons, map_nil]
    refine nodup_append.mpr ⟨h.nodup, nodup_singleton _, ?_⟩
    rintro t ht u hu rfl
    exact absurd (h.made t ht) (by simp_all)
  · intro t ht
    simp only [map_append, map_cons, map_nil, mem_append, mem_singleton] at ht
    rcases ht with ht | rfl
    · exact Nat.lt_succ_of_lt (h.made t ht)
    · exact Nat.lt_succ_self _

theorem removeTenant (h : s.Wf) (id : String) : (s.removeTenant id).Wf := by
  have hsub : (s.tenants.filter fun e => e.1 ≠ id).Sublist s.tenants := filter_sublist
  exact ⟨(hsub.map _).nodup h.nodup, fun t ht => h.made t ((hsub.map _).subset ht)⟩

theorem closeEngine (h : s.Wf) (t : ℕ) : (s.closeEngine t).Wf := by
  simp only [Shared.closeEngine]
  split
  · exact ⟨h.nodup, h.made⟩
  · exact h

theorem dropEngine (h : s.Wf) (t : ℕ) : (s.dropEngine t).Wf := ⟨h.nodup, h.made⟩

end Shared.Wf

theorem Shared.closeEngine_closed (s : Shared) (t : ℕ) : (s.closeEngine t).closed = s.closed := by
  simp only [Shared.closeEngine]
  split <;> rfl

theorem Shared.closeEngine_tenants (s : Shared) (t : ℕ) : (s.closeEngine t).tenants = s.tenants := by
  simp only [Shared.closeEngine]
  split <;> rfl

theorem Shared.closeEngine_engine (s : Shared) (t : ℕ) : (s.closeEngine t).engine = s.engine := by
  simp only [Shared.closeEngine]
  split <;> rfl

theorem Answer.arrange_perm (a : Answer) (ts : List ℕ) : (a.arrange ts).Perm ts := by
  cases a with
  | order n =>
    simp only [arrange, getD_eq_getElem?_getD]
    cases h : ts.permutations[n]? with
    | none => exact List.Perm.refl _
    | some us => exact mem_permutations.mp (mem_of_getElem? h)
  | _ => exact List.Perm.refl _

end Entries

end NuclaDB.StoreLocks
