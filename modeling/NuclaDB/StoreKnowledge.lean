import NuclaDB.StoreLocks

/-!
# What a call on the store knows

An entry that a call has seen with an engine keeps it while the call holds the entry's lock,
or has `mu` for itself and `Close` has not started its loop.
-/

namespace NuclaDB.StoreEngines

open RwLock StoreLocks

section Properties

def isOpen (s : Shared) (t : ℕ) : Bool :=
  match s.engine t with
  | some e => (s.engines[e]?).any fun p => p.2
  | none => false

/-- What acquired tenants are used for: `acquire` has returned them, and they have not been unlocked. -/
def UsesOpen (c : StoreConfig) : Prop :=
  ∀ caller ∈ c.callers, ∀ t, .use t ∈ caller.inside → isOpen c.shared t

instance decidableUsesOpen (c : StoreConfig) : Decidable (UsesOpen c) :=
  decidable_of_iff (∀ caller ∈ c.callers, ∀ l ∈ caller.inside, (match l with
    | .use t => isOpen c.shared t
    | .mu => true) = true) <| by
      refine forall₂_congr fun caller _ => ⟨fun h t ht => h _ ht, fun h l hl => ?_⟩
      cases l with
      | mu => rfl
      | use t => exact h t hl

def OneOpen (s : Shared) : Prop :=
  ∀ (e e' : ℕ) (dir : String), s.engines[e]? = some (dir, true) → s.engines[e']? = some (dir, true) → e = e'

def Panicked (c : StoreConfig) : Prop := ∃ caller ∈ c.callers, caller.code = .panic

instance decidablePanic : (code : StoreCode) → Decidable (code = .panic)
  | .panic => .isTrue rfl
  | .done | .rlock .. | .runlock .. | .lock .. | .unlock .. | .tryLock .. | .access .. | .ask .. | .enter ..
  | .leave .. => .isFalse (by simp)

instance decidablePanicked (c : StoreConfig) : Decidable (Panicked c) :=
  inferInstanceAs (Decidable (∃ caller ∈ c.callers, caller.code = .panic))

end Properties

/-- A log is closed without an error when the entry would keep its engine. -/
def Clean : Query → Answer → Prop
  | .close, a => a ≠ .closeFails
  | .discard, a => a = .ok
  | _, _ => True

def asks : StoreCode → Option Query
  | .ask q _ => some q
  | _ => none

def LogsClose (c : StoreConfig) (ev : ℕ × Answer) : Prop :=
  ∀ q ∈ c.callers[ev.1]?.bind fun caller => asks caller.code, Clean q ev.2

instance decidableClean : (q : Query) → (a : Answer) → Decidable (Clean q a)
  | .close, a => inferInstanceAs (Decidable (a ≠ .closeFails))
  | .discard, a => inferInstanceAs (Decidable (a = .ok))
  | .order, _ | .idle, _ | .open, _ | .remove, _ | .create, _ | .shutdown, _ => .isTrue trivial

instance decidableLogsClose (c : StoreConfig) (ev : ℕ × Answer) : Decidable (LogsClose c ev) :=
  inferInstanceAs (Decidable (∀ q ∈ c.callers[ev.1]?.bind fun caller => asks caller.code, Clean q ev.2))

section Knowledge

inductive Fact
  | nothing
  | opened (t : ℕ)
  | entry (id : String) (t : ℕ)
  | vacant (id : String) (t : ℕ)

namespace Fact

def Holds (s : Shared) : Fact → Prop
  | nothing => True
  | opened t => (s.engine t).isSome
  | entry id t => s.tenants.lookup id = some t
  | vacant id t => s.tenants.lookup id = some t ∧ s.engine t = none

/-- What the call holds keeps the others from changing it. -/
def Lasts (held : Held Lock) (calm : Bool) : Fact → Prop
  | nothing => True
  | opened t => .use t ∈ held.reads ∨ .use t ∈ held.writes ∨ calm
  | entry _ _ => calm
  | vacant _ _ => calm

def Keeps (fact fact' : Fact) : Prop := fact' = nothing ∨ fact' = fact

theorem Keeps.holds {fact fact' : Fact} {s : Shared} (h : fact.Keeps fact') (hfact : fact.Holds s) :
    fact'.Holds s := by
  rcases h with rfl | rfl
  · trivial
  · exact hfact

theorem Keeps.lasts {fact fact' : Fact} {held : Held Lock} {calm : Bool} (h : fact.Keeps fact')
    (hfact : fact.Lasts held calm) : fact'.Lasts held calm := by
  rcases h with rfl | rfl
  · trivial
  · exact hfact

theorem Lasts.mono {fact : Fact} {held held' : Held Lock} {calm : Bool} (h : fact.Lasts held calm)
    (hreads : ∀ l ∈ held.reads, l ∈ held'.reads) (hwrites : ∀ l ∈ held.writes, l ∈ held'.writes) :
    fact.Lasts held' calm := by
  cases fact with
  | opened t => exact h.imp (hreads _) (Or.imp_left (hwrites _))
  | _ => exact h

end Fact

/-- What a call holds, the tenants it has acquired, whether it has closed the store and is in the loop
over the tenants, whether it has `mu` for itself without such a loop, and what it knows. -/
structure Hold where
  held : Held Lock
  inside : List Lock
  closing : Bool
  loop : Bool
  calm : Bool
  fact : Fact

variable (m : Bool)

structure Hold.Wf (γ : Hold) : Prop where
  calm : γ.calm → .mu ∈ γ.held.writes ∧ γ.loop = false
  use : ∀ t, .use t ∈ γ.held.writes → .mu ∈ γ.held.writes ∨ γ.loop
  inside : ∀ l, γ.inside.count l ≤ γ.held.reads.count l
  tenants : .mu ∉ γ.inside
  loop : γ.loop → γ.closing
  closing : γ.closing → m
  fact : γ.fact.Lasts γ.held γ.calm

structure Hold.Known (γ : Hold) (s : Shared) : Prop where
  fact : γ.fact.Holds s
  closing : γ.closing → s.closed
  inside : ∀ t, .use t ∈ γ.inside → (s.engine t).isSome

inductive Change (γ : Hold) (s : Shared) : Shared → Prop
  | same : Change γ s s
  | opens {id t} (h : γ.fact = .vacant id t) : Change γ s (s.openEngine id t)
  | closes {t} (h : .use t ∈ γ.held.writes) : Change γ s ((s.closeEngine t).dropEngine t)
  | leaks {t} (h : .use t ∈ γ.held.writes) (hloop : γ.loop) : Change γ s (s.dropEngine t)
  | shuts : Change γ s { s with closed := true }
  | adds {id} (h : .mu ∈ γ.held.writes) : Change γ s (s.addTenant id)
  | removes {id t} (h : γ.fact = .vacant id t) : Change γ s (s.removeTenant id)

/-- The code goes on as the call's knowledge allows; `p` says whether it may panic. -/
def Safe (p : Prop) : Hold → StoreCode → Prop
  | _, .done => True
  | _, .panic => p
  | γ, .rlock .mu k => γ.calm = false ∧ Safe p { γ with held := γ.held.read .mu, loop := γ.closing } k
  | γ, .rlock (.use t) k => Safe p { γ with held := γ.held.read (.use t) } k
  | γ, .runlock l k => γ.inside.count l < γ.held.reads.count l ∧ ∃ fact, γ.fact.Keeps fact ∧
      fact.Lasts (γ.held.unread l) γ.calm ∧ Safe p { γ with held := γ.held.unread l, fact := fact } k
  | γ, .lock .mu k => Safe p { γ with held := γ.held.write .mu, calm := !m, fact := .nothing } k
  | γ, .lock (.use t) k => (.mu ∈ γ.held.writes ∨ γ.loop) ∧
      Safe p { γ with held := γ.held.write (.use t) } k
  | γ, .unlock .mu k => .mu ∈ γ.held.writes ∧ (∀ t, .use t ∉ γ.held.writes) ∧ ∃ fact,
      γ.fact.Keeps fact ∧ fact.Lasts (γ.held.unwrite .mu) false ∧
        Safe p { γ with held := γ.held.unwrite .mu, calm := false, fact := fact } k
  | γ, .unlock (.use t) k => .use t ∈ γ.held.writes ∧
      Safe p { γ with held := γ.held.unwrite (.use t), fact := .nothing } k
  | _, .tryLock .mu _ _ => False
  | γ, .tryLock (.use t) yes no => .mu ∈ γ.held.writes ∧
      Safe p { γ with held := γ.held.write (.use t) } yes ∧ Safe p { γ with fact := .nothing } no
  | γ, .access f k => ∀ s, γ.fact.Holds s → Change γ s (f s) ∧ ∃ fact closing calm,
      fact.Holds (f s) ∧ fact.Lasts γ.held calm ∧ (closing = γ.closing ∨ closing ∧ (f s).closed ∧ m) ∧
      (calm = γ.calm ∨ s.closed = false ∧ .mu ∈ γ.held.writes) ∧
      Safe p { γ with fact := fact, closing := closing, calm := calm } (k s)
  | γ, .ask q k => ∀ a, Clean q a → ∃ fact, γ.fact.Keeps fact ∧ Safe p { γ with fact := fact } (k a)
  | _, .enter .mu _ => False
  | γ, .enter (.use t) k => γ.fact = .opened t ∧ γ.inside.count (.use t) < γ.held.reads.count (.use t) ∧
      Safe p { γ with inside := .use t :: γ.inside, fact := .nothing } k
  | γ, .leave l k =>
      Safe p { γ with held := γ.held.unread l, inside := γ.inside.erase l, fact := .nothing } k

end Knowledge

section Methods
variable {m : Bool} {p : Prop} {γ : Hold} {k fail : StoreCode} {id : String} {ts : List ℕ}
variable {fact : Fact}

theorem safe_see {k : Shared → StoreCode}
    (h : ∀ s, γ.fact.Holds s → ∃ fact, fact.Holds s ∧ fact.Lasts γ.held γ.calm ∧
      Safe m p { γ with fact := fact } (k s)) : Safe m p γ (look k) := by
  intro s hs
  obtain ⟨fact, hfact, hlasts, hk⟩ := h s hs
  exact ⟨.same, fact, γ.closing, γ.calm, hfact, hlasts, .inl rfl, .inl rfl, hk⟩

theorem safe_look {k : Shared → StoreCode} (hfact : γ.fact = .nothing) (h : ∀ s, Safe m p γ (k s)) :
    Safe m p γ (look k) := by
  refine safe_see fun s _ => ⟨.nothing, trivial, trivial, ?_⟩
  rw [← hfact]
  exact h s

theorem safe_calm {k : StoreCode} (hfact : γ.fact = .nothing) (hmu : .mu ∈ γ.held.writes)
    (hfail : Safe m p γ fail) (hk : Safe m p { γ with calm := true } k) :
    Safe m p γ (look fun s => if s.closed then fail else k) := by
  intro s _
  refine ⟨.same, .nothing, γ.closing, ?_⟩
  dsimp only
  split
  · refine ⟨γ.calm, trivial, trivial, .inl rfl, .inl rfl, ?_⟩
    rw [← hfact]
    exact hfail
  · next hclosed =>
    refine ⟨true, trivial, trivial, .inl rfl, .inr ⟨by simpa using hclosed, hmu⟩, ?_⟩
    rw [← hfact]
    exact hk

theorem safe_ask {q : Query} {k : Answer → StoreCode} (h : ∀ a, Clean q a → Safe m p γ (k a)) :
    Safe m p γ (.ask q k) :=
  fun a ha => ⟨γ.fact, .inr rfl, h a ha⟩

abbrev within (ts : List ℕ) : Hold := ⟨⟨ts.map .use, []⟩, ts.map .use, false, false, false, .nothing⟩

abbrev alone (ts : List ℕ) (calm : Bool) (fact : Fact) : Hold :=
  ⟨⟨ts.map .use, [.mu]⟩, ts.map .use, false, false, calm, fact⟩

theorem safe_unlock {calm : Bool} (hk : Safe m p (within ts) k) :
    Safe m p (alone ts calm fact) (.unlock .mu k) :=
  ⟨by simp, by simp, .nothing, .inl rfl, trivial, by simpa [Held.unwrite] using hk⟩

theorem safe_unlock_done {calm : Bool} : Safe m p (alone [] calm fact) (.unlock .mu .done) :=
  safe_unlock trivial

theorem safe_enter {t : ℕ} (hk : Safe m p (within (t :: ts)) k) :
    Safe m p ⟨⟨.use t :: ts.map .use, []⟩, ts.map .use, false, false, false, .opened t⟩
      (.enter (.use t) k) :=
  ⟨rfl, by simp, hk⟩

theorem safe_taken {t : ℕ} (hk : Safe m p (within (t :: ts)) k) :
    Safe m p (alone ts true (.opened t)) (.rlock (.use t) (.unlock .mu (.enter (.use t) k))) :=
  ⟨by simp [Held.read], by simp [Held.read], .opened t, .inr rfl, .inl (by simp [Held.read, Held.unwrite]), by
    simpa [Held.read, Held.unwrite] using safe_enter hk⟩

theorem safe_acquireSlow {k : ℕ → StoreCode} (hfail : Safe m p (within ts) fail)
    (hk : ∀ t, Safe m p (within (t :: ts)) (k t)) : Safe m p (within ts) (acquireSlow id fail k) := by
  refine safe_calm rfl (by simp [Held.write]) (safe_unlock hfail) (safe_see fun s _ => ?_)
  cases hentry : s.tenants.lookup id with
  | none => exact ⟨.nothing, trivial, trivial, safe_unlock hfail⟩
  | some t =>
    cases hengine : s.engine t with
    | some e =>
      refine ⟨.opened t, by simp [Fact.Holds, hengine], .inr (.inr rfl), ?_⟩
      simp only [hengine, Option.isSome_some, if_true]
      exact safe_taken (hk t)
    | none =>
      refine ⟨.vacant id t, ⟨hentry, hengine⟩, rfl, ?_⟩
      simp only [hengine, Option.isSome_none, Bool.false_eq_true, if_false]
      refine safe_ask fun a _ => ?_
      cases a with
      | ok =>
        intro s _
        refine ⟨.opens rfl, .opened t, false, true, ?_, .inr (.inr rfl), .inl rfl, .inl rfl, ?_⟩
        · simp [Fact.Holds, Shared.openEngine]
        · exact safe_taken (hk t)
      | _ => exact safe_unlock hfail

theorem safe_runlock_mu (hk : Safe m p (within ts) k) :
    Safe m p ⟨⟨.mu :: ts.map .use, []⟩, ts.map .use, false, false, false, fact⟩ (.runlock .mu k) :=
  ⟨by simp, .nothing, .inl rfl, trivial, by simpa [Held.unread] using hk⟩

theorem safe_runlock_done : Safe m p ⟨⟨[.mu], []⟩, [], false, false, false, fact⟩ (.runlock .mu .done) :=
  ⟨by simp, .nothing, .inl rfl, trivial, trivial⟩

theorem safe_acquire {k : ℕ → StoreCode} (hfail : Safe m p (within ts) fail)
    (hk : ∀ t, Safe m p (within (t :: ts)) (k t)) : Safe m p (within ts) (acquire id fail k) := by
  refine safe_look rfl fun s => ?_
  split
  · exact hfail
  · refine ⟨rfl, safe_look rfl fun s => ?_⟩
    split
    · exact safe_runlock_mu hfail
    · next t _ =>
      have hback : ∀ {k fact}, Safe m p (within ts) k → Safe m p
          ⟨⟨.use t :: .mu :: ts.map .use, []⟩, ts.map .use, false, false, false, fact⟩
          (.runlock (.use t) (.runlock .mu k)) := fun hk =>
        ⟨by simp, .nothing, .inl rfl, trivial, by simpa [Held.unread] using safe_runlock_mu hk⟩
      refine safe_look rfl fun s => ?_
      split
      · exact hback hfail
      · refine safe_see fun s _ => ?_
        cases hengine : s.engine t with
        | some e =>
          refine ⟨.opened t, by simp [Fact.Holds, hengine], .inl (by simp [Held.read]), ?_⟩
          simp only [Option.isSome_some, if_true]
          refine ⟨by simp [Held.read], .opened t, .inr rfl, .inl (by simp [Held.read, Held.unread]), ?_⟩
          simpa [Held.read, Held.unread] using safe_enter (hk t)
        | none =>
          refine ⟨.nothing, trivial, trivial, ?_⟩
          simp only [Option.isSome_none, Bool.false_eq_true, if_false]
          exact hback (safe_acquireSlow hfail hk)

theorem safe_leaveAll (ts : List ℕ) (γ : Hold) : Safe m p γ (leaveAll ts) := by
  induction ts generalizing γ with
  | nil => trivial
  | cons t ts ih => exact ih _

theorem safe_insertBatches (ids : List String) (ts : List ℕ) :
    Safe m p (within ts) (insertBatches ids ts) := by
  induction ids generalizing ts with
  | nil => exact safe_leaveAll ts _
  | cons id ids ih => exact safe_acquire (safe_leaveAll ts _) fun t => ih (t :: ts)

theorem safe_createTenant : Safe m p (within []) (createTenant id) := by
  refine safe_look rfl fun s => ?_
  split
  · trivial
  · refine safe_calm rfl (by simp [Held.write]) (safe_unlock_done) (safe_look rfl fun s => ?_)
    split
    · exact safe_unlock_done
    · refine safe_ask fun a _ => ?_
      cases a with
      | ok =>
        intro s _
        refine ⟨.adds (by simp [Held.write]), .nothing, false, true, trivial, trivial, .inl rfl,
          Or.inl rfl, ?_⟩
        exact safe_unlock_done
      | _ => exact safe_unlock_done

theorem safe_setQuota : Safe m p (within []) setQuota := by
  refine safe_look rfl fun s => ?_
  split
  · trivial
  · exact safe_unlock_done

theorem safe_indexOf : Safe m p (within []) indexOf := ⟨rfl, safe_runlock_done⟩

abbrev owner (t : ℕ) (calm : Bool) (fact : Fact) : Hold :=
  ⟨⟨[], [.use t, .mu]⟩, [], false, false, calm, fact⟩

theorem safe_unlock_use {t : ℕ} {calm : Bool} (hk : Safe m p (alone [] calm .nothing) k) :
    Safe m p (owner t calm fact) (.unlock (.use t) k) :=
  ⟨by simp, by simpa [Held.unwrite, alone] using hk⟩

theorem safe_deleteTenant : Safe m p (within []) (deleteTenant id) := by
  refine safe_look rfl fun s => ?_
  split
  · trivial
  · split
    · trivial
    · refine safe_calm rfl (by simp [Held.write]) (safe_unlock_done) (safe_see fun s _ => ?_)
      cases hentry : s.tenants.lookup id with
      | none => exact ⟨.nothing, trivial, trivial, safe_unlock_done⟩
      | some t =>
        have hfinish : ∀ {fact}, Safe m p (owner t true fact) (.unlock (.use t) (.unlock .mu .done)) :=
          safe_unlock_use (safe_unlock_done)
        dsimp only
        generalize hk : Code.ask Query.remove _ = remove
        have hremove : Safe m p (owner t true (.vacant id t)) remove := by
          rw [← hk]
          refine safe_ask fun a _ => ?_
          cases a with
          | ok =>
            intro s _
            exact ⟨.removes rfl, .nothing, false, true, trivial, trivial, .inl rfl, .inl rfl, hfinish⟩
          | _ => exact hfinish
        refine ⟨.entry id t, hentry, rfl, .inl (by simp [Held.write]), safe_see fun s hs => ?_⟩
        cases hengine : s.engine t with
        | some e =>
          refine ⟨.entry id t, hs, rfl, safe_ask fun a ha => ?_⟩
          obtain rfl : a = .ok := ha
          intro s hs
          refine ⟨.closes (by simp [Held.write]), .vacant id t, false, true, ?_, rfl, .inl rfl,
            Or.inl rfl, hremove⟩
          refine ⟨?_, Function.update_self ..⟩
          simp only [Shared.dropEngine, Shared.closeEngine_tenants]
          exact hs
        | none => exact ⟨.vacant id t, ⟨hs, hengine⟩, rfl, hremove⟩

theorem safe_rangeTenants {k : List ℕ → StoreCode} (hfact : γ.fact = .nothing)
    (h : ∀ ts, Safe m p γ (k ts)) : Safe m p γ (rangeTenants k) :=
  safe_look hfact fun _ => safe_ask fun _ _ => h _

theorem safe_foldr {body : ℕ → StoreCode → StoreCode}
    (hbody : ∀ t k, Safe m p γ k → Safe m p γ (body t k)) (hk : Safe m p γ k) (ts : List ℕ) :
    Safe m p γ (ts.foldr body k) := by
  induction ts with
  | nil => exact hk
  | cons t ts ih => exact hbody t _ ih

theorem safe_forTenants {body : ℕ → StoreCode → StoreCode} (hfact : γ.fact = .nothing)
    (hbody : ∀ t k, Safe m p γ k → Safe m p γ (body t k)) (hk : Safe m p γ k) :
    Safe m p γ (forTenants body k) :=
  safe_rangeTenants hfact (safe_foldr hbody hk)

theorem safe_closeIfIdle (hp : m → p) (t : ℕ) (hk : Safe m p (alone [] (!m) .nothing) k) :
    Safe m p (alone [] (!m) .nothing) (closeIfIdle t k) := by
  have hunlock : ∀ {fact}, Safe m p (owner t (!m) fact) (.unlock (.use t) k) := safe_unlock_use hk
  refine safe_see fun s _ => ?_
  split
  · exact ⟨.nothing, trivial, trivial, hk⟩
  · next hsome =>
    have hseen : ∃ fact : Fact, fact.Holds s ∧ fact.Lasts ⟨[], [.mu]⟩ (!m) ∧
        ∀ s, fact.Holds s → s.engine t = none → p := by
      cases m with
      | true => exact ⟨.nothing, trivial, trivial, fun _ _ _ => hp rfl⟩
      | false =>
        refine ⟨.opened t, by simpa [Fact.Holds, Option.isSome_iff_ne_none] using hsome, .inr (.inr rfl), ?_⟩
        intro s hs hnone
        simp [Fact.Holds, hnone] at hs
    obtain ⟨fact, hfact, hlasts, hpanic⟩ := hseen
    refine ⟨fact, hfact, hlasts, fun a _ => ?_⟩
    cases a with
    | ok =>
      refine ⟨fact, .inr rfl, by simp, safe_see fun s hs => ⟨.nothing, trivial, trivial, ?_⟩, hk⟩
      split
      · next hnone => exact hpanic s hs (by simpa using hnone)
      · refine safe_ask fun a ha => ?_
        cases a with
        | ok =>
          intro s _
          exact ⟨.closes (by simp [Held.write]), .nothing, false, !m, trivial, trivial, .inl rfl,
            Or.inl rfl, hunlock⟩
        | closeFails => exact absurd rfl ha
        | _ => exact hunlock
    | _ => exact ⟨.nothing, .inl rfl, hk⟩

theorem safe_closeIdle (hp : m → p) : Safe m p (within []) closeIdle :=
  safe_forTenants rfl (fun t _ => safe_closeIfIdle hp t) (safe_unlock_done)

theorem safe_setExactFilterLimit : Safe m p (within []) setExactFilterLimit := by
  refine safe_forTenants rfl (fun t k hk => ?_) (safe_unlock_done)
  exact ⟨by simp [Held.read], .nothing, .inl rfl, trivial, by simpa [Held.read, Held.unread] using hk⟩

theorem safe_allStats : Safe m p (within []) allStats := by
  refine ⟨rfl, safe_forTenants rfl (fun t k hk => ?_) (safe_runlock_done)⟩
  exact ⟨by simp [Held.read], .nothing, .inl rfl, trivial, by simpa [Held.read, Held.unread] using hk⟩

theorem safe_openTenants {reads inside : List Lock} (hmu : .mu ∉ inside)
    (hinside : ∀ l, inside.count l ≤ reads.count l) (hreads : .mu ∈ reads) (out : List ℕ) :
    Safe m p ⟨⟨reads, []⟩, inside, false, false, false, .nothing⟩ (openTenants ts out) := by
  induction ts generalizing reads inside out with
  | nil =>
    refine ⟨?_, .nothing, .inl rfl, trivial, safe_leaveAll out _⟩
    rw [List.count_eq_zero.mpr hmu]
    exact List.count_pos_iff.mpr hreads
  | cons t ts ih =>
    have hless : inside.count (.use t) < (Lock.use t :: reads).count (.use t) := by
      rw [List.count_cons_self]
      exact Nat.lt_succ_of_le (hinside _)
    refine safe_see fun s _ => ?_
    cases hengine : s.engine t with
    | none =>
      refine ⟨.nothing, trivial, trivial, hless, .nothing, .inl rfl, trivial, ?_⟩
      simpa [Held.read, Held.unread] using ih hmu hinside hreads out
    | some e =>
      refine ⟨.opened t, by simp [Fact.Holds, hengine], .inl (by simp [Held.read]), rfl, hless, ?_⟩
      apply ih
      · simpa using hmu
      · intro l
        rw [List.count_cons, List.count_cons]
        exact Nat.add_le_add_right (hinside l) _
      · exact List.mem_cons_of_mem _ hreads

theorem safe_snapshot : Safe m p (within []) snapshot := by
  refine safe_look rfl fun s => ?_
  split
  · trivial
  · exact ⟨rfl, safe_rangeTenants rfl fun ts =>
      safe_openTenants (by simp) (by simp) (by simp) []⟩

theorem safe_shutdown (t : ℕ) (hk : Safe m p ⟨⟨[], []⟩, [], true, true, false, .nothing⟩ k) :
    Safe m p ⟨⟨[], []⟩, [], true, true, false, .nothing⟩ (shutdown t k) := by
  have hunlock : Safe m p ⟨⟨[], [.use t]⟩, [], true, true, false, .nothing⟩ (.unlock (.use t) k) :=
    ⟨by simp, by simpa [Held.unwrite] using hk⟩
  refine ⟨.inr rfl, safe_look rfl fun s => ?_⟩
  split
  · exact hunlock
  · refine safe_ask fun a _ => ?_
    cases a with
    | fails =>
      intro s _
      exact ⟨.leaks (by simp [Held.write]) rfl, .nothing, true, false, trivial, trivial, .inl rfl,
        Or.inl rfl, hunlock⟩
    | _ =>
      intro s _
      exact ⟨.closes (by simp [Held.write]), .nothing, true, false, trivial, trivial, .inl rfl,
        Or.inl rfl, hunlock⟩

theorem safe_close (hm : m) : Safe m p (within []) close := by
  intro s _
  refine ⟨.shuts, .nothing, true, false, trivial, trivial, .inr ⟨rfl, rfl, hm⟩, .inl rfl, ?_⟩
  dsimp only
  split
  · trivial
  · refine ⟨rfl, safe_rangeTenants rfl fun ts => ⟨by simp [Held.read], .nothing, .inl rfl, trivial, ?_⟩⟩
    apply safe_foldr fun t _ => safe_shutdown t
    trivial

theorem Call.safe {call : Call} (hclose : call = .close → m) (hidle : call = .closeIdle → m → p) :
    Safe m p (within []) call.code := by
  cases call with
  | insertBatches ids => exact safe_insertBatches ids []
  | createTenant id => exact safe_createTenant
  | setQuota => exact safe_setQuota
  | indexOf => exact safe_indexOf
  | deleteTenant id => exact safe_deleteTenant
  | closeIdle => exact safe_closeIdle (hidle rfl)
  | setExactFilterLimit => exact safe_setExactFilterLimit
  | allStats => exact safe_allStats
  | snapshot => exact safe_snapshot
  | close => exact safe_close (hclose rfl)

end Methods

end NuclaDB.StoreEngines
