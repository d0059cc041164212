import NuclaDB.EventRun
import NuclaDB.StoreLocks

/-!
# The order of the store's locks

Calls on one tenant at a time take the locks in an order. `InsertBatches` on two tenants asks
for `mu` with the first tenant's lock in its hands.
-/

namespace NuclaDB.StoreLocks

open RwLock EventRun Function List

section Discipline

structure Ghost where
  held : Held Lock
  closer : Bool

namespace Ghost

variable (g : Ghost)

@[simp] def read (l : Lock) : Ghost := ⟨⟨l :: g.held.reads, g.held.writes⟩, g.closer⟩

@[simp] def unread (l : Lock) : Ghost := ⟨⟨g.held.reads.erase l, g.held.writes⟩, g.closer⟩

@[simp] def write (l : Lock) : Ghost := ⟨⟨g.held.reads, l :: g.held.writes⟩, g.closer⟩

@[simp] def unwrite (l : Lock) : Ghost := ⟨⟨g.held.reads, g.held.writes.erase l⟩, g.closer⟩

def NoTenant : Prop := ∀ t, .use t ∉ g.held.writes

end Ghost

/-- The order of the locks: `mu` with nothing held, a tenant's lock for reading under `mu`, and for
writing without another tenant's lock, by a call that has `mu` for itself or closes the store. -/
@[grind] def Ordered : Ghost → StoreCode → Prop
  | g, .done => g.held = .nothing
  | _, .panic => True
  | g, .rlock .mu k => g.held = .nothing ∧ Ordered (g.read .mu) k
  | g, .rlock (.use t) k => (.mu ∈ g.held.reads ∨ .mu ∈ g.held.writes) ∧ .use t ∉ g.held.reads ∧
      g.NoTenant ∧ Ordered (g.read (.use t)) k
  | g, .runlock l k => Ordered (g.unread l) k
  | g, .lock .mu k => g.held = .nothing ∧ Ordered (g.write .mu) k
  | g, .lock (.use t) k => g.held.reads = [] ∧ g.NoTenant ∧ (.mu ∈ g.held.writes ∨ g.closer) ∧
      Ordered (g.write (.use t)) k
  | g, .unlock l k => l ∈ g.held.writes ∧ Ordered (g.unwrite l) k
  | g, .tryLock l yes no => Ordered (g.write l) yes ∧ Ordered g no
  | g, .access f k => ∀ s : Shared, s.Wf → (f s).Wf ∧ (s.closed → (f s).closed) ∧
      Ordered ⟨g.held, g.closer || (!s.closed && (f s).closed)⟩ (k s)
  | g, .ask _ k => ∀ a, Ordered g (k a)
  | g, .enter _ k => Ordered g k
  | g, .leave l k => Ordered (g.unread l) k

section Methods
variable {g : Ghost} {b : Bool} {id : String} {fail k : StoreCode}

abbrev idle (b : Bool) : Ghost := ⟨⟨[], []⟩, b⟩

theorem ordered_look {k : Shared → StoreCode} (h : ∀ s : Shared, s.Wf → Ordered g (k s)) :
    Ordered g (look k) := by
  intro s hs
  refine ⟨hs, fun hc => hc, ?_⟩
  rw [Bool.not_and_self, Bool.or_false]
  exact h s hs

theorem ordered_access {f : Shared → Shared} (hwf : ∀ s : Shared, s.Wf → (f s).Wf)
    (hclosed : ∀ s, (f s).closed = s.closed) (h : Ordered g k) : Ordered g (.access f fun _ => k) := by
  intro s hs
  refine ⟨hwf s hs, fun hc => (hclosed s).trans hc, ?_⟩
  rw [hclosed, Bool.not_and_self, Bool.or_false]
  exact h

theorem ordered_acquireSlow {k : ℕ → StoreCode} (hfail : Ordered (idle b) fail)
    (hk : ∀ t, Ordered ⟨⟨[.use t], []⟩, b⟩ (k t)) : Ordered (idle b) (acquireSlow id fail k) := by
  have hfail' : Ordered ⟨⟨[], [.mu]⟩, b⟩ (.unlock .mu fail) := ⟨by simp, hfail⟩
  refine ⟨rfl, ordered_look fun s _ => ?_⟩
  split
  · exact hfail'
  · refine ordered_look fun s _ => ?_
    split
    · exact hfail'
    · next t _ =>
      have htaken : Ordered ⟨⟨[], [.mu]⟩, b⟩ (.rlock (.use t) (.unlock .mu (.enter (.use t) (k t)))) :=
        ⟨.inr (by simp), by simp, by simp [Ghost.NoTenant], by simp, hk t⟩
      dsimp only
      split
      · exact htaken
      · intro a
        cases a with
        | ok => exact ordered_access (fun s hs => ⟨hs.nodup, hs.made⟩) (fun _ => rfl) htaken
        | _ => exact hfail'

theorem ordered_acquire {k : ℕ → StoreCode} (hfail : Ordered (idle b) fail)
    (hk : ∀ t, Ordered ⟨⟨[.use t], []⟩, b⟩ (k t)) : Ordered (idle b) (acquire id fail k) := by
  refine ordered_look fun s _ => ?_
  split
  · exact hfail
  · refine ⟨rfl, ordered_look fun s _ => ?_⟩
    split
    · exact hfail
    · next t _ =>
      refine ⟨.inl (by simp), by simp, by simp [Ghost.NoTenant], ordered_look fun s _ => ?_⟩
      split
      · simpa [Ordered] using hfail
      · refine ordered_look fun s _ => ?_
        split
        · simpa [Ordered] using hk t
        · have hslow : Ordered (idle b) (acquireSlow (resolve id) fail k) := ordered_acquireSlow hfail hk
          simpa [Ordered] using hslow

theorem ordered_leaveAll {reads : List Lock} {ts : List ℕ} (h : reads.Perm (ts.map .use)) :
    Ordered ⟨⟨reads, []⟩, b⟩ (leaveAll ts) := by
  induction ts generalizing reads with
  | nil =>
    obtain rfl := h.eq_nil
    rfl
  | cons t ts ih =>
    apply ih
    simpa using h.erase (.use t)

theorem ordered_insertBatches {ids : List String} (h : ids.length ≤ 1) :
    Ordered (idle b) (insertBatches ids []) := by
  match ids with
  | [] => exact ordered_leaveAll (.refl _)
  | [id] => exact ordered_acquire (ordered_leaveAll (.refl _)) fun t => ordered_leaveAll (.refl [Lock.use t])

theorem ordered_unlock : Ordered ⟨⟨[], [.mu]⟩, b⟩ (.unlock .mu .done) :=
  ⟨by simp, by simp [Ordered, Held.nothing]⟩

theorem ordered_createTenant : Ordered (idle b) (createTenant id) := by
  refine ordered_look fun s _ => ?_
  split
  · rfl
  · refine ⟨rfl, ordered_look fun s _ => ?_⟩
    split
    · exact ordered_unlock
    · refine ordered_look fun s _ => ?_
      split
      · exact ordered_unlock
      · intro a
        cases a with
        | ok => exact ordered_access (fun s hs => hs.addTenant id) (fun _ => rfl) ordered_unlock
        | _ => exact ordered_unlock

theorem ordered_setQuota : Ordered (idle b) setQuota := by
  refine ordered_look fun s _ => ?_
  split
  · rfl
  · exact ⟨rfl, ordered_unlock⟩

theorem ordered_indexOf : Ordered (idle b) indexOf := ⟨rfl, by simp [Ordered, Held.nothing]⟩

theorem ordered_deleteTenant : Ordered (idle b) (deleteTenant id) := by
  refine ordered_look fun s _ => ?_
  split
  · rfl
  · split
    · rfl
    · refine ⟨rfl, ordered_look fun s _ => ?_⟩
      split
      · exact ordered_unlock
      · refine ordered_look fun s _ => ?_
        split
        · exact ordered_unlock
        · next t _ =>
          have hfinish : Ordered ⟨⟨[], [.use t, .mu]⟩, b⟩ (.unlock (.use t) (.unlock .mu .done)) :=
            ⟨by simp, by simpa using ordered_unlock⟩
          refine ⟨rfl, by simp [Ghost.NoTenant], .inl (by simp), ordered_look fun s _ => ?_⟩
          generalize hk : Code.ask Query.remove _ = remove
          have hremove : Ordered ⟨⟨[], [.use t, .mu]⟩, b⟩ remove := by
            rw [← hk]
            intro a
            cases a with
            | ok => exact ordered_access (fun s hs => hs.removeTenant id) (fun _ => rfl) hfinish
            | _ => exact hfinish
          split
          · intro a
            cases a with
            | ok =>
              exact ordered_access (fun s hs => (hs.closeEngine t).dropEngine t)
                (fun s => s.closeEngine_closed t) hremove
            | _ =>
              exact ordered_access (fun s hs => hs.closeEngine t) (fun s => s.closeEngine_closed t)
                hfinish
          · exact hremove

theorem ordered_rangeTenants {k : List ℕ → StoreCode} (h : ∀ ts : List ℕ, ts.Nodup → Ordered g (k ts)) :
    Ordered g (rangeTenants k) := by
  refine ordered_look fun s hs a => h _ ?_
  exact (a.arrange_perm _).nodup_iff.mpr hs.nodup

theorem ordered_foldr {body : ℕ → StoreCode → StoreCode}
    (hbody : ∀ t k, Ordered g k → Ordered g (body t k)) (hk : Ordered g k) (ts : List ℕ) :
    Ordered g (ts.foldr body k) := by
  induction ts with
  | nil => exact hk
  | cons t ts ih => exact hbody t _ ih

theorem ordered_forTenants {body : ℕ → StoreCode → StoreCode}
    (hbody : ∀ t k, Ordered g k → Ordered g (body t k)) (hk : Ordered g k) :
    Ordered g (forTenants body k) :=
  ordered_rangeTenants fun ts _ => ordered_foldr hbody hk ts

theorem ordered_closeIfIdle (t : ℕ) (hk : Ordered ⟨⟨[], [.mu]⟩, b⟩ k) :
    Ordered ⟨⟨[], [.mu]⟩, b⟩ (closeIfIdle t k) := by
  have hunlock : Ordered ⟨⟨[], [.use t, .mu]⟩, b⟩ (.unlock (.use t) k) := ⟨by simp, by simpa using hk⟩
  refine ordered_look fun s _ => ?_
  split
  · exact hk
  · intro a
    cases a with
    | ok =>
      refine ⟨ordered_look fun s _ => ?_, hk⟩
      split
      · trivial
      · intro a
        cases a with
        | ok =>
          exact ordered_access (fun s hs => (hs.closeEngine t).dropEngine t)
            (fun s => s.closeEngine_closed t) hunlock
        | closeFails =>
          exact ordered_access (fun s hs => hs.closeEngine t) (fun s => s.closeEngine_closed t) hunlock
        | _ => exact hunlock
    | _ => exact hk

theorem ordered_closeIdle : Ordered (idle b) closeIdle :=
  ⟨rfl, ordered_forTenants (fun t _ => ordered_closeIfIdle t) ordered_unlock⟩

theorem ordered_setExactFilterLimit : Ordered (idle b) setExactFilterLimit := by
  refine ⟨rfl, ordered_forTenants (fun t k hk => ?_) ordered_unlock⟩
  exact ⟨.inr (by simp), by simp, by simp [Ghost.NoTenant], by simpa [Ordered] using hk⟩

theorem ordered_allStats : Ordered (idle b) allStats := by
  refine ⟨rfl, ordered_forTenants (fun t k hk => ?_) (by simp [Ordered, Held.nothing])⟩
  exact ⟨.inl (by simp), by simp, by simp [Ghost.NoTenant], by simpa [Ordered] using hk⟩

theorem ordered_openTenants {ts out : List ℕ} {reads : List Lock} (hnodup : ts.Nodup)
    (hnew : ∀ t ∈ ts, .use t ∉ reads) (hreads : reads.Perm (.mu :: out.map .use)) :
    Ordered ⟨⟨reads, []⟩, b⟩ (openTenants ts out) := by
  induction ts generalizing reads out with
  | nil =>
    apply ordered_leaveAll
    simpa using hreads.erase .mu
  | cons t ts ih =>
    obtain ⟨hfirst, hnodup⟩ := nodup_cons.mp hnodup
    obtain ⟨ht, hnew⟩ := forall_mem_cons.mp hnew
    refine ⟨.inl (hreads.mem_iff.mpr (by simp)), ht, by simp [Ghost.NoTenant], ordered_look fun s _ => ?_⟩
    split
    · have hsame := ih hnodup hnew hreads
      simpa [Ordered] using hsame
    · apply ih hnodup
      · intro u hu
        have hne : u ≠ t := fun heq => hfirst (heq ▸ hu)
        simpa [hne] using hnew u hu
      · simp only [map_append, map_cons, map_nil]
        exact (hreads.cons _).trans (List.Perm.swap _ _ _ |>.trans ((perm_append_singleton _ _).symm.cons _))

theorem ordered_snapshot : Ordered (idle b) snapshot := by
  refine ordered_look fun s _ => ?_
  split
  · rfl
  · exact ⟨rfl, ordered_rangeTenants fun ts hts => ordered_openTenants hts (by simp) (.refl _)⟩

theorem ordered_shutdown (t : ℕ) (hk : Ordered (idle true) k) : Ordered (idle true) (shutdown t k) := by
  have hunlock : Ordered ⟨⟨[], [.use t]⟩, true⟩ (.unlock (.use t) k) := ⟨by simp, by simpa using hk⟩
  refine ⟨rfl, by simp [Ghost.NoTenant], .inr rfl, ordered_look fun s _ => ?_⟩
  split
  · exact hunlock
  · intro a
    cases a with
    | fails => exact ordered_access (fun s hs => hs.dropEngine t) (fun _ => rfl) hunlock
    | _ =>
      exact ordered_access (fun s hs => (hs.closeEngine t).dropEngine t)
        (fun s => s.closeEngine_closed t) hunlock

theorem ordered_close : Ordered (idle b) close := by
  intro s hs
  refine ⟨⟨hs.nodup, hs.made⟩, fun _ => rfl, ?_⟩
  dsimp only
  split
  · rfl
  · next hclosed =>
    have hcloser : (b || (!s.closed && true)) = true := by simp [hclosed]
    rw [hcloser]
    refine ⟨rfl, ordered_rangeTenants fun ts _ => ?_⟩
    have hloop : Ordered (idle true) (ts.foldr shutdown .done) :=
      ordered_foldr (fun t _ => ordered_shutdown t) (show Ordered (idle true) .done from rfl) ts
    simpa [Ordered] using hloop

def Call.Single : Call → Prop
  | .insertBatches ids => ids.length ≤ 1
  | _ => True

theorem Call.ordered {call : Call} (h : call.Single) : Ordered (idle false) call.code := by
  cases call with
  | insertBatches ids => exact ordered_insertBatches h
  | createTenant id => exact ordered_createTenant
  | setQuota => exact ordered_setQuota
  | indexOf => exact ordered_indexOf
  | deleteTenant id => exact ordered_deleteTenant
  | closeIdle => exact ordered_closeIdle
  | setExactFilterLimit => exact ordered_setExactFilterLimit
  | allStats => exact ordered_allStats
  | snapshot => exact ordered_snapshot
  | close => exact ordered_close

end Methods

end Discipline

section Deadlock
variable {c c' : StoreConfig} {g : ℕ → Ghost}

theorem Ordered.after {g : Ghost} {s s' : Shared} {a : Answer} {h' : Held Lock}
    {caller caller' : Caller Lock Shared Query Answer} (h : Ordered g caller.code) (hs : s.Wf)
    (hafter : After s a g.held caller s' h' caller') :
    s'.Wf ∧ (s.closed → s'.closed) ∧
      Ordered ⟨h', g.closer || (!s.closed && s'.closed)⟩ caller'.code := by
  have hsame : (g.closer || (!s.closed && s.closed)) = g.closer := by simp
  cases hafter with
  | access => exact h s hs
  | rlock | lock =>
    rw [hsame]
    refine ⟨hs, fun hc => hc, ?_⟩
    rename_i l k u
    cases l with
    | mu => exact h.2
    | use t => exact h.2.2.2
  | asked | runlock | enter | leave =>
    rw [hsame]
    exact ⟨hs, fun hc => hc, h⟩
  | unlock | notLocked =>
    rw [hsame]
    exact ⟨hs, fun hc => hc, h.2⟩
  | locked =>
    rw [hsame]
    exact ⟨hs, fun hc => hc, h.1⟩
  | ask =>
    rw [hsame]
    exact ⟨hs, fun hc => hc, h a⟩

structure Disciplined (c : StoreConfig) (g : ℕ → Ghost) : Prop where
  wf : c.shared.Wf
  tracked : c.Tracked fun i => (g i).held
  ordered : ∀ i caller, c.callers[i]? = some caller → Ordered (g i) caller.code
  closed : ∀ i, (g i).closer → c.shared.closed
  one_closer : ∀ i j, (g i).closer → (g j).closer → i = j

namespace Disciplined

theorem unfinished (h : Disciplined c g) {i : ℕ} (hheld : (g i).held ≠ .nothing) :
    ∃ caller, c.callers[i]? = some caller ∧ caller.code ≠ .done := by
  cases hi : c.callers[i]? with
  | none => exact absurd (h.tracked.outside i hi) hheld
  | some caller =>
    refine ⟨caller, rfl, fun hdone => hheld ?_⟩
    have hordered := h.ordered i caller hi
    rw [hdone] at hordered
    exact hordered

theorem closer_of_asking (h : Disciplined c g) {x y t : ℕ}
    (hmu : .mu ∈ (g y).held.reads ∨ .mu ∈ (g y).held.writes) (hreads : (g y).held.reads ≠ [])
    (hx : (c.locks (.use t)).asking = some x) :
    (g x).closer = true ∧ ∃ k uses, c.callers[x]? = some ⟨.lock (.use t) k, uses⟩ := by
  obtain ⟨k, uses, hcaller⟩ := h.tracked.asking _ x hx
  obtain ⟨hnil, -, hright, -⟩ := h.ordered x _ hcaller
  refine ⟨hright.resolve_left fun hwrite => ?_, k, uses, hcaller⟩
  rcases hmu with hread | hwrite'
  · exact absurd hread (h.tracked.tracks.no_reader hwrite)
  · obtain rfl := h.tracked.tracks.one_writer hwrite hwrite'
    exact hreads hnil

variable {i : ℕ} {t : ℕ}
  (hwaits : ∀ i caller, c.callers[i]? = some caller → caller.code ≠ .done → c.Waits i caller.code)

include hwaits

section
variable (h : Disciplined c g)
include h

theorem waits_tenant (hheld : (g i).held ≠ .nothing) :
    ∃ t caller, c.callers[i]? = some caller ∧ c.Waits i caller.code ∧ (g i).NoTenant ∧
      ((∃ k, caller.code = .rlock (.use t) k ∧ (.mu ∈ (g i).held.reads ∨ .mu ∈ (g i).held.writes) ∧
          .use t ∉ (g i).held.reads) ∨
        ∃ k, caller.code = .lock (.use t) k ∧ (g i).held.reads = []) := by
  obtain ⟨caller, hi, hcode⟩ := h.unfinished hheld
  have hwait := hwaits i caller hi hcode
  have hordered := h.ordered i caller hi
  obtain ⟨code, uses⟩ := caller
  cases code with
  | rlock l k =>
    cases l with
    | mu => exact absurd hordered.1 hheld
    | use t =>
      obtain ⟨hmu, hnew, hnone, -⟩ := hordered
      exact ⟨t, _, hi, hwait, hnone, .inl ⟨k, rfl, hmu, hnew⟩⟩
  | lock l k =>
    cases l with
    | mu => exact absurd hordered.1 hheld
    | use t =>
      obtain ⟨hreads, hnone, -⟩ := hordered
      exact ⟨t, _, hi, hwait, hnone, .inr ⟨k, rfl, hreads⟩⟩
  | _ => exact hwait.elim

theorem no_writer (t : ℕ) : (c.locks (.use t)).writer = none := by
  cases hw : (c.locks (.use t)).writer with
  | none => rfl
  | some z =>
    have hmem := (h.tracked.tracks.writer _ z).mp hw
    obtain ⟨u, caller, -, -, hnone, -⟩ := h.waits_tenant hwaits (i := z) (by
      intro hnothing
      simp [hnothing, Held.nothing] at hmem)
    exact absurd hmem (hnone t)

theorem no_asking (t : ℕ) : (c.locks (.use t)).asking = none := by
  cases hx : (c.locks (.use t)).asking with
  | none => rfl
  | some x =>
    obtain ⟨k, uses, hcaller⟩ := h.tracked.asking _ x hx
    have hwait := hwaits x _ hcaller (by simp)
    simp only [Config.Waits, hx, if_true] at hwait
    obtain ⟨y, hy⟩ := exists_mem_of_ne_nil _ hwait
    have hread := h.tracked.tracks.mem_readers.mp hy
    obtain ⟨t', caller, hy, hwait', -, hcase⟩ := h.waits_tenant hwaits (i := y) (by
      intro hnothing
      simp [hnothing, Held.nothing] at hread)
    rcases hcase with ⟨k', hcode, hmu, hnew⟩ | ⟨k', hcode, hnil⟩
    · rw [hcode] at hwait'
      simp only [Config.Waits, RW.noWriter, h.no_writer hwaits t', Option.isNone_none, Bool.true_and,
        Option.isNone_eq_false_iff, Option.isSome_iff_exists] at hwait'
      obtain ⟨x', hx'⟩ := hwait'
      have hreads := ne_nil_of_mem hread
      obtain ⟨hcloser, k₁, uses₁, hat⟩ := h.closer_of_asking hmu hreads hx
      obtain ⟨hcloser', k₂, uses₂, hat'⟩ := h.closer_of_asking hmu hreads hx'
      obtain rfl := h.one_closer x x' hcloser hcloser'
      rw [hat, Option.some.injEq, Caller.mk.injEq, Code.lock.injEq, Lock.use.injEq] at hat'
      rw [hat'.1.1] at hread
      exact absurd hread hnew
    · rw [hnil] at hread
      cases hread

theorem holds_nothing (i : ℕ) : (g i).held = .nothing := by
  by_contra hheld
  obtain ⟨t, caller, -, hwait, -, hcase⟩ := h.waits_tenant hwaits hheld
  have hfree : (c.locks (.use t)).noWriter = true :=
    RW.noWriter_iff.mpr ⟨h.no_writer hwaits t, h.no_asking hwaits t⟩
  rcases hcase with ⟨k, hcode, -⟩ | ⟨k, hcode, -⟩
  · rw [hcode] at hwait
    simp [Config.Waits, hfree] at hwait
  · rw [hcode] at hwait
    simp [Config.Waits, hfree, h.no_asking hwaits t] at hwait

section
omit hwaits

theorem not_deadlock : ¬ c.Deadlock := by
  rintro ⟨⟨caller, hcaller, hcode⟩, hwaits⟩
  have hreaders : ∀ l, (c.locks l).readers = [] := by
    intro l
    rw [eq_nil_iff_forall_not_mem]
    intro y hy
    have hread := h.tracked.tracks.mem_readers.mp hy
    rw [h.holds_nothing hwaits] at hread
    cases hread
  have hasking : ∀ l, (c.locks l).asking = none := by
    intro l
    cases hx : (c.locks l).asking with
    | none => rfl
    | some x =>
      obtain ⟨k, uses, hi⟩ := h.tracked.asking l x hx
      have hwait := hwaits x _ hi (by simp)
      simp [Config.Waits, hx, hreaders] at hwait
  have hfree : ∀ l, (c.locks l).noWriter = true := by
    intro l
    refine RW.noWriter_iff.mpr ⟨?_, hasking l⟩
    cases hw : (c.locks l).writer with
    | none => rfl
    | some z =>
      have hmem := (h.tracked.tracks.writer l z).mp hw
      rw [h.holds_nothing hwaits] at hmem
      cases hmem
  obtain ⟨i, hi⟩ := mem_iff_getElem?.mp hcaller
  have hwait := hwaits i caller hi hcode
  cases hc : caller.code with
  | rlock l k => simp [hc, Config.Waits, hfree] at hwait
  | lock l k => simp [hc, Config.Waits, hfree, hasking] at hwait
  | _ => simp [hc, Config.Waits] at hwait

theorem one_closer_update {i : ℕ} {x : Ghost} {closed : Bool}
    (hx : x.closer = ((g i).closer || (!c.shared.closed && closed))) (j j' : ℕ)
    (hj : (update g i x j).closer) (hj' : (update g i x j').closer) : j = j' := by
  have hnew : ∀ k, (g k).closer = true → x.closer = true → k = i := by
    intro k hcloser hcloser'
    rw [hx, h.closed k hcloser, Bool.not_true, Bool.false_and, Bool.or_false] at hcloser'
    exact h.one_closer k i hcloser hcloser'
  by_cases hji : j = i
  · subst hji
    by_cases hji' : j' = j
    · exact hji'.symm
    · rw [update_of_ne hji'] at hj'
      rw [update_self] at hj
      exact (hnew j' hj' hj).symm
  · rw [update_of_ne hji] at hj
    by_cases hji' : j' = i
    · subst hji'
      rw [update_self] at hj'
      exact hnew j hj hj'
    · rw [update_of_ne hji'] at hj'
      exact h.one_closer j j' hj hj'

theorem step {ev : ℕ × Answer} (hstep : c.step ev = .ok c') : ∃ g', Disciplined c' g' := by
  obtain ⟨i, a⟩ := ev
  obtain ⟨caller, hi, hnext⟩ := Config.exists_of_step hstep
  have hordered := h.ordered i caller hi
  obtain ⟨h', caller', hafter, hcallers, htracked⟩ := h.tracked.next hi (fun l k hcode => by
    rw [hcode] at hordered
    exact hordered.1) hnext
  obtain ⟨hwf, hclosed, hordered'⟩ := hordered.after h.wf hafter
  have hheld : (fun j => (update g i
      ⟨h', (g i).closer || (!c.shared.closed && c'.shared.closed)⟩ j).held) =
      update (fun j => (g j).held) i h' :=
    comp_update Ghost.held g i _
  refine ⟨update g i ⟨h', (g i).closer || (!c.shared.closed && c'.shared.closed)⟩, hwf,
    hheld ▸ htracked, ?_, ?_, h.one_closer_update rfl⟩
  · rw [hcallers]
    exact Config.forall_callers_set (P := fun x other => Ordered x other.code) hi h.ordered hordered'
  · refine (forall_update_iff g fun _ x => x.closer → c'.shared.closed).mpr
      ⟨fun hcloser => ?_, fun j _ hcloser => hclosed (h.closed j hcloser)⟩
    simp only [Bool.or_eq_true, Bool.and_eq_true] at hcloser
    exact hcloser.elim (fun hcloser => hclosed (h.closed i hcloser)) And.right

end

end

end Disciplined

theorem disciplined_start (ids : List String) {calls : List Call} (h : ∀ call ∈ calls, call.Single) :
    Disciplined (start ids calls) fun _ => idle false := by
  refine ⟨⟨?_, ?_⟩, ⟨Tracks.start, fun _ _ => rfl, ?_⟩, ?_, ?_, ?_⟩
  · simp only [start, zipIdx_map_snd]
    exact nodup_range'
  · simp only [start, zipIdx_map_snd, mem_range']
    omega
  · simp [start, RW.unlocked]
  · intro i caller hi
    simp only [start, getElem?_map, Option.map_eq_some_iff] at hi
    obtain ⟨call, hcall, rfl⟩ := hi
    exact Call.ordered (h call (mem_of_getElem? hcall))
  · simp
  · simp

/-- If no call takes the locks of more than one tenant, the calls never all wait for locks. -/
theorem single_tenant_calls_never_deadlock (ids : List String) (calls : List Call)
    (evs : List (ℕ × Answer)) (c : StoreConfig) (hcalls : ∀ call ∈ calls, call.Single)
    (hrun : run Config.step (start ids calls) evs = .ok c) : ¬ c.Deadlock := by
  obtain ⟨g, h⟩ := run_keeps (I := fun c => ∃ g, Disciplined c g) (P := fun _ _ => True)
    (fun ⟨g, h⟩ _ hstep => h.step hstep) ⟨_, disciplined_start ids hcalls⟩
    (along_of_forall (fun _ _ => trivial) _ _) hrun
  exact h.not_deadlock

/-- A batch for two tenants has got the first one's lock, its deletion holds `mu` and waits for that lock,
and the batch waits for `mu`. -/
theorem two_tenant_batch_and_deletion_deadlock : ∃ c, run Config.step
      (start ["default", "a", "b"] [.insertBatches ["a", "b"], .deleteTenant "a"])
      (replicate 18 (0, Answer.ok) ++ replicate 6 (1, Answer.ok)) = .ok c ∧ c.Deadlock := by
  decide +kernel

theorem one_tenant_batch_and_deletion_go_on :
    ∃ c, run Config.step (start ["default", "a"] [.insertBatches ["a"], .deleteTenant "a"])
      (replicate 17 (0, Answer.ok) ++ replicate 6 (1, Answer.ok)) = .ok c ∧
      c.callers[1]?.any (fun caller => c.Waits 1 caller.code) ∧ ¬ c.Deadlock := by
  have hrun : ∃ c, run Config.step (start ["default", "a"] [.insertBatches ["a"], .deleteTenant "a"])
      (replicate 17 (0, Answer.ok) ++ replicate 6 (1, Answer.ok)) = .ok c ∧
      c.callers[1]?.any fun caller => c.Waits 1 caller.code := by
    decide +kernel
  obtain ⟨c, hrun, hwaits⟩ := hrun
  refine ⟨c, hrun, hwaits, single_tenant_calls_never_deadlock _ _ _ c ?_ hrun⟩
  simp [Call.Single]

end Deadlock

end NuclaDB.StoreLocks
