import NuclaDB.EventRun
import NuclaDB.StoreKnowledge

/-!
# The engines behind the store's locks

A call that has acquired a tenant works on an open engine until it leaves, and no directory
has two open engines.
-/

namespace NuclaDB.StoreEngines

open RwLock EventRun StoreLocks Function List

section Steps
variable {m : Bool} {p : Prop} {γ γ' : Hold} {s s' : Shared} {a : Answer}

structure Moves (m : Bool) (γ : Hold) (s : Shared) (γ' : Hold) (s' : Shared) : Prop where
  wf : γ'.Wf m
  known : γ'.Known s'
  change : Change γ s s'
  calm : γ'.calm → γ.calm ∨ s.closed = false ∨ m = false
  loop : γ'.loop → γ.loop ∨ .mu ∈ γ'.held.reads
  loops : γ.loop → γ'.loop

namespace Hold.Wf

variable {l : Lock} {t : ℕ}

section
variable (h : γ.Wf m)
include h

theorem reads_of_inside (hl : l ∈ γ.inside) : l ∈ γ.held.reads :=
  count_pos_iff.mp ((count_pos_iff.mpr hl).trans_le (h.inside l))

theorem read (loop : Bool) (hcalm : γ.calm → loop = false) (hmono : γ.loop → loop)
    (hloop : loop → γ.closing) : Hold.Wf m { γ with held := γ.held.read l, loop := loop } where
  calm hc := ⟨(h.calm hc).1, hcalm hc⟩
  use t ht := (h.use t ht).imp_right hmono
  inside l := (h.inside l).trans count_le_count_cons
  tenants := h.tenants
  loop := hloop
  closing := h.closing
  fact := h.fact.mono (fun _ => mem_cons_of_mem _) fun _ => id

theorem unread (hl : γ.inside.count l < γ.held.reads.count l) {fact : Fact}
    (hfact : fact.Lasts (γ.held.unread l) γ.calm) :
    Hold.Wf m { γ with held := γ.held.unread l, fact := fact } where
  calm := h.calm
  use := h.use
  inside n := by
    simp only [Held.unread, count_erase]
    split
    · next heq =>
      rw [beq_iff_eq] at heq
      subst heq
      exact Nat.le_sub_one_of_lt hl
    · simpa using h.inside n
  tenants := h.tenants
  loop := h.loop
  closing := h.closing
  fact := hfact

theorem leave : Hold.Wf m
    { γ with held := γ.held.unread l, inside := γ.inside.erase l, fact := .nothing } where
  calm := h.calm
  use := h.use
  inside n := by
    simp only [Held.unread, count_erase]
    exact Nat.sub_le_sub_right (h.inside n) _
  tenants hmu := h.tenants (mem_of_mem_erase hmu)
  loop := h.loop
  closing := h.closing
  fact := trivial

theorem write_mu : Hold.Wf m { γ with held := γ.held.write .mu, calm := !m, fact := .nothing } where
  calm hm := by
    refine ⟨mem_cons_self, Bool.eq_false_iff.mpr fun hloop => ?_⟩
    simp [h.closing (h.loop hloop)] at hm
  use t ht := .inl mem_cons_self
  inside := h.inside
  tenants := h.tenants
  loop := h.loop
  closing := h.closing
  fact := trivial

theorem write_use (hmu : .mu ∈ γ.held.writes ∨ γ.loop) :
    Hold.Wf m { γ with held := γ.held.write (.use t) } where
  calm hc := ⟨mem_cons_of_mem _ (h.calm hc).1, (h.calm hc).2⟩
  use _ _ := hmu.imp_left (mem_cons_of_mem _)
  inside := h.inside
  tenants := h.tenants
  loop := h.loop
  closing := h.closing
  fact := h.fact.mono (fun _ => id) fun _ => mem_cons_of_mem _

theorem unwrite_mu (huse : ∀ t, .use t ∉ γ.held.writes) {fact : Fact}
    (hfact : fact.Lasts (γ.held.unwrite .mu) false) :
    Hold.Wf m { γ with held := γ.held.unwrite .mu, calm := false, fact := fact } where
  calm hc := by cases hc
  use t ht := absurd (mem_of_mem_erase ht) (huse t)
  inside := h.inside
  tenants := h.tenants
  loop := h.loop
  closing := h.closing
  fact := hfact

theorem unwrite_use : Hold.Wf m { γ with held := γ.held.unwrite (.use t), fact := .nothing } where
  calm hc := by simpa [Held.unwrite, mem_erase_of_ne] using h.calm hc
  use u hu := by simpa [Held.unwrite, mem_erase_of_ne] using h.use u (mem_of_mem_erase hu)
  inside := h.inside
  tenants := h.tenants
  loop := h.loop
  closing := h.closing
  fact := trivial

theorem enter (ht : γ.inside.count (.use t) < γ.held.reads.count (.use t)) :
    Hold.Wf m { γ with inside := .use t :: γ.inside, fact := .nothing } where
  calm := h.calm
  use := h.use
  inside l := by
    rw [count_cons]
    split
    · next heq =>
      rw [beq_iff_eq] at heq
      subst heq
      exact ht
    · exact h.inside l
  tenants := by simpa using h.tenants
  loop := h.loop
  closing := h.closing
  fact := trivial

theorem learn {fact : Fact} {closing calm : Bool} (hfact : fact.Lasts γ.held calm)
    (hclosing : closing = γ.closing ∨ closing ∧ m)
    (hcalm : calm = γ.calm ∨ γ.loop = false ∧ .mu ∈ γ.held.writes) :
    Hold.Wf m { γ with fact := fact, closing := closing, calm := calm } where
  calm hc := by
    rcases hcalm with rfl | ⟨hloop, hmu⟩
    · exact h.calm hc
    · exact ⟨hmu, hloop⟩
  use := h.use
  inside := h.inside
  tenants := h.tenants
  loop hloop := by
    rcases hclosing with rfl | ⟨hclosing, -⟩
    · exact h.loop hloop
    · exact hclosing
  closing hc := by
    rcases hclosing with rfl | ⟨-, hm⟩
    · exact h.closing hc
    · exact hm
  fact := hfact

end

end Hold.Wf

theorem Hold.Known.forget (h : γ.Known s) {held : Held Lock} {loop calm : Bool} {fact : Fact}
    (hfact : γ.fact.Keeps fact) : Hold.Known { γ with held, loop, calm, fact } s :=
  ⟨hfact.holds h.fact, h.closing, h.inside⟩

namespace Change

theorem closed (h : Change γ s s') (hclosed : s.closed) : s'.closed := by
  cases h with
  | @closes t => simpa [Shared.dropEngine, Shared.closeEngine_closed] using hclosed
  | shuts => rfl
  | _ => exact hclosed

theorem isSome_engine (h : Change γ s s') {u : ℕ} (hu : .use u ∉ γ.held.writes)
    (hengine : (s.engine u).isSome) : (s'.engine u).isSome := by
  cases h with
  | @opens id t =>
    by_cases hut : u = t
    · simp [Shared.openEngine, hut]
    · simpa [Shared.openEngine, hut] using hengine
  | @closes t ht =>
    have hut : u ≠ t := fun heq => hu (heq ▸ ht)
    simpa [Shared.dropEngine, Shared.closeEngine_engine, hut] using hengine
  | @leaks t ht =>
    have hut : u ≠ t := fun heq => hu (heq ▸ ht)
    simpa [Shared.dropEngine, hut] using hengine
  | _ => exact hengine

theorem quiet (h : Change γ s s') (hwf : γ.Wf m) (hmu : .mu ∉ γ.held.writes) (hloop : γ.loop = false) :
    s'.tenants = s.tenants ∧ s'.engine = s.engine := by
  have hcalm : γ.calm ≠ true := fun hc => hmu (hwf.calm hc).1
  have huse : ∀ t, .use t ∉ γ.held.writes := fun t ht => by
    simpa [hmu, hloop] using hwf.use t ht
  have hvacant : ∀ id t, γ.fact ≠ .vacant id t := by
    intro id t heq
    have hlasts := hwf.fact
    rw [heq] at hlasts
    exact hcalm hlasts
  cases h with
  | same => exact ⟨rfl, rfl⟩
  | opens hfact => exact absurd hfact (hvacant _ _)
  | closes ht => exact absurd ht (huse _)
  | leaks ht => exact absurd ht (huse _)
  | shuts => exact ⟨rfl, rfl⟩
  | adds hmu' => exact absurd hmu' hmu
  | removes hfact => exact absurd hfact (hvacant _ _)

end Change

theorem Hold.Known.other {γ₂ : Hold} (h : γ₂.Known s) (hwf₂ : γ₂.Wf m) (hwf : γ.Wf m)
    (hchange : Change γ s s') (hapart : ∀ l ∈ γ.held.writes, l ∉ γ₂.held.reads ∧ l ∉ γ₂.held.writes)
    (hcalm : γ₂.calm → γ.loop = false) : γ₂.Known s' := by
  have hquiet : γ₂.calm → s'.tenants = s.tenants ∧ s'.engine = s.engine := fun hc =>
    hchange.quiet hwf (fun hmu => (hapart _ hmu).2 (hwf₂.calm hc).1) (hcalm hc)
  have hfact := h.fact
  have hlasts := hwf₂.fact
  refine ⟨?_, fun hc => hchange.closed (h.closing hc), fun t ht => ?_⟩
  · cases hf : γ₂.fact with
    | nothing => trivial
    | opened t =>
      rw [hf] at hfact hlasts
      rcases hlasts with hr | hw | hc
      · exact hchange.isSome_engine (fun ht => (hapart _ ht).1 hr) hfact
      · exact hchange.isSome_engine (fun ht => (hapart _ ht).2 hw) hfact
      · simpa [Fact.Holds, (hquiet hc).2] using hfact
    | entry id t =>
      rw [hf] at hfact hlasts
      simpa [Fact.Holds, (hquiet hlasts).1] using hfact
    | vacant id t =>
      rw [hf] at hfact hlasts
      simpa [Fact.Holds, hquiet hlasts] using hfact
  · exact hchange.isSome_engine (fun hw => (hapart _ hw).1 (hwf₂.reads_of_inside ht)) (h.inside t ht)

theorem Moves.aside (hwf : γ'.Wf m) (hknown : γ'.Known s) (hcalm : γ'.calm → γ.calm ∨ m = false)
    (hloop : γ'.loop = γ.loop) : Moves m γ s γ' s :=
  ⟨hwf, hknown, .same, fun hc => (hcalm hc).imp_right Or.inr, fun hl => Or.inl (hloop ▸ hl), fun hl =>
    hloop ▸ hl⟩

theorem Safe.moves {caller caller' : Caller Lock Shared Query Answer} {h' : Held Lock}
    (h : Safe m p γ caller.code) (hwf : γ.Wf m) (hknown : γ.Known s) (hinside : γ.inside = caller.inside)
    (hown : ∀ l ∈ γ.held.writes, l ∉ γ.held.reads) (hclean : ∀ q k, caller.code = .ask q k → Clean q a)
    (hafter : After s a γ.held caller s' h' caller') :
    ∃ γ', Safe m p γ' caller'.code ∧ γ'.held = h' ∧ γ'.inside = caller'.inside ∧ Moves m γ s γ' s' := by
  cases hafter with
  | @rlock l k u =>
    cases l with
    | mu =>
      refine ⟨_, h.2, rfl, hinside, ?_, hknown.forget (.inr rfl), .same, .inl, ?_, hwf.loop⟩
      · exact hwf.read _ (fun hc => absurd hc (by simp [h.1])) hwf.loop id
      · exact fun _ => Or.inr mem_cons_self
    | use t =>
      refine ⟨{ γ with held := γ.held.read (.use t) }, h, rfl, hinside, .aside ?_ (hknown.forget (.inr rfl)) Or.inl rfl⟩
      exact hwf.read _ (fun hc => (hwf.calm hc).2) id hwf.loop
  | runlock =>
    obtain ⟨hcount, fact, hkeeps, hlasts, hk⟩ := h
    exact ⟨_, hk, rfl, hinside, .aside (hwf.unread hcount hlasts) (hknown.forget hkeeps) Or.inl rfl⟩
  | asked => exact ⟨γ, h, rfl, hinside, .aside hwf hknown Or.inl rfl⟩
  | @lock l k u =>
    cases l with
    | mu =>
      exact ⟨{ γ with held := γ.held.write .mu, calm := !m, fact := .nothing }, h, rfl, hinside,
        .aside hwf.write_mu (hknown.forget (.inl rfl)) (fun hm => Or.inr (by simpa using hm)) rfl⟩
    | use t => exact ⟨_, h.2, rfl, hinside, .aside (hwf.write_use h.1) (hknown.forget (.inr rfl)) Or.inl rfl⟩
  | @unlock l k u =>
    cases l with
    | mu =>
      obtain ⟨-, huse, fact, hkeeps, hlasts, hk⟩ := h
      exact ⟨_, hk, rfl, hinside, .aside (hwf.unwrite_mu huse hlasts) (hknown.forget hkeeps)
        (fun hc => by cases hc) rfl⟩
    | use t =>
      exact ⟨_, h.2, rfl, hinside, .aside hwf.unwrite_use (hknown.forget (.inl rfl)) Or.inl rfl⟩
  | @locked l yes no u =>
    cases l with
    | mu => exact h.elim
    | use t =>
      exact ⟨_, h.2.1, rfl, hinside, .aside (hwf.write_use (.inl h.1)) (hknown.forget (.inr rfl))
        Or.inl rfl⟩
  | @notLocked l yes no u =>
    cases l with
    | mu => exact h.elim
    | use t =>
      exact ⟨_, h.2.2, rfl, hinside, .aside (hwf.learn trivial (.inl rfl) (.inl rfl))
        (hknown.forget (.inl rfl)) Or.inl rfl⟩
  | access =>
    obtain ⟨hchange, fact, closing, calm, hfact, hlasts, hclosing, hcalm, hk⟩ := h s hknown.fact
    have hsilent : s.closed = false → γ.loop = false := by
      intro hclosed
      refine Bool.eq_false_iff.mpr fun hloop => ?_
      simp [hknown.closing (hwf.loop hloop)] at hclosed
    refine ⟨_, hk, rfl, hinside, ?_, ⟨hfact, ?_, ?_⟩, hchange, ?_, .inl, id⟩
    · exact hwf.learn hlasts (hclosing.imp_right fun hc => ⟨hc.1, hc.2.2⟩)
        (hcalm.imp_right fun hc => ⟨hsilent hc.1, hc.2⟩)
    · intro hc
      rcases hclosing with rfl | ⟨-, hclosed, -⟩
      · exact hchange.closed (hknown.closing hc)
      · exact hclosed
    · intro t ht
      exact hchange.isSome_engine (fun hw => hown _ hw (hwf.reads_of_inside ht)) (hknown.inside t ht)
    · intro hc
      rcases hcalm with rfl | ⟨hclosed, -⟩
      · exact .inl hc
      · exact .inr (.inl hclosed)
  | ask =>
    obtain ⟨fact, hkeeps, hk⟩ := h a (hclean _ _ rfl)
    exact ⟨_, hk, rfl, hinside, .aside (hwf.learn (hkeeps.lasts hwf.fact) (.inl rfl) (.inl rfl))
      (hknown.forget hkeeps) Or.inl rfl⟩
  | @enter l k u =>
    cases l with
    | mu => exact h.elim
    | use t =>
      obtain ⟨hfact, hcount, hk⟩ := h
      refine ⟨_, hk, rfl, by simp [hinside], .aside (hwf.enter hcount) ⟨trivial, hknown.closing, ?_⟩ Or.inl rfl⟩
      intro u hu
      rcases mem_cons.mp hu with heq | hu
      · have hopened := hknown.fact
        rw [hfact] at hopened
        cases heq
        exact hopened
      · exact hknown.inside u hu
  | @leave l k u =>
    refine ⟨{ γ with held := γ.held.unread l, inside := γ.inside.erase l, fact := .nothing }, h, rfl, by
      simp [hinside], .aside hwf.leave ⟨trivial, hknown.closing, ?_⟩ Or.inl rfl⟩
    exact fun t ht => hknown.inside t (mem_of_mem_erase ht)

/-- An entry's engine is the one open engine of its directory, and an open engine has an entry unless the
loop of `Close` has given it up. -/
structure Engines (s : Shared) (leaked : Prop) : Prop where
  entry : ∀ {t e : ℕ}, s.engine t = some e →
    ∃ dir, s.tenants.lookup dir = some t ∧ s.engines[e]? = some (dir, true)
  one : OneOpen s
  pointed : ¬ leaked → ∀ {e : ℕ} {dir : String}, s.engines[e]? = some (dir, true) → ∃ t, s.engine t = some e

theorem lookup_filter_ne {dir id : String} (h : dir ≠ id) (es : List (String × ℕ)) :
    (es.filter fun e => e.1 ≠ id).lookup dir = es.lookup dir := by
  induction es with
  | nil => rfl
  | cons e es ih =>
    by_cases he : e.1 = id
    · have hne : (dir == e.1) = false := by simpa [he] using h
      rw [filter_cons_of_neg (by simp [he]), ih, lookup_cons, hne]
    · rw [filter_cons_of_pos (by simp [he]), lookup_cons, lookup_cons, ih]

namespace Engines

variable {leaked : Prop} {t u e : ℕ} {id : String}

section
variable (h : Engines s leaked)
include h

theorem inj (ht : s.engine t = some e) (hu : s.engine u = some e) : t = u := by
  obtain ⟨dir, ht, hdir⟩ := h.entry ht
  obtain ⟨dir', hu, hdir'⟩ := h.entry hu
  rw [hdir, Option.some.injEq, Prod.mk.injEq] at hdir'
  rw [← hdir'.1, ht, Option.some.injEq] at hu
  exact hu

theorem isOpen (ht : (s.engine t).isSome) : StoreEngines.isOpen s t := by
  obtain ⟨e, he⟩ := Option.isSome_iff_exists.mp ht
  obtain ⟨dir, -, hdir⟩ := h.entry he
  simp [StoreEngines.isOpen, he, hdir]

theorem openEngine (hentry : s.tenants.lookup id = some t) (hnone : s.engine t = none)
    (hleaked : ¬ leaked) : Engines (s.openEngine id t) leaked := by
  have hfresh : ∀ {e : ℕ}, s.engines[e]? ≠ some (id, true) := by
    intro e he
    obtain ⟨u, hu⟩ := h.pointed hleaked he
    obtain ⟨dir, hlookup, hdir⟩ := h.entry hu
    rw [he, Option.some.injEq, Prod.mk.injEq] at hdir
    rw [← hdir.1, hentry, Option.some.injEq] at hlookup
    rw [← hlookup, hnone] at hu
    cases hu
  have hcases : ∀ {e : ℕ} {dir : String}, (s.openEngine id t).engines[e]? = some (dir, true) →
      s.engines[e]? = some (dir, true) ∨ e = s.engines.length ∧ dir = id := by
    intro e dir he
    simp only [Shared.openEngine, getElem?_append, getElem?_singleton] at he
    split at he
    · exact .inl he
    · split at he
      · next hlt hzero =>
        simp only [Option.some.injEq, Prod.mk.injEq] at he
        exact .inr ⟨by omega, he.1.symm⟩
      · cases he
  refine ⟨fun {u e} hu => ?_, fun e e' dir he he' => ?_, fun _ e dir he => ?_⟩
  · by_cases hut : u = t
    · subst hut
      simp only [Shared.openEngine, update_self, Option.some.injEq] at hu
      exact ⟨id, hentry, by simp [Shared.openEngine, ← hu]⟩
    · simp only [Shared.openEngine, update_of_ne hut] at hu
      obtain ⟨dir, hlookup, hdir⟩ := h.entry hu
      have hlt := (List.getElem?_eq_some_iff.mp hdir).1
      exact ⟨dir, hlookup, by simpa [Shared.openEngine, List.getElem?_append_left hlt] using hdir⟩
  · rcases hcases he with he | ⟨rfl, rfl⟩ <;> rcases hcases he' with he' | ⟨rfl, hdir⟩
    · exact h.one e e' dir he he'
    · exact absurd (hdir ▸ he) hfresh
    · exact absurd he' hfresh
    · rfl
  · rcases hcases he with he | ⟨rfl, -⟩
    · obtain ⟨u, hu⟩ := h.pointed ‹_› he
      have hut : u ≠ t := by
        rintro rfl
        rw [hnone] at hu
        cases hu
      exact ⟨u, by simpa [Shared.openEngine, hut] using hu⟩
    · exact ⟨t, by simp [Shared.openEngine]⟩

theorem dropEngine (t : ℕ) : Engines (s.dropEngine t) True := by
  refine ⟨fun {u e} hu => h.entry (t := u) ?_, h.one, fun hl => absurd trivial hl⟩
  by_cases hut : u = t
  · simp [Shared.dropEngine, hut] at hu
  · simpa [Shared.dropEngine, hut] using hu

theorem closeEngine (t : ℕ) : Engines ((s.closeEngine t).dropEngine t) leaked := by
  cases ht : s.engine t with
  | none =>
    have hsame : (s.closeEngine t).dropEngine t = s := by
      simp only [Shared.closeEngine, ht, Shared.dropEngine]
      rw [← ht, update_eq_self]
    rwa [hsame]
  | some e₀ =>
    have hengines : ∀ {e : ℕ} {dir : String},
        ((s.closeEngine t).dropEngine t).engines[e]? = some (dir, true) ↔
          e ≠ e₀ ∧ s.engines[e]? = some (dir, true) := by
      intro e dir
      simp only [Shared.closeEngine, ht, Shared.dropEngine, getElem?_modify]
      by_cases he : e₀ = e
      · simp [he]
      · simp [he, Ne.symm he]
    have hengine : ∀ {u e : ℕ}, ((s.closeEngine t).dropEngine t).engine u = some e ↔
        u ≠ t ∧ s.engine u = some e := by
      intro u e
      by_cases hut : u = t
      · simp [hut, Shared.dropEngine]
      · simp [hut, Shared.dropEngine, Shared.closeEngine_engine]
    refine ⟨fun {u e} hu => ?_, fun e e' dir he he' => ?_, fun hl e dir he => ?_⟩
    · obtain ⟨hut, hu⟩ := hengine.mp hu
      obtain ⟨dir, hlookup, hdir⟩ := h.entry hu
      refine ⟨dir, ?_, hengines.mpr ⟨?_, hdir⟩⟩
      · simpa [Shared.dropEngine, Shared.closeEngine_tenants] using hlookup
      · rintro rfl
        exact hut (h.inj hu ht)
    · exact h.one e e' dir (hengines.mp he).2 (hengines.mp he').2
    · obtain ⟨hne, he⟩ := hengines.mp he
      obtain ⟨u, hu⟩ := h.pointed hl he
      refine ⟨u, hengine.mpr ⟨?_, hu⟩⟩
      rintro rfl
      rw [ht, Option.some.injEq] at hu
      exact hne hu.symm

theorem addTenant (id : String) : Engines (s.addTenant id) leaked := by
  refine ⟨fun ht => ?_, h.one, h.pointed⟩
  obtain ⟨dir, hlookup, hdir⟩ := h.entry ht
  exact ⟨dir, by simp [Shared.addTenant, lookup_append, hlookup], hdir⟩

theorem removeTenant (hentry : s.tenants.lookup id = some t) (hnone : s.engine t = none) :
    Engines (s.removeTenant id) leaked := by
  refine ⟨fun {u e} hu => ?_, h.one, h.pointed⟩
  obtain ⟨dir, hlookup, hdir⟩ := h.entry hu
  refine ⟨dir, ?_, hdir⟩
  have hne : dir ≠ id := by
    rintro rfl
    rw [hentry, Option.some.injEq] at hlookup
    rw [← hlookup] at hu
    exact absurd (hnone.symm.trans hu) (by simp)
  exact (lookup_filter_ne hne s.tenants).trans hlookup

theorem mono {leaked' : Prop} (hl : leaked → leaked') : Engines s leaked' :=
  ⟨h.entry, h.one, fun hn => h.pointed fun hleaked => hn (hl hleaked)⟩

theorem change (hwf : γ.Wf m) (hknown : γ.Known s) (hchange : Change γ s s')
    (hcalm : γ.calm → ¬ leaked) (hloop : γ.loop → leaked) : Engines s' leaked := by
  have hfact := hknown.fact
  have hlasts := hwf.fact
  cases hchange with
  | same => exact h
  | opens hvacant =>
    rw [hvacant] at hfact hlasts
    exact h.openEngine hfact.1 hfact.2 (hcalm hlasts)
  | closes => exact h.closeEngine _
  | leaks _ hl => exact (h.dropEngine _).mono fun _ => hloop hl
  | shuts => exact ⟨h.entry, h.one, h.pointed⟩
  | adds => exact h.addTenant _
  | removes hvacant =>
    rw [hvacant] at hfact
    exact h.removeTenant hfact.1 hfact.2

end

end Engines

end Steps

section Runs
variable {m : Bool} {p : Prop} {c c' : StoreConfig} {γ : ℕ → Hold}

structure Sound (m : Bool) (p : Prop) (c : StoreConfig) (γ : ℕ → Hold) : Prop where
  tracked : c.Tracked fun i => (γ i).held
  safe : ∀ {i caller}, c.callers[i]? = some caller →
    Safe m p (γ i) caller.code ∧ (γ i).inside = caller.inside
  wf : ∀ i, (γ i).Wf m
  known : ∀ i, (γ i).Known c.shared
  calm : ∀ {i j}, (γ i).calm → (γ j).loop = false
  engines : Engines c.shared (∃ i, (γ i).loop)

namespace Sound

section
variable (h : Sound m p c γ)
include h

theorem apart {i j : ℕ} (hij : i ≠ j) :
    ∀ l ∈ (γ i).held.writes, l ∉ (γ j).held.reads ∧ l ∉ (γ j).held.writes :=
  fun _ hl => ⟨h.tracked.tracks.no_reader hl, fun hl' => hij (h.tracked.tracks.one_writer hl hl')⟩

theorem loop_not_calm {i j : ℕ} {γ' : Hold} {s' : Shared}
    (hmoves : Moves m (γ i) c.shared γ' s') (hloop : (γ j).loop) : ¬ γ'.calm := by
  intro hcalm
  have hclosing := (h.wf j).loop hloop
  rcases hmoves.calm hcalm with hcalm | hclosed | hm
  · simp [h.calm (j := j) hcalm] at hloop
  · simp [(h.known j).closing hclosing] at hclosed
  · simp [(h.wf j).closing hclosing] at hm

theorem calm_update {i : ℕ} {γ' : Hold} {s' : Shared} (hmoves : Moves m (γ i) c.shared γ' s')
    (htracked : c'.Tracked (update (fun j => (γ j).held) i γ'.held)) {j j' : ℕ}
    (hcalm : (update γ i γ' j).calm) : (update γ i γ' j').loop = false := by
  refine Bool.eq_false_iff.mpr fun hloop => ?_
  by_cases hji : j = i
  · subst hji
    rw [update_self] at hcalm
    by_cases hji' : j' = j
    · rw [hji', update_self] at hloop
      simp [(hmoves.wf.calm hcalm).2] at hloop
    · rw [update_of_ne hji'] at hloop
      exact h.loop_not_calm hmoves hloop hcalm
  · rw [update_of_ne hji] at hcalm
    by_cases hji' : j' = i
    · subst hji'
      rw [update_self] at hloop
      rcases hmoves.loop hloop with hloop | hmu
      · simp [h.calm (j := j') hcalm] at hloop
      · refine htracked.tracks.no_reader (l := .mu) (i := j) (j := j') ?_ ?_
        · simpa [update_of_ne hji] using ((h.wf j).calm hcalm).1
        · simpa using hmu
    · rw [update_of_ne hji'] at hloop
      simp [h.calm (j := j') hcalm] at hloop

theorem engines_update {i : ℕ} {γ' : Hold} {s' : Shared}
    (hmoves : Moves m (γ i) c.shared γ' s') : Engines s' (∃ j, (update γ i γ' j).loop) := by
  refine (h.engines.change (h.wf i) (h.known i) hmoves.change ?_ fun hloop => ⟨i, hloop⟩).mono ?_
  · rintro hcalm ⟨j, hloop⟩
    simp [h.calm (j := j) hcalm] at hloop
  · rintro ⟨j, hloop⟩
    by_cases hji : j = i
    · subst hji
      exact ⟨j, by simpa using hmoves.loops hloop⟩
    · exact ⟨j, by simpa [update_of_ne hji] using hloop⟩

theorem step {ev : ℕ × Answer} (hclean : LogsClose c ev)
    (hstep : c.step ev = .ok c') : ∃ γ', Sound m p c' γ' := by
  obtain ⟨i, a⟩ := ev
  obtain ⟨caller, hi, hnext⟩ := Config.exists_of_step hstep
  obtain ⟨hsafe, hinside⟩ := h.safe hi
  obtain ⟨h', caller', hafter, hcallers, htracked⟩ := h.tracked.next hi (fun l k hcode => by
    rw [hcode] at hsafe
    cases l with
    | mu => exact hsafe.1
    | use t => exact hsafe.1) hnext
  have hasks : ∀ q k, caller.code = .ask q k → Clean q a := by
    intro q k hcode
    apply hclean q
    simp [hi, hcode, asks]
  obtain ⟨γ', hsafe', rfl, hinside', hmoves⟩ := hsafe.moves (h.wf i) (h.known i) hinside
    (fun l hl => h.tracked.tracks.no_reader hl) hasks hafter
  have hheld : (fun j => (update γ i γ' j).held) =
      update (fun j => (γ j).held) i γ'.held := comp_update Hold.held γ i γ'
  refine ⟨update γ i γ', hheld ▸ htracked, ?_, ?_, ?_, h.calm_update hmoves htracked,
    h.engines_update hmoves⟩
  · rw [hcallers]
    exact Config.forall_callers_set (P := fun x other => Safe m p x other.code ∧ x.inside = other.inside)
      hi (fun _ _ => h.safe) ⟨hsafe', hinside'⟩ _ _
  · exact (forall_update_iff γ fun _ g => g.Wf m).mpr ⟨hmoves.wf, fun j _ => h.wf j⟩
  · refine (forall_update_iff γ fun _ g => g.Known c'.shared).mpr ⟨hmoves.known, fun j hji => ?_⟩
    exact (h.known j).other (h.wf j) (h.wf i) hmoves.change (h.apart (Ne.symm hji)) h.calm

theorem usesOpen : UsesOpen c := by
  intro caller hcaller t ht
  obtain ⟨i, hi⟩ := mem_iff_getElem?.mp hcaller
  apply h.engines.isOpen
  apply (h.known i).inside
  rwa [(h.safe hi).2]

end

theorem not_panicked (h : Sound m False c γ) : ¬ Panicked c := by
  rintro ⟨caller, hcaller, hcode⟩
  obtain ⟨i, hi⟩ := mem_iff_getElem?.mp hcaller
  have hsafe := (h.safe hi).1
  rw [hcode] at hsafe
  exact hsafe

end Sound

theorem sound_start (ids : List String) {calls : List Call} (hclose : .close ∈ calls → m)
    (hidle : .closeIdle ∈ calls → m → p) : Sound m p (start ids calls) fun _ => within [] := by
  refine ⟨⟨Tracks.start, fun _ _ => rfl, ?_⟩, ?_, fun _ => ?_, fun _ => ?_, ?_, ?_⟩
  · simp [start, RW.unlocked]
  · intro i caller hi
    simp only [start, getElem?_map, Option.map_eq_some_iff] at hi
    obtain ⟨call, hcall, rfl⟩ := hi
    have hmem := mem_of_getElem? hcall
    exact ⟨Call.safe (fun heq => hclose (heq ▸ hmem)) fun heq => hidle (heq ▸ hmem), rfl⟩
  · exact ⟨by simp, by simp, by simp, by simp, by simp, by simp, trivial⟩
  · exact ⟨trivial, by simp, by simp⟩
  · simp
  · exact ⟨by simp [start], by simp [OneOpen, start], by simp [start]⟩

theorem sound_run {ids : List String} {calls : List Call} {evs : List (ℕ × Answer)}
    (hclose : .close ∈ calls → m) (hidle : .closeIdle ∈ calls → m → p)
    (hlogs : Along Config.step LogsClose (start ids calls) evs)
    (hrun : run Config.step (start ids calls) evs = .ok c) : ∃ γ, Sound m p c γ :=
  run_keeps (I := fun c => ∃ γ, Sound m p c γ) (fun ⟨_, h⟩ hlog hstep => h.step hlog hstep)
    ⟨_, sound_start ids hclose hidle⟩ hlogs hrun

/-- Calls are made on open engines, one for each directory; and if `Close` and `CloseIdle` are not both
called, `CloseIdle` never finds the engine gone. -/
theorem calls_run_on_open_engines (ids : List String) (calls : List Call) (evs : List (ℕ × Answer))
    (c : StoreConfig) (hlogs : Along Config.step LogsClose (start ids calls) evs)
    (hrun : run Config.step (start ids calls) evs = .ok c) :
    UsesOpen c ∧ OneOpen c.shared ∧ (.close ∉ calls ∨ .closeIdle ∉ calls → ¬ Panicked c) := by
  obtain ⟨γ, h⟩ := sound_run (m := true) (p := True) (fun _ => rfl) (fun _ _ => trivial) hlogs hrun
  refine ⟨h.usesOpen, h.engines.one, fun hnot => ?_⟩
  rcases hnot with hclose | hidle
  · obtain ⟨γ, h⟩ := sound_run (m := false) (p := False) (fun hmem => absurd hmem hclose)
      (fun _ hm => by cases hm) hlogs hrun
    exact h.not_panicked
  · obtain ⟨γ, h⟩ := sound_run (m := true) (p := False) (fun _ => rfl)
      (fun hmem => absurd hmem hidle) hlogs hrun
    exact h.not_panicked

/-- `CloseIdle` closes the log with an error and keeps the engine, which the next call gets; and `Close`
takes the engine away that `CloseIdle` has seen. -/
theorem closed_engine_used : (∃ c, run Config.step
      (start ["default"] [.insertBatches ["default"], .closeIdle, .insertBatches ["default"]])
      (replicate 18 (0, Answer.ok) ++ replicate 8 (1, Answer.ok) ++
        [(1, Answer.closeFails)] ++ replicate 3 (1, Answer.ok) ++ replicate 8 (2, Answer.ok)) = .ok c ∧ ¬ UsesOpen c) ∧
    ∃ c, run Config.step (start ["default"] [.insertBatches ["default"], .closeIdle, .close])
      (replicate 18 (0, Answer.ok) ++ replicate 5 (2, Answer.ok) ++
        replicate 6 (1, Answer.ok) ++ replicate 6 (2, Answer.ok) ++ replicate 2 (1, Answer.ok)) = .ok c ∧ Panicked c := by
  decide +kernel

theorem reopened_engine_used : ∃ c, run Config.step
      (start ["default"] [.insertBatches ["default"], .closeIdle, .insertBatches ["default"]])
      (replicate 18 (0, Answer.ok) ++ replicate 12 (1, Answer.ok) ++
        replicate 17 (2, Answer.ok)) = .ok c ∧
      (∃ caller ∈ c.callers, caller.inside = [.use 0]) ∧ UsesOpen c ∧ OneOpen c.shared ∧ ¬ Panicked c := by
  have hrun : ∃ c, run Config.step
      (start ["default"] [.insertBatches ["default"], .closeIdle, .insertBatches ["default"]])
      (replicate 18 (0, Answer.ok) ++ replicate 12 (1, Answer.ok) ++
        replicate 17 (2, Answer.ok)) = .ok c ∧
      ∃ caller ∈ c.callers, caller.inside = [.use 0] := by
    decide +kernel
  obtain ⟨c, hrun, hinside⟩ := hrun
  obtain ⟨huses, hone, hpanic⟩ := calls_run_on_open_engines _ _ _ c (by decide +kernel) hrun
  exact ⟨c, hrun, hinside, huses, hone, hpanic (.inl (by simp))⟩

end Runs

end NuclaDB.StoreEngines
