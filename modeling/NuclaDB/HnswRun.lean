import NuclaDB.HnswChunk

/-!
# Runs of the graph

A call on the graph is a sequence of valid steps. What every valid step keeps, a whole run
keeps (`run_induction`).
-/

namespace NuclaDB.Hnsw

open List

variable {D : Type} [Dist D] {g h : Graph D}

def Step.Valid (g : Graph D) : Step → Prop
  | .insert _ vector => vector.length = g.cfg.dim
  | .chunk items => g.nodes ≠ [] ∧ g.freshIDs (items.map (·.1)) = true ∧
      ∀ item ∈ items, item.2.length = g.cfg.dim
  | .delete _ => True

namespace Graph

theorem prep_length (g : Graph D) (v : Vec) : (g.prep v).length = v.length := by
  simp only [prep]
  split
  · exact Dist.normalize_length v
  · rfl

omit [Dist D] in
theorem Slotted.freshIDs_iff (hg : g.Slotted) (ids : List UInt64) :
    g.freshIDs ids = true ↔ (∀ id ∈ ids, id ∉ g.nodes.map (·.id)) ∧ ids.Nodup := by
  simp only [freshIDs, Bool.and_eq_true, all_eq_true, decide_eq_true_eq,
    Option.isNone_iff_eq_none, hg.slot_eq_none]

theorem WF.placeable (hw : g.WF) {items : List (UInt64 × Vec)} (hv : (Step.chunk items).Valid g) :
    g.Placeable (g.drawChunk items).1 := by
  obtain ⟨-, hfresh, hdims⟩ := hv
  obtain ⟨-, hids, hvecs, hlevel⟩ := g.drawChunk_spec items
  obtain ⟨hnew, hnodup⟩ := (hw.shape.slotted.freshIDs_iff _).mp hfresh
  refine ⟨fun nd hnd => hnew _ ?_, hids ▸ hnodup, fun nd hnd => ?_, hlevel⟩
  · exact hids ▸ mem_map_of_mem hnd
  · have hmem : nd.vec ∈ items.map fun it => g.prep it.2 := hvecs ▸ mem_map_of_mem hnd
    obtain ⟨item, hitem, heq⟩ := mem_map.mp hmem
    rw [← heq, prep_length]
    exact hdims item hitem

theorem WF.insertChunk (hw : g.WF) {items : List (UInt64 × Vec)}
    (hv : (Step.chunk items).Valid g) : (g.insertChunk items).WF := by
  obtain ⟨rng, hrng⟩ := (g.drawChunk_spec items).1
  have hp := hw.placeable hv
  simp only [Graph.insertChunk, hrng]
  exact (hw.of_rng rng).joinSettle hv.1 ⟨hp.fresh, hp.nodup, hp.dims, hp.level_le⟩

omit [Dist D] in
theorem delete_eq_ok {id : UInt64} : g.delete id = .ok h ↔ ∃ slot, g.slots[id]? = some slot ∧
    g.isDead slot = false ∧ h = { g with dead := g.dead.set slot true, live := g.live - 1 } := by
  simp only [Graph.delete]
  cases hslot : g.slots[id]? with
  | none => simp
  | some slot =>
    cases hdead : g.isDead slot with
    | true => simp [hdead]
    | false =>
      simp only [Bool.false_eq_true, if_false, Except.ok.injEq, Option.some.injEq, exists_eq_left',
        hdead, true_and]
      exact eq_comm

omit [Dist D] in
theorem WF.delete (hw : g.WF) {id : UInt64} (hd : g.delete id = .ok h) : h.WF := by
  obtain ⟨slot, hslot, hlive, rfl⟩ := delete_eq_ok.mp hd
  have hg := hw.shape.slotted
  have hlt := hg.lt_of_slot hslot
  refine ⟨⟨⟨hg.data_length, ?_, hg.slots_iff, hg.dims, hg.level_le⟩, hw.shape.layered,
    ⟨hw.shape.linked.links0_length, fun s k => (hw.shape.linked.list s k).congr le_rfl rfl⟩,
    hw.shape.m_ge, hw.shape.ef_ge⟩, ?_, hw.hasEntry_iff, hw.entry_lt, hw.maxLevel_le⟩
  · simpa using hg.dead_length
  · have hlt' : slot < g.dead.length := by rw [hg.dead_length]; exact hlt
    have hat : g.dead[slot] = false := by simpa [isDead, hlt'] using hlive
    simp [count_set hlt', hat, hw.live_eq]

end Graph

theorem Step.apply_delete (g : Graph D) (id : UInt64) :
    ∃ dead live, (Step.delete id).apply g = { g with dead := dead, live := live } := by
  simp only [Step.apply]
  cases hd : g.delete id with
  | error e => exact ⟨g.dead, g.live, rfl⟩
  | ok h =>
    obtain ⟨slot, -, -, rfl⟩ := Graph.delete_eq_ok.mp hd
    exact ⟨_, _, rfl⟩

theorem Step.wf (hw : g.WF) {s : Step} (hs : s.Valid g) : (s.apply g).WF := by
  cases s with
  | insert id vector => exact hw.insertLocked id ((g.prep_length vector).trans hs)
  | chunk items => exact hw.insertChunk hs
  | delete id =>
    simp only [Step.apply]
    cases hd : g.delete id with
    | error e => exact hw
    | ok h => exact hw.delete hd

section Settings

namespace Graph

def settings (g : Graph D) : Config D × Bool × (Vec → Vec → D) := (g.cfg, g.unit, g.dist)

omit [Dist D] in
theorem foldl_same {α β : Type*} {p : Graph D → β} {f : Graph D → α → Graph D}
    (hf : ∀ g a, p (f g a) = p g) (l : List α) (g : Graph D) : p (l.foldl f g) = p g := by
  induction l generalizing g with
  | nil => rfl
  | cons a l ih => exact (ih _).trans (hf g a)

theorem connect_same {β : Type*} {p : Graph D → β}
    (hp : ∀ g slot l ids, p (Graph.setLinks g slot l ids) = p g) (g : Graph D) (slot level : ℕ) :
    p (g.connect slot level) = p g := by
  apply foldl_same
  intro g l
  apply foldl_same
  intro g nbr
  exact hp ..

omit [Dist D] in
theorem promote_settings (g : Graph D) (slot level : ℕ) :
    (g.promote slot level).settings = g.settings := by
  simp only [promote]
  split
  · rfl
  · split <;> rfl

section
variable (g : Graph D) (id : UInt64) (vec : Vec) (level slot : ℕ) (existed : Bool)

theorem insertAt_settings : (g.insertAt id vec level slot existed).settings = g.settings := by
  simp only [insertAt]
  split
  · rfl
  · exact (promote_settings ..).trans (connect_same (fun _ _ _ _ => rfl) _ slot level)

theorem insertAt_hasEntry : (g.insertAt id vec level slot existed).hasEntry = true := by
  simp only [insertAt]
  split
  · rfl
  · next hentry =>
    have hhas : g.hasEntry = true := by simpa using hentry
    exact (promote_rest ..).2.1.trans
      ((connect_same (p := fun g => g.hasEntry) (fun _ _ _ _ => rfl) _ slot level).trans hhas)

end

theorem joinedChunk_same {β : Type*} {p : Graph D → β}
    (hlinks : ∀ g slot l ids, p (Graph.setLinks g slot l ids) = p g)
    (hplace : ∀ g slot nd vec, p (Graph.place g slot nd vec false) = p g) (g : Graph D)
    (chunk : List ChunkNode) : p (g.joinedChunk chunk) = p g := by
  have hplaced : p (g.placedChunk chunk) = p g := by
    apply foldl_same
    intro g nd
    exact hplace ..
  have hlinked : p (g.linkedChunk chunk) = p (g.placedChunk chunk) := by
    apply foldl_same
    intro h nd
    apply foldl_same
    intro h l
    exact hlinks ..
  have hjoined : p (g.joinedChunk chunk) = p (g.linkedChunk chunk) := by
    apply foldl_same
    intro h up
    exact hlinks ..
  exact hjoined.trans (hlinked.trans hplaced)

theorem insertChunk_settings (g : Graph D) (items : List (UInt64 × Vec)) :
    (g.insertChunk items).settings = g.settings := by
  obtain ⟨rng, hrng⟩ := (g.drawChunk_spec items).1
  have hjoined := joinedChunk_same (p := settings) (fun _ _ _ _ => rfl) (fun _ _ _ _ => rfl)
    { g with rng := rng } (g.drawChunk items).1
  simp only [insertChunk, hrng]
  refine Eq.trans ?_ hjoined
  apply foldl_same
  intro h nd
  exact promote_settings ..

theorem insertChunk_hasEntry (g : Graph D) (items : List (UInt64 × Vec)) :
    (g.insertChunk items).hasEntry = g.hasEntry := by
  obtain ⟨rng, hrng⟩ := (g.drawChunk_spec items).1
  have hjoined := joinedChunk_same (p := fun g => g.hasEntry) (fun _ _ _ _ => rfl)
    (fun _ _ _ _ => rfl) { g with rng := rng } (g.drawChunk items).1
  simp only [insertChunk, hrng]
  exact (settle_rest ..).2.1.trans hjoined

end Graph

theorem Step.apply_settings (g : Graph D) (s : Step) : (s.apply g).settings = g.settings := by
  cases s with
  | insert id vector => exact Graph.insertAt_settings ..
  | chunk items => exact g.insertChunk_settings items
  | delete id =>
    obtain ⟨dead, live, hmarks⟩ := Step.apply_delete g id
    rw [hmarks]
    rfl

theorem Step.apply_cfg (g : Graph D) (s : Step) : (s.apply g).cfg = g.cfg :=
  congrArg (·.1) (s.apply_settings g)

end Settings

section Batch

theorem validateVector_length {v : Vec} {dim : ℕ} (h : validateVector v dim = .ok ()) :
    v.length = dim := by
  simp only [validateVector] at h
  split at h
  · exact absurd h (by simp)
  · next hlen => exact not_not.mp hlen

namespace Graph

theorem validateAll_length {dim : ℕ} {vectors : List Vec} (h : validateAll dim vectors = .ok ()) :
    ∀ v ∈ vectors, v.length = dim := by
  induction vectors with
  | nil => simp
  | cons v rest ih =>
    simp only [validateAll] at h
    cases hv : validateVector v dim with
    | error e => simp [hv, bind, Except.bind] at h
    | ok u =>
      simp only [hv, bind, Except.bind] at h
      exact forall_mem_cons.mpr ⟨validateVector_length hv, ih h⟩

omit [Dist D] in
theorem nextStep_valid (workers : Workers) {item : UInt64 × Vec} {rest : List (UInt64 × Vec)}
    (hdims : ∀ it ∈ item :: rest, it.2.length = g.cfg.dim) :
    (g.nextStep workers item rest).1.Valid g ∧
      ∀ it ∈ (g.nextStep workers item rest).2, it.2.length = g.cfg.dim := by
  simp only [nextStep]
  split
  · exact forall_mem_cons.mp hdims
  · next hchunk =>
    simp only [not_or, not_lt, Bool.not_eq_false] at hchunk
    obtain ⟨-, hsize, hfresh⟩ := hchunk
    refine ⟨⟨fun hnil => ?_, hfresh, fun it hit => hdims it (mem_of_mem_take hit)⟩,
      fun it hit => hdims it (mem_of_mem_drop hit)⟩
    have := workers.2
    simp only [hnil, length_nil] at hsize
    omega

omit [Dist D] in
theorem nextStep_length (g : Graph D) (workers : Workers) (item : UInt64 × Vec)
    (rest : List (UInt64 × Vec)) : (g.nextStep workers item rest).2.length ≤ rest.length := by
  simp only [nextStep]
  split
  · exact le_rfl
  · next hchunk =>
    simp only [not_or, not_lt] at hchunk
    have := workers.2
    simp only [length_drop, length_cons] at hchunk ⊢
    omega

theorem batchLoop_enough (workers : Workers) {m : ℕ} {items : List (UInt64 × Vec)}
    (hm : items.length ≤ m) (k : ℕ) (g : Graph D) :
    batchLoop workers (m + k) g items = batchLoop workers m g items := by
  induction m generalizing g items with
  | zero =>
    obtain rfl : items = [] := eq_nil_of_length_eq_zero (by omega)
    cases k <;> rfl
  | succ m ih =>
    cases items with
    | nil => simp only [Nat.add_right_comm m 1 k, batchLoop]
    | cons item rest =>
      have hlen := g.nextStep_length workers item rest
      simp only [length_cons] at hm
      simp only [Nat.add_right_comm m 1 k, batchLoop]
      exact ih (by omega) _

end Graph

end Batch

theorem withDefaults_withDefaults (cfg : Config D) :
    cfg.withDefaults.withDefaults = cfg.withDefaults := by
  by_cases hm : cfg.m ≤ 1 <;> by_cases hef : cfg.efConstruction = 0 <;>
    simp [Config.withDefaults, hm, hef]

theorem new_withDefaults_settings (cfg : Config D) (rng rng' : ℕ → ℕ) :
    (new cfg.withDefaults rng).settings = (new cfg rng').settings := by
  simp only [Graph.settings, new, withDefaults_withDefaults]

section Runs
variable {I : Graph D → Prop} {C : Graph D → Step → Prop}

/-- Well-formed graphs with a property that valid steps keep where a condition holds. -/
structure Kept (C : Graph D → Step → Prop) (I : Graph D → Prop) : Prop where
  step {g : Graph D} {s : Step} : g.WF → I g → s.Valid g → C g s → I (s.apply g)

theorem Graph.batch_induction (hk : Kept C I) (workers : Workers) {m : ℕ}
    {items : List (UInt64 × Vec)} (hw : g.WF) (hI : I g)
    (hdims : ∀ it ∈ items, it.2.length = g.cfg.dim)
    (hC : ∀ p ∈ Graph.batchTrace workers m g items, C p.1 p.2) :
    (Graph.batchLoop workers m g items).WF ∧ I (Graph.batchLoop workers m g items) := by
  induction m generalizing g items with
  | zero => exact ⟨hw, hI⟩
  | succ m ih =>
    cases items with
    | nil => exact ⟨hw, hI⟩
    | cons item rest =>
      obtain ⟨hvalid, hrest⟩ := Graph.nextStep_valid workers hdims
      simp only [Graph.batchTrace, forall_mem_cons] at hC
      refine ih (Step.wf hw hvalid) (hk.step hw hI hvalid hC.1) ?_ hC.2
      simpa only [Step.apply_cfg] using hrest

theorem Op.induction (hk : Kept C I) (op : Op) (hw : g.WF) (hI : I g)
    (hC : ∀ p ∈ op.trace g, C p.1 p.2) : (op.apply g).WF ∧ I (op.apply g) := by
  cases op with
  | insert id vector =>
    simp only [Op.apply, Op.trace, Graph.insert] at *
    cases hv : validateVector vector g.cfg.dim with
    | error e => exact ⟨hw, hI⟩
    | ok u =>
      have hs : (Step.insert id vector).Valid g := validateVector_length hv
      simp only [hv, mem_singleton, forall_eq] at hC
      exact ⟨Step.wf hw hs, hk.step hw hI hs hC⟩
  | insertBatch workers ids vectors =>
    simp only [Op.apply, Op.trace, Graph.insertBatch] at *
    by_cases hlen : ids.length = vectors.length
    · cases hv : Graph.validateAll g.cfg.dim vectors with
      | error e => simpa [hlen, hv, bind, Except.bind, Except.toOption] using ⟨hw, hI⟩
      | ok u =>
        simp only [hlen, ne_eq, not_true, if_false, hv] at hC
        have hall := Graph.validateAll_length hv
        have hdone := Graph.batch_induction hk workers hw hI
          (fun it hit => hall _ (of_mem_zip hit).2) hC
        simpa [hlen, hv, bind, Except.bind, pure, Except.pure, Except.toOption] using hdone
    · simpa [hlen, bind, Except.bind, throw, throwThe, MonadExceptOf.throw,
        Except.toOption] using ⟨hw, hI⟩
  | delete id =>
    simp only [Op.trace, mem_singleton, forall_eq] at hC
    exact ⟨Step.wf hw (s := .delete id) trivial, hk.step hw hI (s := .delete id) trivial hC⟩

theorem run_induction (hk : Kept C I) (hw : g.WF) (hI : I g) {ops : List Op}
    (hC : ∀ p ∈ runTrace g ops, C p.1 p.2) : (run g ops).WF ∧ I (run g ops) := by
  induction ops generalizing g with
  | nil => exact ⟨hw, hI⟩
  | cons op ops ih =>
    simp only [runTrace, mem_append] at hC
    obtain ⟨hw', hI'⟩ := op.induction hk hw hI fun p hp => hC p (.inl hp)
    exact ih hw' hI' fun p hp => hC p (.inr hp)

section
variable (cfg : Config D) (rng : ℕ → ℕ) (ops : List Op)

theorem run_wf : (run (new cfg rng) ops).WF :=
  (run_induction (I := fun _ => True) (C := fun _ _ => True) ⟨fun _ _ _ _ => trivial⟩
    (Graph.new_wf cfg rng) trivial fun _ _ => trivial).1

theorem run_settings : (run (new cfg rng) ops).settings = (new cfg rng).settings :=
  (run_induction (I := fun g => g.settings = (new cfg rng).settings) (C := fun _ _ => True)
    ⟨fun {g s} _ hg _ _ => (s.apply_settings g).trans hg⟩ (Graph.new_wf cfg rng) rfl
    fun _ _ => trivial).2

theorem run_cfg : (run (new cfg rng) ops).cfg = cfg.withDefaults :=
  congrArg (·.1) (run_settings cfg rng ops)

end

theorem Step.keeps_entryPoint :
    Kept (fun _ _ => True) fun g : Graph D => g.nodes = [] → g.entryPoint = 0 := by
  refine ⟨fun {g s} hw hzero hvalid _ => ?_⟩
  cases s with
  | insert id vector =>
    intro hnil
    have hwf := Step.wf hw hvalid
    exact absurd hnil (hwf.hasEntry_iff.mp (Graph.insertAt_hasEntry ..))
  | chunk items =>
    intro hnil
    have hwf := Step.wf hw hvalid
    refine absurd hnil (hwf.hasEntry_iff.mp ?_)
    exact (g.insertChunk_hasEntry items).trans (hw.hasEntry_iff.mpr hvalid.1)
  | delete id =>
    obtain ⟨dead, live, hmarks⟩ := Step.apply_delete g id
    rw [hmarks]
    exact hzero

theorem run_entryPoint (cfg : Config D) (rng : ℕ → ℕ) (ops : List Op) :
    (run (new cfg rng) ops).nodes = [] → (run (new cfg rng) ops).entryPoint = 0 :=
  (run_induction Step.keeps_entryPoint (Graph.new_wf cfg rng) (fun _ => rfl) fun _ _ => trivial).2

end Runs

end NuclaDB.Hnsw
