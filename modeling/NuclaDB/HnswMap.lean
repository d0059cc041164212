import NuclaDB.HnswContents
import NuclaDB.HnswExact

/-!
# The graph as a map

Inserts, batches, deletes and compactions do to the vectors what they do to a plain map.
-/

namespace NuclaDB.Hnsw

open Function Std List

variable {D : Type} [Dist D] (m : VecMap)

inductive Call
  | change (op : Op)
  | compact (workers : Workers) (rng : ℕ → ℕ)

def Call.apply (g : Graph D) : Call → Graph D
  | .change op => op.apply g
  | .compact workers rng => (g.compact workers rng).toOption.getD g

def Graph.ids (g : Graph D) : List UInt64 :=
  (g.nodes.zipIdx.filter fun nd => !g.isDead nd.2).map (·.1.id)

abbrev VecMap := ExtTreeMap UInt64 Vec compare

def VecMap.insertAll (items : List (UInt64 × Vec)) : VecMap :=
  items.foldl (fun m it => m.insert it.1 it.2) m

def Call.onMap (dim : ℕ) (m : VecMap) : Call → VecMap
  | .change (.insert id vector) =>
    match validateVector vector dim with
    | .ok _ => m.insert id vector
    | .error _ => m
  | .change (.insertBatch _ ids vectors) =>
    if ids.length ≠ vectors.length then m
    else
      match Graph.validateAll dim vectors with
      | .ok _ => m.insertAll (ids.zip vectors)
      | .error _ => m
  | .change (.delete id) => m.erase id
  | .compact _ _ => m

def mapOf (dim : ℕ) (calls : List Call) : VecMap := calls.foldl (Call.onMap dim) ∅

theorem VecMap.get_insert (id : UInt64) (v : Vec) (x : UInt64) :
    (m.insert id v)[x]? = update (fun x : UInt64 => m[x]?) id (some v) x := by
  rw [ExtTreeMap.getElem?_insert]
  by_cases hx : id = x
  · simp [hx]
  · rw [update_of_ne (Ne.symm hx), if_neg (by simpa using hx)]

theorem VecMap.get_erase (id x : UInt64) :
    (m.erase id)[x]? = update (fun x : UInt64 => m[x]?) id none x := by
  rw [ExtTreeMap.getElem?_erase]
  by_cases hx : id = x
  · simp [hx]
  · rw [update_of_ne (Ne.symm hx), if_neg (by simpa using hx)]

theorem VecMap.get_insertAll (items : List (UInt64 × Vec)) (x : UInt64) :
    (m.insertAll items)[x]? = putVecs (fun x => m[x]?) items x := by
  induction items generalizing m with
  | nil => rfl
  | cons it items ih =>
    have hstep : (fun x : UInt64 => (m.insert it.1 it.2)[x]?) =
        KeyedLog.put Prod.fst (fun it _ => some it.2) (fun x => m[x]?) it :=
      funext fun x => m.get_insert it.1 it.2 x
    refine (ih _).trans ?_
    rw [hstep, putVecs, putVecs, KeyedLog.putAll_cons]

theorem putVecs_eq_some {f : UInt64 → Option Vec} {items : List (UInt64 × Vec)} {x : UInt64} {v : Vec}
    (h : putVecs f items x = some v) : f x = some v ∨ v ∈ items.map (·.2) := by
  induction items generalizing f with
  | nil => exact .inl h
  | cons it items ih =>
    rw [putVecs, KeyedLog.putAll_cons] at h
    rcases ih h with hf | hmem
    · rw [KeyedLog.put_apply] at hf
      split at hf
      · exact .inr (by simp [Option.some.inj hf])
      · exact .inl hf
    · exact .inr (mem_cons_of_mem _ hmem)

structure Graph.Holds (cfg : Config D) (g : Graph D) (m : VecMap) : Prop where
  wf : g.WF
  settings_eq : g.settings = (new cfg fun _ => 0).settings
  unit_eq : g.unit = false
  get_eq : g.get = fun x => m[x]?
  valid (x : UInt64) (v : Vec) : m[x]? = some v → validateVector v cfg.dim = .ok ()

namespace Graph
variable {cfg : Config D} {g h : Graph D} {m : VecMap}

section
variable (hg : g.Holds cfg m)
include hg

theorem Holds.cfg_eq : g.cfg = cfg.withDefaults :=
  congrArg (·.1) hg.settings_eq

theorem Holds.dim_eq : g.cfg.dim = cfg.dim := by
  rw [hg.cfg_eq]
  rfl

theorem Holds.prep_eq : g.prep = id :=
  funext fun v => Graph.prep_eq hg.unit_eq v

theorem Holds.prepared_eq (items : List (UInt64 × Vec)) : prepared g.prep items = items := by
  simp [prepared, hg.prep_eq]

theorem Holds.next (hw : h.WF) (hset : h.settings = g.settings)
    {m' : VecMap} (hget : h.get = fun x => m'[x]?)
    (hvalid : ∀ (x : UInt64) v, m'[x]? = some v → validateVector v cfg.dim = .ok ()) :
    h.Holds cfg m' :=
  ⟨hw, hset.trans hg.settings_eq, (congrArg (·.2.1) hset).trans hg.unit_eq, hget, hvalid⟩

theorem Holds.insert (id : UInt64) (vector : Vec) :
    ((Op.insert id vector).apply g).Holds cfg ((Call.change (.insert id vector)).onMap cfg.dim m) := by
  simp only [Op.apply, Graph.insert, Call.onMap, hg.dim_eq]
  cases hv : validateVector vector cfg.dim with
  | error e => exact hg
  | ok u =>
    have hstep : (Step.insert id vector).Valid g := (validateVector_length hv).trans hg.dim_eq.symm
    have hget := Step.get_apply hg.wf hstep
    simp only [Step.put, hg.prep_eq, hg.get_eq] at hget
    refine hg.next (Step.wf hg.wf hstep) ((Step.insert id vector).apply_settings g) ?_ ?_
    · exact hget.trans (funext fun x => (m.get_insert id vector x).symm)
    · intro x v hx
      rw [m.get_insert] at hx
      by_cases hid : x = id
      · simp only [hid, update_self, Option.some.injEq] at hx
        exact hx ▸ hv
      · rw [update_of_ne hid] at hx
        exact hg.valid x v hx

theorem Holds.insertBatch (workers : Workers) (ids : List UInt64) (vectors : List Vec) :
    ((Op.insertBatch workers ids vectors).apply g).Holds cfg
      ((Call.change (.insertBatch workers ids vectors)).onMap cfg.dim m) := by
  by_cases hlen : ids.length = vectors.length
  · obtain ⟨items, rfl, rfl⟩ : ∃ items : List (UInt64 × Vec), ids = items.map (·.1) ∧
        vectors = items.map (·.2) :=
      ⟨ids.zip vectors, (map_fst_zip hlen.le).symm, (map_snd_zip hlen.ge).symm⟩
    have hzip : (items.map (·.1)).zip (items.map (·.2)) = items := by
      rw [zip_map']
      simp
    simp only [Op.apply, Call.onMap, if_neg (not_not.mpr hlen), hzip]
    cases hv : validateAll cfg.dim (items.map (·.2)) with
    | error e =>
      have herr : g.insertBatch workers (items.map (·.1)) (items.map (·.2)) = .error e := by
        simp [Graph.insertBatch, hg.dim_eq, hv]
      rw [herr]
      exact hg
    | ok u =>
      have hok : g.insertBatch workers (items.map (·.1)) (items.map (·.2)) =
          .ok (batchLoop workers items.length g items) := by
        simp [Graph.insertBatch, hg.dim_eq, hv, hzip]
      obtain ⟨hw, hset, hget⟩ := hg.wf.insertBatch hok
      rw [hg.prepared_eq, hg.get_eq] at hget
      rw [hok]
      refine hg.next hw hset (hget.trans (funext fun x => (m.get_insertAll _ x).symm))
        fun x v hx => ?_
      rw [m.get_insertAll] at hx
      rcases putVecs_eq_some hx with hold | hmem
      · exact hg.valid x v hold
      · exact validateAll_eq_ok.mp hv v hmem
  · have herr : g.insertBatch workers ids vectors = .error .dimensionMismatch := by
      rw [Graph.insertBatch, if_pos hlen]
      rfl
    simp only [Op.apply, Call.onMap, herr, if_pos hlen]
    exact hg

theorem Holds.delete (id : UInt64) : ((Op.delete id).apply g).Holds cfg (m.erase id) := by
  have hget := Step.get_apply hg.wf (s := .delete id) trivial
  simp only [Step.put, hg.get_eq] at hget
  refine hg.next (Step.wf hg.wf (s := .delete id) trivial) ((Step.delete id).apply_settings g)
    (hget.trans (funext fun x => (m.get_erase id x).symm)) fun x v hx => ?_
  rw [m.get_erase] at hx
  by_cases hid : x = id
  · simp [hid] at hx
  · rw [update_of_ne hid] at hx
    exact hg.valid x v hx

theorem Holds.compact (workers : Workers) (rng : ℕ → ℕ) :
    ∃ h, g.compact workers rng = .ok h ∧ h.Holds cfg m := by
  have hdim : (new g.cfg rng).cfg.dim = cfg.dim := hg.dim_eq
  have hset : (new g.cfg rng).settings = g.settings := by
    rw [hg.cfg_eq, hg.settings_eq]
    exact new_withDefaults_settings cfg rng _
  have hvalid : ∀ it ∈ g.liveItems, validateVector it.2 (new g.cfg rng).cfg.dim = .ok () := by
    intro it hit
    have hget := hg.wf.shape.slotted.mem_liveItems.mp hit
    rw [hdim]
    exact hg.valid it.1 it.2 (congrFun hg.get_eq it.1 ▸ hget)
  have hok : g.compact workers rng =
      .ok (batchLoop workers g.liveItems.length (new g.cfg rng) g.liveItems) :=
    insertBatch_eq_ok.mpr ⟨hvalid, rfl⟩
  obtain ⟨hw, hset', hget⟩ := hg.wf.compact hok
  have hprep : (new g.cfg rng).prep = id := by
    rw [prep_of_settings hset, hg.prep_eq]
  refine ⟨_, hok, hg.next hw (hset'.trans hset) ?_ hg.valid⟩
  rw [hget, hprep, hg.get_eq]
  simp

theorem Holds.call (c : Call) : (c.apply g).Holds cfg (c.onMap cfg.dim m) := by
  cases c with
  | change op =>
    cases op with
    | insert id vector => exact hg.insert id vector
    | insertBatch workers ids vectors => exact hg.insertBatch workers ids vectors
    | delete id => exact hg.delete id
  | compact workers rng =>
    obtain ⟨h, hok, hh⟩ := hg.compact workers rng
    simp only [Call.apply, hok, Call.onMap]
    exact hh

theorem Holds.calls (calls : List Call) :
    (calls.foldl Call.apply g).Holds cfg (calls.foldl (Call.onMap cfg.dim) m) := by
  induction calls generalizing g m with
  | nil => exact hg
  | cons c calls ih => exact ih (hg.call c)

end

omit [Dist D] in
theorem ids_eq (g : Graph D) : g.ids = g.liveItems.map (·.1) := by
  simp [ids, liveItems]

theorem Holds.mem_liveIds (hg : g.Holds cfg m) (id : UInt64) : id ∈ g.liveIds ↔ id ∈ m := by
  rw [hg.wf.shape.slotted.mem_liveIds, hg.get_eq, ExtTreeMap.mem_iff_isSome_getElem?]

end Graph

end NuclaDB.Hnsw
