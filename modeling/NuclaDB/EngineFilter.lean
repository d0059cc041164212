import NuclaDB.EngineContents
import NuclaDB.HnswMap

/-!
# Metadata filters and the postings index

The postings index has the ids for each key and value joined by a NUL byte;
`filterCandidates` checks every filter on the smallest pool that some filter allows.
-/

namespace NuclaDB

open Hnsw Std List

/-- `FilterOp` is an int, of which nine values have a name. -/
inductive FilterOp
  | opEq
  | opNe
  | opIn
  | opNotIn
  | opGt
  | opGte
  | opLt
  | opLte
  | opExists
  | unknown (op : ℤ)
deriving DecidableEq, Repr

structure Filter where
  key : String
  op : FilterOp
  values : List String
deriving DecidableEq, Repr

/-- `strconv.ParseFloat` and the order tests of its numbers. The flag is `err == nil`. -/
structure Numbers (F : Type) where
  parseFloat : String → F × Bool
  lt : F → F → Bool
  le : F → F → Bool

/-- The ways in which a filter is refused, each with what the message names. -/
inductive BadFilter
  | needsOneValue (key : String)
  | needsAValue (key : String)
  | nonNumber (key value : String)
  | unknownOp (op : ℤ)
deriving DecidableEq, Repr

namespace Filter
variable {F : Type} (N : Numbers F) (f : Filter)

/-- `f.Values[0]`, which is there in a filter that has been validated. -/
def first : String := f.values.headD ""

def numeric : Except BadFilter Unit :=
  if f.values.length ≠ 1 then .error (.needsOneValue f.key)
  else if (N.parseFloat f.first).2 then .ok ()
  else .error (.nonNumber f.key f.first)

def validate : Except BadFilter Unit :=
  match f.op with
  | .opEq | .opNe => if f.values.length ≠ 1 then .error (.needsOneValue f.key) else .ok ()
  | .opIn | .opNotIn => if f.values.length = 0 then .error (.needsAValue f.key) else .ok ()
  | .opGt | .opGte | .opLt | .opLte => f.numeric N
  | .opExists => .ok ()
  | .unknown op => .error (.unknownOp op)

def compares (test : F → F → Bool) (v : Option String) : Bool :=
  match v with
  | none => false
  | some v =>
    let (x, isNumber) := N.parseFloat v
    isNumber && test x (N.parseFloat f.first).1

def isMatch (md : Meta) : Bool :=
  let v := md[f.key]?
  match f.op with
  | .opEq => v == some f.first
  | .opNe => !(v == some f.first)
  | .opIn => v.any f.values.contains
  | .opNotIn => !v.any f.values.contains
  | .opExists => v.isSome
  | .opGt => f.compares N (fun x want => N.lt want x) v
  | .opGte => f.compares N (fun x want => N.le want x) v
  | .opLt => f.compares N N.lt v
  | .opLte | .unknown _ => f.compares N N.le v

end Filter

def matchesFilters {F : Type} (N : Numbers F) (md : Meta) (filters : List Filter) : Bool :=
  filters.all fun f => f.isMatch N md

abbrev IdSet := ExtTreeSet UInt64 compare

def maxInt : ℤ := 2 ^ 63 - 1

namespace Engine
variable {D : Type}

def postingSets (e : Engine D) (f : Filter) : List IdSet :=
  f.values.eraseDups.map fun v => e.postings[postingKey f.key v]?.getD ∅

def poolSize (sets : List IdSet) : ℕ := (sets.map (·.size)).sum

def bestSets (e : Engine D) (filters : List Filter) : Option (List IdSet) :=
  filters.foldl (fun best f =>
    if f.op = .opEq ∨ f.op = .opIn then match best with
      | none => some (e.postingSets f)
      | some sets =>
        if poolSize (e.postingSets f) < poolSize sets then some (e.postingSets f) else some sets
    else best) none

def withinLimit (size : ℕ) (limit : ℤ) : Bool := limit = maxInt || size ≤ limit

def filterPool (e : Engine D) (filters : List Filter) (limit : ℤ) : Option (List UInt64) :=
  match e.bestSets filters with
  | some sets =>
    if withinLimit (poolSize sets) limit then some (sets.flatMap (·.toList)) else none
  | none => if limit = maxInt then some e.graph.ids else none

def filterCandidates {F : Type} (N : Numbers F) (e : Engine D) (filters : List Filter) (limit : ℤ) :
    Option (List UInt64) :=
  (e.filterPool filters limit).map fun pool =>
    pool.filter fun id => matchesFilters N (metaAt e.metadata id) filters

end Engine

section Postings

def Posted (p : Postings) (key : String) (id : UInt64) : Prop := id ∈ p[key]?.getD ∅

def Meta.HasPosting (md : Meta) (key : String) : Prop :=
  ∃ k v, md[k]? = some v ∧ postingKey k v = key

def Indexes (p : Postings) (m : UInt64 → Meta) : Prop :=
  ∀ key id, Posted p key id ↔ (m id).HasPosting key

theorem posted_addPosting {p : Postings} {key key' : String} {id id' : UInt64} :
    Posted (addPosting p key id) key' id' ↔ (key = key' ∧ id = id') ∨ Posted p key' id' := by
  simp only [Posted, addPosting, ExtTreeMap.getElem?_insert]
  by_cases hkey : key = key'
  · subst hkey
    simp [ExtTreeSet.mem_insert]
  · simp [hkey]

theorem posted_removePosting {p : Postings} {key key' : String} {id id' : UInt64} :
    Posted (removePosting p key id) key' id' ↔ ¬ (key = key' ∧ id = id') ∧ Posted p key' id' := by
  simp only [Posted, removePosting]
  split
  · next hempty =>
    have hnone : ∀ i, i ∈ p[key]?.getD ∅ → i = id := by
      intro i hi
      by_contra hne
      have hmem : i ∈ (p[key]?.getD ∅).erase id := by
        simp [ExtTreeSet.mem_erase, Ne.symm hne, hi]
      rw [ExtTreeSet.isEmpty_iff.mp hempty] at hmem
      simp at hmem
    simp only [ExtTreeMap.getElem?_erase]
    by_cases hkey : key = key'
    · subst hkey
      simp only [ReflCmp.compare_self, true_and]
      grind [ExtTreeSet.not_mem_empty]
    · simp [hkey]
  · simp only [ExtTreeMap.getElem?_insert]
    by_cases hkey : key = key'
    · subst hkey
      simp [ExtTreeSet.mem_erase]
    · simp [hkey]

theorem posted_addPostings {p : Postings} {id id' : UInt64} {md : Meta} {key : String} :
    Posted (addPostings p id md) key id' ↔ (id = id' ∧ md.HasPosting key) ∨ Posted p key id' := by
  have hfold : ∀ (pairs : List (String × String)) (p : Postings),
      Posted (pairs.foldl (fun p kv => addPosting p (postingKey kv.1 kv.2) id) p) key id' ↔
        (id = id' ∧ ∃ kv ∈ pairs, postingKey kv.1 kv.2 = key) ∨ Posted p key id' := by
    intro pairs
    induction pairs with
    | nil => simp
    | cons kv pairs ih =>
      intro p
      simp only [foldl_cons, ih, posted_addPosting, mem_cons, exists_eq_or_imp]
      grind
  rw [addPostings, hfold]
  simp only [Meta.HasPosting, Prod.exists, ExtTreeMap.mem_toList_iff_getElem?_eq_some]

theorem posted_removePostings (p : Postings) (id id' : UInt64) (md : Meta) (key : String) :
    Posted (md.toList.foldl (fun p kv => removePosting p (postingKey kv.1 kv.2) id) p) key id' ↔
      ¬ (id = id' ∧ md.HasPosting key) ∧ Posted p key id' := by
  have hfold : ∀ (pairs : List (String × String)) (p : Postings),
      Posted (pairs.foldl (fun p kv => removePosting p (postingKey kv.1 kv.2) id) p) key id' ↔
        ¬ (id = id' ∧ ∃ kv ∈ pairs, postingKey kv.1 kv.2 = key) ∧ Posted p key id' := by
    intro pairs
    induction pairs with
    | nil => simp
    | cons kv pairs ih =>
      intro p
      simp only [foldl_cons, ih, posted_removePosting, mem_cons, exists_eq_or_imp]
      grind
  rw [hfold]
  simp only [Meta.HasPosting, Prod.exists, ExtTreeMap.mem_toList_iff_getElem?_eq_some]

theorem not_hasPosting_empty (key : String) : ¬ Meta.HasPosting ∅ key := by
  simp [Meta.HasPosting]

theorem not_posted_empty (key : String) (id : UInt64) : ¬ Posted ∅ key id := by
  simp [Posted]

theorem buildPostings_indexes (metadata : Metadata) :
    Indexes (buildPostings metadata) (metaAt metadata) := by
  intro key id
  have hfold : ∀ (entries : List (UInt64 × Meta)) (p : Postings),
      Posted (entries.foldl (fun p entry => addPostings p entry.1 entry.2) p) key id ↔
        (∃ md, (id, md) ∈ entries ∧ md.HasPosting key) ∨ Posted p key id := by
    intro entries
    induction entries with
    | nil => simp
    | cons entry entries ih =>
      intro p
      obtain ⟨id', md'⟩ := entry
      simp only [foldl_cons, ih, posted_addPostings, mem_cons, Prod.mk.injEq]
      grind
  rw [buildPostings, hfold]
  simp only [not_posted_empty, or_false, ExtTreeMap.mem_toList_iff_getElem?_eq_some, metaAt]
  cases hmd : metadata[id]? with
  | none => simp [not_hasPosting_empty]
  | some md => simp

def Engine.Indexed {D : Type} (e : Engine D) : Prop := Indexes e.postings (metaAt e.metadata)

theorem Engine.Indexed.setMeta {D : Type} {e : Engine D} (h : e.Indexed) (id : UInt64) (md : Meta) :
    (e.setMeta id md).Indexed := by
  intro key id'
  rw [e.setMeta_metaAt]
  have hremoved := posted_removePostings e.postings id id' (e.metadata[id]?.getD ∅) key
  have hposted : Posted (e.setMeta id md).postings key id' ↔ (id = id' ∧ md.HasPosting key) ∨
      (¬ (id = id' ∧ (metaAt e.metadata id).HasPosting key) ∧ Posted e.postings key id') := by
    simp only [Engine.setMeta]
    split
    · next hempty =>
      rw [ExtTreeMap.isEmpty_iff.mp hempty, hremoved]
      simp [not_hasPosting_empty, metaAt]
    · rw [posted_addPostings, hremoved]
      rfl
  rw [hposted, h key id']
  by_cases hid : id = id'
  · subst hid
    simp
  · simp [hid, Function.update_of_ne (Ne.symm hid)]

end Postings

section Candidates
variable {F D : Type} {N : Numbers F} {e : Engine D} {filters : List Filter}

theorem Engine.Indexed.mem_postingSets (h : e.Indexed) {f : Filter} (hvalid : f.validate N = .ok ())
    (hop : f.op = .opEq ∨ f.op = .opIn) {id : UInt64}
    (hmatch : f.isMatch N (metaAt e.metadata id) = true) :
    id ∈ (e.postingSets f).flatMap (·.toList) := by
  obtain ⟨v, hv, hval⟩ : ∃ v ∈ f.values, (metaAt e.metadata id)[f.key]? = some v := by
    rcases hop with hop | hop
    · simp only [Filter.isMatch, hop, beq_iff_eq] at hmatch
      refine ⟨f.first, ?_, hmatch⟩
      simp only [Filter.validate, hop, ne_eq, ite_not] at hvalid
      split at hvalid
      · next hlen =>
        obtain ⟨v, hv⟩ := length_eq_one_iff.mp hlen
        simp [Filter.first, hv]
      · simp at hvalid
    · simp only [Filter.isMatch, hop, Option.any_eq_true] at hmatch
      obtain ⟨v, hv, hmem⟩ := hmatch
      exact ⟨v, by simpa using hmem, hv⟩
  have hposted : Posted e.postings (postingKey f.key v) id := (h _ _).mpr ⟨f.key, v, hval, rfl⟩
  simp only [postingSets, mem_flatMap, mem_map, mem_eraseDups, ExtTreeSet.mem_toList]
  exact ⟨_, ⟨v, hv, rfl⟩, hposted⟩

theorem Engine.bestSets_cases (e : Engine D) (filters : List Filter) :
    (e.bestSets filters = none ∧ ∀ f ∈ filters, ¬ (f.op = .opEq ∨ f.op = .opIn)) ∨
      ∃ f ∈ filters, (f.op = .opEq ∨ f.op = .opIn) ∧ e.bestSets filters = some (e.postingSets f) := by
  induction filters using List.reverseRecOn with
  | nil => simp [bestSets]
  | append_singleton filters f ih =>
    simp only [bestSets, foldl_append, foldl_cons, foldl_nil] at ih ⊢
    by_cases hop : f.op = .opEq ∨ f.op = .opIn
    · right
      rw [if_pos hop]
      rcases ih with ⟨hnone, -⟩ | ⟨f', hf', hop', hsome⟩
      · exact ⟨f, by simp, hop, by rw [hnone]⟩
      · rw [hsome]
        dsimp only
        split
        · exact ⟨f, by simp, hop, rfl⟩
        · exact ⟨f', by simp [hf'], hop', rfl⟩
    · rw [if_neg hop]
      rcases ih with ⟨hnone, hall⟩ | ⟨f', hf', hop', hsome⟩
      · refine .inl ⟨hnone, ?_⟩
        simpa only [forall_mem_append, forall_mem_singleton] using ⟨hall, hop⟩
      · exact .inr ⟨f', by simp [hf'], hop', hsome⟩

theorem Hnsw.Graph.Slotted.mem_ids {g : Graph D} (hg : g.Slotted) {id : UInt64} :
    id ∈ g.ids ↔ (g.get id).isSome = true := by
  rw [Graph.ids_eq, ← hg.mem_liveIds, Graph.liveIds, mem_toFinset]

section
variable (h : e.Indexed) (hg : e.graph.Slotted)
  (hlive : ∀ id, e.graph.get id = none → metaAt e.metadata id = ∅)
  (hvalid : ∀ f ∈ filters, f.validate N = .ok ())
include h hg hlive hvalid

theorem Engine.Indexed.mem_filterPool {limit : ℤ} {pool : List UInt64}
    (hpool : e.filterPool filters limit = some pool) {id : UInt64}
    (hmatch : matchesFilters N (metaAt e.metadata id) filters = true) :
    id ∈ pool ↔ (e.graph.get id).isSome = true := by
  rcases e.bestSets_cases filters with ⟨hnone, -⟩ | ⟨f, hf, hop, hsome⟩
  · simp only [filterPool, hnone, Option.ite_none_right_eq_some, Option.some.injEq] at hpool
    rw [← hpool.2, hg.mem_ids]
  · simp only [filterPool, hsome, Option.ite_none_right_eq_some, Option.some.injEq] at hpool
    have hmem := h.mem_postingSets (hvalid f hf) hop (all_eq_true.mp hmatch f hf)
    refine iff_of_true (hpool.2 ▸ hmem) (Option.isSome_iff_ne_none.mpr fun hget => ?_)
    -- an id that is not live has no metadata and so no postings
    obtain ⟨_, hset, hid⟩ := mem_flatMap.mp hmem
    obtain ⟨v, -, rfl⟩ := mem_map.mp hset
    have hposting := (h _ id).mp (ExtTreeSet.mem_toList.mp hid)
    rw [hlive id hget] at hposting
    exact not_hasPosting_empty _ hposting

theorem Engine.Indexed.mem_filterCandidates {limit : ℤ} {ids : List UInt64}
    (hids : e.filterCandidates N filters limit = some ids) (id : UInt64) :
    id ∈ ids ↔ (e.graph.get id).isSome = true ∧
      matchesFilters N (metaAt e.metadata id) filters = true := by
  obtain ⟨pool, hpool, rfl⟩ := Option.map_eq_some_iff.mp hids
  rw [mem_filter]
  constructor
  · rintro ⟨hmem, hmatch⟩
    exact ⟨(h.mem_filterPool hg hlive hvalid hpool hmatch).mp hmem, hmatch⟩
  · rintro ⟨hget, hmatch⟩
    exact ⟨(h.mem_filterPool hg hlive hvalid hpool hmatch).mpr hget, hmatch⟩

end

theorem Engine.filterCandidates_maxInt (e : Engine D) (N : Numbers F) (filters : List Filter) :
    ∃ ids, e.filterCandidates N filters maxInt = some ids := by
  simp only [filterCandidates, filterPool]
  cases e.bestSets filters with
  | none => exact ⟨_, rfl⟩
  | some sets => exact ⟨_, rfl⟩

end Candidates

end NuclaDB
