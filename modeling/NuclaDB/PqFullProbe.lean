import NuclaDB.PqExact

/-!
# Probing every list is searching the flat index

After the same calls the inverted file holds the codes of the flat index, each in the one
list that `listOf` names (`Files`).
-/

namespace NuclaDB.Pq

open Hnsw (StrictWeak)
open TopK BinaryHeap List

structure Total {D : Type} (lt : D → D → Bool) : Prop extends StrictWeak lt where
  eq_of_not_lt {a b : D} : lt a b = false → lt b a = false → a = b

section Contents
variable {V D : Type} [Arith V D] {idx : IVFIndex V} {flat : Index V} {id x : UInt64} {code : Code} {l : ℕ}

def IVFIndex.filed (idx : IVFIndex V) (l : ℕ) (id : UInt64) : Option Code :=
  (idx.lists.getD l ∅)[id]?

/-- The inverted file holds the codes of the flat index, each in the list that `listOf` names. -/
structure Files (idx : IVFIndex V) (flat : Index V) : Prop where
  codebook : idx.codebook = flat.codebook
  nlist_pos : 0 < idx.nlist
  lists_length : idx.lists.length = idx.nlist
  listOf_iff (id : UInt64) (l : ℕ) : idx.listOf[id]? = some l ↔ (idx.filed l id).isSome
  codes_iff (id : UInt64) (code : Code) : flat.codes[id]? = some code ↔ ∃ l, idx.filed l id = some code

theorem getD_modify (lists : List Codes) (j : ℕ) (f : Codes → Codes) (l : ℕ) :
    (lists.modify j f).getD l ∅ =
      if l = j ∧ j < lists.length then f (lists.getD l ∅) else lists.getD l ∅ := by
  simp only [getD_eq_getElem?_getD, getElem?_modify]
  grind

theorem Files.lt_nlist (hf : Files idx flat) (h : (idx.filed l id).isSome) : l < idx.nlist := by
  by_contra hl
  rw [IVFIndex.filed, getD_eq_getElem?_getD, getElem?_eq_none (by rw [hf.lists_length]; omega)] at h
  simp at h

theorem Files.filed_eq_none (hf : Files idx flat) (h : idx.listOf[id]? ≠ some l) :
    idx.filed l id = none := by
  rw [← Option.not_isSome_iff_eq_none, ← hf.listOf_iff]
  exact h

theorem nearestLists_mem (idx : IVFIndex V) (v : List V) (n : ℤ) (hl : l ∈ idx.nearestLists D v n) :
    l < idx.nlist := by
  simp only [IVFIndex.nearestLists] at hl
  split at hl
  · simp at hl
  · have hmem := mem_of_mem_take hl
    exact mem_range.mp ((Arith.sortSlice_perm _ _).mem_iff.mp hmem)

theorem nearestLists_perm (idx : IVFIndex V) (v : List V) {n : ℤ} (hpos : 0 < n)
    (hn : (idx.nlist : ℤ) ≤ n) : (idx.nearestLists D v n).Perm (List.range idx.nlist) := by
  simp only [IVFIndex.nearestLists, if_neg (Int.not_le.mpr hpos)]
  have hperm := Arith.sortSlice_perm (D := D) (fun a b =>
    Arith.lt (sqDist v (centroidAt idx.centroids a idx.dim) : D)
      (sqDist v (centroidAt idx.centroids b idx.dim))) (List.range idx.nlist)
  rw [take_of_length_le]
  · exact hperm
  · rw [hperm.length_eq, length_range]
    omega

theorem nearestLists_one_lt (idx : IVFIndex V) (hpos : 0 < idx.nlist) (vector : List V) :
    (idx.nearestLists D vector 1).getD 0 0 < idx.nlist := by
  cases h : idx.nearestLists D vector 1 with
  | nil => simpa using hpos
  | cons l rest =>
    refine nearestLists_mem (D := D) idx vector 1 ?_
    simp [h]

theorem Files.unfile (hf : Files idx flat) (id x : UInt64) (l : ℕ) :
    ((idx.unfile id).getD l ∅)[x]? = if x = id then none else idx.filed l x := by
  have hnone : ∀ l, idx.listOf[id]? ≠ some l → idx.filed l id = none := fun l => hf.filed_eq_none
  simp only [IVFIndex.unfile]
  cases hold : idx.listOf[id]? with
  | none =>
    by_cases hx : x = id
    · subst hx
      rw [if_pos rfl]
      exact hnone l (by simp [hold])
    · rw [if_neg hx]
      rfl
  | some old =>
    have hlt : old < idx.lists.length := by
      rw [hf.lists_length]
      exact hf.lt_nlist ((hf.listOf_iff id old).mp hold)
    dsimp only
    rw [getD_modify]
    by_cases hl : l = old
    · rw [if_pos ⟨hl, hlt⟩, Std.ExtTreeMap.getElem?_erase]
      by_cases hx : x = id
      · simp [hx]
      · simp [hx, Ne.symm hx, IVFIndex.filed]
    · rw [if_neg (fun h => hl h.1)]
      by_cases hx : x = id
      · subst hx
        rw [if_pos rfl]
        exact hnone l (by simp [hold, Ne.symm hl])
      · rw [if_neg hx]
        rfl

theorem length_unfile (idx : IVFIndex V) (id : UInt64) : (idx.unfile id).length = idx.lists.length := by
  simp only [IVFIndex.unfile]
  split
  · exact length_modify ..
  · rfl

section
variable (hf : Files idx flat)
include hf

theorem Files.insert {list : ℕ} (hlist : list < idx.nlist) (id : UInt64) (code : Code) : Files
      { idx with
        lists := (idx.unfile id).modify list fun m => m.insert id code
        listOf := idx.listOf.insert id list }
      { flat with codes := flat.codes.insert id code } := by
  have hlen : (idx.unfile id).length = idx.nlist := (length_unfile idx id).trans hf.lists_length
  have hfiled : ∀ l x, IVFIndex.filed { idx with
      lists := (idx.unfile id).modify list fun m => m.insert id code
      listOf := idx.listOf.insert id list } l x =
      if x = id then if l = list then some code else none else idx.filed l x := by
    intro l x
    rw [IVFIndex.filed, getD_modify]
    by_cases hl : l = list
    · rw [if_pos ⟨hl, by omega⟩, Std.ExtTreeMap.getElem?_insert, hf.unfile]
      by_cases hx : x = id
      · simp [hx, hl]
      · simp [hx, Ne.symm hx]
    · rw [if_neg (fun h => hl h.1), hf.unfile]
      by_cases hx : x = id <;> simp [hx, hl]
  refine ⟨hf.codebook, hf.nlist_pos, by simp [hlen], fun x l => ?_, fun x c => ?_⟩
  · rw [hfiled, Std.ExtTreeMap.getElem?_insert]
    by_cases hx : x = id
    · by_cases hl : l = list
      · simp [hx, hl]
      · simp [hx, hl, Ne.symm hl]
    · simpa [hx, Ne.symm hx] using hf.listOf_iff x l
  · simp only [hfiled, Std.ExtTreeMap.getElem?_insert]
    by_cases hx : x = id
    · simp [hx]
    · simpa [hx, Ne.symm hx] using hf.codes_iff x c

theorem Files.delete (id : UInt64) : Files (idx.delete id) (flat.delete id) := by
  have herase : ∀ (x : UInt64) (c : Code), (flat.codes.erase id)[x]? = some c ↔
      x ≠ id ∧ ∃ l, idx.filed l x = some c := by
    intro x c
    rw [Std.ExtTreeMap.getElem?_erase, ← hf.codes_iff]
    by_cases hx : x = id <;> simp [hx, eq_comm (a := id)]
  simp only [IVFIndex.delete]
  cases hold : idx.listOf[id]? with
  | none =>
    refine ⟨hf.codebook, hf.nlist_pos, hf.lists_length, hf.listOf_iff, fun x c => ?_⟩
    refine (herase x c).trans ⟨fun h => h.2, fun h => ⟨?_, h⟩⟩
    rintro rfl
    obtain ⟨l, hl⟩ := h
    simp [hf.filed_eq_none (show idx.listOf[x]? ≠ some l by simp [hold])] at hl
  | some old =>
    have hfiled : ∀ l x, IVFIndex.filed { idx with
        lists := idx.unfile id, listOf := idx.listOf.erase id } l x =
        if x = id then none else idx.filed l x := fun l x => hf.unfile id x l
    refine ⟨hf.codebook, hf.nlist_pos, (length_unfile idx id).trans hf.lists_length,
      fun x l => ?_, fun x c => ?_⟩
    · rw [hfiled, Std.ExtTreeMap.getElem?_erase]
      by_cases hx : x = id
      · simp [hx]
      · simpa [hx, Ne.symm hx] using hf.listOf_iff x l
    · refine (herase x c).trans ?_
      simp only [hfiled]
      by_cases hx : x = id <;> simp [hx]

theorem Files.apply (op : Op V) : Files (idx.apply D op) (flat.apply D op) := by
  cases op with
  | insert id vector =>
    have hcode : idx.codebook.encode D vector = flat.codebook.encode D vector := by
      rw [hf.codebook]
    simp only [IVFIndex.apply, Index.apply, IVFIndex.insert, Index.insert, hcode]
    cases flat.codebook.encode D vector with
    | error e => exact hf
    | ok code => exact hf.insert (nearestLists_one_lt (D := D) idx hf.nlist_pos vector) id code
  | delete id => exact hf.delete id

theorem Files.run (ops : List (Op V)) :
    Files (ops.foldl (IVFIndex.apply D) idx) (ops.foldl (Index.apply D) flat) := by
  induction ops generalizing idx flat with
  | nil => exact hf
  | cons op ops ih => exact ih (hf.apply op)

end

theorem codebook_run (flat : Index V) (ops : List (Op V)) :
    (ops.foldl (Index.apply D) flat).codebook = flat.codebook := by
  induction ops generalizing flat with
  | nil => rfl
  | cons op ops ih =>
    refine (ih _).trans ?_
    cases op with
    | insert id vector =>
      simp only [Index.apply, Index.insert]
      cases flat.codebook.encode D vector <;> rfl
    | delete id => rfl

theorem nlist_run (idx : IVFIndex V) (ops : List (Op V)) :
    (ops.foldl (IVFIndex.apply D) idx).nlist = idx.nlist := by
  induction ops generalizing idx with
  | nil => rfl
  | cons op ops ih =>
    refine (ih _).trans ?_
    cases op with
    | insert id vector =>
      simp only [IVFIndex.apply, IVFIndex.insert]
      cases idx.codebook.encode D vector <;> rfl
    | delete id =>
      simp only [IVFIndex.apply, IVFIndex.delete]
      cases idx.listOf[id]? <;> rfl

theorem trainIVF_files {kmeans : List (List V) → ℕ → List V} {cb : Codebook V} {nlist : ℤ}
    {sample : List (List V)} (h : trainIVF kmeans cb nlist sample = .ok idx) :
    Files idx (Index.new cb) ∧ (idx.nlist : ℤ) = nlist := by
  simp only [trainIVF] at h
  split at h
  · cases h
  · next hrange =>
    split at h
    · cases h
    · simp only [pure, Except.pure, Except.ok.injEq] at h
      subst h
      refine ⟨⟨rfl, by dsimp only; omega, by simp, fun id l => ?_, fun id code => ?_⟩,
        by dsimp only; omega⟩
      · simp [IVFIndex.filed]
      · simp [IVFIndex.filed, Index.new]

theorem Files.toList_perm (hf : Files idx flat) :
    ((List.range idx.nlist).flatMap fun l => (idx.lists.getD l ∅).toList).Perm
      flat.codes.toList := by
  have hnodup : ∀ codes : Codes, codes.toList.Nodup := fun codes =>
    Std.ExtTreeMap.distinct_keys_toList.imp fun hne heq => hne (by simp [heq])
  refine (perm_ext_iff_of_nodup ?_ (hnodup _)).mpr fun ⟨id, code⟩ => ?_
  · refine nodup_flatMap.mpr ⟨fun l _ => hnodup _, ?_⟩
    refine (nodup_range).imp fun {l l'} hne => ?_
    rintro ⟨id, code⟩ hmem hmem'
    rw [Std.ExtTreeMap.mem_toList_iff_getElem?_eq_some] at hmem hmem'
    have hl := (hf.listOf_iff id l).mpr (Option.isSome_of_eq_some hmem)
    have hl' := (hf.listOf_iff id l').mpr (Option.isSome_of_eq_some hmem')
    exact hne (Option.some.inj (hl.symm.trans hl'))
  · rw [mem_flatMap, Std.ExtTreeMap.mem_toList_iff_getElem?_eq_some, hf.codes_iff]
    constructor
    · rintro ⟨l, -, hmem⟩
      exact ⟨l, Std.ExtTreeMap.mem_toList_iff_getElem?_eq_some.mp hmem⟩
    · rintro ⟨l, hl⟩
      exact ⟨l, mem_range.mpr (hf.lt_nlist (Option.isSome_of_eq_some hl)),
        Std.ExtTreeMap.mem_toList_iff_getElem?_eq_some.mpr hl⟩

theorem Files.len_eq (hf : Files idx flat) : idx.len = flat.len := by
  have hkeys : idx.listOf.keys.Perm flat.codes.keys := by
    refine (perm_ext_iff_of_nodup Std.ExtTreeMap.nodup_keys Std.ExtTreeMap.nodup_keys).mpr fun id => ?_
    rw [Std.ExtTreeMap.mem_keys, Std.ExtTreeMap.mem_keys,
      ← Std.ExtTreeMap.isSome_getElem?_iff_mem, ← Std.ExtTreeMap.isSome_getElem?_iff_mem,
      Option.isSome_iff_exists, Option.isSome_iff_exists]
    simp only [hf.listOf_iff, hf.codes_iff, Option.isSome_iff_exists]
    exact exists_comm
  simpa [IVFIndex.len, Index.len] using hkeys.length_eq

end Contents

section Search
variable {V D : Type} [Arith V D] {table : DistanceTable D} {k : ℕ} {all h : List (SearchResult D)}

theorem weak_farther (ho : StrictWeak (Arith.lt (D := D))) : Weak (farther (D := D)) :=
  ⟨ho.asymm, fun hab hbc => ho.not_trans hbc hab⟩

def DistanceTable.result (table : DistanceTable D) (e : UInt64 × Code) : SearchResult D :=
  ⟨e.1, table.distance e.2⟩

/-- Both scans differ only in how they exchange the farthest entry for a closer one. -/
theorem held_scan (ho : StrictWeak (Arith.lt (D := D))) (hk : 1 ≤ k) (hh : Held farther k all h)
    (e : UInt64 × Code) {swapped : List (SearchResult D)}
    (hswap : ∀ top, h[0]? = some top → IsHeap farther swapped ∧
      (top :: swapped).Perm (table.result e :: h)) :
    Held farther k (table.result e :: all)
      (if h.length < k then push farther h (table.result e)
        else if beatsFarthest (table.distance e.2) h then swapped else h) := by
  have hw := weak_farther ho
  by_cases hroom : h.length < k
  · rw [if_pos hroom]
    exact hh.push hw hroom _
  · have hfull : k ≤ h.length := Nat.not_lt.mp hroom
    rw [if_neg hroom]
    cases h with
    | nil => simp at hfull; omega
    | cons top rest =>
      obtain ⟨hheap, hperm⟩ := hswap top rfl
      cases hbeats : beatsFarthest (table.distance e.2) (top :: rest) with
      | true =>
        have hworse : farther top (table.result e) = true := hbeats
        exact hh.exchange hw hfull rfl hworse hheap hperm
      | false => exact hh.skip hw hfull rfl hbeats

theorem held_index_scan (table : DistanceTable D) (ho : StrictWeak (Arith.lt (D := D)))
    (hk : 1 ≤ k) (hh : Held farther k all h) (e : UInt64 × Code) :
    Held farther k ([table.result e] ++ all) (Index.scan table k h e) := by
  have hw := weak_farther ho
  refine held_scan ho hk hh e fun top htop => ?_
  rw [ContainerHeap.pop_eq hw]
  cases hpop : pop farther h with
  | none => simp [(pop_eq_none farther).mp hpop] at htop
  | some popped =>
    obtain ⟨out, rest⟩ := popped
    rw [getElem?_of_pop hpop, Option.some.injEq] at htop
    subst htop
    refine ⟨push_isHeap hw (pop_isHeap hw hh.heap hpop) _, ?_⟩
    refine ((push_perm farther rest _).cons out).trans ?_
    exact (List.Perm.swap _ _ _).trans ((pop_perm farther hpop).symm.cons _)

theorem held_ivf_scan (ho : StrictWeak (Arith.lt (D := D))) (hk : 1 ≤ k)
    (hh : Held farther k all h) (e : UInt64 × Code) :
    Held farther k ([table.result e] ++ all) (IVFIndex.scan table k h e) := by
  have hw := weak_farther ho
  refine held_scan ho hk hh e fun top htop => ?_
  rw [ContainerHeap.fix_zero_eq hw]
  refine ⟨downLoop_isHeap hw (Nat.le_refl _) (hh.heap.set_root _), ?_⟩
  refine ((downLoop_perm farther _ _ _).cons top).trans ?_
  cases h with
  | nil => simp at htop
  | cons first rest =>
    simp only [getElem?_cons_zero, Option.some.injEq] at htop
    subst htop
    exact List.Perm.swap _ _ _

theorem held_list (table : DistanceTable D) (ho : StrictWeak (Arith.lt (D := D))) (hk : 1 ≤ k)
    (entries : List (UInt64 × Code)) (hh : Held farther k all h) :
    Held farther k (entries.map table.result ++ all)
      (entries.foldl (IVFIndex.scan table k) h) := by
  rw [map_eq_flatMap]
  exact hh.foldl (fun _ _ e hh => held_ivf_scan ho hk hh e) entries

section
variable (ho : StrictWeak (Arith.lt (D := D)))
include ho

theorem collect_best (hh : Held farther k all h) : Best farther k all (collect h) ∧
      (collect h).Pairwise fun a b => Arith.lt b.distance a.distance = false := by
  rw [collect, ContainerHeap.drain_eq (weak_farther ho)]
  exact hh.drain (weak_farther ho)

theorem Index.search_best (r : Ranging) {flat : Index V}
    {query : List V} (htable : flat.codebook.newDistanceTable D query = .ok table) {topK : ℤ}
    (htop : 1 ≤ topK) :
    ∃ out, flat.search r query topK = .ok out ∧
      Best farther topK.toNat (flat.codes.toList.map table.result) out ∧
      out.Pairwise fun a b => Arith.lt b.distance a.distance = false := by
  have hheld := Held.foldl (k := topK.toNat)
    (fun _ _ e hh => held_index_scan table ho (by omega) hh e) (r.entries 0 flat.codes) held_nil
  obtain ⟨hbest, hsorted⟩ := collect_best ho hheld
  refine ⟨_, by simp only [Index.search, htable, if_neg (show ¬topK ≤ 0 by omega)]; rfl, ?_, hsorted⟩
  refine hbest.perm .rfl ?_
  rw [append_nil, ← map_eq_flatMap]
  exact (r.entries_perm 0 flat.codes).symm.map _

theorem Files.search_best (r : Ranging) {idx : IVFIndex V}
    {flat : Index V} (hf : Files idx flat) {query : List V}
    (htable : flat.codebook.newDistanceTable D query = .ok table) {topK nprobe : ℤ}
    (htop : 1 ≤ topK) (hprobe : (idx.nlist : ℤ) ≤ nprobe) :
    ∃ out, idx.search r query topK nprobe = .ok out ∧
      Best farther topK.toNat (flat.codes.toList.map table.result) out ∧
      out.Pairwise fun a b => Arith.lt b.distance a.distance = false := by
  have hpos := hf.nlist_pos
  have hheld := Held.foldl (k := topK.toNat)
    (fun _ _ l hh => held_list table ho (by omega) (r.entries l (idx.lists.getD l ∅)) hh)
    (idx.nearestLists D query nprobe) held_nil
  obtain ⟨hbest, hsorted⟩ := collect_best ho hheld
  refine ⟨_, by simp only [IVFIndex.search, hf.codebook, htable,
    if_neg (show ¬(topK ≤ 0 ∨ nprobe ≤ 0) by omega)]; rfl, ?_, hsorted⟩
  refine hbest.perm .rfl ?_
  rw [append_nil]
  refine (hf.toList_perm.symm.map table.result).trans ?_
  rw [map_flatMap]
  exact ((nearestLists_perm (D := D) idx query (by omega) hprobe).symm.flatMap_right _).trans
    (List.Perm.flatMap_left _ fun l _ => (r.entries_perm l _).symm.map _)

end

theorem Total.distances_eq (ho : Total (Arith.lt (D := D))) {out out' : List (SearchResult D)}
    (hbest : Best farther k all out) (hbest' : Best farther k all out')
    (hsorted : out.Pairwise fun a b => Arith.lt b.distance a.distance = false)
    (hsorted' : out'.Pairwise fun a b => Arith.lt b.distance a.distance = false) :
    out.map (·.distance) = out'.map (·.distance) := by
  have hw : Weak fun d e : D => Arith.lt e d :=
    ⟨ho.asymm, fun hab hbc => ho.not_trans hbc hab⟩
  exact Best.unique hw (fun _ _ hab hba => ho.eq_of_not_lt hba hab)
    (hbest.map _ fun _ _ => rfl) (hbest'.map _ fun _ _ => rfl)
    (pairwise_map.mpr hsorted) (pairwise_map.mpr hsorted')

/-- A search of all lists of an inverted file and one of the flat index after the same calls, for
any codebook, coarse centroids and order of the map entries. -/
theorem full_probe_matches_flat (kmeans : List (List V) → ℕ → List V) {cb : Codebook V} {nlist : ℤ}
    {sample : List (List V)} {ivf₀ : IVFIndex V} (htrain : trainIVF kmeans cb nlist sample = .ok ivf₀)
    (ho : Total (Arith.lt (D := D))) (ops : List (Op V)) (query : List V) {topK nprobe : ℤ}
    (htop : 1 ≤ topK) (hprobe : nlist ≤ nprobe) (r r' : Ranging) :
    let flat := ops.foldl (Index.apply D) (Index.new cb)
    let ivf := ops.foldl (IVFIndex.apply D) ivf₀
    (∀ (id : UInt64) (l : ℕ), id ∈ ivf.lists.getD l ∅ ↔ ivf.listOf[id]? = some l) ∧
    (∀ (id : UInt64) (code : Code), flat.codes[id]? = some code ↔ ∃ l, (ivf.lists.getD l ∅)[id]? = some code) ∧
    ivf.len = flat.len ∧
    ((∃ e, cb.newDistanceTable D query = .error e ∧ flat.search (D := D) r query topK = .error e ∧
      ivf.search (D := D) r' query topK nprobe = .error e) ∨
    ∃ table flatOut ivfOut, cb.newDistanceTable D query = .ok table ∧
      flat.search r query topK = .ok flatOut ∧ ivf.search r' query topK nprobe = .ok ivfOut ∧
      flatOut.length = min topK.toNat flat.len ∧ ivfOut.length = min topK.toNat flat.len ∧
      flatOut.map (·.distance) = ivfOut.map (·.distance) ∧
      flatOut.Pairwise (fun a b => Arith.lt b.distance a.distance = false) ∧
      Best farther topK.toNat (flat.codes.toList.map table.result) flatOut ∧
      Best farther topK.toNat (flat.codes.toList.map table.result) ivfOut) := by
  intro flat ivf
  obtain ⟨hfiles, hnlist⟩ := trainIVF_files htrain
  have hf : Files ivf flat := hfiles.run ops
  have hcb : flat.codebook = cb := codebook_run (Index.new cb) ops
  refine ⟨fun id l => ?_, hf.codes_iff, hf.len_eq, ?_⟩
  · rw [hf.listOf_iff, IVFIndex.filed, Std.ExtTreeMap.isSome_getElem?_iff_mem]
  have hn : (ivf.nlist : ℤ) ≤ nprobe := by rw [nlist_run, hnlist]; exact hprobe
  have hpos := hf.nlist_pos
  cases htable : cb.newDistanceTable D query with
  | error e =>
    refine .inl ⟨e, rfl, ?_, ?_⟩
    · simp only [Index.search, hcb, htable, if_neg (show ¬topK ≤ 0 by omega)]
      rfl
    · simp only [IVFIndex.search, hf.codebook, hcb, htable,
        if_neg (show ¬(topK ≤ 0 ∨ nprobe ≤ 0) by omega)]
      rfl
  | ok table =>
    rw [← hcb] at htable
    obtain ⟨flatOut, hflat, hbest, hsorted⟩ := flat.search_best ho.toStrictWeak r htable htop
    obtain ⟨ivfOut, hivf, hbest', hsorted'⟩ := hf.search_best ho.toStrictWeak r' htable htop hn
    refine .inr ⟨table, flatOut, ivfOut, rfl, hflat, hivf, ?_, ?_,
      ho.distances_eq hbest hbest' hsorted hsorted', hsorted, hbest, hbest'⟩
    · simpa [Index.len] using hbest.length_eq
    · simpa [Index.len] using hbest'.length_eq

end Search

section OnTheLine

theorem withTop_total : Total (Arith.lt (D := WithTop ℚ)) where
  irrefl a := by simp [Arith.lt]
  trans h h' := by simpa [Arith.lt] using lt_trans (of_decide_eq_true h) (of_decide_eq_true h')
  not_trans h h' := by simpa [Arith.lt] using le_trans (not_lt.mp (of_decide_eq_false h')) (not_lt.mp (of_decide_eq_false h))
  eq_of_not_lt {a b} hab hba := le_antisymm (by simpa [Arith.lt] using hba) (by simpa [Arith.lt] using hab)

def rising : Ranging := ⟨fun _ codes => codes.toList, fun _ _ => .rfl⟩

def lineLists : IVFIndex ℚ := ⟨lineCodebook, 1, 2, [0, 10], [∅, ∅], ∅⟩

theorem lineLists_trained : trainIVF (fun sample _ => sample.flatten) lineCodebook 2
    [[0], [10]] = .ok lineLists := rfl

theorem full_probe_on_the_line :
    let ops : List (Op ℚ) := [.insert 1 [1], .insert 2 [9], .insert 3 [8], .delete 2]
    ∃ flatOut ivfOut : List (SearchResult (WithTop ℚ)),
      (ops.foldl (Index.apply (WithTop ℚ)) (Index.new lineCodebook)).search rising [2] 2 = .ok flatOut ∧
      (ops.foldl (IVFIndex.apply (WithTop ℚ)) lineLists).search rising [2] 2 2 = .ok ivfOut ∧
      flatOut.length = 2 ∧ flatOut.map (·.distance) = ivfOut.map (·.distance) := by
  intro ops
  obtain ⟨-, -, -, ⟨e, he, -⟩ | ⟨table, flatOut, ivfOut, -, hflat, hivf, hlen, -, hsame, -⟩⟩ :=
    full_probe_matches_flat _ lineLists_trained withTop_total ops [2] (show (1 : ℤ) ≤ 2 by decide)
      (le_refl 2) rising rising
  · cases he
  · exact ⟨flatOut, ivfOut, hflat, hivf, hlen.trans (by decide +kernel), hsame⟩

end OnTheLine

end NuclaDB.Pq
