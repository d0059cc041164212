import Mathlib.Data.List.Sort
import NuclaDB.HeapOrder

/-!
# The best entries of a stream

A scan keeps at most `k` of the entries it is offered, in a heap with the worst of them
at its root: `Best` says what is kept, and `Held` adds that it stands in a heap.
-/

namespace NuclaDB.TopK

open BinaryHeap List

variable {α : Type*} {worse : α → α → Bool} {k : ℕ} {all kept : List α} {x : α}

/-- `kept` are `k` entries of `all`, or all where there are fewer, none worse than one left out. -/
def Best (worse : α → α → Bool) (k : ℕ) (all kept : List α) : Prop :=
  ∃ dropped, (kept ++ dropped).Perm all ∧ kept.length = min k all.length ∧
    ∀ x ∈ kept, ∀ y ∈ dropped, worse x y = false

theorem best_nil : Best worse k [] [] := ⟨[], .nil, by simp, by simp⟩

theorem Best.subset (h : Best worse k all kept) (hx : x ∈ kept) : x ∈ all := by
  obtain ⟨dropped, hperm, -, -⟩ := h
  exact hperm.mem_iff.mp (mem_append_left _ hx)

theorem Best.length_eq (h : Best worse k all kept) : kept.length = min k all.length := by
  obtain ⟨-, -, hlen, -⟩ := h
  exact hlen

theorem Best.perm {all' kept' : List α} (h : Best worse k all kept) (hkept : kept'.Perm kept)
    (hall : all'.Perm all) : Best worse k all' kept' := by
  obtain ⟨dropped, hperm, hlen, hle⟩ := h
  refine ⟨dropped, (hkept.append_right dropped).trans (hperm.trans hall.symm), ?_,
    fun x hx => hle x (hkept.mem_iff.mp hx)⟩
  rw [hkept.length_eq, hall.length_eq, hlen]

theorem Best.map {β : Type*} {worse' : β → β → Bool} (key : α → β)
    (hkey : ∀ a b, worse a b = worse' (key a) (key b)) (h : Best worse k all kept) :
    Best worse' k (all.map key) (kept.map key) := by
  obtain ⟨dropped, hperm, hlen, hle⟩ := h
  refine ⟨dropped.map key, by simpa using hperm.map key, by simpa using hlen, ?_⟩
  simp only [mem_map, forall_exists_index, and_imp, forall_apply_eq_imp_iff₂, ← hkey]
  exact hle

theorem Best.add (h : Best worse k all kept) (hlt : kept.length < k) (x : α) :
    Best worse k (x :: all) (x :: kept) := by
  obtain ⟨dropped, hperm, hlen, -⟩ := h
  have hsum := hperm.length_eq
  simp only [length_append] at hsum
  -- nothing was left out so far
  have hnone : dropped = [] := length_eq_zero_iff.mp (by omega)
  subst hnone
  exact ⟨[], hperm.cons x, by simp only [length_cons]; omega, by simp⟩

theorem Best.skip (h : Best worse k all kept) (hk : k ≤ kept.length)
    (hx : ∀ y ∈ kept, worse y x = false) : Best worse k (x :: all) kept := by
  obtain ⟨dropped, hperm, hlen, hle⟩ := h
  refine ⟨x :: dropped, perm_middle.trans (hperm.cons x), ?_, fun y hy z hz => ?_⟩
  · simp only [length_cons]
    omega
  · obtain rfl | hz := mem_cons.mp hz
    · exact hx y hy
    · exact hle y hy z hz

theorem Best.replace (hw : Weak worse) (h : Best worse k all kept) (hk : k ≤ kept.length)
    {out : α} {rest : List α} (hswap : (out :: rest).Perm (x :: kept))
    (hout : ∀ y ∈ rest, worse y out = false) : Best worse k (x :: all) rest := by
  obtain ⟨dropped, hperm, hlen, hle⟩ := h
  have hsum := hswap.length_eq
  have hsum' := hperm.length_eq
  simp only [length_cons, length_append] at hsum hsum'
  refine ⟨out :: dropped, ?_, by simp only [length_cons]; omega, fun y hy z hz => ?_⟩
  · exact perm_middle.trans ((hswap.append_right dropped).trans (hperm.cons x))
  · obtain rfl | hz := mem_cons.mp hz
    · exact hout y hy
    by_cases hmem : out ∈ kept
    · exact hw.not_trans (hout y hy) (hle out hmem z hz)
    · -- the new entry itself was taken out again
      obtain rfl | hmem' := mem_cons.mp (hswap.mem_iff.mp mem_cons_self)
      · exact hle y ((perm_cons out).mp hswap |>.mem_iff.mp hy) z hz
      · exact absurd hmem' hmem

theorem pairwise_mergeSort (hw : Weak worse) (l : List α) :
    (l.mergeSort fun a b => !worse a b).Pairwise fun a b => worse a b = false := by
  have htotal : ∀ a b, (!worse a b || !worse b a) = true := by
    intro a b
    cases hab : worse a b with
    | false => rfl
    | true => simp [hw.asymm hab]
  have htrans : ∀ a b c, (!worse a b) = true → (!worse b c) = true → (!worse a c) = true := by
    intro a b c
    simpa using hw.not_trans
  simpa using List.pairwise_mergeSort htrans htotal l

section
variable (hw : Weak worse) (hanti : ∀ a b, worse a b = false → worse b a = false → a = b)
  (h : Best worse k all kept)
include hw hanti h

theorem Best.eq_take (hkept : kept.Pairwise fun a b => worse a b = false)
    {s : List α} (hs : s.Pairwise fun a b => worse a b = false) (hperm : s.Perm all) :
    kept = s.take k := by
  obtain ⟨dropped, hsplit, hlen, hle⟩ := h
  have hsame : kept ++ dropped.mergeSort (fun a b => !worse a b) = s := by
    refine List.Perm.eq_of_pairwise (fun a b _ _ => hanti a b) ?_ hs
      (((mergeSort_perm dropped _).append_left kept).trans (hsplit.trans hperm.symm))
    refine pairwise_append.mpr ⟨hkept, pairwise_mergeSort hw dropped, fun a ha b hb => ?_⟩
    exact hle a ha b (mem_mergeSort.mp hb)
  have hsum := hsplit.length_eq
  simp only [length_append] at hsum
  by_cases hall : k ≤ all.length
  · rw [← hsame, take_left' (by omega)]
  · have hnone : dropped = [] := length_eq_zero_iff.mp (by omega)
    subst hnone
    simp only [mergeSort_nil, append_nil] at hsame
    rw [← hsame, take_of_length_le (by omega)]

theorem Best.unique {kept' : List α} (h' : Best worse k all kept')
    (hkept : kept.Pairwise fun a b => worse a b = false)
    (hkept' : kept'.Pairwise fun a b => worse a b = false) : kept = kept' := by
  have hs := pairwise_mergeSort hw all
  have hperm := mergeSort_perm all fun a b => !worse a b
  rw [h.eq_take hw hanti hkept hs hperm, h'.eq_take hw hanti hkept' hs hperm]

end

/-- The best of what was offered, in a heap with the worst at its root. -/
structure Held (worse : α → α → Bool) (k : ℕ) (all h : List α) : Prop where
  heap : IsHeap worse h
  best : Best worse k all h

section Held
variable {h rest : List α} {out : α}

theorem held_nil : Held worse k [] [] := ⟨isHeap_nil, best_nil⟩

section
variable (hw : Weak worse)
include hw

section
variable (hh : Held worse k all h)
include hh

theorem Held.push (hlt : h.length < k) (x : α) : Held worse k (x :: all) (push worse h x) :=
  ⟨push_isHeap hw hh.heap x, (hh.best.add hlt x).perm (push_perm worse h x) .rfl⟩

section
variable (hk : k ≤ h.length)
include hk

theorem Held.skip
    (hroot : h[0]? = some out) (hx : worse out x = false) : Held worse k (x :: all) h :=
  ⟨hh.heap, hh.best.skip hk fun _ hy => hw.not_trans (hh.heap.root hw hroot hy) hx⟩

theorem Held.pushPop (hpop : pop worse (BinaryHeap.push worse h x) = some (out, rest)) :
    Held worse k (x :: all) rest := by
  have hpushed := push_isHeap hw hh.heap x
  have hperm := pop_perm worse hpop
  refine ⟨pop_isHeap hw hpushed hpop, hh.best.replace hw hk
    (hperm.symm.trans (push_perm worse h x)) fun y hy => ?_⟩
  exact pop_root hw hpushed hpop (hperm.mem_iff.mpr (.tail _ hy))

theorem Held.exchange (hroot : h[0]? = some out) (hx : worse out x = true) {h' : List α}
    (hheap : IsHeap worse h') (hperm : (out :: h').Perm (x :: h)) :
    Held worse k (x :: all) h' := by
  refine ⟨hheap, hh.best.replace hw hk hperm fun y hy => ?_⟩
  obtain rfl | hy := mem_cons.mp (hperm.mem_iff.mp (.tail _ hy))
  · exact hw.asymm hx
  · exact hh.heap.root hw hroot hy

theorem Held.popPush (hpop : pop worse h = some (out, rest)) (hx : worse out x = true) :
    Held worse k (x :: all) (BinaryHeap.push worse rest x) := by
  refine hh.exchange hw hk (getElem?_of_pop hpop) hx
    (push_isHeap hw (pop_isHeap hw hh.heap hpop) x) ?_
  refine ((push_perm worse rest x).cons out).trans ?_
  exact (List.Perm.swap _ _ _).trans ((pop_perm worse hpop).symm.cons x)

end

end

end

theorem Held.foldl {β : Type*} {step : List α → β → List α} {items : β → List α}
    (hstep : ∀ all h e, Held worse k all h → Held worse k (items e ++ all) (step h e))
    (es : List β) (hh : Held worse k all h) :
    Held worse k (es.flatMap items ++ all) (es.foldl step h) := by
  induction es generalizing all h with
  | nil => exact hh
  | cons e es ih =>
    have hnext := ih (hstep all h e hh)
    refine ⟨hnext.heap, hnext.best.perm .rfl ?_⟩
    rw [flatMap_cons, ← append_assoc]
    exact perm_append_comm.append_right all

theorem Held.drain (hw : Weak worse) (hh : Held worse k all h) :
    Best worse k all (BinaryHeap.drain worse h.length h).reverse ∧
      (BinaryHeap.drain worse h.length h).reverse.Pairwise fun a b => worse a b = false := by
  refine ⟨hh.best.perm ((reverse_perm _).trans (drain_perm worse le_rfl)) .rfl, ?_⟩
  exact pairwise_reverse.mpr (drain_sorted hw hh.heap le_rfl)

end Held

end NuclaDB.TopK
