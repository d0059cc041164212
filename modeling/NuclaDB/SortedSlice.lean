import Mathlib.Data.List.Rotate
import Mathlib.Data.List.Sort

/-!
# Sorted slices

What `sort.Slice` and `sort.Search` do. Of a `KeySort` only the documented result is
known. The last part is about the first occurrences in a list.
-/

namespace NuclaDB.SortedSlice

open List

section Sorting
variable {α κ : Type*} [LinearOrder κ]

structure KeySort (key : α → κ) where
  sort : List α → List α
  perm (l : List α) : (sort l).Perm l
  sorted (l : List α) : (sort l).Pairwise fun a b => key a ≤ key b

def KeySort.merge (key : α → κ) : KeySort key where
  sort l := l.mergeSort fun a b => decide (key a ≤ key b)
  perm l := mergeSort_perm l _
  sorted l := by
    have h := @List.pairwise_mergeSort α (fun a b => decide (key a ≤ key b))
      (fun a b c hab hbc => by simpa using le_trans (by simpa using hab) (by simpa using hbc))
      (fun a b => by simpa using le_total (key a) (key b)) l
    exact h.imp fun hab => by simpa using hab

def KeySort.insertion (key : α → κ) : KeySort key where
  sort l := l.insertionSort fun a b => key a ≤ key b
  perm l := perm_insertionSort _ l
  sorted l := by
    have : Std.Total fun a b => key a ≤ key b := ⟨fun a b => le_total (key a) (key b)⟩
    have : IsTrans α fun a b => key a ≤ key b := ⟨fun a b c hab hbc => le_trans hab hbc⟩
    exact pairwise_insertionSort _ l

def KeySort.coarsen {κ' : Type*} [LinearOrder κ'] {key : α → κ} {key' : α → κ'} (sort : KeySort key')
    (h : ∀ a b, key a < key b → key' a < key' b) : KeySort key where
  sort := sort.sort
  perm := sort.perm
  sorted l := (sort.sorted l).imp fun {a b} hab => by
    by_contra hlt
    exact absurd (h b a (not_le.mp hlt)) (not_lt.mpr hab)

theorem eq_of_perm_of_sorted {key : α → κ} {l l' : List α}
    (hkey : ∀ a ∈ l, ∀ b ∈ l, key a = key b → a = b) (hperm : l.Perm l')
    (hl : l.Pairwise fun a b => key a ≤ key b) (hl' : l'.Pairwise fun a b => key a ≤ key b) :
    l = l' := by
  refine hperm.eq_of_pairwise (fun a b ha hb hab hba => ?_) hl hl'
  exact hkey a ha b (hperm.mem_iff.mpr hb) (le_antisymm hab hba)

end Sorting

section Search

def searchLoop (f : ℕ → Bool) : ℕ → ℕ → ℕ → ℕ
  | 0, i, _ => i
  | fuel + 1, i, j =>
    if i < j then
      let h := (i + j) / 2
      if f h then searchLoop f fuel i h else searchLoop f fuel (h + 1) j
    else i

/-- The smallest index below `n` at which `f` holds, or `n`. -/
def search (n : ℕ) (f : ℕ → Bool) : ℕ := searchLoop f n 0 n

theorem searchLoop_spec {f : ℕ → Bool} {n : ℕ}
    (hmono : ∀ a b, a ≤ b → b < n → f a = true → f b = true) {fuel i j : ℕ} (hfuel : j - i ≤ fuel)
    (hij : i ≤ j) (hjn : j ≤ n) (hlow : ∀ k < i, f k = false)
    (hhigh : ∀ k, j ≤ k → k < n → f k = true) :
    searchLoop f fuel i j ≤ n ∧ (∀ k < searchLoop f fuel i j, f k = false) ∧
      ∀ k, searchLoop f fuel i j ≤ k → k < n → f k = true := by
  induction fuel generalizing i j with
  | zero =>
    obtain rfl : i = j := by omega
    exact ⟨hjn, hlow, hhigh⟩
  | succ fuel ih =>
    simp only [searchLoop]
    by_cases hlt : i < j
    · rw [if_pos hlt]
      cases hf : f ((i + j) / 2) with
      | true =>
        rw [if_pos rfl]
        apply ih (by omega) (by omega) (by omega) hlow
        intro k hk hkn
        exact hmono _ k hk hkn hf
      | false =>
        rw [if_neg Bool.false_ne_true]
        apply ih (by omega) (by omega) hjn _ hhigh
        intro k hk
        by_contra htrue
        have := hmono k ((i + j) / 2) (by omega) (by omega) (by simpa using htrue)
        simp [hf] at this
    · rw [if_neg hlt]
      obtain rfl : i = j := by omega
      exact ⟨hjn, hlow, hhigh⟩

theorem search_spec {f : ℕ → Bool} {n : ℕ}
    (hmono : ∀ a b, a ≤ b → b < n → f a = true → f b = true) :
    search n f ≤ n ∧ (∀ k < search n f, f k = false) ∧ ∀ k, search n f ≤ k → k < n → f k = true :=
  searchLoop_spec hmono (by omega) (Nat.zero_le n) le_rfl (by simp) fun k hk hkn => by omega

variable {α : Type*} {p : α → Bool}

def searchFor (p : α → Bool) (l : List α) : ℕ :=
  search l.length fun i => (l[i]?).any p

theorem searchFor_split {l : List α} (hl : l.Pairwise fun a b => p a → p b) :
    searchFor p l ≤ l.length ∧ l.take (searchFor p l) = l.filter (fun a => !p a) ∧
      l.drop (searchFor p l) = l.filter p := by
  have hmono : ∀ a b, a ≤ b → b < l.length → (l[a]?).any p = true → (l[b]?).any p = true := by
    intro a b hab hb ha
    have ha' : a < l.length := by omega
    rw [getElem?_eq_getElem ha', Option.any_some] at ha
    rw [getElem?_eq_getElem hb, Option.any_some]
    rcases Nat.eq_or_lt_of_le hab with rfl | hlt
    · exact ha
    · exact pairwise_iff_getElem.mp hl a b ha' hb hlt ha
  obtain ⟨hle, hlow, hhigh⟩ := search_spec hmono
  have htake : ∀ a ∈ l.take (searchFor p l), p a = false := by
    intro a ha
    obtain ⟨k, hk, rfl⟩ := mem_iff_getElem.mp ha
    rw [length_take] at hk
    have := hlow k (by simp only [searchFor] at hk; omega)
    simpa [getElem?_eq_getElem (show k < l.length by omega)] using this
  have hdrop : ∀ a ∈ l.drop (searchFor p l), p a = true := by
    intro a ha
    obtain ⟨k, hk, rfl⟩ := mem_iff_getElem.mp ha
    rw [length_drop] at hk
    have := hhigh (searchFor p l + k) (by simp [searchFor]) (by omega)
    simpa [getElem?_eq_getElem (show searchFor p l + k < l.length by omega)] using this
  have hfilter : ∀ q, l.filter q =
      (l.take (searchFor p l)).filter q ++ (l.drop (searchFor p l)).filter q := by
    intro q
    rw [← filter_append, take_append_drop]
  refine ⟨hle, ?_, ?_⟩
  · rw [hfilter, filter_eq_self.mpr fun a ha => by simp [htake a ha],
      filter_eq_nil_iff.mpr fun a ha => by simp [hdrop a ha], append_nil]
  · rw [hfilter, filter_eq_nil_iff.mpr fun a ha => by simp [htake a ha],
      filter_eq_self.mpr fun a ha => hdrop a ha, nil_append]

/-- Where a walk around the circle starts: at the first element found, or at the front. -/
def startFor (p : α → Bool) (l : List α) : ℕ :=
  if searchFor p l = l.length then 0 else searchFor p l

theorem startFor_lt {l : List α} (hl : l.Pairwise fun a b => p a → p b)
    (hne : l.length ≠ 0) : startFor p l < l.length := by
  have hle := (searchFor_split hl).1
  rw [startFor]
  split
  · omega
  · omega

theorem rotate_startFor {l : List α} (hl : l.Pairwise fun a b => p a → p b) :
    l.rotate (startFor p l) = l.filter p ++ l.filter fun a => !p a := by
  obtain ⟨hle, htake, hdrop⟩ := searchFor_split hl
  rw [startFor]
  split
  · next heq =>
    rw [heq] at htake hdrop
    rw [take_length] at htake
    rw [drop_length] at hdrop
    rw [rotate_zero, ← hdrop, ← htake, nil_append]
  · rw [rotate_eq_drop_append_take hle, htake, hdrop]

end Search

section First
variable {α : Type*} [DecidableEq α]

theorem eraseDups_induction {motive : List α → Prop} (nil : motive [])
    (cons : ∀ a as, motive (as.filter fun b => !b == a) → motive (a :: as)) (l : List α) : motive l := by
  induction hn : l.length using Nat.strong_induction_on generalizing l with
  | h n ih =>
    cases l with
    | nil => exact nil
    | cons a as =>
      refine cons a as (ih _ ?_ _ rfl)
      have := length_filter_le (fun b => !b == a) as
      simp only [length_cons] at hn
      omega

theorem eraseDups_filter (q : α → Bool) (l : List α) :
    (l.filter q).eraseDups = l.eraseDups.filter q := by
  induction l using eraseDups_induction with
  | nil => rfl
  | cons a as ih =>
    rw [eraseDups_cons]
    by_cases hq : q a
    · rw [filter_cons_of_pos hq, filter_cons_of_pos hq, eraseDups_cons, filter_comm, ih]
    · rw [filter_cons_of_neg hq, filter_cons_of_neg hq, ← ih, filter_filter]
      congr 1
      apply filter_congr
      intro b _
      by_cases hb : b = a
      · simp [hb, hq]
      · simp [hb]

theorem nodup_eraseDups (l : List α) : l.eraseDups.Nodup := by
  induction l using eraseDups_induction with
  | nil => exact nodup_nil
  | cons a as ih =>
    rw [eraseDups_cons]
    refine nodup_cons.mpr ⟨?_, ih⟩
    simp [mem_eraseDups]

theorem pairwise_eraseDups_map {β κ : Type*} [LE κ] (name : β → α) (key : β → κ) {l : List β}
    (hsorted : l.Pairwise fun p q => key p ≤ key q) :
    (l.map name).eraseDups.Pairwise fun a b =>
      ∃ p ∈ l, name p = a ∧ ∀ q ∈ l, name q = b → key p ≤ key q := by
  induction l with
  | nil => exact List.Pairwise.nil
  | cons p l ih =>
    obtain ⟨hp, hsorted⟩ := pairwise_cons.mp hsorted
    rw [map_cons, eraseDups_cons, eraseDups_filter, pairwise_cons]
    constructor
    · intro b hb
      have hne : b ≠ name p := by simpa using (mem_filter.mp hb).2
      refine ⟨p, mem_cons_self, rfl, fun q hq hname => ?_⟩
      rcases mem_cons.mp hq with rfl | hq
      · exact absurd hname.symm hne
      · exact hp q hq
    · refine ((ih hsorted).filter _).imp_of_mem fun {a b} _ hb hab => ?_
      have hne : b ≠ name p := by simpa using (mem_filter.mp hb).2
      obtain ⟨p', hp', hname, hle⟩ := hab
      refine ⟨p', mem_cons_of_mem _ hp', hname, fun q hq hq' => ?_⟩
      rcases mem_cons.mp hq with rfl | hq
      · exact absurd hq'.symm hne
      · exact hle q hq hq'

theorem split_of_filter_ne {a : α} {l l' : List α} (hnodup : l'.Nodup)
    (h : l'.filter (fun b => !b == a) = l) :
    l' = l ∨ ∃ s t, l = s ++ t ∧ l' = s ++ a :: t := by
  have hself : ∀ u : List α, a ∉ u → u.filter (fun b => !b == a) = u := by
    intro u hu
    refine filter_eq_self.mpr fun b hb => ?_
    have hne : b ≠ a := fun heq => hu (heq ▸ hb)
    simp [hne]
  by_cases ha : a ∈ l'
  · right
    obtain ⟨s, t, rfl⟩ := append_of_mem ha
    have hs : a ∉ s := fun hs => (nodup_append.mp hnodup).2.2 a hs a mem_cons_self rfl
    have ht : a ∉ t := (nodup_cons.mp (nodup_append.mp hnodup).2.1).1
    refine ⟨s, t, ?_, rfl⟩
    rw [← h, filter_append, filter_cons_of_neg (by simp), hself s hs, hself t ht]
  · exact .inl ((hself l' ha).symm.trans h)

omit [DecidableEq α] in
theorem insertIdx_length_append (s t : List α) (a : α) :
    (s ++ t).insertIdx s.length a = s ++ a :: t := by
  induction s with
  | nil => rfl
  | cons b s ih => simp [ih]

theorem take_of_filter_ne {a : α} {l l' : List α} (hnodup : l'.Nodup)
    (h : l'.filter (fun b => !b == a) = l) (n : ℕ) :
    ∃ m, (m = l.take n ∨ ∃ i ≤ (l.take n).length, m = (l.take n).insertIdx i a) ∧
      l'.take n = m.take n := by
  rcases split_of_filter_ne hnodup h with rfl | ⟨s, t, rfl, rfl⟩
  · exact ⟨l'.take n, .inl rfl, by simp⟩
  · by_cases hs : n ≤ s.length
    · refine ⟨(s ++ t).take n, .inl rfl, ?_⟩
      rw [take_take, min_self, take_append_of_le_length hs, take_append_of_le_length hs]
    · obtain ⟨k, hk⟩ : ∃ k, n = s.length + (k + 1) := ⟨n - s.length - 1, by omega⟩
      have htake : (s ++ t).take n = s ++ t.take (k + 1) := by
        rw [hk, take_append, take_of_length_le (by omega)]
        simp
      refine ⟨((s ++ t).take n).insertIdx s.length a, .inr ⟨s.length, ?_, rfl⟩, ?_⟩
      · rw [htake, length_append]
        omega
      · rw [htake, insertIdx_length_append, hk, take_length_add_append, take_length_add_append]
        simp [take_take]

theorem take_eq_of_filter_ne {a : α} {l l' : List α} (hnodup : l'.Nodup)
    (h : l'.filter (fun b => !b == a) = l) {n : ℕ} (hnot : a ∉ l'.take n) :
    l.take n = l'.take n := by
  rcases split_of_filter_ne hnodup h with rfl | ⟨s, t, rfl, rfl⟩
  · rfl
  · have hs : n ≤ s.length := by
      by_contra hlt
      refine hnot ?_
      rw [take_append, mem_append]
      obtain ⟨k, hk⟩ : ∃ k, n - s.length = k + 1 := ⟨n - s.length - 1, by omega⟩
      rw [hk]
      exact .inr mem_cons_self
    rw [take_append_of_le_length hs, take_append_of_le_length hs]

end First

end NuclaDB.SortedSlice
