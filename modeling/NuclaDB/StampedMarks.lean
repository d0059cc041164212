import Mathlib.Algebra.Order.Ring.Nat
import Mathlib.Data.List.DropRight

/-!
# Marks by a stamp that wraps

A slot that a list names twice is told by its mark, the stamp of the last list that named it.
The stamp has 32 bits.
-/

namespace NuclaDB.StampedMarks

open List
variable {α : Type} [DecidableEq α] {past : List (List α)}

/-- How many lists back `a` was last named, or that the table is new, with the list to come
counted. -/
def gap (past : List (List α)) (a : α) : ℕ := (past.rtakeWhile fun l => decide (a ∉ l)).length + 1

theorem gap_concat (past : List (List α)) (l : List α) (a : α) :
    gap (past ++ [l]) a = if a ∈ l then 1 else gap past a + 1 := by
  by_cases ha : a ∈ l <;> simp [gap, ha]

theorem gap_le (past : List (List α)) (a : α) : gap past a ≤ past.length + 1 :=
  Nat.succ_le_succ (rtakeWhile_suffix _ past).length_le

theorem gap_of_not_named {a : α} (h : ∀ l ∈ past, a ∉ l) : gap past a = past.length + 1 := by
  rw [gap, rtakeWhile_eq_self_iff.mpr fun l hl => decide_eq_true (h l hl)]

/-- No list names what was last named a multiple of `2 ^ 32` lists back. -/
def Apart (past : List (List α)) : List (List α) → Prop
  | [] => True
  | l :: rest => (∀ a ∈ l, ¬ 2 ^ 32 ∣ gap past a) ∧ Apart (past ++ [l]) rest

theorem apart_append {l rest : List (List α)} :
    Apart past (l ++ rest) ↔ Apart past l ∧ Apart (past ++ l) rest := by
  induction l generalizing past with
  | nil => simp [Apart]
  | cons a l ih => simp only [cons_append, Apart, ih, append_assoc, nil_append, and_assoc]

theorem apart_of_length {lists : List (List α)}
    (h : past.length + lists.length < 2 ^ 32) : Apart past lists := by
  induction lists generalizing past with
  | nil => trivial
  | cons l rest ih =>
    rw [length_cons] at h
    refine ⟨fun a _ hdvd => ?_, ih (by rw [length_append, length_singleton]; omega)⟩
    have hle := gap_le past a
    have hpos : 0 < gap past a := Nat.succ_pos _
    have := Nat.le_of_dvd hpos hdvd
    omega

def stampAll (stamp : UInt32) (out : List ℕ) (mark : List UInt32) : List UInt32 :=
  out.foldl (fun mark s => mark.set s stamp) mark

theorem length_stampAll (stamp : UInt32) (out : List ℕ) (mark : List UInt32) :
    (stampAll stamp out mark).length = mark.length := by
  induction out generalizing mark with
  | nil => rfl
  | cons s out ih => exact (ih _).trans (length_set ..)

theorem getD_stampAll {stamp : UInt32} {out : List ℕ} {mark : List UInt32}
    (hlt : ∀ s ∈ out, s < mark.length) (s : ℕ) :
    (stampAll stamp out mark).getD s 0 = if s ∈ out then stamp else mark.getD s 0 := by
  induction out generalizing mark with
  | nil => simp [stampAll]
  | cons x out ih =>
    obtain ⟨hx, hout⟩ := forall_mem_cons.mp hlt
    have hlt' : ∀ y ∈ out, y < (mark.set x stamp).length := by simpa using hout
    rw [stampAll, foldl_cons]
    refine (ih hlt').trans ?_
    by_cases hs : s = x
    · subst hs
      simp [hx]
    · simp [hs, getElem?_set_ne (Ne.symm hs)]

/-- Every slot below `n` has the stamp of the last list of the past that named it. -/
structure Marked (key : ℕ → α) (n : ℕ) (past : List (List α)) (mark : List UInt32)
    (stamp : UInt32) : Prop where
  length : mark.length = n
  mark_add : ∀ s < n, mark.getD s 0 + UInt32.ofNat (gap past (key s)) = stamp + 1

section Marks
variable {key : ℕ → α} {n : ℕ} {past : List (List α)} {mark : List UInt32} {stamp : UInt32}

theorem marked_start (key : ℕ → α) (n : ℕ) : Marked key n [] (replicate n 0) 0 := by
  refine ⟨length_replicate, fun s hs => ?_⟩
  have hgap : gap [] (key s) = 1 := rfl
  simp [hgap, hs]

theorem Marked.mark_eq_iff (hm : Marked key n past mark stamp) {s : ℕ} (hs : s < n) :
    mark.getD s 0 = stamp + 1 ↔ 2 ^ 32 ∣ gap past (key s) := by
  have hadd := congrArg UInt32.toNat (hm.mark_add s hs)
  have hlt := (mark.getD s 0).toNat_lt
  have hlt' := (stamp + 1).toNat_lt
  rw [UInt32.toNat_add, UInt32.toNat_ofNat'] at hadd
  rw [← UInt32.toNat_inj, Nat.dvd_iff_mod_eq_zero]
  generalize (stamp + 1).toNat = m at *
  generalize (mark.getD s 0).toNat = k at *
  omega

theorem Marked.next (hm : Marked key n past mark stamp)
    (hkey : ∀ s < n, ∀ t < n, key s = key t → s = t) {out : List ℕ} (hout : ∀ s ∈ out, s < n) :
    Marked key n (past ++ [out.map key]) (stampAll (stamp + 1) out mark) (stamp + 1) := by
  refine ⟨(length_stampAll ..).trans hm.length, fun s hs => ?_⟩
  have hmem : key s ∈ out.map key ↔ s ∈ out := by
    constructor
    · intro h
      obtain ⟨t, ht, heq⟩ := mem_map.mp h
      exact hkey t (hout t ht) s hs heq ▸ ht
    · exact mem_map_of_mem
  rw [getD_stampAll (by rwa [hm.length]), gap_concat, if_congr hmem rfl rfl]
  by_cases h : s ∈ out
  · rw [if_pos h, if_pos h]
    rfl
  · rw [if_neg h, if_neg h, UInt32.ofNat_add, ← UInt32.add_assoc, hm.mark_add s hs]
    rfl

end Marks

end NuclaDB.StampedMarks
