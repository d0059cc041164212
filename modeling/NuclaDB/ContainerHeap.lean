import NuclaDB.HeapOrder

/-!
# Go's container/heap on a list

`Pop` and `Fix` move an entry down by choosing one of the two below it first and comparing it
then, which comes to `BinaryHeap.downLoop`.
-/

namespace NuclaDB.ContainerHeap

open BinaryHeap

variable {α : Type*} (less : α → α → Bool)

def down : ℕ → List α → ℕ → List α × ℕ
  | 0, h, i => (h, i)
  | m + 1, h, i =>
    let j := pick less h (2 * i + 1) (2 * i + 2)
    match h[i]?, h[j]? with
    | some a, some b => if less b a then down m ((h.set i b).set j a) j else (h, i)
    | _, _ => (h, i)

def pop : List α → Option (α × List α)
  | [] => none
  | top :: rest =>
    let n := rest.length
    let h := top :: rest
    some (top, (down less n ((h.set 0 (h.getD n top)).take n) 0).1)

def fix (h : List α) (i : ℕ) : List α :=
  let moved := down less h.length h i
  if i < moved.2 then moved.1 else upLoop less i h i

def drain : ℕ → List α → List α
  | 0, _ => []
  | m + 1, h =>
    match pop less h with
    | none => []
    | some (c, rest) => c :: drain m rest

variable {less} {h : List α} {i : ℕ}

theorem lt_pick (less : α → α → Bool) (h : List α) (i : ℕ) :
    i < pick less h (2 * i + 1) (2 * i + 2) := by
  simp only [pick]
  split
  · split <;> omega
  · omega

theorem le_down (m : ℕ) (h : List α) (i : ℕ) : i ≤ (down less m h i).2 := by
  induction m generalizing h i with
  | zero => exact Nat.le_refl i
  | succ m ih =>
    simp only [down]
    split
    · split
      · exact Nat.le_trans (Nat.le_of_lt (lt_pick less h i)) (ih _ _)
      · exact Nat.le_refl i
    · exact Nat.le_refl i

theorem down_of_le {m : ℕ} (hle : (down less m h i).2 ≤ i) : (down less m h i).1 = h := by
  cases m with
  | zero => rfl
  | succ m =>
    simp only [down] at hle ⊢
    split at hle
    · split at hle
      · exact absurd (Nat.le_trans (le_down m _ _) hle) (Nat.not_le.mpr (lt_pick less h i))
      · next hstay => simp [hstay]
    · rfl

section
variable (hw : Weak less)
include hw

theorem pick_pick {a b : α} (ha : h[i]? = some a)
    (hb : h[pick less h (2 * i + 1) (2 * i + 2)]? = some b) :
    pick less h (pick less h i (2 * i + 1)) (2 * i + 2) =
      if less b a then pick less h (2 * i + 1) (2 * i + 2) else i := by
  cases hl : h[2 * i + 1]? with
  | none => simp [pick, hl] at hb
  | some x =>
    cases hr : h[2 * i + 2]? with
    | none =>
      simp only [pick, hl, hr, Option.some.injEq] at hb
      subst hb
      simp [pick, ha, hl, hr]
    | some y =>
      cases hyx : less y x with
      | true =>
        simp only [pick, hl, hr, hyx, if_true, Option.some.injEq] at hb
        subst hb
        cases hxa : less x a with
        | true =>
          have hya : less y a = true := by
            by_contra hya
            exact absurd hxa (by simpa using hw.not_trans (hw.asymm hyx) (by simpa using hya))
          simp [pick, ha, hl, hr, hyx, hxa, hya]
        | false => simp [pick, ha, hl, hr, hyx, hxa]
      | false =>
        simp only [pick, hl, hr, hyx, Bool.false_eq_true, if_false, Option.some.injEq] at hb
        subst hb
        cases hxa : less x a with
        | true => simp [pick, ha, hl, hr, hyx, hxa]
        | false => simp [pick, ha, hl, hr, hxa, hw.not_trans hyx hxa]

theorem down_eq (m : ℕ) (h : List α) (i : ℕ) : (down less m h i).1 = downLoop less m h i := by
  induction m generalizing h i with
  | zero => rfl
  | succ m ih =>
    simp only [down, downLoop]
    cases ha : h[i]? with
    | none =>
      have hstay : pick less h (pick less h i (2 * i + 1)) (2 * i + 2) = i := by simp [pick, ha]
      simp [hstay]
    | some a =>
      cases hb : h[pick less h (2 * i + 1) (2 * i + 2)]? with
      | none =>
        have hlow : h.length ≤ 2 * i + 1 := by
          by_contra hlt
          have hl := List.getElem?_eq_getElem (Nat.not_le.mp hlt)
          cases hr : h[2 * i + 2]? with
          | none => simp [pick, hl, hr] at hb
          | some y => cases hyx : less y h[2 * i + 1] <;> simp [pick, hl, hr, hyx] at hb
        have hstay : pick less h (pick less h i (2 * i + 1)) (2 * i + 2) = i := by
          simp [pick, List.getElem?_eq_none hlow,
            List.getElem?_eq_none (Nat.le_trans hlow (Nat.le_succ _))]
        simp [hstay]
      | some b =>
        rw [pick_pick hw ha hb]
        cases hba : less b a with
        | true => simp [hba, Nat.ne_of_gt (lt_pick less h i), hb, ih]
        | false => simp [hba]

theorem pop_eq (h : List α) : pop less h = BinaryHeap.pop less h := by
  cases h with
  | nil => rfl
  | cons top rest => simp only [pop, BinaryHeap.pop, down_eq hw]

theorem fix_zero_eq (h : List α) : fix less h 0 = downLoop less h.length h 0 := by
  simp only [fix]
  split
  · exact down_eq hw _ _ _
  · next hstay => rw [← down_eq hw, down_of_le (Nat.not_lt.mp hstay), upLoop]

theorem drain_eq (m : ℕ) (h : List α) : drain less m h = BinaryHeap.drain less m h := by
  induction m generalizing h with
  | zero => rfl
  | succ m ih =>
    rw [drain, BinaryHeap.drain, pop_eq hw]
    cases BinaryHeap.pop less h with
    | none => rfl
    | some out => exact congrArg (out.1 :: ·) (ih out.2)

end

end NuclaDB.ContainerHeap
