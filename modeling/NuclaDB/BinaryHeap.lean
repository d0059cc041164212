import Mathlib.Data.List.Perm.Basic

/-!
# Binary heaps in a list

A list read as a complete binary tree, with a `before` relation that says which of two
entries belongs nearer the root. The loops carry a bound on their rounds.
-/

namespace NuclaDB.BinaryHeap

variable {α : Type*} (before : α → α → Bool) {h : List α}

def upLoop : ℕ → List α → ℕ → List α
  | 0, h, _ => h
  | m + 1, h, i =>
    if i = 0 then h
    else
      match h[i]?, h[(i - 1) / 2]? with
      | some a, some b =>
        if before a b then upLoop m ((h.set i b).set ((i - 1) / 2) a) ((i - 1) / 2) else h
      | _, _ => h

def push (h : List α) (c : α) : List α := upLoop before h.length (h ++ [c]) h.length

/-- The one of two places that belongs nearer the root; a place outside the heap never does. -/
def pick (h : List α) (best k : ℕ) : ℕ :=
  match h[k]?, h[best]? with
  | some a, some b => if before a b then k else best
  | _, _ => best

def downLoop : ℕ → List α → ℕ → List α
  | 0, h, _ => h
  | m + 1, h, i =>
    let best := pick before h (pick before h i (2 * i + 1)) (2 * i + 2)
    if best = i then h
    else
      match h[i]?, h[best]? with
      | some a, some b => downLoop m ((h.set i b).set best a) best
      | _, _ => h

def pop : List α → Option (α × List α)
  | [] => none
  | top :: rest =>
    let n := rest.length
    let h := top :: rest
    some (top, downLoop before n ((h.set 0 (h.getD n top)).take n) 0)

def drain : ℕ → List α → List α
  | 0, _ => []
  | m + 1, h =>
    match pop before h with
    | none => []
    | some (c, rest) => c :: drain m rest

theorem exchange_perm {i j : ℕ} {a b : α} (hi : h[i]? = some a)
    (hj : h[j]? = some b) : ((h.set i b).set j a).Perm h := by
  obtain ⟨hi', rfl⟩ := List.getElem?_eq_some_iff.mp hi
  obtain ⟨hj', rfl⟩ := List.getElem?_eq_some_iff.mp hj
  exact List.set_set_perm hi' hj'

theorem upLoop_perm (m : ℕ) (h : List α) (i : ℕ) : (upLoop before m h i).Perm h := by
  induction m generalizing h i with
  | zero => simp [upLoop]
  | succ m ih =>
    simp only [upLoop]
    split
    · exact .rfl
    split
    · next a b ha hb =>
      split
      · exact (ih _ _).trans (exchange_perm ha hb)
      · exact .rfl
    · exact .rfl

theorem push_perm (h : List α) (c : α) : (push before h c).Perm (c :: h) :=
  (upLoop_perm before _ _ _).trans (List.perm_append_singleton c h)

theorem downLoop_perm (m : ℕ) (h : List α) (i : ℕ) : (downLoop before m h i).Perm h := by
  induction m generalizing h i with
  | zero => simp [downLoop]
  | succ m ih =>
    simp only [downLoop]
    split
    · exact .rfl
    split
    · next a b ha hb => exact (ih _ _).trans (exchange_perm ha hb)
    · exact .rfl

theorem take_set_zero_perm (top : α) (rest : List α) :
    (((top :: rest).set 0 ((top :: rest).getD rest.length top)).take rest.length).Perm rest := by
  obtain rfl | ⟨r, last, rfl⟩ := rest.eq_nil_or_concat
  · simp
  · simpa using (List.perm_append_singleton last r).symm

theorem pop_perm {rest : List α} {c : α} (hp : pop before h = some (c, rest)) : h.Perm (c :: rest) := by
  cases h with
  | nil => simp [pop] at hp
  | cons top tail =>
    simp only [pop, Option.some.injEq, Prod.mk.injEq] at hp
    obtain ⟨rfl, rfl⟩ := hp
    exact ((downLoop_perm before _ _ _).trans (take_set_zero_perm _ _)).symm.cons _

theorem pop_eq_none : pop before h = none ↔ h = [] := by
  cases h <;> simp [pop]

theorem length_of_pop {rest : List α} {c : α} (hp : pop before h = some (c, rest)) :
    h.length = rest.length + 1 := by
  simpa using (pop_perm before hp).length_eq

theorem drain_perm {m : ℕ} (hm : h.length ≤ m) : (drain before m h).Perm h := by
  induction m generalizing h with
  | zero =>
    have hnil : h = [] := List.length_eq_zero_iff.mp (by omega)
    simp [drain, hnil]
  | succ m ih =>
    simp only [drain]
    split
    · next hp => simp [(pop_eq_none before).mp hp]
    · next c rest hp =>
      have hlen := length_of_pop before hp
      exact ((ih (by omega)).cons c).trans (pop_perm before hp).symm

end NuclaDB.BinaryHeap
