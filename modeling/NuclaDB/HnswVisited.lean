import Mathlib.Algebra.Order.Ring.Int
import Mathlib.Data.UInt
import NuclaDB.HnswSearch

/-!
# Visited marks that are reused

A slot is visited when its mark is the current generation, so a reset only moves the
generation on.
-/

namespace NuclaDB.Hnsw

open List

structure VisitedSet where
  marks : List UInt32
  gen : UInt32

namespace VisitedSet

def zero : VisitedSet := ⟨[], 0⟩

def reset (v : VisitedSet) (n : ℤ) : VisitedSet :=
  let v := if (v.marks.length : ℤ) < n then ⟨replicate (n + n / 4).toNat 0, 0⟩ else v
  let v := { v with gen := v.gen + 1 }
  -- wrapped: old marks could collide with the new generation
  if v.gen = 0 then ⟨v.marks.map fun _ => 0, 1⟩ else v

def visit (v : VisitedSet) (slot : UInt32) : Option (Bool × VisitedSet) := do
  let mark ← v.marks[slot.toNat]?
  if mark = v.gen then return (true, v)
  return (false, { v with marks := v.marks.set slot.toNat v.gen })

inductive Call
  | reset (n : ℤ)
  | visit (slot : UInt32)

def run : VisitedSet → List Call → Option (List Bool)
  | _, [] => some []
  | v, .reset n :: calls => run (v.reset n) calls
  | v, .visit slot :: calls => do
    let (already, v) ← v.visit slot
    let rest ← run v calls
    return already :: rest

/-- The slots visited lie below the size of the latest reset. -/
def Below : ℤ → List Call → Prop
  | _, [] => True
  | _, .reset n :: calls => Below n calls
  | n, .visit slot :: calls => slot.toNat < n ∧ Below n calls

def answers : List UInt32 → List Call → List Bool
  | _, [] => []
  | _, .reset _ :: calls => answers [] calls
  | seen, .visit slot :: calls => decide (slot ∈ seen) :: answers (slot :: seen) calls

/-- The marks stand for the slots `seen` since the latest reset, which was to `n` slots. -/
structure Marks (v : VisitedSet) (n : ℤ) (seen : List UInt32) : Prop where
  size : n ≤ v.marks.length
  le_gen : ∀ mark ∈ v.marks, mark ≤ v.gen
  current : ∀ slot : UInt32, slot.toNat < v.marks.length →
    (v.marks[slot.toNat]? = some v.gen ↔ slot ∈ seen)

variable {v : VisitedSet} {n : ℤ} {seen : List UInt32}

theorem zero_marks : zero.Marks 0 [] :=
  ⟨Int.le_refl 0, by simp [zero], by simp [zero]⟩

theorem marks_of_lt (hsize : n ≤ v.marks.length) (hlt : ∀ mark ∈ v.marks, mark < v.gen) : v.Marks n [] := by
  refine ⟨hsize, fun mark hmark => UInt32.le_of_lt (hlt mark hmark), fun slot hslot => ?_⟩
  have hbelow := hlt _ (getElem_mem hslot)
  simp only [getElem?_eq_getElem hslot, Option.some.injEq, not_mem_nil, iff_false]
  exact UInt32.ne_of_lt hbelow

theorem lt_add_one {gen mark : UInt32} (hmark : mark ≤ gen) (hwrap : gen + 1 ≠ 0) : mark < gen + 1 := by
  have hsize := gen.toNat_lt
  have hnext : gen.toNat + 1 ≠ 2 ^ 32 := by
    intro hlast
    apply hwrap
    apply UInt32.toNat_inj.mp
    rw [UInt32.toNat_add, UInt32.toNat_one, hlast]
    rfl
  rw [UInt32.lt_iff_toNat_lt, UInt32.toNat_add, UInt32.toNat_one, Nat.mod_eq_of_lt (by omega)]
  exact Nat.lt_succ_of_le (UInt32.le_iff_toNat_le.mp hmark)

theorem marks_next {marks : List UInt32} {gen : UInt32} (hsize : n ≤ marks.length)
    (hle : ∀ mark ∈ marks, mark ≤ gen) :
    Marks (if gen + 1 = 0 then ⟨marks.map fun _ => 0, 1⟩ else ⟨marks, gen + 1⟩) n [] := by
  by_cases hwrap : gen + 1 = 0
  · rw [if_pos hwrap]
    apply marks_of_lt (by simpa using hsize)
    intro mark hmark
    obtain ⟨_, -, rfl⟩ := mem_map.mp hmark
    exact UInt32.zero_lt_one
  · rw [if_neg hwrap]
    exact marks_of_lt hsize fun mark hmark => lt_add_one (hle mark hmark) hwrap

theorem Marks.reset (hv : v.Marks n seen) (size : ℤ) : (v.reset size).Marks size [] := by
  rw [VisitedSet.reset]
  by_cases hgrow : (v.marks.length : ℤ) < size
  · simp only [hgrow, if_true]
    apply marks_next
    · rw [length_replicate]
      omega
    · intro mark hmark
      rw [eq_of_mem_replicate hmark]
      exact UInt32.le_refl 0
  · simp only [hgrow, if_false]
    exact marks_next (by omega) hv.le_gen

theorem Marks.visit (hv : v.Marks n seen) {slot : UInt32} (hslot : slot.toNat < n) :
    ∃ v', v.visit slot = some (decide (slot ∈ seen), v') ∧ v'.Marks n (slot :: seen) := by
  have hlt : slot.toNat < v.marks.length := by
    have hsize := hv.size
    omega
  have hcurrent := hv.current slot hlt
  simp only [getElem?_eq_getElem hlt, Option.some.injEq] at hcurrent
  by_cases hmark : v.marks[slot.toNat] = v.gen
  · have hseen := hcurrent.mp hmark
    refine ⟨v, by simp [VisitedSet.visit, hlt, hmark, hseen], hv.size, hv.le_gen, fun other hother => ?_⟩
    rw [hv.current other hother]
    constructor
    · exact mem_cons_of_mem slot
    · intro hmem
      rcases mem_cons.mp hmem with rfl | hmem
      · exact hseen
      · exact hmem
  · have hnew : slot ∉ seen := fun hseen => hmark (hcurrent.mpr hseen)
    refine ⟨{ v with marks := v.marks.set slot.toNat v.gen }, by simp [VisitedSet.visit, hlt, hmark, hnew],
      by simpa using hv.size, ?_, ?_⟩
    · intro mark hmem
      rcases mem_or_eq_of_mem_set hmem with hold | rfl
      · exact hv.le_gen mark hold
      · exact UInt32.le_refl _
    · intro other hother
      rw [length_set] at hother
      simp only
      by_cases hsame : slot = other
      · subst hsame
        simp [hlt]
      · have hne : slot.toNat ≠ other.toNat := fun h => hsame (UInt32.toNat_inj.mp h)
        rw [getElem?_set_ne hne, hv.current other hother, mem_cons]
        constructor
        · exact .inr
        · exact fun hmem => hmem.resolve_left (Ne.symm hsame)

theorem Marks.run (hv : v.Marks n seen) {calls : List Call} (hcalls : Below n calls) :
    v.run calls = some (answers seen calls) := by
  induction calls generalizing v n seen with
  | nil => rfl
  | cons call calls ih =>
    cases call with
    | reset size => exact ih (hv.reset size) hcalls
    | visit slot =>
      obtain ⟨v', hvisit, hv'⟩ := hv.visit hcalls.1
      simp [VisitedSet.run, hvisit, answers, ih hv' hcalls.2]

theorem fresh_eq_answers {visited : List ℕ} (hvisited : ∀ slot : UInt32, slot.toNat ∈ visited ↔ slot ∈ seen)
    (nbrs : List UInt32) :
    fresh visited (nbrs.map UInt32.toNat) =
      (((nbrs.zip (answers seen (nbrs.map .visit))).filter fun p => !p.2).map fun p => p.1.toNat) := by
  induction nbrs generalizing visited seen with
  | nil => rfl
  | cons nbr nbrs ih =>
    by_cases hseen : nbr ∈ seen
    · have hsame : ∀ slot : UInt32, slot.toNat ∈ visited ↔ slot ∈ nbr :: seen := by
        intro slot
        rw [hvisited slot, mem_cons]
        constructor
        · exact .inr
        · rintro (rfl | hslot)
          · exact hseen
          · exact hslot
      simpa [fresh, answers, (hvisited nbr).mpr hseen, hseen] using ih hsame
    · have hnot : nbr.toNat ∉ visited := fun h => hseen ((hvisited nbr).mp h)
      have hgrown : ∀ slot : UInt32, slot.toNat ∈ nbr.toNat :: visited ↔ slot ∈ nbr :: seen := by
        intro slot
        rw [mem_cons, mem_cons, hvisited slot, UInt32.toNat_inj]
      simpa [fresh, answers, hnot, hseen] using ih hgrown

/-- Any number of resets, so also more than the generation has values. -/
theorem run_zero {calls : List Call} (hcalls : Below 0 calls) : zero.run calls = some (answers [] calls) :=
  zero_marks.run hcalls

theorem run_shrunk : zero.run [.reset 5, .visit 4, .visit 4, .reset 2, .visit 1, .reset 5, .visit 4] =
      some [false, true, false, false] :=
  run_zero ⟨by decide, by decide, by decide, by decide, trivial⟩

end VisitedSet

end NuclaDB.Hnsw
