import Mathlib.Data.List.Forall2

/-!
# Runs of events

A machine takes events one after the other, and an event may stop it with an error. `Along`
says that every event of a run meets a condition on the state it finds.
-/

namespace NuclaDB.EventRun

variable {S E C ε : Type*} {step : S → E → Except ε S} {P : S → E → Prop} {s : S} {evs : List E}

def run (step : S → E → Except ε S) (s : S) (evs : List E) : Except ε S := evs.foldlM step s

def Along (step : S → E → Except ε S) (P : S → E → Prop) : S → List E → Prop
  | _, [] => True
  | s, ev :: evs => P s ev ∧ ∀ s', step s ev = .ok s' → Along step P s' evs

theorem run_cons {s' : S} {ev : E} (h : step s ev = .ok s') (evs : List E) :
    run step s (ev :: evs) = run step s' evs := by
  rw [run, List.foldlM_cons, h]
  rfl

theorem exists_of_run_cons {t : S} {ev : E} (h : run step s (ev :: evs) = .ok t) :
    ∃ s', step s ev = .ok s' ∧ run step s' evs = .ok t := by
  cases hs : step s ev with
  | error err =>
    rw [run, List.foldlM_cons, hs] at h
    cases h
  | ok s' => exact ⟨s', rfl, (run_cons hs evs).symm.trans h⟩

theorem Along.cons {s' : S} {ev : E} (hP : P s ev) (h : step s ev = .ok s')
    (hrest : Along step P s' evs) : Along step P s (ev :: evs) := by
  refine ⟨hP, fun s₁ hs => ?_⟩
  rw [h, Except.ok.injEq] at hs
  exact hs ▸ hrest

theorem along_of_forall (hP : ∀ s ev, P s ev) (s : S) (evs : List E) : Along step P s evs := by
  induction evs generalizing s with
  | nil => trivial
  | cons ev evs ih => exact ⟨hP s ev, fun s' _ => ih s'⟩

theorem run_keeps {I : S → Prop} (hstep : ∀ {s ev s'}, I s → P s ev → step s ev = .ok s' → I s')
    {t : S} (hI : I s) (hP : Along step P s evs) (hrun : run step s evs = .ok t) :
    I t := by
  induction evs generalizing s with
  | nil => exact Except.ok.inj hrun ▸ hI
  | cons ev evs ih =>
    obtain ⟨s', hs, hrest⟩ := exists_of_run_cons hrun
    exact ih (hstep hI hP.1 hs) (hP.2 s' hs) hrest

instance decidableAlong [∀ s ev, Decidable (P s ev)] :
    (s : S) → (evs : List E) → Decidable (Along step P s evs)
  | _, [] => .isTrue trivial
  | s, ev :: evs =>
    match hs : step s ev with
    | .error _ => decidable_of_iff (P s ev) ⟨fun h => ⟨h, by simp [hs]⟩, And.left⟩
    | .ok s' =>
      have := decidableAlong s' evs
      decidable_of_iff (P s ev ∧ Along step P s' evs)
        ⟨fun h => .cons h.1 hs h.2, fun h => ⟨h.1, h.2 s' hs⟩⟩

instance decidableEnds {ε α : Type*} {Q : α → Prop} [DecidablePred Q] (x : Except ε α) :
    Decidable (∃ t, x = .ok t ∧ Q t) :=
  match x with
  | .error _ => .isFalse (by simp)
  | .ok t => decidable_of_iff (Q t) (by simp)

instance decidableFails {ε α : Type*} [DecidableEq ε] (x : Except ε α) (e : ε) :
    Decidable (x = .error e) :=
  match x with
  | .error e' => decidable_of_iff (e' = e) (by simp)
  | .ok _ => .isFalse (by simp)

/-- `I` is kept by the events that meet `Q`, and leads to a good state exactly by these. -/
theorem along_good_iff {I Good : S → Prop} {Q : S → E → Prop}
    (hgood : ∀ {s ev s'}, I s → P s ev → Q s ev → step s ev = .ok s' → I s' ∧ Good s')
    (hbad : ∀ {s ev}, I s → P s ev → (∀ s', step s ev = .ok s' → Good s') → Q s ev)
    (hI : I s) (hP : Along step P s evs) :
    Along step (fun s ev => ∀ s', step s ev = .ok s' → Good s') s evs ↔ Along step Q s evs := by
  induction evs generalizing s with
  | nil => exact Iff.rfl
  | cons ev evs ih =>
    obtain ⟨hev, hrest⟩ := hP
    constructor
    · rintro ⟨hall, hnext⟩
      have hQ := hbad hI hev hall
      refine ⟨hQ, fun s' hs => ?_⟩
      exact (ih (hgood hI hev hQ hs).1 (hrest s' hs)).mp (hnext s' hs)
    · rintro ⟨hQ, hnext⟩
      refine ⟨fun s' hs => (hgood hI hev hQ hs).2, fun s' hs => ?_⟩
      exact (ih (hgood hI hev hQ hs).1 (hrest s' hs)).mpr (hnext s' hs)

/-- Events that never fail, each meet `R` where they happen and add a part to what has been
accumulated. -/
theorem run_accumulates {I : S → List C → Prop} {R : S → E → Prop} {Adds : E → List C → Prop}
    (hstep : ∀ {s h ev}, I s h → P s ev →
      ∃ s' part, step s ev = .ok s' ∧ R s ev ∧ Adds ev part ∧ I s' (h ++ part))
    {h : List C} (hI : I s h) (hP : Along step P s evs) :
    Along step R s evs ∧ ∃ s' parts, run step s evs = .ok s' ∧ List.Forall₂ Adds evs parts ∧
      I s' (h ++ parts.flatten) := by
  induction evs generalizing s h with
  | nil => exact ⟨trivial, s, [], rfl, .nil, by simpa using hI⟩
  | cons ev evs ih =>
    obtain ⟨hev, hrest⟩ := hP
    obtain ⟨s₁, part, hs, hR, hadds, hI₁⟩ := hstep hI hev
    obtain ⟨halong, s₂, parts, hrun, hall, hI₂⟩ := ih hI₁ (hrest s₁ hs)
    refine ⟨.cons hR hs halong, s₂, part :: parts, ?_, .cons hadds hall, ?_⟩
    · rw [run_cons hs, hrun]
    · simpa using hI₂

theorem Along.and {Q : S → E → Prop} (hP : Along step P s evs)
    (hQ : Along step Q s evs) : Along step (fun s ev => P s ev ∧ Q s ev) s evs := by
  induction evs generalizing s with
  | nil => trivial
  | cons ev evs ih => exact ⟨⟨hP.1, hQ.1⟩, fun s' hs => ih (hP.2 s' hs) (hQ.2 s' hs)⟩

theorem run_collects {I : S → List C → Prop} {f : E → List C}
    (hstep : ∀ {s h ev}, I s h → P s ev → ∃ s', step s ev = .ok s' ∧ I s' (h ++ f ev))
    {h : List C} (hI : I s h) (hP : Along step P s evs) :
    ∃ s', run step s evs = .ok s' ∧ I s' (h ++ evs.flatMap f) := by
  induction evs generalizing s h with
  | nil => exact ⟨s, rfl, by simpa using hI⟩
  | cons ev evs ih =>
    obtain ⟨s₁, hs, hI₁⟩ := hstep hI hP.1
    obtain ⟨s₂, hrun, hI₂⟩ := ih hI₁ (hP.2 s₁ hs)
    refine ⟨s₂, ?_, by simpa using hI₂⟩
    rw [run_cons hs, hrun]

end NuclaDB.EventRun
