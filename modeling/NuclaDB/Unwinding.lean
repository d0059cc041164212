import Mathlib.Data.List.Basic

/-!
# What a part of the state depends on

If the events without a label leave a view of the state as it is, and the others are
answered and change it by the view alone, the answers depend on the labels only.
-/

namespace NuclaDB.Unwinding

section Programs
variable {σ V ε α β : Type} {view : σ → V}

def exec (m : ExceptT ε (StateM σ) α) (s : σ) : Except ε α × σ := StateT.run (ExceptT.run m) s

def Keeps (view : σ → V) (m : ExceptT ε (StateM σ) α) : Prop := ∀ s, view (exec m s).2 = view s

/-- The program's result and the view after it depend on the view before it alone. -/
def Sees (view : σ → V) (m : ExceptT ε (StateM σ) α) : Prop :=
  ∀ s s', view s = view s' → (exec m s).1 = (exec m s').1 ∧ view (exec m s).2 = view (exec m s').2

variable {m : ExceptT ε (StateM σ) α} {f : α → ExceptT ε (StateM σ) β}

@[simp] theorem exec_pure (a : α) (s : σ) : exec (pure a : ExceptT ε (StateM σ) α) s = (.ok a, s) := rfl

@[simp] theorem exec_throw (e : ε) (s : σ) :
    exec (throw e : ExceptT ε (StateM σ) α) s = (.error e, s) := rfl

@[simp] theorem exec_get (s : σ) : exec (get : ExceptT ε (StateM σ) σ) s = (.ok s, s) := rfl

@[simp] theorem exec_set (s s' : σ) : exec (set s' : ExceptT ε (StateM σ) PUnit) s = (.ok ⟨⟩, s') := rfl

theorem exec_bind (m : ExceptT ε (StateM σ) α) (f : α → ExceptT ε (StateM σ) β) (s : σ) :
    exec (m >>= f) s = match exec m s with
      | (.ok a, s') => exec (f a) s'
      | (.error e, s') => (.error e, s') := by
  simp only [exec, ExceptT.run_bind, StateT.run_bind]
  rcases StateT.run (ExceptT.run m) s with ⟨_ | _, s'⟩ <;> rfl

theorem exec_bind_ok {s s' : σ} {b : β} (h : exec (m >>= f) s = (.ok b, s')) :
    ∃ a s₁, exec m s = (.ok a, s₁) ∧ exec (f a) s₁ = (.ok b, s') := by
  rw [exec_bind] at h
  rcases hm : exec m s with ⟨e | a, s₁⟩
  · rw [hm] at h
    cases h
  · rw [hm] at h
    exact ⟨a, s₁, rfl, h⟩

theorem Keeps.pure (a : α) : Keeps view (pure a : ExceptT ε (StateM σ) α) := fun _ => rfl

theorem Keeps.throw (e : ε) : Keeps view (throw e : ExceptT ε (StateM σ) α) := fun _ => rfl

theorem Keeps.bind (hm : Keeps view m) (hf : ∀ a, Keeps view (f a)) : Keeps view (m >>= f) := by
  intro s
  rw [exec_bind]
  have hs := hm s
  rcases hexec : exec m s with ⟨e | a, s'⟩
  · rwa [hexec] at hs
  · rw [hexec] at hs
    exact (hf a s').trans hs

theorem Sees.pure (a : α) : Sees view (pure a : ExceptT ε (StateM σ) α) := fun _ _ h => ⟨rfl, h⟩

theorem Sees.throw (e : ε) : Sees view (throw e : ExceptT ε (StateM σ) α) := fun _ _ h => ⟨rfl, h⟩

theorem Sees.bind (hm : Sees view m) (hf : ∀ a, Sees view (f a)) : Sees view (m >>= f) := by
  intro s s' hview
  rw [exec_bind, exec_bind]
  obtain ⟨hres, hst⟩ := hm s s' hview
  rcases hs : exec m s with ⟨e | a, t⟩ <;> rcases hs' : exec m s' with ⟨e' | a', t'⟩ <;>
    rw [hs, hs'] at hres hst
  · cases hres
    exact ⟨rfl, hst⟩
  · cases hres
  · cases hres
  · cases hres
    exact hf a t t' hst

end Programs

section Runs
variable {σ V E L R : Type} {step : σ → E → R × σ} {view : σ → V} {label : E → Option L}
  {I : σ → Prop} {P : σ → E → Prop}

def Along (step : σ → E → R × σ) (P : σ → E → Prop) : σ → List E → Prop
  | _, [] => True
  | s, e :: es => P s e ∧ Along step P (step s e).2 es

def answers (step : σ → E → R × σ) (label : E → Option L) : σ → List E → List R
  | _, [] => []
  | s, e :: es =>
    match label e with
    | none => answers step label (step s e).2 es
    | some _ => (step s e).1 :: answers step label (step s e).2 es

end Runs

end NuclaDB.Unwinding
