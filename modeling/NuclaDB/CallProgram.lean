import Mathlib.Data.List.Basic

/-!
# Programs of calls

A program makes calls to some component and chooses the next one by the answer. `Makes P`
asks for `P` of every call that some answers lead to.
-/

namespace NuclaDB

inductive CallProgram (E : Type) {C : Type} (A : C → Type) (α : Type)
  | done (a : α)
  | fail (e : E)
  | call (c : C) (k : A c → CallProgram E A α)

namespace CallProgram
variable {E C : Type} {A : C → Type} {α β σ : Type}

def bind : CallProgram E A α → (α → CallProgram E A β) → CallProgram E A β
  | .done a, f => f a
  | .fail e, _ => .fail e
  | .call c k, f => .call c fun r => (k r).bind f

instance : Monad (CallProgram E A) where
  pure := .done
  bind := bind

def ask (c : C) : CallProgram E A (A c) := .call c .done

def ofExcept : Except E α → CallProgram E A α
  | .ok a => .done a
  | .error e => .fail e

def run (answer : (c : C) → σ → A c × σ) : CallProgram E A α → σ → Except E α × σ
  | .done a, s => (.ok a, s)
  | .fail e, s => (.error e, s)
  | .call c k, s => (k (answer c s).1).run answer (answer c s).2

def calls (answer : (c : C) → σ → A c × σ) : CallProgram E A α → σ → List C
  | .done _, _ => []
  | .fail _, _ => []
  | .call c k, s => c :: (k (answer c s).1).calls answer (answer c s).2

def Makes (P : C → Prop) : CallProgram E A α → Prop
  | .done _ => True
  | .fail _ => True
  | .call c k => P c ∧ ∀ r, (k r).Makes P

section Run
variable {answer : (c : C) → σ → A c × σ} {s s' : σ}

theorem run_ofExcept_bind_ok {x : Except E α} {f : α → CallProgram E A β} {b : β}
    (h : (ofExcept x >>= f).run answer s = (.ok b, s')) :
    ∃ a, x = .ok a ∧ (f a).run answer s = (.ok b, s') := by
  cases x with
  | ok a => exact ⟨a, rfl, h⟩
  | error e => cases h

theorem ofExcept_ok_bind (a : α) (f : α → CallProgram E A β) : (ofExcept (.ok a) >>= f) = f a := rfl

theorem run_ask_bind (c : C) (f : A c → CallProgram E A β) (s : σ) :
    (ask c >>= f).run answer s = (f (answer c s).1).run answer (answer c s).2 := rfl

end Run

variable {P Q : C → Prop}

@[simp] theorem makes_pure (a : α) : (pure a : CallProgram E A α).Makes P := trivial

@[simp] theorem makes_fail (e : E) : (fail e : CallProgram E A α).Makes P := trivial

@[simp] theorem makes_ask (c : C) : (ask c : CallProgram E A (A c)).Makes P ↔ P c := by
  simp [ask, Makes]

theorem makes_bind {x : CallProgram E A α} {f : α → CallProgram E A β}
    (hx : x.Makes P) (hf : ∀ a, (f a).Makes P) : (x >>= f).Makes P := by
  induction x with
  | done a => exact hf a
  | fail e => exact trivial
  | call c k ih => exact ⟨hx.1, fun r => ih r (hx.2 r)⟩

@[simp] theorem makes_ofExcept_bind {x : Except E α} {f : α → CallProgram E A β} :
    (ofExcept x >>= f).Makes P ↔ ∀ a, x = .ok a → (f a).Makes P := by
  cases x with
  | ok a =>
    constructor
    · intro h b hb
      cases hb
      exact h
    · exact fun h => h a rfl
  | error e =>
    constructor
    · intro _ b hb
      cases hb
    · exact fun _ => trivial

theorem Makes.mono {p : CallProgram E A α} (h : p.Makes P) (hPQ : ∀ c, P c → Q c) : p.Makes Q := by
  induction p with
  | done a => exact trivial
  | fail e => exact trivial
  | call c k ih => exact ⟨hPQ c h.1, fun r => ih r (h.2 r)⟩

theorem Makes.calls {p : CallProgram E A α} (h : p.Makes P) (answer : (c : C) → σ → A c × σ)
    (s : σ) : ∀ c ∈ p.calls answer s, P c := by
  induction p generalizing s with
  | done a => simp [CallProgram.calls]
  | fail e => simp [CallProgram.calls]
  | call c k ih =>
    intro d hd
    rcases List.mem_cons.mp hd with rfl | hd
    · exact h.1
    · exact ih _ (h.2 _) _ d hd

end CallProgram

end NuclaDB
