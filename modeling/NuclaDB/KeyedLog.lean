import Mathlib.Data.List.Basic
import Mathlib.Data.List.Induction

/-!
# Logs of changes to single keys

A change names a key. The value that a log leaves at a key is settled by the changes to that
key alone.
-/

namespace NuclaDB.KeyedLog

open List

variable {C K V W : Type*} [DecidableEq K] {key : C → K} {act : C → V → V} {act' : C → W → W} (f : K → V)

def put (key : C → K) (act : C → V → V) (f : K → V) (c : C) : K → V :=
  Function.update f (key c) (act c (f (key c)))

def putAll (key : C → K) (act : C → V → V) (f : K → V) (cs : List C) : K → V :=
  cs.foldl (put key act) f

theorem put_apply (c : C) (k : K) :
    put key act f c k = if key c = k then act c (f k) else f k := by
  by_cases hk : key c = k
  · subst hk
    simp [put]
  · simp [put, Function.update_of_ne (Ne.symm hk), hk]

@[simp] theorem putAll_nil : putAll key act f [] = f := rfl

@[simp] theorem putAll_cons (c : C) (cs : List C) :
    putAll key act f (c :: cs) = putAll key act (put key act f c) cs := rfl

theorem putAll_append (cs ds : List C) :
    putAll key act f (cs ++ ds) = putAll key act (putAll key act f cs) ds :=
  foldl_append

theorem putAll_map {B : Type*} (m : B → C) (f : K → V) (bs : List B) :
    putAll key act f (bs.map m) = putAll (fun b => key (m b)) (fun b => act (m b)) f bs := by
  simp only [putAll, foldl_map]
  rfl

theorem putAll_untouched {cs : List C} {k : K} (h : ∀ c ∈ cs, key c ≠ k) (f : K → V) :
    putAll key act f cs k = f k := by
  induction cs generalizing f with
  | nil => rfl
  | cons c cs ih =>
    obtain ⟨hc, hcs⟩ := forall_mem_cons.mp h
    rw [putAll_cons, ih hcs, put_apply, if_neg hc]

section Relation
variable {R : V → W → Prop} {k : K} {cs : List C}

theorem putAll_keeps (hkeep : ∀ c ∈ cs, key c = k → ∀ v w, R v w → R (act c v) (act' c w))
    {f : K → V} {h : K → W} (hR : R (f k) (h k)) :
    R (putAll key act f cs k) (putAll key act' h cs k) := by
  induction cs generalizing f h with
  | nil => exact hR
  | cons c cs ih =>
    obtain ⟨hc, hcs⟩ := forall_mem_cons.mp hkeep
    apply ih hcs
    rw [put_apply, put_apply]
    split
    · next hk => exact hc hk _ _ hR
    · exact hR

theorem putAll_all {P : V → Prop} (hkeep : ∀ c ∈ cs, key c = k → ∀ v, P v → P (act c v))
    {f : K → V} (hf : P (f k)) : P (putAll key act f cs k) :=
  @putAll_keeps C K V V _ key act act (fun v _ => P v) k cs (fun c hc hk v _ => hkeep c hc hk v) f f hf

theorem putAll_settles (hset : ∀ c ∈ cs, key c = k → ∀ v w, R (act c v) (act' c w))
    {f : K → V} {h : K → W} (hR : (∀ c ∈ cs, key c ≠ k) → R (f k) (h k)) :
    R (putAll key act f cs k) (putAll key act' h cs k) := by
  induction cs generalizing f h with
  | nil => exact hR (by simp)
  | cons c cs ih =>
    obtain ⟨hc, hcs⟩ := forall_mem_cons.mp hset
    apply ih hcs
    intro hrest
    rw [put_apply, put_apply]
    split
    · next hk => exact hc hk _ _
    · next hk => exact hR (forall_mem_cons.mpr ⟨hk, hrest⟩)

theorem putAll_eq {x : V} (hset : ∀ c ∈ cs, key c = k → ∀ v, act c v = x) {f : K → V}
    (hx : (∀ c ∈ cs, key c ≠ k) → f k = x) : putAll key act f cs k = x :=
  @putAll_settles C K V V _ key act act (fun v _ => v = x) k cs (fun c hc hk v _ => hset c hc hk v)
    f f hx

end Relation

section Last
variable {k : K} {cs ds : List C}

def lastAt (key : C → K) (k : K) (cs : List C) : Option C := (cs.filter fun c => key c = k).getLast?

theorem lastAt_append : lastAt key k (cs ++ ds) = (lastAt key k ds).or (lastAt key k cs) := by
  simp only [lastAt, filter_append, getLast?_append]

theorem lastAt_eq_none : lastAt key k cs = none ↔ ∀ c ∈ cs, key c ≠ k := by
  simp [lastAt]

theorem putAll_overwrites {x : C → V} (hact : ∀ c v, act c v = x c) (f : K → V) (cs : List C) :
    putAll key act f cs k = ((lastAt key k cs).map x).getD (f k) := by
  induction cs using reverseRecOn with
  | nil => rfl
  | append_singleton cs c ih =>
    rw [putAll_append, putAll_cons, putAll_nil, put_apply, lastAt_append, ih, hact]
    by_cases hk : key c = k
    · simp [lastAt, hk]
    · simp [lastAt, hk]

theorem lastAt_filter {q : C → Bool} (h : lastAt key k (cs.filter q) = none) :
    lastAt key k (cs.filter fun c => !q c) = lastAt key k cs := by
  simp only [lastAt, filter_filter]
  congr 1
  refine filter_congr fun c hc => ?_
  have hc' : q c = true → key c ≠ k := fun hq => lastAt_eq_none.mp h c (mem_filter.mpr ⟨hc, hq⟩)
  cases hq : q c with
  | true => simp [hc' hq]
  | false => simp

end Last

end NuclaDB.KeyedLog
