import Mathlib.Data.List.Infix

/-!
# Self-delimiting codes and torn streams

A `FrameCode` is an encoder with a reader of one codeword off the front of a stream. A
stream has one division into codewords and a rest that starts with none.
-/

namespace NuclaDB

open List

structure FrameCode (α β : Type*) where
  enc : α → List β
  dec : List β → Option (α × List β)
  Valid : α → Prop
  dec_enc : ∀ {a}, Valid a → ∀ rest, dec (enc a ++ rest) = some (a, rest)
  enc_dec : ∀ {b a rest}, dec b = some (a, rest) → Valid a ∧ b = enc a ++ rest
  enc_ne_nil : ∀ a, enc a ≠ []

namespace FrameCode
variable {α β : Type*} (C : FrameCode α β) {as : List α} {p : List β}

def encAll (as : List α) : List β := as.flatMap C.enc

@[simp] theorem encAll_nil : C.encAll [] = [] := rfl

@[simp] theorem encAll_cons (a : α) (as : List α) : C.encAll (a :: as) = C.enc a ++ C.encAll as :=
  rfl

@[simp] theorem encAll_append (as bs : List α) : C.encAll (as ++ bs) = C.encAll as ++ C.encAll bs := by
  simp [encAll]

theorem encAll_singleton (a : α) : C.encAll [a] = C.enc a := by simp

theorem enc_length_pos (a : α) : 0 < (C.enc a).length :=
  length_pos_iff.mpr (C.enc_ne_nil a)

theorem length_le_encAll (as : List α) : as.length ≤ (C.encAll as).length := by
  induction as with
  | nil => exact le_rfl
  | cons a as ih =>
    have hpos := C.enc_length_pos a
    rw [encAll_cons, length_append, length_cons]
    omega

theorem encAll_take_lt {i j : ℕ} (hij : i < j) (hj : j ≤ as.length) :
    (C.encAll (as.take i)).length < (C.encAll (as.take j)).length := by
  have hsplit : as.take j = as.take i ++ as[i] :: (as.take j).drop (i + 1) := by
    have htake : (as.take j).take i = as.take i := by rw [take_take, min_eq_left hij.le]
    have hi : i < (as.take j).length := by
      rw [length_take]
      omega
    calc as.take j = (as.take j).take i ++ (as.take j).drop i := (take_append_drop ..).symm
      _ = as.take i ++ as[i] :: (as.take j).drop (i + 1) := by
        rw [htake, drop_eq_getElem_cons hi, getElem_take]
  have hpos := C.enc_length_pos as[i]
  rw [hsplit, encAll_append, encAll_cons, length_append, length_append]
  omega

theorem dec_nil : C.dec [] = none := by
  rcases h : C.dec [] with _ | ⟨a, rest⟩
  · rfl
  · have hb := (C.enc_dec h).2
    exact absurd (append_eq_nil_iff.mp hb.symm).1 (C.enc_ne_nil a)

theorem dec_torn {a : α} (ha : C.Valid a) {q : List β} (hpq : C.enc a = p ++ q) (hq : q ≠ []) :
    C.dec p = none := by
  rcases h : C.dec p with _ | ⟨x, rest⟩
  · rfl
  · obtain ⟨hx, hp⟩ := C.enc_dec h
    have hwhole : C.enc a = C.enc x ++ (rest ++ q) := by rw [hpq, hp, append_assoc]
    have h₁ := C.dec_enc hx (rest ++ q)
    have h₂ := C.dec_enc ha []
    rw [append_nil, hwhole, h₁] at h₂
    have hnil : rest ++ q = [] := congrArg Prod.snd (Option.some.inj h₂)
    exact absurd (append_eq_nil_iff.mp hnil).2 hq

theorem dec_encAll_cons {a : α} {t : List β} (ha : C.Valid a) :
    C.dec (C.encAll (a :: as) ++ t) = some (a, C.encAll as ++ t) := by
  rw [encAll_cons, append_assoc, C.dec_enc ha]

theorem encAll_unique {bs : List α} {s t : List β} (hs : C.dec s = none) (ht : C.dec t = none)
    (has : ∀ a ∈ as, C.Valid a) (hbs : ∀ b ∈ bs, C.Valid b)
    (h : C.encAll as ++ s = C.encAll bs ++ t) : as = bs ∧ s = t := by
  induction as generalizing bs with
  | nil =>
    cases bs with
    | nil => exact ⟨rfl, by simpa using h⟩
    | cons b bs =>
      rw [encAll_nil, nil_append] at h
      rw [h, C.dec_encAll_cons (hbs b (by simp))] at hs
      cases hs
  | cons a as ih =>
    have hdec : C.dec (C.encAll (a :: as) ++ s) = some (a, C.encAll as ++ s) :=
      C.dec_encAll_cons (has a (by simp))
    cases bs with
    | nil =>
      rw [encAll_nil, nil_append] at h
      rw [h, ht] at hdec
      cases hdec
    | cons b bs =>
      rw [h, C.dec_encAll_cons (hbs b (by simp))] at hdec
      obtain ⟨hab, hrest⟩ := Prod.mk.inj (Option.some.inj hdec)
      obtain ⟨hl, hst⟩ := ih (fun x hx => has x (by simp [hx])) (fun x hx => hbs x (by simp [hx]))
        hrest.symm
      exact ⟨by rw [hab, hl], hst⟩

theorem exists_encAll (b : List β) :
    ∃ as t, b = C.encAll as ++ t ∧ (∀ a ∈ as, C.Valid a) ∧ C.dec t = none := by
  induction hn : b.length using Nat.strong_induction_on generalizing b with
  | _ n ih =>
    rcases h : C.dec b with _ | ⟨a, rest⟩
    · exact ⟨[], b, rfl, by simp, h⟩
    · obtain ⟨ha, hb⟩ := C.enc_dec h
      have hlt : rest.length < n := by
        have hpos := C.enc_length_pos a
        rw [← hn, hb, length_append]
        omega
      obtain ⟨as, t, hrest, has, ht⟩ := ih rest.length hlt rest rfl
      refine ⟨a :: as, t, ?_, ?_, ht⟩
      · rw [hb, hrest, encAll_cons, append_assoc]
      · intro x hx
        rcases mem_cons.mp hx with rfl | hx
        · exact ha
        · exact has x hx

/-- How many of the codewords are complete in the cut stream `p`, and the torn rest. -/
def torn : List α → List β → ℕ × List β
  | [], p => (0, p)
  | a :: as, p =>
    if (C.enc a).length ≤ p.length then
      let r := torn as (p.drop (C.enc a).length)
      (r.1 + 1, r.2)
    else (0, p)

theorem torn_append (h : p <+: C.encAll as) :
    C.encAll (as.take (C.torn as p).1) ++ (C.torn as p).2 = p := by
  induction as generalizing p with
  | nil => simp [torn]
  | cons a as ih =>
    simp only [torn]
    split_ifs with hlen
    · obtain ⟨q, hq⟩ := h
      rw [encAll_cons] at hq
      have hpa : C.enc a = p.take (C.enc a).length := by
        have ht := congrArg (take (C.enc a).length) hq
        rwa [take_append_of_le_length hlen, take_left' rfl, eq_comm] at ht
      have hrest : p.drop (C.enc a).length <+: C.encAll as := by
        refine ⟨q, ?_⟩
        have hd := congrArg (drop (C.enc a).length) hq
        rwa [drop_append_of_le_length hlen, drop_left' rfl] at hd
      have hi := ih hrest
      simp only [take_succ_cons, encAll_cons, append_assoc, hi]
      nth_rewrite 1 [hpa]
      exact take_append_drop _ _
    · simp

theorem torn_proper (h : p <+: C.encAll as) (hne : p ≠ C.encAll as) :
    ∃ a ∈ as, ∃ q, q ≠ [] ∧ C.enc a = (C.torn as p).2 ++ q := by
  induction as generalizing p with
  | nil => exact absurd (prefix_nil.mp h) hne
  | cons a as ih =>
    obtain ⟨q, hq⟩ := h
    rw [encAll_cons] at hq
    simp only [torn]
    split_ifs with hlen
    · have hrest : p.drop (C.enc a).length ++ q = C.encAll as := by
        have hd := congrArg (drop (C.enc a).length) hq
        rwa [drop_append_of_le_length hlen, drop_left' rfl] at hd
      have hne' : p.drop (C.enc a).length ≠ C.encAll as := by
        intro he
        rw [he] at hrest
        have hq0 : q = [] := by simpa using hrest
        subst hq0
        rw [append_nil] at hq
        exact hne (by rw [hq, encAll_cons])
      obtain ⟨b, hb, r, hr, he⟩ := ih ⟨q, hrest⟩ hne'
      exact ⟨b, mem_cons_of_mem _ hb, r, hr, he⟩
    · have hlt : p.length ≤ (C.enc a).length := by omega
      have ht := congrArg (take (C.enc a).length) hq
      rw [take_left' rfl, take_append, take_of_length_le hlt] at ht
      refine ⟨a, by simp, q.take ((C.enc a).length - p.length), ?_, ht.symm⟩
      intro hnil
      have hl := congrArg length ht
      rw [hnil, append_nil] at hl
      omega

theorem torn_encAll (as : List α) : C.torn as (C.encAll as) = (as.length, []) := by
  induction as with
  | nil => rfl
  | cons a as ih =>
    have hlen : (C.enc a).length ≤ (C.enc a ++ C.encAll as).length := by simp
    simp only [torn, encAll_cons, hlen, if_true, drop_left' rfl, ih, length_cons]

theorem torn_dec (has : ∀ a ∈ as, C.Valid a) (h : p <+: C.encAll as) : C.dec (C.torn as p).2 = none := by
  by_cases hne : p = C.encAll as
  · rw [hne, C.torn_encAll, C.dec_nil]
  · obtain ⟨a, ha, q, hq, he⟩ := C.torn_proper h hne
    exact C.dec_torn (has a ha) he hq

end FrameCode

end NuclaDB
