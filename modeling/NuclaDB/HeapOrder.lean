import NuclaDB.BinaryHeap

/-!
# The order of a binary heap

With a `before` test that is asymmetric and whose failure is transitive, `push` and `pop`
keep every entry behind the one above it.
-/

namespace NuclaDB.BinaryHeap

open List

variable {α : Type*} {before : α → α → Bool} {h : List α} {i : ℕ} {a b : α}

structure Weak (before : α → α → Bool) : Prop where
  asymm {a b : α} : before a b = true → before b a = false
  not_trans {a b c : α} : before a b = false → before b c = false → before a c = false

theorem Weak.irrefl (hw : Weak before) (a : α) : before a a = false := by
  cases haa : before a a with
  | false => rfl
  | true => exact haa.symm.trans (hw.asymm haa)

def IsHeap (before : α → α → Bool) (h : List α) : Prop :=
  ∀ j a p, 0 < j → h[j]? = some a → h[(j - 1) / 2]? = some p → before a p = false

theorem isHeap_nil : IsHeap before [] := by
  intro j a p _ ha
  simp at ha

theorem getElem?_exchange {j : ℕ} (hi : h[i]? = some a) (hj : h[j]? = some b) (k : ℕ) :
    ((h.set i b).set j a)[k]? = if k = j then some a else if k = i then some b else h[k]? := by
  obtain ⟨hi', -⟩ := List.getElem?_eq_some_iff.mp hi
  obtain ⟨hj', -⟩ := List.getElem?_eq_some_iff.mp hj
  simp only [List.getElem?_set, List.length_set]
  grind

structure UpOrder (before : α → α → Bool) (h : List α) (i : ℕ) : Prop where
  edge : ∀ j a p, 0 < j → j ≠ i → h[j]? = some a → h[(j - 1) / 2]? = some p → before a p = false
  below : 0 < i → ∀ j a p, 0 < j → (j - 1) / 2 = i → h[j]? = some a →
    h[(i - 1) / 2]? = some p → before a p = false

theorem UpOrder.isHeap (hu : UpOrder before h i)
    (hi : 0 < i → ∀ a p, h[i]? = some a → h[(i - 1) / 2]? = some p → before a p = false) :
    IsHeap before h := by
  intro j a p hj ha hp
  by_cases hji : j = i
  · subst hji
    exact hi hj a p ha hp
  · exact hu.edge j a p hj hji ha hp

theorem UpOrder.exchange (hw : Weak before) (hu : UpOrder before h i) (hi : 0 < i)
    (ha : h[i]? = some a) (hb : h[(i - 1) / 2]? = some b) (hlt : before a b = true) :
    UpOrder before ((h.set i b).set ((i - 1) / 2) a) ((i - 1) / 2) := by
  have hba := hw.asymm hlt
  constructor
  · intro j x p hj hjp hx hp
    simp only [getElem?_exchange ha hb, if_neg hjp] at hx hp
    by_cases hji : j = i
    · subst hji
      simp only [if_true, Option.some.injEq] at hx hp
      subst hx hp
      exact hba
    · rw [if_neg hji] at hx
      by_cases hpar : (j - 1) / 2 = (i - 1) / 2
      · -- the other entry below the same place
        rw [if_pos hpar, Option.some.injEq] at hp
        subst hp
        exact hw.not_trans (hu.edge j x b hj hji hx (hpar ▸ hb)) hba
      · rw [if_neg hpar] at hp
        by_cases hpi : (j - 1) / 2 = i
        · rw [if_pos hpi, Option.some.injEq] at hp
          subst hp
          exact hu.below hi j x b hj hpi hx hb
        · rw [if_neg hpi] at hp
          exact hu.edge j x p hj hji hx hp
  · intro hpos j x p hj hjp hx hp
    have hjne : j ≠ (i - 1) / 2 := by omega
    have hpne : ((i - 1) / 2 - 1) / 2 ≠ (i - 1) / 2 := by omega
    have hpni : ((i - 1) / 2 - 1) / 2 ≠ i := by omega
    simp only [getElem?_exchange ha hb, if_neg hjne, if_neg hpne, if_neg hpni] at hx hp
    have hbp := hu.edge _ b p hpos (by omega) hb hp
    by_cases hji : j = i
    · rw [if_pos hji, Option.some.injEq] at hx
      subst hx
      exact hbp
    · rw [if_neg hji] at hx
      exact hw.not_trans (hu.edge j x b hj hji hx (hjp ▸ hb)) hbp

theorem upLoop_isHeap (hw : Weak before) {m : ℕ} (hm : i ≤ m) (hu : UpOrder before h i) :
    IsHeap before (upLoop before m h i) := by
  induction m generalizing h i with
  | zero => exact hu.isHeap fun hpos => by omega
  | succ m ih =>
    simp only [upLoop]
    split
    · next hzero => exact hu.isHeap fun hpos => by omega
    · next hpos =>
      split
      · next a b ha hb =>
        split
        · next hlt => exact ih (by omega) (hu.exchange hw (Nat.pos_of_ne_zero hpos) ha hb hlt)
        · next hlt =>
          refine hu.isHeap fun _ x p hx hp => ?_
          simp_all
      · next hnone => exact hu.isHeap fun _ x p hx hp => absurd hp (hnone x p hx)

theorem push_isHeap (hw : Weak before) (hh : IsHeap before h) (c : α) :
    IsHeap before (push before h c) := by
  refine upLoop_isHeap hw (Nat.le_refl _) ⟨fun j x p hj hjl hx hp => ?_, fun _ j x p _ hjl hx _ => ?_⟩
  · have hlt := (List.getElem?_eq_some_iff.mp hx).1
    simp only [List.length_append, List.length_singleton] at hlt
    rw [List.getElem?_append_left (by omega)] at hx hp
    exact hh j x p hj hx hp
  · have hlt := (List.getElem?_eq_some_iff.mp hx).1
    simp only [List.length_append, List.length_singleton] at hlt
    omega

structure DownOrder (before : α → α → Bool) (h : List α) (i : ℕ) : Prop where
  edge : ∀ j a p, 0 < j → (j - 1) / 2 ≠ i → h[j]? = some a → h[(j - 1) / 2]? = some p →
    before a p = false
  above : 0 < i → ∀ j a p, 0 < j → (j - 1) / 2 = i → h[j]? = some a →
    h[(i - 1) / 2]? = some p → before a p = false

theorem pick_spec (hw : Weak before) {best : ℕ} (hb : h[best]? = some b) (k : ℕ) :
    ∃ c, h[pick before h best k]? = some c ∧ before b c = false ∧
      (∀ a, h[k]? = some a → before a c = false) ∧
      (pick before h best k = best ∨ pick before h best k = k ∧ before c b = true) := by
  cases hk : h[k]? with
  | none =>
    have hpick : pick before h best k = best := by simp [pick, hk]
    exact ⟨b, by rw [hpick, hb], hw.irrefl b, by simp, .inl hpick⟩
  | some a =>
    cases hab : before a b with
    | true =>
      have hpick : pick before h best k = k := by simp [pick, hk, hb, hab]
      exact ⟨a, by rw [hpick, hk], hw.asymm hab, by simp [hw.irrefl], .inr ⟨hpick, hab⟩⟩
    | false =>
      have hpick : pick before h best k = best := by simp [pick, hk, hb, hab]
      exact ⟨b, by rw [hpick, hb], hw.irrefl b, by simpa using hab, .inl hpick⟩

theorem pick_children (hw : Weak before) (ha : h[i]? = some a) :
    ∃ c, h[pick before h (pick before h i (2 * i + 1)) (2 * i + 2)]? = some c ∧
      (∀ j x, 0 < j → (j - 1) / 2 = i → h[j]? = some x → before x c = false) ∧
      (pick before h (pick before h i (2 * i + 1)) (2 * i + 2) ≠ i → before a c = false ∧
        (pick before h (pick before h i (2 * i + 1)) (2 * i + 2) - 1) / 2 = i) := by
  obtain ⟨b, hb, hab, hl, hchoice⟩ := pick_spec hw ha (2 * i + 1)
  obtain ⟨c, hc, hbc, hr, hchoice'⟩ := pick_spec hw hb (2 * i + 2)
  refine ⟨c, hc, fun j x hj hji hx => ?_, fun hne => ⟨hw.not_trans hab hbc, by omega⟩⟩
  obtain rfl | rfl : j = 2 * i + 1 ∨ j = 2 * i + 2 := by omega
  · exact hw.not_trans (hl x hx) hbc
  · exact hr x hx

theorem DownOrder.exchange (hd : DownOrder before h i) {best : ℕ} {c : α}
    (ha : h[i]? = some a) (hc : h[best]? = some c) (hbest : (best - 1) / 2 = i) (hne : best ≠ i)
    (hac : before a c = false)
    (hmin : ∀ j x, 0 < j → (j - 1) / 2 = i → h[j]? = some x → before x c = false) :
    DownOrder before ((h.set i c).set best a) best := by
  constructor
  · intro j x p hj hjb hx hp
    simp only [getElem?_exchange ha hc, if_neg hjb] at hx hp
    by_cases hji : (j - 1) / 2 = i
    · rw [if_pos hji, Option.some.injEq] at hp
      subst hp
      by_cases hjbest : j = best
      · rw [if_pos hjbest, Option.some.injEq] at hx
        subst hx
        exact hac
      · rw [if_neg hjbest, if_neg (by omega)] at hx
        exact hmin j x hj hji hx
    · rw [if_neg hji] at hp
      by_cases hj' : j = i
      · rw [if_neg (by omega), if_pos hj', Option.some.injEq] at hx
        subst hx hj'
        exact hd.above hj best c p (by omega) hbest hc hp
      · rw [if_neg (by omega), if_neg hj'] at hx
        exact hd.edge j x p hj hji hx hp
  · intro hpos j x p hj hjb hx hp
    simp only [getElem?_exchange ha hc, hbest, if_neg (Ne.symm hne), if_pos, Option.some.injEq] at hp
    subst hp
    rw [getElem?_exchange ha hc, if_neg (by omega), if_neg (by omega)] at hx
    exact hd.edge j x c hj (by omega) hx (hjb ▸ hc)

theorem DownOrder.isHeap (hd : DownOrder before h i)
    (hi : ∀ j x p, 0 < j → (j - 1) / 2 = i → h[j]? = some x → h[i]? = some p →
      before x p = false) : IsHeap before h := by
  intro j x p hj hx hp
  by_cases hji : (j - 1) / 2 = i
  · exact hi j x p hj hji hx (hji ▸ hp)
  · exact hd.edge j x p hj hji hx hp

theorem downLoop_isHeap (hw : Weak before) {m : ℕ} (hm : h.length ≤ m + i)
    (hd : DownOrder before h i) : IsHeap before (downLoop before m h i) := by
  induction m generalizing h i with
  | zero =>
    refine hd.isHeap fun j x p hj hji hx _ => ?_
    have hlt := (List.getElem?_eq_some_iff.mp hx).1
    omega
  | succ m ih =>
    cases ha : h[i]? with
    | none =>
      -- past the end of the heap there is nothing below either
      have hout := List.getElem?_eq_none_iff.mp ha
      have hnone : ∀ k, i ≤ k → h[k]? = none := fun k hk =>
        List.getElem?_eq_none_iff.mpr (by omega)
      simp only [downLoop, pick, hnone _ (Nat.le_refl i), hnone (2 * i + 1) (by omega),
        hnone (2 * i + 2) (by omega), if_true]
      exact hd.isHeap fun j x p hj hji hx hp => by simp [ha] at hp
    | some a =>
      obtain ⟨c, hc, hmin, hmove⟩ := pick_children hw ha
      simp only [downLoop]
      split
      · next hstay =>
        rw [hstay, ha, Option.some.injEq] at hc
        subst hc
        refine hd.isHeap fun j x p hj hji hx hp => ?_
        rw [ha, Option.some.injEq] at hp
        subst hp
        exact hmin j x hj hji hx
      · next hne =>
        obtain ⟨hac, hbest⟩ := hmove hne
        rw [ha, hc]
        refine ih ?_ (hd.exchange ha hc hbest hne hac hmin)
        simp only [List.length_set]
        omega

theorem IsHeap.set_root (hh : IsHeap before h) (x : α) : DownOrder before (h.set 0 x) 0 := by
  refine ⟨fun j a p hj hj0 ha hp => ?_, fun hpos => by omega⟩
  rw [getElem?_set_ne (by omega)] at ha hp
  exact hh j a p hj ha hp

theorem IsHeap.root (hw : Weak before) (hh : IsHeap before h) {top x : α} (ht : h[0]? = some top)
    (hx : x ∈ h) : before x top = false := by
  obtain ⟨j, hj, rfl⟩ := getElem_of_mem hx
  induction j using Nat.strongRecOn with
  | _ j ih =>
    by_cases hj0 : j = 0
    · subst hj0
      rw [getElem?_eq_getElem hj, Option.some.injEq] at ht
      rw [ht]
      exact hw.irrefl top
    · have hpar : (j - 1) / 2 < h.length := by omega
      exact hw.not_trans (hh j _ _ (Nat.pos_of_ne_zero hj0) (getElem?_eq_getElem hj)
        (getElem?_eq_getElem hpar)) (ih _ (by omega) hpar (getElem_mem hpar))

theorem pop_isHeap (hw : Weak before) (hh : IsHeap before h) {rest : List α} {c : α}
    (hp : pop before h = some (c, rest)) : IsHeap before rest := by
  cases h with
  | nil => simp [pop] at hp
  | cons top tail =>
    simp only [pop, Option.some.injEq, Prod.mk.injEq] at hp
    obtain ⟨rfl, rfl⟩ := hp
    have hroot := hh.set_root ((top :: tail).getD tail.length top)
    refine downLoop_isHeap hw (by simp) ⟨fun j x p hj hj0 hx hpar => ?_, fun hpos => by omega⟩
    rw [getElem?_take] at hx hpar
    split at hx
    · rw [if_pos (by omega)] at hpar
      exact hroot.edge j x p hj hj0 hx hpar
    · simp at hx

theorem getElem?_of_pop {rest : List α} {c : α} (hp : pop before h = some (c, rest)) :
    h[0]? = some c := by
  cases h with
  | nil => simp [pop] at hp
  | cons top tail =>
    simp only [pop, Option.some.injEq, Prod.mk.injEq] at hp
    simpa using hp.1

theorem pop_root (hw : Weak before) (hh : IsHeap before h) {rest : List α} {c x : α}
    (hp : pop before h = some (c, rest)) (hx : x ∈ h) : before x c = false :=
  hh.root hw (getElem?_of_pop hp) hx

theorem drain_sorted (hw : Weak before) (hh : IsHeap before h) {m : ℕ} (hm : h.length ≤ m) :
    (drain before m h).Pairwise fun a b => before b a = false := by
  induction m generalizing h with
  | zero => simp [drain]
  | succ m ih =>
    simp only [drain]
    split
    · exact .nil
    · next c rest hp =>
      have hlen := length_of_pop before hp
      refine .cons (fun x hx => ?_) (ih (pop_isHeap hw hh hp) (by omega))
      have hrest := (drain_perm before (by omega)).mem_iff.mp hx
      exact pop_root hw hh hp ((pop_perm before hp).mem_iff.mpr (.tail _ hrest))

end NuclaDB.BinaryHeap
