import NuclaDB.EventRun
import NuclaDB.HnswClosest

/-!
# The typed heaps

`up` and `pop` of `heap.go` with their indices checked: `none` is an index out of range, or a
loop that has not come to its end.
-/

namespace NuclaDB.Hnsw

open List

namespace TypedHeap

section Loops
variable {α : Type} (before : α → α → Bool)

def up : ℕ → List α → ℕ → Option (List α)
  | 0, _, _ => none
  | m + 1, h, i =>
    if 0 < i then do
      let p := (i - 1) / 2
      let a ← h[i]?
      let b ← h[p]?
      if !before a b then return h
      up m ((h.set i b).set p a) p
    else return h

def push (h : List α) (c : α) : Option (List α) :=
  let h := h ++ [c]
  up before h.length h (h.length - 1)

/-- The test against one of the places below, which is made only if there is such a place. -/
def better (h : List α) (best k : ℕ) : Option ℕ :=
  if k < h.length then do
    let a ← h[k]?
    let b ← h[best]?
    return if before a b then k else best
  else return best

def down : ℕ → List α → ℕ → Option (List α)
  | 0, _, _ => none
  | m + 1, h, i => do
    let l := 2 * i + 1
    let best ← better before h i l
    let r := l + 1
    let best ← better before h best r
    if best = i then return h
    let a ← h[i]?
    let b ← h[best]?
    down m ((h.set i b).set best a) best

def pop (h : List α) : Option (α × List α) := do
  let top ← h[0]?
  let n := h.length - 1
  let last ← h[n]?
  let h := (h.set 0 last).take n
  let h ← down before h.length.succ h 0
  return (top, h)

end Loops

section Values
variable {α : Type} {before : α → α → Bool} {h : List α} {i m : ℕ}

theorem up_eq (before : α → α → Bool) (hi : i < h.length) (hm : i ≤ m) :
    up before (m + 1) h i = some (BinaryHeap.upLoop before m h i) := by
  induction m generalizing h i with
  | zero =>
    have hzero : i = 0 := by omega
    simp [up, BinaryHeap.upLoop, hzero]
  | succ m ih =>
    by_cases hzero : i = 0
    · simp [up, BinaryHeap.upLoop, hzero]
    · have hp : (i - 1) / 2 < h.length := by omega
      rw [up]
      simp only [BinaryHeap.upLoop, Nat.pos_of_ne_zero hzero, if_true, hzero, if_false,
        getElem?_eq_getElem hi, getElem?_eq_getElem hp, Option.bind_eq_bind, Option.bind_some]
      cases before h[i] h[(i - 1) / 2] with
      | false => rfl
      | true => exact ih (by simpa using hp) (by omega)

theorem push_eq (h : List α) (c : α) : push before h c = some (BinaryHeap.push before h c) := by
  have hlast : h.length < (h ++ [c]).length := by simp
  have hup := up_eq before hlast (Nat.le_refl h.length)
  simpa [push, BinaryHeap.push] using hup

theorem better_eq (hi : i < h.length) (k : ℕ) :
    better before h i k = some (BinaryHeap.pick before h i k) := by
  by_cases hk : k < h.length
  · simp [better, BinaryHeap.pick, hk, hi]
  · simp [better, BinaryHeap.pick, hk]

theorem pick_cases (before : α → α → Bool) (hi : i < h.length) (k : ℕ) :
    BinaryHeap.pick before h i k = i ∨ BinaryHeap.pick before h i k = k ∧ k < h.length := by
  by_cases hk : k < h.length
  · cases hb : before h[k] h[i] with
    | false | true => simp [BinaryHeap.pick, hk, hi, hb]
  · simp [BinaryHeap.pick, hk]

theorem down_eq (hi : i < h.length) (hm : h.length ≤ m + i) :
    down before (m + 1) h i = some (BinaryHeap.downLoop before m h i) := by
  induction m generalizing h i with
  | zero => omega
  | succ m ih =>
    have hl := pick_cases before hi (2 * i + 1)
    have hlin : BinaryHeap.pick before h i (2 * i + 1) < h.length := by omega
    have hr := pick_cases before hlin (2 * i + 2)
    rw [down]
    simp only [better_eq hi, better_eq hlin, Option.bind_eq_bind, Option.bind_some, BinaryHeap.downLoop]
    generalize BinaryHeap.pick before h (BinaryHeap.pick before h i (2 * i + 1)) (2 * i + 2) = best at *
    by_cases hstay : best = i
    · simp only [hstay, if_true]
      rfl
    · have hbest : best < h.length := by omega
      simp only [hstay, if_false, getElem?_eq_getElem hi, getElem?_eq_getElem hbest]
      exact ih (by simpa using hbest) (by simp only [length_set]; omega)

theorem pop_eq (h : List α) : pop before h = BinaryHeap.pop before h := by
  cases h with
  | nil => rfl
  | cons top rest =>
    have hlast : (top :: rest)[rest.length]? = some ((top :: rest).getD rest.length top) := by
      simp [getD_eq_getElem?_getD]
    simp only [pop, BinaryHeap.pop, length_cons, Nat.add_sub_cancel, hlast, getElem?_cons_zero,
      Option.bind_eq_bind, Option.bind_some]
    generalize hn : ((top :: rest).set 0 ((top :: rest).getD rest.length top)).take rest.length = h
    have hlen : h.length = rest.length := by simp [← hn]
    rw [hlen]
    by_cases hempty : h = []
    · have hzero : rest.length = 0 := by simpa [hempty] using hlen.symm
      rw [hempty, hzero]
      rfl
    · rw [down_eq (length_pos_iff.mpr hempty) (by omega)]
      rfl

end Values

inductive Op (α : Type)
  | push (c : α)
  | pop

structure State (α : Type) where
  heap : List α
  popped : List α

inductive Fault
  | outOfRange

section Runs
variable {α : Type} {before : α → α → Bool}

def step (before : α → α → Bool) (s : State α) : Op α → Except Fault (State α)
  | .push c =>
    match push before s.heap c with
    | some heap => .ok { s with heap }
    | none => .error .outOfRange
  | .pop =>
    match pop before s.heap with
    | some (c, heap) => .ok ⟨heap, s.popped ++ [c]⟩
    | none => .error .outOfRange

def Op.pushed : Op α → List α
  | .push c => [c]
  | .pop => []

def PopsStored (s : State α) (op : Op α) : Prop := op = .pop → s.heap ≠ []

/-- The entries in a heap and those popped from it are the ones pushed, and the heap is in order. -/
structure Holds (before : α → α → Bool) (s : State α) (pushed : List α) : Prop where
  order : BinaryHeap.IsHeap before s.heap
  stored : (s.heap ++ s.popped).Perm pushed

theorem pop_stored (hw : BinaryHeap.Weak before) {h : List α} (hh : BinaryHeap.IsHeap before h)
    (hne : h ≠ []) : ∃ c rest, pop before h = some (c, rest) ∧ c ∈ h ∧ ∀ x ∈ h, before x c = false := by
  rw [pop_eq]
  cases hpop : BinaryHeap.pop before h with
  | none => exact absurd ((BinaryHeap.pop_eq_none before).mp hpop) hne
  | some taken =>
    obtain ⟨c, rest⟩ := taken
    have hmem : c ∈ h := (BinaryHeap.pop_perm before hpop).mem_iff.mpr mem_cons_self
    exact ⟨c, rest, rfl, hmem, fun x hx => BinaryHeap.pop_root hw hh hpop hx⟩

theorem Holds.step (hw : BinaryHeap.Weak before) {s : State α} {pushed : List α} {op : Op α}
    (hs : Holds before s pushed) (hop : PopsStored s op) :
    ∃ s', step before s op = .ok s' ∧ Holds before s' (pushed ++ op.pushed) := by
  cases op with
  | push c =>
    simp only [TypedHeap.step, push_eq]
    have hperm : (BinaryHeap.push before s.heap c ++ s.popped).Perm (c :: s.heap ++ s.popped) :=
      (BinaryHeap.push_perm before s.heap c).append_right s.popped
    have hlast : (pushed ++ [c]).Perm (c :: pushed) := perm_append_singleton c pushed
    exact ⟨_, rfl, BinaryHeap.push_isHeap hw hs.order c,
      (hperm.trans (hs.stored.cons c)).trans hlast.symm⟩
  | pop =>
    obtain ⟨c, rest, hpop, -⟩ := pop_stored hw hs.order (hop rfl)
    have hpop' := (pop_eq s.heap).symm.trans hpop
    have hperm : (rest ++ (s.popped ++ [c])).Perm (s.heap ++ s.popped) := by
      calc (rest ++ (s.popped ++ [c])).Perm (c :: (rest ++ s.popped)) := by
            rw [← append_assoc]
            exact perm_append_singleton c _
        _ |>.Perm (s.heap ++ s.popped) := ((BinaryHeap.pop_perm before hpop').append_right s.popped).symm
    simp only [TypedHeap.step, hpop]
    refine ⟨_, rfl, BinaryHeap.pop_isHeap hw hs.order hpop', ?_⟩
    simpa [Op.pushed] using hperm.trans hs.stored

/-- Every run from the empty heap meets no index out of range, the heap holds what was pushed less
what was popped, and the next pop takes an entry that no other is before. -/
theorem run_holds (hw : BinaryHeap.Weak before) {ops : List (Op α)}
    (hops : EventRun.Along (step before) PopsStored ⟨[], []⟩ ops) :
    ∃ s, EventRun.run (step before) ⟨[], []⟩ ops = .ok s ∧
      (s.heap : Multiset α) + s.popped = (ops.flatMap Op.pushed : List α) ∧
      (s.heap ≠ [] → ∃ c rest, pop before s.heap = some (c, rest) ∧ c ∈ s.heap ∧
        ∀ x ∈ s.heap, before x c = false) := by
  have hstart : Holds before ⟨[], []⟩ [] := ⟨BinaryHeap.isHeap_nil, .nil⟩
  obtain ⟨s, hrun, hs⟩ := EventRun.run_collects (f := Op.pushed) (Holds.step hw) hstart hops
  exact ⟨s, hrun, Multiset.coe_eq_coe.mpr hs.stored, pop_stored hw hs.order⟩

end Runs

end TypedHeap

theorem StrictWeak.closer {D : Type} [Dist D] (ho : StrictWeak (Dist.lt (D := D))) :
    BinaryHeap.Weak (closer (D := D)) :=
  ⟨ho.asymm, fun hab hbc => ho.not_trans hab hbc⟩

namespace TypedHeap

variable {D : Type} [Dist D]

/-- `minHeap` orders its candidates by `closer` and `maxHeap` by `farther`. -/
theorem minHeap_maxHeap_run (ho : StrictWeak (Dist.lt (D := D))) (ops : List (Op (Candidate D))) :
    (EventRun.Along (step closer) PopsStored ⟨[], []⟩ ops →
      ∃ s, EventRun.run (step closer) ⟨[], []⟩ ops = .ok s ∧
        (s.heap : Multiset (Candidate D)) + s.popped = (ops.flatMap Op.pushed : List (Candidate D)) ∧
        (s.heap ≠ [] → ∃ c rest, pop closer s.heap = some (c, rest) ∧ c ∈ s.heap ∧
          ∀ x ∈ s.heap, Dist.lt x.dist c.dist = false)) ∧
    (EventRun.Along (step farther) PopsStored ⟨[], []⟩ ops →
      ∃ s, EventRun.run (step farther) ⟨[], []⟩ ops = .ok s ∧
        (s.heap : Multiset (Candidate D)) + s.popped = (ops.flatMap Op.pushed : List (Candidate D)) ∧
        (s.heap ≠ [] → ∃ c rest, pop farther s.heap = some (c, rest) ∧ c ∈ s.heap ∧
          ∀ x ∈ s.heap, Dist.lt c.dist x.dist = false)) :=
  ⟨run_holds ho.closer, run_holds ho.farther⟩

instance (s : State (Candidate Exact)) (op : Op (Candidate Exact)) : Decidable (PopsStored s op) :=
  match op with
  | .push _ => .isTrue (fun h => by cases h)
  | .pop => decidable_of_iff (s.heap ≠ []) (by simp [PopsStored])

def threeCandidates : List (Op (Candidate Exact)) :=
  [.push ⟨0, ⟨5⟩⟩, .push ⟨1, ⟨3⟩⟩, .push ⟨2, ⟨3⟩⟩, .pop]

theorem minHeap_maxHeap_run_threeCandidates :
    (∃ s, EventRun.run (step closer) ⟨[], []⟩ threeCandidates = .ok s ∧ s.popped = [⟨1, ⟨3⟩⟩] ∧
      ∃ c rest, pop closer s.heap = some (c, rest) ∧ ∀ x ∈ s.heap, Dist.lt x.dist c.dist = false) ∧
    (∃ s, EventRun.run (step farther) ⟨[], []⟩ threeCandidates = .ok s ∧ s.popped = [⟨0, ⟨5⟩⟩] ∧
      ∃ c rest, pop farther s.heap = some (c, rest) ∧ ∀ x ∈ s.heap, Dist.lt c.dist x.dist = false) := by
  have hboth := minHeap_maxHeap_run Exact.strictWeak threeCandidates
  have hmin : EventRun.run (step closer) ⟨[], []⟩ threeCandidates =
    .ok ⟨[⟨2, ⟨3⟩⟩, ⟨0, ⟨5⟩⟩], [⟨1, ⟨3⟩⟩]⟩ := rfl
  have hmax : EventRun.run (step farther) ⟨[], []⟩ threeCandidates =
    .ok ⟨[⟨2, ⟨3⟩⟩, ⟨1, ⟨3⟩⟩], [⟨0, ⟨5⟩⟩]⟩ := rfl
  constructor
  · obtain ⟨s, hs, -, hpop⟩ := hboth.1 (by decide)
    obtain rfl := Except.ok.inj (hs.symm.trans hmin)
    obtain ⟨c, rest, htaken, -, hleast⟩ := hpop (by simp)
    exact ⟨_, hs, rfl, c, rest, htaken, hleast⟩
  · obtain ⟨s, hs, -, hpop⟩ := hboth.2 (by decide)
    obtain rfl := Except.ok.inj (hs.symm.trans hmax)
    obtain ⟨c, rest, htaken, -, hgreatest⟩ := hpop (by simp)
    exact ⟨_, hs, rfl, c, rest, htaken, hgreatest⟩

end TypedHeap

end NuclaDB.Hnsw
