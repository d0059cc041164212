import Mathlib.Data.List.Nodup

/-!
# Reader/writer locks

A writer first asks, which turns away the readers that come after it, and gets the lock once
the readers before it are gone.
-/

namespace NuclaDB.RwLock

open Function List Option

variable {Λ : Type*} [DecidableEq Λ]

structure RW where
  readers : List ℕ
  writer : Option ℕ
  asking : Option ℕ
deriving DecidableEq

namespace RW

def unlocked : RW := ⟨[], none, none⟩

variable (w : RW) (i : ℕ)

def noWriter : Bool := w.writer.isNone && w.asking.isNone

def rlock : Option RW :=
  if w.noWriter then some { w with readers := i :: w.readers } else none

def runlock : RW := { w with readers := w.readers.erase i }

def ask : Option RW := if w.noWriter then some { w with asking := some i } else none

def take : Option RW :=
  if w.readers.isEmpty then some ⟨[], some i, none⟩ else none

def unlock : RW := { w with writer := none }

def tryLock : Option RW :=
  if w.noWriter && w.readers.isEmpty then some ⟨[], some i, none⟩ else none

variable {w w' : RW} {i : ℕ}

theorem noWriter_iff : w.noWriter = true ↔ w.writer = none ∧ w.asking = none := by
  simp [noWriter]

theorem rlock_eq_some : w.rlock i = some w' ↔
    w.noWriter = true ∧ w' = { w with readers := i :: w.readers } := by
  rw [rlock, ite_none_right_eq_some, some.injEq, eq_comm (b := w')]

theorem ask_eq_some : w.ask i = some w' ↔ w.noWriter = true ∧ w' = { w with asking := some i } := by
  rw [ask, ite_none_right_eq_some, some.injEq, eq_comm (b := w')]

theorem take_eq_some : w.take i = some w' ↔ w.readers = [] ∧ w' = ⟨[], some i, none⟩ := by
  rw [take, ite_none_right_eq_some, some.injEq, eq_comm (b := w'), List.isEmpty_iff]

theorem tryLock_eq_some : w.tryLock i = some w' ↔
    w.noWriter = true ∧ w.readers = [] ∧ w' = ⟨[], some i, none⟩ := by
  rw [tryLock, ite_none_right_eq_some, some.injEq, eq_comm (b := w'), Bool.and_eq_true,
    List.isEmpty_iff, and_assoc]

end RW

structure Held (Λ : Type*) where
  reads : List Λ
  writes : List Λ

namespace Held

def nothing : Held Λ := ⟨[], []⟩

variable (h : Held Λ)

def read (l : Λ) : Held Λ := ⟨l :: h.reads, h.writes⟩

def write (l : Λ) : Held Λ := ⟨h.reads, l :: h.writes⟩

def unread (l : Λ) : Held Λ := ⟨h.reads.erase l, h.writes⟩

def unwrite (l : Λ) : Held Λ := ⟨h.reads, h.writes.erase l⟩

end Held

structure Tracks (held : ℕ → Held Λ) (locks : Λ → RW) : Prop where
  readers (l : Λ) (i : ℕ) : (locks l).readers.count i = (held i).reads.count l
  writer (l : Λ) (i : ℕ) : (locks l).writer = some i ↔ l ∈ (held i).writes
  nodup (i : ℕ) : (held i).writes.Nodup
  alone (l : Λ) : (locks l).writer ≠ none → (locks l).readers = [] ∧ (locks l).asking = none

namespace Tracks

variable {held : ℕ → Held Λ} {locks : Λ → RW} {l : Λ} {i j : ℕ} {w : RW}

theorem start : Tracks (fun _ => Held.nothing (Λ := Λ)) fun _ => RW.unlocked :=
  ⟨fun _ _ => rfl, fun _ _ => by simp [Held.nothing, RW.unlocked], fun _ => nodup_nil, by
    simp [RW.unlocked]⟩

section
variable (h : Tracks held locks)
include h

theorem mem_readers : i ∈ (locks l).readers ↔ l ∈ (held i).reads := by
  rw [← count_pos_iff, h.readers, count_pos_iff]

theorem no_reader (hw : l ∈ (held i).writes) : l ∉ (held j).reads := by
  intro hr
  have hwriter : (locks l).writer ≠ none := by simp [(h.writer l i).mpr hw]
  have hmem := h.mem_readers.mpr hr
  rw [(h.alone l hwriter).1] at hmem
  cases hmem

theorem one_writer (hi : l ∈ (held i).writes) (hj : l ∈ (held j).writes) : i = j :=
  some.inj (((h.writer l i).mpr hi).symm.trans ((h.writer l j).mpr hj))

theorem change {h' : Held Λ}
    (hreaders : ∀ j, w.readers.count j = (update held i h' j).reads.count l)
    (hwriter : ∀ j, w.writer = some j ↔ l ∈ (update held i h' j).writes)
    (hnodup : h'.writes.Nodup) (halone : w.writer ≠ none → w.readers = [] ∧ w.asking = none)
    (hother : ∀ m, m ≠ l → h'.reads.count m = (held i).reads.count m ∧
      (m ∈ h'.writes ↔ m ∈ (held i).writes)) :
    Tracks (update held i h') (update locks l w) := by
  refine ⟨fun m j => ?_, fun m j => ?_, fun j => ?_, fun m => ?_⟩
  · by_cases hm : m = l
    · subst hm
      rw [update_self]
      exact hreaders j
    · rw [update_of_ne hm, h.readers]
      by_cases hj : j = i
      · subst hj
        rw [update_self, (hother m hm).1]
      · rw [update_of_ne hj]
  · by_cases hm : m = l
    · subst hm
      rw [update_self]
      exact hwriter j
    · rw [update_of_ne hm, h.writer]
      by_cases hj : j = i
      · subst hj
        rw [update_self, (hother m hm).2]
      · rw [update_of_ne hj]
  · by_cases hj : j = i
    · subst hj
      rwa [update_self]
    · rw [update_of_ne hj]
      exact h.nodup j
  · by_cases hm : m = l
    · subst hm
      rwa [update_self]
    · rw [update_of_ne hm]
      exact h.alone m

theorem rlock (hw : (locks l).rlock i = some w) :
    Tracks (update held i ((held i).read l)) (update locks l w) := by
  obtain ⟨hfree, rfl⟩ := RW.rlock_eq_some.mp hw
  rw [RW.noWriter_iff] at hfree
  refine h.change (fun j => ?_) (fun j => ?_) (h.nodup i) (by simp [hfree.1]) fun m hm => ?_
  · by_cases hj : j = i
    · subst hj
      simp [Held.read, h.readers]
    · simp [hj, Ne.symm hj, h.readers]
  · rw [show (update held i ((held i).read l) j).writes = (held j).writes by
      by_cases hj : j = i
      · subst hj
        simp [Held.read]
      · simp [hj]]
    exact h.writer l j
  · simp [Held.read, Ne.symm hm]

theorem runlock :
    Tracks (update held i ((held i).unread l)) (update locks l ((locks l).runlock i)) := by
  refine h.change (fun j => ?_) (fun j => ?_) (h.nodup i) (fun hwriter => ?_) fun m hm => ?_
  · by_cases hj : j = i
    · subst hj
      simp [Held.unread, RW.runlock, h.readers]
    · simp [RW.runlock, hj, count_erase_of_ne hj, h.readers]
  · rw [show (update held i ((held i).unread l) j).writes = (held j).writes by
      by_cases hj : j = i
      · subst hj
        simp [Held.unread]
      · simp [hj]]
    exact h.writer l j
  · obtain ⟨hreaders, hasking⟩ := h.alone l hwriter
    exact ⟨by simp [RW.runlock, hreaders], hasking⟩
  · exact ⟨count_erase_of_ne hm, Iff.rfl⟩

theorem ask (hw : (locks l).ask i = some w) : Tracks held (update locks l w) := by
  obtain ⟨hfree, rfl⟩ := RW.ask_eq_some.mp hw
  rw [RW.noWriter_iff] at hfree
  have hself : update held i (held i) = held := update_eq_self i held
  rw [← hself]
  refine h.change ?_ ?_ (h.nodup i) (by simp [hfree.1]) fun _ _ => ⟨rfl, Iff.rfl⟩
  · simpa using h.readers l
  · simpa using h.writer l

theorem taken (hwriter : (locks l).writer = none) (hreaders : (locks l).readers = []) :
    Tracks (update held i ((held i).write l)) (update locks l ⟨[], some i, none⟩) := by
  have hnone : ∀ j, l ∉ (held j).writes := by
    intro j hj
    rw [← h.writer, hwriter] at hj
    cases hj
  refine h.change (fun j => ?_) (fun j => ?_) ?_ (by simp) fun m hm => ?_
  · have hcount := h.readers l j
    rw [hreaders] at hcount
    by_cases hj : j = i
    · subst hj
      simpa [Held.write] using hcount
    · simpa [hj] using hcount
  · by_cases hj : j = i
    · subst hj
      simp [Held.write]
    · simp [hj, Ne.symm hj, hnone j]
  · exact nodup_cons.mpr ⟨hnone i, h.nodup i⟩
  · simp [Held.write, hm]

theorem unlock (hl : l ∈ (held i).writes) :
    Tracks (update held i ((held i).unwrite l)) (update locks l (locks l).unlock) := by
  refine h.change (fun j => ?_) (fun j => ?_) ((h.nodup i).erase l) (by simp [RW.unlock]) fun m hm => ?_
  · rw [show (update held i ((held i).unwrite l) j).reads = (held j).reads by
      by_cases hj : j = i
      · subst hj
        simp [Held.unwrite]
      · simp [hj]]
    exact h.readers l j
  · by_cases hj : j = i
    · subst hj
      simp [RW.unlock, Held.unwrite, (h.nodup j).mem_erase_iff]
    · have hother : l ∉ (held j).writes := fun hjl => hj (h.one_writer hjl hl)
      simp [RW.unlock, hj, hother]
  · exact ⟨rfl, mem_erase_of_ne hm⟩

end

end Tracks

/-- A caller's code. `enter l` says that the caller now relies on what it holds `l` for, `leave l` is
the `RUnlock` that ends this. -/
inductive Code (Λ S Q A : Type)
  | done
  | panic
  | rlock (l : Λ) (k : Code Λ S Q A)
  | runlock (l : Λ) (k : Code Λ S Q A)
  | lock (l : Λ) (k : Code Λ S Q A)
  | unlock (l : Λ) (k : Code Λ S Q A)
  | tryLock (l : Λ) (yes no : Code Λ S Q A)
  | access (f : S → S) (k : S → Code Λ S Q A)
  | ask (q : Q) (k : A → Code Λ S Q A)
  | enter (l : Λ) (k : Code Λ S Q A)
  | leave (l : Λ) (k : Code Λ S Q A)

section Run
variable {Λ S Q A : Type} [DecidableEq Λ]

structure Caller (Λ S Q A : Type) where
  code : Code Λ S Q A
  inside : List Λ

structure Config (Λ S Q A : Type) where
  locks : Λ → RW
  shared : S
  callers : List (Caller Λ S Q A)

namespace Config

variable (c : Config Λ S Q A)

def goto (i : ℕ) (l : Λ) (w : RW) (caller : Caller Λ S Q A) : Config Λ S Q A :=
  { c with locks := update c.locks l w, callers := c.callers.set i caller }

def next (i : ℕ) (a : A) : Caller Λ S Q A → Option (Config Λ S Q A)
  | ⟨.done, _⟩ => none
  | ⟨.panic, _⟩ => none
  | ⟨.rlock l k, inside⟩ => ((c.locks l).rlock i).map fun w => c.goto i l w ⟨k, inside⟩
  | ⟨.runlock l k, inside⟩ => some (c.goto i l ((c.locks l).runlock i) ⟨k, inside⟩)
  | ⟨.lock l k, inside⟩ =>
    if (c.locks l).asking = some i then ((c.locks l).take i).map fun w => c.goto i l w ⟨k, inside⟩
    else ((c.locks l).ask i).map fun w => c.goto i l w ⟨.lock l k, inside⟩
  | ⟨.unlock l k, inside⟩ => some (c.goto i l (c.locks l).unlock ⟨k, inside⟩)
  | ⟨.tryLock l yes no, inside⟩ =>
    match (c.locks l).tryLock i with
    | some w => some (c.goto i l w ⟨yes, inside⟩)
    | none => some { c with callers := c.callers.set i ⟨no, inside⟩ }
  | ⟨.access f k, inside⟩ =>
    some { c with shared := f c.shared, callers := c.callers.set i ⟨k c.shared, inside⟩ }
  | ⟨.ask _ k, inside⟩ => some { c with callers := c.callers.set i ⟨k a, inside⟩ }
  | ⟨.enter l k, inside⟩ => some { c with callers := c.callers.set i ⟨k, l :: inside⟩ }
  | ⟨.leave l k, inside⟩ => some (c.goto i l ((c.locks l).runlock i) ⟨k, inside.erase l⟩)

def step (ev : ℕ × A) : Except Unit (Config Λ S Q A) :=
  match c.callers[ev.1]?.bind (c.next ev.1 ev.2) with
  | some c' => .ok c'
  | none => .error ()

theorem exists_of_step {c c' : Config Λ S Q A} {ev : ℕ × A} (h : c.step ev = .ok c') :
    ∃ caller, c.callers[ev.1]? = some caller ∧ c.next ev.1 ev.2 caller = some c' := by
  simp only [step] at h
  split at h
  · next c₁ hnext =>
    obtain rfl := Except.ok.inj h
    exact bind_eq_some_iff.mp hnext
  · cases h

omit [DecidableEq Λ] in
theorem forall_callers_set {G : Type*} {g : ℕ → G} {P : G → Caller Λ S Q A → Prop}
    {callers : List (Caller Λ S Q A)} {i : ℕ} {caller caller' : Caller Λ S Q A}
    (hi : callers[i]? = some caller) (hall : ∀ j other, callers[j]? = some other → P (g j) other)
    {x : G} (hnew : P x caller') (j : ℕ) (other : Caller Λ S Q A)
    (hj : (callers.set i caller')[j]? = some other) : P (update g i x j) other := by
  by_cases hji : j = i
  · subst hji
    rw [List.getElem?_set_self (List.getElem?_eq_some_iff.mp hi).1, some.injEq] at hj
    rw [update_self, ← hj]
    exact hnew
  · rw [getElem?_set_ne (Ne.symm hji)] at hj
    rw [update_of_ne hji]
    exact hall j other hj

def Waits (i : ℕ) : Code Λ S Q A → Prop
  | .rlock l _ => (c.locks l).noWriter = false
  | .lock l _ => if (c.locks l).asking = some i then (c.locks l).readers ≠ [] else (c.locks l).noWriter = false
  | _ => False

instance decidableWaits (c : Config Λ S Q A) (i : ℕ) (code : Code Λ S Q A) : Decidable (c.Waits i code) :=
  match code with
  | .rlock l _ => inferInstanceAs (Decidable ((c.locks l).noWriter = false))
  | .lock l _ => inferInstanceAs (Decidable (if (c.locks l).asking = some i then _ else _))
  | .done | .panic | .runlock .. | .unlock .. | .tryLock .. | .access .. | .ask .. | .enter .. | .leave .. =>
    .isFalse id

/-- There are calls that have not returned, and they all wait for locks. -/
def Deadlock : Prop :=
  (∃ caller ∈ c.callers, caller.code ≠ .done) ∧
    ∀ i caller, c.callers[i]? = some caller → caller.code ≠ .done → c.Waits i caller.code

instance decidableDone : (code : Code Λ S Q A) → Decidable (code = .done)
  | .done => .isTrue rfl
  | .panic | .rlock .. | .runlock .. | .lock .. | .unlock .. | .tryLock .. | .access .. | .ask .. | .enter ..
  | .leave .. => .isFalse (by simp)

instance decidableDeadlock (c : Config Λ S Q A) : Decidable c.Deadlock :=
  decidable_of_iff ((∃ caller ∈ c.callers, caller.code ≠ .done) ∧
    ∀ p ∈ c.callers.zipIdx, p.1.code ≠ .done → c.Waits p.2 p.1.code) <| by
      simp only [Deadlock, Prod.forall, mem_zipIdx_iff_getElem?]
      exact and_congr_right fun _ => forall_comm

/-- The locks are as the callers' holdings say, and a writer that has asked waits where it asked. -/
structure Tracked (c : Config Λ S Q A) (held : ℕ → Held Λ) : Prop where
  tracks : Tracks held c.locks
  outside : ∀ i, c.callers[i]? = none → held i = .nothing
  asking : ∀ l i, (c.locks l).asking = some i → ∃ k inside, c.callers[i]? = some ⟨.lock l k, inside⟩

end Config

/-- What a step does to its caller and to the shared state, given what the caller holds. -/
inductive After (s : S) (a : A) (h : Held Λ) : Caller Λ S Q A → S → Held Λ → Caller Λ S Q A → Prop
  | rlock {l k u} : After s a h ⟨.rlock l k, u⟩ s (h.read l) ⟨k, u⟩
  | runlock {l k u} : After s a h ⟨.runlock l k, u⟩ s (h.unread l) ⟨k, u⟩
  | asked {l k u} : After s a h ⟨.lock l k, u⟩ s h ⟨.lock l k, u⟩
  | lock {l k u} : After s a h ⟨.lock l k, u⟩ s (h.write l) ⟨k, u⟩
  | unlock {l k u} : After s a h ⟨.unlock l k, u⟩ s (h.unwrite l) ⟨k, u⟩
  | locked {l yes no u} : After s a h ⟨.tryLock l yes no, u⟩ s (h.write l) ⟨yes, u⟩
  | notLocked {l yes no u} : After s a h ⟨.tryLock l yes no, u⟩ s h ⟨no, u⟩
  | access {f k u} : After s a h ⟨.access f k, u⟩ (f s) h ⟨k s, u⟩
  | ask {q k u} : After s a h ⟨.ask q k, u⟩ s h ⟨k a, u⟩
  | enter {l k u} : After s a h ⟨.enter l k, u⟩ s h ⟨k, l :: u⟩
  | leave {l k u} : After s a h ⟨.leave l k, u⟩ s (h.unread l) ⟨k, u.erase l⟩

namespace Config.Tracked

variable {c c' : Config Λ S Q A} {held : ℕ → Held Λ} {i : ℕ} {a : A} {caller : Caller Λ S Q A}
variable {caller' : Caller Λ S Q A}

theorem goto (h : c.Tracked held) (hi : c.callers[i]? = some caller) {locks : Λ → RW} {s : S}
    {h' : Held Λ} (htracks : Tracks (update held i h') locks)
    (hask : ∀ m j, (locks m).asking = some j →
      j = i ∧ (∃ k u, caller' = ⟨.lock m k, u⟩) ∨ j ≠ i ∧ (c.locks m).asking = some j) :
    (Config.mk locks s (c.callers.set i caller')).Tracked (update held i h') := by
  have hlt := (List.getElem?_eq_some_iff.mp hi).1
  refine ⟨htracks, fun j hj => ?_, fun m j hj => ?_⟩
  · by_cases hji : j = i
    · subst hji
      rw [List.getElem?_set_self hlt] at hj
      cases hj
    · rw [update_of_ne hji]
      rw [getElem?_set_ne (Ne.symm hji)] at hj
      exact h.outside j hj
  · rcases hask m j hj with ⟨rfl, k, u, hcaller⟩ | ⟨hji, hold⟩
    · exact ⟨k, u, hcaller ▸ List.getElem?_set_self hlt⟩
    · obtain ⟨k, u, hold⟩ := h.asking m j hold
      refine ⟨k, u, ?_⟩
      dsimp only
      rw [getElem?_set_ne (Ne.symm hji), hold]

theorem goto_unasked (h : c.Tracked held) (hi : c.callers[i]? = some caller)
    (hcode : ∀ l k, caller.code ≠ .lock l k) {locks : Λ → RW} {s : S} {h' : Held Λ}
    (htracks : Tracks (update held i h') locks)
    (hask : ∀ m, (locks m).asking = (c.locks m).asking) :
    (Config.mk locks s (c.callers.set i caller')).Tracked (update held i h') := by
  refine h.goto hi htracks fun m j hj => Or.inr ⟨?_, hask m ▸ hj⟩
  rintro rfl
  rw [hask] at hj
  obtain ⟨k, u, hat⟩ := h.asking m j hj
  rw [hi, some.injEq] at hat
  exact hcode m k (by rw [hat])

theorem asking_update {l : Λ} {w : RW} (hw : w.asking = (c.locks l).asking) (m : Λ) :
    (update c.locks l w m).asking = (c.locks m).asking := by
  by_cases hm : m = l
  · subst hm
    rw [update_self, hw]
  · rw [update_of_ne hm]

theorem goto_lock (h : c.Tracked held) {l : Λ} {k : Code Λ S Q A} {u : List Λ}
    (hi : c.callers[i]? = some ⟨.lock l k, u⟩) {w : RW} {s : S} {h' : Held Λ}
    (htracks : Tracks (update held i h') (update c.locks l w))
    (hask : w.asking = none ∨ w.asking = some i ∧ caller' = ⟨.lock l k, u⟩) :
    (Config.mk (update c.locks l w) s (c.callers.set i caller')).Tracked
      (update held i h') := by
  refine h.goto hi htracks fun m j hj => ?_
  by_cases hm : m = l
  · subst hm
    rw [update_self] at hj
    rcases hask with hnone | ⟨hself, hcaller⟩
    · rw [hnone] at hj
      cases hj
    · exact .inl ⟨(some.inj (hself.symm.trans hj)).symm, k, u, hcaller⟩
  · rw [update_of_ne hm] at hj
    refine .inr ⟨?_, hj⟩
    rintro rfl
    obtain ⟨k', u', hat⟩ := h.asking m j hj
    rw [hi, some.injEq, Caller.mk.injEq, Code.lock.injEq] at hat
    exact hm hat.1.1.symm

theorem next (h : c.Tracked held) (hi : c.callers[i]? = some caller)
    (hunlock : ∀ l k, caller.code = .unlock l k → l ∈ (held i).writes)
    (hstep : c.next i a caller = some c') :
    ∃ h' caller', After c.shared a (held i) caller c'.shared h' caller' ∧
      c'.callers = c.callers.set i caller' ∧ c'.Tracked (update held i h') := by
  have hsame : Tracks (update held i (held i)) c.locks := by
    rw [update_eq_self]
    exact h.tracks
  obtain ⟨code, u⟩ := caller
  cases code with
  | done => cases hstep
  | panic => cases hstep
  | rlock l k =>
    obtain ⟨w, hw, rfl⟩ := map_eq_some_iff.mp hstep
    have hask : w.asking = (c.locks l).asking := by rw [(RW.rlock_eq_some.mp hw).2]
    exact ⟨_, _, .rlock, rfl, h.goto_unasked hi (by simp) (h.tracks.rlock hw) (asking_update hask)⟩
  | runlock l k =>
    obtain rfl := some.inj hstep
    exact ⟨_, _, .runlock, rfl, h.goto_unasked hi (by simp) h.tracks.runlock (asking_update rfl)⟩
  | lock l k =>
    simp only [Config.next] at hstep
    split at hstep
    · next hasking =>
      obtain ⟨w, hw, rfl⟩ := map_eq_some_iff.mp hstep
      obtain ⟨hreaders, rfl⟩ := RW.take_eq_some.mp hw
      have hwriter : (c.locks l).writer = none := by
        by_contra hwriter
        rw [(h.tracks.alone l hwriter).2] at hasking
        cases hasking
      exact ⟨_, _, .lock, rfl, h.goto_lock hi (h.tracks.taken hwriter hreaders) (.inl rfl)⟩
    · obtain ⟨w, hw, rfl⟩ := map_eq_some_iff.mp hstep
      have hself : w.asking = some i := by rw [(RW.ask_eq_some.mp hw).2]
      have htracks : Tracks (update held i (held i)) (update c.locks l w) := by
        rw [update_eq_self]
        exact h.tracks.ask hw
      exact ⟨_, _, .asked, rfl, h.goto_lock hi htracks (.inr ⟨hself, rfl⟩)⟩
  | unlock l k =>
    obtain rfl := some.inj hstep
    exact ⟨_, _, .unlock, rfl,
      h.goto_unasked hi (by simp) (h.tracks.unlock (hunlock l k rfl)) (asking_update rfl)⟩
  | tryLock l yes no =>
    simp only [Config.next] at hstep
    split at hstep
    · next w hw =>
      obtain rfl := some.inj hstep
      obtain ⟨hfree, hreaders, rfl⟩ := RW.tryLock_eq_some.mp hw
      rw [RW.noWriter_iff] at hfree
      exact ⟨_, _, .locked, rfl, h.goto_unasked hi (by simp) (h.tracks.taken hfree.1 hreaders)
        (asking_update hfree.2.symm)⟩
    · obtain rfl := some.inj hstep
      exact ⟨_, _, .notLocked, rfl, h.goto_unasked hi (by simp) hsame fun _ => rfl⟩
  | access f k =>
    obtain rfl := some.inj hstep
    exact ⟨_, _, .access, rfl, h.goto_unasked hi (by simp) hsame fun _ => rfl⟩
  | ask q k =>
    obtain rfl := some.inj hstep
    exact ⟨_, _, .ask, rfl, h.goto_unasked hi (by simp) hsame fun _ => rfl⟩
  | enter l k =>
    obtain rfl := some.inj hstep
    exact ⟨_, _, .enter, rfl, h.goto_unasked hi (by simp) hsame fun _ => rfl⟩
  | leave l k =>
    obtain rfl := some.inj hstep
    exact ⟨_, _, .leave, rfl, h.goto_unasked hi (by simp) h.tracks.runlock (asking_update rfl)⟩

end Config.Tracked

end Run

end NuclaDB.RwLock
