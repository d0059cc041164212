import Mathlib.Algebra.Order.BigOperators.Group.List
import Mathlib.Algebra.Order.Group.Nat
import NuclaDB.EventRun
import NuclaDB.HnswContents
import NuclaDB.HnswExact

/-!
# The vector quota

An insert counts its new ids, reads `Len`, adds to `reserved` and compares, and later releases
what it added. Between these steps other calls run.
-/

namespace NuclaDB.StoreQuota

open Hnsw EventRun List Function

variable {τ D : Type}

structure Tenant (D : Type) where
  maxVectors : ℤ
  graph : Graph D
  reserved : ℤ

structure TenantBatch (τ : Type) where
  tenant : τ
  items : List (UInt64 × Vec)

def TenantBatch.ids (b : TenantBatch τ) : List UInt64 := b.items.map (·.1)

structure Reservation (τ : Type) where
  batch : TenantBatch τ
  n : ℕ

/-- Where a call is. Its reservations are kept last first, the order of the deferred releases. -/
inductive Pc (τ : Type)
  | reserving (held : List (Reservation τ)) (rest : List (TenantBatch τ))
  | counted (held : List (Reservation τ)) (b : TenantBatch τ) (n : ℕ) (rest : List (TenantBatch τ))
  | lenRead (held : List (Reservation τ)) (b : TenantBatch τ) (n len : ℕ) (rest : List (TenantBatch τ))
  | added (held : List (Reservation τ)) (b : TenantBatch τ) (n : ℕ) (sum : ℤ)
      (rest : List (TenantBatch τ))
  | refused (held : List (Reservation τ)) (b : TenantBatch τ) (n : ℕ)
  | inserting (done todo : List (Reservation τ))
  | releasing (held : List (Reservation τ))
  | deleting (tenant : τ) (id : UInt64)
  | committingDelete (tenant : τ) (id : UInt64)
  | returned

def insertBatches (batches : List (TenantBatch τ)) : Pc τ := .reserving [] batches

def delete (tenant : τ) (id : UInt64) : Pc τ := .deleting tenant id

structure State (τ D : Type) where
  tenants : τ → Tenant D
  calls : List (Pc τ)

inductive Action
  | next (i : ℕ) (workers : Workers)
  | fail (i : ℕ)

section Step
variable [DecidableEq τ] [Hnsw.Dist D]

namespace State

variable (s : State τ D)

def goto (i : ℕ) (p : Pc τ) : State τ D := { s with calls := s.calls.set i p }

def setGraph (t : τ) (g : Graph D) : State τ D :=
  { s with tenants := update s.tenants t { s.tenants t with graph := g } }

def reserve (t : τ) (n : ℤ) : State τ D :=
  { s with tenants := update s.tenants t { s.tenants t with reserved := (s.tenants t).reserved + n } }

def len (t : τ) : ℕ := (s.tenants t).graph.live

def next (i : ℕ) (workers : Workers) : Pc τ → Option (State τ D)
  | .reserving held [] => some (s.goto i (.inserting [] held.reverse))
  | .reserving held (b :: rest) =>
    if (s.tenants b.tenant).maxVectors ≤ 0 then some (s.goto i (.reserving (⟨b, 0⟩ :: held) rest))
    else some (s.goto i (.counted held b ((s.tenants b.tenant).graph.countNew b.ids) rest))
  | .counted held b n rest => some (s.goto i (.lenRead held b n (s.len b.tenant) rest))
  | .lenRead held b n len rest =>
    some ((s.reserve b.tenant n).goto i (.added held b n (len + ((s.tenants b.tenant).reserved + n)) rest))
  | .added held b n sum rest =>
    if (s.tenants b.tenant).maxVectors < sum then some (s.goto i (.refused held b n))
    else some (s.goto i (.reserving (⟨b, n⟩ :: held) rest))
  | .refused held b n => some ((s.reserve b.tenant (-n)).goto i (.releasing held))
  | .inserting done [] => some (s.goto i (.releasing done))
  | .inserting done (r :: todo) =>
    match (s.tenants r.batch.tenant).graph.insertBatch workers r.batch.ids (r.batch.items.map (·.2)) with
    | .ok g => some ((s.setGraph r.batch.tenant g).goto i (.inserting (r :: done) todo))
    | .error _ => some (s.goto i (.releasing (todo.reverse ++ r :: done)))
  | .releasing [] => some (s.goto i .returned)
  | .releasing (r :: held) => some ((s.reserve r.batch.tenant (-r.n)).goto i (.releasing held))
  | .deleting t id =>
    if (s.tenants t).graph.countNew [id] = 1 then some (s.goto i .returned)
    else some (s.goto i (.committingDelete t id))
  | .committingDelete t id =>
    some ((s.setGraph t (((s.tenants t).graph.delete id).toOption.getD (s.tenants t).graph)).goto i
      .returned)
  | .returned => none

def step : Action → Except Unit (State τ D)
  | .next i workers =>
    match s.calls[i]?.bind (s.next i workers) with
    | some s' => .ok s'
    | none => .error ()
  | .fail i =>
    match s.calls[i]? with
    | some (.inserting done todo) => .ok (s.goto i (.releasing (todo.reverse ++ done)))
    | some (.committingDelete _ _) => .ok (s.goto i .returned)
    | _ => .error ()

/-- What a call has read still bounds the engine: `Len` when it adds to `reserved`, the number of its new
ids when it inserts them. -/
def timely : Action → Bool
  | .next i _ =>
    match s.calls[i]? with
    | some (.lenRead _ b _ len _) => s.len b.tenant ≤ len
    | some (.inserting _ (r :: _)) =>
      (s.tenants r.batch.tenant).maxVectors ≤ 0 ||
        (s.tenants r.batch.tenant).graph.countNew r.batch.ids ≤ r.n
    | _ => true
  | .fail _ => true

structure Starts (s : State τ D) : Prop where
  wf (t : τ) : (s.tenants t).graph.WF
  reserved (t : τ) : (s.tenants t).reserved = 0
  calls : ∀ p ∈ s.calls, (∃ batches, p = insertBatches batches) ∨ ∃ t id, p = delete t id

end State

end Step

section Room
variable [DecidableEq τ] (t : τ)

def room (held : List (Reservation τ)) : ℕ :=
  (held.map fun r => if r.batch.tenant = t then r.n else 0).sum

@[simp] theorem room_nil : room t [] = 0 := rfl

@[simp] theorem room_cons (r : Reservation τ) (held : List (Reservation τ)) :
    room t (r :: held) = (if r.batch.tenant = t then r.n else 0) + room t held := by
  simp [room]

@[simp] theorem room_append (held more : List (Reservation τ)) :
    room t (held ++ more) = room t held + room t more := by
  simp [room]

@[simp] theorem room_reverse (held : List (Reservation τ)) :
    room t held.reverse = room t held := by
  simp [room]

def Pc.reserved : Pc τ → ℕ
  | .reserving held _ => room t held
  | .counted held _ _ _ => room t held
  | .lenRead held _ _ _ _ => room t held
  | .added held b n _ _ => room t (⟨b, n⟩ :: held)
  | .refused held b n => room t (⟨b, n⟩ :: held)
  | .inserting done todo => room t done + room t todo
  | .releasing held => room t held
  | _ => 0

/-- The vectors that a call is still going to add, at most, under the quota `max`. -/
def Pc.pending (max : ℤ) (t : τ) : Pc τ → ℕ
  | .reserving held _ => room t held
  | .counted held _ _ _ => room t held
  | .lenRead held _ _ _ _ => room t held
  | .added held b n sum _ => room t held + if sum ≤ max then room t [⟨b, n⟩] else 0
  | .refused held _ _ => room t held
  | .inserting _ todo => room t todo
  | _ => 0

theorem Pc.pending_le_reserved (max : ℤ) (t : τ) (p : Pc τ) : p.pending max t ≤ p.reserved t := by
  cases p with
  | added held b n sum rest =>
    simp only [pending, reserved, room_cons, room_nil]
    split <;> omega
  | _ => simp [pending, reserved]

theorem sum_pending_le (max : ℤ) (t : τ) (calls : List (Pc τ)) :
    (calls.map (Pc.pending max t)).sum ≤ (calls.map (Pc.reserved t)).sum :=
  sum_le_sum fun p _ => p.pending_le_reserved max t

theorem sum_map_set {α : Type*} (f : α → ℕ) {l : List α} {i : ℕ} {a : α} (h : l[i]? = some a) (b : α) :
    ((l.set i b).map f).sum + f a = (l.map f).sum + f b := by
  induction l generalizing i with
  | nil => simp at h
  | cons x l ih =>
    cases i with
    | zero =>
      simp only [getElem?_cons_zero, Option.some.injEq] at h
      simp only [set_cons_zero, map_cons, sum_cons, h]
      omega
    | succ i =>
      have hrest := ih h
      simp only [set_cons_succ, map_cons, sum_cons]
      omega

end Room

section Quota
variable [DecidableEq τ] [Hnsw.Dist D] {max : ℤ} {t : τ} {s s' : State τ D} {i : ℕ} {p p' : Pc τ}

structure Inv (max : ℤ) (t : τ) (s : State τ D) : Prop where
  wf (t : τ) : (s.tenants t).graph.WF
  max_eq : (s.tenants t).maxVectors = max
  reserved : (s.tenants t).reserved = (s.calls.map (Pc.reserved t)).sum
  bound : s.len t + (s.calls.map (Pc.pending max t)).sum ≤ max

namespace Inv
variable {held : List (Reservation τ)}

section
variable (h : Inv max t s)
include h

section
variable (hi : s.calls[i]? = some p)
include hi

section
omit [Hnsw.Dist D]

theorem move {tenants : τ → Tenant D}
    (hwf : ∀ t, (tenants t).graph.WF) (hmax : (tenants t).maxVectors = max)
    (hreserved : (tenants t).reserved + p.reserved t = (s.tenants t).reserved + p'.reserved t)
    (hbound : (tenants t).graph.live + (s.calls.map (Pc.pending max t)).sum + p'.pending max t ≤
      max + p.pending max t) :
    Inv max t ⟨tenants, s.calls.set i p'⟩ := by
  have hsum := sum_map_set (Pc.reserved t) hi p'
  have hsum' := sum_map_set (Pc.pending max t) hi p'
  have hres := h.reserved
  refine ⟨hwf, hmax, ?_, ?_⟩
  · dsimp only
    omega
  · simp only [State.len]
    omega

theorem goto (hreserved : p'.reserved t = p.reserved t)
    (hbound : p'.pending max t ≤ p.pending max t) : Inv max t (s.goto i p') := by
  have hle := h.bound
  refine h.move hi h.wf h.max_eq (by rw [hreserved]) ?_
  simp only [State.len] at hle
  omega

theorem reserve {u : τ} {n : ℤ}
    (hreserved : (p'.reserved t : ℤ) = p.reserved t + if u = t then n else 0)
    (hbound : s.len t + (s.calls.map (Pc.pending max t)).sum + p'.pending max t ≤
      max + p.pending max t) :
    Inv max t ((s.reserve u n).goto i p') := by
  have hother : ∀ v, ((s.reserve u n).tenants v).graph = (s.tenants v).graph ∧
      ((s.reserve u n).tenants v).maxVectors = (s.tenants v).maxVectors ∧
      ((s.reserve u n).tenants v).reserved = (s.tenants v).reserved + if u = v then n else 0 := by
    intro v
    by_cases huv : u = v
    · subst huv
      simp [State.reserve]
    · simp [State.reserve, huv, Ne.symm huv]
  refine h.move hi (fun v => (hother v).1 ▸ h.wf v) ((hother t).2.1.trans h.max_eq) ?_ ?_
  · rw [(hother t).2.2, hreserved]
    omega
  · rw [(hother t).1]
    exact hbound

theorem setGraph {u : τ} {g : Graph D} (hg : g.WF) (hreserved : p'.reserved t = p.reserved t)
    (hother : u ≠ t → p'.pending max t ≤ p.pending max t)
    (hbound : u = t → g.live + p'.pending max t ≤ s.len t + p.pending max t) :
    Inv max t ((s.setGraph u g).goto i p') := by
  have hle := h.bound
  have hwf : ∀ v, ((s.setGraph u g).tenants v).graph.WF :=
    (forall_update_iff s.tenants fun _ x => x.graph.WF).mpr ⟨hg, fun v _ => h.wf v⟩
  by_cases hut : u = t
  · subst hut
    have hgrow := hbound rfl
    refine h.move hi hwf ?_ ?_ ?_
    · simpa [State.setGraph] using h.max_eq
    · simp [State.setGraph, hreserved]
    · simp only [State.setGraph, update_self]
      omega
  · have hgrow := hother hut
    refine h.move hi hwf ?_ ?_ ?_
    · simpa [State.setGraph, Ne.symm hut] using h.max_eq
    · simp [State.setGraph, Ne.symm hut, hreserved]
    · simp only [State.setGraph, update_of_ne (Ne.symm hut)]
      simp only [State.len] at hle
      omega

theorem release {r : Reservation τ} (hheld : p.reserved t = room t (r :: held)) :
    Inv max t ((s.reserve r.batch.tenant (-r.n)).goto i (.releasing held)) := by
  have hbound := h.bound
  refine h.reserve hi ?_ ?_
  · rw [hheld]
    simp only [Pc.reserved, room_cons]
    split <;> push_cast <;> omega
  · simp only [Pc.pending]
    omega

end

end

omit [Hnsw.Dist D] in
theorem addReserved {b : TenantBatch τ} {n len : ℕ}
    {rest : List (TenantBatch τ)} (hi : s.calls[i]? = some (.lenRead held b n len rest))
    (hlen : s.len b.tenant ≤ len) :
    Inv max t ((s.reserve b.tenant n).goto i
      (.added held b n (len + ((s.tenants b.tenant).reserved + n)) rest)) := by
  have hbound := h.bound
  have hsum := sum_pending_le max t s.calls
  have hreserved := h.reserved
  refine h.reserve hi ?_ ?_
  · simp only [Pc.reserved, room_cons]
    split <;> push_cast <;> omega
  · by_cases hb : b.tenant = t
    · subst hb
      simp only [Pc.pending, room_cons, room_nil, if_true]
      split <;> omega
    · simp only [Pc.pending, room_cons, room_nil, hb, if_false, add_zero, ite_self]
      omega

omit [Hnsw.Dist D] in
theorem accept {b : TenantBatch τ} {n : ℕ} {sum : ℤ}
    {rest : List (TenantBatch τ)} (hi : s.calls[i]? = some (.added held b n sum rest))
    (hle : ¬ (s.tenants b.tenant).maxVectors < sum) :
    Inv max t (s.goto i (.reserving (⟨b, n⟩ :: held) rest)) := by
  refine h.goto hi rfl ?_
  simp only [Pc.pending, room_cons, room_nil]
  by_cases hb : b.tenant = t
  · subst hb
    rw [h.max_eq] at hle
    rw [if_pos (not_lt.mp hle)]
    omega
  · simp [hb]

theorem insert {done todo : List (Reservation τ)} {r : Reservation τ}
    (hi : s.calls[i]? = some (.inserting done (r :: todo))) {workers : Workers} {g : Graph D}
    (hg : (s.tenants r.batch.tenant).graph.insertBatch workers r.batch.ids (r.batch.items.map (·.2)) =
      .ok g)
    (hcounted : r.batch.tenant = t → (s.tenants t).graph.countNew r.batch.ids ≤ r.n) :
    Inv max t ((s.setGraph r.batch.tenant g).goto i (.inserting (r :: done) todo)) := by
  have hwf := h.wf r.batch.tenant
  refine h.setGraph hi (hwf.insertBatch hg).1 ?_ ?_ ?_
  · simp only [Pc.reserved, room_cons]
    omega
  · intro hr
    simp [Pc.pending, hr]
  · intro hr
    have hgrow := hwf.live_insertBatch hg
    have hnew := hcounted hr
    subst hr
    simp only [TenantBatch.ids] at hnew
    simp only [Pc.pending, room_cons, if_true, State.len]
    omega

omit [Hnsw.Dist D] in
theorem commitDelete {u : τ} {id : UInt64} (hi : s.calls[i]? = some (.committingDelete u id)) :
    Inv max t ((s.setGraph u (((s.tenants u).graph.delete id).toOption.getD (s.tenants u).graph)).goto i
      .returned) := by
  have hwf := h.wf u
  cases hd : (s.tenants u).graph.delete id with
  | error e =>
    refine h.setGraph hi hwf rfl (fun _ => le_rfl) ?_
    rintro rfl
    simp [Except.toOption, State.len, Pc.pending]
  | ok g =>
    refine h.setGraph hi (hwf.delete hd) rfl (fun _ => le_rfl) ?_
    rintro rfl
    obtain ⟨slot, -, -, rfl⟩ := Graph.delete_eq_ok.mp hd
    simp [Except.toOption, State.len, Pc.pending]

theorem next (hmax : 0 < max) {workers : Workers}
    (hi : s.calls[i]? = some p) (htimely : s.timely (.next i workers))
    (hstep : s.next i workers p = some s') : Inv max t s' := by
  simp only [State.timely, hi] at htimely
  have hto : ∀ {s₁}, some s₁ = some s' → Inv max t s₁ → Inv max t s' := by
    rintro _ ⟨⟩ hinv
    exact hinv
  cases p with
  | reserving held rest =>
    cases rest with
    | nil => exact hto hstep (h.goto hi (by simp [Pc.reserved]) (by simp [Pc.pending]))
    | cons b rest =>
      simp only [State.next] at hstep
      split at hstep
      · exact hto hstep (h.goto hi (by simp [Pc.reserved]) (by simp [Pc.pending]))
      · exact hto hstep (h.goto hi rfl le_rfl)
  | counted held b n rest => exact hto hstep (h.goto hi rfl le_rfl)
  | lenRead held b n len rest => exact hto hstep (h.addReserved hi (of_decide_eq_true htimely))
  | added held b n sum rest =>
    simp only [State.next] at hstep
    split at hstep
    · exact hto hstep (h.goto hi rfl (by simp [Pc.pending]))
    · next hle => exact hto hstep (h.accept hi hle)
  | refused held b n => exact hto hstep (h.release (r := ⟨b, n⟩) hi rfl)
  | inserting done todo =>
    cases todo with
    | nil => exact hto hstep (h.goto hi (by simp [Pc.reserved]) (by simp [Pc.pending]))
    | cons r todo =>
      simp only [State.next] at hstep
      split at hstep
      · next g hg =>
        refine hto hstep (h.insert hi hg ?_)
        rintro rfl
        simpa only [h.max_eq, not_le.mpr hmax, decide_false, Bool.false_or, decide_eq_true_eq] using htimely
      · refine hto hstep (h.goto hi ?_ (by simp [Pc.pending]))
        simp only [Pc.reserved, room_append, room_reverse, room_cons]
        omega
  | releasing held =>
    cases held with
    | nil => exact hto hstep (h.goto hi rfl le_rfl)
    | cons r held => exact hto hstep (h.release hi rfl)
  | deleting u id =>
    simp only [State.next] at hstep
    split at hstep
    · exact hto hstep (h.goto hi rfl le_rfl)
    · exact hto hstep (h.goto hi rfl le_rfl)
  | committingDelete u id => exact hto hstep (h.commitDelete hi)
  | returned => cases hstep

theorem step (hmax : 0 < max) {a : Action} (htimely : s.timely a)
    (hstep : s.step a = .ok s') : Inv max t s' := by
  cases a with
  | next i workers =>
    simp only [State.step] at hstep
    split at hstep
    · next s₁ hs =>
      obtain rfl := Except.ok.inj hstep
      obtain ⟨p, hi, hp⟩ := Option.bind_eq_some_iff.mp hs
      exact h.next hmax hi htimely hp
    · cases hstep
  | fail i =>
    simp only [State.step] at hstep
    split at hstep
    · next hi =>
      obtain rfl := Except.ok.inj hstep
      refine h.goto hi ?_ (by simp [Pc.pending])
      simp only [Pc.reserved, room_append, room_reverse]
      omega
    · next hi =>
      obtain rfl := Except.ok.inj hstep
      exact h.goto hi rfl le_rfl
    · cases hstep

end

omit [Hnsw.Dist D] in
theorem of_starts (h : s.Starts) (hlen : s.len t ≤ (s.tenants t).maxVectors) :
    Inv (s.tenants t).maxVectors t s := by
  have hnone : ∀ p ∈ s.calls, p.reserved t = 0 := by
    intro p hp
    rcases h.calls p hp with ⟨batches, rfl⟩ | ⟨u, id, rfl⟩
    · rfl
    · rfl
  have hsum : (s.calls.map (Pc.reserved t)).sum = 0 := by
    apply sum_eq_zero
    simpa using hnone
  refine ⟨h.wf, rfl, ?_, ?_⟩
  · rw [h.reserved, hsum]
    rfl
  · have hle := sum_pending_le (s.tenants t).maxVectors t s.calls
    omega

end Inv

/-- From a tenant within its quota, the quota is kept as long as every call is timely. -/
theorem quota_kept (s s' : State τ D) (t : τ) (as : List Action) (hstart : s.Starts)
    (hquota : 0 < (s.tenants t).maxVectors) (hlen : s.len t ≤ (s.tenants t).maxVectors)
    (htimely : Along State.step (fun s a => s.timely a) s as)
    (hrun : run State.step s as = .ok s') : s'.len t ≤ (s.tenants t).maxVectors := by
  have hinv := run_keeps (I := Inv (s.tenants t).maxVectors t) (fun h ha hs => h.step hquota ha hs)
    (Inv.of_starts hstart hlen) htimely hrun
  have hbound := hinv.bound
  omega

end Quota

section Example

def oneWorker : Workers := ⟨1, Nat.one_pos⟩

def twoInserts : State Unit Exact :=
  ⟨fun _ => ⟨1, new line fun _ => 0, 0⟩,
    [insertBatches [⟨(), [(1, [0])]⟩], insertBatches [⟨(), [(2, [0])]⟩]]⟩

theorem twoInserts_starts : twoInserts.Starts := by
  refine ⟨fun _ => Graph.new_wf line _, fun _ => rfl, ?_⟩
  simp [twoInserts, insertBatches]

def overlapping : List Action :=
  replicate 2 (.next 0 oneWorker) ++ replicate 9 (.next 1 oneWorker) ++
    replicate 4 (.next 0 oneWorker)

def inTurn : List Action :=
  replicate 9 (.next 0 oneWorker) ++ replicate 6 (.next 1 oneWorker)

def lenAfter (as : List Action) : Option ℕ :=
  (run State.step twoInserts as).toOption.map fun s => s.len ()

theorem run_of_lenAfter {as : List Action} {n : ℕ} (h : lenAfter as = some n) :
    ∃ s, run State.step twoInserts as = .ok s ∧ s.len () = n := by
  obtain ⟨s, hs, hlen⟩ := Option.map_eq_some_iff.mp h
  cases hrun : run State.step twoInserts as with
  | error u => simp [hrun, Except.toOption] at hs
  | ok s' =>
    rw [hrun, Except.toOption, Option.some.injEq] at hs
    exact ⟨s', rfl, hs ▸ hlen⟩

theorem overlapping_inserts_exceed_quota :
    twoInserts.Starts ∧ (twoInserts.tenants ()).maxVectors = 1 ∧ twoInserts.len () = 0 ∧
      ∃ s, run State.step twoInserts overlapping = .ok s ∧ s.len () = 2 :=
  ⟨twoInserts_starts, rfl, rfl, run_of_lenAfter (by decide +kernel)⟩

theorem inserts_in_turn_keep_quota :
    ∃ s, run State.step twoInserts inTurn = .ok s ∧ s.len () = 1 ∧ (s.len () : ℤ) ≤ 1 := by
  have hafter : lenAfter inTurn = some 1 := by decide +kernel
  obtain ⟨s, hrun, hlen⟩ := run_of_lenAfter hafter
  have htimely : Along State.step (fun s a => s.timely a) twoInserts inTurn := by decide +kernel
  exact ⟨s, hrun, hlen,
    quota_kept twoInserts s () inTurn twoInserts_starts Int.one_pos (Int.zero_le_ofNat 1) htimely hrun⟩

end Example

end NuclaDB.StoreQuota
