import NuclaDB.Topology

/-!
# The health checker

A node that misses enough probes in a row loses the lead of its shards, and one that misses
more is made to leave. What a tick meets is arbitrary.
-/

namespace NuclaDB.Health
open NuclaDB.Topology Std List

inductive Act
  | probe (id : String) (ok : Bool)
  | leave (id : String) (ok : Bool)
  | failoverNode (id : String) (ok : Bool)
deriving DecidableEq

def Act.id : Act → String
  | probe id _ => id
  | leave id _ => id
  | failoverNode id _ => id

structure Tick where
  isLeader : Bool
  nodes : ExtTreeMap String String compare
  arrival : MapOrder String
  probe : String → Bool
  leave : String → Bool
  failoverNode : String → Bool

structure Settings where
  selfID : String
  failureThreshold : Int64
  evictThreshold : Int64

structure Checker extends Settings where
  failures : ExtTreeMap String Int64 compare
  failedOver : ExtTreeMap String Bool compare
  done : List Act

namespace Checker

def new (settings : Settings) : Checker := ⟨settings, ∅, ∅, []⟩

variable (c : Checker) (id : String)

def failuresOf : Int64 := c.failures[id]?.getD 0

def hasFailedOver : Bool := c.failedOver[id]?.getD false

def note (a : Act) : Checker := { c with done := c.done ++ [a] }

def forget : Checker :=
  { c with failures := c.failures.erase id, failedOver := c.failedOver.erase id }

def count : Checker :=
  { c with failures := c.failures.insert id (c.failuresOf id + 1) }

def mark : Checker :=
  { c with failedOver := c.failedOver.insert id true }

def evict (w : Tick) (c : Checker) (id : String) : Checker :=
  let c := c.note (.leave id (w.leave id))
  if w.leave id then c.forget id else c

def failover (w : Tick) (c : Checker) (id : String) : Checker :=
  let c := c.note (.failoverNode id (w.failoverNode id))
  if w.failoverNode id then c.mark id else c

def result (w : Tick) (c : Checker) (id : String) : Checker :=
  let c := c.note (.probe id (w.probe id))
  if w.probe id then c.forget id
  else
    let c := c.count id
    if c.evictThreshold ≤ c.failuresOf id then c.evict w id
    else if c.failureThreshold ≤ c.failuresOf id ∧ c.hasFailedOver id = false then c.failover w id
    else c

def tick (w : Tick) : Checker :=
  if w.isLeader then
    (w.arrival.list (w.nodes.keys.filter (· ≠ c.selfID))).foldl (result w) c
  else c

def run (ticks : List Tick) : Checker := ticks.foldl tick c

end Checker

section History

def about (id : String) (done : List Act) : List Act := done.filter (·.id = id)

def Act.outcome : Act → Option Bool
  | .probe _ ok => some ok
  | _ => none

def Act.resets : Act → Bool
  | .probe _ ok => ok
  | .leave _ ok => ok
  | .failoverNode _ _ => false

variable (acts : List Act)

def probes : List Bool := acts.filterMap Act.outcome

def LastFailed (n : ℤ) (acts : List Act) : Prop :=
  ∃ earlier, probes acts = earlier ++ replicate n.toNat false

def sinceReset : List Act := acts.reverse.takeWhile (!·.resets)

def streak : ℕ := ((probes acts).reverse.takeWhile (!·)).length

variable {acts : List Act} {id other : String}

theorem lastFailed_of_le_streak {n : ℤ} (h : n ≤ streak acts) : LastFailed n acts := by
  have hfailed : ((probes acts).reverse.takeWhile (!·)).take n.toNat = replicate n.toNat false := by
    refine eq_replicate_iff.mpr ⟨?_, fun b hb => ?_⟩
    · rw [length_take]
      unfold streak at h
      omega
    · simpa using all_eq_true.mp all_takeWhile b (mem_of_mem_take hb)
  have hlast : (probes acts).reverse =
      replicate n.toNat false ++ (((probes acts).reverse.takeWhile (!·)).drop n.toNat ++
        (probes acts).reverse.dropWhile (!·)) := by
    rw [← hfailed, ← append_assoc, take_append_drop, takeWhile_append_dropWhile]
  refine ⟨(((probes acts).reverse.takeWhile (!·)).drop n.toNat ++
    (probes acts).reverse.dropWhile (!·)).reverse, ?_⟩
  rw [← reverse_inj, hlast]
  simp

theorem streak_append (a : Act) : streak (acts ++ [a]) = match a.outcome with
    | none => streak acts
    | some true => 0
    | some false => streak acts + 1 := by
  cases h : a.outcome with
  | none => simp [streak, probes, h]
  | some ok => cases ok <;> simp [streak, probes, h]

theorem sinceReset_append (a : Act) :
    sinceReset (acts ++ [a]) = if a.resets then [] else a :: sinceReset acts := by
  cases h : a.resets <;> simp [sinceReset, h]

theorem about_append (done : List Act) (a : Act) :
    about id (done ++ [a]) = if a.id = id then about id done ++ [a] else about id done := by
  by_cases h : a.id = id <;> simp [about, h]

end History

def Settings.Allowed (s : Settings) (before : List Act) : Act → Prop
  | .probe id _ => id ≠ s.selfID
  | .leave id _ => id ≠ s.selfID ∧ LastFailed s.evictThreshold.toInt (about id before)
  | .failoverNode id _ =>
    id ≠ s.selfID ∧ LastFailed s.failureThreshold.toInt (about id before) ∧
      .failoverNode id true ∉ sinceReset (about id before)

namespace Checker

structure Follows (c : Checker) (id : String) : Prop where
  counted : (c.failuresOf id).toInt ≤ streak (about id c.done)
  flagged : c.hasFailedOver id = false → .failoverNode id true ∉ sinceReset (about id c.done)

structure Inv (s : Settings) (c : Checker) : Prop where
  settings : c.toSettings = s
  follows : ∀ id, c.Follows id
  allowed : ∀ before a after, c.done = before ++ a :: after → s.Allowed before a

structure Does (a : Act) (c c' : Checker) : Prop where
  settings : c'.toSettings = c.toSettings
  done : c'.done = c.done ++ [a]
  others : ∀ other, a.id ≠ other →
    c'.failuresOf other = c.failuresOf other ∧ c'.hasFailedOver other = c.hasFailedOver other

variable {s : Settings} {c c' : Checker} {a : Act} {id : String} {w : Tick} (other : String)

theorem Does.about (h : Does a c c') : about a.id c'.done = about a.id c.done ++ [a] := by
  rw [h.done, about_append, if_pos rfl]

theorem Inv.does (h : c.Inv s) (hdoes : Does a c c') (hfollows : c'.Follows a.id)
    (hallowed : s.Allowed c.done a) : c'.Inv s := by
  refine ⟨hdoes.settings.trans h.settings, fun other => ?_, fun before b after hsplit => ?_⟩
  · by_cases hid : a.id = other
    · exact hid ▸ hfollows
    · obtain ⟨hcount, hflag⟩ := hdoes.others other hid
      have habout : Health.about other c'.done = Health.about other c.done := by
        rw [hdoes.done, about_append, if_neg hid]
      constructor
      · rw [hcount, habout]
        exact (h.follows other).counted
      · rw [hflag, habout]
        exact (h.follows other).flagged
  · rw [hdoes.done] at hsplit
    -- What was done is either the last thing, or it was done before.
    rcases eq_nil_or_concat after with rfl | ⟨after, last, rfl⟩
    · obtain ⟨rfl, hb⟩ := append_inj' hsplit rfl
      exact (singleton_inj.mp hb) ▸ hallowed
    · refine h.allowed before b after ?_
      rw [concat_eq_append, ← cons_append, ← append_assoc] at hsplit
      exact (append_inj' hsplit rfl).1

theorem failuresOf_count :
    (c.count id).failuresOf other = if id = other then c.failuresOf id + 1 else c.failuresOf other := by
  by_cases h : id = other <;> simp [count, failuresOf, ExtTreeMap.getElem?_insert, h]

theorem failuresOf_forget :
    (c.forget id).failuresOf other = if id = other then 0 else c.failuresOf other := by
  by_cases h : id = other <;> simp [forget, failuresOf, ExtTreeMap.getElem?_erase, h]

theorem hasFailedOver_forget :
    (c.forget id).hasFailedOver other = if id = other then false else c.hasFailedOver other := by
  by_cases h : id = other <;> simp [forget, hasFailedOver, ExtTreeMap.getElem?_erase, h]

theorem hasFailedOver_mark :
    (c.mark id).hasFailedOver other = if id = other then true else c.hasFailedOver other := by
  by_cases h : id = other <;> simp [mark, hasFailedOver, ExtTreeMap.getElem?_insert, h]

theorem does_note : Does a c (c.note a) := ⟨rfl, rfl, fun _ _ => ⟨rfl, rfl⟩⟩

theorem does_forget : Does a c ((c.note a).forget a.id) :=
  ⟨rfl, rfl, fun other h => ⟨by rw [failuresOf_forget, if_neg h]; rfl,
    by rw [hasFailedOver_forget, if_neg h]; rfl⟩⟩

theorem does_count : Does a c ((c.note a).count a.id) :=
  ⟨rfl, rfl, fun other h => ⟨by rw [failuresOf_count, if_neg h]; rfl, rfl⟩⟩

theorem does_mark : Does a c ((c.note a).mark a.id) :=
  ⟨rfl, rfl, fun other h => ⟨rfl, by rw [hasFailedOver_mark, if_neg h]; rfl⟩⟩

theorem follows_forget (hresets : a.resets = true) : ((c.note a).forget a.id).Follows a.id := by
  constructor
  · rw [failuresOf_forget, if_pos rfl]
    exact Int.natCast_nonneg _
  · rw [does_forget.about, sinceReset_append, if_pos hresets]
    simp

theorem toInt_add_one_le (n : Int64) : (n + 1).toInt ≤ n.toInt + 1 := by
  have hlow := n.le_toInt
  have hhigh := n.toInt_lt
  rw [Int64.toInt_add, Int64.toInt_one]
  rcases lt_or_ge (n.toInt + 1) (2 ^ 63) with hlt | hge
  · exact Int.le_of_eq (Int.bmod_eq_of_le (by omega) (by omega))
  · have htop : n.toInt + 1 = 2 ^ 63 := by omega
    rw [htop]
    decide

theorem Follows.count (h : c.Follows a.id) (hfailed : a.outcome = some false) (hresets : a.resets = false)
    (hnot : a ≠ .failoverNode a.id true) : ((c.note a).count a.id).Follows a.id := by
  constructor
  · rw [does_count.about, streak_append, hfailed, failuresOf_count, if_pos rfl]
    have hstep := toInt_add_one_le (c.failuresOf a.id)
    have hcounted := h.counted
    simp only [Nat.cast_add, Nat.cast_one]
    exact hstep.trans (Int.add_le_add_right hcounted 1)
  · intro hflag
    rw [does_count.about, sinceReset_append, hresets]
    simpa [Ne.symm hnot] using h.flagged hflag

theorem Follows.note (h : c.Follows a.id) (houtcome : a.outcome = none) (hresets : a.resets = false)
    (hnot : a ≠ .failoverNode a.id true) : (c.note a).Follows a.id := by
  constructor
  · rw [does_note.about, streak_append, houtcome]
    exact h.counted
  · intro hflag
    rw [does_note.about, sinceReset_append, hresets]
    simpa [Ne.symm hnot] using h.flagged hflag

theorem Follows.mark (h : c.Follows a.id) (houtcome : a.outcome = none) :
    ((c.note a).mark a.id).Follows a.id := by
  constructor
  · rw [does_mark.about, streak_append, houtcome]
    exact h.counted
  · intro hflag
    rw [hasFailedOver_mark, if_pos rfl] at hflag
    cases hflag

section
variable (h : c.Inv s)
include h

section
variable (hself : id ≠ s.selfID)
include hself

theorem Inv.probe :
    ((c.note (.probe id true)).forget id).Inv s ∧ ((c.note (.probe id false)).count id).Inv s :=
  ⟨h.does does_forget (follows_forget rfl) hself,
    h.does does_count ((h.follows id).count rfl rfl nofun) hself⟩

theorem Inv.evict (hcount : c.evictThreshold ≤ c.failuresOf id) : (c.evict w id).Inv s := by
  have hfollows := h.follows id
  have hallowed : ∀ ok, s.Allowed c.done (.leave id ok) := fun ok =>
    ⟨hself, lastFailed_of_le_streak ((Int64.le_iff_toInt_le.mp (h.settings ▸ hcount)).trans hfollows.counted)⟩
  unfold Checker.evict
  cases w.leave id with
  | true => exact h.does does_forget (follows_forget rfl) (hallowed true)
  | false => exact h.does does_note (hfollows.note rfl rfl nofun) (hallowed false)

theorem Inv.failover
    (hcount : c.failureThreshold ≤ c.failuresOf id) (hflag : c.hasFailedOver id = false) :
    (c.failover w id).Inv s := by
  have hfollows := h.follows id
  have hallowed : ∀ ok, s.Allowed c.done (.failoverNode id ok) := fun ok =>
    ⟨hself, lastFailed_of_le_streak ((Int64.le_iff_toInt_le.mp (h.settings ▸ hcount)).trans hfollows.counted),
      hfollows.flagged hflag⟩
  unfold Checker.failover
  cases w.failoverNode id with
  | true => exact h.does does_mark (hfollows.mark rfl) (hallowed true)
  | false => exact h.does does_note (hfollows.note rfl rfl (by simp)) (hallowed false)

theorem Inv.result : (c.result w id).Inv s := by
  unfold Checker.result
  cases w.probe id with
  | true => exact (h.probe hself).1
  | false =>
    have hmissed := (h.probe hself).2
    simp only [Bool.false_eq_true, if_false]
    split
    · next hcount => exact hmissed.evict hself hcount
    · split
      · next hcount => exact hmissed.failover hself hcount.1 hcount.2
      · exact hmissed

end

theorem Inv.results {ids : List String} (hself : ∀ id ∈ ids, id ≠ s.selfID) :
    (ids.foldl (Checker.result w) c).Inv s := by
  induction ids generalizing c with
  | nil => exact h
  | cons id ids ih =>
    obtain ⟨hid, hids⟩ := forall_mem_cons.mp hself
    exact ih (h.result hid) hids

theorem Inv.tick (w : Tick) : (c.tick w).Inv s := by
  unfold Checker.tick
  split
  · refine h.results fun id hid => ?_
    have hprobed := (mem_filter.mp ((w.arrival.perm _).mem_iff.mp hid)).2
    rw [h.settings] at hprobed
    exact of_decide_eq_true hprobed
  · exact h

theorem Inv.run (ticks : List Tick) : (c.run ticks).Inv s := by
  induction ticks generalizing c with
  | nil => exact h
  | cons w ticks ih => exact ih (h.tick w)

end

theorem inv_new (s : Settings) : (new s).Inv s := by
  refine ⟨rfl, fun id => ⟨?_, fun _ => ?_⟩, fun before a after hsplit => ?_⟩
  · simp [new, failuresOf]
  · simp [new, Health.about, sinceReset]
  · simp [new] at hsplit

end Checker

/-- Whatever happens, each thing that the checker does was allowed by what it had done before. -/
theorem acts_only_after_failures (s : Settings) (ticks : List Tick) (before after : List Act) (a : Act)
    (hdone : ((Checker.new s).run ticks).done = before ++ a :: after) : s.Allowed before a :=
  ((Checker.inv_new s).run ticks).allowed before a after hdone

def missing : Tick where
  isLeader := true
  nodes := ExtTreeMap.ofList [("a", "a:1"), ("b", "b:1")]
  arrival := ⟨id, fun _ => .rfl⟩
  probe _ := false
  leave _ := true
  failoverNode _ := true

theorem eviction_after_two_failures :
    Settings.Allowed ⟨"a", 1, 2⟩ [.probe "b" false, .failoverNode "b" true, .probe "b" false]
      (.leave "b" true) :=
  acts_only_after_failures ⟨"a", 1, 2⟩ [missing, missing] _ [] _ (by decide +kernel)

end NuclaDB.Health
