import NuclaDB.EngineOpen
import NuclaDB.FileScript

/-!
# Installing a leader's snapshot

`LoadSnapshot` puts the two files of a snapshot and an empty log in the place of the live
files. As long as its marker file exists, `recoverSnapshotInstall` rolls back.
-/

namespace NuclaDB.Install

open LittleEndian Hnsw FileScript FileScript.Script Function List

inductive Target
  | snapshot
  | metadata
  | wal
deriving DecidableEq

def targets : List Target := [.snapshot, .metadata, .wal]

theorem mem_targets (t : Target) : t ∈ targets := by cases t <;> decide

theorem nodup_targets : targets.Nodup := by decide

inductive Name
  | live (t : Target)
  | backup (t : Target)
  | incoming (t : Target)
  | marker
  | markerTmp
deriving DecidableEq

inductive Phase
  | receive
  | begin
  | publish
  | swap
  | commit
  | restore
  | unmark
  | cleanup
deriving DecidableEq

abbrev Step (α : Type) := Script Phase Name α

def writeFileFrom (p : Phase) (n : Name) (b : Bytes) : Step Bool :=
  Script.all [must p (.create n), must p (.write n b), must p (.sync n), must p (.close n)]

def writeFileAtomic (p : Phase) (tmp n : Name) (b : Bytes) : Step Bool :=
  (writeFileFrom p tmp b).and ((must p (.rename tmp n)).and (must p .syncDir))

section Marker
variable (J : Json (Target → Bool))

def statTargets : List Target → (Target → Bool) → Step (Option (Target → Bool))
  | [], original => .done (some original)
  | t :: ts, original => .op .begin (.stat (.live t)) fun
    | .failed => .done none
    | r => .op .begin (.remove (.backup t)) fun _ =>
        statTargets ts (update original t r.isOk)

def beginSnapshotInstall : Step (Option (Target → Bool)) :=
  (statTargets targets fun _ => false).bind fun
    | none => .done none
    | some original => (writeFileAtomic .publish .markerTmp .marker (J.marshal original)).bind fun ok =>
        .done (if ok then some original else none)

def swapTarget (original : Target → Bool) (t : Target) : Step Bool :=
  (if original t then must .swap (.rename (.live t) (.backup t)) else .done true).and
    (must .swap (.rename (.incoming t) (.live t)))

def restoreTarget (original : Target → Bool) (t : Target) : Step Bool :=
  (if original t then .op .restore (.stat (.backup t)) fun
      | .ok _ => .op .restore (.remove (.live t)) fun _ =>
          must .restore (.rename (.backup t) (.live t))
      | .notExist => .done true
      | .failed => .done false
  else (try_ .restore (.remove (.live t))).and (try_ .restore (.remove (.backup t)))).and
    (try_ .restore (.remove (.incoming t)))

def removeLeftovers (t : Target) : Step Bool :=
  (try_ .restore (.remove (.backup t))).and (try_ .restore (.remove (.incoming t)))

def removeMarker : Step Bool :=
  Script.all [must .restore .syncDir, must .unmark (.remove .marker), must .unmark .syncDir]

def recoverSnapshotInstall : Step Bool :=
  .op .restore (.read .marker) fun
    | .notExist => Script.all (targets.map removeLeftovers)
    | .failed => .done false
    | .ok b =>
      match J.unmarshal b with
      | none => .done false
      | some original =>
        (Script.all (targets.map (restoreTarget original))).and removeMarker

/-- Whether the live files were swapped for the incoming ones, once the marker was written. -/
def swapFiles : Step (Option Bool) :=
  (beginSnapshotInstall J).bind fun
    | none => .done none
    | some original =>
      ((Script.all (targets.map (swapTarget original))).and (must .swap .syncDir)).bind fun ok =>
        .done (some ok)

def rollBack : Step (Option Bool) := (recoverSnapshotInstall J).bind fun _ => .done none

/-- What follows the commit point; the result is whether the last sync went well. -/
def removeBackups : Step (Option Bool) :=
  (must .commit .syncDir).bind fun
    | false => .done (some false)
    | true => (Script.all (targets.map fun t => try_ .commit (.remove (.backup t)))).bind fun _ =>
        .done (some true)

def finishInstall : Option Bool → Step (Option Bool)
  | none => .done none
  | some false => rollBack J
  | some true => (must .commit (.remove .marker)).bind fun ok => if ok then removeBackups else rollBack J

def install : Step (Option Bool) := (swapFiles J).bind (finishInstall J)

end Marker

/-- Faults that an installation withstands. `A` is for a marker that is left behind: it may be when
all three files were there before. -/
def Tolerated (A : Prop) : Phase → Op Name → Fault → Prop
  | .begin, .remove _, f => f ≠ .before
  | .publish, .rename _ _, f => (∃ k, f = .after k) → A
  | .publish, .syncDir, f => f ≠ .none → A
  | .commit, .remove .marker, f => ∀ k, f ≠ .after k
  | .restore, _, f => f = .none
  | .unmark, _, f => f = .none
  | _, _, _ => True

theorem tolerated_none (A : Prop) (p : Phase) (o : Op Name) : Tolerated A p o .none := by
  cases p <;> cases o <;> simp [Tolerated]
  split <;> simp

section Rollback
variable (A : Prop) (J : Json (Target → Bool)) (old : Target → Option Bytes) {m : Target → Bool}

def present (t : Target) : Bool := (old t).isSome

structure Unmarked (d : Files Name) : Prop where
  marker : d .marker = none
  live (t : Target) : d (.live t) = old t

def Backed (m : Target → Bool) (t : Target) (d : Files Name) : Prop :=
  if m t then d (.backup t) = old t ∧ (old t).isSome ∨ d (.backup t) = none ∧ d (.live t) = old t
  else old t = none

structure Marked (m : Target → Bool) (d : Files Name) : Prop where
  marker : d .marker = some (J.marshal m)
  backed (t : Target) : Backed old m t d

def Settles (d : Files Name) : Prop := Unmarked old d ∨ ∃ m, Marked J old m d

def Clear (t : Target) (d : Files Name) : Prop := d (.backup t) = none ∧ d (.incoming t) = none

structure Recovered (d : Files Name) : Prop extends Unmarked old d where
  clear (t : Target) : Clear t d

def SameBut (t : Target) (d d' : Files Name) : Prop :=
  ∀ n, n ≠ .live t → n ≠ .backup t → n ≠ .incoming t → d' n = d n

variable {A J old} {d d' : Files Name} {t : Target} {α : Type} {I : Files Name → Prop}
  {Q : α → Files Name → Prop}

@[simp] theorem safe_restore {o : Op Name} {k : Reply → Step α} :
    (Script.op .restore o k).Safe (Tolerated A) I Q d ↔
      I d ∧ (k (o.reply d)).Safe (Tolerated A) I Q (o.effect d) :=
  safe_quiet_op fun _ _ => Iff.rfl

@[simp] theorem safe_unmark {o : Op Name} {k : Reply → Step α} :
    (Script.op .unmark o k).Safe (Tolerated A) I Q d ↔
      I d ∧ (k (o.reply d)).Safe (Tolerated A) I Q (o.effect d) :=
  safe_quiet_op fun _ _ => Iff.rfl

theorem SameBut.refl (t : Target) (d : Files Name) : SameBut t d d := fun _ _ _ _ => rfl

theorem SameBut.update {n : Name} (h : SameBut t d d')
    (hn : n = .live t ∨ n = .backup t ∨ n = .incoming t) (v : Option Bytes) :
    SameBut t d (update d' n v) := by
  intro m h₁ h₂ h₃
  rw [update_of_ne, h m h₁ h₂ h₃]
  rintro rfl
  simp_all

theorem restoreTarget_safe (h : Backed old m t d) :
    (restoreTarget m t).Safe (Tolerated A) (fun d' => SameBut t d d' ∧ Backed old m t d')
      (Ends (fun d' => SameBut t d d' ∧ d' (.live t) = old t ∧ Clear t d') fun _ => False) d := by
  have hrefl := SameBut.refl t d
  cases hm : m t with
  | false =>
    simp_all [restoreTarget, Script.and, Script.bind, try_, Backed, Ends, Op.effect, Clear,
      SameBut.update]
  | true =>
    cases hb : d (.backup t) with
    | none =>
      have hlive : d (.live t) = old t := by
        simp only [Backed, hm, if_true, hb] at h
        rcases h with ⟨h, hsome⟩ | h
        · simp [← h] at hsome
        · exact h.2
      simp [restoreTarget, Script.and, Script.bind, try_, Backed, Ends, Op.effect, Clear,
        SameBut.update, Op.reply, Op.found, hm, hb, hlive, hrefl]
    | some c =>
      have hold : old t = some c := by
        simp only [Backed, hm, if_true, hb, reduceCtorEq, false_and, or_false] at h
        exact h.1.symm
      simp [restoreTarget, Script.and, Script.bind, try_, must, Backed, Ends, Op.effect, Clear,
        SameBut.update, Op.reply, Op.found, Reply.isOk, hm, hb, hold, hrefl]

theorem SameBut.other (h : SameBut t d d') {u : Target} (hu : u ≠ t) :
    d' (.live u) = d (.live u) ∧ d' (.backup u) = d (.backup u) ∧ d' (.incoming u) = d (.incoming u) := by
  refine ⟨h _ ?_ ?_ ?_, h _ ?_ ?_ ?_, h _ ?_ ?_ ?_⟩ <;> simp [hu]

theorem SameBut.marker (h : SameBut t d d') : d' .marker = d .marker := by
  apply h <;> simp

theorem SameBut.forall_done {T : Target → Option Bytes → Option Bytes → Option Bytes → Prop}
    {ds us : List Target} (hts : targets = ds ++ t :: us) (h : SameBut t d d')
    (hds : ∀ u ∈ ds, T u (d (.live u)) (d (.backup u)) (d (.incoming u)))
    (ht : T t (d' (.live t)) (d' (.backup t)) (d' (.incoming t))) :
    ∀ u ∈ ds ++ [t], T u (d' (.live u)) (d' (.backup u)) (d' (.incoming u)) := by
  have hnodup := nodup_targets
  rw [hts, nodup_append] at hnodup
  intro u hu
  rcases mem_append.mp hu with hu | hu
  · have hne : u ≠ t := hnodup.2.2 u hu t (by simp)
    rw [(h.other hne).1, (h.other hne).2.1, (h.other hne).2.2]
    exact hds u hu
  · rw [mem_singleton.mp hu]
    exact ht

theorem Marked.of_sameBut (h : Marked J old m d) (hs : SameBut t d d') (ht : Backed old m t d') :
    Marked J old m d' := by
  refine ⟨hs.marker.trans h.marker, fun u => ?_⟩
  by_cases hu : u = t
  · exact hu ▸ ht
  · rw [Backed, (hs.other hu).1, (hs.other hu).2.1]
    exact h.backed u

theorem restoreTargets_safe (h : Marked J old m d) :
    (Script.all (targets.map (restoreTarget m))).Safe (Tolerated A) (Marked J old m)
      (Ends (fun d => ∀ t ∈ targets, d (.live t) = old t ∧ Clear t d) fun _ => False) d := by
  apply Safe.loop (K := fun ds d => ∀ t ∈ ds, d (.live t) = old t ∧ Clear t d) _ h (by simp)
  intro ds t us hts d hd hds
  apply (restoreTarget_safe (hd.backed t)).mono
  · exact fun d' hd' => hd.of_sameBut hd'.1 hd'.2
  · rintro (_ | _) d' hd'
    · exact hd'
    · obtain ⟨hsame, hlive⟩ := hd'
      exact hsame.forall_done (T := fun t l b i => l = old t ∧ b = none ∧ i = none) hts hds hlive

theorem removeLeftovers_safe (t : Target) (d : Files Name) :
    (removeLeftovers t).Safe (Tolerated A) (fun d' => SameBut t d d' ∧ d' (.live t) = d (.live t))
      (Ends (fun d' => SameBut t d d' ∧ Clear t d') fun _ => False) d := by
  simp [removeLeftovers, Script.and, Script.bind, try_, Ends, Op.effect, Clear, SameBut.update,
    SameBut.refl]

theorem Unmarked.of_sameBut (h : Unmarked old d) (hs : SameBut t d d')
    (ht : d' (.live t) = d (.live t)) : Unmarked old d' := by
  refine ⟨hs.marker.trans h.marker, fun u => ?_⟩
  by_cases hu : u = t
  · exact hu ▸ ht.trans (h.live t)
  · exact (hs.other hu).1.trans (h.live u)

theorem removeAllLeftovers_safe (h : Unmarked old d) :
    (Script.all (targets.map removeLeftovers)).Safe (Tolerated A) (Unmarked old)
      (Ends (fun d => ∀ t ∈ targets, Clear t d) fun _ => False) d := by
  apply Safe.loop (K := fun ds d => ∀ t ∈ ds, Clear t d) _ h (by simp)
  intro ds t us hts d hd hds
  apply (removeLeftovers_safe t d).mono
  · exact fun d' hd' => hd.of_sameBut hd'.1 hd'.2
  · rintro (_ | _) d' hd'
    · exact hd'
    · obtain ⟨hsame, hclear⟩ := hd'
      exact hsame.forall_done (T := fun _ _ b i => b = none ∧ i = none) hts hds hclear

theorem Unmarked.recovered (h : Unmarked old d) (hclear : ∀ t ∈ targets, Clear t d) : Recovered old d :=
  ⟨h, fun t => hclear t (mem_targets t)⟩

theorem removeMarker_safe (h : Marked J old m d)
    (hall : ∀ t ∈ targets, d (.live t) = old t ∧ Clear t d) :
    removeMarker.Safe (Tolerated A) (Settles J old) (fun ok d => ok = true ∧ Recovered old d) d := by
  have hmarked : Settles J old d := .inr ⟨m, h⟩
  have hrecovered : Recovered old (update d .marker none) := by
    refine ⟨⟨by simp, fun t => ?_⟩, fun t => ?_⟩
    · simpa using (hall t (mem_targets t)).1
    · simpa [Clear] using (hall t (mem_targets t)).2
  have hsettled : Settles J old (update d .marker none) := .inl hrecovered.toUnmarked
  simp [removeMarker, Script.all, Script.and, Script.bind, must, Op.reply, Op.found, h.marker,
    Reply.isOk, Op.effect, hmarked, hrecovered, hsettled]

theorem recoverSnapshotInstall_safe (h : Settles J old d) :
    (recoverSnapshotInstall J).Safe (Tolerated A) (Settles J old)
      (fun ok d => ok = true ∧ Recovered old d) d := by
  rw [recoverSnapshotInstall, safe_restore]
  refine ⟨h, ?_⟩
  rcases h with h | ⟨m, h⟩
  · simp only [Op.reply, Op.found, h.marker, Op.effect]
    apply (removeAllLeftovers_safe h).strengthen.mono fun _ => Or.inl
    rintro (_ | _) d ⟨hd, hclear⟩
    · exact hclear.elim
    · exact ⟨rfl, hd.recovered hclear⟩
  · simp only [Op.reply, Op.found, h.marker, Op.effect, J.unmarshal_marshal]
    apply ((restoreTargets_safe h).strengthen.mono (fun _ hd => Or.inr ⟨m, hd⟩) fun _ _ => id).and
    · exact fun d _ hd => removeMarker_safe hd.1 hd.2
    · exact fun d _ hd => hd.2.elim

theorem log_tolerated (A : Prop) (s : Step α) (d : Files Name) :
    ∀ ev ∈ s.log d [], Tolerated A ev.label ev.op ev.fault := by
  intro ev hev
  rw [log_nil s d ev hev]
  exact tolerated_none A _ _

theorem recoveries_settle (h : Settles J old d) (ns : List ℕ) :
    let d' := ns.foldl (fun d n => (recoverSnapshotInstall J).crashed d [] n) d
    ((recoverSnapshotInstall J).run d' []).1 = true ∧
      Recovered old ((recoverSnapshotInstall J).run d' []).2 := by
  induction ns generalizing d with
  | nil => exact ((recoverSnapshotInstall_safe h).run (log_tolerated True _ d)).2
  | cons n ns ih => exact ih ((recoverSnapshotInstall_safe h).crashed (log_tolerated True _ d) n)

end Rollback

section Install
variable {A : Prop} {J : Json (Target → Bool)} {old : Target → Option Bytes} {new : Target → Bytes}
  {d d' : Files Name} {t : Target}

variable (old new) in
structure Waiting (t : Target) (d : Files Name) : Prop where
  live : d (.live t) = old t
  backup : d (.backup t) = none
  incoming : d (.incoming t) = some (new t)

variable (old new) in
structure Begun (ts : List Target) (d d' : Files Name) : Prop extends Unmarked old d' where
  backup (t : Target) : d' (.backup t) = if t ∈ ts then none else d (.backup t)
  incoming (t : Target) : d' (.incoming t) = some (new t)

theorem removeBackup_begun {f : Fault} (h : Begun old new [] d d)
    (hf : Tolerated A .begin (.remove (.backup t)) f) :
    Begun old new [t] d ((Op.remove (.backup t)).perform d f).2 := by
  have hd : ((Op.remove (.backup t)).perform d f).2 = update d (.backup t) none := by
    cases f with
    | none => rfl
    | before => exact absurd rfl hf
    | after k => rfl
  rw [hd]
  refine ⟨⟨by simpa using h.marker, fun u => by simpa using h.live u⟩, fun u => ?_,
    fun u => by simpa using h.incoming u⟩
  simp [update_apply]

theorem backed_present : Backed old (present old) t d ↔
    old t = none ∨ d (.backup t) = old t ∨ d (.backup t) = none ∧ d (.live t) = old t := by
  cases hold : old t <;> simp [Backed, present, hold]

theorem statTargets_safe (h : Begun old new [] d d) (ts : List Target) (original : Target → Bool) :
    (statTargets ts original).Safe (Tolerated A) (Unmarked old)
      (fun r d' => ∀ m, r = some m →
        (∀ t, m t = if t ∈ ts then (old t).isSome else original t) ∧ Begun old new ts d d') d := by
  induction ts generalizing d original with
  | nil =>
    refine ⟨h.toUnmarked, ?_⟩
    rintro m ⟨⟩
    exact ⟨by simp, h⟩
  | cons t ts ih =>
    have hnext : ∀ r : Reply, r.isOk = (old t).isSome → (Script.op .begin (.remove (.backup t)) fun _ =>
          statTargets ts (update original t r.isOk)).Safe (Tolerated A) (Unmarked old)
          (fun r d' => ∀ m, r = some m →
            (∀ u, m u = if u ∈ t :: ts then (old u).isSome else original u) ∧
              Begun old new (t :: ts) d d') d := by
      intro r hr
      refine ⟨h.toUnmarked, fun f hf => ?_⟩
      have hbegun := removeBackup_begun h hf
      apply (ih ⟨hbegun.toUnmarked, by simp, hbegun.incoming⟩ _).mono fun _ => id
      intro r' d' hd' m hm
      obtain ⟨hflags, hall⟩ := hd' m hm
      refine ⟨fun u => ?_, hall.toUnmarked, fun u => ?_, hall.incoming⟩
      · rw [hflags, update_apply, hr]
        by_cases hu : u = t <;> simp_all
      · rw [hall.backup, hbegun.backup]
        by_cases hu : u = t <;> simp_all
    refine ⟨h.toUnmarked, fun f _ => ?_⟩
    have hold := h.live t
    cases f with
    | none =>
      simp only [Op.perform, Op.reply, Op.found, Op.effect]
      cases hlive : d (.live t) with
      | none => exact hnext .notExist (by rw [← hold, hlive]; rfl)
      | some b => exact hnext (.ok b) (by rw [← hold, hlive]; rfl)
    | before | after k => exact ⟨h.toUnmarked, by rintro m ⟨⟩⟩

variable (J old new) in
def Published (d : Files Name) : Prop := Marked J old (present old) d ∧ ∀ t, Waiting old new t d

variable (A J old new) in
def GivenUp (d : Files Name) : Prop := Unmarked old d ∨ A ∧ Published J old new d

theorem publish_safe {m : Target → Bool} (hm : ∀ t, m t = (old t).isSome)
    (h : Begun old new targets d d') :
    (writeFileAtomic .publish .markerTmp .marker (J.marshal m)).Safe (Tolerated A) (Settles J old)
      (Ends (Published J old new) (GivenUp A J old new)) d' := by
  have hwaiting : ∀ t, Waiting old new t d' := fun t =>
    ⟨h.live t, by simp [h.backup, mem_targets], h.incoming t⟩
  have hunmarked : ∀ d, Only .markerTmp d' d → Unmarked old d := by
    rintro _ ⟨v, rfl⟩
    exact ⟨by simpa using h.marker, fun t => by simpa using h.live t⟩
  have htmp := writeAll_safe (Tolerated A) .publish Name.markerTmp (J.marshal m) d'
  have hwritten : (writeFileFrom .publish .markerTmp (J.marshal m)).Safe (Tolerated A) (Settles J old)
      (Ends (fun d => d = update d' .markerTmp (some (J.marshal m))) (GivenUp A J old new))
      d' := by
    apply htmp.mono fun d hd => Or.inl (hunmarked d hd)
    rintro (_ | _) d hd
    · exact .inl (hunmarked d hd)
    · exact hd
  apply hwritten.andEnds
  rintro d hsettles rfl
  have hd := hunmarked _ (only_refl _ _ |>.update (some (J.marshal m)))
  have heffect : (Op.rename .markerTmp .marker).effect
      (update d' .markerTmp (some (J.marshal m))) =
      update (update d' .markerTmp none) .marker (some (J.marshal m)) := by
    simp [Op.effect]
  have hpublished : Published J old new (update (update d' .markerTmp none) .marker
      (some (J.marshal m))) := by
    obtain rfl : m = present old := funext hm
    refine ⟨⟨by simp, fun t => backed_present.mpr (.inr (.inr ?_))⟩, fun t => ⟨?_, ?_, ?_⟩⟩
    · simpa using ⟨(hwaiting t).backup, (hwaiting t).live⟩
    · simpa using (hwaiting t).live
    · simpa using (hwaiting t).backup
    · simpa using (hwaiting t).incoming
  have hrename : (must .publish (.rename .markerTmp .marker)).Safe (Tolerated A) (Settles J old)
      (Ends (Published J old new) (GivenUp A J old new))
      (update d' .markerTmp (some (J.marshal m))) := by
    apply Safe.of_must hsettles
    · intro _
      rw [heffect]
      exact ⟨.inr ⟨_, hpublished.1⟩, by simpa [Op.reply, Op.found, Reply.isOk, Ends] using hpublished⟩
    · exact fun _ => Or.inl hd
    · intro k hA
      simp only [Op.cut, heffect]
      exact ⟨.inr ⟨_, hpublished.1⟩, .inr ⟨hA ⟨k, rfl⟩, hpublished⟩⟩
  apply hrename.andEnds
  intro d hsettles hd
  apply Safe.of_must hsettles
  · exact fun _ => ⟨hsettles, hd⟩
  · exact fun hA => Or.inr ⟨hA (by simp), hd⟩
  · exact fun k hA => ⟨hsettles, .inr ⟨hA (by simp), hd⟩⟩

theorem beginSnapshotInstall_safe (h : Begun old new [] d d) :
    (beginSnapshotInstall J).Safe (Tolerated A) (Settles J old)
      (fun r d => match r with
        | none => GivenUp A J old new d
        | some m => (∀ t, m t = (old t).isSome) ∧ Published J old new d) d := by
  have hstat := (statTargets_safe (A := A) h targets fun _ => false).strengthen
  apply (hstat.mono (fun _ => Or.inl) fun _ _ => id).bind
  rintro (_ | m) d' hsettles ⟨hunmarked, hm⟩
  · exact ⟨hsettles, .inl hunmarked⟩
  · obtain ⟨hflags, hbegun⟩ := hm m rfl
    have hm : ∀ t, m t = (old t).isSome := fun t => by rw [hflags, if_pos (mem_targets t)]
    apply (publish_safe hm hbegun).bind
    rintro (_ | _) d'' hsettles hd''
    · exact ⟨hsettles, hd''⟩
    · exact ⟨hsettles, hm, hd''⟩

theorem takePlace_safe (hs : SameBut t d d') (hb : old t = none ∨ d' (.backup t) = old t)
    (hin : d' (.incoming t) = some (new t)) :
    (must .swap (.rename (.incoming t) (.live t))).Safe (Tolerated A)
      (fun d' => SameBut t d d' ∧ Backed old (present old) t d')
      (Ends (fun d' => SameBut t d d' ∧ d' (.live t) = some (new t)) fun _ => True) d' := by
  have hbacked : ∀ d'' : Files Name, d'' (.backup t) = d' (.backup t) → Backed old (present old) t d'' := by
    intro d'' hd''
    rcases hb with hb | hb
    · exact backed_present.mpr (.inl hb)
    · exact backed_present.mpr (.inr (.inl (hd''.trans hb)))
  have heffect : (Op.rename (.incoming t) (.live t)).effect d' =
      update (update d' (.incoming t) none) (.live t) (some (new t)) := by
    simp [Op.effect, hin]
  have hsame : SameBut t d (update (update d' (.incoming t) none) (.live t)
      (some (new t))) := (hs.update (by simp) _).update (by simp) _
  have hkept : Backed old (present old) t (update (update d' (.incoming t) none) (.live t)
      (some (new t))) := hbacked _ (by simp)
  apply Safe.of_must ⟨hs, hbacked d' rfl⟩
  · intro _
    rw [heffect]
    exact ⟨⟨hsame, hkept⟩, by simpa [Op.reply, Op.found, hin, Reply.isOk, Ends] using hsame⟩
  · exact fun _ => trivial
  · intro k _
    simp only [Op.cut, heffect]
    exact ⟨⟨hsame, hkept⟩, trivial⟩

theorem swapTarget_safe (h : Waiting old new t d) : (swapTarget (present old) t).Safe (Tolerated A)
      (fun d' => SameBut t d d' ∧ Backed old (present old) t d')
      (Ends (fun d' => SameBut t d d' ∧ d' (.live t) = some (new t)) fun _ => True) d := by
  have hrefl := SameBut.refl t d
  have hbacked : Backed old (present old) t d :=
    backed_present.mpr (.inr (.inr ⟨h.backup, h.live⟩))
  cases hold : old t with
  | none =>
    have hdone : (Script.done true : Step Bool).Safe (Tolerated A)
        (fun d' => SameBut t d d' ∧ Backed old (present old) t d') (Ends (· = d) fun _ => True) d :=
      ⟨⟨hrefl, hbacked⟩, rfl⟩
    simp only [swapTarget, present, hold, Option.isSome_none, Bool.false_eq_true, if_false]
    apply hdone.andEnds
    rintro _ - rfl
    exact takePlace_safe hrefl (.inl hold) h.incoming
  | some b =>
    have hlive : d (.live t) = some b := h.live.trans hold
    have hsame : SameBut t d (update (update d (.live t) none) (.backup t) (some b)) :=
      (hrefl.update (by simp) _).update (by simp) _
    have hkept : Backed old (present old) t (update (update d (.live t) none) (.backup t)
        (some b)) := backed_present.mpr (.inr (.inl (by simp [hold])))
    have hbackup : (must .swap (.rename (.live t) (.backup t))).Safe (Tolerated A)
        (fun d' => SameBut t d d' ∧ Backed old (present old) t d')
        (Ends (· = update (update d (.live t) none) (.backup t) (some b)) fun _ => True) d := by
      apply Safe.of_must ⟨hrefl, hbacked⟩
      · simp [Op.effect, hlive, hsame, hkept, Op.reply, Op.found, Reply.isOk, Ends]
      · exact fun _ => trivial
      · simp [Op.cut, Op.effect, hlive, hsame, hkept]
    simp only [swapTarget, present, hold, Option.isSome_some, if_true]
    apply hbackup.andEnds
    rintro _ - rfl
    exact takePlace_safe hsame (.inr (by simp [hold])) (by simpa using h.incoming)

theorem swapTargets_safe (h : Published J old new d) :
    (Script.all (targets.map (swapTarget (present old)))).Safe (Tolerated A) (Marked J old (present old))
      (Ends (fun d => ∀ t ∈ targets, d (.live t) = some (new t)) fun _ => True) d := by
  suffices hloop : (Script.all (targets.map (swapTarget (present old)))).Safe (Tolerated A)
      (Marked J old (present old)) (Ends (fun d => (∀ t ∈ targets, d (.live t) = some (new t)) ∧
        ∀ t ∉ targets, Waiting old new t d) fun _ => True) d by
    apply hloop.mono fun _ => id
    rintro (_ | _) d hd
    · trivial
    · exact hd.1
  apply Safe.loop (K := fun ds d => (∀ t ∈ ds, d (.live t) = some (new t)) ∧
    ∀ t ∉ ds, Waiting old new t d) _ h.1 ⟨by simp, fun t _ => h.2 t⟩
  rintro ds t us hts d hd ⟨hds, hwait⟩
  have hnot : t ∉ ds := by
    have hnodup := nodup_targets
    rw [hts, nodup_append] at hnodup
    exact fun ht => hnodup.2.2 t ht t (by simp) rfl
  apply (swapTarget_safe (hwait t hnot)).mono
  · exact fun d' hd' => hd.of_sameBut hd'.1 hd'.2
  · rintro (_ | _) d' hd'
    · trivial
    · obtain ⟨hsame, hlive⟩ := hd'
      refine ⟨hsame.forall_done (T := fun t l _ _ => l = some (new t)) hts hds hlive, fun u hu => ?_⟩
      rw [mem_append, mem_singleton, not_or] at hu
      obtain ⟨h₁, h₂, h₃⟩ := hsame.other hu.2
      have hu := hwait u hu.1
      exact ⟨h₁.trans hu.live, h₂.trans hu.backup, h₃.trans hu.incoming⟩

theorem swapFiles_safe (h : Begun old new [] d d) : (swapFiles J).Safe (Tolerated A) (Settles J old)
      (fun r d => match r with
        | none => GivenUp A J old new d
        | some ok => Marked J old (present old) d ∧ (ok = true → ∀ t, d (.live t) = some (new t))) d := by
  apply (beginSnapshotInstall_safe h).bind
  rintro (_ | m) d' hsettles hd'
  · exact ⟨hsettles, hd'⟩
  · obtain ⟨hm, hpublished⟩ := hd'
    obtain rfl : m = present old := funext hm
    have hswap := (swapTargets_safe (A := A) hpublished).strengthen
    have hsync : ((Script.all (targets.map (swapTarget (present old)))).and
        (must .swap .syncDir)).Safe (Tolerated A) (Settles J old)
        (fun ok d => Marked J old (present old) d ∧ (ok = true → ∀ t, d (.live t) = some (new t))) d' := by
      apply (hswap.mono (fun _ hd => Or.inr ⟨_, hd⟩) fun _ _ => id).and
      · intro d hsettles hd
        refine ⟨hsettles, fun f _ => ?_⟩
        have hnew : ∀ t, d (.live t) = some (new t) := fun t => hd.2 t (mem_targets t)
        cases f <;> exact ⟨hsettles, hd.1, fun _ => hnew⟩
      · exact fun d _ hd => ⟨hd.1, nofun⟩
    exact hsync.bind fun ok d hsettles hd => ⟨hsettles, hd⟩

theorem rollBack_safe (h : Settles J old d) : (rollBack J).Safe (Tolerated A) (Settles J old)
      (fun r d => r = none ∧ Recovered old d) d :=
  (recoverSnapshotInstall_safe h).bind fun _ _ hsettles hd => ⟨hsettles, rfl, hd.2⟩

theorem removeBackups_safe (h : Unmarked old d) :
    removeBackups.Safe (Tolerated A) (Unmarked old) (fun r _ => r.isSome) d := by
  have hremove : ∀ t (d : Files Name) f, Unmarked old d →
      Unmarked old ((Op.remove (.backup t)).perform d f).2 := by
    intro t d f hd
    have hd' : Unmarked old (update d (.backup t) none) :=
      ⟨by simpa using hd.marker, fun u => by simpa using hd.live u⟩
    cases f with
    | none => exact hd'
    | before => exact hd
    | after k => exact hd'
  have hloop : ∀ d : Files Name, Unmarked old d →
      (Script.all (targets.map fun t => try_ Phase.commit (Op.remove (.backup t)))).Safe (Tolerated A)
        (Unmarked old) (Ends (fun _ => True) fun _ => True) d := by
    intro d hd
    apply Safe.loop (K := fun _ _ => True) _ hd trivial
    exact fun ds t us _ d hd _ => ⟨hd, fun f _ => ⟨hremove t d f hd, trivial⟩⟩
  have hsync : (must Phase.commit Op.syncDir).Safe (Tolerated A) (Unmarked old) (fun _ _ => True) d := by
    refine ⟨h, fun f _ => ?_⟩
    cases f <;> exact ⟨h, trivial⟩
  apply hsync.bind
  rintro (_ | _) d' hd' -
  · exact ⟨hd', rfl⟩
  · exact (hloop d' hd').bind fun _ _ hd _ => ⟨hd, rfl⟩

/-- The files after recovery, when an installation was interrupted after its first `n` operations. -/
theorem install_crash_settles (h : Begun old new [] d d) (n : ℕ) :
    Settles J old ((install J).crashed d [] n) ∨
      Settles J (fun t => some (new t)) ((install J).crashed d [] n) ∧
        ⟨.commit, .remove .marker, .none⟩ ∈ ((install J).log d []).take n := by
  have hswap := swapFiles_safe (A := True) (J := J) h
  have htol := log_tolerated True (swapFiles J) d
  by_cases hn : n ≤ ((swapFiles J).log d []).length
  · left
    rw [install, crashed_bind_of_le _ hn]
    exact hswap.crashed htol n
  · obtain ⟨m, rfl⟩ : ∃ m, n = ((swapFiles J).log d []).length + (m + 1) :=
      ⟨n - ((swapFiles J).log d []).length - 1, by omega⟩
    obtain ⟨hsettles, hend⟩ := hswap.run htol
    rw [install, crashed_bind_add, log_bind, take_append]
    generalize (swapFiles J).run d [] = out at hsettles hend ⊢
    obtain ⟨r, d'⟩ := out
    match r with
    | none => exact .inl hsettles
    | some false => exact .inl ((rollBack_safe hsettles).crashed (log_tolerated True _ d') (m + 1))
    | some true =>
      right
      obtain ⟨hmarked, hlive⟩ : Marked J old (present old) d' ∧ (true = true → ∀ t, d' (.live t) = some (new t)) :=
        hend
      have hmarker := hmarked.marker
      have hunmarked : Unmarked (fun t => some (new t)) (update d' .marker none) :=
        ⟨by simp, fun t => by simpa using hlive rfl t⟩
      have hcommit : (finishInstall J (some true)).crashed d' [] (m + 1) =
          removeBackups.crashed (update d' .marker none) [] m := by
        simp [finishInstall, Script.bind, must, crashed, Op.perform, Op.reply, Op.found, Op.effect,
          hmarker, Reply.isOk]
      constructor
      · rw [hcommit]
        exact .inl ((removeBackups_safe hunmarked).crashed (log_tolerated True _ _) m)
      · apply mem_append_right
        rw [Nat.add_sub_cancel_left]
        exact mem_cons_self

/-- An installation interrupted anywhere, with recoveries interrupted anywhere after it: the first
recovery that completes leaves the old files or, if the marker was removed, the new ones. -/
theorem install_crash_atomic (J : Json (Target → Bool)) (d : Files Name) (new : Target → Bytes)
    (hmarker : d .marker = none) (hin : ∀ t, d (.incoming t) = some (new t)) (n : ℕ)
    (ns : List ℕ) :
    let crashed := (install J).crashed d [] n
    let recovering := ns.foldl (fun d k => (recoverSnapshotInstall J).crashed d [] k) crashed
    let out := (recoverSnapshotInstall J).run recovering []
    out.1 = true ∧ out.2 .marker = none ∧ (∀ t, out.2 (.backup t) = none ∧ out.2 (.incoming t) = none) ∧
      ((∀ t, out.2 (.live t) = d (.live t)) ∨ (∀ t, out.2 (.live t) = some (new t)) ∧
          ⟨.commit, .remove .marker, .none⟩ ∈ ((install J).log d []).take n) := by
  intro crashed recovering out
  have hbegun : Begun (fun t => d (.live t)) new [] d d := ⟨⟨hmarker, fun _ => rfl⟩, by simp, hin⟩
  rcases install_crash_settles (J := J) hbegun n with h | ⟨h, hremoved⟩
  · obtain ⟨hok, hrec⟩ := recoveries_settle h ns
    exact ⟨hok, hrec.marker, hrec.clear, .inl hrec.live⟩
  · obtain ⟨hok, hrec⟩ := recoveries_settle h ns
    exact ⟨hok, hrec.marker, hrec.clear, .inr ⟨hrec.live, hremoved⟩⟩

def flagBytes : Json (Target → Bool) where
  marshal m := targets.map fun t => if m t then 1 else 0
  unmarshal b := some fun
    | .snapshot => b.head? == some 1
    | .metadata => b.tail.head? == some 1
    | .wal => b.tail.tail.head? == some 1
  unmarshal_marshal m := by
    congr 1
    funext t
    cases t <;> simp only [targets, map_cons, head?_cons, tail_cons] <;> split <;> simp_all
  marshal_ne_nil m := by simp [targets]

def received : Files Name
  | .live .wal => some [7]
  | .incoming _ => some [1, 2]
  | _ => none

/-- The installation is interrupted when the log has been moved away, and the recovery after it before
the log is back. -/
theorem interrupted_install_rolled_back : let crashed := (install flagBytes).crashed received [] 15
    let out := (recoverSnapshotInstall flagBytes).run
      ((recoverSnapshotInstall flagBytes).crashed crashed [] 8) []
    crashed (.live .wal) = none ∧ out.1 = true ∧ ∀ t, out.2 (.live t) = received (.live t) := by
  have hatomic := install_crash_atomic flagBytes received (fun _ => [1, 2]) rfl (fun _ => rfl) 15 [8]
  refine ⟨by decide, hatomic.1, ?_⟩
  rcases hatomic.2.2.2 with hold | ⟨-, hremoved⟩
  · exact hold
  · exact absurd hremoved (by decide)

end Install

end NuclaDB.Install
