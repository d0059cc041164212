import NuclaDB.EngineDurability
import NuclaDB.SnapshotInstall

/-!
# A snapshot that is not loaded

An error before the commit point leaves the engine's memory alone; what it leaves in the
directory matters at the next `Open`.
-/

namespace NuclaDB.Install

open LittleEndian Hnsw FileScript FileScript.Script Function EventRun Segment List

variable {D : Type} [Hnsw.Dist D]

structure Loaded (D : Type) where
  graph : Graph D
  seq : UInt64
  metadata : Metadata

def contents : Reply → Option (Option Bytes)
  | .ok b => some (some b)
  | .notExist => some none
  | .failed => none

def removeIncoming (ts : List Target) : Step Bool :=
  Script.all (ts.map fun t => try_ .cleanup (.remove (.incoming t)))

section Script
variable (J : Codec) (M : Json (Target → Bool)) (cfg : Config D) (rng : ℕ → ℕ)

def checkSnapshot (seq : UInt64) (r : Reply) : Option (Graph D) :=
  match (contents r).map (load cfg rng) with
  | some (.ok (g, gotSeq)) => if gotSeq = seq then some g else none
  | _ => none

def checkMetadata (g : Graph D) (seq : UInt64) (r : Reply) : Option (Loaded D) :=
  ((contents r).bind (loadMetadata J)).map fun metadata =>
    ⟨g, seq, metadata.filter fun id _ => (g.get id).isSome⟩

def receive (snapshot metadata : Bytes) (seq : UInt64) : Step (Option (Loaded D)) :=
  ((writeFileFrom .receive (.incoming .snapshot) snapshot).and
    (writeFileFrom .receive (.incoming .metadata) metadata)).bind fun ok =>
  if ok then
    .op .receive (.read (.incoming .snapshot)) fun r =>
      match checkSnapshot cfg rng seq r with
      | none => .done none
      | some g => .op .receive (.read (.incoming .metadata)) fun r => .done (checkMetadata J g seq r)
  else .done none

def createAndInstall : Step (Option Bool) :=
  ((must .receive (.create (.incoming .wal))).and (must .receive (.sync (.incoming .wal)))).bind
    fun ok => if ok then install M else .done none

/-- The result is what was loaded, and whether the sync after the commit point went well. -/
def loadSnapshot (snapshot metadata : Bytes) (seq : UInt64) : Step (Option (Loaded D × Bool)) :=
  (receive J cfg rng snapshot metadata seq).bind fun
  | none => (removeIncoming [.metadata, .snapshot]).bind fun _ => .done none
  | some loaded => (createAndInstall M).bind fun r =>
      (removeIncoming [.wal, .metadata, .snapshot]).bind fun _ => .done (r.map (loaded, ·))

end Script

/-- The engine after `LoadSnapshot`: nothing is assigned before the commit point. -/
def afterLoad (e : Engine D) : Option (Loaded D × Bool) → Engine D
  | none => e
  | some (l, _) => { e with
      graph := l.graph
      w := ⟨l.seq + 1, false, false⟩
      seq := l.seq
      snapshotSeq := l.seq
      metadata := l.metadata
      postings := buildPostings l.metadata }

def diskOf (d : Files Name) (walNew : Option Bytes) : Disk :=
  ⟨d (.live .snapshot), d (.live .metadata), d (.live .wal), walNew⟩

def withDisk (d : Files Name) (disk : Disk) : Files Name
  | .live .snapshot => disk.snapshot
  | .live .metadata => disk.metadata
  | .live .wal => disk.wal
  | n => d n

inductive DirectoryError
  | install
  | opening (e : OpenError)

def openDirectory (crc : Bytes → UInt32) (J : Codec) (M : Json (Target → Bool)) (cfg : Config D)
    (workers : Workers) (rng : ℕ → ℕ) (d : Files Name) (walNew : Option Bytes) :
    Except DirectoryError (Engine D × Disk) :=
  match (recoverSnapshotInstall M).run d [] with
  | (false, _) => .error .install
  | (true, d) =>
    match openEngine crc J cfg workers rng (diskOf d walNew) with
    | .error e => .error (.opening e)
    | .ok out => .ok out

section Refused
variable {A : Prop} {M : Json (Target → Bool)} {old : Target → Option Bytes} {d d' : Files Name}

variable (A M old) in
structure Harmless (d : Files Name) : Prop where
  live (t : Target) : d (.live t) = old t
  marker : d .marker = none ∨
    A ∧ (∃ m, d .marker = some (M.marshal m) ∧ ∀ t, m t = true) ∧ ∀ t, d (.backup t) = none

theorem Unmarked.harmless (h : Unmarked old d) : Harmless A M old d := ⟨h.live, .inl h.marker⟩

theorem GivenUp.harmless {new : Target → Bytes} (hA : A → ∀ t, (old t).isSome)
    (h : GivenUp A M old new d) : Harmless A M old d := by
  rcases h with h | ⟨ha, hmarked, hwaiting⟩
  · exact h.harmless
  · exact ⟨fun t => (hwaiting t).live, .inr ⟨ha, ⟨_, hmarked.marker, hA ha⟩,
      fun t => (hwaiting t).backup⟩⟩

theorem Harmless.update (h : Harmless A M old d) (t : Target) (v : Option Bytes) :
    Harmless A M old (update d (.incoming t) v) :=
  ⟨fun u => by simpa using h.live u, by simpa using h.marker⟩

theorem Unmarked.update (h : Unmarked old d) (t : Target) (v : Option Bytes) :
    Unmarked old (update d (.incoming t) v) :=
  ⟨by simpa using h.marker, fun u => by simpa using h.live u⟩

theorem removeIncoming_safe {I : Files Name → Prop}
    (hI : ∀ d, I d → ∀ t v, I (update d (.incoming t) v)) (h : I d) (ts : List Target) :
    (removeIncoming ts).Safe (Tolerated A) I (fun _ _ => True) d := by
  have hloop : (removeIncoming ts).Safe (Tolerated A) I (Ends (fun _ => True) fun _ => True) d := by
    apply Safe.loop (K := fun _ _ => True) _ h trivial
    intro ds t us _ d hd _
    refine ⟨hd, fun f _ => ?_⟩
    cases f with
    | none | after k => exact ⟨hI d hd t none, trivial⟩
    | before => exact ⟨hd, trivial⟩
  exact hloop.mono (fun _ => id) fun _ _ _ => trivial

variable (M old) in
def SettlesEither (new : Target → Bytes) (d : Files Name) : Prop :=
  Settles M old d ∨ Settles M (fun t => some (new t)) d

theorem Harmless.settles (h : Harmless A M old d) : Settles M old d := by
  rcases h.marker with hnone | ⟨-, ⟨m, hm, hall⟩, hbackup⟩
  · exact .inl ⟨hnone, h.live⟩
  · refine .inr ⟨m, hm, fun t => ?_⟩
    rw [Backed, if_pos (hall t)]
    exact .inr ⟨hbackup t, h.live t⟩

theorem install_safe {new : Target → Bytes} (hA : A → ∀ t, (old t).isSome)
    (h : Begun old new [] d d) :
    (install M).Safe (Tolerated A) (SettlesEither M old new)
      (fun r d => match r with
        | none => Harmless A M old d
        | some _ => Unmarked (fun t => some (new t)) d) d := by
  have hback : ∀ d, Settles M old d → (rollBack M).Safe (Tolerated A) (SettlesEither M old new)
      (fun r d => match r with
        | none => Harmless A M old d
        | some _ => Unmarked (fun t => some (new t)) d) d := by
    intro d hd
    apply (rollBack_safe hd).mono fun _ hd => Or.inl hd
    rintro r d ⟨rfl, hd⟩
    exact hd.toUnmarked.harmless
  apply ((swapFiles_safe h).mono (fun _ hd => Or.inl hd) fun _ _ => id).bind
  intro r d' hsettles hd'
  match r with
  | none => exact ⟨hsettles, GivenUp.harmless hA hd'⟩
  | some false => exact hback d' (.inr ⟨_, hd'.1⟩)
  | some true =>
    obtain ⟨hmarked, hlive⟩ : Marked M old (present old) d' ∧
      (true = true → ∀ t, d' (.live t) = some (new t)) := hd'
    have hunmarked : Unmarked (fun t => some (new t)) (update d' .marker none) :=
      ⟨by simp, fun t => by simpa using hlive rfl t⟩
    have hcommit : (must .commit (.remove .marker)).Safe (Tolerated A) (SettlesEither M old new)
        (Ends (Unmarked fun t => some (new t)) (Settles M old)) d' := by
      apply Safe.of_must hsettles
      · intro _
        refine ⟨.inr (.inl hunmarked), ?_⟩
        simp [Op.effect, Op.reply, Op.found, hmarked.marker, Reply.isOk, Ends, hunmarked]
      · exact fun _ => Or.inr ⟨_, hmarked⟩
      · exact fun k hk => absurd rfl (hk k)
    apply hcommit.bind
    rintro (_ | _) d _ hd
    · exact hback d hd
    · apply (removeBackups_safe hd).strengthen.mono fun _ hd => Or.inr (.inl hd)
      rintro (_ | _) d ⟨hd, hsome⟩
      · simp at hsome
      · exact hd

end Refused

section Load
variable {A : Prop} {J : Codec} {M : Json (Target → Bool)} {cfg : Config D}
  {rng : ℕ → ℕ} {snapshot metadata : Bytes} {seq : UInt64} {old : Target → Option Bytes}
  {d d' : Files Name}

variable (J cfg rng snapshot metadata seq) in
structure Loaded.Of (l : Loaded D) : Prop where
  load : load cfg rng (some snapshot) = .ok (l.graph, seq)
  seq_eq : l.seq = seq
  metadata : ∃ md, loadMetadata J (some metadata) = some md ∧
    l.metadata = md.filter fun id _ => (l.graph.get id).isSome

def loadedFiles (snapshot metadata : Bytes) : Target → Bytes
  | .snapshot => snapshot
  | .metadata => metadata
  | .wal => []

theorem read_contents (d : Files Name) (n : Name) (f : Fault) : ((Op.read n).perform d f).2 = d ∧
      (contents ((Op.read n).perform d f).1 = none ∨
        contents ((Op.read n).perform d f).1 = some (d n)) := by
  cases f with
  | none =>
    refine ⟨rfl, .inr ?_⟩
    simp only [Op.perform, Op.reply, Op.found]
    cases d n <;> rfl
  | before => exact ⟨rfl, .inl rfl⟩
  | after k => exact ⟨rfl, .inl rfl⟩

theorem checkSnapshot_eq_some {g : Graph D} {r : Reply} (h : checkSnapshot cfg rng seq r = some g) :
    ∃ file, contents r = some file ∧ load cfg rng file = .ok (g, seq) := by
  simp only [checkSnapshot] at h
  split at h
  · next g' gotSeq hload =>
    obtain ⟨file, hfile, hload⟩ := Option.map_eq_some_iff.mp hload
    split at h
    · next hseq =>
      obtain rfl := Option.some.inj h
      exact ⟨file, hfile, hseq ▸ hload⟩
    · cases h
  · cases h

omit [Hnsw.Dist D] in
theorem checkMetadata_eq_some {g : Graph D} {r : Reply} {l : Loaded D}
    (h : checkMetadata J g seq r = some l) :
    ∃ file md, contents r = some file ∧ loadMetadata J file = some md ∧
      l = ⟨g, seq, md.filter fun id _ => (g.get id).isSome⟩ := by
  obtain ⟨md, hmd, hl⟩ := Option.map_eq_some_iff.mp h
  obtain ⟨file, hfile, hmd⟩ := Option.bind_eq_some_iff.mp hmd
  exact ⟨file, md, hfile, hmd, hl.symm⟩

theorem receive_safe (h : Unmarked old d) :
    (receive J cfg rng snapshot metadata seq).Safe (Tolerated A) (Unmarked old)
      (fun r d => ∀ l, r = some l → l.Of J cfg rng snapshot metadata seq ∧
        d (.incoming .snapshot) = some snapshot ∧ d (.incoming .metadata) = some metadata) d := by
  have hwrite : ∀ (t : Target) (b : Bytes) (d : Files Name), Unmarked old d →
      (writeFileFrom .receive (.incoming t) b).Safe (Tolerated A) (Unmarked old)
        (Ends (fun d' => d' = update d (.incoming t) (some b)) fun _ => True) d := by
    intro t b d hd
    apply (writeAll_safe (Tolerated A) Phase.receive (.incoming t) b d).mono
    · rintro _ ⟨v, rfl⟩
      exact hd.update t v
    · rintro (_ | _) d' hd'
      · trivial
      · exact hd'
  have hboth : ((writeFileFrom .receive (.incoming .snapshot) snapshot).and
      (writeFileFrom .receive (.incoming .metadata) metadata)).Safe (Tolerated A) (Unmarked old)
      (Ends (fun d' => d' (.incoming .snapshot) = some snapshot ∧
        d' (.incoming .metadata) = some metadata) fun _ => True) d := by
    apply (hwrite .snapshot snapshot d h).andEnds
    rintro d' hd' rfl
    apply (hwrite .metadata metadata _ hd').mono fun _ => id
    rintro (_ | _) d' hd'
    · trivial
    · rw [Ends, if_pos rfl] at hd'
      simp [Ends, hd']
  apply hboth.bind
  rintro (_ | _) d' hd' hin
  · exact ⟨hd', by simp⟩
  · obtain ⟨hsnap, hmeta⟩ := hin
    refine ⟨hd', fun f _ => ?_⟩
    obtain ⟨hsame, hread⟩ := read_contents d' (.incoming .snapshot) f
    rw [hsame]
    dsimp only
    cases hg : checkSnapshot cfg rng seq ((Op.read (.incoming .snapshot)).perform d' f).1 with
    | none => exact ⟨hd', by simp⟩
    | some g =>
      obtain ⟨file, hfile, hload⟩ := checkSnapshot_eq_some hg
      refine ⟨hd', fun f' _ => ?_⟩
      obtain ⟨hsame', hread'⟩ := read_contents d' (.incoming .metadata) f'
      rw [hsame']
      refine ⟨hd', fun l hl => ?_⟩
      obtain ⟨file', md, hfile', hmd, rfl⟩ := checkMetadata_eq_some hl
      rw [hfile, hsnap] at hread
      rw [hfile', hmeta] at hread'
      obtain rfl : file = some snapshot := by simpa using hread
      obtain rfl : file' = some metadata := by simpa using hread'
      exact ⟨⟨hload, rfl, md, hmd, rfl⟩, hsnap, hmeta⟩

theorem cleanup_safe {I K : Files Name → Prop} {α : Type} {Q : α → Files Name → Prop} {a : α}
    (hI : ∀ d, I d → ∀ t v, I (update d (.incoming t) v)) (h : I d) (hK : ∀ d, I d → K d)
    (hQ : ∀ d, I d → Q a d) (ts : List Target) :
    ((removeIncoming ts).bind fun _ => .done a).Safe (Tolerated A) K Q d := by
  apply ((removeIncoming_safe hI h ts).strengthen.mono hK fun _ _ => id).bind
  exact fun _ d hd hQd => ⟨hd, hQ d hQd.1⟩

theorem createAndInstall_safe (hA : A → ∀ t, (old t).isSome) (h : Unmarked old d)
    (hsnap : d (.incoming .snapshot) = some snapshot)
    (hmeta : d (.incoming .metadata) = some metadata) :
    (createAndInstall M).Safe (Tolerated A) (SettlesEither M old (loadedFiles snapshot metadata))
      (fun r d => match r with
        | none => Harmless A M old d
        | some _ => Unmarked (fun t => some (loadedFiles snapshot metadata t)) d) d := by
  have hcreate : ((must .receive (.create (.incoming .wal))).and
      (must .receive (.sync (.incoming .wal)))).Safe (Tolerated A) (Unmarked old)
      (Ends (· = update d (.incoming .wal) (some [])) (Unmarked old)) d := by
    have hfile : (must .receive (.create (.incoming .wal))).Safe (Tolerated A) (Unmarked old)
        (Ends (· = update d (.incoming .wal) (some [])) (Unmarked old)) d :=
      .of_must h (fun _ => ⟨h.update _ _, rfl⟩) (fun _ => h) fun _ _ => ⟨h.update _ _, h.update _ _⟩
    apply hfile.andEnds
    rintro _ hd rfl
    exact .of_must hd (fun _ => ⟨hd, rfl⟩) (fun _ => hd) fun _ _ => ⟨hd, hd⟩
  apply (hcreate.mono (fun _ hd => Or.inl (.inl hd)) fun _ _ => id).bind
  rintro (_ | _) d' hsettles hd'
  · exact ⟨hsettles, Unmarked.harmless hd'⟩
  · rw [Ends, if_pos rfl] at hd'
    subst hd'
    have hnew := h.update .wal (some [])
    apply install_safe hA ⟨hnew, by simp, fun t => ?_⟩
    cases t with
    | snapshot => simpa [loadedFiles] using hsnap
    | metadata => simpa [loadedFiles] using hmeta
    | wal => simp [loadedFiles]

theorem loadSnapshot_safe (hA : A → ∀ t, (old t).isSome) (h : Unmarked old d) :
    (loadSnapshot J M cfg rng snapshot metadata seq).Safe (Tolerated A)
      (SettlesEither M old (loadedFiles snapshot metadata))
      (fun r d => match r with
        | none => Harmless A M old d
        | some (l, _) => l.Of J cfg rng snapshot metadata seq ∧
            Unmarked (fun t => some (loadedFiles snapshot metadata t)) d) d := by
  apply ((receive_safe h).strengthen.mono (fun _ hd => Or.inl (.inl hd)) fun _ _ => id).bind
  rintro (_ | l) d' - ⟨hd', hl⟩
  · apply cleanup_safe (I := Harmless A M old) (fun _ hd => hd.update) hd'.harmless
      fun _ hd => Or.inl hd.settles
    exact fun _ hd => hd
  · obtain ⟨hof, hsnap, hmeta⟩ := hl l rfl
    apply (createAndInstall_safe hA hd' hsnap hmeta).bind
    rintro (_ | synced) d - hd
    · apply cleanup_safe (I := Harmless A M old) (fun _ hd => hd.update) hd
        fun _ hd => Or.inl hd.settles
      exact fun _ hd => hd
    · apply cleanup_safe (I := Unmarked fun t => some (loadedFiles snapshot metadata t))
        (fun _ hd => hd.update) hd fun _ hd => Or.inr (.inl hd)
      exact fun _ hd => ⟨hof, hd⟩

theorem Harmless.openDirectory_eq (h : Harmless A M old d) (crc : Bytes → UInt32) (J : Codec)
    (cfg : Config D) (workers : Workers) (rng : ℕ → ℕ) (disk : Disk) :
    openDirectory crc J M cfg workers rng (withDisk d disk) disk.walNew =
      match openEngine crc J cfg workers rng disk with
      | .error e => .error (.opening e)
      | .ok out => .ok out := by
  have hsettles : Settles M (fun t => withDisk d disk (.live t)) (withDisk d disk) := by
    rcases h.marker with h | ⟨-, ⟨m, hm, hall⟩, hbackup⟩
    · exact .inl ⟨h, fun _ => rfl⟩
    · refine .inr ⟨m, hm, fun t => ?_⟩
      rw [Backed, if_pos (hall t)]
      exact .inr ⟨hbackup t, rfl⟩
  obtain ⟨hok, hrec⟩ := recoveries_settle hsettles []
  simp only [foldl_nil] at hok hrec
  simp only [openDirectory]
  rcases hrun : (recoverSnapshotInstall M).run (withDisk d disk) [] with ⟨ok, d'⟩
  rw [hrun] at hok hrec
  obtain rfl : ok = true := hok
  have hlive : ∀ t, d' (.live t) = withDisk d disk (.live t) := hrec.live
  have hdisk : diskOf d' disk.walNew = disk := by
    rw [diskOf, hlive, hlive, hlive]
    rfl
  simp only [hdisk]

end Load

section Refusal
variable (crc : Bytes → UInt32) (J : Codec) (M : Json (Target → Bool))

/-- A `LoadSnapshot` that fails before its commit point, with tolerated faults only, leaves memory and
the live files as they were, and whatever happens after it, the directory opens as it would have. -/
theorem refused_snapshot_has_no_effect (cfg : Config D) (rng : ℕ → ℕ) (snapshot metadata : Bytes)
    (seq : UInt64) (e : Engine D) (d : Files Name) (walNew : Option Bytes) (fs : List Fault)
    (hmarker : d .marker = none)
    (hfs : ∀ ev ∈ (loadSnapshot J M cfg rng snapshot metadata seq).log d fs,
      Tolerated (∀ t, (d (.live t)).isSome) ev.label ev.op ev.fault)
    (hrefused : ((loadSnapshot J M cfg rng snapshot metadata seq).run d fs).1 = none) :
    let out := (loadSnapshot J M cfg rng snapshot metadata seq).run d fs
    afterLoad e out.1 = e ∧ (∀ t, out.2 (.live t) = d (.live t)) ∧
      ∀ evs s, run (Sys.step crc J) ⟨diskOf d walNew, e, .idle⟩ evs = .ok s →
        ∀ workers rng, openDirectory crc J M cfg workers rng (withDisk out.2 s.disk) s.disk.walNew =
          openDirectory crc J M cfg workers rng (withDisk d s.disk) s.disk.walNew := by
  intro out
  have hd : Unmarked (fun t => d (.live t)) d := ⟨hmarker, fun _ => rfl⟩
  have hend := ((loadSnapshot_safe (fun hall => hall) hd).run hfs).2
  rw [hrefused] at hend
  refine ⟨by rw [show out.1 = none from hrefused]; rfl, hend.live, fun evs s _ workers rng => ?_⟩
  rw [hend.openDirectory_eq, (Unmarked.harmless (A := True) hd).openDirectory_eq]

end Refusal

section Example

def openedDir : Files Name := fun n => if n = .live .wal then some [] else none

noncomputable def firstEngine : Engine Exact :=
  ⟨line, Hnsw.run (new line fun _ => 0) [.insert 1 [0]], ⟨2, false, false⟩, 1, 0, ∅, ∅⟩

noncomputable def snapshotted : Disk :=
  ⟨some (save firstEngine.graph 1), some (anyCodec.all.marshal ∅), some [], none⟩

def insertAndSnapshot : List Event :=
  [.commit one [firstInsert] .ok, .capture one fun _ => 0, .replaceMetadata, .replaceSnapshot, .copyTail,
    .rename]

noncomputable def loadFresh : Step (Option (Loaded Exact × Bool)) :=
  loadSnapshot anyCodec flagBytes line (fun _ => 0) (save freshEngine.graph 0) (anyCodec.all.marshal ∅) 0

noncomputable def openLine (d : Files Name) (walNew : Option Bytes) :
    Except DirectoryError (Engine Exact × Disk) :=
  openDirectory crc32ChecksumIEEE anyCodec flagBytes line one (fun _ => 0) d walNew

/-- The directory sync after the marker is written fails, and `LoadSnapshot` returns the error. An
insert and a snapshot later, the next `Open` takes the snapshot for the one that was not installed:
it removes it, and the insert is gone. -/
theorem failed_directory_sync_loses_insert :
    let refused := loadFresh.run openedDir (replicate 23 .none ++ [.before])
    openEngine crc32ChecksumIEEE anyCodec line one (fun _ => 0) Disk.empty =
        .ok (freshEngine, diskOf openedDir none) ∧
      refused.1 = none ∧ (∀ t, refused.2 (.live t) = openedDir (.live t)) ∧
      ∃ (s : Sys Exact) (intact damaged : Engine Exact × Disk),
        run (Sys.step crc32ChecksumIEEE anyCodec) ⟨diskOf openedDir none, freshEngine, .idle⟩
          insertAndSnapshot = .ok s ∧
        openLine (withDisk openedDir s.disk) s.disk.walNew = .ok intact ∧
        intact.1.contents 1 = some ([0], ∅) ∧
        openLine (withDisk refused.2 s.disk) s.disk.walNew = .ok damaged ∧
        damaged.1.contents 1 = none := by
  intro refused
  have hends : ∃ s : Sys Exact, run (Sys.step crc32ChecksumIEEE anyCodec)
        ⟨diskOf openedDir none, freshEngine, .idle⟩ insertAndSnapshot = .ok s ∧
      (∃ intact, openLine (withDisk openedDir s.disk) s.disk.walNew = .ok intact ∧
        intact.1.contents 1 = some ([0], ∅)) ∧
      ∃ damaged, openLine (withDisk refused.2 s.disk) s.disk.walNew = .ok damaged ∧
        damaged.1.contents 1 = none := by
    decide +kernel
  obtain ⟨s, hrun, ⟨intact, hintact, hheld⟩, damaged, hdamaged, hgone⟩ := hends
  refine ⟨freshEngine_eq_open _, by decide +kernel, fun t => ?_, s, intact, damaged, hrun, hintact,
    hheld, hdamaged, hgone⟩
  cases t <;> decide +kernel

/-- After the failed rename the first one is rolled back, and the snapshot that the engine takes later is
the one that `Open` finds. -/
theorem failed_rename_rolled_back :
    ∃ d, loadFresh.run openedDir (replicate 25 .none ++ [.before]) = (none, d) ∧
      (∀ t, d (.live t) = openedDir (.live t)) ∧
      openLine (withDisk d snapshotted) none = openLine (withDisk openedDir snapshotted) none := by
  have hrefused : (loadFresh.run openedDir (replicate 25 .none ++ [.before])).1 = none := by decide +kernel
  have hlog : ∀ ev ∈ loadFresh.log openedDir (replicate 25 .none ++ [.before]),
      ev.fault = .none ∨ ev.label = .swap := by decide +kernel
  have hfs : ∀ ev ∈ loadFresh.log openedDir (replicate 25 .none ++ [.before]),
      Tolerated (∀ t, (openedDir (.live t)).isSome) ev.label ev.op ev.fault := by
    intro ev hev
    rcases hlog ev hev with hnone | hswap
    · rw [hnone]
      exact tolerated_none _ _ _
    · rw [hswap]
      trivial
  obtain ⟨s, hrun, hdisk⟩ : ∃ s : Sys Exact, run (Sys.step crc32ChecksumIEEE anyCodec)
      ⟨diskOf openedDir none, freshEngine, .idle⟩ insertAndSnapshot = .ok s ∧ s.disk = snapshotted := by
    decide +kernel
  have hend := refused_snapshot_has_no_effect crc32ChecksumIEEE anyCodec flagBytes line (fun _ => 0) _ _
    0 freshEngine openedDir none _ rfl hfs hrefused
  rw [← loadFresh] at hend
  generalize loadFresh.run openedDir (replicate 25 .none ++ [.before]) = out at hrefused hend ⊢
  obtain ⟨r, d⟩ := out
  obtain rfl : r = none := hrefused
  have hopens := hend.2.2 _ _ hrun one fun _ => 0
  rw [hdisk] at hopens
  exact ⟨d, rfl, hend.2.1, hopens⟩

end Example

end NuclaDB.Install
