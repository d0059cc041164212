import NuclaDB.EngineLog

/-!
# Sequence numbers in the log

A log is intact when its complete frames are numbered one after the other and its writer
goes on with the next number. A rotation that finds an uncounted frame breaks this.
-/

namespace NuclaDB

open LittleEndian Hnsw Wal Segment List Except

def OpenError.isInvalidSequence : OpenError → Bool
  | .wal (.invalidSequence _ _) => true
  | .wal (.callback (.invalidSequence _ _)) => true
  | _ => false

section Replay
variable {D : Type} [Hnsw.Dist D] {J : Codec} {workers : Workers} {snapshotSeq : UInt64}

theorem replayMeta_error {metadata : Metadata} {rec : Record} {err : ReplayError}
    (h : replayMeta J metadata rec = .error err) : err = .json := by
  simp only [replayMeta] at h
  split at h
  · split at h
    · exact (error.inj h).symm
    · cases h
  · cases h

variable (J workers) in
theorem replayRecord_next {s : Replay D} {rec : Record} (hseq : rec.seq = s.lastSeq + 1)
    (hnew : snapshotSeq < rec.seq) :
    match replayRecord J workers snapshotSeq s rec with
    | .ok s' => s'.lastSeq = rec.seq
    | .error err => ∀ got after, err ≠ .invalidSequence got after := by
  have hnot : ¬ rec.seq ≤ snapshotSeq := by simpa using hnew
  rw [replayRecord, if_neg hnot, if_neg (not_not.mpr hseq)]
  by_cases hop : rec.op = opInsert ∨ rec.op = opMeta
  · rw [if_pos hop]
    cases hmeta : replayMeta J s.metadata rec with
    | error err =>
      rw [replayMeta_error hmeta]
      simp
    | ok metadata => rfl
  · rw [if_neg hop]
    by_cases hdel : rec.op = opDelete
    · rw [if_pos hdel]
      cases s.queue.flush workers with
      | error err => simp
      | ok queue => rfl
    · rw [if_neg hdel]

theorem replay_numbered {items : List Record} {s : Replay D} (hle : snapshotSeq ≤ s.lastSeq)
    (hroom : s.lastSeq.toNat + items.length < 2 ^ 64) {err : ReplayError}
    (hfold : (Writer.assignSeqs (s.lastSeq + 1) items).foldlM
      (replayRecord J workers snapshotSeq) s = .error err) :
    ∀ got after, err ≠ .invalidSequence got after := by
  induction items generalizing s with
  | nil => cases hfold
  | cons r items ih =>
    simp only [length_cons] at hroom
    have hnext := toNat_add_one (n := s.lastSeq) (by omega)
    have hnew := lt_add_one_of_le hle (by omega)
    have hone := replayRecord_next J workers (rfl : ({ r with seq := s.lastSeq + 1 } : Record).seq
      = s.lastSeq + 1) hnew
    rw [Writer.assignSeqs, foldlM_cons] at hfold
    cases hstep : replayRecord J workers snapshotSeq s { r with seq := s.lastSeq + 1 } with
    | error err' =>
      rw [hstep] at hone hfold
      cases hfold
      exact hone
    | ok s₁ =>
      rw [hstep] at hone hfold
      have hlast : s₁.lastSeq = s.lastSeq + 1 := hone
      apply ih (s := s₁) (hlast ▸ UInt64.le_of_lt hnew)
      · rw [hlast, hnext]
        omega
      · rw [hlast]
        exact hfold

end Replay

section Intact
variable {D : Type} [Hnsw.Dist D] (crc : Bytes → UInt32) (J : Codec)

/-- The complete frames are numbered one after the other, a writer that takes appends goes on after
them, and an `Open` does not fail over their numbers. -/
structure Sys.Intact (s : Sys D) : Prop where
  numbered : ∃ recs tail, s.disk.wal = some ((walCode crc).encAll recs ++ tail) ∧
    (∀ r ∈ recs, r.Readable) ∧ frameAt crc tail = none ∧ Consecutive recs ∧
    (s.engine.w.readyLocked = .ok () → s.engine.w.nextSeq = lastSeqFrom s.engine.snapshotSeq recs + 1)
  opens : ∀ workers rng err, openEngine crc J s.engine.cfg workers rng s.disk = .error err →
    err.isInvalidSequence = false

variable {crc J} {cfg : Config D} {s : Sys D} {L : List Change} {w0 sn ack : ℕ} {T : Bytes}

theorem Disk.Holds.open_error {disk : Disk} (h : disk.Holds crc J cfg L w0 sn T) {workers : Workers}
    {rng : ℕ → ℕ} {err : OpenError} (hopen : openEngine crc J cfg workers rng disk = .error err) :
    err.isInvalidSequence = false := by
  have hroom := h.room
  have hsn := h.sn_le
  simp only [openEngine] at hopen
  cases hload : load cfg rng disk.snapshot with
  | error e =>
    simp only [hload, error.injEq] at hopen
    rw [← hopen]
    rfl
  | ok out =>
    obtain ⟨g, seq⟩ := out
    obtain rfl := h.snapshot rng g seq hload
    cases hmeta : loadMetadata J disk.metadata with
    | none =>
      simp only [hload, hmeta, error.injEq] at hopen
      rw [← hopen]
      rfl
    | some metadata =>
      simp only [hload, hmeta, h.wal] at hopen
      split at hopen
      · next e he =>
        simp only [error.injEq] at hopen
        rw [← hopen]
        cases hfold : (recsFrom J w0 L).foldlM (replayRecord J workers (UInt64.ofNat sn))
            ⟨⟨g, []⟩, metadata, UInt64.ofNat sn⟩ with
        | ok s =>
          obtain ⟨-, -, -, -, hdamage⟩ := recover_frames crc _ (h.readable w0)
            (linked_recsFrom w0 L) h.torn hfold
          obtain ⟨bad, valid, rfl⟩ := hdamage e he
          rfl
        | error e' =>
          rw [recover_callback crc _ (h.readable w0) (linked_recsFrom w0 L) hfold,
            Option.some.injEq] at he
          rw [recsFrom_split h.w0_le h.sn_le, foldlM_append, replay_old J workers _ h.old_le] at hfold
          have hroom' : (UInt64.ofNat sn).toNat + ((L.drop sn).map (Change.record J)).length <
              2 ^ 64 := by
            rw [toNat_ofNat (by omega), length_map, length_drop]
            omega
          have hnot := replay_numbered (s := ⟨⟨g, []⟩, metadata, UInt64.ofNat sn⟩)
            (UInt64.le_refl _) hroom' hfold
          subst he
          cases e' with
          | invalidSequence got after => exact absurd rfl (hnot got after)
          | json => rfl
          | graph e => rfl
      · split at hopen
        · simp only [error.injEq] at hopen
          rw [← hopen]
          rfl
        · cases hopen

theorem LogInv.intact (h : LogInv crc J cfg s L w0 sn ack T) : s.Intact crc J := by
  refine ⟨⟨recsFrom J w0 L, T, h.holds.wal, h.holds.readable w0, h.holds.torn,
    Writer.consecutive_assignSeqs _ _, fun hready => ?_⟩, fun workers rng err hopen => ?_⟩
  · obtain ⟨-, hack⟩ := h.ready hready
    obtain ⟨j, hwj, hj, hsnap⟩ := h.snapshotSeq
    have hsn := h.holds.sn_le
    have hlast : lastSeqFrom (UInt64.ofNat j) (recsFrom J w0 L) = UInt64.ofNat L.length := by
      by_cases hlt : w0 < L.length
      · rw [lastSeqFrom_of_ne_nil (recsFrom_ne_nil hlt) _ (UInt64.ofNat w0), lastSeqFrom_recsFrom hlt.le]
      · rw [recsFrom_eq_nil (by omega)]
        exact congrArg UInt64.ofNat (show j = L.length by omega)
    rw [h.kept.next hready, h.seq, hack, hsnap, hlast]
  · rw [h.kept.cfg_eq] at hopen
    exact h.holds.open_error hopen

/-- The commits, finished or cut off by a crash, are ones that the log can take. -/
def Sys.Admits (J : Codec) (cfg : Config D) (s : Sys D) : Event → Prop
  | .commit _ cs _ => cs ≠ [] ∧ s.Loggable J cfg cs
  | .crash cs _ _ _ => s.Loggable J cfg cs
  | _ => True

instance (s : Sys D) : (ev : Event) → Decidable (s.Admits J cfg ev)
  | .commit .. => inferInstanceAs (Decidable (_ ∧ _))
  | .crash cs .. => inferInstanceAs (Decidable (s.Loggable J cfg cs))
  | .capture .. | .replaceMetadata | .replaceSnapshot | .copyTail | .rename => isTrue trivial

/-- A rotation that has its new writer finds no frame in the log that the engine does not count. -/
def Sys.RotatesInStep (crc : Bytes → UInt32) (s : Sys D) : Event → Prop
  | .rename => ∀ c w file, s.stage = .tailCopied c →
      openWriter crc s.disk.walNew s.engine.seq = .ok (w, file) → s.InStep crc
  | _ => True

theorem LogInv.step (h : LogInv crc J cfg s L w0 sn ack T) {ev : Event} {s' : Sys D}
    (hadm : s.Admits J cfg ev) (hrot : s.RotatesInStep crc ev)
    (hstep : s.step crc J ev = .ok s') :
    ∃ L w0 sn ack T, LogInv crc J cfg s' L w0 sn ack T := by
  cases ev with
  | commit workers cs io =>
    obtain ⟨ds, ack', T', h'⟩ := h.commit hadm.1 hadm.2 workers io
    cases hstep
    exact ⟨_, _, _, _, _, h'⟩
  | capture workers rng =>
    cases hstep
    exact ⟨_, _, _, _, _, h.capture workers rng⟩
  | replaceMetadata =>
    cases hstep
    exact ⟨_, _, _, _, _, h.replaceMetadata⟩
  | replaceSnapshot =>
    obtain ⟨sn', h', -⟩ := h.replaceSnapshot
    cases hstep
    exact ⟨_, _, _, _, _, h'⟩
  | copyTail =>
    cases hstep
    exact ⟨_, _, _, _, _, h.copyTail⟩
  | rename =>
    obtain ⟨w0', T', h'⟩ := h.rename hrot
    cases hstep
    exact ⟨_, _, _, _, _, h'⟩
  | crash cs n workers rng =>
    simp only [Sys.step, h.kept.cfg_eq] at hstep
    split at hstep
    · cases hstep
    · next e disk hopen =>
      obtain ⟨ds, h'⟩ := h.crash hadm n hopen
      cases hstep
      exact ⟨_, _, _, _, _, h'⟩

theorem LogInv.inStep_of_intact (h : LogInv crc J cfg s L w0 sn ack T) {c : Capture D}
    {w : Writer} {file : Bytes} (hst : s.stage = .tailCopied c)
    (hopen : openWriter crc s.disk.walNew s.engine.seq = .ok (w, file))
    (hintact : (s.rename crc).Intact crc J) : s.InStep crc := by
  have hroom := h.holds.room
  have hack := h.ack_le
  have hstage := h.stage
  rw [hst] at hstage
  obtain ⟨hc, hnew⟩ := hstage
  have hfile := openWriter_frames crc (h.holds.readable sn) (linked_recsFrom sn L) h.holds.torn
    s.engine.seq
  rw [← hnew, hopen] at hfile
  rcases hfile with ⟨-, err, hfile⟩ | hfile
  · cases hfile
  · simp only [ok.injEq, Prod.mk.injEq] at hfile
    obtain ⟨rfl, rfl⟩ := hfile
    obtain ⟨recs, tail, hwal, hrecs, htail, -, hnext⟩ := hintact.numbered
    simp only [Sys.rename, hst, hopen, Option.some.injEq] at hwal hnext
    have hunique := (walCode crc).encAll_unique (walCode crc).dec_nil htail
      (h.holds.readable sn) hrecs (by rw [append_nil]; exact hwal)
    have hseq := hnext rfl
    rw [← hunique.1, hc.seq, lastSeqFrom_recsFrom h.holds.sn_le, h.seq] at hseq
    apply h.ack_eq_of_inStep.mpr
    exact (ofNat_inj (by omega) hroom).mp ((UInt64.add_left_inj 1).mp hseq)

end Intact

section Runs
variable {D : Type} [Hnsw.Dist D] (crc : Bytes → UInt32) (J : Codec)

open EventRun

/-- Along a run from an empty directory, with appends that may fail at any byte, the log is intact in
every state reached exactly when every rotation is in step. -/
theorem log_intact_iff_rotations_in_step (cfg : Config D) (workers : Workers) (rng : ℕ → ℕ)
    (e : Engine D) (disk : Disk) (evs : List Event)
    (hopen : openEngine crc J cfg workers rng Disk.empty = .ok (e, disk))
    (hadm : Along (Sys.step crc J) (Sys.Admits J cfg) ⟨disk, e, .idle⟩ evs) :
    (⟨disk, e, .idle⟩ : Sys D).Intact crc J ∧
      (Along (Sys.step crc J) (fun s ev => ∀ s', s.step crc J ev = .ok s' → s'.Intact crc J)
          ⟨disk, e, .idle⟩ evs ↔
        Along (Sys.step crc J) (Sys.RotatesInStep crc) ⟨disk, e, .idle⟩ evs) := by
  have hempty := (logInv_empty hopen).1
  refine ⟨hempty.intact, along_good_iff
    (I := fun s => ∃ L w0 sn ack T, LogInv crc J cfg s L w0 sn ack T) ?_ ?_
    ⟨_, _, _, _, _, hempty⟩ hadm⟩
  · rintro s ev s' ⟨L, w0, sn, ack, T, h⟩ hP hQ hstep
    obtain ⟨L', w0', sn', ack', T', h'⟩ := h.step hP hQ hstep
    exact ⟨⟨L', w0', sn', ack', T', h'⟩, h'.intact⟩
  · rintro s ev ⟨L, w0, sn, ack, T, h⟩ hP hgood
    cases ev with
    | rename =>
      intro c w file hst hwriter
      exact h.inStep_of_intact hst hwriter (hgood _ rfl)
    | _ => trivial

end Runs

section Counterexample

open EventRun

noncomputable def freshEngine : Engine Exact :=
  ⟨line, new line fun _ => 0, ⟨1, false, false⟩, 0, 0, ∅, ∅⟩

def one : Workers := ⟨1, Nat.one_pos⟩

def firstInsert : Change := .insert 1 [0] ∅

def secondInsert : Change := .insert 2 [0] ∅

/-- A snapshot whose capture is followed by an insert that is written but not synced, and an insert
after it. -/
def failedSyncRun : List Event :=
  [.capture one fun _ => 0, .commit one [firstInsert] .syncFails, .replaceMetadata, .replaceSnapshot,
    .copyTail, .rename, .commit one [secondInsert] .ok]

theorem load_freshEngine (rng : ℕ → ℕ) (seq : UInt64) :
    load line rng (some (save freshEngine.graph seq)) = .ok (freshEngine.graph.reseed rng, seq) := by
  apply load_save (Graph.new_wf line _) (by simp [Graph.Leveled, new]) rfl rfl
  · decide
  · decide
  · exact Nat.two_pow_pos 32
  · exact fun _ => rfl

theorem insert_readable (id : UInt64) : ((Change.insert id [0] ∅).record anyCodec).Readable := by
  refine ⟨.inl rfl, ?_⟩
  rw [frameLen_eq]
  change 29 + 4 * 1 + 0 ≤ maxRecordLen
  decide

theorem insert_loggable (id : UInt64) {s : Sys Exact} (hseq : s.engine.seq.toNat < 2) :
    s.Loggable anyCodec line [.insert id [0] ∅] := by
  refine ⟨forall_mem_singleton.mpr ⟨rfl, insert_readable id⟩, ?_⟩
  rw [length_singleton]
  omega

variable (crc : Bytes → UInt32)

theorem freshEngine_eq_open : openEngine crc anyCodec line one (fun _ => 0) Disk.empty =
    .ok (freshEngine, ⟨none, none, some [], none⟩) := rfl

/-- A snapshot is captured, an insert is written but its sync fails, and the snapshot is finished: the
next insert gets the same number, and the directory no longer opens. -/
theorem failed_sync_then_rotation_repeats_number :
    ∃ s : Sys Exact, openEngine crc32ChecksumIEEE anyCodec line one (fun _ => 0) Disk.empty =
        .ok (freshEngine, ⟨none, none, some [], none⟩) ∧
      Along (Sys.step crc32ChecksumIEEE anyCodec) (Sys.Admits anyCodec line)
        ⟨⟨none, none, some [], none⟩, freshEngine, .idle⟩ failedSyncRun ∧
      run (Sys.step crc32ChecksumIEEE anyCodec) ⟨⟨none, none, some [], none⟩, freshEngine, .idle⟩
        failedSyncRun = .ok s ∧
      s.disk.wal = some ((walCode crc32ChecksumIEEE).encAll
        [firstInsert.logged anyCodec 1, secondInsert.logged anyCodec 1]) ∧
      openEngine crc32ChecksumIEEE anyCodec line one (fun _ => 0) s.disk =
        .error (.wal (.invalidSequence 1 1)) := by
  rw [exists_and_left, exists_and_left]
  exact ⟨freshEngine_eq_open _, by decide +kernel, by decide +kernel⟩

theorem torn_insert_stays_intact : Along (Sys.step crc32ChecksumIEEE anyCodec)
      (fun s ev => ∀ s', s.step crc32ChecksumIEEE anyCodec ev = .ok s' →
        s'.Intact crc32ChecksumIEEE anyCodec)
      ⟨⟨none, none, some [], none⟩, freshEngine, .idle⟩
      [.commit one [firstInsert] (.writeFails 7), .capture one fun _ => 0] := by
  have hadm : Along (Sys.step crc32ChecksumIEEE anyCodec) (Sys.Admits anyCodec line)
      ⟨⟨none, none, some [], none⟩, freshEngine, .idle⟩
      [.commit one [firstInsert] (.writeFails 7), .capture one fun _ => 0] :=
    ⟨⟨by simp, insert_loggable 1 (by decide)⟩, fun _ _ => ⟨trivial, fun _ _ => trivial⟩⟩
  apply (log_intact_iff_rotations_in_step crc32ChecksumIEEE anyCodec line one (fun _ => 0) freshEngine
    _ _ (freshEngine_eq_open _) hadm).2.mpr
  exact ⟨trivial, fun _ _ => ⟨trivial, fun _ _ => trivial⟩⟩

end Counterexample

end NuclaDB
