import NuclaDB.EngineSystem
import NuclaDB.SegmentLoad

/-!
# The log and the history behind it

`LogInv` says how the files, the writer and the engine's numbers hang together. Its history
is every change whose frame was ever complete in the log.
-/

namespace NuclaDB

open LittleEndian Hnsw KeyedLog Wal List Change Writer

section Records
variable (J : Codec)

def recsFrom (i : ℕ) (L : List Change) : List Record :=
  assignSeqs (UInt64.ofNat i + 1) ((L.drop i).map (record J))

variable {J} {L cs : List Change} {i k : ℕ}

theorem recsFrom_append (hi : i ≤ L.length) (cs : List Change) :
    recsFrom J i (L ++ cs) = recsFrom J i L ++
      assignSeqs (UInt64.ofNat L.length + 1) (cs.map (record J)) := by
  have hseq : UInt64.ofNat i + 1 + UInt64.ofNat (L.length - i) = UInt64.ofNat L.length + 1 := by
    rw [UInt64.add_assoc, UInt64.add_comm 1, ← UInt64.add_assoc, ← UInt64.ofNat_add]
    congr 2
    omega
  rw [recsFrom, recsFrom, drop_append_of_le_length hi, map_append,
    assignSeqs_append, length_map, length_drop, hseq]

theorem recsFrom_split (hik : i ≤ k) (hk : k ≤ L.length) :
    recsFrom J i L = recsFrom J i (L.take k) ++ recsFrom J k L := by
  have hlen : (L.take k).length = k := by simpa using hk
  have happend := recsFrom_append (J := J) (i := i) (hik.trans hlen.ge) (L.drop k)
  rwa [take_append_drop, hlen] at happend

theorem recsFrom_eq_nil (hi : L.length ≤ i) : recsFrom J i L = [] := by
  rw [recsFrom, drop_of_length_le hi]
  rfl

theorem seq_of_mem_recsFrom (hroom : L.length < 2 ^ 64) (hi : i ≤ L.length) {r : Record}
    (hr : r ∈ recsFrom J i L) : i < r.seq.toNat ∧ r.seq.toNat ≤ L.length := by
  have hnat : (UInt64.ofNat i).toNat = i := toNat_ofNat (by omega)
  have hseq := seq_of_mem_assignSeqs (by
    rw [hnat, length_map, length_drop]
    omega) hr
  rw [hnat, length_map, length_drop] at hseq
  omega

theorem lastSeqFrom_recsFrom (hi : i ≤ L.length) :
    lastSeqFrom (UInt64.ofNat i) (recsFrom J i L) = UInt64.ofNat L.length := by
  rw [recsFrom, lastSeqFrom_assignSeqs, length_map, length_drop, ← UInt64.ofNat_add]
  congr 1
  omega

theorem recsFrom_ne_nil (hi : i < L.length) : recsFrom J i L ≠ [] := by
  intro hnil
  have hlen := congrArg List.length hnil
  rw [recsFrom, assignSeqs_length, length_map, length_drop] at hlen
  simp only [length_nil] at hlen
  omega

theorem linked_recsFrom (i : ℕ) (L : List Change) : Linked 0 (recsFrom J i L) :=
  linked_zero_assignSeqs _ _

theorem readable_recsFrom (hL : ∀ c ∈ L, (c.record J).Readable) (i : ℕ) :
    ∀ r ∈ recsFrom J i L, r.Readable := by
  apply readable_assignSeqs
  simp only [forall_mem_map]
  intro c hc
  exact hL c (mem_of_mem_drop hc)

theorem torn_history (crc : Bytes → UInt32) (hcs : ∀ c ∈ cs, (c.record J).Readable) {n : UInt64}
    {p : Bytes} (hp : p <+: (walCode crc).encAll (assignSeqs n (cs.map (record J)))) :
    ∃ j T, p = (walCode crc).encAll
        (assignSeqs n ((cs.take j).map (record J))) ++ T ∧
      frameAt crc T = none := by
  obtain ⟨j, T, hp, hT⟩ := torn_assignSeqs crc (forall_mem_map.mpr hcs) hp
  rw [← map_take] at hp
  exact ⟨j, T, hp, hT⟩

end Records

section Invariant
variable {D : Type} (crc : Bytes → UInt32) (J : Codec)

def SnapAt [Hnsw.Dist D] (cfg : Config D) (snapshot : Option Bytes) (sn : ℕ) : Prop :=
  ∀ rng g seq, Segment.load cfg rng snapshot = .ok (g, seq) → seq = UInt64.ofNat sn

structure Capture.At (c : Capture D) (L : List Change) (w0 i : ℕ) : Prop where
  seq : c.seq = UInt64.ofNat i
  walOffset : c.walOffset = ((walCode crc).encAll (recsFrom J w0 (L.take i))).length

def Stage.At (L : List Change) (w0 sn ack : ℕ) (T : Bytes) (walNew : Option Bytes) : Stage D → Prop
  | .idle => True
  | .captured c => ∃ i, sn ≤ i ∧ i ≤ ack ∧ c.At crc J L w0 i
  | .metadataWritten c => ∃ i, sn ≤ i ∧ i ≤ ack ∧ c.At crc J L w0 i
  | .snapshotWritten c => c.At crc J L w0 sn
  | .tailCopied c => c.At crc J L w0 sn ∧ walNew = some ((walCode crc).encAll (recsFrom J sn L) ++ T)

/-- The files hold a history: the log from `w0` on and then the torn bytes `T`, and a snapshot of the
first `sn` changes. -/
structure Disk.Holds [Hnsw.Dist D] (cfg : Config D) (disk : Disk) (L : List Change) (w0 sn : ℕ)
    (T : Bytes) : Prop where
  valid : ∀ c ∈ L, c.Valid cfg.dim ∧ (c.record J).Readable
  room : L.length < 2 ^ 64
  w0_le : w0 ≤ sn
  sn_le : sn ≤ L.length
  wal : disk.wal = some ((walCode crc).encAll (recsFrom J w0 L) ++ T)
  torn : frameAt crc T = none
  snapshot : SnapAt cfg disk.snapshot sn

/-- The engine counts the first `ack` changes of the history that its files hold. -/
structure LogInv [Hnsw.Dist D] (cfg : Config D) (s : Sys D) (L : List Change) (w0 sn ack : ℕ)
    (T : Bytes) : Prop where
  kept : s.engine.Kept cfg
  holds : s.disk.Holds crc J cfg L w0 sn T
  sn_le : sn ≤ ack
  ack_le : ack ≤ L.length
  seq : s.engine.seq = UInt64.ofNat ack
  ready : s.engine.w.readyLocked = .ok () → T = [] ∧ ack = L.length
  snapshotSeq : ∃ j, w0 ≤ j ∧ j ≤ sn ∧ s.engine.snapshotSeq = UInt64.ofNat j
  stage : s.stage.At crc J L w0 sn ack T s.disk.walNew

end Invariant

def Sys.Loggable {D : Type} (J : Codec) (cfg : Config D) (s : Sys D) (cs : List Change) : Prop :=
  (∀ c ∈ cs, c.Valid cfg.dim ∧ (c.record J).Readable) ∧ s.engine.seq.toNat + cs.length < 2 ^ 64

instance (J : Codec) (cfg : Config D) (s : Sys D) (cs : List Change) : Decidable (s.Loggable J cfg cs) :=
  inferInstanceAs (Decidable (_ ∧ _))

/-- The number of the last complete frame of the log is the one the engine counts, if there is one. -/
def Sys.InStep {D : Type} (crc : Bytes → UInt32) (s : Sys D) : Prop :=
  (recover crc deliver s.disk.wal []).lastSeq = 0 ∨
    (recover crc deliver s.disk.wal []).lastSeq = s.engine.seq

theorem getLastD_map_seq {rs : List Record} (hne : rs ≠ []) (a b : UInt64) :
    (rs.map Record.seq).getLastD a = lastSeqFrom b rs := by
  induction rs generalizing a b with
  | nil => exact absurd rfl hne
  | cons r rs ih =>
    cases rs with
    | nil => rfl
    | cons r' rs => exact ih (by simp) r.seq r.seq

theorem Disk.Holds.readable {D : Type} [Hnsw.Dist D] {crc : Bytes → UInt32} {J : Codec} {cfg : Config D}
    {disk : Disk} {L : List Change} {w0 sn : ℕ} {T : Bytes} (h : disk.Holds crc J cfg L w0 sn T)
    (i : ℕ) : ∀ r ∈ recsFrom J i L, r.Readable :=
  readable_recsFrom (fun c hc => (h.valid c hc).2) i

section Steps
variable {D : Type} [Hnsw.Dist D] {crc : Bytes → UInt32} {J : Codec} {cfg : Config D} {s : Sys D}
  {L : List Change} {w0 sn ack : ℕ} {T : Bytes}

theorem Sys.capture_wal (s : Sys D) (J : Codec) (workers : Workers) (rng : ℕ → ℕ) :
    (s.capture J workers rng).wal = s.wal := by
  simp only [Sys.capture]
  split
  · split
    · rfl
    · split <;> rfl
  · rfl

omit [Hnsw.Dist D] in
theorem Sys.rename_readyLocked (crc : Bytes → UInt32) (h : s.engine.w.readyLocked = .ok ()) :
    (s.rename crc).engine.w.readyLocked = .ok () := by
  simp only [Sys.rename]
  split
  · split
    · exact h
    · next w file hopen =>
      simp only [openWriter] at hopen
      split at hopen
      · cases hopen
      · simp only [Except.ok.injEq] at hopen
        have hw : w = ⟨s.engine.seq + 1, false, false⟩ := congrArg Prod.fst hopen.symm
        rw [hw]
        rfl
  · exact h

omit [Hnsw.Dist D] in
theorem Capture.At.append {c : Capture D} {i : ℕ} (hc : c.At crc J L w0 i) (hi : i ≤ L.length)
    (ds : List Change) : c.At crc J (L ++ ds) w0 i := by
  refine ⟨hc.seq, ?_⟩
  rw [take_append_of_le_length hi]
  exact hc.walOffset

namespace LogInv

section
variable (h : LogInv crc J cfg s L w0 sn ack T)
include h

theorem wal_eq : s.wal = (walCode crc).encAll (recsFrom J w0 L) ++ T := by
  simp [Sys.wal, h.holds.wal]

theorem grow (hlocked : s.locked = false) {e : Engine D}
    {file T' : Bytes} {ds : List Change} {ack' : ℕ} (hkept : e.Kept cfg)
    (hds : ∀ c ∈ ds, c.Valid cfg.dim ∧ (c.record J).Readable) (hroom : (L ++ ds).length < 2 ^ 64)
    (hfile : file = (walCode crc).encAll (recsFrom J w0 (L ++ ds)) ++ T')
    (htorn : frameAt crc T' = none) (hseq : e.seq = UInt64.ofNat ack') (hack : ack ≤ ack')
    (hle : ack' ≤ (L ++ ds).length)
    (hready : e.w.readyLocked = .ok () → T' = [] ∧ ack' = (L ++ ds).length)
    (hsnap : e.snapshotSeq = s.engine.snapshotSeq) :
    LogInv crc J cfg { s with disk := { s.disk with wal := some file }, engine := e } (L ++ ds) w0 sn
      ack' T' := by
  have hsn := h.sn_le
  have hackL := h.ack_le
  refine ⟨hkept, ⟨forall_mem_append.mpr ⟨h.holds.valid, hds⟩, hroom, h.holds.w0_le,
    h.sn_le.trans (hack.trans hle), congrArg some hfile, htorn, h.holds.snapshot⟩,
    h.sn_le.trans hack, hle, hseq, hready, hsnap ▸ h.snapshotSeq, ?_⟩
  have hstage := h.stage
  simp only [Sys.locked] at hlocked
  cases hst : s.stage with
  | idle => trivial
  | captured c | metadataWritten c =>
    rw [hst] at hstage
    obtain ⟨i, hsn, hi, hc⟩ := hstage
    exact ⟨i, hsn, hi.trans hack, hc.append (by omega) ds⟩
  | snapshotWritten c =>
    rw [hst] at hstage
    exact Capture.At.append hstage (by omega) ds
  | tailCopied c => simp [hst] at hlocked

theorem toNat_seq : s.engine.seq.toNat = ack := by
  have hroom := h.holds.room
  have hle := h.ack_le
  rw [h.seq]
  exact toNat_ofNat (by omega)

theorem commit_logged (hlocked : s.locked = false)
    (hready : s.engine.w.readyLocked = .ok ()) {cs : List Change} (hne : cs ≠ [])
    (hcs : s.Loggable J cfg cs) (workers : Workers) {io : Wal.Outcome} {w : Writer}
    {file : Bytes} {seqs : List UInt64}
    (hlog : s.engine.w.appendBatch crc io s.wal (cs.map (record J)) = (w, file, .ok seqs)) :
    LogInv crc J cfg (s.commit crc J workers cs io) (L ++ cs) w0 sn (L ++ cs).length [] ∧
      (s.commit crc J workers cs io).engine.contents =
        applyAll s.engine.contents (cs.map (stored cfg.prep)) ∧
      (s.commit crc J workers cs io).engine.w.readyLocked = .ok () := by
  obtain ⟨hT, hack⟩ := h.ready hready
  obtain ⟨hvalid, hroom⟩ := hcs
  have hw0 := h.holds.w0_le.trans (h.sn_le.trans h.ack_le)
  have hnext := h.kept.next hready
  rw [h.toNat_seq] at hroom
  rw [h.seq, hack] at hnext
  obtain ⟨e, hcommit, hkept, hcontents, hw, hsnap, hseq⟩ := h.kept.commit_logged workers hne
    (fun c hc => (hvalid c hc).1) hlog
  obtain ⟨rfl, rfl, rfl⟩ := appendBatch_ok crc hlog
  rw [hnext] at hseq hcommit
  have hlast : e.seq = UInt64.ofNat (L ++ cs).length := by
    have hadv := lastSeqFrom_assignSeqs (UInt64.ofNat L.length) (cs.map (record J))
    have hne' : assignSeqs (UInt64.ofNat L.length + 1) (cs.map (record J)) ≠ [] := by
      rw [← length_pos_iff, assignSeqs_length, length_map]
      exact length_pos_iff.mpr hne
    rw [hseq, getLastD_map_seq hne' _ (UInt64.ofNat L.length), hadv, length_map,
      length_append, UInt64.ofNat_add]
  have hstate : s.commit crc J workers cs io = Sys.mk ⟨s.disk.snapshot, s.disk.metadata,
      some (s.wal ++ (walCode crc).encAll (assignSeqs (UInt64.ofNat L.length + 1)
        (cs.map (record J)))), s.disk.walNew⟩ e s.stage := by
    simp only [Sys.commit, hlocked, Bool.false_eq_true, if_false, hcommit]
  rw [hstate]
  refine ⟨h.grow hlocked hkept hvalid ?_ ?_ (walCode crc).dec_nil hlast ?_ le_rfl
    (fun _ => ⟨rfl, rfl⟩) hsnap, hcontents, ?_⟩
  · rw [length_append]
    omega
  · rw [h.wal_eq, hT, append_nil, append_nil, recsFrom_append hw0, FrameCode.encAll_append]
  · rw [length_append]
    omega
  · rw [hw]
    exact hready

theorem commit {cs : List Change} (hne : cs ≠ [])
    (hcs : s.Loggable J cfg cs) (workers : Workers) (io : Wal.Outcome) :
    ∃ ds ack' T', LogInv crc J cfg (s.commit crc J workers cs io) (L ++ ds) w0 sn ack' T' := by
  have hne' : cs.map (record J) ≠ [] := by simpa using hne
  have hw0 := h.holds.w0_le.trans (h.sn_le.trans h.ack_le)
  cases hlocked : s.locked with
  | true =>
    simp only [Sys.commit, hlocked, if_true]
    exact ⟨[], ack, T, by rwa [append_nil]⟩
  | false =>
    cases hready : s.engine.w.readyLocked with
    | error err =>
      refine ⟨[], ack, T, ?_⟩
      simp only [Sys.commit, hlocked, Bool.false_eq_true, if_false, Engine.commit,
        Engine.commitLocked, appendBatch_refused crc hready io s.wal hne']
      apply h.grow hlocked (h.kept.of_writer h.kept.next) (by simp) (by simpa using h.holds.room) _ h.holds.torn
        h.seq le_rfl (by simpa using h.ack_le) (by simpa using h.ready) rfl
      rw [append_nil, h.wal_eq]
    | ok u =>
      rcases appendBatch_cases crc hready io s.wal hne' with hlog | ⟨p, hp, hlog⟩
      · exact ⟨cs, _, [], (h.commit_logged hlocked hready hne hcs workers hlog).1⟩
      · obtain ⟨hT, hack⟩ := h.ready hready
        obtain ⟨hvalid, hroom⟩ := hcs
        rw [h.toNat_seq] at hroom
        rw [h.kept.next hready, h.seq, hack] at hp
        obtain ⟨j, T', hfile, htorn⟩ := torn_history crc (fun c hc => (hvalid c hc).2) hp
        have hnot : s.engine.w.failLocked.readyLocked ≠ .ok () := by
          simp [failLocked, readyLocked]
        have hlen := length_take_le' j cs
        refine ⟨cs.take j, ack, T', ?_⟩
        simp only [Sys.commit, hlocked, Bool.false_eq_true, if_false, Engine.commit,
          Engine.commitLocked, hlog]
        apply h.grow hlocked (h.kept.of_writer fun hr => absurd hr hnot)
          (fun c hc => hvalid c (mem_of_mem_take hc)) _ _ htorn h.seq le_rfl _
          (fun hr => absurd hr hnot) rfl
        · rw [length_append]
          omega
        · rw [h.wal_eq, hT, append_nil, hfile, recsFrom_append hw0, FrameCode.encAll_append,
            append_assoc]
        · rw [length_append]
          omega

theorem of_stage {e : Engine D} {stage : Stage D}
    (hkept : e.Kept cfg) (hw : e.w = s.engine.w) (hseq : e.seq = s.engine.seq)
    (hsnap : e.snapshotSeq = s.engine.snapshotSeq)
    (hstage : stage.At crc J L w0 sn ack T s.disk.walNew) :
    LogInv crc J cfg ⟨s.disk, e, stage⟩ L w0 sn ack T :=
  ⟨hkept, h.holds, h.sn_le, h.ack_le, hseq.trans h.seq, hw ▸ h.ready, hsnap ▸ h.snapshotSeq, hstage⟩

theorem capture (workers : Workers) (rng : ℕ → ℕ) :
    LogInv crc J cfg (s.capture J workers rng) L w0 sn ack T := by
  simp only [Sys.capture]
  split
  · next hidle =>
    cases hcompact : s.engine.compactLocked workers rng with
    | error err => exact h
    | ok e =>
      obtain ⟨hkept, -, hw, hseq, hsnap⟩ := h.kept.compact hcompact
      cases hready : e.w.readyLocked with
      | error err =>
        simp only [size, hready]
        exact h.of_stage hkept hw hseq hsnap h.stage
      | ok u =>
        obtain ⟨hT, hack⟩ := h.ready (hw ▸ hready)
        simp only [size, hready]
        apply h.of_stage hkept hw hseq hsnap
        refine ⟨ack, h.sn_le, le_rfl, hseq.trans h.seq, ?_⟩
        simp only [h.wal_eq, hT, append_nil, hack, take_length]
  · exact h

theorem capture_writer (workers : Workers) (rng : ℕ → ℕ) :
    (s.capture J workers rng).engine.w = s.engine.w := by
  simp only [Sys.capture]
  split
  · cases hcompact : s.engine.compactLocked workers rng with
    | error err => rfl
    | ok e =>
      obtain ⟨-, -, hw, -⟩ := h.kept.compact hcompact
      dsimp only
      split <;> exact hw
  · rfl

theorem replaceMetadata : LogInv crc J cfg s.replaceMetadata L w0 sn ack T := by
  have hstage := h.stage
  simp only [Sys.replaceMetadata]
  split
  · next c hst =>
    rw [hst] at hstage
    obtain ⟨hvalid, hroom, hw0, hsn, hwal, htorn, hsnap⟩ := h.holds
    exact ⟨h.kept, ⟨hvalid, hroom, hw0, hsn, hwal, htorn, hsnap⟩, h.sn_le, h.ack_le, h.seq, h.ready,
      h.snapshotSeq, hstage⟩
  · exact h

theorem replaceSnapshot : ∃ sn', LogInv crc J cfg s.replaceSnapshot L w0 sn' ack T ∧
      (∀ c, s.stage = .metadataWritten c → c.At crc J L w0 sn') := by
  have hstage := h.stage
  simp only [Sys.replaceSnapshot]
  split
  · next c hst =>
    rw [hst] at hstage
    obtain ⟨i, hsn, hi, hc⟩ := hstage
    obtain ⟨j, hwj, hj, hsnap⟩ := h.snapshotSeq
    refine ⟨i, ⟨h.kept, ⟨h.holds.valid, h.holds.room, h.holds.w0_le.trans hsn, hi.trans h.ack_le,
      h.holds.wal, h.holds.torn, ?_⟩, hi, h.ack_le, h.seq, h.ready, ⟨j, hwj, hj.trans hsn, hsnap⟩,
      hc⟩, ?_⟩
    · intro rng g seq hload
      rw [Segment.seq_of_load hload, hc.seq]
    · rintro c' hst'
      cases hst.symm.trans hst'
      exact hc
  · next hno => exact ⟨sn, h, fun c hst => absurd hst (hno c)⟩

theorem copyTail : LogInv crc J cfg s.copyTail L w0 sn ack T := by
  have hstage := h.stage
  simp only [Sys.copyTail]
  split
  · next c hst =>
    rw [hst] at hstage
    have hc : c.At crc J L w0 sn := hstage
    obtain ⟨hvalid, hroom, hw0, hsn, hwal, htorn, hsnap⟩ := h.holds
    refine ⟨h.kept, ⟨hvalid, hroom, hw0, hsn, hwal, htorn, hsnap⟩, h.sn_le, h.ack_le, h.seq, h.ready,
      h.snapshotSeq, hc, ?_⟩
    rw [hc.walOffset, h.wal_eq, recsFrom_split h.holds.w0_le (h.sn_le.trans h.ack_le),
      FrameCode.encAll_append, append_assoc, drop_left' rfl]
  · exact h

theorem ack_eq_of_inStep : s.InStep crc ↔ ack = L.length := by
  have hroom := h.holds.room
  have hack := h.ack_le
  have hw0 := h.holds.w0_le.trans h.sn_le
  obtain ⟨-, hlast, -⟩ := recover_frames crc deliver (h.holds.readable w0) (linked_recsFrom w0 L)
    h.holds.torn (foldlM_ok (fun rs r => rs ++ [r]) _ [])
  simp only [Sys.InStep, h.holds.wal, hlast, h.seq]
  by_cases hlt : w0 < L.length
  · rw [lastSeqFrom_of_ne_nil (recsFrom_ne_nil hlt) 0 (UInt64.ofNat w0),
      lastSeqFrom_recsFrom hlt.le, ofNat_inj hroom (by omega)]
    have hpos : ¬ UInt64.ofNat L.length = 0 := by
      rw [show (0 : UInt64) = UInt64.ofNat 0 from rfl, ofNat_inj hroom (by omega)]
      omega
    constructor
    · rintro (h0 | heq)
      · exact absurd h0 hpos
      · omega
    · intro heq
      exact .inr heq.symm
  · rw [recsFrom_eq_nil (by omega)]
    exact iff_of_true (.inl rfl) (by omega)

theorem rename (hstep : ∀ c w file, s.stage = .tailCopied c →
      openWriter crc s.disk.walNew s.engine.seq = .ok (w, file) → s.InStep crc) :
    ∃ w0' T', LogInv crc J cfg (s.rename crc) L w0' sn ack T' := by
  have hstage := h.stage
  simp only [Sys.rename]
  split
  · next c hst =>
    rw [hst] at hstage
    obtain ⟨hc, hnew⟩ := hstage
    have hopen := openWriter_frames crc (h.holds.readable sn) (linked_recsFrom sn L) h.holds.torn
      s.engine.seq
    rw [← hnew] at hopen
    rcases hopen with ⟨-, err, hopen⟩ | hopen
    · rw [hopen]
      exact ⟨w0, T, h.of_stage h.kept rfl rfl rfl trivial⟩
    · have hack := h.ack_eq_of_inStep.mp (hstep c _ _ hst hopen)
      rw [hopen]
      refine ⟨sn, [], h.kept.of_writer fun _ => rfl, ⟨h.holds.valid, h.holds.room, le_rfl,
        h.holds.sn_le, ?_, (walCode crc).dec_nil, h.holds.snapshot⟩, h.sn_le, h.ack_le, h.seq,
        fun _ => ⟨rfl, hack⟩, ⟨sn, le_rfl, le_rfl, hc.seq⟩, trivial⟩
      rw [append_nil]
  · exact ⟨w0, T, h⟩

end

end LogInv

end Steps

section Opening
variable {D : Type} [Hnsw.Dist D] {crc : Bytes → UInt32} {J : Codec} {cfg : Config D} {disk : Disk}
  {L : List Change} {w0 sn : ℕ} {T : Bytes} {rng : ℕ → ℕ}

namespace Disk.Holds

theorem old_le (h : disk.Holds crc J cfg L w0 sn T) :
    ∀ r ∈ recsFrom J w0 (L.take sn), r.seq ≤ UInt64.ofNat sn := by
  intro r hr
  have hroom := h.room
  have hsn := h.sn_le
  have hw0 := h.w0_le
  have hlen : (L.take sn).length = sn := by simpa using hsn
  have hseq := seq_of_mem_recsFrom (by omega) (by omega) hr
  rw [UInt64.le_iff_toNat_le, toNat_ofNat (by omega)]
  omega

theorem replayed (h : disk.Holds crc J cfg L w0 sn T) {g : Graph D} {metadata : Metadata} (hw : g.WF)
    (hset : ∀ r, g.settings = (new cfg r).settings) (start : Contents)
    (hget : g.get = fun id => (start id).map (·.1))
    (hmeta : ∀ id, (∀ c ∈ L.drop sn, c.id ≠ id) → ∀ p, start id = some p → metaAt metadata id = p.2)
    (workers : Workers) :
    ∃ e, openFrom J cfg workers g (UInt64.ofNat sn) metadata (recsFrom J w0 L) = .ok e ∧
      e.Kept cfg ∧ e.contents = applyAll start ((L.drop sn).map (stored cfg.prep)) ∧
      e.seq = UInt64.ofNat L.length ∧ e.w = ⟨e.seq + 1, false, false⟩ ∧
      e.snapshotSeq = UInt64.ofNat sn := by
  have hroom := h.room
  have hsn := h.sn_le
  have hprep : g.prep = cfg.prep := Graph.prep_of_settings (hset _)
  have hdim : g.cfg.dim = cfg.dim := congrArg (·.1.dim) (hset fun _ => 0)
  have hcs : ∀ c ∈ L.drop sn, c.Valid cfg.dim := fun c hc => (h.valid c (mem_of_mem_drop hc)).1
  obtain ⟨e, hopen, hs, hcontents, hcfg, hset', hseq, hwriter, hsnap⟩ := openFrom_spec J cfg workers
    start metadata (UInt64.ofNat sn) (recsFrom J w0 (L.take sn)) (L.drop sn) hw hdim hget hmeta
    h.old_le hcs (by
      rw [toNat_ofNat (by omega), length_drop]
      omega)
  rw [show assignSeqs (UInt64.ofNat sn + 1) ((L.drop sn).map (record J)) =
    recsFrom J sn L from rfl, ← recsFrom_split h.w0_le h.sn_le] at hopen
  rw [hprep] at hcontents
  refine ⟨e, hopen, ⟨hs, hcfg, fun r => hset'.trans (hset r), fun _ => by rw [hwriter]⟩, hcontents, ?_,
    hwriter, hsnap⟩
  rw [hseq, length_drop, ← UInt64.ofNat_add]
  congr 1
  omega

end Disk.Holds

theorem Disk.Holds.logInv (h : disk.Holds crc J cfg L w0 sn T) {e : Engine D} (hkept : e.Kept cfg)
    (hseq : e.seq = UInt64.ofNat L.length) (hsnap : e.snapshotSeq = UInt64.ofNat sn) :
    LogInv crc J cfg ⟨⟨disk.snapshot, disk.metadata,
      some ((walCode crc).encAll (recsFrom J w0 L)), disk.walNew⟩, e, .idle⟩ L w0 sn L.length [] :=
  ⟨hkept, ⟨h.valid, h.room, h.w0_le, h.sn_le, congrArg some (append_nil _).symm,
    (walCode crc).dec_nil, h.snapshot⟩, h.sn_le, le_rfl, hseq, fun _ => ⟨rfl, rfl⟩,
    ⟨sn, h.w0_le, le_rfl, hsnap⟩, trivial⟩

theorem LogInv.crashed {s : Sys D} {ack : ℕ} (h : LogInv crc J cfg s L w0 sn ack T)
    {cs : List Change} (hcs : s.Loggable J cfg cs) (n : ℕ) :
    ∃ j T', (s.crashed crc J cs n).Holds crc J cfg (L ++ cs.take j) w0 sn T' ∧
      (s.crashed crc J cs n).snapshot = s.disk.snapshot ∧
      (s.crashed crc J cs n).metadata = s.disk.metadata := by
  have hnone : s.disk.Holds crc J cfg (L ++ cs.take 0) w0 sn T := by
    rw [take_zero, append_nil]
    exact h.holds
  simp only [Sys.crashed]
  split
  · next _ _ hlocked hready =>
    obtain ⟨hT, hack⟩ := h.ready hready
    obtain ⟨hvalid, hroom⟩ := hcs
    have hw0 := h.holds.w0_le.trans (h.sn_le.trans h.ack_le)
    rw [h.toNat_seq] at hroom
    have hp := take_prefix n ((walCode crc).encAll
      (assignSeqs (UInt64.ofNat L.length + 1) (cs.map (record J))))
    obtain ⟨j, T', hfile, htorn⟩ := torn_history crc (fun c hc => (hvalid c hc).2) hp
    have hlen := length_take_le' j cs
    have hsn := h.sn_le
    refine ⟨j, T', ⟨?_, ?_, h.holds.w0_le, ?_, ?_, htorn, h.holds.snapshot⟩, rfl, rfl⟩
    · exact forall_mem_append.mpr ⟨h.holds.valid, fun c hc => hvalid c (mem_of_mem_take hc)⟩
    · rw [length_append]
      omega
    · rw [length_append]
      omega
    · rw [h.kept.next hready, h.seq, hack, hfile, h.wal_eq, hT, append_nil, recsFrom_append hw0,
        FrameCode.encAll_append, append_assoc]
  · exact ⟨0, T, hnone, rfl, rfl⟩

theorem LogInv.crash {s : Sys D} {ack : ℕ} (h : LogInv crc J cfg s L w0 sn ack T)
    {cs : List Change} (hcs : s.Loggable J cfg cs) (n : ℕ) {workers : Workers} {e : Engine D}
    (hopen : openEngine crc J cfg workers rng (s.crashed crc J cs n) = .ok (e, disk)) :
    ∃ ds, LogInv crc J cfg ⟨disk, e, .idle⟩ (L ++ ds) w0 sn (L ++ ds).length [] := by
  obtain ⟨j, T', hholds, -, -⟩ := h.crashed hcs n
  have hopen' := hopen
  simp only [openEngine] at hopen'
  cases hload : Segment.load cfg rng (s.crashed crc J cs n).snapshot with
  | error err => simp [hload] at hopen'
  | ok out =>
    obtain ⟨g, seq⟩ := out
    obtain rfl := hholds.snapshot rng g seq hload
    have hset : ∀ r, g.settings = (new cfg r).settings := fun _ =>
      (Segment.load_settings hload).trans rfl
    cases hmeta : loadMetadata J (s.crashed crc J cs n).metadata with
    | none => simp [hload, hmeta] at hopen'
    | some metadata =>
      obtain ⟨e', hfrom, hkept, -, hseq, -, hsnapSeq⟩ := hholds.replayed (Segment.load_wf hload)
        hset (fun id => (g.get id).map fun v => (v, metaAt metadata id))
        (by funext id; simp [Function.comp_def]) (fun id _ p => md_of_map) workers
      have hclean := openEngine_clean hload hmeta hholds.wal (hholds.readable w0)
        (linked_recsFrom w0 _) hholds.torn hfrom hopen
      rw [openEngine_of_frames hload hmeta hholds.wal (hholds.readable w0) (linked_recsFrom w0 _)
        hholds.torn hclean hfrom, Except.ok.injEq, Prod.mk.injEq] at hopen
      obtain ⟨rfl, rfl⟩ := hopen
      exact ⟨cs.take j, hholds.logInv hkept hseq hsnapSeq⟩

theorem logInv_empty {e : Engine D} {workers : Workers}
    (hopen : openEngine crc J cfg workers rng Disk.empty = .ok (e, disk)) :
    LogInv crc J cfg ⟨disk, e, .idle⟩ [] 0 0 0 [] ∧ e.contents = fun _ => none := by
  obtain ⟨e', hopen', hs, hcontents, hcfg, hset, hseq, hw, hsnap⟩ := openEngine_empty crc J cfg
    workers rng
  rw [hopen', Except.ok.injEq, Prod.mk.injEq] at hopen
  obtain ⟨rfl, rfl⟩ := hopen
  refine ⟨⟨⟨hs, hcfg, fun r => hset.trans rfl, fun _ => ?_⟩, ⟨by simp, by simp, le_rfl, le_rfl, rfl,
    (walCode crc).dec_nil, ?_⟩, le_rfl, le_rfl, hseq, fun _ => ⟨rfl, rfl⟩,
    ⟨0, le_rfl, le_rfl, hsnap⟩, trivial⟩, hcontents⟩
  · rw [hw, hseq]
    rfl
  · intro rng g seq hload
    have hnew : (.ok (new cfg rng, 0) : Except Segment.LoadError (Graph D × UInt64)) =
        .ok (g, seq) := hload
    simp only [Except.ok.injEq, Prod.mk.injEq] at hnew
    exact hnew.2.symm

end Opening

end NuclaDB
