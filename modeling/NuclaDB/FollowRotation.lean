import NuclaDB.LeaderFiles
import NuclaDB.LoadSnapshot

/-!
# Following a log across rotations

The reader finds the end of its file, looks at the path and opens the new file in separate
steps, between which a record can get lost to it.
-/

namespace NuclaDB

open LittleEndian Hnsw EventRun Wal List
open Wal (Reader)

structure Following (D : Type) where
  leader : Leader D
  reader : Reader

inductive FollowEvent
  | leader (ev : Event)
  | read
  | stat (answers : Bool)
  | reopen (opens : Bool)

def FollowEvent.changes : FollowEvent → List Change
  | .leader ev => ev.changes
  | _ => []

section Step
variable {D : Type} [Hnsw.Dist D] (crc : Bytes → UInt32) (J : Codec)

namespace Following

def step (s : Following D) : FollowEvent → Except OpenError (Following D)
  | .leader ev =>
    match s.leader.step crc J ev with
    | .error err => .error err
    | .ok l => .ok { s with leader := l }
  | .read => .ok { s with reader := s.reader.read crc (s.leader.file s.reader.fd) }
  | .stat answers => .ok { s with reader := s.reader.stat (if answers then some s.leader.live else none) }
  | .reopen opens => .ok { s with reader := s.reader.reopen (if opens then some s.leader.live else none) }

variable {crc J} in
theorem step_leader {s : Following D} {ev : Event} {l : Leader D} (h : s.leader.step crc J ev = .ok l) :
    s.step crc J (.leader ev) = .ok { s with leader := l } := by
  simp only [step, h]

def Admits (cfg : Config D) (s : Following D) : FollowEvent → Prop
  | .leader ev => s.leader.sys.Leads J cfg ev
  | _ => True

/-- A new file is opened while the leader's snapshot has nothing that the reader has not passed on. -/
def ReopensInTime (s : Following D) : FollowEvent → Prop
  | .reopen true => s.reader.pc = .reopen → s.leader.sys.engine.snapshotSeq ≤ s.reader.fromSeq
  | _ => True

instance (cfg : Config D) (s : Following D) (ev : FollowEvent) : Decidable (s.Admits J cfg ev) := by
  cases ev <;> unfold Admits <;> infer_instance

instance (s : Following D) : DecidablePred s.ReopensInTime
  | .reopen true => inferInstanceAs (Decidable (_ → _))
  | .reopen false => .isTrue trivial
  | .leader _ => .isTrue trivial
  | .read => .isTrue trivial
  | .stat _ => .isTrue trivial

/-- The reader has passed on the first `n` records after number `m` and not gone beyond them. -/
structure InOrder (cfg : Config D) (s : Following D) (L : List Change) (m n : ℕ) : Prop where
  leading : Leading crc J cfg s.leader.sys L
  passed : s.reader.passed = (recsFrom J m L).take n
  n_le : n ≤ (recsFrom J m L).length
  fromSeq : s.reader.fromSeq.toNat = m + n
  reads : ∃ b e q, s.leader.Reads crc J L s.reader b e q ∧ b + q ≤ m + n

end Following

end Step

section Invariant
variable {D : Type} [Hnsw.Dist D] {crc : Bytes → UInt32} {J : Codec} {cfg : Config D} {s : Following D}
  {L : List Change} {m n : ℕ}

namespace Following.InOrder

section
variable (h : s.InOrder crc J cfg L m n)
include h

theorem leader {ev : Event} (hev : s.leader.sys.Leads J cfg ev) : ∃ l, s.leader.step crc J ev = .ok l ∧
      ({ s with leader := l } : Following D).InOrder crc J cfg (L ++ ev.changes) m n := by
  obtain ⟨l, hl, hleading⟩ := Leader.step_leading h.leading hev
  obtain ⟨b, e, q, hreads, hbq⟩ := h.reads
  obtain ⟨e', hreads'⟩ := hreads.step h.leading hev hl
  refine ⟨l, hl, hleading, ?_, ?_, h.fromSeq, b, e', q, hreads', hbq⟩
  · rcases Nat.eq_zero_or_pos n with rfl | hpos
    · simpa using h.passed
    · have hm : m ≤ L.length := by
        by_contra hlt
        have hle := h.n_le
        rw [recsFrom_eq_nil (by omega)] at hle
        exact absurd hle (by simpa using hpos.ne')
      rw [h.passed, recsFrom_append hm, take_append_of_le_length h.n_le]
  · apply h.n_le.trans
    simp only [recsFrom, Writer.assignSeqs_length, length_map, length_drop, length_append]
    omega

theorem read : ∃ n', ({ s with reader := s.reader.read crc (s.leader.file s.reader.fd) } :
      Following D).InOrder crc J cfg L m n' := by
  obtain ⟨b, e, q, hreads, hbq⟩ := h.reads
  rcases hreads.read with ⟨hreads', hpassed, hseq⟩ | ⟨rec, k, hrec, htake, hreads'⟩
  · exact ⟨n, h.leading, hpassed.trans h.passed, h.n_le, (congrArg _ hseq).trans h.fromSeq, b, e, q,
      hreads', hbq⟩
  · have hnum := seq_of_getElem?_recsFrom h.leading.room hrec
    have hfrom := h.fromSeq
    rw [htake] at hreads'
    simp only [htake]
    by_cases hnew : s.reader.fromSeq < rec.seq
    · -- the reader is never ahead of what it has passed on, so this is the next number
      have hlt : s.reader.fromSeq.toNat < rec.seq.toNat := UInt64.lt_iff_toNat_lt.mp hnew
      have heq : b + q = m + n := by omega
      have hlen := (List.getElem?_eq_some_iff.mp hrec).1
      simp only [recsFrom, Writer.assignSeqs_length, List.length_map, List.drop_zero] at hlen
      have hn : (recsFrom J m L)[n]? = some rec := by
        rw [getElem?_recsFrom (by omega), ← heq, hrec]
      refine ⟨n + 1, h.leading, ?_, (List.getElem?_eq_some_iff.mp hn).1, ?_, b, e, q + 1, hreads', ?_⟩
      · simp only [Reader.take, if_pos hnew, h.passed, take_add_one, hn, Option.toList_some]
      · simp only [Reader.take, if_pos hnew]
        omega
      · omega
    · have hle : rec.seq.toNat ≤ s.reader.fromSeq.toNat := by
        rw [UInt64.lt_iff_toNat_lt] at hnew
        omega
      refine ⟨n, h.leading, ?_, h.n_le, ?_, b, e, q + 1, hreads', by omega⟩
      · simpa only [Reader.take, if_neg hnew] using h.passed
      · simpa only [Reader.take, if_neg hnew] using h.fromSeq

theorem stat (answer : Option ℕ) :
    ({ s with reader := s.reader.stat answer } : Following D).InOrder crc J cfg L m n := by
  obtain ⟨b, e, q, hreads, hbq⟩ := h.reads
  obtain ⟨hpassed, hseq⟩ := s.reader.stat_passed answer
  exact ⟨h.leading, hpassed.trans h.passed, h.n_le, (congrArg _ hseq).trans h.fromSeq, b, e, q,
    hreads.stat answer, hbq⟩

theorem reopen {opens : Bool} (htime : s.ReopensInTime (.reopen opens)) :
    ({ s with reader := s.reader.reopen (if opens then some s.leader.live else none) } :
      Following D).InOrder crc J cfg L m n := by
  obtain ⟨b, e, q, hreads, hbq⟩ := h.reads
  cases hpc : s.reader.pc with
  | reopen =>
    cases opens with
    | true =>
      have hsnap : s.leader.sys.engine.snapshotSeq.toNat ≤ m + n := by
        rw [← h.fromSeq]
        exact UInt64.le_iff_toNat_le.mp (htime hpc)
      simp only [Reader.reopen, hpc, if_true]
      obtain ⟨b', hb', hreads'⟩ := Leader.reads_start
        (r := { s.reader with fd := s.leader.live, offset := 0, pc := .header }) h.leading rfl rfl rfl
      exact ⟨h.leading, h.passed, h.n_le, h.fromSeq, b', _, 0, hreads', by omega⟩
    | false =>
      simp only [Reader.reopen, hpc, Bool.false_eq_true, if_false]
      exact ⟨h.leading, h.passed, h.n_le, h.fromSeq, b, e, q, hreads.of_pc rfl rfl nofun, hbq⟩
  | header | payload length wantCRC | stat => simpa only [Reader.reopen, hpc] using h

theorem step {ev : FollowEvent} (hev : s.Admits J cfg ev) (htime : s.ReopensInTime ev) :
    ∃ s', s.step crc J ev = .ok s' ∧ ∃ n', s'.InOrder crc J cfg (L ++ ev.changes) m n' := by
  cases ev with
  | leader ev =>
    obtain ⟨l, hl, h'⟩ := h.leader hev
    exact ⟨_, Following.step_leader hl, n, h'⟩
  | read =>
    obtain ⟨n', h'⟩ := h.read
    exact ⟨_, rfl, n', by simpa [FollowEvent.changes] using h'⟩
  | stat answers => exact ⟨_, rfl, n, by simpa [FollowEvent.changes] using h.stat _⟩
  | reopen opens => exact ⟨_, rfl, n, by simpa [FollowEvent.changes] using h.reopen htime⟩

theorem seq_of_passed {i : ℕ} {rec : Record}
    (hrec : s.reader.passed[i]? = some rec) : rec.seq.toNat = m + i + 1 := by
  rw [h.passed] at hrec
  have hlt := (List.getElem?_eq_some_iff.mp hrec).1
  rw [List.length_take] at hlt
  rw [List.getElem?_take_of_lt (by omega)] at hrec
  have hm : m ≤ L.length := by
    by_contra hgt
    rw [recsFrom_eq_nil (by omega)] at hrec
    cases hrec
  rw [getElem?_recsFrom hm] at hrec
  exact seq_of_getElem?_recsFrom h.leading.room hrec

end

end Following.InOrder

end Invariant

section Runs
variable {D : Type} [Hnsw.Dist D] (crc : Bytes → UInt32) (J : Codec)

theorem leading_of_run {cfg : Config D} {workers : Workers} {rng : ℕ → ℕ} {e : Engine D} {disk : Disk}
    {evs : List Event} (hopen : openEngine crc J cfg workers rng Disk.empty = .ok (e, disk))
    (hevs : Along (Sys.step crc J) (Sys.Leads J cfg) ⟨disk, e, .idle⟩ evs) :
    ∃ s, run (Sys.step crc J) ⟨disk, e, .idle⟩ evs = .ok s ∧
      Leading crc J cfg s (evs.flatMap Event.changes) :=
  run_collects (fun h hev => h.step hev) (durable_empty hopen).leading hevs

/-- A reader that starts on the live file at or after the leader's snapshot, and opens every new file
in time, passes on the leader's records one after the other. -/
theorem followed_without_gaps (cfg : Config D) (workers : Workers) (rng : ℕ → ℕ) (e : Engine D)
    (disk : Disk) (before : List Event) (s₀ : Sys D) (fromSeq : UInt64) (evs : List FollowEvent)
    (hopen : openEngine crc J cfg workers rng Disk.empty = .ok (e, disk))
    (hbefore : Along (Sys.step crc J) (Sys.Leads J cfg) ⟨disk, e, .idle⟩ before)
    (hs₀ : run (Sys.step crc J) ⟨disk, e, .idle⟩ before = .ok s₀)
    (hfrom : s₀.engine.snapshotSeq ≤ fromSeq)
    (hevs : Along (Following.step crc J) (Following.Admits J cfg) ⟨⟨s₀, []⟩, .start 0 fromSeq⟩ evs)
    (htime : Along (Following.step crc J) Following.ReopensInTime ⟨⟨s₀, []⟩, .start 0 fromSeq⟩ evs) :
    ∃ s n, run (Following.step crc J) ⟨⟨s₀, []⟩, .start 0 fromSeq⟩ evs = .ok s ∧
      s.reader.passed = (recsFrom J fromSeq.toNat
        (before.flatMap Event.changes ++ evs.flatMap FollowEvent.changes)).take n ∧
      ∀ i rec, s.reader.passed[i]? = some rec → rec.seq.toNat = fromSeq.toNat + i + 1 := by
  obtain ⟨s₁, hs₁, hleading⟩ := leading_of_run crc J hopen hbefore
  obtain rfl : s₁ = s₀ := Except.ok.inj (hs₁.symm.trans hs₀)
  obtain ⟨b, hb, hreads⟩ := Leader.reads_start (l := ⟨s₁, []⟩) (r := .start 0 fromSeq) hleading rfl rfl rfl
  have hstart : (⟨⟨s₁, []⟩, .start 0 fromSeq⟩ : Following D).InOrder crc J cfg
      (before.flatMap Event.changes) fromSeq.toNat 0 :=
    ⟨hleading, rfl, Nat.zero_le _, rfl, b, _, 0, hreads, hb.trans (UInt64.le_iff_toNat_le.mp hfrom)⟩
  obtain ⟨s, hrun, n, h⟩ := run_collects
    (I := fun s L => ∃ n, s.InOrder crc J cfg L fromSeq.toNat n) (f := FollowEvent.changes)
    (by
      rintro s L ev ⟨n, h⟩ hev
      exact h.step hev.1 hev.2) ⟨0, hstart⟩ (hevs.and htime)
  refine ⟨s, n, hrun, h.passed, fun i rec hrec => ?_⟩
  exact h.seq_of_passed hrec

end Runs

section Example

open Install

def reopenEvents : List FollowEvent :=
  [.stat true, .reopen true, .leader (.commit one [secondInsert] .ok), .read, .read]

def snapshotEvents : List FollowEvent :=
  [.leader (.capture one fun _ => 0), .leader .replaceMetadata, .leader .replaceSnapshot,
    .leader .copyTail, .leader .rename]

/-- The leader inserts and takes a snapshot while the reader is about to look at the path. -/
def skipRun : List FollowEvent :=
  .read :: .leader (.commit one [firstInsert] .ok) :: (snapshotEvents ++ reopenEvents)

def passRun : List FollowEvent :=
  .leader (.commit one [firstInsert] .ok) :: .read :: .read :: (snapshotEvents ++ .read :: reopenEvents)

noncomputable def freshLeader : Leader Exact := ⟨⟨⟨none, none, some [], none⟩, freshEngine, .idle⟩, []⟩

/-- The first insert is in the log only between the read that finds the end of the file and the look at
the path, and the reader passes on record 2 after record 0. -/
theorem rotation_before_reopen_skips_record :
    openEngine crc32ChecksumIEEE anyCodec line one (fun _ => 0) Disk.empty =
        .ok (freshEngine, freshLeader.sys.disk) ∧
      Along (Following.step crc32ChecksumIEEE anyCodec) (Following.Admits anyCodec line)
        ⟨freshLeader, .start 0 0⟩ skipRun ∧
      ∃ s, run (Following.step crc32ChecksumIEEE anyCodec) ⟨freshLeader, .start 0 0⟩ skipRun = .ok s ∧
        s.reader.passed = [secondInsert.logged anyCodec 2] := by
  refine ⟨freshEngine_eq_open _, ?_, ?_⟩ <;> decide +kernel

theorem record_read_before_rotation_passed_on :
    ∃ s n, run (Following.step crc32ChecksumIEEE anyCodec) ⟨freshLeader, .start 0 0⟩ passRun = .ok s ∧
      s.reader.passed = (recsFrom anyCodec 0 [firstInsert, secondInsert]).take n ∧
      s.reader.passed = [firstInsert.logged anyCodec 1, secondInsert.logged anyCodec 2] := by
  have hadmits : Along (Following.step crc32ChecksumIEEE anyCodec) (Following.Admits anyCodec line)
      ⟨freshLeader, .start 0 0⟩ passRun := by decide +kernel
  have hintime : Along (Following.step crc32ChecksumIEEE anyCodec) Following.ReopensInTime
      ⟨freshLeader, .start 0 0⟩ passRun := by decide +kernel
  have hends : ∃ s, run (Following.step crc32ChecksumIEEE anyCodec) ⟨freshLeader, .start 0 0⟩ passRun =
        .ok s ∧
      s.reader.passed = [firstInsert.logged anyCodec 1, secondInsert.logged anyCodec 2] := by
    decide +kernel
  obtain ⟨s, hrun, hpassed⟩ := hends
  obtain ⟨s', k, hs, hnumbered, -⟩ := followed_without_gaps crc32ChecksumIEEE anyCodec line one
    (fun _ => 0) freshEngine ⟨none, none, some [], none⟩ [] freshLeader.sys 0 passRun
    (freshEngine_eq_open _) trivial rfl (UInt64.le_refl 0) hadmits hintime
  obtain rfl := Except.ok.inj (hs.symm.trans hrun)
  exact ⟨s', k, hs, hnumbered, hpassed⟩

end Example

end NuclaDB
