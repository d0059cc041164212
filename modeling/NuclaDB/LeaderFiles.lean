import NuclaDB.EngineDurability
import NuclaDB.WalFollow

/-!
# The files of a leader's log

A rotation puts a new file at the log's path; a reader keeps the file that it has open.
`Leader` keeps every file that has been the log.
-/

namespace NuclaDB

open LittleEndian Hnsw EventRun Wal List Writer
open Wal (Reader)

section Records
variable {J : Codec} {L : List Change} {b e q : ℕ}

theorem recsFrom_self_append (L cs : List Change) : recsFrom J L.length (L ++ cs) =
      assignSeqs (UInt64.ofNat L.length + 1) (cs.map (Change.record J)) := by
  rw [recsFrom, drop_left]

theorem recsFrom_take_eq (b n : ℕ) : (recsFrom J b L).take n = recsFrom J b (L.take (b + n)) := by
  rw [recsFrom, assignSeqs_take, ← map_take, recsFrom, ← take_drop]

theorem getElem?_recsFrom (hb : b ≤ L.length) : (recsFrom J b L)[q]? = (recsFrom J 0 L)[b + q]? := by
  have hlen : (recsFrom J 0 (L.take b)).length = b := by
    rw [recsFrom, assignSeqs_length]
    simpa using hb
  rw [recsFrom_split (Nat.zero_le b) hb, getElem?_append_right (by omega), hlen,
    Nat.add_sub_cancel_left]

theorem getElem?_recsFrom_take (hbe : b ≤ e) (he : e ≤ L.length) {rec : Record}
    (h : (recsFrom J b (L.take e))[q]? = some rec) : (recsFrom J 0 L)[b + q]? = some rec := by
  obtain ⟨n, rfl⟩ := Nat.exists_eq_add_of_le hbe
  rw [← recsFrom_take_eq] at h
  rw [← getElem?_recsFrom (by omega)]
  exact (List.getElem?_take_of_lt (by
    have hlt := (List.getElem?_eq_some_iff.mp h).1
    rw [List.length_take] at hlt
    omega)).symm.trans h

theorem getElem?_recsFrom_zero (L : List Change) (k : ℕ) :
    (recsFrom J 0 L)[k]? = L[k]?.map (Change.logged J (UInt64.ofNat (k + 1))) := by
  rw [recsFrom, getElem?_assignSeqs, drop_zero, getElem?_map, Option.map_map,
    UInt64.ofNat_add, UInt64.add_comm (UInt64.ofNat k), show UInt64.ofNat 0 + 1 = UInt64.ofNat 1 from rfl]
  rfl

theorem seq_of_getElem?_recsFrom (hroom : L.length < 2 ^ 64) {rec : Record}
    (h : (recsFrom J 0 L)[q]? = some rec) : rec.seq.toNat = q + 1 := by
  have hseq := seq_of_getElem?_assignSeqs (n := UInt64.ofNat 0) (by simpa using hroom) h
  simpa using hseq

end Records

section Leading
variable {D : Type} [Hnsw.Dist D]

def Event.changes : Event → List Change
  | .commit _ cs _ => cs
  | _ => []

/-- What happens to a leader: commits that the log can take and whose write succeeds, and the steps of
snapshots. -/
def Sys.Leads (J : Codec) (cfg : Config D) (s : Sys D) : Event → Prop
  | .commit _ cs io => io = .ok ∧ cs ≠ [] ∧ s.locked = false ∧ s.Loggable J cfg cs
  | .crash _ _ _ _ => False
  | _ => True

instance (J : Codec) (cfg : Config D) (s : Sys D) (ev : Event) : Decidable (s.Leads J cfg ev) := by
  cases ev <;> unfold Sys.Leads <;> infer_instance

def Sys.rotates (crc : Bytes → UInt32) (s : Sys D) : Event → Bool
  | .rename =>
    match s.stage with
    | .tailCopied _ => (openWriter crc s.disk.walNew s.engine.seq).toBool
    | _ => false
  | _ => false

/-- The log takes appends and holds the last part of the history. -/
structure Leading (crc : Bytes → UInt32) (J : Codec) (cfg : Config D) (s : Sys D) (L : List Change) :
    Prop where
  ready : s.engine.w.readyLocked = .ok ()
  log : ∃ w0 sn, LogInv crc J cfg s L w0 sn L.length []

variable {crc : Bytes → UInt32} {J : Codec} {cfg : Config D} {s s' : Sys D} {L : List Change} {ev : Event}

theorem Durable.leading {w0 sn mt : ℕ} (h : Durable J cfg crc s L w0 sn mt) : Leading crc J cfg s L :=
  ⟨h.ready, w0, sn, h.log⟩

namespace Leading

section
variable (h : Leading crc J cfg s L)
include h

theorem room : L.length < 2 ^ 64 := by
  obtain ⟨w0, sn, hlog⟩ := h.log
  exact hlog.holds.room

theorem seq : s.engine.seq = UInt64.ofNat L.length := by
  obtain ⟨w0, sn, hlog⟩ := h.log
  exact hlog.seq

theorem readable (i : ℕ) : ∀ r ∈ recsFrom J i L, r.Readable := by
  obtain ⟨w0, sn, hlog⟩ := h.log
  exact hlog.holds.readable i

theorem wal_eq : ∃ b, b ≤ L.length ∧ b ≤ s.engine.snapshotSeq.toNat ∧
      s.wal = (walCode crc).encAll (recsFrom J b L) := by
  obtain ⟨w0, sn, hlog⟩ := h.log
  obtain ⟨j, hj, hsn, hseq⟩ := hlog.snapshotSeq
  have hle := hlog.holds.sn_le
  have hroom := hlog.holds.room
  refine ⟨w0, by omega, ?_, ?_⟩
  · rw [hseq, toNat_ofNat (by omega)]
    exact hj
  · rw [hlog.wal_eq, append_nil]

theorem step (hev : s.Leads J cfg ev) :
    ∃ s', s.step crc J ev = .ok s' ∧ Leading crc J cfg s' (L ++ ev.changes) := by
  obtain ⟨w0, sn, hlog⟩ := h.log
  cases ev with
  | commit workers cs io =>
    obtain ⟨rfl, hne, hlocked, hcs⟩ := hev
    have hne' : cs.map (Change.record J) ≠ [] := by simpa using hne
    obtain ⟨hlog', -, hready⟩ := hlog.commit_logged hlocked h.ready hne hcs workers
      (appendBatch_ready crc h.ready s.wal hne')
    exact ⟨_, rfl, hready, w0, sn, hlog'⟩
  | capture workers rng =>
    refine ⟨_, rfl, ?_, w0, sn, by simpa [Event.changes] using hlog.capture workers rng⟩
    rw [hlog.capture_writer]
    exact h.ready
  | replaceMetadata =>
    refine ⟨_, rfl, ?_, w0, sn, by simpa [Event.changes] using hlog.replaceMetadata⟩
    simp only [Sys.replaceMetadata]
    split <;> exact h.ready
  | replaceSnapshot =>
    obtain ⟨sn', hlog', -⟩ := hlog.replaceSnapshot
    refine ⟨_, rfl, ?_, w0, sn', by simpa [Event.changes] using hlog'⟩
    simp only [Sys.replaceSnapshot]
    split <;> exact h.ready
  | copyTail =>
    refine ⟨_, rfl, ?_, w0, sn, by simpa [Event.changes] using hlog.copyTail⟩
    simp only [Sys.copyTail]
    split <;> exact h.ready
  | rename =>
    obtain ⟨w0', T, hlog'⟩ := hlog.rename fun _ _ _ _ _ => hlog.ack_eq_of_inStep.mpr rfl
    have hready := Sys.rename_readyLocked crc h.ready
    obtain rfl := (hlog'.ready hready).1
    exact ⟨_, rfl, hready, w0', sn, by simpa [Event.changes] using hlog'⟩
  | crash cs n workers rng => exact hev.elim

theorem wal_step (hev : s.Leads J cfg ev) (hrot : s.rotates crc ev = false)
    (hstep : s.step crc J ev = .ok s') :
    s'.wal = s.wal ++ (walCode crc).encAll (recsFrom J L.length (L ++ ev.changes)) := by
  obtain ⟨w0, sn, hlog⟩ := h.log
  have hsame : ev.changes = [] → s'.wal = s.wal →
      s'.wal = s.wal ++ (walCode crc).encAll (recsFrom J L.length (L ++ ev.changes)) := by
    intro hnil hwal
    rw [hnil, append_nil, recsFrom_eq_nil le_rfl, hwal]
    exact (append_nil _).symm
  cases ev with
  | commit workers cs io =>
    obtain ⟨rfl, hne, hlocked, hcs⟩ := hev
    obtain rfl := Except.ok.inj hstep
    have hne' : cs.map (Change.record J) ≠ [] := by simpa using hne
    obtain ⟨e, hcommit, -⟩ := hlog.kept.commit_logged workers hne (fun c hc => (hcs.1 c hc).1)
      (appendBatch_ready crc h.ready s.wal hne')
    simp only [Sys.commit, hlocked, Bool.false_eq_true, if_false]
    change (s.engine.commit crc J workers .ok s.wal cs).2.1 = _
    rw [hcommit]
    dsimp only
    rw [hlog.kept.next h.ready, h.seq, Event.changes, recsFrom_self_append]
  | capture workers rng =>
    obtain rfl := Except.ok.inj hstep
    exact hsame rfl (s.capture_wal J workers rng)
  | replaceMetadata | replaceSnapshot | copyTail =>
    obtain rfl := Except.ok.inj hstep
    apply hsame rfl
    simp only [Sys.replaceMetadata, Sys.replaceSnapshot, Sys.copyTail]
    split <;> rfl
  | rename =>
    obtain rfl := Except.ok.inj hstep
    apply hsame rfl
    simp only [Sys.rotates] at hrot
    simp only [Sys.rename]
    split
    · split
      · rfl
      · next w file hopen => simp_all [Except.toBool]
    · rfl
  | crash cs n workers rng => exact hev.elim

end

end Leading

end Leading

/-- A leader and the files that its log has been: those that rotations replaced, and the live one. -/
structure Leader (D : Type) where
  sys : Sys D
  older : List Bytes

namespace Leader

variable {D : Type} [Hnsw.Dist D] (crc : Bytes → UInt32) (J : Codec)

def live (l : Leader D) : ℕ := l.older.length

def file (l : Leader D) (fd : ℕ) : Bytes := l.older[fd]?.getD l.sys.wal

def step (l : Leader D) (ev : Event) : Except OpenError (Leader D) :=
  match l.sys.step crc J ev with
  | .error err => .error err
  | .ok s => .ok ⟨s, if l.sys.rotates crc ev then l.older ++ [l.sys.wal] else l.older⟩

/-- The reader's file holds the records from `b` to `e`, and the reader has taken `q` of them. -/
structure Reads (l : Leader D) (L : List Change) (r : Reader) (b e q : ℕ) : Prop where
  fd_le : r.fd ≤ l.live
  on : r.On crc (l.file r.fd) (recsFrom J b (L.take e)) [] q
  b_le : b ≤ e
  e_le : e ≤ L.length
  live : r.fd = l.live → e = L.length

variable {crc J} {cfg : Config D} {l l' : Leader D} {L : List Change} {ev : Event} {r : Reader} {b e q : ℕ}

omit [Hnsw.Dist D] in
theorem file_live (l : Leader D) : l.file l.live = l.sys.wal := by
  simp [file, Leader.live]

theorem step_sys (h : l.step crc J ev = .ok l') : l.sys.step crc J ev = .ok l'.sys := by
  simp only [step] at h
  split at h
  · cases h
  · next s hs =>
    obtain rfl := Except.ok.inj h
    exact hs

theorem step_leading (h : Leading crc J cfg l.sys L) (hev : l.sys.Leads J cfg ev) :
    ∃ l', l.step crc J ev = .ok l' ∧ Leading crc J cfg l'.sys (L ++ ev.changes) := by
  obtain ⟨s', hs, h'⟩ := h.step hev
  refine ⟨⟨s', if l.sys.rotates crc ev then l.older ++ [l.sys.wal] else l.older⟩, ?_, h'⟩
  simp only [step, hs]

namespace Reads

section
variable (h : l.Reads crc J L r b e q)
include h

theorem step (hlead : Leading crc J cfg l.sys L)
    (hev : l.sys.Leads J cfg ev) (hstep : l.step crc J ev = .ok l') :
    ∃ e', l'.Reads crc J (L ++ ev.changes) r b e' q := by
  obtain ⟨s', hs, hlead'⟩ := hlead.step hev
  simp only [Leader.step, hs, Except.ok.injEq] at hstep
  subst hstep
  have htake : (L ++ ev.changes).take e = L.take e := take_append_of_le_length h.e_le
  have hle : e ≤ (L ++ ev.changes).length := by
    rw [length_append]
    exact h.e_le.trans (Nat.le_add_right _ _)
  have hfd := h.fd_le
  have hsame : ∀ l' : Leader D, r.fd < l'.live → l'.file r.fd = l.file r.fd →
      l'.Reads crc J (L ++ ev.changes) r b e q := by
    intro l' hlt hfile
    refine ⟨hlt.le, ?_, h.b_le, hle, fun heq => absurd heq hlt.ne⟩
    rw [hfile, htake]
    exact h.on
  cases hrot : l.sys.rotates crc ev with
  | true =>
    refine ⟨e, hsame _ ?_ ?_⟩
    · simp only [Leader.live, if_true, length_append, length_singleton] at hfd ⊢
      omega
    · simp only [file, Leader.live, if_true] at hfd ⊢
      rcases Nat.eq_or_lt_of_le hfd with heq | hlt
      · simp [heq]
      · rw [getElem?_append_left hlt]
        simp [getElem?_eq_getElem hlt]
  | false =>
    simp only [Bool.false_eq_true, if_false]
    rcases Nat.eq_or_lt_of_le hfd with heq | hlt
    · obtain rfl := h.live heq
      have hon := h.on
      rw [take_length, heq, file_live] at hon
      refine ⟨(L ++ ev.changes).length, hfd, ?_, h.b_le.trans hle, le_rfl, fun _ => rfl⟩
      rw [take_length, heq, show (⟨s', l.older⟩ : Leader D).file l.live = s'.wal from file_live _,
        hlead.wal_step hev hrot hs, recsFrom_append h.b_le, ← recsFrom_self_append]
      have hnil : frameAt crc [] = none := (walCode crc).dec_nil
      have hgrow := hon.grow (hlead'.readable L.length) hnil
      rwa [append_nil] at hgrow
    · refine ⟨e, hsame _ hlt ?_⟩
      simp only [file]
      rw [Leader.live] at hlt
      simp [getElem?_eq_getElem hlt]

section
omit [Hnsw.Dist D]

theorem same_file {r' : Reader} {q' : ℕ} (hfd : r'.fd = r.fd)
    (hon : r'.On crc (l.file r.fd) (recsFrom J b (L.take e)) [] q') : l.Reads crc J L r' b e q' :=
  ⟨hfd.trans_le h.fd_le, hfd ▸ hon, h.b_le, h.e_le, fun heq => h.live (hfd.symm.trans heq)⟩

theorem read : (l.Reads crc J L (r.read crc (l.file r.fd)) b e q ∧
      (r.read crc (l.file r.fd)).passed = r.passed ∧
      (r.read crc (l.file r.fd)).fromSeq = r.fromSeq) ∨
    ∃ rec n, (recsFrom J 0 L)[b + q]? = some rec ∧ r.read crc (l.file r.fd) = r.take rec n ∧
      l.Reads crc J L (r.read crc (l.file r.fd)) b e (q + 1) := by
  have hfd := r.read_fd crc (l.file r.fd)
  rcases h.on.read with ⟨hon, hpassed, hseq⟩ | ⟨rec, hq, htake, hon, -⟩
  · exact .inl ⟨h.same_file hfd hon, hpassed, hseq⟩
  · exact .inr ⟨rec, _, getElem?_recsFrom_take h.b_le h.e_le hq, htake, h.same_file hfd hon⟩

theorem of_pc {r' : Reader} (hfd : r'.fd = r.fd)
    (hoffset : r'.offset = r.offset) (hpc : ∀ length wantCRC, r'.pc ≠ .payload length wantCRC) :
    l.Reads crc J L r' b e q :=
  h.same_file hfd (h.on.of_pc hoffset hpc)

theorem stat (answer : Option ℕ) : l.Reads crc J L (r.stat answer) b e q := by
  simp only [Reader.stat]
  split
  · split
    · exact h.of_pc rfl rfl (by simp)
    · exact h.of_pc rfl rfl (by simp)
  · exact h.of_pc rfl rfl (by simp)
  · exact h

end

end

end Reads

theorem reads_start (h : Leading crc J cfg l.sys L) (hfd : r.fd = l.live) (hoffset : r.offset = 0)
    (hpc : r.pc = .header) :
    ∃ b, b ≤ l.sys.engine.snapshotSeq.toNat ∧ l.Reads crc J L r b L.length 0 := by
  obtain ⟨b, hb, hsnap, hwal⟩ := h.wal_eq
  refine ⟨b, hsnap, hfd.le, ?_, hb, le_rfl, fun _ => rfl⟩
  rw [hfd, file_live, take_length]
  refine ⟨hwal.trans (append_nil _).symm, h.readable b, (walCode crc).dec_nil, Nat.zero_le _,
    hoffset, fun length wantCRC hp => ?_⟩
  cases hpc.symm.trans hp

end Leader

end NuclaDB
