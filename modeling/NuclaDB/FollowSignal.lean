import NuclaDB.WalFollow

/-!
# Waking a follower

`notifyWAL` closes the channel that `WALChanged` handed out and makes a new one; here a channel is
its number. `FollowOpened` takes the channel, reads, and sleeps on it when it finds nothing. An
append that fails may leave bytes that nobody is told of.
-/

namespace NuclaDB.Wal
open LittleEndian List

/-- The loop of `FollowOpened`: at its top, after the channel was taken, or asleep on it. -/
inductive Round
  | top
  | reading (wake : ℕ)
  | asleep (wake : ℕ)
deriving DecidableEq

structure Signalled where
  files : ℕ → Bytes
  live : ℕ
  channel : ℕ
  announcing : Bool
  failed : Bool
  reader : Reader
  round : Round

inductive SignalEvent
  | write (bytes : Bytes) (ok : Bool)
  | rotate (file : Bytes)
  | notify
  | next (path : Bool)
  | wake (expired : Bool)

namespace Signalled
variable (crc : Bytes → UInt32) (s : Signalled)

def start (file : Bytes) (fromSeq : UInt64) : Signalled :=
  ⟨fun _ => file, 0, 0, false, false, Reader.start 0 fromSeq, .top⟩

def unread : Bytes := (s.files s.reader.fd).drop s.reader.offset

/-- One step of the loop; `path` tells whether the path could be looked at. -/
def next (path : Bool) : Signalled :=
  match s.round, s.reader.pc with
  | .top, _ => { s with round := .reading s.channel, reader.pc := .header }
  | .asleep _, _ => s
  | .reading c, .header =>
    match readHeaderAt s.unread with
    | .short => { s with reader.pc := .stat }
    | .bad => { s with round := .asleep c }
    | .frame length wantCRC => { s with reader.pc := .payload length wantCRC }
  | .reading c, .payload length wantCRC =>
    match readPayloadAt crc s.unread length wantCRC with
    | none => { s with round := .asleep c }
    | some (rec, n) => { s with reader := s.reader.take rec n, round := .top }
  | .reading c, .stat =>
    if path ∧ s.live ≠ s.reader.fd then { s with reader.pc := .reopen } else { s with round := .asleep c }
  | .reading c, .reopen =>
    if path then { s with reader := { s.reader with fd := s.live, offset := 0 }, round := .top }
    else { s with round := .asleep c }

def step : SignalEvent → Signalled
  | .write bytes ok =>
    { s with
      files := Function.update s.files s.live (s.files s.live ++ bytes)
      announcing := s.announcing || ok
      failed := s.failed || !ok }
  | .rotate file =>
    { s with files := Function.update s.files (s.live + 1) file, live := s.live + 1, announcing := true }
  | .notify => { s with channel := s.channel + 1, announcing := false }
  | .next path => s.next crc path
  | .wake expired =>
    match s.round with
    | .asleep c => if expired ∨ c ≠ s.channel then { s with round := .top } else s
    | _ => s

/-- Nothing was there to read, and what has changed since then is told by the channel. -/
def Empty (c : ℕ) : Prop :=
  c = s.channel → s.announcing = false → s.failed = false → frameAt crc s.unread = none

def Inv : Prop :=
  s.reader.fd ≤ s.live ∧ match s.round, s.reader.pc with
    | .top, _ => True
    | .asleep c, _ => c ≤ s.channel ∧ s.Empty crc c
    | .reading c, .header => c ≤ s.channel
    | .reading c, .payload length wantCRC => c ≤ s.channel ∧ readHeaderAt s.unread = .frame length wantCRC
    | .reading c, .stat | .reading c, .reopen => c ≤ s.channel ∧ s.Empty crc c

variable {crc} {s : Signalled}

theorem Inv.change (h : s.Inv crc) {files : ℕ → Bytes} {live : ℕ} {announcing failed : Bool}
    (hlive : s.live ≤ live) (htold : announcing = false → failed = false → False)
    (hgrow : ∃ b, files s.reader.fd = s.files s.reader.fd ++ b) :
    Inv crc { s with files, live, announcing, failed } := by
  obtain ⟨hfd, h⟩ := h
  have htell {c : ℕ} : Empty crc { s with files, live, announcing, failed } c :=
    fun _ hquiet hgood => (htold hquiet hgood).elim
  refine ⟨hfd.trans hlive, ?_⟩
  dsimp only at h ⊢
  split at h
  · trivial
  · exact ⟨h.1, htell⟩
  · exact h
  · next hpc =>
    obtain ⟨b, hb⟩ := hgrow
    have hlen := (readHeaderAt_eq_frame.mp h.2).1
    rw [unread, length_drop] at hlen
    refine ⟨h.1, ?_⟩
    simp only [unread, hb]
    rw [drop_append_of_le_length (by omega)]
    exact readHeaderAt_append h.2 _
  · exact ⟨h.1, htell⟩
  · exact ⟨h.1, htell⟩

theorem Inv.next (h : s.Inv crc) (path : Bool) : (s.next crc path).Inv crc := by
  have hinv := h
  obtain ⟨hfd, h⟩ := h
  rw [Signalled.next]
  split
  · exact ⟨hfd, le_refl _⟩
  · exact hinv
  · next c hround hpc =>
    simp only [hround, hpc] at h
    have hnone (hbad : readHeaderAt s.unread = .short ∨ readHeaderAt s.unread = .bad) : s.Empty crc c := by
      refine fun _ _ _ => (frameAt_eq_none crc).mpr fun rec n rest hframe => ?_
      obtain ⟨hshort, hgood⟩ := readHeaderAt_of_readFrame hframe
      exact hbad.elim hshort hgood
    split
    · next hshort => simpa only [Inv, hround] using ⟨hfd, h, hnone (.inl hshort)⟩
    · next hbad => exact ⟨hfd, h, hnone (.inr hbad)⟩
    · next hframe => simpa only [Inv, hround] using ⟨hfd, h, hframe⟩
  · next c length wantCRC hround hpc =>
    simp only [hround, hpc] at h
    split
    · next hnone =>
      refine ⟨hfd, h.1, fun _ _ _ => (frameAt_eq_none crc).mpr fun rec n rest hframe => ?_⟩
      rw [(readPayloadAt_iff h.2).mpr ⟨rest, hframe⟩] at hnone
      cases hnone
    · exact ⟨(Reader.take_fd ..).trans_le hfd, trivial⟩
  · next c hround hpc =>
    simp only [hround, hpc] at h
    split
    · simpa only [Inv, hround] using ⟨hfd, h⟩
    · exact ⟨hfd, h⟩
  · next c hround hpc =>
    simp only [hround, hpc] at h
    split
    · exact ⟨le_rfl, trivial⟩
    · exact ⟨hfd, h⟩

theorem Inv.step (h : s.Inv crc) (ev : SignalEvent) : (s.step crc ev).Inv crc := by
  cases ev with
  | write bytes ok =>
    refine h.change le_rfl (by cases ok <;> simp) ?_
    by_cases hfd : s.reader.fd = s.live
    · exact ⟨bytes, by simp [hfd]⟩
    · exact ⟨[], by simp [hfd]⟩
  | rotate file =>
    have hfd : s.reader.fd ≠ s.live + 1 := (Nat.lt_succ_of_le h.1).ne
    exact h.change (Nat.le_succ _) (by simp) ⟨[], by simp [hfd]⟩
  | notify =>
    obtain ⟨hfd, h⟩ := h
    have hold {c : ℕ} (hc : c ≤ s.channel) : c ≤ s.channel + 1 ∧ (s.step crc .notify).Empty crc c :=
      ⟨Nat.le_succ_of_le hc, fun heq => absurd hc (by simp [heq, Signalled.step])⟩
    refine ⟨hfd, ?_⟩
    dsimp only [Signalled.step] at hold ⊢
    split at h
    · trivial
    · exact hold h.1
    · exact Nat.le_succ_of_le h
    · exact ⟨Nat.le_succ_of_le h.1, h.2⟩
    · exact hold h.1
    · exact hold h.1
  | next path => exact h.next path
  | wake expired =>
    rw [Signalled.step]
    split
    · split
      · exact ⟨h.1, trivial⟩
      · exact h
    · exact h

theorem inv_run (file : Bytes) (fromSeq : UInt64) (evs : List SignalEvent) :
    (evs.foldl (Signalled.step crc) (start file fromSeq)).Inv crc :=
  List.foldlRecOn evs _ ⟨le_rfl, trivial⟩ fun _ h ev _ => h.step ev

end Signalled

end NuclaDB.Wal
