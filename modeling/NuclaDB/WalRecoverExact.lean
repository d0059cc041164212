import NuclaDB.WalRecover
import Mathlib.Data.List.Chain

/-!
# What recovery keeps and what a torn write can do to it

For which files recovery succeeds and what it then delivers, and the crash case: complete
frames followed by an initial part of the next write.
-/

namespace NuclaDB.Wal
open LittleEndian List

variable (crc : Bytes → UInt32) {rs : List Record}

def Consecutive (rs : List Record) : Prop := rs.IsChain (fun a b => b.seq = a.seq + 1)

/-- `Consecutive` as far as recovery checks it: nothing is asked of the record after number 0. -/
def ConsecutiveAfterZero (rs : List Record) : Prop :=
  rs.IsChain (fun a b => a.seq = 0 ∨ b.seq = a.seq + 1)

def lastSeq (rs : List Record) : UInt64 := lastSeqFrom 0 rs

/-- `file` is the frames of `F` and then a tail that is empty or holds no frame at its start, none newer
than `F` further on, and no more bytes than recovery scans. -/
def Divides (order : List Record → Prop) (file : Bytes) (F : List Record) (T : Bytes) : Prop :=
  file = (walCode crc).encAll F ++ T ∧ (∀ r ∈ F, r.Readable) ∧ order F ∧
    (T = [] ∨ (∀ r n rest, readFrame crc T ≠ .ok (r, n, rest)) ∧ CleanTail crc (lastSeq F) T)

def truncateTo (file : Bytes) (validBytes : ℕ) : Bytes :=
  if validBytes < file.length then file.take validBytes else file

theorem linked_iff {last : UInt64} :
    Linked last rs ↔ (∀ r ∈ rs.head?, last ≠ 0 → r.seq = last + 1) ∧ ConsecutiveAfterZero rs := by
  induction rs generalizing last with
  | nil => simp [Linked, ConsecutiveAfterZero]
  | cons r rs ih =>
    rw [Linked, ih]
    cases rs with
    | nil => simp [ConsecutiveAfterZero]
    | cons r' rs =>
      simp only [head?_cons, Option.mem_def, Option.some.injEq, forall_eq',
        ConsecutiveAfterZero, isChain_cons_cons, and_congr_right_iff, and_congr_left_iff]
      intro _ _
      tauto

theorem linked_zero_iff : Linked 0 rs ↔ ConsecutiveAfterZero rs := by
  simp [linked_iff]

theorem Consecutive.afterZero (h : Consecutive rs) : ConsecutiveAfterZero rs :=
  List.IsChain.imp (fun _ _ hab => Or.inr hab) h

theorem foldlM_ok {σ ε : Type*} (f : σ → Record → σ) (rs : List Record) (s : σ) :
    rs.foldlM (fun s r => (.ok (f s r) : Except ε σ)) s = .ok (rs.foldl f s) := by
  induction rs generalizing s with
  | nil => rfl
  | cons r rs ih => exact ih (f s r)

theorem Divides.frameAt_eq_none {order : List Record → Prop} {file T : Bytes} {F : List Record}
    (h : Divides crc order file F T) : frameAt crc T = none := by
  rcases h.2.2.2 with rfl | ⟨hT, -⟩
  · exact (walCode crc).dec_nil
  · exact (Wal.frameAt_eq_none crc).mpr hT

theorem truncateTo_append (a b : Bytes) : truncateTo (a ++ b) a.length = a := by
  unfold truncateTo
  split_ifs with h
  · exact take_left' rfl
  · have hb : b = [] := by
      rw [length_append] at h
      exact length_eq_zero_iff.mp (by omega)
    rw [hb, append_nil]

/-- Recovery succeeds on exactly the files that divide into frames in order and a clean tail. It
then delivers those frames' records in order, reports where they end, and cutting the file there
removes no readable frame newer than the last of them. -/
theorem recover_complete {σ ε : Type*} (f : σ → Record → σ) (s : σ) (file : Bytes) :
    let out := recover crc (fun s r => (.ok (f s r) : Except ε σ)) (some file) s
    (out.err = none ↔ ∃ F T, Divides crc ConsecutiveAfterZero file F T) ∧
    (∀ F T, Divides crc ConsecutiveAfterZero file F T →
      out.err = none ∧ out.state = F.foldl f s ∧
      out.validBytes = ((walCode crc).encAll F).length ∧ out.lastSeq = lastSeq F ∧
      truncateTo file out.validBytes = (walCode crc).encAll F ∧
      ∀ i r n rest, readFrame crc (file.drop (out.validBytes + i)) = .ok (r, n, rest) →
        r.seq ≤ out.lastSeq) := by
  intro out
  have hspec : ∀ F T, Divides crc ConsecutiveAfterZero file F T →
      out.validBytes = ((walCode crc).encAll F).length ∧ out.lastSeq = lastSeqFrom 0 F ∧
      out.state = F.foldl f s ∧ (out.err = none ↔ T = [] ∨ CleanTail crc (lastSeqFrom 0 F) T) ∧
      (∀ e, out.err = some e → ∃ bad valid, e = .corruptMidLog bad valid) := by
    rintro F T h
    have hT := h.frameAt_eq_none
    obtain ⟨hfile, hF, horder, -⟩ := h
    simp only [out, hfile]
    exact recover_frames crc _ hF (linked_zero_iff.mpr horder) hT (foldlM_ok f F s)
  refine ⟨⟨fun herr => ?_, ?_⟩, ?_⟩
  · obtain ⟨F, T, hfile, hF, hT⟩ := (walCode crc).exists_encAll file
    have hlinked : Linked 0 F := by
      by_contra hl
      obtain ⟨k, hk⟩ := exists_fuel crc F T
      rw [← hfile] at hk
      have hbad := recoverLoop_unlinked (ε := ε) crc f file (t := T) (m := k + 1) (v := 0)
        (s := s) hF hl
      rw [← hfile, ← hk] at hbad
      exact hbad herr
    have hout := recover_frames crc _ hF hlinked hT (foldlM_ok (ε := ε) f F s)
    rw [← hfile] at hout
    refine ⟨F, T, hfile, hF, linked_zero_iff.mp hlinked, ?_⟩
    rcases hout.2.2.2.1.mp herr with h | h
    · exact .inl h
    · exact .inr ⟨(frameAt_eq_none crc).mp hT, h⟩
  · rintro ⟨F, T, h⟩
    refine (hspec F T h).2.2.2.1.mpr ?_
    rcases h.2.2.2 with hT | hT
    · exact .inl hT
    · exact .inr hT.2
  · intro F T h
    obtain ⟨hbytes, hseq, hstate, herr, -⟩ := hspec F T h
    have hT := h.frameAt_eq_none
    obtain ⟨hfile, hF, horder, htail⟩ := h
    refine ⟨herr.mpr (htail.imp id And.right), hstate, hbytes, hseq, ?_, ?_⟩
    · rw [hbytes, hfile, truncateTo_append]
    · intro i r n rest hr
      rw [hbytes, hfile, ← drop_drop, drop_left' rfl] at hr
      rw [hseq]
      rcases htail with rfl | ⟨hnone, -, hclean⟩
      · have hlen := readFrame_ok_length crc hr
        simp at hlen
      · cases i with
        | zero => exact absurd hr (hnone r n rest)
        | succ i => exact hclean (i + 1) (by omega) r n rest hr

def deliver (rs : List Record) (r : Record) : Except Empty (List Record) := .ok (rs ++ [r])

def gapLog : List Record := [⟨0, opDelete, 1, [], []⟩, ⟨7, opDelete, 1, [], []⟩]

/-- A record numbered 0 reads as no record at all, so recovery accepts the jump from 0 to 7. -/
theorem recover_gap_after_zero :
    ¬ ((recover crc32ChecksumIEEE deliver (some ((walCode crc32ChecksumIEEE).encAll gapLog)) []).err
        = none ↔
      ∃ F T, Divides crc32ChecksumIEEE Consecutive ((walCode crc32ChecksumIEEE).encAll gapLog) F T) := by
  have hvalid : ∀ r ∈ gapLog, r.Readable := by
    simp only [gapLog, mem_cons, not_mem_nil, or_false, forall_eq_or_imp, forall_eq,
      Record.Readable]
    decide
  have hspec := recover_frames crc32ChecksumIEEE deliver (t := []) hvalid
    (linked_zero_iff.mpr (by simp [gapLog, ConsecutiveAfterZero]))
    (walCode crc32ChecksumIEEE).dec_nil (foldlM_ok (fun s r => s ++ [r]) gapLog [])
  rw [append_nil] at hspec
  have herr := hspec.2.2.2.1.mpr (.inl rfl)
  intro hiff
  obtain ⟨F, T, h⟩ := hiff.mp herr
  have hT := h.frameAt_eq_none
  obtain ⟨hfile, hF, horder, -⟩ := h
  rw [← append_nil ((walCode crc32ChecksumIEEE).encAll gapLog)] at hfile
  have hsame := (FrameCode.encAll_unique _ (walCode crc32ChecksumIEEE).dec_nil hT hvalid hF hfile).1
  rw [← hsame] at horder
  simp only [Consecutive, gapLog, isChain_cons_cons, isChain_singleton, and_true] at horder
  exact absurd horder (by decide)

/-- A crash in the middle of a write leaves the log's frames and an initial part `p` of the bytes
of the next append. Recovery drops the torn rest of `p` and keeps everything complete, exactly when
that rest is a clean tail. -/
theorem torn_write_recovers_iff {σ ε : Type*} (f : σ → Record → σ) (s : σ)
    (acked next : List Record) (p : Bytes) (hvalid : ∀ r ∈ acked ++ next, r.Readable)
    (hseq : Consecutive (acked ++ next)) (hp : p <+: (walCode crc).encAll next) :
    let kept := acked ++ next.take ((walCode crc).torn next p).1
    let out := recover crc (fun s r => (.ok (f s r) : Except ε σ))
      (some ((walCode crc).encAll acked ++ p)) s
    (out.err = none ∧ out.state = kept.foldl f s ∧
        out.validBytes = ((walCode crc).encAll kept).length) ↔
      CleanTail crc (lastSeq kept) ((walCode crc).torn next p).2 := by
  intro kept out
  have hnext : ∀ r ∈ next, r.Readable := fun r hr => hvalid r (by simp [hr])
  have hkept : ∀ r ∈ kept, r.Readable := by
    intro r hr
    refine hvalid r ?_
    rcases mem_append.mp hr with h | h
    · exact mem_append_left _ h
    · exact mem_append_right _ (mem_of_mem_take h)
  have horder : Consecutive kept := by
    have hsplit : acked ++ next = kept ++ next.drop ((walCode crc).torn next p).1 := by
      simp [kept]
    rw [Consecutive, hsplit] at hseq
    exact hseq.left_of_append
  have htorn := (walCode crc).torn_append hp
  have hfile : (walCode crc).encAll acked ++ p =
      (walCode crc).encAll kept ++ ((walCode crc).torn next p).2 := by
    rw [FrameCode.encAll_append, append_assoc, htorn]
  have hspec := recover_frames crc _ hkept (linked_zero_iff.mpr horder.afterZero)
    ((walCode crc).torn_dec hnext hp) (foldlM_ok (ε := ε) f kept s)
  rw [← hfile] at hspec
  obtain ⟨hbytes, -, hstate, herr, -⟩ := hspec
  constructor
  · rintro ⟨hnone, -, -⟩
    rcases herr.mp hnone with hnil | hclean
    · have hscan : CleanTail crc (lastSeq kept) [] := by
        refine ⟨Nat.zero_le _, fun i _ r n rest hr => ?_⟩
        have hlen := readFrame_ok_length crc hr
        simp at hlen
      rw [hnil]
      exact hscan
    · exact hclean
  · intro hclean
    exact ⟨herr.mpr (.inr hclean), hstate, hbytes⟩

def tornAcked : List Record := [⟨1, opDelete, 5, [], []⟩]

/-- An insert whose nine finite components are, bit for bit, a complete log frame. -/
def tornNext : List Record :=
  [⟨2, opInsert, 9,
    uint32s 9 (encodeRecord crc32ChecksumIEEE ⟨3, opDelete, 5, [], []⟩ ++ [0, 0, 0]), []⟩]

def tornBytes : Bytes := ((walCode crc32ChecksumIEEE).encAll tornNext).take 68

/-- The last byte of the insert is missing, and recovery takes the frame inside its vector for an
acknowledged record after a damaged one. -/
theorem torn_vector_blocks_recovery :
    (∀ r ∈ tornAcked ++ tornNext, r.Readable) ∧ Consecutive (tornAcked ++ tornNext) ∧
      tornBytes <+: (walCode crc32ChecksumIEEE).encAll tornNext ∧
      tornBytes ≠ (walCode crc32ChecksumIEEE).encAll tornNext ∧
      (recover crc32ChecksumIEEE deliver
        (some ((walCode crc32ChecksumIEEE).encAll tornAcked ++ tornBytes)) []).err ≠ none := by
  refine ⟨?_, ?_, take_prefix _ _, ?_, ?_⟩
  · simp only [tornAcked, tornNext, cons_append, nil_append, mem_cons,
      not_mem_nil, or_false, forall_eq_or_imp, forall_eq, Record.Readable]
    decide +kernel
  · simp only [tornAcked, tornNext, cons_append, nil_append, Consecutive,
      isChain_cons_cons, isChain_singleton, and_true]
    decide
  · decide +kernel
  · have herr : (recover crc32ChecksumIEEE deliver
        (some ((walCode crc32ChecksumIEEE).encAll tornAcked ++ tornBytes)) []).err.isNone = false := by
      decide +kernel
    intro hnone
    rw [hnone] at herr
    cases herr

theorem torn_header_recovers :
    let out := recover crc32ChecksumIEEE deliver
      (some ((walCode crc32ChecksumIEEE).encAll tornAcked ++
        ((walCode crc32ChecksumIEEE).encAll [⟨2, opDelete, 5, [], []⟩]).take 9)) []
    out.err = none ∧ out.state = tornAcked ∧ out.validBytes = 33 := by
  refine (torn_write_recovers_iff crc32ChecksumIEEE (fun s r => s ++ [r]) [] tornAcked
    [⟨2, opDelete, 5, [], []⟩] _ ?_ ?_ (List.take_prefix _ _)).mpr ⟨by decide, ?_⟩
  · simp only [tornAcked, cons_append, nil_append, mem_cons, not_mem_nil,
      or_false, forall_eq_or_imp, forall_eq, Record.Readable]
    decide
  · simp only [tornAcked, cons_append, nil_append, Consecutive, isChain_cons_cons,
      isChain_singleton, and_true]
    decide
  · intro i hi r n rest hr
    have hlen := readFrame_ok_length crc32ChecksumIEEE hr
    have hshort : ((walCode crc32ChecksumIEEE).torn [⟨2, opDelete, 5, [], []⟩]
        (((walCode crc32ChecksumIEEE).encAll [⟨2, opDelete, 5, [], []⟩]).take 9)).2.length = 9 := by
      decide
    rw [length_drop, hshort] at hlen
    omega

end NuclaDB.Wal
