import NuclaDB.FrameCode
import NuclaDB.WalRecord

/-!
# Recovery of the write-ahead log

When a frame is bad, `recover` looks at every later byte offset for a readable frame with a
newer number: one means damage in the middle of the log, none a torn tail.
-/

namespace NuclaDB.Wal
open LittleEndian List

variable (crc : Bytes → UInt32)

def frameAt (b : Bytes) : Option (Record × Bytes) :=
  match readFrame crc b with
  | .ok (r, _, rest) => some (r, rest)
  | .error _ => none

def walCode : FrameCode Record UInt8 where
  enc := encodeRecord crc
  dec := frameAt crc
  Valid := Record.Readable
  dec_enc := by
    intro r hr rest
    rw [frameAt, readFrame_encodeRecord crc hr rest]
  enc_dec := by
    intro b r rest h
    unfold frameAt at h
    split at h
    next r' n rest' hread =>
      obtain ⟨rfl, rfl⟩ := Prod.mk.inj (Option.some.inj h)
      exact ⟨(encodeRecord_of_readFrame crc hread).1, (encodeRecord_of_readFrame crc hread).2.1⟩
    next => cases h
  enc_ne_nil := by
    intro r h
    have hlen := encodeRecord_length crc r
    rw [h, length_nil] at hlen
    omega

theorem frameAt_eq_none {b : Bytes} :
    frameAt crc b = none ↔ ∀ r n rest, readFrame crc b ≠ .ok (r, n, rest) := by
  unfold frameAt
  split
  next r n rest h => simp [h]
  next e h => simp [h]

theorem readFull_eof {n : ℕ} {b : Bytes} (h : readFull n b = .error .eof) : b = [] := by
  unfold readFull at h
  split at h
  · cases h
  · split at h
    next hb => exact length_eq_zero_iff.mp hb
    next => cases h

theorem decodePayload_error {payload : Bytes} {e : ReadError}
    (h : decodePayload payload = .error e) : e = .corruptTail := by
  unfold decodePayload at h
  simp only at h
  split_ifs at h <;> exact (Except.error.inj h).symm

theorem readFrame_eof_iff {b : Bytes} : readFrame crc b = .error .eof ↔ b = [] := by
  constructor
  · intro h
    unfold readFrame at h
    split at h
    next e heq =>
      rw [Except.error.inj h] at heq
      exact readFull_eof heq
    next header b₁ heq =>
      simp only at h
      split at h
      · cases h
      · split at h
        · cases h
        next e hne heq₂ => exact absurd (Except.error.inj h) hne
        · split at h
          · cases h
          · split at h
            next e hdec =>
              rw [decodePayload_error hdec] at h
              cases h
            next => cases h
  · rintro rfl
    rfl

def maxCorruptionScan : ℕ := 64 * 2 ^ 20

/-- The scanner's test at one offset: a complete frame there, newer than `lastSeq`. -/
def frameHit (lastSeq : UInt64) (rest : Bytes) : Bool :=
  let length := (uint32 (rest.take 4)).toNat
  if length < 4 ∨ maxRecordLen < length ∨ rest.length < 4 + length then false
  else
    let payload := (rest.drop 8).take (length - 4)
    if crc payload ≠ uint32 ((rest.drop 4).take 4) then false
    else
      match decodePayload payload with
      | .ok r => lastSeq < r.seq
      | .error _ => false

def scanFrames (lastSeq : UInt64) : Bytes → ℕ → Option ℕ
  | [], _ => none
  | b :: bs, i =>
    if (b :: bs).length < 8 then none
    else if frameHit crc lastSeq (b :: bs) then some i
    else scanFrames lastSeq bs (i + 1)

def validFrameAfter (file : Bytes) (start : ℕ) (lastSeq : UInt64) : Option ℕ :=
  if maxCorruptionScan < file.length - start then some start
  else (scanFrames crc lastSeq (file.drop start) 0).map (start + ·)

inductive RecoverError (ε : Type*)
  | corruptMidLog (bad valid : ℕ)
  | invalidSequence (got after : UInt64)
  | callback (e : ε)
deriving DecidableEq

structure Recovered (σ ε : Type*) where
  validBytes : ℕ
  lastSeq : UInt64
  state : σ
  err : Option (RecoverError ε)

section Loop
variable {σ ε : Type*} (fn : σ → Record → Except ε σ)

def recoverLoop (file : Bytes) : ℕ → Bytes → ℕ → UInt64 → σ → Recovered σ ε
  | 0, _, validBytes, lastSeq, s => ⟨validBytes, lastSeq, s, none⟩
  | fuel + 1, r, validBytes, lastSeq, s =>
    match readFrame crc r with
    | .error .eof => ⟨validBytes, lastSeq, s, none⟩
    | .error _ =>
      match validFrameAfter crc file (validBytes + 1) lastSeq with
      | some off => ⟨validBytes, lastSeq, s, some (.corruptMidLog validBytes off)⟩
      | none => ⟨validBytes, lastSeq, s, none⟩
    | .ok (rec, size, rest) =>
      if lastSeq ≠ 0 ∧ rec.seq ≠ lastSeq + 1 then
        ⟨validBytes, lastSeq, s, some (.invalidSequence rec.seq lastSeq)⟩
      else
        match fn s rec with
        | .error e => ⟨validBytes, lastSeq, s, some (.callback e)⟩
        | .ok s => recoverLoop file fuel rest (validBytes + size) rec.seq s

/-- `path` is the log's contents, `none` when the file does not exist. -/
def recover (path : Option Bytes) (s : σ) : Recovered σ ε :=
  match path with
  | none => ⟨0, 0, s, none⟩
  | some file => recoverLoop crc fn file (file.length + 1) file 0 0 s

end Loop
variable {lastSeq : UInt64}

theorem frameHit_iff {b : Bytes} (h8 : 8 ≤ b.length) : frameHit crc lastSeq b = true ↔
      ∃ r n rest, readFrame crc b = .ok (r, n, rest) ∧ lastSeq < r.seq := by
  have hhead : readFull 8 b = .ok (b.take 8, b.drop 8) := by rw [readFull, if_pos h8]
  have htake : (b.take 8).take 4 = b.take 4 := by rw [take_take]; rfl
  have hdrop : ((b.take 8).drop 4).take 4 = (b.drop 4).take 4 := by
    rw [drop_take, take_take]; rfl
  simp only [frameHit, readFrame, hhead, htake, hdrop]
  generalize (uint32 (b.take 4)).toNat = len
  by_cases hlen : len < 4 ∨ maxRecordLen < len
  · have hbad : len < 4 ∨ maxRecordLen < len ∨ b.length < 4 + len := by tauto
    simp [hlen, hbad]
  · have hdl : (b.drop 8).length = b.length - 8 := length_drop
    by_cases hshort : b.length < 4 + len
    · have hbad : len < 4 ∨ maxRecordLen < len ∨ b.length < 4 + len := by tauto
      have hread : ∀ p, readFull (len - 4) (b.drop 8) ≠ .ok p := by
        intro p hp
        rw [readFull, if_neg (by omega)] at hp
        split at hp <;> cases hp
      rw [if_pos hbad, if_neg hlen]
      refine iff_of_false (by simp) ?_
      rintro ⟨r, n, rest, hr, -⟩
      split at hr
      · cases hr
      · cases hr
      next p q heq => exact hread _ heq
    · have hgood : ¬ (len < 4 ∨ maxRecordLen < len ∨ b.length < 4 + len) := by tauto
      have hread : readFull (len - 4) (b.drop 8) =
          .ok ((b.drop 8).take (len - 4), (b.drop 8).drop (len - 4)) := by
        rw [readFull, if_pos (by omega)]
      rw [if_neg hgood, if_neg hlen, hread]
      simp only
      by_cases hcrc : crc ((b.drop 8).take (len - 4)) ≠ uint32 ((b.drop 4).take 4)
      · simp [hcrc]
      · rw [if_neg hcrc, if_neg hcrc]
        cases hdec : decodePayload ((b.drop 8).take (len - 4)) with
        | error e => simp
        | ok r => simp [Prod.ext_iff]

theorem readFrame_ok_length {b rest : Bytes} {r : Record} {n : ℕ}
    (h : readFrame crc b = .ok (r, n, rest)) : 33 ≤ b.length := by
  have hb := (encodeRecord_of_readFrame crc h).2.1
  rw [hb, length_append, encodeRecord_length]
  omega

theorem scanFrames_eq_none (b : Bytes) (i : ℕ) : scanFrames crc lastSeq b i = none ↔
      ∀ j r n rest, readFrame crc (b.drop j) = .ok (r, n, rest) → r.seq ≤ lastSeq := by
  induction b generalizing i with
  | nil =>
    refine iff_of_true rfl ?_
    intro j r n rest h
    have hlen := readFrame_ok_length crc h
    simp at hlen
  | cons x bs ih =>
    rw [scanFrames]
    by_cases h8 : (x :: bs).length < 8
    · rw [if_pos h8]
      refine iff_of_true rfl ?_
      intro j r n rest h
      have hlen := readFrame_ok_length crc h
      rw [length_drop] at hlen
      omega
    · rw [if_neg h8]
      have hhit : frameHit crc lastSeq (x :: bs) = true ↔
          ∃ r n rest, readFrame crc (x :: bs) = .ok (r, n, rest) ∧ lastSeq < r.seq :=
        frameHit_iff crc (not_lt.mp h8)
      by_cases hf : frameHit crc lastSeq (x :: bs) = true
      · obtain ⟨r, n, rest, hr, hlt⟩ := hhit.mp hf
        rw [if_pos hf]
        refine iff_of_false (by simp) ?_
        intro hall
        exact absurd (hall 0 r n rest hr) (UInt64.not_le.mpr hlt)
      · rw [if_neg hf, ih]
        constructor
        · intro hall j r n rest h
          cases j with
          | zero =>
            by_contra hlt
            exact hf (hhit.mpr ⟨r, n, rest, h, UInt64.not_le.mp hlt⟩)
          | succ j => exact hall j r n rest h
        · intro hall j r n rest h
          exact hall (j + 1) r n rest h

/-- No readable frame newer than `lastSeq` starts past the first byte of `t`, and `t` is short
enough for recovery to have looked. -/
def CleanTail (lastSeq : UInt64) (t : Bytes) : Prop :=
  t.length ≤ maxCorruptionScan + 1 ∧
    ∀ i ≥ 1, ∀ r n rest, readFrame crc (t.drop i) = .ok (r, n, rest) → r.seq ≤ lastSeq

theorem validFrameAfter_eq_none {front t : Bytes} :
    validFrameAfter crc (front ++ t) (front.length + 1) lastSeq = none ↔ CleanTail crc lastSeq t := by
  have hdrop : (front ++ t).drop (front.length + 1) = t.drop 1 := by
    rw [← drop_drop, drop_left' rfl]
  have hsize : (front ++ t).length - (front.length + 1) = t.length - 1 := by
    rw [length_append]; omega
  rw [validFrameAfter, hsize, hdrop]
  by_cases hbig : maxCorruptionScan < t.length - 1
  · rw [if_pos hbig]
    refine iff_of_false (by simp) ?_
    rintro ⟨hle, -⟩
    omega
  · rw [if_neg hbig, Option.map_eq_none_iff, scanFrames_eq_none]
    have hle : t.length ≤ maxCorruptionScan + 1 := by omega
    simp only [CleanTail, hle, true_and, drop_drop]
    constructor
    · intro hall i hi r n rest h
      refine hall (i - 1) r n rest ?_
      rwa [show 1 + (i - 1) = i by omega]
    · intro hall j r n rest h
      exact hall (1 + j) (by omega) r n rest h

/-- The order recovery asks for: after a record numbered 0, its mark for "none yet", anything. -/
def Linked : UInt64 → List Record → Prop
  | _, [] => True
  | last, r :: rs => (last ≠ 0 → r.seq = last + 1) ∧ Linked r.seq rs

def lastSeqFrom (last : UInt64) (rs : List Record) : UInt64 := rs.foldl (fun _ r => r.seq) last

@[simp] theorem lastSeqFrom_cons (last : UInt64) (r : Record) (rs : List Record) :
    lastSeqFrom last (r :: rs) = lastSeqFrom r.seq rs := rfl

theorem lastSeqFrom_of_ne_nil {rs : List Record} (hne : rs ≠ []) (a b : UInt64) :
    lastSeqFrom a rs = lastSeqFrom b rs := by
  cases rs with
  | nil => exact absurd rfl hne
  | cons r rs => rfl

section Loop
variable {σ ε : Type*} (fn : σ → Record → Except ε σ) {t : Bytes} {s : σ} {rs : List Record}

theorem recoverLoop_cons (file : Bytes) {r : Record} (hr : r.Readable) (rs : List Record)
    (t : Bytes) (fuel v : ℕ) (last : UInt64) (s : σ) :
    recoverLoop crc fn file (fuel + 1) ((walCode crc).encAll (r :: rs) ++ t) v last s =
      if last ≠ 0 ∧ r.seq ≠ last + 1 then ⟨v, last, s, some (.invalidSequence r.seq last)⟩
      else
        match fn s r with
        | .error e => ⟨v, last, s, some (.callback e)⟩
        | .ok s => recoverLoop crc fn file fuel ((walCode crc).encAll rs ++ t)
            (v + (encodeRecord crc r).length) r.seq s := by
  have hread := readFrame_encodeRecord crc hr ((walCode crc).encAll rs ++ t)
  rw [FrameCode.encAll_cons, append_assoc, recoverLoop]
  change (match readFrame crc (encodeRecord crc r ++ ((walCode crc).encAll rs ++ t)) with
    | .error .eof => _ | .error _ => _ | .ok (rec, size, rest) => _) = _
  rw [hread]

theorem recoverLoop_frames (file : Bytes) {m v : ℕ}
    {last : UInt64} (hrs : ∀ r ∈ rs, r.Readable) (hl : Linked last rs) :
    (∀ s', rs.foldlM fn s = .ok s' →
      recoverLoop crc fn file (rs.length + m) ((walCode crc).encAll rs ++ t) v last s =
        recoverLoop crc fn file m t (v + ((walCode crc).encAll rs).length) (lastSeqFrom last rs) s') ∧
    ∀ e, rs.foldlM fn s = .error e →
      (recoverLoop crc fn file (rs.length + m) ((walCode crc).encAll rs ++ t) v last s).err =
        some (.callback e) := by
  induction rs generalizing v last s with
  | nil =>
    refine ⟨fun s' hfn => ?_, nofun⟩
    cases hfn
    simp [lastSeqFrom]
  | cons r rs ih =>
    obtain ⟨hlink, hl⟩ := hl
    have hseq : ¬ (last ≠ 0 ∧ r.seq ≠ last + 1) := by tauto
    rw [foldlM_cons, length_cons, Nat.add_right_comm,
      recoverLoop_cons crc fn file (hrs r (by simp)), if_neg hseq, lastSeqFrom_cons,
      FrameCode.encAll_cons, length_append, ← Nat.add_assoc]
    cases fn s r with
    | error e' =>
      refine ⟨nofun, fun e hfn => ?_⟩
      cases hfn
      rfl
    | ok s₁ => exact ih (fun x hx => hrs x (by simp [hx])) hl

theorem recoverLoop_tail {front : Bytes} {fuel : ℕ} {last : UInt64} (ht : frameAt crc t = none) :
    let out := recoverLoop crc fn (front ++ t) (fuel + 1) t front.length last s
    out.validBytes = front.length ∧ out.lastSeq = last ∧ out.state = s ∧
      (out.err = none ↔ t = [] ∨ CleanTail crc last t) ∧
      (∀ e, out.err = some e → ∃ bad valid, e = .corruptMidLog bad valid) := by
  have hclean : validFrameAfter crc (front ++ t) (front.length + 1) last = none ↔
      CleanTail crc last t := validFrameAfter_eq_none crc
  rw [frameAt_eq_none] at ht
  simp only [recoverLoop]
  split
  next heof =>
    have hnil := (readFrame_eof_iff crc).mp heof
    simp [hnil]
  next e hne herr =>
    have hnil : t ≠ [] := by
      rintro rfl
      exact hne (Except.error.inj herr).symm
    split
    next off hoff =>
      rw [hoff] at hclean
      simp only [true_and]
      refine ⟨iff_of_false (by simp) ?_, by simp⟩
      rintro (h | h)
      · exact hnil h
      · exact absurd (hclean.mpr h) (by simp)
    next hnone => simp [hclean.mp hnone]
  next r n rest hr => exact absurd hr (ht r n rest)

theorem exists_fuel (rs : List Record) (t : Bytes) :
    ∃ k, ((walCode crc).encAll rs ++ t).length + 1 = rs.length + (k + 1) := by
  have hge := (walCode crc).length_le_encAll rs
  refine ⟨((walCode crc).encAll rs ++ t).length - rs.length, ?_⟩
  rw [length_append]
  omega

theorem recover_frames {s' : σ} (hrs : ∀ r ∈ rs, r.Readable)
    (hl : Linked 0 rs) (ht : frameAt crc t = none) (hfn : rs.foldlM fn s = .ok s') :
    let out := recover crc fn (some ((walCode crc).encAll rs ++ t)) s
    out.validBytes = ((walCode crc).encAll rs).length ∧ out.lastSeq = lastSeqFrom 0 rs ∧
      out.state = s' ∧ (out.err = none ↔ t = [] ∨ CleanTail crc (lastSeqFrom 0 rs) t) ∧
      (∀ e, out.err = some e → ∃ bad valid, e = .corruptMidLog bad valid) := by
  obtain ⟨k, hk⟩ := exists_fuel crc rs t
  have hrun := (recoverLoop_frames crc fn ((walCode crc).encAll rs ++ t) (t := t) (m := k + 1)
    (v := 0) hrs hl).1 s' hfn
  rw [Nat.zero_add] at hrun
  simp only [recover, hk, hrun]
  exact recoverLoop_tail crc fn ht

theorem recover_short {s' : σ} (hrs : ∀ r ∈ rs, r.Readable)
    (hl : Linked 0 rs) (ht : t.length < 33) (hfn : rs.foldlM fn s = .ok s') :
    (recover crc fn (some ((walCode crc).encAll rs ++ t)) s).err = none := by
  have hshort : ∀ i r n rest, readFrame crc (t.drop i) ≠ .ok (r, n, rest) := by
    intro i r n rest hr
    have hlen := readFrame_ok_length crc hr
    rw [length_drop] at hlen
    omega
  apply (recover_frames crc fn hrs hl ((frameAt_eq_none crc).mpr (hshort 0)) hfn).2.2.2.1.mpr
  refine .inr ⟨ht.le.trans (by decide), fun i _ r n rest hr => ?_⟩
  exact absurd hr (hshort i r n rest)

theorem recover_callback {e : ε}
    (hrs : ∀ r ∈ rs, r.Readable) (hl : Linked 0 rs) (hfn : rs.foldlM fn s = .error e) :
    (recover crc fn (some ((walCode crc).encAll rs ++ t)) s).err = some (.callback e) := by
  obtain ⟨k, hk⟩ := exists_fuel crc rs t
  simp only [recover, hk]
  exact (recoverLoop_frames crc fn _ hrs hl).2 e hfn

end Loop

theorem recoverLoop_unlinked {σ ε : Type*} (f : σ → Record → σ) (file : Bytes) {rs : List Record}
    {t : Bytes} {m v : ℕ} {last : UInt64} {s : σ} (hrs : ∀ r ∈ rs, r.Readable)
    (hl : ¬ Linked last rs) :
    (recoverLoop crc (fun s r => (.ok (f s r) : Except ε σ)) file (rs.length + m)
      ((walCode crc).encAll rs ++ t) v last s).err ≠ none := by
  induction rs generalizing v last s with
  | nil => exact absurd trivial hl
  | cons r rs ih =>
    rw [length_cons, Nat.add_right_comm, recoverLoop_cons crc _ file (hrs r (by simp))]
    by_cases hseq : last ≠ 0 ∧ r.seq ≠ last + 1
    · simp [hseq]
    · rw [if_neg hseq]
      refine ih (fun x hx => hrs x (by simp [hx])) ?_
      intro hrest
      exact hl ⟨by tauto, hrest⟩

end NuclaDB.Wal
