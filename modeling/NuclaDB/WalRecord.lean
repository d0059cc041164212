import NuclaDB.LittleEndian
import Mathlib.Data.List.GetD

/-!
# The write-ahead log's record format

A frame is a 32-bit length, a 32-bit checksum and a payload. Vector components are 32-bit
patterns, and the checksum is any function of the payload.
-/

namespace NuclaDB.Wal
open LittleEndian List

def opInsert : UInt8 := 1
def opDelete : UInt8 := 2
def opMeta : UInt8 := 3

@[simp] theorem opDelete_ne_opInsert : opDelete ≠ opInsert := by decide

@[simp] theorem opMeta_ne_opInsert : opMeta ≠ opInsert := by decide

@[simp] theorem opMeta_ne_opDelete : opMeta ≠ opDelete := by decide

@[simp] theorem opDelete_ne_opMeta : opDelete ≠ opMeta := by decide

structure Record where
  seq : UInt64
  op : UInt8
  id : UInt64
  vector : List UInt32
  extra : Bytes
  deriving DecidableEq, Repr

inductive ReadError
  | eof
  | unexpectedEOF
  | corruptTail
  deriving DecidableEq, Repr

def maxRecordLen : ℕ := 256 * 2 ^ 20

variable (r : Record)

def Record.ValidOp : Prop := r.op = opInsert ∨ r.op = opDelete ∨ r.op = opMeta

instance (r : Record) : Decidable r.ValidOp := by unfold Record.ValidOp; infer_instance

def encodePayload : Bytes :=
  putUint64 r.seq ++ [r.op] ++ putUint64 r.id ++ putUint32 (UInt32.ofNat r.vector.length) ++
    putUint32s r.vector ++ putUint32 (UInt32.ofNat r.extra.length) ++ r.extra

def decodePayload (payload : Bytes) : Except ReadError Record :=
  if payload.length < 21 then .error .corruptTail
  else
    let seq := uint64 (payload.take 8)
    let op := payload.getD 8 0
    if op ≠ opInsert ∧ op ≠ opDelete ∧ op ≠ opMeta then .error .corruptTail
    else
      let id := uint64 ((payload.drop 9).take 8)
      let dim := (uint32 ((payload.drop 17).take 4)).toNat
      if 0 < dim ∧ payload.length < 21 + 4 * dim then .error .corruptTail
      else
        let vec := uint32s dim (payload.drop 21)
        let off := 21 + 4 * dim
        if payload.length < off + 4 then .error .corruptTail
        else
          let extraLen := (uint32 ((payload.drop off).take 4)).toNat
          if payload.length ≠ off + 4 + extraLen then .error .corruptTail
          else .ok ⟨seq, op, id, vec, (payload.drop (off + 4)).take extraLen⟩

def Record.frameLen : ℕ := 4 + (encodePayload r).length

theorem encodePayload_length :
    (encodePayload r).length = 25 + 4 * r.vector.length + r.extra.length := by
  simp [encodePayload]
  omega

theorem frameLen_eq : r.frameLen = 29 + 4 * r.vector.length + r.extra.length := by
  rw [Record.frameLen, encodePayload_length]
  omega

theorem decodePayload_encodePayload {r : Record} (hop : r.ValidOp)
    (hvec : r.vector.length < 2 ^ 32) (hextra : r.extra.length < 2 ^ 32) :
    decodePayload (encodePayload r) = .ok r := by
  obtain ⟨seq, op, id, vec, extra⟩ := r
  have hlen := encodePayload_length ⟨seq, op, id, vec, extra⟩
  simp only at hvec hextra hlen
  have hsplit : encodePayload ⟨seq, op, id, vec, extra⟩ = putUint64 seq ++ op :: (putUint64 id ++
      (putUint32 (UInt32.ofNat vec.length) ++ (putUint32s vec ++
        (putUint32 (UInt32.ofNat extra.length) ++ extra)))) := by
    simp [encodePayload]
  generalize encodePayload ⟨seq, op, id, vec, extra⟩ = payload at *
  have hseq : payload.take 8 = putUint64 seq := by
    rw [hsplit, take_left' (putUint64_length seq)]
  have hopAt : payload.getD 8 0 = op := by
    rw [hsplit, getD_append_right _ _ _ _ (by simp)]
    simp
  have hid : payload.drop 9 = putUint64 id ++ (putUint32 (UInt32.ofNat vec.length) ++
      (putUint32s vec ++ (putUint32 (UInt32.ofNat extra.length) ++ extra))) := by
    rw [show 9 = 8 + 1 from rfl, ← drop_drop, hsplit, drop_left' (putUint64_length seq)]
    rfl
  have hdim : payload.drop 17 = putUint32 (UInt32.ofNat vec.length) ++ (putUint32s vec ++
      (putUint32 (UInt32.ofNat extra.length) ++ extra)) := by
    rw [show 17 = 9 + 8 from rfl, ← drop_drop, hid, drop_left' (putUint64_length id)]
  have hvecAt : payload.drop 21 = putUint32s vec ++ (putUint32 (UInt32.ofNat extra.length) ++ extra) := by
    rw [show 21 = 17 + 4 from rfl, ← drop_drop, hdim, drop_left' (putUint32_length _)]
  have hextraAt : payload.drop (21 + 4 * vec.length) = putUint32 (UInt32.ofNat extra.length) ++ extra := by
    rw [← drop_drop, hvecAt, drop_left' (putUint32s_length vec)]
  have htail : payload.drop (21 + 4 * vec.length + 4) = extra := by
    rw [← drop_drop, hextraAt, drop_left' (putUint32_length _)]
  have hdimNat : (uint32 ((payload.drop 17).take 4)).toNat = vec.length := by
    rw [hdim, take_left' (putUint32_length _), uint32_putUint32, UInt32.toNat_ofNat_of_lt' hvec]
  have hextraNat : (uint32 ((payload.drop (21 + 4 * vec.length)).take 4)).toNat = extra.length := by
    rw [hextraAt, take_left' (putUint32_length _), uint32_putUint32, UInt32.toNat_ofNat_of_lt' hextra]
  have hop' : ¬ (op ≠ opInsert ∧ op ≠ opDelete ∧ op ≠ opMeta) := by
    rcases hop with h | h | h <;> simp only at h <;> simp [h]
  unfold decodePayload
  rw [if_neg (by omega)]
  simp only [hopAt, hdimNat, hextraNat]
  rw [if_neg hop', if_neg (by omega), if_neg (by omega), if_neg (by omega)]
  rw [hseq, uint64_putUint64, hid, take_left' (putUint64_length id), uint64_putUint64, hvecAt,
    uint32s_putUint32s, htail, take_of_length_le le_rfl]

theorem encodePayload_decodePayload {payload : Bytes} {r : Record}
    (h : decodePayload payload = .ok r) : encodePayload r = payload ∧ r.ValidOp := by
  unfold decodePayload at h
  split at h
  · cases h
  next h21 =>
  simp only at h
  split at h
  · cases h
  next hop =>
  split at h
  · cases h
  next hvec =>
  split at h
  · cases h
  next hoff =>
  split at h
  · cases h
  next hext =>
  generalize hdim : (uint32 ((payload.drop 17).take 4)).toNat = dim at *
  generalize hel : (uint32 ((payload.drop (21 + 4 * dim)).take 4)).toNat = extraLen at *
  simp only [Except.ok.injEq] at h
  subst h
  refine ⟨?_, by simp only [Record.ValidOp]; tauto⟩
  have hdim' : UInt32.ofNat dim = uint32 ((payload.drop 17).take 4) := by
    rw [← hdim, UInt32.ofNat_toNat]
  have hel' : UInt32.ofNat extraLen = uint32 ((payload.drop (21 + 4 * dim)).take 4) := by
    rw [← hel, UInt32.ofNat_toNat]
  have hlen8 : (payload.take 8).length = 8 := by rw [length_take]; omega
  have hlen9 : ((payload.drop 9).take 8).length = 8 := by
    rw [length_take, length_drop]; omega
  have hlen17 : ((payload.drop 17).take 4).length = 4 := by
    rw [length_take, length_drop]; omega
  have hlenoff : ((payload.drop (21 + 4 * dim)).take 4).length = 4 := by
    rw [length_take, length_drop]; omega
  have hextra : ((payload.drop (21 + 4 * dim + 4)).take extraLen) = payload.drop (21 + 4 * dim + 4) := by
    apply take_of_length_le
    rw [length_drop]
    omega
  have hvecLen : 4 * dim ≤ (payload.drop 21).length := by
    rw [length_drop]; omega
  have hextraLen : (payload.drop (21 + 4 * dim + 4)).length = extraLen := by
    rw [length_drop]
    omega
  have hcons : payload.drop 8 = payload.getD 8 0 :: payload.drop 9 := by
    rw [drop_eq_getElem_cons (by omega), getD_eq_getElem _ _ (by omega)]
  simp only [encodePayload, uint32s_length, hextra, hextraLen, hdim', hel',
    putUint64_uint64 hlen8, putUint64_uint64 hlen9, putUint32_uint32 hlen17,
    putUint32_uint32 hlenoff, putUint32s_uint32s _ _ hvecLen, append_assoc]
  -- Reassemble the payload from the slices the decoder cut out of it.
  rw [← drop_drop (i := 4) (j := 21 + 4 * dim), take_append_drop,
    ← drop_drop (i := 4 * dim) (j := 21), take_append_drop,
    show 21 = 17 + 4 from rfl, ← drop_drop (i := 4) (j := 17), take_append_drop,
    show 17 = 9 + 8 from rfl, ← drop_drop (i := 8) (j := 9), take_append_drop,
    singleton_append, ← hcons, take_append_drop]

section Frame
variable (crc : Bytes → UInt32)

def encodeRecord (r : Record) : Bytes :=
  let payload := encodePayload r
  putUint32 (UInt32.ofNat (4 + payload.length)) ++ putUint32 (crc payload) ++ payload

/-- `io.ReadFull`: a short read is `EOF` only when nothing at all was read. -/
def readFull (n : ℕ) (b : Bytes) : Except ReadError (Bytes × Bytes) :=
  if n ≤ b.length then .ok (b.take n, b.drop n)
  else if b.length = 0 then .error .eof
  else .error .unexpectedEOF

/-- One frame off the front of a stream: the record, its size on disk and the unread rest. -/
def readFrame (b : Bytes) : Except ReadError (Record × ℕ × Bytes) :=
  match readFull 8 b with
  | .error e => .error e
  | .ok (header, b) =>
    let length := (uint32 (header.take 4)).toNat
    let wantCRC := uint32 ((header.drop 4).take 4)
    if length < 4 ∨ maxRecordLen < length then .error .corruptTail
    else
      match readFull (length - 4) b with
      | .error .eof => .error .unexpectedEOF
      | .error e => .error e
      | .ok (payload, b) =>
        if crc payload ≠ wantCRC then .error .corruptTail
        else
          match decodePayload payload with
          | .error e => .error e
          | .ok r => .ok (r, 8 + payload.length, b)

def Record.Readable (r : Record) : Prop := r.ValidOp ∧ r.frameLen ≤ maxRecordLen

instance (r : Record) : Decidable r.Readable := inferInstanceAs (Decidable (_ ∧ _))

theorem encodeRecord_length (r : Record) :
    (encodeRecord crc r).length = 33 + 4 * r.vector.length + r.extra.length := by
  simp [encodeRecord, encodePayload_length]
  omega

theorem encodeRecord_length_eq (r : Record) : (encodeRecord crc r).length = 4 + r.frameLen := by
  rw [encodeRecord_length, frameLen_eq]
  omega

theorem readFull_append {n : ℕ} {a : Bytes} (rest : Bytes) (h : a.length = n) :
    readFull n (a ++ rest) = .ok (a, rest) := by
  rw [readFull, if_pos (by simp [h]), take_left' h, drop_left' h]

theorem readFull_ok {n : ℕ} {b a rest : Bytes} (h : readFull n b = .ok (a, rest)) :
    b = a ++ rest ∧ a.length = n := by
  unfold readFull at h
  split at h
  next hn =>
    simp only [Except.ok.injEq, Prod.mk.injEq] at h
    obtain ⟨ha, hr⟩ := h
    refine ⟨by rw [← ha, ← hr, take_append_drop], ?_⟩
    rw [← ha, length_take]
    omega
  next =>
    split at h <;> cases h

theorem readFrame_encodeRecord {r : Record} (hr : r.Readable) (rest : Bytes) :
    readFrame crc (encodeRecord crc r ++ rest) = .ok (r, (encodeRecord crc r).length, rest) := by
  have hlen := encodePayload_length r
  have hmax : r.frameLen ≤ 2 ^ 28 := hr.2
  rw [frameLen_eq] at hmax
  have hwidth : (UInt32.ofNat (4 + (encodePayload r).length)).toNat =
      4 + (encodePayload r).length := UInt32.toNat_ofNat_of_lt' (by rw [UInt32.size]; omega)
  have hheader : (putUint32 (UInt32.ofNat (4 + (encodePayload r).length)) ++
      putUint32 (crc (encodePayload r))).length = 8 := by simp
  have hsplit : encodeRecord crc r ++ rest = (putUint32 (UInt32.ofNat (4 + (encodePayload r).length)) ++
        putUint32 (crc (encodePayload r))) ++ (encodePayload r ++ rest) := by
    simp [encodeRecord]
  unfold readFrame
  rw [hsplit, readFull_append _ hheader]
  simp only [take_left' (putUint32_length _), drop_left' (putUint32_length _), uint32_putUint32, hwidth]
  rw [if_neg (by unfold maxRecordLen; omega), Nat.add_sub_cancel_left, readFull_append _ rfl]
  simp only [take_of_length_le (putUint32_length _).le, uint32_putUint32, ne_eq,
    not_true_eq_false, if_false, decodePayload_encodePayload hr.1 (by omega) (by omega)]
  rw [encodeRecord_length, hlen]
  congr 3
  omega

theorem readFrame_eq_ok {b rest : Bytes} {r : Record} {n : ℕ} (h : readFrame crc b = .ok (r, n, rest)) :
    ∃ header b₁ payload, readFull 8 b = .ok (header, b₁) ∧
      ¬ ((uint32 (header.take 4)).toNat < 4 ∨ maxRecordLen < (uint32 (header.take 4)).toNat) ∧
      readFull ((uint32 (header.take 4)).toNat - 4) b₁ = .ok (payload, rest) ∧
      ¬ crc payload ≠ uint32 ((header.drop 4).take 4) ∧ decodePayload payload = .ok r ∧
      n = 8 + payload.length := by
  unfold readFrame at h
  split at h
  · cases h
  next header b₁ hheader =>
  simp only at h
  split at h
  · cases h
  next hbound =>
  split at h
  · cases h
  · cases h
  next payload b₂ hpayload =>
  split at h
  · cases h
  next hcrc =>
  split at h
  · cases h
  next r' hdecode =>
  simp only [Except.ok.injEq, Prod.mk.injEq] at h
  obtain ⟨rfl, rfl, rfl⟩ := h
  exact ⟨header, b₁, payload, hheader, hbound, hpayload, hcrc, hdecode, rfl⟩

theorem encodeRecord_of_readFrame {b rest : Bytes} {r : Record} {n : ℕ}
    (h : readFrame crc b = .ok (r, n, rest)) :
    r.Readable ∧ b = encodeRecord crc r ++ rest ∧ n = (encodeRecord crc r).length := by
  obtain ⟨header, b₁, payload, hread, hbound, hread₁, hcrc, hdecode, rfl⟩ := readFrame_eq_ok crc h
  obtain ⟨hb, hheader⟩ := readFull_ok hread
  obtain ⟨hb₁, hpayload⟩ := readFull_ok hread₁
  obtain ⟨henc, hop⟩ := encodePayload_decodePayload hdecode
  have h4 : (header.take 4).length = 4 := by rw [length_take]; omega
  have h4' : ((header.drop 4).take 4).length = 4 := by
    rw [length_take, length_drop]; omega
  have hwidth : UInt32.ofNat (4 + payload.length) = uint32 (header.take 4) := by
    rw [hpayload, show 4 + ((uint32 (header.take 4)).toNat - 4) = (uint32 (header.take 4)).toNat by
      omega, UInt32.ofNat_toNat]
  have hcrc' : crc payload = uint32 ((header.drop 4).take 4) := not_not.mp hcrc
  have hcut : (header.drop 4).take 4 = header.drop 4 :=
    take_of_length_le (by rw [length_drop]; omega)
  have hframe : encodeRecord crc r = header ++ payload := by
    simp only [encodeRecord, henc, hwidth, hcrc', putUint32_uint32 h4, putUint32_uint32 h4']
    rw [hcut, take_append_drop]
  refine ⟨⟨hop, ?_⟩, ?_, ?_⟩
  · rw [Record.frameLen, henc, hpayload]
    omega
  · rw [hframe, append_assoc, ← hb₁, hb]
  · rw [hframe, length_append, hheader]

/-- The codec is exact: a frame is accepted with record `r` and size `n` exactly when the first
`n` bytes are the encoding of `r`, its operation is known and its length is within bounds. What
follows the frame is left unread, encoded records decode to themselves, and an accepted frame is
the encoding of what it decoded to, byte for byte. -/
theorem readFrame_exact : (∀ (b : Bytes) (r : Record) (n : ℕ) (rest : Bytes),
      readFrame crc b = .ok (r, n, rest) ↔ r.ValidOp ∧ r.frameLen ≤ maxRecordLen ∧ n ≤ b.length ∧
          b.take n = encodeRecord crc r ∧ b.drop n = rest) ∧
    (∀ (r : Record) (rest : Bytes), r.ValidOp → r.frameLen ≤ maxRecordLen →
      readFrame crc (encodeRecord crc r ++ rest) = .ok (r, (encodeRecord crc r).length, rest)) ∧
    (∀ (b : Bytes) (r : Record) (n : ℕ) (rest : Bytes),
      readFrame crc b = .ok (r, n, rest) → encodeRecord crc r ++ rest = b) := by
  refine ⟨fun b r n rest => ⟨fun h => ?_, ?_⟩, fun r rest hop hlen =>
    readFrame_encodeRecord crc ⟨hop, hlen⟩ rest, fun b r n rest h =>
    (encodeRecord_of_readFrame crc h).2.1.symm⟩
  · obtain ⟨⟨hop, hlen⟩, hb, hn⟩ := encodeRecord_of_readFrame crc h
    refine ⟨hop, hlen, ?_, ?_, ?_⟩
    · rw [hb, hn, length_append]
      omega
    · rw [hb, hn, take_left' rfl]
    · rw [hb, hn, drop_left' rfl]
  · rintro ⟨hop, hlen, hn, htake, hdrop⟩
    have hsize : (encodeRecord crc r).length = n := by
      rw [← htake, length_take]
      omega
    have hb : b = encodeRecord crc r ++ rest := by
      rw [← htake, ← hdrop, take_append_drop]
    rw [hb, readFrame_encodeRecord crc ⟨hop, hlen⟩ rest, hsize]

end Frame

theorem readFrame_exact_insert : readFrame crc32ChecksumIEEE
        (encodeRecord crc32ChecksumIEEE ⟨1, opInsert, 7, [0x3F800000], [0x7B]⟩ ++ [0xFF]) =
      .ok (⟨1, opInsert, 7, [0x3F800000], [0x7B]⟩, 38, [0xFF]) :=
  (readFrame_exact crc32ChecksumIEEE).2.1 ⟨1, opInsert, 7, [0x3F800000], [0x7B]⟩ [0xFF]
    (by decide) (by decide)

end NuclaDB.Wal
