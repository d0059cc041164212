import NuclaDB.SplitReader
import NuclaDB.WalRecord

/-!
# What a follower reads off the wire

A leader sends two blobs, each with its length in front, and then records. The connection
may cut the bytes into reads as it likes, and it may break anywhere.
-/

namespace NuclaDB.Replication
open LittleEndian SplitReader Wal List Nat

def maxSnapshotBlob : UInt64 := (64 : UInt64) <<< 30

def putUint64BE (v : UInt64) : Bytes := (putUint64 v).reverse

def uint64BE (bytes : Bytes) : UInt64 := uint64 bytes.reverse

@[simp] theorem length_putUint64BE (v : UInt64) : (putUint64BE v).length = 8 := by
  simp [putUint64BE]

@[simp] theorem uint64BE_putUint64BE (v : UInt64) : uint64BE (putUint64BE v) = v := by
  simp [uint64BE, putUint64BE]

def writeBlob (content : Bytes) : Bytes := putUint64BE (UInt64.ofNat content.length) ++ content

inductive BlobError (ε : Type)
  | tooLarge (n : UInt64)
  | transport (e : ε)

variable {ε σ : Type}

def passOn : Err ε → Err (BlobError ε)
  | .eof => .eof
  | .unexpectedEOF => .unexpectedEOF
  | .failed e => .failed (.transport e)

/-- An error of the stream where there should be more of it. -/
def cutShort : Err ε → Err (BlobError ε)
  | .eof => .unexpectedEOF
  | e => passOn e

theorem cutShort_ne_eof (e : Err ε) : cutShort e ≠ .eof := by
  cases e <;> simp [cutShort, passOn]

structure Blob (σ : Type) where
  r : σ
  n : ℕ
  started : Bool

section Reading
variable (R : Stream UInt8 ε σ)

namespace Blob

def new (r : σ) : Blob σ := ⟨r, 0, false⟩

def begin (b : Blob σ) : Option (Err (BlobError ε)) × Blob σ :=
  if b.started then (none, b)
  else
    match R.readFull 8 b.r with
    | (.error e, r) => (some (cutShort e), { b with r := r })
    | (.ok lenBuf, r) =>
      let n := uint64BE lenBuf
      if maxSnapshotBlob < n then (some (.failed (.tooLarge n)), ⟨r, n.toNat, true⟩)
      else (none, ⟨r, n.toNat, true⟩)

def read (b : Blob σ) (len : ℕ) : Piece UInt8 (BlobError ε) (Blob σ) :=
  match b.begin R with
  | (some e, b) => ⟨[], some e, b⟩
  | (none, b) =>
    if b.n = 0 then ⟨[], some .eof, b⟩
    else
      let piece := R.read b.r (min len b.n)
      let left := b.n - piece.data.length
      ⟨piece.data, piece.err.map (if 0 < left then cutShort else passOn), ⟨piece.next, left, true⟩⟩

/-- What a blob of `n` more bytes is, at the front of a stream, and how reading it ends. -/
def body (bytes : Bytes) (last : Err ε) (n : ℕ) : Bytes × Err (BlobError ε) :=
  (bytes.take n, if n ≤ bytes.length then .eof else cutShort last)

def whole (bytes : Bytes) (last : Err ε) : Bytes × Err (BlobError ε) :=
  if bytes.length < 8 then ([], cutShort last)
  else
    let n := uint64BE (bytes.take 8)
    if maxSnapshotBlob < n then ([], .failed (.tooLarge n)) else body (bytes.drop 8) last n.toNat

def stands (b : Blob σ) : Bytes × Err (BlobError ε) :=
  if b.started then body (R.holds b.r) (R.final b.r) b.n else whole (R.holds b.r) (R.final b.r)

def rest (b : Blob σ) : Bytes :=
  if b.started then (R.holds b.r).drop b.n
  else (R.holds b.r).drop (8 + (uint64BE ((R.holds b.r).take 8)).toNat)

variable {R} {b : Blob σ}

theorem begin_spec (b : Blob σ) :
    (∃ b', b.begin R = (none, b') ∧ b'.started = true ∧ b'.stands R = b.stands R ∧
        b'.rest R = b.rest R ∧ R.final b'.r = R.final b.r) ∨
      ∃ e b', b.begin R = (some e, b') ∧ b.stands R = ([], e) ∧ e ≠ .eof := by
  rw [begin]
  cases hstarted : b.started with
  | true => exact .inl ⟨b, by simp, hstarted, rfl, rfl, rfl⟩
  | false =>
    simp only [Bool.false_eq_true, if_false, stands, rest, hstarted, whole]
    rcases lt_or_ge (R.holds b.r).length 8 with hshort | hlong
    · obtain ⟨e, herr, hcases, hfinal⟩ := Stream.readFull_of_lt hshort
      have hcut : cutShort e = cutShort (R.final b.r) := by
        by_cases heof : R.final b.r = .eof
        · rcases hcases with rfl | rfl | rfl <;> simp [heof, cutShort, passOn]
        · rw [hfinal heof]
      refine .inr ⟨cutShort e, { b with r := (R.readFull 8 b.r).2 }, ?_, ?_, cutShort_ne_eof e⟩
      · rw [← Prod.mk.eta (p := R.readFull 8 b.r), herr, hstarted]
      · rw [if_pos hshort, hcut]
    · obtain ⟨hok, hholds, hfinal⟩ := Stream.readFull_of_le hlong
      rw [← Prod.mk.eta (p := R.readFull 8 b.r), hok, if_neg (by omega)]
      by_cases hlarge : maxSnapshotBlob < uint64BE ((R.holds b.r).take 8)
      · simp only [if_pos hlarge]
        exact .inr ⟨_, _, rfl, rfl, by simp⟩
      · simp only [if_neg hlarge]
        refine .inl ⟨_, rfl, rfl, ?_, ?_, hfinal⟩
        · simp [hholds, hfinal]
        · simp [hholds]

theorem read_body {len : ℕ} (hlen : 0 < len) (hstarted : b.started = true) (hn : b.n ≠ 0) :
    let piece := R.read b.r (min len b.n)
    let next : Blob σ := ⟨piece.next, b.n - piece.data.length, true⟩
    next.rest R = b.rest R ∧ R.final next.r = R.final b.r ∧ (piece.err = none → piece.data ≠ [] ∧
        b.stands R = (piece.data ++ (next.stands R).1, (next.stands R).2)) ∧
      ∀ e, piece.err = some e → R.holds next.r = [] ∧ b.stands R =
        (piece.data, (if 0 < b.n - piece.data.length then cutShort else passOn) e) := by
  have hpos : 0 < min len b.n := by omega
  have hle := R.length_le b.r (min len b.n) hpos
  obtain ⟨hholds, hfinal⟩ := R.holds_read b.r hpos
  refine ⟨?_, hfinal, fun hnone => ?_, fun e hsome => ?_⟩
  · simp only [rest, hstarted, if_true, hholds]
    have hpast : (R.read b.r (min len b.n)).data.drop b.n = [] := drop_eq_nil_of_le (by omega)
    rw [drop_append, hpast, nil_append]
  · refine ⟨(R.more b.r _ hpos hnone).1, ?_⟩
    simp only [stands, hstarted, if_true, body, hfinal]
    rw [hholds, take_append, take_of_length_le (by omega), length_append]
    simp only [Nat.sub_le_iff_le_add, Nat.add_comm]
  · obtain ⟨hdata, hend⟩ := R.done b.r _ e hpos hsome
    refine ⟨(R.exhausted b.r _ e hpos hsome).1, ?_⟩
    simp only [stands, hstarted, if_true, body]
    rw [hdata, take_of_length_le (by omega)]
    by_cases hleft : 0 < b.n - (R.read b.r (min len b.n)).data.length
    · rw [if_pos hleft, if_neg (by omega), ← hend]
    · have heof : e = .eof := by
        by_contra hne
        have hempty := R.clean b.r _ e hpos hsome hne
        rw [hempty, length_nil] at hleft
        omega
      rw [if_neg hleft, if_pos (by omega), heof]
      rfl

theorem read_of_begin {b' : Blob σ} (hbegin : b.begin R = (none, b')) (hn : b'.n ≠ 0) (len : ℕ) :
    b.read R len = ⟨(R.read b'.r (min len b'.n)).data, (R.read b'.r (min len b'.n)).err.map
        (if 0 < b'.n - (R.read b'.r (min len b'.n)).data.length then cutShort else passOn),
        ⟨(R.read b'.r (min len b'.n)).next, b'.n - (R.read b'.r (min len b'.n)).data.length, true⟩⟩ := by
  rw [read, hbegin]
  exact if_neg hn

theorem read_cases (b : Blob σ) {len : ℕ} (hlen : 0 < len) :
    (∃ e, (b.read R len).data = [] ∧ (b.read R len).err = some e ∧ b.stands R = ([], e) ∧ e ≠ .eof) ∨
      (∃ e, (b.read R len).data.length ≤ len ∧ (b.read R len).err = some e ∧
        b.stands R = ((b.read R len).data, e) ∧
        R.holds (b.read R len).next.r = b.rest R ∧ R.final (b.read R len).next.r = R.final b.r) ∨
      ((b.read R len).data.length ≤ len ∧ (b.read R len).err = none ∧ (b.read R len).data ≠ [] ∧
        b.stands R =
          ((b.read R len).data ++ ((b.read R len).next.stands R).1, ((b.read R len).next.stands R).2) ∧
        (b.read R len).next.rest R = b.rest R ∧ R.final (b.read R len).next.r = R.final b.r) := by
  rcases begin_spec (R := R) b with ⟨b', hbegin, hstarted, hstands, hrest, hfinal⟩ |
    ⟨e, b', hbegin, hstands, hne⟩
  · by_cases hn : b'.n = 0
    · have hread : b.read R len = ⟨[], some .eof, b'⟩ := by
        rw [read, hbegin]
        exact if_pos hn
      refine .inr (.inl ⟨.eof, by simp [hread], by rw [hread], ?_, ?_, ?_⟩)
      · rw [hread, ← hstands, Blob.stands, if_pos hstarted, hn]
        simp [body]
      · rw [hread, ← hrest, Blob.rest, if_pos hstarted, hn, drop_zero]
      · rw [hread, hfinal]
    · obtain ⟨hrest', hfinal', hmore, hdone⟩ := read_body (R := R) hlen hstarted hn
      have hle := R.length_le b'.r (min len b'.n) (by omega)
      rw [read_of_begin hbegin hn len]
      rw [hstands] at hmore hdone
      cases herr : (R.read b'.r (min len b'.n)).err with
      | none =>
        obtain ⟨hdata, heq⟩ := hmore herr
        exact .inr (.inr ⟨by simp only; omega, rfl, hdata, heq, hrest'.trans hrest,
          hfinal'.trans hfinal⟩)
      | some e =>
        obtain ⟨hover, heq⟩ := hdone e herr
        refine .inr (.inl ⟨_, by simp only; omega, rfl, heq, ?_, hfinal'.trans hfinal⟩)
        rw [← hrest, ← hrest', hover, Blob.rest, if_pos rfl]
        simp only [hover, drop_nil]
  · have hread : b.read R len = ⟨[], some e, b'⟩ := by rw [read, hbegin]
    exact .inl ⟨e, by rw [hread], by rw [hread], hstands, hne⟩

end Blob
variable {content : Bytes}

def blobReader : Reader UInt8 (BlobError ε) (Blob σ) where
  read := Blob.read R
  holds b := (b.stands R).1
  final b := (b.stands R).2
  length_le b len hlen := by
    rcases b.read_cases hlen with ⟨e, hdata, -⟩ | ⟨e, hle, -⟩ | ⟨hle, -⟩
    · rw [hdata]
      exact zero_le len
    · exact hle
    · exact hle
  more b len hlen hnone := by
    rcases b.read_cases hlen with ⟨e, -, herr, -⟩ | ⟨e, -, herr, -⟩ | ⟨-, -, hdata, hstands, -⟩
    · rw [herr] at hnone
      cases hnone
    · rw [herr] at hnone
      cases hnone
    · rw [hstands]
      exact ⟨hdata, rfl, rfl⟩
  done b len e hlen hsome := by
    rcases b.read_cases hlen with ⟨e', hdata, herr, hstands, -⟩ | ⟨e', -, herr, hstands, -⟩ | ⟨-, herr, -⟩
    · rw [herr] at hsome
      rw [hstands, hdata]
      exact ⟨rfl, (Option.some.inj hsome).symm⟩
    · rw [herr] at hsome
      rw [hstands]
      exact ⟨rfl, (Option.some.inj hsome).symm⟩
    · rw [herr] at hsome
      cases hsome

def copySize : ℕ := 32 * 1024

def writeFileFrom (r : σ) : Piece UInt8 (BlobError ε) (Blob σ) :=
  (blobReader R).copy copySize (by decide) (Blob.new r)

def readBlobs (r : σ) : Except (Err (BlobError ε)) (Bytes × Bytes) × σ :=
  let snapshot := writeFileFrom R r
  match snapshot.err with
  | some e => (.error e, snapshot.next.r)
  | none =>
    let metadata := writeFileFrom R snapshot.next.r
    match metadata.err with
    | some e => (.error e, metadata.next.r)
    | none => (.ok (snapshot.data, metadata.data), metadata.next.r)

variable {R}

theorem writeFileFrom_spec (r : σ) : (writeFileFrom R r).data = (Blob.whole (R.holds r) (R.final r)).1 ∧
      (writeFileFrom R r).err = (Blob.whole (R.holds r) (R.final r)).2.unlessEOF ∧
      ((Blob.whole (R.holds r) (R.final r)).2 = .eof →
        R.holds (writeFileFrom R r).next.r = (Blob.new r).rest R ∧
          R.final (writeFileFrom R r).next.r = R.final r) := by
  have hsize : 0 < copySize := by decide
  obtain ⟨hdata, herr⟩ := Reader.copy_spec (R := blobReader R) hsize (Blob.new r)
  refine ⟨hdata, herr, ?_⟩
  refine Reader.copy_next (R := blobReader R) hsize
    (f := fun b => ((b.stands R).2, b.rest R, R.final b.r))
    (Q := fun kept b => kept.1 = .eof → R.holds b.r = kept.2.1 ∧ R.final b.r = kept.2.2)
    (fun b hnone => ?_) (fun b e hsome heof => ?_) (Blob.new r)
  · rcases b.read_cases (R := R) hsize with ⟨e, -, herr, -⟩ | ⟨e, -, herr, -⟩ |
      ⟨-, -, -, hstands, hrest, hfinal⟩
    · exact absurd (herr.symm.trans hnone) (by simp)
    · exact absurd (herr.symm.trans hnone) (by simp)
    · exact Prod.ext (by rw [hstands]; rfl) (Prod.ext hrest hfinal)
  · rcases b.read_cases (R := R) hsize with ⟨e', -, -, hstands, hne⟩ | ⟨e', -, -, -, hrest, hfinal⟩ |
      ⟨-, herr, -⟩
    · exact absurd (by rw [← heof, hstands]) hne
    · exact ⟨hrest, hfinal⟩
    · exact absurd (herr.symm.trans hsome) (by simp)

section
variable (h : content.length ≤ maxSnapshotBlob.toNat)
include h

theorem toNat_ofNat_length : (UInt64.ofNat content.length).toNat = content.length := by
  refine UInt64.toNat_ofNat_of_lt' (lt_of_le_of_lt h ?_)
  decide

theorem whole_writeBlob (rest : Bytes)
    (last : Err ε) : Blob.whole (writeBlob content ++ rest) last = (content, .eof) := by
  have hlen := toNat_ofNat_length h
  have hhead : (writeBlob content ++ rest).take 8 = putUint64BE (UInt64.ofNat content.length) := by
    rw [writeBlob, append_assoc, take_left' (length_putUint64BE _)]
  have hbody : (writeBlob content ++ rest).drop 8 = content ++ rest := by
    rw [writeBlob, append_assoc, drop_left' (length_putUint64BE _)]
  have hsize : ¬ maxSnapshotBlob < UInt64.ofNat content.length := by
    rw [UInt64.not_lt, UInt64.le_iff_toNat_le, hlen]
    exact h
  rw [Blob.whole, if_neg (by simp [writeBlob]), hhead, hbody, uint64BE_putUint64BE]
  simp only [if_neg hsize, Blob.body, hlen]
  simp

theorem whole_take {k : ℕ} (hk : k < (writeBlob content).length) (last : Err ε) :
    (Blob.whole ((writeBlob content).take k) last).2 = cutShort last := by
  have hlen := toNat_ofNat_length h
  have htotal : (writeBlob content).length = 8 + content.length := by simp [writeBlob]
  rw [Blob.whole]
  rcases lt_or_ge k 8 with hlt | hge
  · rw [if_pos (by rw [length_take]; omega)]
  · have hhead : ((writeBlob content).take k).take 8 = putUint64BE (UInt64.ofNat content.length) := by
      rw [take_take, min_eq_left hge, writeBlob, take_left' (length_putUint64BE _)]
    have hsize : ¬ maxSnapshotBlob < UInt64.ofNat content.length := by
      rw [UInt64.not_lt, UInt64.le_iff_toNat_le, hlen]
      exact h
    rw [if_neg (by rw [length_take]; omega), hhead, uint64BE_putUint64BE]
    simp only [if_neg hsize, Blob.body, hlen]
    rw [if_neg (by rw [length_drop, length_take]; omega)]

end

end Reading

inductive DecodeError (ε : Type)
  | read (e : Err ε)
  | frame (e : ReadError)

section Records
variable (crc : Bytes → UInt32) (R : Stream UInt8 ε σ) {r : σ} {rec : Record}

def decodeRecord (r : σ) : Except (DecodeError ε) Record × σ :=
  match R.readFull 8 r with
  | (.error e, r) => (.error (.read e), r)
  | (.ok header, r) =>
    let length := (uint32 (header.take 4)).toNat
    let wantCRC := uint32 ((header.drop 4).take 4)
    if length < 4 ∨ maxRecordLen < length then (.error (.frame .corruptTail), r)
    else
      match R.readFull (length - 4) r with
      | (.error .eof, r) => (.error (.read .unexpectedEOF), r)
      | (.error e, r) => (.error (.read e), r)
      | (.ok payload, r) =>
        if crc payload ≠ wantCRC then (.error (.frame .corruptTail), r)
        else
          match decodePayload payload with
          | .error e => (.error (.frame e), r)
          | .ok rec => (.ok rec, r)

variable {crc R}

theorem readFull_bytes {n : ℕ} {b a rest : Bytes} (h : Wal.readFull n b = .ok (a, rest)) :
    n ≤ b.length ∧ a = b.take n ∧ rest = b.drop n := by
  obtain ⟨rfl, hlen⟩ := readFull_ok h
  exact ⟨by rw [length_append]; omega, (take_left' hlen).symm, (drop_left' hlen).symm⟩

theorem readFull_eq {n : ℕ} {b : Bytes} (h : n ≤ b.length) : Wal.readFull n b = .ok (b.take n, b.drop n) :=
  if_pos h

theorem decodeRecord_of_readFrame {n : ℕ} {rest : Bytes}
    (h : readFrame crc (R.holds r) = .ok (rec, n, rest)) :
    (decodeRecord crc R r).1 = .ok rec ∧ R.holds (decodeRecord crc R r).2 = rest := by
  obtain ⟨header, b, payload, hheader, hbound, hpayload, hcrc, hdecode, -⟩ := readFrame_eq_ok crc h
  obtain ⟨hlen, rfl, rfl⟩ := readFull_bytes hheader
  obtain ⟨hok, hholds, -⟩ := Stream.readFull_of_le hlen
  obtain ⟨hlen', rfl, rfl⟩ := readFull_bytes hpayload
  rw [← hholds] at hlen' hcrc hdecode ⊢
  obtain ⟨hok', hholds', -⟩ := Stream.readFull_of_le hlen'
  rw [decodeRecord, ← Prod.mk.eta (p := R.readFull 8 r), hok]
  simp only [if_neg hbound]
  rw [← Prod.mk.eta (p := R.readFull _ (R.readFull 8 r).2), hok']
  simp only [if_neg hcrc, hdecode]
  exact ⟨trivial, hholds'⟩

theorem readFrame_of_decodeRecord (h : (decodeRecord crc R r).1 = .ok rec) :
    ∃ n, readFrame crc (R.holds r) = .ok (rec, n, R.holds (decodeRecord crc R r).2) := by
  unfold decodeRecord at h ⊢
  split at h
  · cases h
  next header r₁ hheader =>
  obtain ⟨hlen, rfl, hholds⟩ := Stream.readFull_ok (congrArg Prod.fst hheader)
  rw [hheader] at hholds
  simp only at h hholds ⊢
  split at h
  · cases h
  next hbound =>
  split at h
  · cases h
  · cases h
  next payload r₂ hpayload =>
  obtain ⟨hlen', rfl, hholds'⟩ := Stream.readFull_ok (congrArg Prod.fst hpayload)
  rw [if_neg hbound]
  rw [hpayload] at hholds'
  simp only at h hholds' ⊢
  split at h
  · cases h
  next hcrc =>
  split at h
  · cases h
  next rec' hdecode =>
  rw [Except.ok.injEq] at h
  subst h
  rw [if_neg hcrc, readFrame, readFull_eq hlen]
  simp only [if_neg hbound, ← hholds, readFull_eq hlen', if_neg hcrc, hdecode, hholds']
  exact ⟨_, rfl⟩

theorem holds_decodeRecord_lt (h : (decodeRecord crc R r).1 = .ok rec) :
    (R.holds (decodeRecord crc R r).2).length < (R.holds r).length := by
  obtain ⟨n, hframe⟩ := readFrame_of_decodeRecord h
  obtain ⟨-, hsplit, -⟩ := encodeRecord_of_readFrame crc hframe
  rw [hsplit, length_append, encodeRecord_length]
  omega

variable (crc R) in
def decodeRecords (r : σ) : List Record × DecodeError ε :=
  match _hread : (decodeRecord crc R r).1 with
  | .error e => ([], e)
  | .ok rec =>
    let rest := decodeRecords (decodeRecord crc R r).2
    (rec :: rest.1, rest.2)
termination_by (R.holds r).length
decreasing_by exact holds_decodeRecord_lt _hread

theorem decodeRecords_ok (h : (decodeRecord crc R r).1 = .ok rec) :
    decodeRecords crc R r = (rec :: (decodeRecords crc R (decodeRecord crc R r).2).1,
      (decodeRecords crc R (decodeRecord crc R r).2).2) := by
  rw [decodeRecords]
  split
  · next e herr =>
    rw [herr] at h
    cases h
  · next rec' hok =>
    rw [hok, Except.ok.injEq] at h
    rw [h]

theorem decodeRecords_nil (hholds : R.holds r = []) : (decodeRecords crc R r).1 = [] := by
  rw [decodeRecords]
  split
  · rfl
  · next rec hok =>
    have hlt := holds_decodeRecord_lt hok
    rw [hholds] at hlt
    cases hlt

theorem decodeRecords_encodeRecords {records : List Record} (hreadable : ∀ rec ∈ records, rec.Readable)
    (hholds : R.holds r = records.flatMap (encodeRecord crc)) :
    (decodeRecords crc R r).1 = records := by
  induction records generalizing r with
  | nil => exact decodeRecords_nil hholds
  | cons rec records ih =>
    obtain ⟨hrec, hrecords⟩ := forall_mem_cons.mp hreadable
    rw [flatMap_cons] at hholds
    obtain ⟨hok, hrest⟩ := decodeRecord_of_readFrame (R := R) (r := r)
      (by rw [hholds]; exact readFrame_encodeRecord crc hrec _)
    rw [decodeRecords_ok hok, ih hrecords hrest]

end Records

section Bootstrap
variable {R : Stream UInt8 ε σ} {snapshot metadata rest content : Bytes} {r : σ} {k : ℕ}

def sent (crc : Bytes → UInt32) (snapshot metadata : Bytes) (records : List Record) : Bytes :=
  writeBlob snapshot ++ (writeBlob metadata ++ records.flatMap (encodeRecord crc))

section
variable (h : content.length ≤ maxSnapshotBlob.toNat)
include h

theorem rest_new (hholds : R.holds r = writeBlob content ++ rest) : (Blob.new r).rest R = rest := by
  have hhead : (writeBlob content ++ rest).take 8 = putUint64BE (UInt64.ofNat content.length) := by
    rw [writeBlob, append_assoc, take_left' (length_putUint64BE _)]
  have hlen : (writeBlob content).length = 8 + content.length := by simp [writeBlob]
  simp only [Blob.rest, Blob.new, Bool.false_eq_true, if_false, hholds]
  rw [hhead, uint64BE_putUint64BE, toNat_ofNat_length h, drop_left' hlen]

theorem writeFileFrom_writeBlob (hholds : R.holds r = writeBlob content ++ rest) :
    (writeFileFrom R r).data = content ∧ (writeFileFrom R r).err = none ∧
      R.holds (writeFileFrom R r).next.r = rest := by
  obtain ⟨hdata, herr, hnext⟩ := writeFileFrom_spec (R := R) r
  rw [hholds, whole_writeBlob h] at hdata herr hnext
  exact ⟨hdata, herr, (hnext rfl).1.trans (rest_new h hholds)⟩

theorem writeFileFrom_take
    (hk : k < (writeBlob content).length) (hholds : R.holds r = (writeBlob content).take k) :
    ∃ e, (writeFileFrom R r).err = some e ∧ e ≠ .eof := by
  obtain ⟨-, herr, -⟩ := writeFileFrom_spec (R := R) r
  refine ⟨cutShort (R.final r), ?_, cutShort_ne_eof _⟩
  rw [herr, hholds, whole_take h hk]
  cases R.final r <;> rfl

end

section
variable (hsnapshot : snapshot.length ≤ maxSnapshotBlob.toNat)
  (hmetadata : metadata.length ≤ maxSnapshotBlob.toNat)
include hsnapshot hmetadata

theorem readBlobs_sent (hholds : R.holds r = writeBlob snapshot ++ (writeBlob metadata ++ rest)) :
    (readBlobs R r).1 = .ok (snapshot, metadata) ∧ R.holds (readBlobs R r).2 = rest := by
  obtain ⟨hdata, herr, hnext⟩ := writeFileFrom_writeBlob hsnapshot hholds
  obtain ⟨hdata', herr', hnext'⟩ := writeFileFrom_writeBlob hmetadata hnext
  simp only [readBlobs, herr, herr', hdata, hdata']
  exact ⟨trivial, hnext'⟩

theorem readBlobs_take (hk : k < (writeBlob snapshot).length + (writeBlob metadata).length)
    (hholds : R.holds r = (writeBlob snapshot ++ (writeBlob metadata ++ rest)).take k) :
    ∃ e, (readBlobs R r).1 = .error e ∧ e ≠ .eof := by
  rcases lt_or_ge k (writeBlob snapshot).length with hlt | hge
  · rw [take_append_of_le_length (le_of_lt hlt)] at hholds
    obtain ⟨e, herr, hne⟩ := writeFileFrom_take hsnapshot hlt hholds
    exact ⟨e, by simp only [readBlobs, herr], hne⟩
  · rw [take_append, take_of_length_le hge, take_append_of_le_length (by omega)] at hholds
    obtain ⟨-, herr, hnext⟩ := writeFileFrom_writeBlob hsnapshot hholds
    obtain ⟨e, herr', hne⟩ := writeFileFrom_take hmetadata (by omega) hnext
    exact ⟨e, by simp only [readBlobs, herr, herr'], hne⟩

end

theorem whole_eq_eof (hsize : content.length < UInt64.size) {last : Err ε}
    (h : (Blob.whole ((writeBlob content ++ rest).take k) last).2 = .eof) :
    content.length ≤ maxSnapshotBlob.toNat ∧ (writeBlob content).length ≤ k := by
  rcases Nat.lt_or_ge maxSnapshotBlob.toNat content.length with hlarge | hfits
  · have hlen : (UInt64.ofNat content.length).toNat = content.length := UInt64.toNat_ofNat_of_lt' hsize
    have htoo : maxSnapshotBlob < UInt64.ofNat content.length := by
      rw [UInt64.lt_iff_toNat_lt, hlen]
      exact hlarge
    rw [Blob.whole] at h
    split at h
    · exact absurd h (cutShort_ne_eof last)
    · next hlong =>
      have hk : 8 ≤ k := by
        rw [length_take] at hlong
        omega
      have hhead : ((writeBlob content ++ rest).take k).take 8 =
          putUint64BE (UInt64.ofNat content.length) := by
        rw [take_take, Nat.min_eq_left hk, writeBlob, append_assoc, take_left' (length_putUint64BE _)]
      rw [hhead, uint64BE_putUint64BE, if_pos htoo] at h
      cases h
  · refine ⟨hfits, Nat.le_of_not_lt fun hlt => ?_⟩
    rw [take_append_of_le_length hlt.le, whole_take hfits hlt] at h
    exact cutShort_ne_eof last h

theorem writeFileFrom_eq_none (hsize : content.length < UInt64.size)
    (hholds : R.holds r = (writeBlob content ++ rest).take k)
    (herr : (writeFileFrom R r).err = none) :
    (writeBlob content).length ≤ k ∧ (writeFileFrom R r).data = content ∧
      R.holds (writeFileFrom R r).next.r = rest.take (k - (writeBlob content).length) := by
  have hend : (Blob.whole (R.holds r) (R.final r)).2 = .eof := by
    have hspec := (writeFileFrom_spec (R := R) r).2.1
    rw [herr] at hspec
    cases hwhole : (Blob.whole (R.holds r) (R.final r)).2 with
    | eof => rfl
    | unexpectedEOF | failed e => simp [hwhole, Err.unlessEOF] at hspec
  rw [hholds] at hend
  obtain ⟨hfits, hk⟩ := whole_eq_eof hsize hend
  rw [take_append, take_of_length_le hk] at hholds
  obtain ⟨hdata, -, hnext⟩ := writeFileFrom_writeBlob hfits hholds
  exact ⟨hk, hdata, hnext⟩

theorem readBlobs_eq_ok (hsnapshot : snapshot.length < UInt64.size)
    (hmetadata : metadata.length < UInt64.size) {out : Bytes × Bytes}
    (hholds : R.holds r = (writeBlob snapshot ++ (writeBlob metadata ++ rest)).take k)
    (hok : (readBlobs R r).1 = .ok out) :
    out = (snapshot, metadata) ∧ (writeBlob snapshot).length + (writeBlob metadata).length ≤ k ∧
      R.holds (readBlobs R r).2 =
        rest.take (k - ((writeBlob snapshot).length + (writeBlob metadata).length)) := by
  simp only [readBlobs] at hok ⊢
  cases herr : (writeFileFrom R r).err with
  | some e => simp [herr] at hok
  | none =>
    obtain ⟨hk, hdata, hnext⟩ := writeFileFrom_eq_none hsnapshot hholds herr
    cases herr' : (writeFileFrom R (writeFileFrom R r).next.r).err with
    | some e => simp [herr, herr'] at hok
    | none =>
      obtain ⟨hk', hdata', hnext'⟩ := writeFileFrom_eq_none hmetadata hnext herr'
      simp only [herr, herr', hdata, hdata', Except.ok.injEq] at hok ⊢
      refine ⟨hok.symm, by omega, ?_⟩
      rw [hnext', Nat.sub_sub]

end Bootstrap

def bufferSize : ℕ := 4096

def reader (conn : Stream UInt8 ε σ) : Stream UInt8 ε (Buffered conn) :=
  buffered conn bufferSize (by decide)

/-- Whatever way the connection cuts the bytes, the follower reads the two blobs and the records
that were sent; and if the bytes break off within the blobs, reading them fails. -/
theorem bootstrap_framing (crc : Bytes → UInt32) (conn : Stream UInt8 ε σ) (c : σ)
    (snapshot metadata : Bytes) (records : List Record)
    (hsnapshot : snapshot.length ≤ maxSnapshotBlob.toNat)
    (hmetadata : metadata.length ≤ maxSnapshotBlob.toNat)
    (hreadable : ∀ rec ∈ records, rec.Readable) :
    (conn.holds c = sent crc snapshot metadata records →
      (readBlobs (reader conn) (Buffered.start c)).1 = .ok (snapshot, metadata) ∧
      (decodeRecords crc (reader conn) (readBlobs (reader conn) (Buffered.start c)).2).1 = records) ∧
    ∀ k < (writeBlob snapshot).length + (writeBlob metadata).length,
      conn.holds c = (sent crc snapshot metadata records).take k →
        ∃ e, (readBlobs (reader conn) (Buffered.start c)).1 = .error e ∧ e ≠ .eof := by
  have hstart : (reader conn).holds (Buffered.start c) = conn.holds c := rfl
  constructor
  · intro hsent
    obtain ⟨hblobs, hrest⟩ := readBlobs_sent hsnapshot hmetadata (hstart.trans hsent)
    exact ⟨hblobs, decodeRecords_encodeRecords hreadable hrest⟩
  · intro k hk hcut
    exact readBlobs_take hsnapshot hmetadata hk (hstart.trans hcut)

theorem framing_of_a_delete : ((readBlobs (reader (Stream.ofList (α := UInt8))) (Buffered.start
        (sent crc32ChecksumIEEE [1, 2] [3] [⟨1, opDelete, 7, [], []⟩]))).1 = .ok ([1, 2], [3]) ∧
      (decodeRecords crc32ChecksumIEEE (reader (Stream.ofList (α := UInt8)))
        (readBlobs (reader (Stream.ofList (α := UInt8))) (Buffered.start
          (sent crc32ChecksumIEEE [1, 2] [3] [⟨1, opDelete, 7, [], []⟩]))).2).1 =
        [⟨1, opDelete, 7, [], []⟩]) ∧
      ∃ e, (readBlobs (reader (Stream.ofList (α := UInt8))) (Buffered.start
        ((sent crc32ChecksumIEEE [1, 2] [3] [⟨1, opDelete, 7, [], []⟩]).take 12))).1 = .error e ∧
          e ≠ .eof := by
  have hreadable : ∀ rec ∈ [(⟨1, opDelete, 7, [], []⟩ : Record)], rec.Readable := by
    simp only [mem_singleton, forall_eq]
    exact ⟨by decide, by decide⟩
  exact ⟨(bootstrap_framing _ Stream.ofList _ [1, 2] [3] _ (by decide) (by decide) hreadable).1 rfl,
    (bootstrap_framing _ Stream.ofList _ [1, 2] [3] _ (by decide) (by decide) hreadable).2 12 (by decide) rfl⟩

theorem unknown_operation_not_read :
    (decodeRecords crc32ChecksumIEEE (reader (Stream.ofList (α := UInt8)))
        (readBlobs (reader (Stream.ofList (α := UInt8))) (Buffered.start
          (sent crc32ChecksumIEEE [] [] [⟨1, 0, 7, [], []⟩]))).2).1 ≠ [⟨1, 0, 7, [], []⟩] := by
  intro h
  rw [decodeRecords] at h
  split at h
  · cases h
  · next rec hok =>
    obtain ⟨n, hframe⟩ := readFrame_of_decodeRecord hok
    have hvalid := (encodeRecord_of_readFrame _ hframe).1.1
    rw [(List.cons.inj h).1] at hvalid
    exact absurd hvalid (by decide)

end NuclaDB.Replication
