import NuclaDB.WalRecoverExact

/-!
# The log writer

The writer syncs after every call. The write may stop after any number of bytes, and the
sync may fail with all of them in the file; either failure poisons the writer.
-/

namespace NuclaDB.Wal
open LittleEndian List

inductive Outcome
  | ok
  | writeFails (n : ℕ)
  | syncFails
  deriving DecidableEq, Repr

inductive WriterError
  | writerFailed
  | closed
  | outOfOrder (got want : UInt64)
  | io
  deriving DecidableEq, Repr

structure Writer where
  nextSeq : UInt64
  failed : Bool
  closed : Bool
  deriving DecidableEq, Repr

namespace Writer

def readyLocked (w : Writer) : Except WriterError Unit :=
  if w.failed then .error .writerFailed
  else if w.closed then .error .closed
  else .ok ()

def failLocked (w : Writer) : Writer := { w with failed := true, closed := true }

def close (w : Writer) : Writer := { w with closed := true }

/-- `Write` and then `Sync` of `buf`: the file afterwards, and whether both succeeded. -/
def writeSync (buf file : Bytes) : Outcome → Bytes × Bool
  | .ok => (file ++ buf, true)
  | .writeFails n => (file ++ buf.take n, false)
  | .syncFails => (file ++ buf, false)

section Append
variable (crc : Bytes → UInt32) (w : Writer)

def appendWithExtra (io : Outcome) (file : Bytes) (op : UInt8) (id : UInt64)
    (vector : List UInt32) (extra : Bytes) : Writer × Bytes × Except WriterError UInt64 :=
  match w.readyLocked with
  | .error e => (w, file, .error e)
  | .ok () =>
    let seq := w.nextSeq
    let payload := encodePayload ⟨seq, op, id, vector, extra⟩
    let buf := putUint32 (UInt32.ofNat (4 + payload.length)) ++ putUint32 (crc payload) ++ payload
    match writeSync buf file io with
    | (file, false) => (w.failLocked, file, .error .io)
    | (file, true) => ({ w with nextSeq := w.nextSeq + 1 }, file, .ok seq)

def appendRecord (io : Outcome) (file : Bytes) (rec : Record) :
    Writer × Bytes × Except WriterError Unit :=
  match w.readyLocked with
  | .error e => (w, file, .error e)
  | .ok () =>
    if rec.seq ≠ w.nextSeq then (w, file, .error (.outOfOrder rec.seq w.nextSeq))
    else
      match writeSync (encodeRecord crc rec) file io with
      | (file, false) => (w.failLocked, file, .error .io)
      | (file, true) => ({ w with nextSeq := w.nextSeq + 1 }, file, .ok ())

def assignSeqs (nextSeq : UInt64) : List Record → List Record
  | [] => []
  | r :: rs => { r with seq := nextSeq } :: assignSeqs (nextSeq + 1) rs

def advance (nextSeq : UInt64) (items : List Record) : UInt64 :=
  items.foldl (fun n _ => n + 1) nextSeq

def appendBatch (io : Outcome) (file : Bytes) (items : List Record) :
    Writer × Bytes × Except WriterError (List UInt64) :=
  if items.length = 0 then (w, file, .ok [])
  else
    match w.readyLocked with
    | .error e => (w, file, .error e)
    | .ok () =>
      let recs := assignSeqs w.nextSeq items
      match writeSync (recs.flatMap (encodeRecord crc)) file io with
      | (file, false) => (w.failLocked, file, .error .io)
      | (file, true) =>
        ({ w with nextSeq := advance w.nextSeq items }, file, .ok (recs.map Record.seq))

def size (file : Bytes) : Except WriterError ℕ :=
  match w.readyLocked with
  | .error e => .error e
  | .ok () => .ok file.length

end Append

end Writer

def openAppend (path : Option Bytes) (startSeq : UInt64) : Writer × Bytes :=
  (⟨startSeq + 1, false, false⟩, path.getD [])

def openWriterAt (path : Option Bytes) (startSeq : UInt64) (validBytes : ℕ) : Writer × Bytes :=
  openAppend (path.map (truncateTo · validBytes)) startSeq

def openWriter (crc : Bytes → UInt32) (path : Option Bytes) (startSeq : UInt64) :
    Except (RecoverError Empty) (Writer × Bytes) :=
  let out := recover crc (fun (_ : Unit) (_ : Record) => (.ok () : Except Empty Unit)) path ()
  match out.err with
  | some e => .error e
  | none => .ok (openWriterAt path startSeq out.validBytes)

theorem toNat_add_one {n : UInt64} (h : n.toNat + 1 < 2 ^ 64) : (n + 1).toNat = n.toNat + 1 := by
  rw [UInt64.toNat_add]
  exact Nat.mod_eq_of_lt h

theorem lt_add_one_of_le {a n : UInt64} (ha : a ≤ n) (h : n.toNat + 1 < 2 ^ 64) : a < n + 1 := by
  rw [UInt64.le_iff_toNat_le] at ha
  rw [UInt64.lt_iff_toNat_lt, toNat_add_one h]
  omega

theorem toNat_ofNat {a : ℕ} (ha : a < 2 ^ 64) : (UInt64.ofNat a).toNat = a := by
  rw [UInt64.toNat_ofNat', Nat.mod_eq_of_lt ha]

theorem toNat_add_ofNat {n : UInt64} {k : ℕ} (h : n.toNat + k < 2 ^ 64) :
    (n + UInt64.ofNat k).toNat = n.toNat + k := by
  rw [UInt64.toNat_add, toNat_ofNat (by omega), Nat.mod_eq_of_lt h]

theorem ofNat_inj {a b : ℕ} (ha : a < 2 ^ 64) (hb : b < 2 ^ 64) :
    UInt64.ofNat a = UInt64.ofNat b ↔ a = b := by
  rw [← UInt64.toNat_inj, toNat_ofNat ha, toNat_ofNat hb]

variable (crc : Bytes → UInt32)

/-- The reader accepts the frame, and its length field is the true length of what follows it. -/
def FrameAccepted (frame : Bytes) : Prop :=
  (∃ r, readFrame crc frame = .ok (r, frame.length, [])) ∧
    (uint32 (frame.take 4)).toNat = frame.length - 4 ∧
    4 ≤ (uint32 (frame.take 4)).toNat ∧ (uint32 (frame.take 4)).toNat ≤ maxRecordLen

theorem frameAccepted_encodeRecord_iff {r : Record} (hop : r.ValidOp) :
    FrameAccepted crc (encodeRecord crc r) ↔
      29 + 4 * r.vector.length + r.extra.length ≤ maxRecordLen := by
  have hlen := encodeRecord_length_eq crc r
  have hsize := frameLen_eq r
  constructor
  · rintro ⟨-, hfield, -, hmax⟩
    rw [hfield, hlen] at hmax
    omega
  · intro hfits
    have hmax : r.frameLen ≤ maxRecordLen := by omega
    have hsmall : r.frameLen < 2 ^ 32 := by
      unfold maxRecordLen at hmax
      omega
    have hfield : (uint32 ((encodeRecord crc r).take 4)).toNat = r.frameLen := by
      simp only [encodeRecord, append_assoc]
      rw [take_left' (putUint32_length _), uint32_putUint32]
      exact UInt32.toNat_ofNat_of_lt' hsmall
    refine ⟨⟨r, ?_⟩, by omega, by omega, by omega⟩
    have hread := readFrame_encodeRecord crc (r := r) ⟨hop, hmax⟩ []
    rwa [append_nil] at hread

theorem openWriter_frames {rs : List Record} {t : Bytes} (hrs : ∀ r ∈ rs, r.Readable)
    (hl : Linked 0 rs) (ht : frameAt crc t = none) (n : UInt64) :
    (¬ (t = [] ∨ CleanTail crc (lastSeqFrom 0 rs) t) ∧
      ∃ e, openWriter crc (some ((walCode crc).encAll rs ++ t)) n = .error e) ∨
    openWriter crc (some ((walCode crc).encAll rs ++ t)) n =
      .ok (⟨n + 1, false, false⟩, (walCode crc).encAll rs) := by
  obtain ⟨hbytes, -, -, herr, -⟩ := recover_frames crc
    (fun (_ : Unit) (_ : Record) => (.ok () : Except Empty Unit)) hrs hl ht (foldlM_ok _ rs ())
  simp only [openWriter]
  split
  · next e he =>
    refine .inl ⟨fun hclean => ?_, e, rfl⟩
    rw [herr.mpr hclean] at he
    cases he
  · right
    rw [hbytes, openWriterAt, openAppend, Option.map_some, truncateTo_append, Option.getD_some]

namespace Writer
variable {items : List Record} {w w' : Writer} {file file' : Bytes} {io : Outcome} {n : UInt64}

theorem writeSync_ok {buf : Bytes}
    (h : writeSync buf file io = (file', true)) : file' = file ++ buf := by
  cases io <;> simp_all [writeSync]

theorem appendWithExtra_ok {op : UInt8} {id seq : UInt64} {vector : List UInt32} {extra : Bytes}
    (h : w.appendWithExtra crc io file op id vector extra = (w', file', .ok seq)) :
    seq = w.nextSeq ∧ w' = { w with nextSeq := w.nextSeq + 1 } ∧
      file' = file ++ encodeRecord crc ⟨seq, op, id, vector, extra⟩ := by
  unfold appendWithExtra at h
  split at h
  · cases h
  · simp only at h
    split at h
    · cases h
    next file₁ hsync =>
      simp only [Prod.mk.injEq, Except.ok.injEq] at h
      obtain ⟨rfl, rfl, rfl⟩ := h
      exact ⟨rfl, rfl, writeSync_ok hsync⟩

theorem appendRecord_ok {rec : Record} (h : w.appendRecord crc io file rec = (w', file', .ok ())) :
    rec.seq = w.nextSeq ∧ w' = { w with nextSeq := w.nextSeq + 1 } ∧
      file' = file ++ encodeRecord crc rec := by
  unfold appendRecord at h
  split at h
  · cases h
  · split at h
    · cases h
    next hseq =>
      split at h
      · cases h
      next file₁ hsync =>
        simp only [Prod.mk.injEq, and_true] at h
        obtain ⟨rfl, rfl⟩ := h
        exact ⟨not_not.mp hseq, rfl, writeSync_ok hsync⟩

theorem appendBatch_ok
    {seqs : List UInt64} (h : w.appendBatch crc io file items = (w', file', .ok seqs)) :
    seqs = (assignSeqs w.nextSeq items).map Record.seq ∧
      w' = { w with nextSeq := advance w.nextSeq items } ∧
      file' = file ++ (walCode crc).encAll (assignSeqs w.nextSeq items) := by
  unfold appendBatch at h
  split at h
  next hnil =>
    have hitems := length_eq_zero_iff.mp hnil
    simp only [Prod.mk.injEq, Except.ok.injEq] at h
    obtain ⟨rfl, rfl, rfl⟩ := h
    simp [hitems, assignSeqs, advance]
  next =>
    split at h
    · cases h
    · simp only at h
      split at h
      · cases h
      next file₁ hsync =>
        simp only [Prod.mk.injEq, Except.ok.injEq] at h
        obtain ⟨rfl, rfl, rfl⟩ := h
        exact ⟨rfl, rfl, writeSync_ok hsync⟩

theorem appendBatch_ready (hready : w.readyLocked = .ok ()) (file : Bytes) (hne : items ≠ []) :
    w.appendBatch crc .ok file items = ({ w with nextSeq := advance w.nextSeq items },
      file ++ (walCode crc).encAll (assignSeqs w.nextSeq items),
      .ok ((assignSeqs w.nextSeq items).map Record.seq)) := by
  have hlen : items.length ≠ 0 := by simpa using hne
  simp only [appendBatch, if_neg hlen, hready, writeSync]
  rfl

theorem appendRecord_ready (hready : w.readyLocked = .ok ()) (file : Bytes)
    {rec : Record} (hseq : rec.seq = w.nextSeq) :
    w.appendRecord crc .ok file rec =
      ({ w with nextSeq := w.nextSeq + 1 }, file ++ encodeRecord crc rec, .ok ()) := by
  simp only [appendRecord, hready, ne_eq, hseq, not_true_eq_false, if_false, writeSync]

theorem appendBatch_error
    {err : WriterError} (h : w.appendBatch crc io file items = (w', file', .error err)) :
    w'.readyLocked ≠ .ok () := by
  simp only [appendBatch] at h
  split at h
  · simp at h
  · split at h
    · next e hready =>
      simp only [Prod.mk.injEq] at h
      rw [← h.1, hready]
      simp
    · split at h
      · simp only [Prod.mk.injEq] at h
        simp [← h.1, failLocked, readyLocked]
      · simp at h

theorem appendRecord_error {rec : Record}
    {err : WriterError} (h : w.appendRecord crc io file rec = (w', file', .error err)) :
    w' = w ∨ w'.readyLocked ≠ .ok () := by
  simp only [appendRecord] at h
  split at h
  · simp only [Prod.mk.injEq] at h
    exact .inl h.1.symm
  · split at h
    · simp only [Prod.mk.injEq] at h
      exact .inl h.1.symm
    · split at h
      · simp only [Prod.mk.injEq] at h
        right
        simp [← h.1, failLocked, readyLocked]
      · simp at h

theorem advance_eq_last (n d : UInt64) (hne : items ≠ []) :
    advance n items = ((assignSeqs n items).map Record.seq).getLastD d + 1 := by
  induction items generalizing n d with
  | nil => exact absurd rfl hne
  | cons r items ih =>
    cases items with
    | nil => simp [advance, assignSeqs]
    | cons r' items => exact ih (n + 1) n (by simp)

section
variable (n : UInt64)

theorem assignSeqs_length (items : List Record) : (assignSeqs n items).length = items.length := by
  induction items generalizing n with
  | nil => rfl
  | cons r items ih => simp [assignSeqs, ih]

theorem assignSeqs_append (items more : List Record) : assignSeqs n (items ++ more) =
      assignSeqs n items ++ assignSeqs (n + UInt64.ofNat items.length) more := by
  induction items generalizing n with
  | nil => simp [assignSeqs]
  | cons r items ih =>
    simp only [cons_append, assignSeqs, ih, length_cons, UInt64.ofNat_add]
    rw [UInt64.add_assoc, UInt64.add_comm (UInt64.ofNat items.length)]
    rfl

theorem assignSeqs_take (items : List Record) (j : ℕ) :
    (assignSeqs n items).take j = assignSeqs n (items.take j) := by
  induction items generalizing n j with
  | nil => simp [assignSeqs]
  | cons r items ih => cases j <;> simp [assignSeqs, ih]

theorem lastSeqFrom_assignSeqs (items : List Record) :
    lastSeqFrom n (assignSeqs (n + 1) items) = n + UInt64.ofNat items.length := by
  induction items generalizing n with
  | nil => simp [assignSeqs, lastSeqFrom]
  | cons r items ih =>
    rw [assignSeqs, lastSeqFrom_cons, ih, length_cons, UInt64.ofNat_add, UInt64.add_assoc,
      UInt64.add_comm 1]
    rfl

theorem linked_assignSeqs (items : List Record) : Linked n (assignSeqs (n + 1) items) := by
  induction items generalizing n with
  | nil => trivial
  | cons r items ih => exact ⟨fun _ => rfl, ih (n + 1)⟩

theorem linked_zero_assignSeqs (items : List Record) : Linked 0 (assignSeqs n items) := by
  cases items with
  | nil => trivial
  | cons r items => exact ⟨fun h => absurd rfl h, linked_assignSeqs n items⟩

end

theorem seq_of_getElem?_assignSeqs {r : Record} {p : ℕ}
    (hroom : n.toNat + items.length < 2 ^ 64) (hr : (assignSeqs (n + 1) items)[p]? = some r) :
    r.seq.toNat = n.toNat + p + 1 := by
  induction items generalizing n p with
  | nil => simp [assignSeqs] at hr
  | cons r' items ih =>
    simp only [length_cons] at hroom
    have hnext := toNat_add_one (n := n) (by omega)
    cases p with
    | zero =>
      simp only [assignSeqs, getElem?_cons_zero, Option.some.injEq] at hr
      rw [← hr]
      exact hnext
    | succ p =>
      have hrest := ih (by omega) hr
      omega

theorem seq_of_mem_assignSeqs {r : Record}
    (hroom : n.toNat + items.length < 2 ^ 64) (hr : r ∈ assignSeqs (n + 1) items) :
    n.toNat < r.seq.toNat ∧ r.seq.toNat ≤ n.toNat + items.length := by
  obtain ⟨p, hp⟩ := List.mem_iff_getElem?.mp hr
  have hlt := (List.getElem?_eq_some_iff.mp hp).1
  rw [assignSeqs_length] at hlt
  have hseq := seq_of_getElem?_assignSeqs hroom hp
  omega

theorem advance_eq_add (n : UInt64) (items : List Record) :
    advance n items = n + UInt64.ofNat items.length := by
  induction items generalizing n with
  | nil => simp [advance]
  | cons r items ih =>
    have hcons : advance n (r :: items) = advance (n + 1) items := rfl
    rw [hcons, ih, length_cons, Nat.add_comm, UInt64.ofNat_add, UInt64.add_assoc]
    rfl

theorem getElem?_assignSeqs (n : UInt64) (items : List Record) (p : ℕ) :
    (assignSeqs n items)[p]? = items[p]?.map fun r => { r with seq := n + UInt64.ofNat p } := by
  induction items generalizing n p with
  | nil => rfl
  | cons r items ih =>
    cases p with
    | zero => simp [assignSeqs]
    | succ p =>
      rw [assignSeqs, getElem?_cons_succ, getElem?_cons_succ, ih, UInt64.ofNat_add,
        UInt64.add_comm (UInt64.ofNat p), ← UInt64.add_assoc]
      rfl

theorem mem_assignSeqs {r : Record}
    (h : r ∈ assignSeqs n items) : ∃ r' ∈ items, r = { r' with seq := r.seq } := by
  induction items generalizing n with
  | nil => simp [assignSeqs] at h
  | cons x rs ih =>
    rcases mem_cons.mp h with rfl | h
    · exact ⟨x, by simp, rfl⟩
    · obtain ⟨r', hr', he⟩ := ih h
      exact ⟨r', by simp [hr'], he⟩

theorem consecutive_assignSeqs (n : UInt64) (items : List Record) :
    Consecutive (assignSeqs n items) := by
  induction items generalizing n with
  | nil => exact isChain_nil
  | cons r items ih =>
    cases items with
    | nil => exact isChain_singleton _
    | cons r' items => exact isChain_cons_cons.mpr ⟨rfl, ih (n + 1)⟩

theorem readable_assignSeqs (hitems : ∀ r ∈ items, r.Readable)
    (n : UInt64) : ∀ r ∈ assignSeqs n items, r.Readable := by
  intro r hr
  obtain ⟨r', hr', he⟩ := mem_assignSeqs hr
  obtain ⟨hop, hlen⟩ := hitems r' hr'
  rw [he]
  refine ⟨hop, ?_⟩
  rw [frameLen_eq] at hlen ⊢
  exact hlen

theorem torn_assignSeqs (hitems : ∀ r ∈ items, r.Readable)
    {b : Bytes} (hb : b <+: (walCode crc).encAll (assignSeqs n items)) :
    ∃ j t, b = (walCode crc).encAll (assignSeqs n (items.take j)) ++ t ∧ frameAt crc t = none := by
  have htorn := (walCode crc).torn_append hb
  rw [assignSeqs_take] at htorn
  exact ⟨_, _, htorn.symm, (walCode crc).torn_dec (readable_assignSeqs hitems n) hb⟩

theorem appendBatch_cases (hready : w.readyLocked = .ok ()) (io : Outcome)
    (file : Bytes) (hne : items ≠ []) :
    w.appendBatch crc io file items = ({ w with nextSeq := advance w.nextSeq items },
        file ++ (walCode crc).encAll (assignSeqs w.nextSeq items),
        .ok ((assignSeqs w.nextSeq items).map Record.seq)) ∨
      ∃ p, p <+: (walCode crc).encAll (assignSeqs w.nextSeq items) ∧
        w.appendBatch crc io file items = (w.failLocked, file ++ p, .error .io) := by
  have hlen : items.length ≠ 0 := by simpa using hne
  cases io with
  | ok => exact .inl (appendBatch_ready crc hready file hne)
  | writeFails n =>
    refine .inr ⟨_, take_prefix n _, ?_⟩
    simp only [appendBatch, if_neg hlen, hready, writeSync]
    rfl
  | syncFails =>
    refine .inr ⟨_, prefix_rfl, ?_⟩
    simp only [appendBatch, if_neg hlen, hready, writeSync]
    rfl

theorem appendBatch_refused {e : WriterError} (hready : w.readyLocked = .error e)
    (io : Outcome) (file : Bytes) (hne : items ≠ []) :
    w.appendBatch crc io file items = (w, file, .error e) := by
  have hlen : items.length ≠ 0 := by simpa using hne
  simp only [appendBatch, if_neg hlen, hready]

end Writer

/-- What each append acknowledges is what it added to the log, and that is readable exactly when
the record fits: the writers bound neither the vector nor the sidecar. -/
theorem acknowledged_readable_iff :
    (∀ (w w' : Writer) (io : Outcome) (file file' : Bytes) (op : UInt8) (id seq : UInt64)
      (vector : List UInt32) (extra : Bytes),
      w.appendWithExtra crc io file op id vector extra = (w', file', .ok seq) →
      (⟨seq, op, id, vector, extra⟩ : Record).ValidOp →
      ∃ frame, file' = file ++ frame ∧
        (FrameAccepted crc frame ↔ 29 + 4 * vector.length + extra.length ≤ maxRecordLen)) ∧
    (∀ (w w' : Writer) (io : Outcome) (file file' : Bytes) (r : Record),
      w.appendRecord crc io file r = (w', file', .ok ()) → r.ValidOp →
      ∃ frame, file' = file ++ frame ∧
        (FrameAccepted crc frame ↔ 29 + 4 * r.vector.length + r.extra.length ≤ maxRecordLen)) ∧
    (∀ (w w' : Writer) (io : Outcome) (file file' : Bytes) (items : List Record) (seqs : List UInt64),
      w.appendBatch crc io file items = (w', file', .ok seqs) → (∀ r ∈ items, r.ValidOp) →
      ∃ frames : List Bytes, file' = file ++ frames.flatten ∧
        Forall₂ (fun frame r => FrameAccepted crc frame ↔
          29 + 4 * r.vector.length + r.extra.length ≤ maxRecordLen) frames items) := by
  refine ⟨?_, ?_, ?_⟩
  · intro w w' io file file' op id seq vector extra h hop
    exact ⟨_, (Writer.appendWithExtra_ok crc h).2.2, frameAccepted_encodeRecord_iff crc hop⟩
  · intro w w' io file file' r h hop
    exact ⟨_, (Writer.appendRecord_ok crc h).2.2, frameAccepted_encodeRecord_iff crc hop⟩
  · intro w w' io file file' items seqs h hop
    refine ⟨(Writer.assignSeqs w.nextSeq items).map (encodeRecord crc), ?_, ?_⟩
    · rw [(Writer.appendBatch_ok crc h).2.2, FrameCode.encAll, flatMap_def]
      rfl
    · clear h
      generalize w.nextSeq = n
      induction items generalizing n with
      | nil => exact .nil
      | cons r rs ih =>
        refine .cons ?_ (ih (fun x hx => hop x (by simp [hx])) (n + 1))
        exact frameAccepted_encodeRecord_iff crc (r := { r with seq := n }) (hop r (by simp))

theorem large_extra_not_accepted {extra : Bytes} (h : maxRecordLen ≤ extra.length) :
    ∃ frame, (⟨1, false, false⟩ : Writer).appendWithExtra crc .ok [] opInsert 7 [] extra =
        (⟨2, false, false⟩, frame, .ok 1) ∧ ¬ FrameAccepted crc frame := by
  refine ⟨encodeRecord crc ⟨1, opInsert, 7, [], extra⟩, rfl, ?_⟩
  rw [frameAccepted_encodeRecord_iff crc (.inl rfl)]
  change ¬ 29 + 4 * 0 + extra.length ≤ maxRecordLen
  omega

/-- A 256 MiB sidecar is acknowledged under number 1, and no reader will ever accept its frame. -/
theorem oversized_extra_acknowledged :
    ∃ frame, (⟨1, false, false⟩ : Writer).appendWithExtra crc32ChecksumIEEE .ok [] opInsert 7 []
        (replicate maxRecordLen 0) = (⟨2, false, false⟩, frame, .ok 1) ∧
      ¬ FrameAccepted crc32ChecksumIEEE frame :=
  large_extra_not_accepted crc32ChecksumIEEE length_replicate.ge

theorem acknowledged_delete_readable :
    ∃ frame, encodeRecord crc32ChecksumIEEE ⟨1, opDelete, 5, [], []⟩ = [] ++ frame ∧
      (FrameAccepted crc32ChecksumIEEE frame ↔ 29 + 4 * 0 + 0 ≤ maxRecordLen) :=
  (acknowledged_readable_iff crc32ChecksumIEEE).1 ⟨1, false, false⟩ ⟨2, false, false⟩ .ok [] _
    opDelete 5 1 [] [] rfl (by decide)

end NuclaDB.Wal
