import NuclaDB.WalWriter

/-!
# Following a log file

`FollowOpened` reads a header and then a payload, while the log is being written. At the end
of the file it looks whether the path has become another file. A `Reader` is such a call.
-/

namespace NuclaDB.Wal

open LittleEndian List

inductive HeaderRead
  | short
  | bad
  | frame (length : ℕ) (wantCRC : UInt32)

def readHeaderAt (b : Bytes) : HeaderRead :=
  let header := b.take 8
  if header.length < 8 then .short
  else
    let length := (uint32 (header.take 4)).toNat
    let wantCRC := uint32 ((header.drop 4).take 4)
    if length < 4 ∨ maxRecordLen < length then .bad else .frame length wantCRC

inductive Pc
  | header
  | payload (length : ℕ) (wantCRC : UInt32)
  | stat
  | reopen
deriving DecidableEq

/-- `fd` tells which file is open, `passed` are the records passed to `fn`. -/
structure Reader where
  fd : ℕ
  offset : ℕ
  fromSeq : UInt64
  pc : Pc
  passed : List Record

section Read
variable (crc : Bytes → UInt32)

def readPayloadAt (b : Bytes) (length : ℕ) (wantCRC : UInt32) : Option (Record × ℕ) :=
  let payload := (b.drop 8).take (length - 4)
  if payload.length < length - 4 ∨ crc payload ≠ wantCRC then none
  else
    match decodePayload payload with
    | .error _ => none
    | .ok rec => some (rec, 8 + payload.length)

namespace Reader

def start (fd : ℕ) (fromSeq : UInt64) : Reader := ⟨fd, 0, fromSeq, .header, []⟩

variable (r : Reader) (live : Option ℕ)

def take (rec : Record) (n : ℕ) : Reader :=
  if r.fromSeq < rec.seq then
    { r with offset := r.offset + n, fromSeq := rec.seq, pc := .header, passed := r.passed ++ [rec] }
  else { r with offset := r.offset + n, pc := .header }

def read (file : Bytes) : Reader :=
  match r.pc with
  | .header =>
    match readHeaderAt (file.drop r.offset) with
    | .short => { r with pc := .stat }
    | .bad => r
    | .frame length wantCRC => { r with pc := .payload length wantCRC }
  | .payload length wantCRC =>
    match readPayloadAt crc (file.drop r.offset) length wantCRC with
    | none => { r with pc := .header }
    | some (rec, n) => r.take rec n
  | _ => r

/-- The path is compared with the open file; without an answer nothing happens. -/
def stat : Reader :=
  match r.pc, live with
  | .stat, some live => if live = r.fd then { r with pc := .header } else { r with pc := .reopen }
  | .stat, none => { r with pc := .header }
  | _, _ => r

def reopen : Reader :=
  match r.pc, live with
  | .reopen, some live => { r with fd := live, offset := 0, pc := .header }
  | .reopen, none => { r with pc := .header }
  | _, _ => r

theorem take_fd (rec : Record) (n : ℕ) : (r.take rec n).fd = r.fd := by
  rw [take]
  split <;> rfl

theorem read_fd (file : Bytes) : (r.read crc file).fd = r.fd := by
  simp only [read]
  split
  · split <;> rfl
  · split
    · rfl
    · exact take_fd ..
  · rfl

theorem stat_passed :
    (r.stat live).passed = r.passed ∧ (r.stat live).fromSeq = r.fromSeq := by
  simp only [stat]
  split
  · split <;> exact ⟨rfl, rfl⟩
  · exact ⟨rfl, rfl⟩
  · exact ⟨rfl, rfl⟩

end Reader

end Read

section Frames
variable {crc : Bytes → UInt32} {b : Bytes} {length : ℕ} {wantCRC : UInt32}

theorem readHeaderAt_eq_frame : readHeaderAt b = .frame length wantCRC ↔
    8 ≤ b.length ∧ length = (uint32 ((b.take 8).take 4)).toNat ∧
      wantCRC = uint32 (((b.take 8).drop 4).take 4) ∧ ¬ (length < 4 ∨ maxRecordLen < length) := by
  by_cases h8 : 8 ≤ b.length
  · have hlen : ¬ (b.take 8).length < 8 := by simpa using h8
    simp only [readHeaderAt, if_neg hlen]
    split
    · next hbad =>
      simp only [reduceCtorEq, false_iff]
      rintro ⟨-, rfl, -, hgood⟩
      exact hgood hbad
    · next hgood =>
      simp only [HeaderRead.frame.injEq]
      constructor
      · rintro ⟨rfl, rfl⟩
        exact ⟨h8, rfl, rfl, hgood⟩
      · rintro ⟨-, rfl, rfl, -⟩
        exact ⟨rfl, rfl⟩
  · simp [readHeaderAt, h8]

theorem readHeaderAt_append (h : readHeaderAt b = .frame length wantCRC) (c : Bytes) :
    readHeaderAt (b ++ c) = .frame length wantCRC := by
  rw [readHeaderAt_eq_frame] at h ⊢
  rw [take_append_of_le_length h.1, length_append]
  exact ⟨by omega, h.2⟩

theorem readPayloadAt_iff (h : readHeaderAt b = .frame length wantCRC) {rec : Record} {n : ℕ} :
    readPayloadAt crc b length wantCRC = some (rec, n) ↔
      ∃ rest, readFrame crc b = .ok (rec, n, rest) := by
  obtain ⟨h8, rfl, rfl, hgood⟩ := readHeaderAt_eq_frame.mp h
  set length := (uint32 ((b.take 8).take 4)).toNat with hlength
  have hheader : readFull 8 b = .ok (b.take 8, b.drop 8) := if_pos h8
  simp only [readFrame, hheader, ← hlength, if_neg hgood, readPayloadAt]
  by_cases hfull : length - 4 ≤ (b.drop 8).length
  · have hshort : ¬ ((b.drop 8).take (length - 4)).length < length - 4 := by
      rw [length_take]
      omega
    simp only [readFull, if_pos hfull, hshort, false_or]
    by_cases hcrc : crc ((b.drop 8).take (length - 4)) = uint32 (((b.take 8).drop 4).take 4)
    · simp only [hcrc, ne_eq, not_true_eq_false, if_false]
      cases decodePayload ((b.drop 8).take (length - 4)) <;> simp
    · simp [hcrc]
  · have hshort : ((b.drop 8).take (length - 4)).length < length - 4 := by
      rw [length_take]
      omega
    simp only [hshort, true_or, if_true, reduceCtorEq, false_iff, not_exists]
    have hread : readFull (length - 4) (b.drop 8) = .error .eof ∨
        readFull (length - 4) (b.drop 8) = .error .unexpectedEOF := by
      simp only [readFull, if_neg hfull]
      split <;> simp
    rcases hread with hread | hread <;> simp [hread]

theorem readHeaderAt_of_readFrame {rec : Record} {n : ℕ} {rest : Bytes}
    (h : readFrame crc b = .ok (rec, n, rest)) : readHeaderAt b ≠ .short ∧ readHeaderAt b ≠ .bad := by
  by_cases h8 : 8 ≤ b.length
  · have hlen : ¬ (b.take 8).length < 8 := by simpa using h8
    have hheader : readFull 8 b = .ok (b.take 8, b.drop 8) := if_pos h8
    simp only [readFrame, hheader] at h
    simp only [readHeaderAt, if_neg hlen]
    split at h
    · cases h
    · next hgood => simp [hgood]
  · have hshort : ∃ err, readFull 8 b = .error err := by
      simp only [readFull, if_neg h8]
      split <;> exact ⟨_, rfl⟩
    obtain ⟨err, hshort⟩ := hshort
    simp [readFrame, hshort] at h

end Frames

section On
variable (crc : Bytes → UInt32)

structure Reader.On (r : Reader) (file : Bytes) (rs : List Record) (t : Bytes) (p : ℕ) : Prop where
  file_eq : file = (walCode crc).encAll rs ++ t
  readable : ∀ rec ∈ rs, rec.Readable
  torn : frameAt crc t = none
  le : p ≤ rs.length
  offset : r.offset = ((walCode crc).encAll (rs.take p)).length
  header : ∀ length wantCRC, r.pc = .payload length wantCRC →
    readHeaderAt (file.drop r.offset) = .frame length wantCRC

variable {crc} {r : Reader} {file t : Bytes} {rs : List Record} {p : ℕ}

namespace Reader

theorem On.unread (h : r.On crc file rs t p) :
    file.drop r.offset = (walCode crc).encAll (rs.drop p) ++ t := by
  have hsplit : file = (walCode crc).encAll (rs.take p) ++ ((walCode crc).encAll (rs.drop p) ++ t) := by
    rw [← append_assoc, ← FrameCode.encAll_append, take_append_drop, h.file_eq]
  rw [hsplit, h.offset, drop_left]

theorem On.of_pc (h : r.On crc file rs t p) {r' : Reader} (hoffset : r'.offset = r.offset)
    (hpc : ∀ length wantCRC, r'.pc ≠ .payload length wantCRC) : r'.On crc file rs t p :=
  ⟨h.file_eq, h.readable, h.torn, h.le, hoffset.trans h.offset, fun _ _ hp => absurd hp (hpc _ _)⟩

theorem on_start (fd : ℕ) (fromSeq : UInt64) (hfile : file = (walCode crc).encAll rs ++ t)
    (hrs : ∀ rec ∈ rs, rec.Readable) (ht : frameAt crc t = none) :
    (start fd fromSeq).On crc file rs t 0 :=
  ⟨hfile, hrs, ht, Nat.zero_le _, rfl, nofun⟩

theorem On.grow (h : r.On crc file rs [] p) {more : List Record} {t' : Bytes}
    (hmore : ∀ rec ∈ more, rec.Readable) (ht : frameAt crc t' = none) :
    r.On crc (file ++ ((walCode crc).encAll more ++ t')) (rs ++ more) t' p := by
  have hle : r.offset ≤ file.length := by
    rw [h.offset, h.file_eq, append_nil, ← take_append_drop p rs, FrameCode.encAll_append,
      take_append_drop]
    simp
  refine ⟨?_, forall_mem_append.mpr ⟨h.readable, hmore⟩, ht, ?_, ?_, fun length wantCRC hp => ?_⟩
  · rw [h.file_eq, append_nil, FrameCode.encAll_append, append_assoc]
  · rw [length_append]
    exact h.le.trans (Nat.le_add_right _ _)
  · rw [h.offset, take_append_of_le_length h.le]
  · rw [drop_append_of_le_length hle]
    exact readHeaderAt_append (h.header length wantCRC hp) _

theorem On.payload (h : r.On crc file rs t p) {length n : ℕ} {wantCRC : UInt32} {rec : Record}
    (hpc : r.pc = .payload length wantCRC)
    (hread : readPayloadAt crc (file.drop r.offset) length wantCRC = some (rec, n)) :
    rs[p]? = some rec ∧ n = (encodeRecord crc rec).length := by
  obtain ⟨rest, hframe⟩ := (readPayloadAt_iff (h.header length wantCRC hpc)).mp hread
  rw [h.unread] at hframe
  cases hdrop : rs.drop p with
  | nil =>
    rw [hdrop] at hframe
    exact absurd hframe ((frameAt_eq_none crc).mp h.torn rec n rest)
  | cons rec' rs' =>
    have hp : rs[p]? = some rec' := by
      rw [← Nat.add_zero p, ← getElem?_drop, hdrop]
      rfl
    have hrec := h.readable rec' (mem_of_getElem? hp)
    rw [hdrop, FrameCode.encAll_cons, append_assoc] at hframe
    have hsame := (readFrame_encodeRecord crc hrec _).symm.trans hframe
    simp only [Except.ok.injEq, Prod.mk.injEq] at hsame
    obtain ⟨rfl, rfl, -⟩ := hsame
    exact ⟨hp, rfl⟩

theorem take_offset (r : Reader) (rec : Record) (n : ℕ) : (r.take rec n).offset = r.offset + n := by
  rw [take]
  split <;> rfl

theorem take_pc (r : Reader) (rec : Record) (n : ℕ) : (r.take rec n).pc = .header := by
  rw [take]
  split <;> rfl

theorem On.take (h : r.On crc file rs t p) {rec : Record} (hp : rs[p]? = some rec) :
    (r.take rec (encodeRecord crc rec).length).On crc file rs t (p + 1) := by
  refine ⟨h.file_eq, h.readable, h.torn, ?_, ?_, fun length wantCRC hpc => ?_⟩
  · exact (List.getElem?_eq_some_iff.mp hp).1
  · rw [take_offset, h.offset, List.take_add_one, hp, Option.toList_some, FrameCode.encAll_append,
      FrameCode.encAll_singleton, List.length_append]
    rfl
  · rw [take_pc] at hpc
    cases hpc

theorem On.read (h : r.On crc file rs t p) :
    ((r.read crc file).On crc file rs t p ∧ (r.read crc file).passed = r.passed ∧
      (r.read crc file).fromSeq = r.fromSeq) ∨
    ∃ rec, rs[p]? = some rec ∧ r.read crc file = r.take rec (encodeRecord crc rec).length ∧
      (r.read crc file).On crc file rs t (p + 1) ∧
      ∃ length wantCRC, r.pc = .payload length wantCRC ∧
        readPayloadAt crc (file.drop r.offset) length wantCRC =
          some (rec, (encodeRecord crc rec).length) := by
  cases hpc : r.pc with
  | header =>
    left
    simp only [Reader.read, hpc]
    split
    · exact ⟨h.of_pc rfl nofun, rfl, rfl⟩
    · exact ⟨h, rfl, rfl⟩
    · next length wantCRC hheader =>
      refine ⟨⟨h.file_eq, h.readable, h.torn, h.le, h.offset, ?_⟩, rfl, rfl⟩
      rintro _ _ ⟨⟩
      exact hheader
  | payload length wantCRC =>
    simp only [Reader.read, hpc]
    split
    · exact .inl ⟨h.of_pc rfl nofun, rfl, rfl⟩
    · next rec n hread =>
      obtain ⟨hp, rfl⟩ := h.payload hpc hread
      exact .inr ⟨rec, hp, rfl, h.take hp, length, wantCRC, rfl, hread⟩
  | stat | reopen =>
    rw [show r.read crc file = r by simp only [Reader.read, hpc]]
    exact .inl ⟨h, rfl, rfl⟩

end Reader

end On

end NuclaDB.Wal
