import NuclaDB.EventRun
import NuclaDB.WalFollow

/-!
# Following a log while it is synced

An append is a `Write` and then a `Sync`, and `FollowOpened` may read the file between the
two.
-/

namespace NuclaDB.Wal

open LittleEndian EventRun List Writer

/-- A writer, its file and a reader of it. `writing` is the batch between its `Write` and its `Sync`,
`committed` the records of the appends that succeeded, `synced` the file's length then. -/
structure Tailed where
  w : Writer
  file : Bytes
  writing : Option (List Record)
  committed : List Record
  synced : ℕ
  reader : Reader

inductive TailEvent
  | write (items : List Record) (fails : Option ℕ)
  | sync (ok : Bool)
  | read
  | stat

namespace Tailed

variable (crc : Bytes → UInt32) (s : Tailed)

def write (items : List Record) (fails : Option ℕ) : Tailed :=
  match s.writing, s.w.readyLocked with
  | none, .ok () =>
    let recs := assignSeqs s.w.nextSeq items
    let buf := recs.flatMap (encodeRecord crc)
    match fails with
    | none => { s with file := s.file ++ buf, writing := some recs }
    | some n => { s with file := s.file ++ buf.take n, w := s.w.failLocked }
  | _, _ => s

def sync (ok : Bool) : Tailed :=
  match s.writing with
  | none => s
  | some recs =>
    if ok then { s with
      w := { s.w with nextSeq := advance s.w.nextSeq recs }
      writing := none
      committed := s.committed ++ recs
      synced := s.file.length }
    else { s with w := s.w.failLocked, writing := none }

def step : TailEvent → Except Empty Tailed
  | .write items fails => .ok (s.write crc items fails)
  | .sync ok => .ok (s.sync ok)
  | .read => .ok { s with reader := s.reader.read crc s.file }
  | .stat => .ok { s with reader := s.reader.stat (some s.reader.fd) }

theorem write_sync (hwriting : s.writing = none) {items : List Record} (hne : items ≠ [])
    (hready : s.w.readyLocked = .ok ()) (ok : Bool) :
    ((s.write crc items none).sync ok).w =
        (s.w.appendBatch crc (if ok then .ok else .syncFails) s.file items).1 ∧
      ((s.write crc items none).sync ok).file =
        (s.w.appendBatch crc (if ok then .ok else .syncFails) s.file items).2.1 := by
  have hlen : items.length ≠ 0 := by simpa using hne
  cases ok with
  | false => simp [write, sync, hwriting, hready, appendBatch, hlen, writeSync]
  | true =>
    simp [write, sync, hwriting, hready, appendBatch, hlen, writeSync,
      advance_eq_add, assignSeqs_length]

end Tailed

def Tailed.Admits (s : Tailed) : TailEvent → Prop
  | .write items _ => items ≠ [] ∧ (∀ r ∈ items, r.Readable) ∧ s.w.nextSeq.toNat + items.length < 2 ^ 64
  | _ => True

/-- Every record passed on belongs to an append whose `Sync` has succeeded. -/
def Tailed.OnlyCommitted (s : Tailed) : Prop := ∀ rec ∈ s.reader.passed, rec ∈ s.committed

/-- The frame that a read is about to pass on ends within the synced part of the file. -/
def Tailed.ReadsSynced (crc : Bytes → UInt32) (s : Tailed) : TailEvent → Prop
  | .read => ∀ length wantCRC rec n, s.reader.pc = .payload length wantCRC →
      readPayloadAt crc (s.file.drop s.reader.offset) length wantCRC = some (rec, n) →
      s.reader.fromSeq < rec.seq → s.reader.offset + n ≤ s.synced
  | _ => True

def Tailed.checkSynced (crc : Bytes → UInt32) (s : Tailed) : Bool :=
  match s.reader.pc with
  | .payload length wantCRC =>
    (readPayloadAt crc (s.file.drop s.reader.offset) length wantCRC).all fun x =>
      !decide (s.reader.fromSeq < x.1.seq) || decide (s.reader.offset + x.2 ≤ s.synced)
  | _ => true

theorem Tailed.readsSynced_of_check {crc : Bytes → UInt32} {s : Tailed} (h : s.checkSynced crc = true) :
    s.ReadsSynced crc .read := by
  intro length wantCRC rec n hpc hpay hnew
  simpa [Tailed.checkSynced, hpc, hpay, hnew] using h

section Invariant
variable (crc : Bytes → UInt32) (n₀ : UInt64)

/-- The file holds the records of `items`, of which the first `c` are committed, and the reader stands
before record `p`. -/
structure Tailed.Inv (s : Tailed) (items : List Record) (t : Bytes) (c p : ℕ) : Prop where
  room : n₀.toNat + 1 + items.length < 2 ^ 64
  on : s.reader.On crc s.file (assignSeqs (n₀ + 1) items) t p
  c_le : c ≤ items.length
  committed : s.committed = (assignSeqs (n₀ + 1) items).take c
  synced : s.synced = ((walCode crc).encAll s.committed).length
  next : s.w.nextSeq = n₀ + 1 + UInt64.ofNat c
  writing : ∀ recs, s.writing = some recs → t = [] ∧ recs = (assignSeqs (n₀ + 1) items).drop c
  ready : s.writing = none → s.w.readyLocked = .ok () → t = [] ∧ c = items.length
  only : s.OnlyCommitted

variable {crc n₀} {s : Tailed} {items : List Record} {t : Bytes} {c p : ℕ}

namespace Tailed.Inv

section
variable (h : s.Inv crc n₀ items t c p)
include h

theorem all_append (hc : c = items.length) (more : List Record) :
    assignSeqs (n₀ + 1) (items ++ more) =
      assignSeqs (n₀ + 1) items ++ assignSeqs s.w.nextSeq more := by
  rw [assignSeqs_append, h.next, hc]

theorem take_append (rs : List Record) :
    (assignSeqs (n₀ + 1) items ++ rs).take c = s.committed := by
  rw [take_append_of_le_length, h.committed]
  rw [assignSeqs_length]
  exact h.c_le

theorem toNat_nextSeq : s.w.nextSeq.toNat = n₀.toNat + 1 + c := by
  have hroom := h.room
  have hc := h.c_le
  have hone : (n₀ + 1).toNat = n₀.toNat + 1 := toNat_add_one (by omega)
  rw [h.next, toNat_add_ofNat (by omega), hone]

theorem append (hwriting : s.writing = none)
    (hready : s.w.readyLocked = .ok ()) {more : List Record} (hmore : ∀ r ∈ more, r.Readable)
    (hroom : s.w.nextSeq.toNat + more.length < 2 ^ 64) {t' : Bytes} (ht : frameAt crc t' = none)
    {s' : Tailed} (hfile : s'.file = s.file ++
      ((walCode crc).encAll (assignSeqs s.w.nextSeq more) ++ t'))
    (hreader : s'.reader = s.reader) (hcommitted : s'.committed = s.committed)
    (hsynced : s'.synced = s.synced) (hnext : s'.w.nextSeq = s.w.nextSeq)
    (hw : s'.writing = some (assignSeqs s.w.nextSeq more) ∧ t' = [] ∨
      s'.writing = none ∧ s'.w.readyLocked ≠ .ok ()) :
    s'.Inv crc n₀ (items ++ more) t' c p := by
  obtain ⟨rfl, hc⟩ := h.ready hwriting hready
  have hall := h.all_append hc more
  have hn := h.toNat_nextSeq
  have hon := h.on.grow (readable_assignSeqs hmore s.w.nextSeq) ht
  refine ⟨?_, ?_, ?_, ?_, ?_, hnext.trans h.next, fun recs hrecs => ?_, fun hnone hr => ?_, ?_⟩
  · rw [length_append]
    omega
  · rw [hreader, hfile, hall]
    exact hon
  · rw [length_append]
    exact h.c_le.trans (Nat.le_add_right _ _)
  · rw [hcommitted, hall, h.take_append]
  · rw [hsynced, hcommitted, h.synced]
  · rcases hw with ⟨hw, rfl⟩ | ⟨hw, -⟩
    · obtain rfl : assignSeqs s.w.nextSeq more = recs := Option.some.inj (hw.symm.trans hrecs)
      refine ⟨rfl, ?_⟩
      rw [hall, hc, ← assignSeqs_length (n₀ + 1) items, drop_left]
    · cases hw.symm.trans hrecs
  · rcases hw with ⟨hw, -⟩ | ⟨-, hw⟩
    · cases hnone.symm.trans hw
    · exact absurd hr hw
  · intro rec hrec
    rw [hreader] at hrec
    rw [hcommitted]
    exact h.only rec hrec

theorem write {new : List Record} (hnew : ∀ r ∈ new, r.Readable)
    (hroom : s.w.nextSeq.toNat + new.length < 2 ^ 64) (fails : Option ℕ) :
    ∃ items' t', (s.write crc new fails).Inv crc n₀ items' t' c p := by
  cases hwriting : s.writing with
  | some recs =>
    rw [show s.write crc new fails = s by simp only [Tailed.write, hwriting]]
    exact ⟨items, t, h⟩
  | none =>
    cases hready : s.w.readyLocked with
    | error err =>
      rw [show s.write crc new fails = s by simp only [Tailed.write, hwriting, hready]]
      exact ⟨items, t, h⟩
    | ok u =>
      cases fails with
      | none =>
        have hnil : frameAt crc [] = none := (walCode crc).dec_nil
        refine ⟨items ++ new, [], h.append hwriting hready hnew hroom hnil ?_ ?_ ?_ ?_ ?_
          (.inl ⟨?_, rfl⟩)⟩
        all_goals simp only [Tailed.write, hwriting, hready, append_nil]
        rfl
      | some n =>
        obtain ⟨j, t', hbuf, ht'⟩ := torn_assignSeqs crc hnew (n := s.w.nextSeq)
          (List.take_prefix n _)
        have hle := length_take_le' j new
        refine ⟨items ++ new.take j, t', h.append hwriting hready
          (fun r hr => hnew r (mem_of_mem_take hr)) (by omega) ht' ?_ ?_ ?_ ?_ ?_ (.inr ⟨?_, ?_⟩)⟩
        all_goals simp only [Tailed.write, hwriting, hready]
        · exact congrArg (s.file ++ ·) hbuf
        · rfl
        · simp [failLocked, readyLocked]

theorem sync (ok : Bool) : ∃ c', (s.sync ok).Inv crc n₀ items t c' p := by
  cases hwriting : s.writing with
  | none =>
    rw [show s.sync ok = s by simp only [Tailed.sync, hwriting]]
    exact ⟨c, h⟩
  | some recs =>
    obtain ⟨rfl, hrecs⟩ := h.writing recs hwriting
    cases ok with
    | false =>
      simp only [Tailed.sync, hwriting, Bool.false_eq_true, if_false]
      refine ⟨c, h.room, h.on, h.c_le, h.committed, h.synced, h.next, by simp, fun _ hr => ?_, h.only⟩
      simp [failLocked, readyLocked] at hr
    | true =>
      have hall : s.committed ++ recs = assignSeqs (n₀ + 1) items := by
        rw [h.committed, hrecs, take_append_drop]
      simp only [Tailed.sync, hwriting, if_true]
      refine ⟨items.length, h.room, h.on, le_rfl, ?_, ?_, ?_, by simp, fun _ _ => ⟨rfl, rfl⟩,
        fun rec hrec => mem_append_left _ (h.only rec hrec)⟩
      · rw [hall, ← assignSeqs_length (n₀ + 1) items, take_length]
      · rw [hall, h.on.file_eq, append_nil]
      · have hlen : recs.length = items.length - c := by
          rw [hrecs, length_drop, assignSeqs_length]
        have hc := h.c_le
        rw [advance_eq_add, h.next, UInt64.add_assoc, ← UInt64.ofNat_add, hlen,
          Nat.add_sub_cancel' hc]

theorem mem_committed_iff {rec : Record} (hp : (assignSeqs (n₀ + 1) items)[p]? = some rec) :
    rec ∈ s.committed ↔ s.reader.offset + (encodeRecord crc rec).length ≤ s.synced := by
  have hroom := h.room
  have hend : s.reader.offset + (encodeRecord crc rec).length =
      ((walCode crc).encAll ((assignSeqs (n₀ + 1) items).take (p + 1))).length := by
    rw [← Reader.take_offset s.reader rec, (h.on.take hp).offset]
  have hlt := (List.getElem?_eq_some_iff.mp hp).1
  rw [hend, h.synced, h.committed]
  constructor
  · intro hmem
    rw [assignSeqs_take] at hmem
    have hle := (seq_of_mem_assignSeqs (by rw [length_take]; omega) hmem).2
    rw [seq_of_getElem?_assignSeqs (by omega) hp, length_take, min_eq_left h.c_le] at hle
    rcases Nat.eq_or_lt_of_le (show p + 1 ≤ c by omega) with heq | hlt'
    · rw [heq]
    · exact (FrameCode.encAll_take_lt _ hlt' (by rw [assignSeqs_length]; exact h.c_le)).le
  · intro hle
    have hpc : p < c := by
      by_contra hnot
      have := FrameCode.encAll_take_lt (walCode crc) (show c < p + 1 by omega) hlt
      omega
    exact mem_of_getElem? ((getElem?_take_of_lt hpc).trans hp)

theorem read (hread : s.ReadsSynced crc .read) :
    ∃ p', ({ s with reader := s.reader.read crc s.file } : Tailed).Inv crc n₀ items t c p' := by
  rcases h.on.read with ⟨hon, hpassed, -⟩ | ⟨rec, hp, htake, hon, length, wantCRC, hpc, hpay⟩
  · refine ⟨p, h.room, hon, h.c_le, h.committed, h.synced, h.next, h.writing, h.ready, ?_⟩
    intro rec hrec
    exact h.only rec (hpassed ▸ hrec)
  · refine ⟨p + 1, h.room, hon, h.c_le, h.committed, h.synced, h.next, h.writing, h.ready, ?_⟩
    simp only [Tailed.OnlyCommitted, htake]
    by_cases hnew : s.reader.fromSeq < rec.seq
    · rw [Reader.take, if_pos hnew]
      refine forall_mem_append.mpr ⟨h.only, forall_mem_singleton.mpr ?_⟩
      exact (h.mem_committed_iff hp).mpr (hread _ _ _ _ hpc hpay hnew)
    · rw [Reader.take, if_neg hnew]
      exact h.only

theorem stat :
    ({ s with reader := s.reader.stat (some s.reader.fd) } : Tailed).Inv crc n₀ items t c p := by
  have hstat : s.reader.stat (some s.reader.fd) = s.reader ∨
      s.reader.stat (some s.reader.fd) = { s.reader with pc := .header } := by
    simp only [Reader.stat]
    split
    · simp_all
    · exact .inr rfl
    · exact .inl rfl
  rcases hstat with hstat | hstat
  · rw [hstat]
    exact h
  · rw [hstat]
    exact ⟨h.room, h.on.of_pc rfl (by simp), h.c_le, h.committed, h.synced, h.next, h.writing, h.ready,
      h.only⟩

theorem step {ev : TailEvent} (hadm : s.Admits ev)
    (hread : s.ReadsSynced crc ev) {s' : Tailed} (hstep : s.step crc ev = .ok s') :
    ∃ items t c p, s'.Inv crc n₀ items t c p := by
  cases ev with
  | write new fails =>
    obtain rfl := Except.ok.inj hstep
    obtain ⟨items', t', h'⟩ := h.write hadm.2.1 hadm.2.2 fails
    exact ⟨items', t', c, p, h'⟩
  | sync ok =>
    obtain rfl := Except.ok.inj hstep
    obtain ⟨c', h'⟩ := h.sync ok
    exact ⟨items, t, c', p, h'⟩
  | read =>
    obtain rfl := Except.ok.inj hstep
    obtain ⟨p', h'⟩ := h.read hread
    exact ⟨items, t, c, p', h'⟩
  | stat =>
    obtain rfl := Except.ok.inj hstep
    exact ⟨items, t, c, p, h.stat⟩

theorem readsSynced
    (hgood : ({ s with reader := s.reader.read crc s.file } : Tailed).OnlyCommitted) :
    s.ReadsSynced crc .read := by
  intro length wantCRC rec n hpc hpay hnew
  obtain ⟨hp, rfl⟩ := h.on.payload hpc hpay
  apply (h.mem_committed_iff hp).mp
  apply hgood
  simp [Reader.read, hpc, hpay, Reader.take, hnew]

end

end Tailed.Inv

end Invariant

section Runs
variable (crc : Bytes → UInt32)

def tailing (n₀ : UInt64) (items : List Record) (fromSeq : UInt64) : Tailed :=
  let recs := assignSeqs (n₀ + 1) items
  ⟨⟨n₀ + 1 + UInt64.ofNat items.length, false, false⟩, (walCode crc).encAll recs, none, recs,
    ((walCode crc).encAll recs).length, Reader.start 0 fromSeq⟩

theorem tailing_inv {n₀ : UInt64} {items : List Record} (hitems : ∀ r ∈ items, r.Readable)
    (hroom : n₀.toNat + 1 + items.length < 2 ^ 64) (fromSeq : UInt64) :
    (tailing crc n₀ items fromSeq).Inv crc n₀ items [] items.length 0 := by
  refine ⟨hroom, Reader.on_start 0 fromSeq (append_nil _).symm
    (readable_assignSeqs hitems _) (walCode crc).dec_nil, le_rfl, ?_, rfl, rfl, nofun,
    fun _ _ => ⟨rfl, rfl⟩, by simp [Tailed.OnlyCommitted, tailing, Reader.start]⟩
  rw [← assignSeqs_length (n₀ + 1) items, take_length]
  rfl

/-- Along a run of writes, syncs and reads, only committed records are passed on exactly when every
read that passes one on finds its frame within the synced part of the file. -/
theorem only_committed_iff_reads_synced (n₀ : UInt64) (items : List Record) (fromSeq : UInt64)
    (evs : List TailEvent) (hitems : ∀ r ∈ items, r.Readable)
    (hroom : n₀.toNat + 1 + items.length < 2 ^ 64)
    (hadm : Along (Tailed.step crc) Tailed.Admits (tailing crc n₀ items fromSeq) evs) :
    (tailing crc n₀ items fromSeq).OnlyCommitted ∧
      (Along (Tailed.step crc) (fun s ev => ∀ s', s.step crc ev = .ok s' → s'.OnlyCommitted)
          (tailing crc n₀ items fromSeq) evs ↔
        Along (Tailed.step crc) (Tailed.ReadsSynced crc) (tailing crc n₀ items fromSeq) evs) := by
  have hstart := tailing_inv crc hitems hroom fromSeq
  refine ⟨hstart.only, along_good_iff (I := fun s => ∃ items t c p, s.Inv crc n₀ items t c p) ?_ ?_
    ⟨_, _, _, _, hstart⟩ hadm⟩
  · rintro s ev s' ⟨items, t, c, p, h⟩ hP hQ hstep
    obtain ⟨items', t', c', p', h'⟩ := h.step hP hQ hstep
    exact ⟨⟨_, _, _, _, h'⟩, h'.only⟩
  · rintro s ev ⟨items, t, c, p, h⟩ hP hgood
    cases ev with
    | read => exact h.readsSynced (hgood _ rfl)
    | _ => trivial

end Runs

section Example

def tailedInsert : Record := ⟨0, opInsert, 1, [0], []⟩

theorem unsynced_record_passed_on :
    ∃ s, run (Tailed.step crc32ChecksumIEEE) (tailing crc32ChecksumIEEE 0 [] 0)
        [.write [tailedInsert] none, .read, .read, .sync false] = .ok s ∧
      s.reader.passed = [{ tailedInsert with seq := 1 }] ∧ s.committed = [] ∧ s.w.failed = true := by
  refine ⟨_, rfl, ?_, ?_, ?_⟩ <;> decide +kernel

def syncedTail : List TailEvent := [.write [tailedInsert] none, .sync true, .read, .read]

theorem tailedInsert_readable : tailedInsert.Readable := ⟨by decide, by decide⟩

theorem synced_record_passed_on : Along (Tailed.step crc32ChecksumIEEE)
        (fun s ev => ∀ s', s.step crc32ChecksumIEEE ev = .ok s' → s'.OnlyCommitted)
        (tailing crc32ChecksumIEEE 0 [] 0) syncedTail ∧
      ∃ s, run (Tailed.step crc32ChecksumIEEE) (tailing crc32ChecksumIEEE 0 [] 0) syncedTail = .ok s ∧
        s.reader.passed = [{ tailedInsert with seq := 1 }] := by
  have hadmits : (tailing crc32ChecksumIEEE 0 [] 0).Admits (.write [tailedInsert] none) :=
    ⟨cons_ne_nil _ _, forall_mem_singleton.mpr tailedInsert_readable, by decide⟩
  have hadm : Along (Tailed.step crc32ChecksumIEEE) Tailed.Admits (tailing crc32ChecksumIEEE 0 [] 0)
      syncedTail :=
    .cons hadmits rfl (.cons trivial rfl (.cons trivial rfl (.cons trivial rfl trivial)))
  refine ⟨(only_committed_iff_reads_synced crc32ChecksumIEEE 0 [] 0 _ nofun (by decide) hadm).2.mpr ?_,
    _, rfl, by decide +kernel⟩
  refine .cons trivial rfl (.cons trivial rfl (.cons ?_ rfl (.cons ?_ rfl trivial)))
  · apply Tailed.readsSynced_of_check
    decide +kernel
  · apply Tailed.readsSynced_of_check
    decide +kernel

end Example

end NuclaDB.Wal
