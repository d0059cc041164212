import NuclaDB.HnswCosine
import NuclaDB.ReplicaPair

/-!
# What a follower holds

A follower holds a first part of the leader's history. So it has the leader's map of an
earlier moment, if vectors come out of a snapshot file as they went in.
-/

namespace NuclaDB.Replication

open LittleEndian Hnsw Install SplitReader EventRun Wal List Option
open FileScript (Files Fault)

section Arrival
theorem Conn.short_eq (c : Conn) : c.short = .more ∨ c.short = .failed := by
  simp only [short]
  split
  · exact .inr rfl
  · exact .inl rfl

theorem Conn.arrival_cases (crc : Bytes → UInt32) (c : Conn) :
    (c.arrival crc = .more ∨ c.arrival crc = .failed) ∨
    (∃ marker rest, c.awaits = .answer ∧ c.wire = marker :: rest ∧ marker ≠ markerSnapshotFollows ∧
      c.arrival crc = .stream rest) ∨
    (∃ tail snapshot metadata, c.awaits = .answer ∧ c.wire = markerSnapshotFollows :: tail ∧
      8 ≤ tail.length ∧ (readBlobs Stream.ofList (tail.drop 8)).1 = .ok (snapshot, metadata) ∧
      c.arrival crc = .snapshot (uint64BE (tail.take 8)) snapshot metadata
        (readBlobs Stream.ofList (tail.drop 8)).2) ∨
    ∃ rec n rest, c.awaits = .records ∧ readFrame crc c.wire = .ok (rec, n, rest) ∧
      c.arrival crc = .record rec rest := by
  have hshort := c.short_eq
  unfold arrival
  cases hawaits : c.awaits with
  | answer =>
    cases hwire : c.wire with
    | nil => exact .inl hshort
    | cons marker tail =>
      by_cases hmarker : marker = markerSnapshotFollows
      · subst hmarker
        by_cases hlen : tail.length < 8
        · exact .inl (by simpa [hlen] using hshort)
        · cases hblobs : readBlobs Stream.ofList (tail.drop 8) with
          | mk result rest =>
            cases result with
            | ok out =>
              obtain ⟨snapshot, metadata⟩ := out
              refine .inr (.inr (.inl ⟨tail, snapshot, metadata, rfl, rfl, by omega, ?_, ?_⟩))
              · rw [hblobs]
              · simp [hlen, hblobs]
            | error e =>
              left
              cases e with
              | failed e => simp [hlen, hblobs]
              | eof | unexpectedEOF => simpa [hlen, hblobs] using hshort
      · exact .inr (.inl ⟨marker, tail, rfl, rfl, hmarker, by simp [hmarker]⟩)
  | records =>
    cases hframe : readFrame crc c.wire with
    | ok out =>
      obtain ⟨rec, n, rest⟩ := out
      exact .inr (.inr (.inr ⟨rec, n, rest, rfl, rfl, rfl⟩))
    | error e =>
      left
      cases e with
      | corruptTail => exact .inr rfl
      | eof => exact hshort
      | unexpectedEOF => exact hshort

end Arrival

section Wire
variable {D : Type} [Hnsw.Dist D] (crc : Bytes → UInt32) (J : Codec) (cfg : Config D) (L : List Change)

/-- What a leader with this history may have written to a connection: its own records, and files that
hold a first part of the history. -/
inductive Says : Awaits → Bytes → Prop
  | records (rs : List Record) (hrs : ∀ rec ∈ rs, rec ∈ recsFrom J 0 L) :
      Says .records (rs.flatMap (encodeRecord crc))
  | stream (rs : List Record) (hrs : ∀ rec ∈ rs, rec ∈ recsFrom J 0 L) :
      Says .answer (markerNoSnapshot :: rs.flatMap (encodeRecord crc))
  | snapshot {snapshot metadata : Bytes} {seq : UInt64} {i : ℕ} (rs : List Record)
      (hships : Node.Ships J cfg snapshot metadata seq L i) (hsnapshot : snapshot.length < UInt64.size)
      (hmetadata : metadata.length < UInt64.size) (hrs : ∀ rec ∈ rs, rec ∈ recsFrom J 0 L) :
      Says .answer (markerSnapshotFollows :: (putUint64BE seq ++ sent crc snapshot metadata rs))

/-- The wire has what the leader said, or as much of it as came before the connection broke. -/
def Conn.Carries (c : Conn) : Prop :=
  ∃ b k, Says crc J cfg L c.awaits b ∧ c.wire = b.take k ∧ (c.serving ≠ .closed → b.length ≤ k)

def Conn.Silent (c : Conn) : Prop := c.awaits = .answer ∧ c.wire = []

variable {crc J cfg L} {c : Conn}

theorem recsFrom_subset (L ds : List Change) : ∀ rec ∈ recsFrom J 0 L, rec ∈ recsFrom J 0 (L ++ ds) := by
  intro rec hrec
  rw [recsFrom_append (Nat.zero_le _)]
  exact mem_append_left _ hrec

theorem Says.append {awaits : Awaits} {b : Bytes} (h : Says crc J cfg L awaits b) (ds : List Change) :
    Says crc J cfg (L ++ ds) awaits b := by
  cases h with
  | records rs hrs => exact .records rs fun rec hrec => recsFrom_subset L ds rec (hrs rec hrec)
  | stream rs hrs => exact .stream rs fun rec hrec => recsFrom_subset L ds rec (hrs rec hrec)
  | snapshot rs hships hsnapshot hmetadata hrs =>
    exact .snapshot rs (hships.append ds) hsnapshot hmetadata fun rec hrec =>
      recsFrom_subset L ds rec (hrs rec hrec)

theorem Says.more {awaits : Awaits} {b : Bytes} (h : Says crc J cfg L awaits b) {more : List Record}
    (hmore : ∀ rec ∈ more, rec ∈ recsFrom J 0 L) :
    Says crc J cfg L awaits (b ++ more.flatMap (encodeRecord crc)) := by
  cases h with
  | records rs hrs =>
    rw [← flatMap_append]
    exact .records _ (forall_mem_append.mpr ⟨hrs, hmore⟩)
  | stream rs hrs =>
    rw [cons_append, ← flatMap_append]
    exact .stream _ (forall_mem_append.mpr ⟨hrs, hmore⟩)
  | snapshot rs hships hsnapshot hmetadata hrs =>
    rw [cons_append, append_assoc, sent, append_assoc, append_assoc, ← flatMap_append]
    exact .snapshot _ hships hsnapshot hmetadata (forall_mem_append.mpr ⟨hrs, hmore⟩)

namespace Conn

theorem Carries.append (h : c.Carries crc J cfg L) (ds : List Change) :
    c.Carries crc J cfg (L ++ ds) := by
  obtain ⟨b, k, hspoken, hwire, hopen⟩ := h
  exact ⟨b, k, hspoken.append ds, hwire, hopen⟩

theorem Carries.send (h : c.Carries crc J cfg L) (hopen : c.serving ≠ .closed) {more : List Record}
    (hmore : ∀ rec ∈ more, rec ∈ recsFrom J 0 L) (serving : Serving) :
    (⟨serving, c.awaits, c.wire ++ more.flatMap (encodeRecord crc)⟩ : Conn).Carries crc J cfg L := by
  obtain ⟨b, k, hspoken, hwire, hk⟩ := h
  rw [take_of_length_le (hk hopen)] at hwire
  refine ⟨_, _, hspoken.more hmore, ?_, fun _ => le_rfl⟩
  rw [hwire, take_length]

theorem Carries.cut (h : c.Carries crc J cfg L) (n : ℕ) :
    (⟨.closed, c.awaits, c.wire.take n⟩ : Conn).Carries crc J cfg L := by
  obtain ⟨b, k, hspoken, hwire, -⟩ := h
  refine ⟨b, min n k, hspoken, ?_, fun hne => absurd rfl hne⟩
  rw [hwire, take_take]

theorem Carries.rest {b front rest wire : Bytes} {awaits : Awaits} {k : ℕ} {serving : Serving}
    (hwire : wire = (front ++ b).take k) (hopen : serving ≠ .closed → (front ++ b).length ≤ k)
    (hused : wire = front ++ rest) (hspoken : Says crc J cfg L awaits b) :
    (⟨serving, awaits, rest⟩ : Conn).Carries crc J cfg L := by
  have hrest : rest = b.take (k - front.length) := by
    rw [hused] at hwire
    have hlen := congrArg length hwire
    rw [length_append, length_take, length_append] at hlen
    rw [take_append, take_of_length_le (by omega)] at hwire
    exact append_cancel_left hwire
  refine ⟨b, k - front.length, hspoken, hrest, fun hne => ?_⟩
  have hle := hopen hne
  rw [length_append] at hle
  omega

theorem take_cons_eq {x y : UInt8} {xs ys : Bytes} {k : ℕ} (h : x :: xs = (y :: ys).take k) :
    ∃ n, k = n + 1 ∧ x = y ∧ xs = ys.take n := by
  cases k with
  | zero => cases h
  | succ n => exact ⟨n, rfl, cons.inj h⟩

theorem Carries.stream (h : c.Carries crc J cfg L) {marker : UInt8} {rest : Bytes}
    (hawaits : c.awaits = .answer) (hwire : c.wire = marker :: rest)
    (hmarker : marker ≠ markerSnapshotFollows) :
    (⟨c.serving, .records, rest⟩ : Conn).Carries crc J cfg L := by
  obtain ⟨b, k, hspoken, hb, hopen⟩ := h
  rw [hawaits] at hspoken
  cases hspoken with
  | stream rs hrs =>
    obtain ⟨-, -, rfl, -⟩ := take_cons_eq (hwire.symm.trans hb)
    have hfront : c.wire = ([markerNoSnapshot] ++ rs.flatMap (encodeRecord crc)).take k := hb
    exact Carries.rest hfront hopen hwire (.records rs hrs)
  | snapshot rs hships hsnapshot hmetadata hrs =>
    obtain ⟨-, -, rfl, -⟩ := take_cons_eq (hwire.symm.trans hb)
    exact absurd rfl hmarker

theorem Carries.snapshot (h : c.Carries crc J cfg L) {tail snapshot metadata : Bytes}
    (hawaits : c.awaits = .answer) (hwire : c.wire = markerSnapshotFollows :: tail)
    (hlen : 8 ≤ tail.length)
    (hblobs : (readBlobs Stream.ofList (tail.drop 8)).1 = .ok (snapshot, metadata)) :
    (∃ i, Node.Ships J cfg snapshot metadata (uint64BE (tail.take 8)) L i) ∧
      (⟨c.serving, .records, (readBlobs Stream.ofList (tail.drop 8)).2⟩ : Conn).Carries crc J cfg L := by
  obtain ⟨b, k, hspoken, hb, hopen⟩ := h
  rw [hawaits] at hspoken
  cases hspoken with
  | stream rs hrs =>
    obtain ⟨-, -, hmarker, -⟩ := take_cons_eq (hwire.symm.trans hb)
    exact absurd hmarker (by decide)
  | @snapshot snapshot' metadata' seq i rs hships hsnapshot hmetadata hrs =>
    obtain ⟨k, rfl, -, htail⟩ := take_cons_eq (hwire.symm.trans hb)
    have hk : 8 ≤ k := by
      rw [htail, length_take] at hlen
      omega
    rw [take_append, take_of_length_le (by simpa using hk), length_putUint64BE] at htail
    have hseq : tail.take 8 = putUint64BE seq := by
      rw [htail, take_left' (length_putUint64BE seq)]
    have hrest : tail.drop 8 = (sent crc snapshot' metadata' rs).take (k - 8) := by
      rw [htail, drop_left' (length_putUint64BE seq)]
    obtain ⟨hout, hle, hmore⟩ := readBlobs_eq_ok (R := Stream.ofList) hsnapshot hmetadata hrest hblobs
    obtain ⟨rfl, rfl⟩ := Prod.mk.inj hout
    refine ⟨⟨i, ?_⟩, _, _, .records rs hrs, hmore, fun hne => ?_⟩
    · rw [hseq, uint64BE_putUint64BE]
      exact hships
    · have hall := hopen hne
      simp only [length_cons, length_append, length_putUint64BE, sent] at hall
      omega

theorem Carries.record (h : c.Carries crc J cfg L) (hreadable : ∀ rec ∈ recsFrom J 0 L, rec.Readable)
    {rec : Record} {n : ℕ} {rest : Bytes} (hawaits : c.awaits = .records)
    (hframe : readFrame crc c.wire = .ok (rec, n, rest)) :
    rec ∈ recsFrom J 0 L ∧ (⟨c.serving, .records, rest⟩ : Conn).Carries crc J cfg L := by
  obtain ⟨b, k, hspoken, hb, hopen⟩ := h
  rw [hawaits] at hspoken
  obtain ⟨-, hused, -⟩ := encodeRecord_of_readFrame crc hframe
  cases hspoken with
  | records rs hrs =>
    cases rs with
    | nil =>
      have hlen := congrArg length (hb.symm.trans hused)
      rw [length_append, encodeRecord_length] at hlen
      rw [flatMap_nil, take_nil, length_nil] at hlen
      omega
    | cons rec' rs =>
      obtain ⟨hrec', hrs'⟩ := forall_mem_cons.mp hrs
      rw [flatMap_cons] at hb hopen
      -- the frame at the front of all that was sent is the one at the front of what has come
      have hall : encodeRecord crc rec ++ (rest ++ (encodeRecord crc rec' ++
          rs.flatMap (encodeRecord crc)).drop k) =
          encodeRecord crc rec' ++ rs.flatMap (encodeRecord crc) := by
        rw [← append_assoc, ← hused, hb, take_append_drop]
      have hsame := readFrame_encodeRecord crc (hreadable rec' hrec')
        (rs.flatMap (encodeRecord crc))
      rw [← hall, readFrame_encodeRecord crc (encodeRecord_of_readFrame crc hframe).1] at hsame
      obtain rfl : rec = rec' := (Prod.mk.inj (Except.ok.inj hsame)).1
      exact ⟨hrec', Carries.rest hb hopen hused (.records rs hrs')⟩

end Conn

end Wire

section Invariant
variable {D : Type} [Hnsw.Dist D] (crc : Bytes → UInt32) (J : Codec) (M : Json (Target → Bool))
  (cfg : Config D)

def Serving.Waits : Serving → Prop
  | .greeted _ => True
  | .resync => True
  | _ => False

def Serving.Speaks : Serving → Prop
  | .sentSnapshot _ => True
  | .streaming _ => True
  | _ => False

structure Conn.Inv (l : Leader D) (L : List Change) (c : Conn) : Prop where
  wire : c.Silent ∨ c.Carries crc J cfg L
  waits : c.serving.Waits → c.Silent
  speaks : c.serving.Speaks → c.Carries crc J cfg L
  reads : ∀ r, c.serving = .streaming r → ∃ b e q, l.Reads crc J L r b e q

def Pair.Tolerates (s : Pair D) (rng : ℕ → ℕ) (faults : List Fault) : Prop :=
  ∀ c seq snapshot metadata rest, s.conn = some c →
    c.arrival crc = .snapshot seq snapshot metadata rest →
    ∀ ev ∈ (loadSnapshot J M cfg rng snapshot metadata seq).log s.follower.dir faults,
      Tolerated False ev.label ev.op ev.fault

def Pair.Survives (s : Pair D) : Halt → Prop
  | .receiving _ => True
  | .applying n => ∀ c rec rest, s.conn = some c → c.arrival crc = .record rec rest →
      (recover crc deliver (halted crc s.follower.sys rec n).wal []).err = none
  | .loading rng faults _ => s.Tolerates crc J M cfg rng faults

structure Pair.Inv (s : Pair D) (L : List Change) : Prop where
  leader : ∃ w0 sn mt, Durable J cfg crc s.leader.sys L w0 sn mt
  follower : ∃ k ≤ L.length, s.follower.Holds crc J cfg (L.take k)
  conn : ∀ c, s.conn = some c → c.Inv crc J cfg s.leader L

variable {crc J M cfg} {s : Pair D} {l : Leader D} {L : List Change} {c : Conn}

theorem Conn.Inv.of_silent (h : c.Silent) (hserving : ¬ c.serving.Speaks) : c.Inv crc J cfg l L := by
  refine ⟨.inl h, fun _ => h, fun hs => absurd hs hserving, fun r hr => ?_⟩
  rw [hr] at hserving
  exact absurd trivial hserving

theorem Conn.Inv.of_carries (h : c.Carries crc J cfg L) (hserving : ¬ c.serving.Waits)
    (hreads : ∀ r, c.serving = .streaming r → ∃ b e q, l.Reads crc J L r b e q) : c.Inv crc J cfg l L :=
  ⟨.inr h, fun hs => absurd hs hserving, fun _ => h, hreads⟩

section
variable (h : c.Inv crc J cfg l L)
include h

theorem Conn.Inv.used (hsilent : ¬ c.Silent) {awaits : Awaits} {rest : Bytes}
    (hcarries : (⟨c.serving, awaits, rest⟩ : Conn).Carries crc J cfg L) :
    (⟨c.serving, awaits, rest⟩ : Conn).Inv crc J cfg l L :=
  .of_carries hcarries (fun hs => hsilent (h.waits hs)) h.reads

section
variable (hreadable : ∀ rec ∈ recsFrom J 0 L, rec.Readable)
include hreadable

theorem Conn.Inv.arrives : (c.arrival crc = .more ∨ c.arrival crc = .failed) ∨
    (∃ rest, c.arrival crc = .stream rest ∧ (⟨c.serving, .records, rest⟩ : Conn).Inv crc J cfg l L) ∨
    (∃ seq snapshot metadata rest i, c.arrival crc = .snapshot seq snapshot metadata rest ∧
      Node.Ships J cfg snapshot metadata seq L i ∧
      (⟨c.serving, .records, rest⟩ : Conn).Inv crc J cfg l L) ∨
    ∃ rec rest, c.arrival crc = .record rec rest ∧ rec ∈ recsFrom J 0 L ∧
      ({ c with wire := rest } : Conn).Inv crc J cfg l L := by
  rcases c.arrival_cases crc with hnone | ⟨marker, rest, hawaits, hwire, hmarker, harrival⟩ |
    ⟨tail, snapshot, metadata, hawaits, hwire, hlen, hblobs, harrival⟩ |
    ⟨rec, n, rest, hawaits, hframe, harrival⟩
  · exact .inl hnone
  · have hsilent : ¬ c.Silent := fun hs => by simp [hs.2] at hwire
    have hcarries := h.wire.resolve_left hsilent
    exact .inr (.inl ⟨rest, harrival, h.used hsilent (hcarries.stream hawaits hwire hmarker)⟩)
  · have hsilent : ¬ c.Silent := fun hs => by simp [hs.2] at hwire
    obtain ⟨⟨i, hships⟩, hcarries⟩ := (h.wire.resolve_left hsilent).snapshot hawaits hwire hlen hblobs
    exact .inr (.inr (.inl ⟨_, _, _, _, i, harrival, hships, h.used hsilent hcarries⟩))
  · have hsilent : ¬ c.Silent := fun hs => by simp [hs.1] at hawaits
    obtain ⟨hrec, hcarries⟩ := (h.wire.resolve_left hsilent).record hreadable hawaits hframe
    refine .inr (.inr (.inr ⟨rec, rest, harrival, hrec, ?_⟩))
    rw [hawaits]
    exact h.used hsilent hcarries

theorem Conn.Inv.mem_of_record {rec : Record} {rest : Bytes}
    (harrival : c.arrival crc = .record rec rest) : rec ∈ recsFrom J 0 L := by
  rcases h.arrives hreadable with (h' | h') | ⟨_, h', -⟩ | ⟨_, _, _, _, _, h', -⟩ | ⟨_, _, h', hrec, -⟩
  all_goals rw [harrival] at h'
  all_goals cases h'
  exact hrec

theorem Conn.Inv.ships_of_snapshot {seq : UInt64} {snapshot metadata rest : Bytes}
    (harrival : c.arrival crc = .snapshot seq snapshot metadata rest) :
    ∃ i, Node.Ships J cfg snapshot metadata seq L i := by
  rcases h.arrives hreadable with (h' | h') | ⟨_, h', -⟩ | ⟨_, _, _, _, i, h', hships, -⟩ | ⟨_, _, h', -⟩
  all_goals rw [harrival] at h'
  all_goals cases h'
  exact ⟨i, hships⟩

end

end

variable (crc J M cfg) in
theorem Pair.left_applying (s : Pair D) (n : ℕ) : s.left crc J M cfg (.applying n) = s.follower.dir ∨
    ∃ c rec rest, s.conn = some c ∧ c.arrival crc = .record rec rest ∧ s.left crc J M cfg (.applying n) =
        withDisk s.follower.rest (halted crc s.follower.sys rec n) := by
  simp only [Pair.left]
  split
  · next rec rest hconn =>
    obtain ⟨c, hc, harrival⟩ := map_eq_some_iff.mp hconn
    exact .inr ⟨c, rec, rest, hc, harrival, rfl⟩
  · exact .inl rfl

variable (crc J M cfg) in
theorem Pair.left_loading (s : Pair D) (rng : ℕ → ℕ) (faults : List Fault) (ops : ℕ) :
    s.left crc J M cfg (.loading rng faults ops) = s.follower.dir ∨
    ∃ c seq snapshot metadata rest, s.conn = some c ∧
      c.arrival crc = .snapshot seq snapshot metadata rest ∧
      s.left crc J M cfg (.loading rng faults ops) =
        (loadSnapshot J M cfg rng snapshot metadata seq).crashed s.follower.dir faults ops := by
  simp only [Pair.left]
  split
  · next seq snapshot metadata rest hconn _ =>
    obtain ⟨c, hc, harrival⟩ := map_eq_some_iff.mp hconn
    exact .inr ⟨c, seq, snapshot, metadata, rest, hc, harrival, rfl⟩
  · exact .inl rfl

namespace Pair.Inv
variable {faults : List Fault}

section
variable (h : s.Inv crc J cfg L)
include h

theorem of_conn {conn : Option Conn} (hconn : ∀ c, conn = some c → c.Inv crc J cfg s.leader L) :
    ({ s with conn := conn } : Pair D).Inv crc J cfg L :=
  ⟨h.leader, h.follower, hconn⟩

theorem leading : Leading crc J cfg s.leader.sys L := by
  obtain ⟨w0, sn, mt, hd⟩ := h.leader
  exact hd.leading

theorem connect : (s.connect crc).Inv crc J cfg L := by
  unfold Pair.connect
  split
  · refine h.of_conn fun c hc => ?_
    obtain rfl := some.inj hc
    exact .of_silent ⟨rfl, rfl⟩ id
  · exact h

theorem lead {ev : Event} (hev : s.leader.sys.Runs crc J cfg ev) : ∃ l, s.leader.step crc J ev = .ok l ∧
      ({ s with leader := l } : Pair D).Inv crc J cfg (L ++ ev.changes) := by
  obtain ⟨w0, sn, mt, hd⟩ := h.leader
  obtain ⟨k, hk, hfollower⟩ := h.follower
  obtain ⟨l, hl, -⟩ := Leader.step_leading hd.leading hev.1
  refine ⟨l, hl, hd.runs hev (Leader.step_sys hl), ⟨k, ?_, ?_⟩, fun c hc => ?_⟩
  · rw [length_append]
    omega
  · rw [take_append_of_le_length hk]
    exact hfollower
  · have hinv := h.conn c hc
    refine ⟨hinv.wire.imp id fun hcarries => hcarries.append _, hinv.waits,
      fun hs => (hinv.speaks hs).append _, fun r hr => ?_⟩
    obtain ⟨b, e, q, hreads⟩ := hinv.reads r hr
    obtain ⟨e', hreads'⟩ := hreads.step hd.leading hev.1 hl
    exact ⟨b, e', q, hreads'⟩

theorem reads_start (fromSeq : UInt64) :
    ∃ b e q, s.leader.Reads crc J L (.start s.leader.live fromSeq) b e q := by
  obtain ⟨b, -, hreads⟩ := Leader.reads_start (r := .start s.leader.live fromSeq) h.leading rfl rfl rfl
  exact ⟨b, _, _, hreads⟩

theorem answer : (s.answer crc).Inv crc J cfg L := by
  unfold Pair.answer
  split
  · next hello awaits wire hconn _ =>
    obtain ⟨hawaits, hwire⟩ := (h.conn _ hconn).waits trivial
    obtain rfl : awaits = .answer := hawaits
    obtain rfl : wire = [] := hwire
    split
    all_goals
      refine h.of_conn fun c hc => ?_
      obtain rfl := some.inj hc
    · exact .of_silent ⟨rfl, rfl⟩ id
    · exact .of_silent ⟨rfl, rfl⟩ id
    · refine .of_carries ⟨_, 1, .stream [] (by simp), rfl, fun _ => le_rfl⟩ id fun r hr => ?_
      cases hr
      exact h.reads_start hello.fromSeq
  · exact h

theorem sendSnapshot (hsizes : ∀ b, (s.leader.sys.rename crc).disk.snapshot = some b ∨
      (s.leader.sys.rename crc).disk.metadata = some b → b.length < UInt64.size) :
    (s.sendSnapshot crc).Inv crc J cfg L := by
  unfold Pair.sendSnapshot
  split
  · next awaits wire hconn =>
    obtain ⟨hawaits, hwire⟩ := (h.conn _ hconn).waits trivial
    obtain rfl : awaits = .answer := hawaits
    obtain rfl : wire = [] := hwire
    split
    · next hrot =>
      obtain ⟨w0, sn, mt, hd⟩ := h.leader
      obtain ⟨w0', hrenamed⟩ := hd.rename
      dsimp only
      split
      · next snapshot metadata hsnapshot hmetadata =>
        refine ⟨⟨w0', sn, mt, hrenamed⟩, h.follower, fun c hc => ?_⟩
        obtain rfl := some.inj hc
        have hships := hd.ships hrot hsnapshot hmetadata
        have hspoken : Says crc J cfg L .answer _ := .snapshot [] hships
          (hsizes _ (.inl hsnapshot)) (hsizes _ (.inr hmetadata)) (by simp)
        refine .of_carries ⟨_, _, hspoken, ?_, fun _ => le_rfl⟩ id fun r hr => ?_
        · simp [sent]
        · cases hr
      · refine ⟨⟨w0', sn, mt, hrenamed⟩, h.follower, fun c hc => ?_⟩
        obtain rfl := some.inj hc
        exact .of_silent ⟨rfl, rfl⟩ id
    · exact h
  · exact h

theorem openLog : s.openLog.Inv crc J cfg L := by
  unfold Pair.openLog
  split
  · next seq awaits wire hconn =>
    obtain ⟨b, k, hspoken, hwire, hk⟩ := (h.conn _ hconn).speaks trivial
    refine h.of_conn fun c hc => ?_
    obtain rfl := some.inj hc
    refine .of_carries ⟨b, k, hspoken, hwire, fun _ => hk (by simp)⟩ id fun r hr => ?_
    cases hr
    exact h.reads_start seq
  · exact h

theorem stream {f : Reader → Reader}
    (hf : ∀ r b e q, s.leader.Reads crc J L r b e q → (∃ b e q, s.leader.Reads crc J L (f r) b e q) ∧
      ∃ more, (f r).passed = r.passed ++ more ∧ ∀ rec ∈ more, rec ∈ recsFrom J 0 L) :
    (s.stream crc f).Inv crc J cfg L := by
  unfold Pair.stream
  split
  · next r awaits wire hconn =>
    have hinv := h.conn _ hconn
    obtain ⟨b, e, q, hreads⟩ := hinv.reads r rfl
    obtain ⟨hreads', more, hpassed, hmore⟩ := hf r b e q hreads
    refine h.of_conn fun c hc => ?_
    obtain rfl := some.inj hc
    rw [hpassed, drop_left]
    refine .of_carries ((hinv.speaks trivial).send (by simp) hmore _) id fun r' hr' => ?_
    obtain rfl := Serving.streaming.inj hr'
    exact hreads'
  · exact h

theorem read : (s.stream crc fun r => r.read crc (s.leader.file r.fd)).Inv crc J cfg L := by
  refine h.stream fun r b e q hreads => ?_
  rcases hreads.read with ⟨hreads', hpassed, -⟩ | ⟨rec, n, hrec, htake, hreads'⟩
  · exact ⟨⟨b, e, q, hreads'⟩, [], by rw [hpassed, append_nil], by simp⟩
  · refine ⟨⟨b, e, q + 1, hreads'⟩, ?_⟩
    rw [htake, Reader.take]
    split
    · exact ⟨[rec], rfl, forall_mem_singleton.mpr (mem_of_getElem? hrec)⟩
    · exact ⟨[], (append_nil _).symm, by simp⟩

theorem stat (live : Option ℕ) : (s.stream crc fun r => r.stat live).Inv crc J cfg L := by
  refine h.stream fun r b e q hreads => ⟨⟨b, e, q, hreads.stat live⟩, [], ?_, by simp⟩
  rw [(r.stat_passed live).1, append_nil]

theorem reopen (opens : Bool) :
    (s.stream crc fun r => r.reopen (if opens then some s.leader.live else none)).Inv crc J cfg L := by
  refine h.stream fun r b e q hreads => ⟨?_, [], ?_, by simp⟩
  · unfold Reader.reopen
    split
    · next live hpc hlive =>
      obtain ⟨-, rfl⟩ : opens = true ∧ s.leader.live = live := by simpa using hlive
      obtain ⟨b, -, hreads'⟩ := Leader.reads_start h.leading
        (r := { r with fd := s.leader.live, offset := 0, pc := .header }) rfl rfl rfl
      exact ⟨b, _, _, hreads'⟩
    · exact ⟨b, e, q, hreads.of_pc rfl rfl (by simp)⟩
    · exact ⟨b, e, q, hreads⟩
  · unfold Reader.reopen
    split <;> simp

theorem cut (n : ℕ) : (s.cut n).Inv crc J cfg L := by
  refine h.of_conn fun c hc => ?_
  obtain ⟨c', hc', rfl⟩ := map_eq_some_iff.mp hc
  rcases (h.conn c' hc').wire with ⟨hawaits, hwire⟩ | hcarries
  · refine .of_silent ⟨hawaits, ?_⟩ id
    rw [hwire, take_nil]
  · exact .of_carries (hcarries.cut n) id (fun r hr => by cases hr)

theorem own {ev : Event} (hev : s.follower.sys.Runs crc J cfg ev) (hnone : ev.changes = []) :
    ∃ sys, s.follower.sys.step crc J ev = .ok sys ∧
      ({ s with follower := { s.follower with sys := sys } } : Pair D).Inv crc J cfg L := by
  obtain ⟨k, hk, hfollower⟩ := h.follower
  obtain ⟨w0, sn, mt, hd⟩ := hfollower.sys
  obtain ⟨sys, hstep, -⟩ := hd.leading.step hev.1
  have hruns := hd.runs hev hstep
  rw [hnone, append_nil] at hruns
  exact ⟨sys, hstep, h.leader, ⟨k, hk, hruns, hfollower.marker⟩, h.conn⟩

end

theorem next_record (hroom : L.length < 2 ^ 64) {k : ℕ} (hk : k ≤ L.length) {rec : Record}
    (hrec : rec ∈ recsFrom J 0 L) (hseq : rec.seq = UInt64.ofNat k + 1) :
    ∃ c, L[k]? = some c ∧ rec = c.logged J (UInt64.ofNat k + 1) := by
  obtain ⟨j, hj⟩ := mem_iff_getElem?.mp hrec
  have hnum := seq_of_getElem?_recsFrom hroom hj
  have hlt : j < L.length := by
    have hlen := (List.getElem?_eq_some_iff.mp hj).1
    simpa [recsFrom, Writer.assignSeqs_length] using hlen
  obtain rfl : j = k := by
    have hadd : UInt64.ofNat k + 1 = UInt64.ofNat (k + 1) := (UInt64.ofNat_add k 1).symm
    rw [hseq, hadd, UInt64.toNat_ofNat'] at hnum
    rcases Nat.lt_or_ge (k + 1) (2 ^ 64) with hsmall | hlarge
    · rw [Nat.mod_eq_of_lt hsmall] at hnum
      omega
    · have heq : k + 1 = 2 ^ 64 := by omega
      rw [heq, Nat.mod_self] at hnum
      omega
  rw [getElem?_recsFrom_zero] at hj
  obtain ⟨c, hc, rfl⟩ := map_eq_some_iff.mp hj
  exact ⟨c, hc, by rw [UInt64.ofNat_add]; rfl⟩

theorem apply (h : s.Inv crc J cfg L) {rec : Record} {rest : Bytes} (hrec : rec ∈ recsFrom J 0 L)
    (hconn : ({ c with wire := rest } : Conn).Inv crc J cfg s.leader L) :
    (s.apply crc J c rec rest).Inv crc J cfg L := by
  obtain ⟨k, hk, hfollower⟩ := h.follower
  obtain ⟨w0, sn, mt, hd⟩ := hfollower.sys
  obtain ⟨_, _, _, hleader⟩ := h.leader
  have hlen : (L.take k).length = k := length_take_of_le hk
  unfold Pair.apply
  cases hlocked : s.follower.sys.locked with
  | true => exact h
  | false =>
    by_cases hseq : rec.seq = UInt64.ofNat k + 1
    · obtain ⟨ch, hch, rfl⟩ := next_record hleader.log.holds.room hk hrec hseq
      have hmem := List.mem_of_getElem? hch
      obtain ⟨hvalid, hread⟩ := hleader.log.holds.valid ch hmem
      have hlt := (List.getElem?_eq_some_iff.mp hch).1
      have hroom := hleader.log.holds.room
      obtain ⟨sys, hrep, hd', -⟩ := hd.replicate hlocked hvalid hread (hleader.stable ch hmem) (by omega)
      rw [hlen] at hrep
      simp only [hrep, Bool.false_eq_true, if_false]
      refine ⟨h.leader, ⟨k + 1, hlt, ⟨w0, sn, mt, ?_⟩, hfollower.marker⟩, fun c' hc' => ?_⟩
      · rw [take_add_one, hch, toList_some]
        exact hd'
      · obtain rfl := some.inj hc'
        exact hconn
    · rw [← hlen] at hseq
      obtain ⟨err, hrep⟩ := hd.replicate_refused hseq
      simp only [hrep, Bool.false_eq_true, if_false]
      exact ⟨h.leader, ⟨k, hk, hfollower⟩, fun c' hc' => by cases hc'⟩

theorem load (h : s.Inv crc J cfg L) {snapshot metadata rest : Bytes} {seq : UInt64} {i : ℕ}
    (hships : Node.Ships J cfg snapshot metadata seq L i) (rng : ℕ → ℕ)
    (hfaults : ∀ ev ∈ (loadSnapshot J M cfg rng snapshot metadata seq).log s.follower.dir faults,
      Tolerated False ev.label ev.op ev.fault)
    (hconn : (⟨c.serving, .records, rest⟩ : Conn).Inv crc J cfg s.leader L) :
    (s.load J M cfg c rng faults seq snapshot metadata rest).Inv crc J cfg L := by
  obtain ⟨k, hk, hfollower⟩ := h.follower
  obtain ⟨w0, sn, mt, hleader⟩ := h.leader
  unfold Pair.load
  split
  · next hidle =>
    cases hresult : s.follower.load J M cfg rng snapshot metadata seq faults with
    | mk n result =>
      obtain ⟨hnone, hsome⟩ := hfollower.load hidle rng hfaults hresult
      refine ⟨h.leader, ?_, fun c' hc' => ?_⟩
      · cases result with
        | none => exact ⟨k, hk, (hnone rfl).2⟩
        | some synced => exact ⟨i, hships.le, (hsome synced rfl L i _ w0 sn mt hships hleader).2⟩
      · by_cases hgood : result = some true
        · simp only [hgood, if_true, some.injEq] at hc'
          exact hc' ▸ hconn
        · simp [hgood] at hc'
  · exact h

theorem follow (h : s.Inv crc J cfg L) (rng : ℕ → ℕ)
    (hfaults : s.Tolerates crc J M cfg rng faults) (left : Target → Option Bytes) :
    (s.follow crc J M cfg rng faults left).Inv crc J cfg L := by
  unfold Pair.follow
  cases hc : s.conn with
  | none => exact h
  | some c =>
    rcases (h.conn c hc).arrives (h.leading.readable 0) with (hmore | hfailed) |
      ⟨rest, harrival, hconn⟩ | ⟨seq, snapshot, metadata, rest, i, harrival, hships, hconn⟩ |
      ⟨rec, rest, harrival, hrec, hconn⟩
    · simpa only [hmore] using h
    · simp only [hfailed]
      obtain ⟨k, hk, hfollower⟩ := h.follower
      exact ⟨h.leader, ⟨k, hk, hfollower.sys, hfollower.marker⟩, fun c' hc' => by cases hc'⟩
    · simp only [harrival]
      refine h.of_conn fun c' hc' => ?_
      obtain rfl := some.inj hc'
      exact hconn
    · simp only [harrival]
      exact h.load hships rng (hfaults c _ _ _ _ hc harrival) hconn
    · simp only [harrival]
      exact h.apply hrec hconn

theorem halted_eq {sys : Sys D} {w0 sn mt : ℕ} (hd : Durable J cfg crc sys L w0 sn mt) (ch : Change)
    (n : ℕ) :
    halted crc sys (ch.logged J (UInt64.ofNat L.length + 1)) n = sys.crashed crc J [ch] n := by
  have hseq : (ch.logged J (UInt64.ofNat L.length + 1)).seq = UInt64.ofNat L.length + 1 := rfl
  have hframe : (walCode crc).encAll
      (Writer.assignSeqs (UInt64.ofNat L.length + 1) [ch.record J]) =
      encodeRecord crc (ch.logged J (UInt64.ofNat L.length + 1)) :=
    FrameCode.encAll_singleton (walCode crc) _
  cases hlocked : sys.locked with
  | true => simp only [halted, Sys.crashed, hlocked]
  | false =>
    simp only [halted, Sys.crashed, hlocked, hd.ready, hd.nextSeq, hseq, map_cons, map_nil,
      hframe, ne_eq, not_true_eq_false, if_false]

theorem halted_other {sys : Sys D} {w0 sn mt : ℕ} (hd : Durable J cfg crc sys L w0 sn mt)
    {rec : Record} (hseq : rec.seq ≠ UInt64.ofNat L.length + 1) (n : ℕ) :
    halted crc sys rec n = sys.disk := by
  simp only [halted, hd.nextSeq]
  split
  · exact if_pos hseq
  · rfl

section
variable (h : s.Inv crc J cfg L)
include h

theorem of_node {n : Node D} {k : ℕ} (hk : k ≤ L.length) (hn : n.Holds crc J cfg (L.take k)) :
    ({ s with follower := n, conn := none } : Pair D).Inv crc J cfg L :=
  ⟨h.leader, ⟨k, hk, hn⟩, fun c hc => by cases hc⟩

theorem restart_settled {d : Files Name}
    (hsettles : Settles M (fun t => s.follower.dir (.live t)) d) (workers : Workers) (rng : ℕ → ℕ)
    (interrupted : List ℕ) :
    ∃ n, Node.restart crc J M cfg workers rng interrupted d s.follower.sys.disk.walNew = .ok n ∧
      ({ s with follower := n, conn := none } : Pair D).Inv crc J cfg L := by
  obtain ⟨k, hk, hfollower⟩ := h.follower
  obtain ⟨n, hrestart, hn⟩ := hfollower.restart hsettles workers rng interrupted
  exact ⟨n, hrestart, h.of_node hk hn⟩

theorem settles : Settles M (fun t => s.follower.dir (.live t)) s.follower.dir := by
  obtain ⟨k, hk, hfollower⟩ := h.follower
  exact .inl hfollower.unmarked

theorem restart_applying {n : ℕ} (hhalt : s.Survives crc J M cfg (.applying n))
    (workers : Workers) (rng : ℕ → ℕ) (interrupted : List ℕ) :
    ∃ n', Node.restart crc J M cfg workers rng interrupted (s.left crc J M cfg (.applying n))
        s.follower.sys.disk.walNew = .ok n' ∧
      ({ s with follower := n', conn := none } : Pair D).Inv crc J cfg L := by
  obtain ⟨k, hk, hfollower⟩ := h.follower
  obtain ⟨w0, sn, mt, hd⟩ := hfollower.sys
  obtain ⟨_, _, _, hleader⟩ := h.leader
  have hlen : (L.take k).length = k := length_take_of_le hk
  rcases s.left_applying crc J M cfg n with hleft | ⟨c, rec, rest, hc, harrival, hleft⟩
  · rw [hleft]
    exact h.restart_settled h.settles workers rng interrupted
  rw [hleft]
  have hrec := (h.conn c hc).mem_of_record (h.leading.readable 0) harrival
  by_cases hseq : rec.seq = UInt64.ofNat k + 1
  · obtain ⟨ch, hch, rfl⟩ := next_record hleader.log.holds.room hk hrec hseq
    have hmem := List.mem_of_getElem? hch
    have hlt := (List.getElem?_eq_some_iff.mp hch).1
    have hroom := hleader.log.holds.room
    have hrecover := hhalt c _ rest hc harrival
    have hcrashed := halted_eq hd ch n
    rw [hlen] at hcrashed
    rw [hcrashed] at hrecover ⊢
    have hcs : s.follower.sys.Loggable J cfg [ch] := by
      refine ⟨forall_mem_singleton.mpr (hleader.log.holds.valid ch hmem), ?_⟩
      rw [hd.log.toNat_seq, hlen, length_singleton]
      omega
    obtain ⟨n', j, hrestart, hn'⟩ := hfollower.restart_committing (M := M) hcs
      (forall_mem_singleton.mpr (hleader.stable ch hmem)) workers rng interrupted (.inl hrecover)
    have hnew : (s.follower.sys.crashed crc J [ch] n).walNew = s.follower.sys.disk.walNew := by
      simp only [Sys.crashed]
      split <;> rfl
    rw [hnew] at hrestart
    refine ⟨n', hrestart, ?_⟩
    cases j with
    | zero => exact h.of_node hk (by simpa using hn')
    | succ j =>
      refine h.of_node hlt ?_
      rw [take_add_one, hch, toList_some]
      simpa using hn'
  · rw [← hlen] at hseq
    rw [halted_other hd hseq]
    exact h.restart_settled h.settles workers rng interrupted

theorem restart_loading {rng' : ℕ → ℕ} (ops : ℕ)
    (hfaults : s.Tolerates crc J M cfg rng' faults) (workers : Workers) (rng : ℕ → ℕ)
    (interrupted : List ℕ) :
    ∃ n, Node.restart crc J M cfg workers rng interrupted
        (s.left crc J M cfg (.loading rng' faults ops)) s.follower.sys.disk.walNew = .ok n ∧
      ({ s with follower := n, conn := none } : Pair D).Inv crc J cfg L := by
  obtain ⟨k, hk, hfollower⟩ := h.follower
  obtain ⟨_, _, _, hleader⟩ := h.leader
  rcases s.left_loading crc J M cfg rng' faults ops with hleft |
    ⟨c, seq, snapshot, metadata, rest, hc, harrival, hleft⟩
  · rw [hleft]
    exact h.restart_settled h.settles workers rng interrupted
  rw [hleft]
  obtain ⟨i, hships⟩ := (h.conn c hc).ships_of_snapshot (h.leading.readable 0) harrival
  obtain ⟨n, hrestart, hn⟩ := hfollower.restart_loading hships hleader
    (hfaults c _ _ _ _ hc harrival) ops workers rng interrupted
  refine ⟨n, hrestart, ?_⟩
  rcases hn with hold | hnew
  · exact h.of_node hk hold
  · exact h.of_node hships.le hnew

theorem restart {halt : Halt} (hhalt : s.Survives crc J M cfg halt)
    (workers : Workers) (rng : ℕ → ℕ) (interrupted : List ℕ) :
    ∃ n, Node.restart crc J M cfg workers rng interrupted (s.left crc J M cfg halt)
        s.follower.sys.disk.walNew = .ok n ∧
      ({ s with follower := n, conn := none } : Pair D).Inv crc J cfg L := by
  cases halt with
  | receiving left =>
    obtain ⟨k, hk, hfollower⟩ := h.follower
    have hsettles : Settles M (fun t => s.follower.dir (.live t)) (withIncoming s.follower.dir left) :=
      Or.inl ⟨hfollower.marker, fun _ => rfl⟩
    exact h.restart_settled hsettles workers rng interrupted
  | applying n => exact h.restart_applying hhalt workers rng interrupted
  | loading rng' faults ops => exact h.restart_loading ops hhalt workers rng interrupted

end

end Pair.Inv

end Invariant

section Runs
variable {D : Type} [Hnsw.Dist D] (crc : Bytes → UInt32) (J : Codec) (M : Json (Target → Bool))
  (cfg : Config D)

/-- A run: what a node may do on its own account, by the leader, and snapshots by the follower; files
whose sizes fit their fields; disk faults that can be met; restarts that find no fault with the log. -/
def Pair.Admits (s : Pair D) : PairEvent → Prop
  | .lead ev => s.leader.sys.Runs crc J cfg ev
  | .sendSnapshot => ∀ b, (s.leader.sys.rename crc).disk.snapshot = some b ∨
      (s.leader.sys.rename crc).disk.metadata = some b → b.length < UInt64.size
  | .own ev => s.follower.sys.Runs crc J cfg ev ∧ ev.changes = []
  | .follow rng faults _ => s.Tolerates crc J M cfg rng faults
  | .restart halt _ _ _ => s.Survives crc J M cfg halt
  | _ => True

variable {crc J M cfg} {s : Pair D} {L : List Change}

theorem Pair.Inv.step (h : s.Inv crc J cfg L) {ev : PairEvent} (hev : s.Admits crc J M cfg ev) :
    ∃ s', s.step crc J M cfg ev = .ok s' ∧ s'.Inv crc J cfg (L ++ ev.changes) := by
  have hquiet : ∀ {s' : Pair D}, s'.Inv crc J cfg L → s'.Inv crc J cfg (L ++ []) := by
    intro s' hs'
    rwa [append_nil]
  cases ev with
  | lead ev =>
    obtain ⟨l, hl, hl'⟩ := h.lead hev
    exact ⟨_, by simp only [Pair.step, hl], hl'⟩
  | connect => exact ⟨_, rfl, hquiet h.connect⟩
  | answer => exact ⟨_, rfl, hquiet h.answer⟩
  | sendSnapshot => exact ⟨_, rfl, hquiet (h.sendSnapshot hev)⟩
  | openLog => exact ⟨_, rfl, hquiet h.openLog⟩
  | read => exact ⟨_, rfl, hquiet h.read⟩
  | stat answers => exact ⟨_, rfl, hquiet (h.stat _)⟩
  | reopen opens => exact ⟨_, rfl, hquiet (h.reopen opens)⟩
  | cut n => exact ⟨_, rfl, hquiet (h.cut n)⟩
  | own ev =>
    obtain ⟨sys, hsys, hsys'⟩ := h.own hev.1 hev.2
    exact ⟨_, by simp only [Pair.step, hsys], hquiet hsys'⟩
  | follow rng faults left => exact ⟨_, rfl, hquiet (h.follow rng hev left)⟩
  | restart halt workers rng interrupted =>
    obtain ⟨n, hn, hn'⟩ := h.restart hev workers rng interrupted
    exact ⟨_, by simp only [Pair.step, hn], hquiet hn'⟩

def Pair.opened (leader follower : Engine D × Disk) : Pair D :=
  ⟨⟨⟨leader.2, leader.1, .idle⟩, []⟩, ⟨⟨follower.2, follower.1, .idle⟩, fun _ => none⟩, none⟩

theorem Pair.Inv.opened {leader follower : Engine D × Disk} {workers workers' : Workers}
    {rng rng' : ℕ → ℕ} (hleader : openEngine crc J cfg workers rng Disk.empty = .ok leader)
    (hfollower : openEngine crc J cfg workers' rng' Disk.empty = .ok follower) :
    (Pair.opened leader follower).Inv crc J cfg [] :=
  ⟨⟨0, 0, 0, durable_empty hleader⟩, ⟨0, le_rfl, ⟨0, 0, 0, durable_empty hfollower⟩, rfl⟩,
    fun c hc => by cases hc⟩

variable (crc J M cfg)

/-- At every moment the follower has the map that the leader had right after the record with the
follower's last number. -/
theorem follower_has_leaders_map {leader follower : Engine D × Disk} {workers workers' : Workers}
    {rng rng' : ℕ → ℕ} (hleader : openEngine crc J cfg workers rng Disk.empty = .ok leader)
    (hfollower : openEngine crc J cfg workers' rng' Disk.empty = .ok follower) {evs : List PairEvent}
    (hevs : Along (Pair.step crc J M cfg) (Pair.Admits crc J M cfg) (.opened leader follower) evs) :
    ∃ s, run (Pair.step crc J M cfg) (.opened leader follower) evs = .ok s ∧
      s.leader.sys.engine.contents =
        contentsAt cfg (evs.flatMap PairEvent.changes) s.leader.sys.engine.seq.toNat ∧
      s.follower.sys.engine.seq ≤ s.leader.sys.engine.seq ∧
      s.follower.sys.engine.contents =
        contentsAt cfg (evs.flatMap PairEvent.changes) s.follower.sys.engine.seq.toNat := by
  obtain ⟨s, hrun, hinv⟩ := run_collects (I := fun s L => s.Inv crc J cfg L) (f := PairEvent.changes)
    (fun h hev => h.step hev) (Pair.Inv.opened hleader hfollower) hevs
  rw [nil_append] at hinv
  obtain ⟨w0, sn, mt, hd⟩ := hinv.leader
  obtain ⟨k, hk, hholds⟩ := hinv.follower
  have hseq : s.follower.sys.engine.seq.toNat = k := by
    rw [hholds.toNat_seq, length_take_of_le hk]
  refine ⟨s, hrun, ?_, ?_, ?_⟩
  · rw [hd.log.toNat_seq]
    exact hd.contents
  · rw [UInt64.le_iff_toNat_le, hd.log.toNat_seq, hseq]
    exact hk
  · rw [hholds.contents, hseq, length_take_of_le hk, contentsAt_take]

end Runs

section Streamed

def nothingLeft : Target → Option Bytes := fun _ => none

def streamAndRestart : List PairEvent :=
  [.lead (.commit one [firstInsert] .ok), .connect, .answer, .read, .read,
    .follow (fun _ => 0) [] nothingLeft, .follow (fun _ => 0) [] nothingLeft, .cut 0,
    .follow (fun _ => 0) [] nothingLeft, .restart (.receiving nothingLeft) one (fun _ => 0) []]

noncomputable def freshPair : Pair Exact :=
  .opened (freshEngine, ⟨none, none, some [], none⟩) (freshEngine, ⟨none, none, some [], none⟩)

theorem streamAndRestart_admits (crc : Bytes → UInt32) :
    Along (Pair.step crc anyCodec flagBytes line) (Pair.Admits crc anyCodec flagBytes line) freshPair
      streamAndRestart := by
  have hleads : freshPair.leader.sys.locked = false ∧
      freshPair.leader.sys.Loggable anyCodec line [firstInsert] :=
    ⟨rfl, insert_loggable 1 (Nat.zero_lt_two : freshEngine.seq.toNat < 2)⟩
  have htolerates : ∀ s : Pair Exact, s.Tolerates crc anyCodec flagBytes line (fun _ => 0) [] :=
    fun s _ _ _ _ _ _ _ => log_tolerated False _ s.follower.dir
  refine ⟨⟨⟨rfl, cons_ne_nil _ _, hleads⟩, ⟨rfl, cons_ne_nil _ _, hleads⟩,
    forall_mem_singleton.mpr rfl⟩, fun _ _ => ⟨trivial, fun _ _ => ⟨trivial, fun _ _ => ⟨trivial,
    fun _ _ => ⟨trivial, fun s _ => ⟨htolerates s, fun s _ => ⟨htolerates s, fun _ _ => ⟨trivial,
    fun s _ => ⟨htolerates s, fun _ _ => ⟨trivial, fun _ _ => trivial⟩⟩⟩⟩⟩⟩⟩⟩⟩⟩

theorem streamed_insert_held :
    ∃ s, run (Pair.step crc32ChecksumIEEE anyCodec flagBytes line) freshPair streamAndRestart = .ok s ∧
      s.follower.sys.engine.seq = 1 ∧
      s.follower.sys.engine.contents = contentsAt line [firstInsert] 1 := by
  have hseq : ∃ s, run (Pair.step crc32ChecksumIEEE anyCodec flagBytes line) freshPair streamAndRestart =
      .ok s ∧ s.follower.sys.engine.seq = 1 := by decide +kernel
  obtain ⟨s, hrun, hseq⟩ := hseq
  obtain ⟨s', hrun', -, -, hcontents⟩ := follower_has_leaders_map crc32ChecksumIEEE anyCodec flagBytes
    line (freshEngine_eq_open _) (freshEngine_eq_open _) (streamAndRestart_admits _)
  obtain rfl := Except.ok.inj (hrun.symm.trans hrun')
  rw [hseq] at hcontents
  exact ⟨s, hrun, hseq, hcontents⟩

end Streamed

section Bootstrapped

def unitInsert : Change := .insert 1 [0x42240000] ∅

noncomputable def unitFresh : Engine Float32 :=
  ⟨unitLine, new unitLine fun _ => 0, ⟨1, false, false⟩, 0, 0, ∅, ∅⟩

def snapshotTail : List Event := [.capture one fun _ => 0, .replaceMetadata, .replaceSnapshot, .copyTail]

def insertAndRotate : List Event := .commit one [unitInsert] .ok :: (snapshotTail ++ [.rename])

/-- The leader has rotated its log before the follower connects, so that it sends a snapshot. -/
def bootstrap : List PairEvent :=
  insertAndRotate.map .lead ++ ([.connect, .answer] ++ (snapshotTail.map .lead ++
    [.sendSnapshot, .follow (fun _ => 0) [] nothingLeft]))

/-- A vector that the leader has scaled to the number before 1 is scaled again, to 1, when the follower
loads the leader's snapshot. -/
theorem bootstrap_rescales_vector :
    openEngine crc32ChecksumIEEE anyCodec unitLine one (fun _ => 0) Disk.empty =
        .ok (unitFresh, ⟨none, none, some [], none⟩) ∧
      ∃ s, run (Pair.step crc32ChecksumIEEE anyCodec flagBytes unitLine)
          (.opened (unitFresh, ⟨none, none, some [], none⟩) (unitFresh, ⟨none, none, some [], none⟩))
          bootstrap = .ok s ∧
        s.leader.sys.engine.contents 1 = some ([0x3F7FFFFF], ∅) ∧
        contentsAt unitLine (bootstrap.flatMap PairEvent.changes) 1 1 = some ([0x3F7FFFFF], ∅) ∧
        s.follower.sys.engine.seq = 1 ∧
        s.follower.sys.engine.contents 1 = some ([0x3F800000], ∅) := by
  have hends : ∃ s, run (Pair.step crc32ChecksumIEEE anyCodec flagBytes unitLine)
        (.opened (unitFresh, ⟨none, none, some [], none⟩) (unitFresh, ⟨none, none, some [], none⟩))
        bootstrap = .ok s ∧
      s.leader.sys.engine.contents 1 = some ([0x3F7FFFFF], ∅) ∧ s.follower.sys.engine.seq = 1 ∧
      s.follower.sys.engine.contents 1 = some ([0x3F800000], ∅) := by decide +kernel
  obtain ⟨s, hrun, hleader, hfollower⟩ := hends
  exact ⟨rfl, s, hrun, hleader, by decide +kernel, hfollower⟩

end Bootstrapped

end NuclaDB.Replication
