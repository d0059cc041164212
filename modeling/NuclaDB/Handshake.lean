import NuclaDB.EngineReplica

/-!
# The replication handshake

A follower tells the leader its last number and the checksum of its record with that number.
The leader compares it with its own.
-/

namespace NuclaDB

open LittleEndian Hnsw KeyedLog Install FileScript Wal List

namespace Wal

section Sum
variable (crc : Bytes → UInt32) (seq : UInt64)

def sumAtLoop : ℕ → Bytes → Option UInt32
  | 0, _ => none
  | fuel + 1, r =>
    match readFrame crc r with
    | .error _ => none
    | .ok (rec, _, rest) =>
      if rec.seq = seq then some (uint32 ((r.drop 4).take 4))
      else if seq < rec.seq then none
      else sumAtLoop fuel rest

def sumAtFile (file : Bytes) : Option UInt32 := sumAtLoop crc seq (file.length + 1) file

def sumAt (path : Option Bytes) : Option UInt32 := path.bind (sumAtFile crc seq)

variable {crc seq}

theorem sum_encodeRecord (crc : Bytes → UInt32) (r : Record) (rest : Bytes) :
    uint32 (((encodeRecord crc r ++ rest).drop 4).take 4) = crc (encodePayload r) := by
  have hlen : (putUint32 (UInt32.ofNat (4 + (encodePayload r).length))).length = 4 := putUint32_length _
  have hsum : (putUint32 (crc (encodePayload r))).length = 4 := putUint32_length _
  rw [encodeRecord, append_assoc, append_assoc, drop_left' hlen, take_left' hsum, uint32_putUint32]

theorem sumAtLoop_frames {rs : List Record} {t : Bytes} (hrs : ∀ r ∈ rs, r.Readable)
    (hsorted : rs.Pairwise fun r r' => r.seq < r'.seq) (ht : frameAt crc t = none) {fuel : ℕ}
    (hfuel : rs.length < fuel) :
    sumAtLoop crc seq fuel ((walCode crc).encAll rs ++ t) =
      (rs.find? fun r => r.seq = seq).map fun r => crc (encodePayload r) := by
  induction rs generalizing fuel with
  | nil =>
    obtain ⟨fuel, rfl⟩ : ∃ n, fuel = n + 1 := ⟨fuel - 1, by omega⟩
    cases hread : readFrame crc t with
    | error err => simp [sumAtLoop, hread]
    | ok out =>
      obtain ⟨r, n, rest⟩ := out
      exact absurd hread ((frameAt_eq_none crc).mp ht r n rest)
  | cons r rs ih =>
    obtain ⟨fuel, rfl⟩ : ∃ n, fuel = n + 1 := ⟨fuel - 1, by omega⟩
    obtain ⟨hr, hrs⟩ := forall_mem_cons.mp hrs
    obtain ⟨hfirst, hsorted⟩ := pairwise_cons.mp hsorted
    have hread := readFrame_encodeRecord crc hr ((walCode crc).encAll rs ++ t)
    have hsum := sum_encodeRecord crc r ((walCode crc).encAll rs ++ t)
    rw [FrameCode.encAll_cons, append_assoc]
    change sumAtLoop crc seq (fuel + 1) (encodeRecord crc r ++ ((walCode crc).encAll rs ++ t)) = _
    simp only [sumAtLoop, hread, hsum]
    by_cases heq : r.seq = seq
    · simp [heq]
    · rw [if_neg heq, find?_cons_of_neg (by simpa using heq)]
      by_cases hlt : seq < r.seq
      · rw [if_pos hlt]
        have hnone : (rs.find? fun r => r.seq = seq) = none := by
          rw [find?_eq_none]
          intro r' hr'
          simp only [decide_eq_true_eq]
          rintro rfl
          exact absurd (hfirst r' hr') (UInt64.not_lt.mpr (UInt64.le_of_lt hlt))
        rw [hnone]
        rfl
      · rw [if_neg hlt]
        exact ih hrs hsorted (by simpa using hfuel)

end Sum

end Wal

section Leader
variable {D : Type} (crc : Bytes → UInt32)

structure Hello where
  fromSeq : UInt64
  hasSum : Bool
  sum : UInt32
deriving DecidableEq

def Sys.recordSum (s : Sys D) (seq : UInt64) : Option UInt32 := sumAt crc seq s.disk.wal

def Sys.hello (s : Sys D) : Hello :=
  let fromSeq := s.engine.seq
  if 0 < fromSeq then
    match s.recordSum crc fromSeq with
    | some sum => ⟨fromSeq, true, sum⟩
    | none => ⟨fromSeq, false, 0⟩
  else ⟨fromSeq, false, 0⟩

inductive Resume
  | failed
  | snapshot
  | stream
deriving DecidableEq

def Sys.openWALForReplication (s : Sys D) (h : Hello) : Resume :=
  if h.fromSeq < s.engine.snapshotSeq ∨ s.engine.seq < h.fromSeq then .snapshot
  else
    match s.disk.wal with
    | none => .failed
    | some file =>
      if h.fromSeq = 0 then .stream
      else
        match sumAtFile crc h.fromSeq file with
        | none => .snapshot
        | some leaderSum => if !h.hasSum || leaderSum ≠ h.sum then .snapshot else .stream

variable {crc} {s : Sys D}

theorem Sys.hello_fromSeq : (s.hello crc).fromSeq = s.engine.seq := by
  simp only [Sys.hello]
  by_cases hpos : 0 < s.engine.seq
  · cases hsum : s.recordSum crc s.engine.seq <;> simp [hpos]
  · simp [hpos]

theorem Sys.hello_sum (h : (s.hello crc).hasSum = true) :
    s.recordSum crc s.engine.seq = some (s.hello crc).sum := by
  simp only [Sys.hello] at h ⊢
  by_cases hpos : 0 < s.engine.seq
  · cases hsum : s.recordSum crc s.engine.seq <;> simp [hpos, hsum] at h ⊢
  · simp [hpos] at h

end Leader

section Sums
variable {D : Type} [Hnsw.Dist D] {crc : Bytes → UInt32} {J : Codec} {cfg : Config D} {s : Sys D}
  {L : List Change} {w0 sn mt : ℕ}

theorem recsFrom_pairwise (hroom : L.length < 2 ^ 64) {b : ℕ} (hb : b ≤ L.length) :
    (recsFrom J b L).Pairwise fun r r' => r.seq < r'.seq := by
  rw [pairwise_iff_getElem]
  intro i j hi hj hij
  have hnum : ∀ (k : ℕ) (hk : k < (recsFrom J b L).length),
      (recsFrom J b L)[k].seq.toNat = b + k + 1 := by
    intro k hk
    apply seq_of_getElem?_recsFrom hroom (J := J)
    rw [← getElem?_recsFrom hb]
    exact getElem?_eq_getElem hk
  rw [UInt64.lt_iff_toNat_lt, hnum i hi, hnum j hj]
  omega

theorem find?_recsFrom (hroom : L.length < 2 ^ 64) {b k : ℕ} (hb : b ≤ L.length) (hk : k < L.length) :
    ((recsFrom J b L).find? fun r => r.seq = UInt64.ofNat (k + 1)) =
      if b ≤ k then (recsFrom J 0 L)[k]? else none := by
  have hnum : ∀ {q : ℕ} {r : Record}, (recsFrom J 0 L)[q]? = some r →
      (r.seq = UInt64.ofNat (k + 1) ↔ q = k) := by
    intro q r hr
    rw [← UInt64.toNat_inj, seq_of_getElem?_recsFrom hroom hr, toNat_ofNat (by omega)]
    omega
  cases hfind : (recsFrom J b L).find? fun r => r.seq = UInt64.ofNat (k + 1) with
  | some r =>
    obtain ⟨q, hq⟩ := mem_iff_getElem?.mp (mem_of_find?_eq_some hfind)
    rw [getElem?_recsFrom hb] at hq
    obtain rfl := (hnum hq).mp (by simpa using find?_some hfind)
    rw [if_pos (Nat.le_add_right b q), hq]
  | none =>
    split
    · next hle =>
      cases hr : (recsFrom J 0 L)[k]? with
      | none => rfl
      | some r =>
        have hmem : r ∈ recsFrom J b L := by
          apply mem_of_getElem? (i := k - b)
          rw [getElem?_recsFrom hb, Nat.add_sub_cancel' hle, hr]
        exact absurd ((hnum hr).mpr rfl) (by simpa using find?_eq_none.mp hfind r hmem)
    · rfl

theorem Durable.sumAtFile_eq (h : Durable J cfg crc s L w0 sn mt) {k : ℕ} (hk : k < L.length) :
    sumAtFile crc (UInt64.ofNat (k + 1)) s.wal =
      if w0 ≤ k then (recsFrom J 0 L)[k]?.map (fun r => crc (encodePayload r)) else none := by
  have hroom := h.log.holds.room
  have hw0 : w0 ≤ L.length := h.log.holds.w0_le.trans h.log.holds.sn_le
  have hlen := (walCode crc).length_le_encAll (recsFrom J w0 L)
  rw [sumAtFile, h.log.wal_eq, sumAtLoop_frames (h.log.holds.readable w0)
    (recsFrom_pairwise hroom hw0) h.log.holds.torn (by rw [length_append]; omega),
    find?_recsFrom hroom hw0 hk]
  split <;> rfl

theorem Durable.record_of_sum (h : Durable J cfg crc s L w0 sn mt) {k : ℕ} (hk : k < L.length)
    {sum : UInt32} (hsum : sumAtFile crc (UInt64.ofNat (k + 1)) s.wal = some sum) :
    ∃ r, (recsFrom J 0 L)[k]? = some r ∧ crc (encodePayload r) = sum := by
  rw [h.sumAtFile_eq hk] at hsum
  split at hsum
  · exact Option.map_eq_some_iff.mp hsum
  · cases hsum

end Sums

section Histories
variable {D : Type} [Hnsw.Dist D] (crc : Bytes → UInt32) (J : Codec) (M : Json (Target → Bool)) (cfg : Config D)

/-- On its own account a node makes commits whose write succeeds, of vectors that a second preparation
does not change, and takes snapshots. -/
def Sys.Runs (s : Sys D) (ev : Event) : Prop :=
  s.Leads J cfg ev ∧ s.Allowed crc J cfg ev ∧ ∀ c ∈ ev.logs, c.Stable cfg

/-- The nodes of a cluster with their histories: opened on an empty directory, changed by commits and by
a leader's records, with snapshots taken or loaded, or restarted at any byte of a commit. -/
inductive Reached : Node D → List Change → Prop
  | opened {e : Engine D} {disk : Disk} {workers : Workers} {rng : ℕ → ℕ}
      (hopen : openEngine crc J cfg workers rng Disk.empty = .ok (e, disk)) :
      Reached ⟨⟨disk, e, .idle⟩, fun _ => none⟩ []
  | step {n : Node D} {L : List Change} {ev : Event} {s : Sys D} (h : Reached n L)
      (hev : n.sys.Runs crc J cfg ev) (hstep : n.sys.step crc J ev = .ok s) :
      Reached ⟨s, n.rest⟩ (L ++ ev.changes)
  | replicated {n : Node D} {L : List Change} {c : Change} {s : Sys D} (h : Reached n L)
      (hlocked : n.sys.locked = false) (hcs : n.sys.Loggable J cfg [c]) (hstable : c.Stable cfg)
      (hs : n.sys.replicate crc J (c.logged J (UInt64.ofNat L.length + 1)) = (s, .ok ())) :
      Reached ⟨s, n.rest⟩ (L ++ [c])
  | loaded {n source : Node D} {L L' : List Change} {rng : ℕ → ℕ} {snapshot metadata : Bytes}
      {faults : List Fault} {synced : Bool} (h : Reached n L) (hidle : n.sys.stage = .idle)
      (hsource : Reached source L') (hrot : source.sys.rotates crc .rename = true)
      (hsnap : (source.sys.rename crc).disk.snapshot = some snapshot)
      (hmeta : (source.sys.rename crc).disk.metadata = some metadata)
      (hfaults : ∀ ev ∈ (loadSnapshot J M cfg rng snapshot metadata
        (source.sys.rename crc).engine.snapshotSeq).log n.dir faults,
        Tolerated False ev.label ev.op ev.fault)
      (hload : (n.load J M cfg rng snapshot metadata (source.sys.rename crc).engine.snapshotSeq
        faults).2 = some synced) :
      Reached (n.load J M cfg rng snapshot metadata (source.sys.rename crc).engine.snapshotSeq faults).1
        (L'.take (source.sys.rename crc).engine.snapshotSeq.toNat)
  | restarted {n n' : Node D} {L cs : List Change} {k : ℕ} {workers : Workers} {rng : ℕ → ℕ}
      {interrupted : List ℕ} (h : Reached n L) (hcs : n.sys.Loggable J cfg cs)
      (hstable : ∀ c ∈ cs, c.Stable cfg)
      (hrestart : Node.restart crc J M cfg workers rng interrupted
        (withDisk n.rest (n.sys.crashed crc J cs k)) (n.sys.crashed crc J cs k).walNew = .ok n') :
      Reached n' ((L ++ cs).take n'.sys.engine.seq.toNat)

variable {crc J M cfg} {s s' : Sys D} {L : List Change} {w0 sn mt : ℕ}

theorem Durable.ships (h : Durable J cfg crc s L w0 sn mt) (hrot : s.rotates crc .rename = true)
    {snapshot metadata : Bytes} (hsnap : (s.rename crc).disk.snapshot = some snapshot)
    (hmeta : (s.rename crc).disk.metadata = some metadata) :
    Node.Ships J cfg snapshot metadata (s.rename crc).engine.snapshotSeq L sn := by
  have hlog := h.log.stage
  have hsaves := h.stage
  simp only [Sys.rotates] at hrot
  simp only [Sys.rename] at hsnap hmeta ⊢
  split at hrot
  · next c hst =>
    rw [hst] at hlog hsaves
    have hsn := h.log.holds.sn_le
    have hmt := h.mt_le
    have hroom := h.log.holds.room
    have heq : sn = mt := (ofNat_inj (by omega) (by omega)).mp (hlog.1.seq.symm.trans hsaves)
    cases hopen : openWriter crc s.disk.walNew s.engine.seq with
    | error err =>
      rw [hopen] at hrot
      cases hrot
    | ok out =>
      simp only [hst, hopen] at hsnap hmeta ⊢
      refine ⟨hsn, hlog.1.seq, hsnap ▸ h.snapshot, ?_⟩
      rw [heq, ← hmeta]
      exact h.metadata
  · cases hrot

theorem Durable.runs {ev : Event} (h : Durable J cfg crc s L w0 sn mt) (hev : s.Runs crc J cfg ev)
    (hstep : s.step crc J ev = .ok s') : ∃ w0 sn mt, Durable J cfg crc s' (L ++ ev.changes) w0 sn mt := by
  obtain ⟨hleads, hallowed, hstable⟩ := hev
  obtain ⟨s₁, part, hs, -, hadds, h'⟩ := h.step hallowed hstable
  rw [hs, Except.ok.injEq] at hstep
  subst hstep
  have hpart : part = ev.changes := by
    cases ev with
    | crash cs n workers rng => exact hleads.elim
    | _ => exact hadds
  rwa [hpart] at h'

theorem Reached.holds {n : Node D} (h : Reached crc J M cfg n L) : n.Holds crc J cfg L := by
  induction h with
  | opened hopen => exact ⟨⟨0, 0, 0, durable_empty hopen⟩, rfl⟩
  | step h hev hstep ih =>
    obtain ⟨w0, sn, mt, hd⟩ := ih.sys
    exact ⟨hd.runs hev hstep, ih.marker⟩
  | replicated h hlocked hcs hstable hs ih =>
    obtain ⟨w0, sn, mt, hd⟩ := ih.sys
    obtain ⟨hvalid, hread⟩ := forall_mem_singleton.mp hcs.1
    have hroom := hcs.2
    rw [hd.log.toNat_seq] at hroom
    obtain ⟨s', hs', hd', -⟩ := hd.replicate hlocked hvalid hread hstable hroom
    rw [hs', Prod.mk.injEq] at hs
    obtain ⟨rfl, -⟩ := hs
    exact ⟨⟨w0, sn, mt, hd'⟩, ih.marker⟩
  | loaded h hidle hsource hrot hsnap hmeta hfaults hload ih ihsource =>
    obtain ⟨w0, sn, mt, hd⟩ := ihsource.sys
    have hships := hd.ships hrot hsnap hmeta
    have hsn := hd.log.holds.sn_le
    have hroom := hd.log.holds.room
    rw [hships.seq, toNat_ofNat (by omega)]
    have hloaded := ((ih.load hidle _ hfaults rfl).2 _ hload _ sn _ w0 sn mt hships hd).2
    rw [hships.seq] at hloaded
    exact hloaded
  | restarted h hcs hstable hrestart ih =>
    obtain ⟨n₁, j, hn₁, hj⟩ := ih.restart_committing hcs hstable _ _ _ (.inr ⟨_, hrestart⟩)
    obtain rfl := Except.ok.inj (hn₁.symm.trans hrestart)
    rw [hj.toNat_seq, length_append, length_take, take_length_add_append, ← take_eq_take_min]
    exact hj

end Histories

section Agreement
variable {D : Type} [Hnsw.Dist D] {crc : Bytes → UInt32} {J : Codec} {cfg : Config D} {L L' : List Change}

theorem Change.extra_inj {md md' : Meta} (h : extra J md = extra J md') : md = md' := by
  have hdecode := congrArg (decodeExtra J) h
  rw [decodeExtra_extra, decodeExtra_extra] at hdecode
  exact Option.some.inj hdecode

theorem Change.logged_inj {c c' : Change} {seq : UInt64} (h : c.logged J seq = c'.logged J seq) :
    c = c' := by
  cases c with
  | insert id vector md =>
    cases c' with
    | insert id' vector' md' =>
      simp only [logged_insert, Record.mk.injEq, true_and] at h
      rw [h.1, h.2.1, extra_inj h.2.2]
    | _ => cases congrArg Record.op h
  | delete id =>
    cases c' with
    | delete id' => rw [show id = id' from congrArg Record.id h]
    | _ => cases congrArg Record.op h
  | update id md =>
    cases c' with
    | update id' md' =>
      simp only [logged_update, Record.mk.injEq, true_and] at h
      rw [h.1, extra_inj h.2]
    | _ => cases congrArg Record.op h

/-- Two maps that a change makes equal: they may differ only in what it sets. -/
def AgreeBut (c : Change) (f g : Contents) : Prop :=
  (∀ id, id ≠ c.id → f id = g id) ∧ ∀ id md, c = .update id md → (f id).map (·.1) = (g id).map (·.1)

theorem act_eq_iff (c : Change) (x y : Option (Vec × Meta)) (prep : Vec → Vec) :
    (c.stored prep).act x = (c.stored prep).act y ↔
      ∀ id md, c = .update id md → x.map (·.1) = y.map (·.1) := by
  cases c with
  | insert id vector md => simp [Change.stored, Change.act]
  | delete id => simp [Change.stored, Change.act]
  | update id md => cases x <;> cases y <;> simp [Change.stored, Change.act]

theorem applyAll_eq_iff (c : Change) (f g : Contents) (prep : Vec → Vec) :
    applyAll f [c.stored prep] = applyAll g [c.stored prep] ↔ AgreeBut c f g := by
  have hset := act_eq_iff c (f c.id) (g c.id) prep
  have happly : ∀ (f : Contents) (id : UInt64), applyAll f [c.stored prep] id =
      if c.id = id then (c.stored prep).act (f id) else f id := by
    intro f id
    have h : put Change.id Change.act f (c.stored prep) id = _ := put_apply f (c.stored prep) id
    rwa [Change.id_stored] at h
  constructor
  · intro h
    constructor
    · intro id hid
      have hat := congrFun h id
      rwa [happly, happly, if_neg (Ne.symm hid), if_neg (Ne.symm hid)] at hat
    · rintro id md rfl
      have hat := congrFun h id
      rw [happly, happly, if_pos (show (Change.update id md).id = id from rfl),
        if_pos (show (Change.update id md).id = id from rfl)] at hat
      exact hset.mp hat id md rfl
  · rintro ⟨hother, hupdate⟩
    funext id
    rw [happly, happly]
    by_cases hid : c.id = id
    · subst hid
      rw [if_pos rfl, if_pos rfl]
      apply hset.mpr
      rintro id md rfl
      exact hupdate id md rfl
    · rw [if_neg hid, if_neg hid, hother id (Ne.symm hid)]

theorem contentsAt_succ {k : ℕ} {c : Change} (hc : L[k]? = some c) :
    contentsAt cfg L (k + 1) = applyAll (contentsAt cfg L k) [c.stored cfg.prep] := by
  rw [contentsAt, take_add_one, hc, Option.toList_some, map_append, applyAll, putAll_append]
  rfl

variable {s s' : Sys D} {w0 sn mt w0' sn' mt' : ℕ}

theorem Durable.stream (h : Durable J cfg crc s L w0 sn mt) (h' : Durable J cfg crc s' L' w0' sn' mt')
    (hstream : s.openWALForReplication crc (s'.hello crc) = .stream) :
    L' = [] ∨ ∃ k r r', L'.length = k + 1 ∧ (recsFrom J 0 L)[k]? = some r ∧
      (recsFrom J 0 L')[k]? = some r' ∧ crc (encodePayload r) = crc (encodePayload r') := by
  cases hlen : L'.length with
  | zero => exact .inl (length_eq_zero_iff.mp hlen)
  | succ k =>
    right
    have hroom := h'.log.holds.room
    have hseq : s'.engine.seq = UInt64.ofNat (k + 1) := hlen ▸ h'.log.seq
    have hnum : s'.engine.seq.toNat = k + 1 := by rw [hseq, toNat_ofNat (by omega)]
    have hne : s'.engine.seq ≠ 0 := by
      intro h0
      rw [h0] at hnum
      exact absurd hnum.symm (Nat.succ_ne_zero k)
    simp only [Sys.openWALForReplication, Sys.hello_fromSeq, h.disk_wal, if_neg hne] at hstream
    split at hstream
    · cases hstream
    · next hle =>
      have hk : k < L.length := by
        have hge := (not_or.mp hle).2
        rw [UInt64.not_lt, UInt64.le_iff_toNat_le, h.log.toNat_seq, hnum] at hge
        exact hge
      split at hstream
      · cases hstream
      · next sum hsum =>
        split at hstream
        · cases hstream
        · next hsame =>
          simp only [Bool.or_eq_true, Bool.not_eq_true', ne_eq, decide_eq_true_eq, not_or,
            Bool.not_eq_false, not_not] at hsame
          have hsum' := Sys.hello_sum hsame.1
          rw [Sys.recordSum, h'.disk_wal, ← hsame.2, hseq] at hsum'
          rw [hseq] at hsum
          obtain ⟨r, hr, hcrc⟩ := h.record_of_sum hk hsum
          obtain ⟨r', hr', hcrc'⟩ := h'.record_of_sum (by omega) hsum'
          exact ⟨k, r, r', rfl, hr, hr', hcrc.trans hcrc'.symm⟩

end Agreement

section Soundness
variable {D : Type} [Hnsw.Dist D] (crc : Bytes → UInt32) (J : Codec) (M : Json (Target → Bool)) (cfg : Config D)

/-- The leader answers with its records only: the maps agree exactly if they did before the record whose
checksums were compared, but for what that record sets. -/
theorem stream_sound_iff (leader follower : Node D) (L L' : List Change)
    (hleader : Reached crc J M cfg leader L) (hfollower : Reached crc J M cfg follower L')
    (hcrc : ∀ r r', (recsFrom J 0 L)[L'.length - 1]? = some r →
      (recsFrom J 0 L')[L'.length - 1]? = some r' →
      crc (encodePayload r) = crc (encodePayload r') → r = r')
    (hstream : leader.sys.openWALForReplication crc (follower.sys.hello crc) = .stream) :
    follower.sys.engine.contents = contentsAt cfg L L'.length ↔ ∀ c, L[L'.length - 1]? = some c →
        AgreeBut c (contentsAt cfg L' (L'.length - 1)) (contentsAt cfg L (L'.length - 1)) := by
  rw [hfollower.holds.contents]
  obtain ⟨w0, sn, mt, h⟩ := hleader.holds.sys
  obtain ⟨w0', sn', mt', h'⟩ := hfollower.holds.sys
  rcases h.stream h' hstream with rfl | ⟨k, r, r', hlen, hr, hr', hsum⟩
  · exact ⟨fun _ c _ => ⟨fun _ _ => rfl, fun _ _ _ => rfl⟩, fun _ => rfl⟩
  · rw [hlen, Nat.add_sub_cancel] at hcrc ⊢
    obtain rfl := hcrc r r' hr hr' hsum
    rw [getElem?_recsFrom_zero] at hr hr'
    obtain ⟨c, hc, hrec⟩ := Option.map_eq_some_iff.mp hr
    obtain ⟨c', hc', hrec'⟩ := Option.map_eq_some_iff.mp hr'
    obtain rfl := Change.logged_inj (hrec.trans hrec'.symm)
    rw [contentsAt_succ hc, contentsAt_succ hc', applyAll_eq_iff, hc]
    simp

end Soundness

section Example

variable (crc : Bytes → UInt32)

theorem inserted_twice (id : UInt64) :
    ∃ n : Node Exact, Reached crc anyCodec flagBytes line n [.insert id [0] ∅, secondInsert] ∧
      Durable anyCodec line crc n.sys [.insert id [0] ∅, secondInsert] 0 0 0 := by
  have hstable : ∀ id, ∀ c ∈ [Change.insert id [0] ∅], c.Stable line :=
    fun id => forall_mem_singleton.mpr rfl
  have hfresh := durable_empty (freshEngine_eq_open crc)
  have hseq : freshEngine.seq.toNat < 2 := Nat.zero_lt_two
  have hfirst := hfresh.commit rfl (cons_ne_nil _ _) (insert_loggable id hseq) (hstable id) one
  have hone := hfirst.log.toNat_seq.trans_lt Nat.one_lt_two
  have hsecond := hfirst.commit rfl (cons_ne_nil _ _) (insert_loggable 2 hone) (hstable 2) one
  refine ⟨⟨_, fun _ => none⟩, ?_, hsecond⟩
  have hopened : Reached crc anyCodec flagBytes line _ _ := .opened (freshEngine_eq_open crc)
  have hruns : ∀ {s : Sys Exact} (id : UInt64), s.locked = false → s.engine.seq.toNat < 2 →
      s.Runs crc anyCodec line (.commit one [.insert id [0] ∅] .ok) := by
    intro s id hlocked hlt
    have hleads := And.intro hlocked (insert_loggable id hlt)
    exact ⟨⟨rfl, cons_ne_nil _ _, hleads⟩, ⟨rfl, cons_ne_nil _ _, hleads⟩, hstable id⟩
  exact (hopened.step (hruns id rfl hseq) rfl).step (hruns 2 rfl hone) rfl

theorem Durable.streams {D : Type} [Hnsw.Dist D] {J : Codec} {cfg : Config D} {s s' : Sys D}
    {L L' : List Change} {mt mt' k : ℕ} {c : Change} (h : Durable J cfg crc s L 0 0 mt)
    (h' : Durable J cfg crc s' L' 0 0 mt') (hlen : L'.length = k + 1) (hc : L[k]? = some c)
    (hc' : L'[k]? = some c) : s.openWALForReplication crc (s'.hello crc) = .stream := by
  have hk := (List.getElem?_eq_some_iff.mp hc).1
  have hroom := h.log.holds.room
  have hseq : s'.engine.seq = UInt64.ofNat (k + 1) := hlen ▸ h'.log.seq
  have hnum : s'.engine.seq.toNat = k + 1 := by rw [hseq, toNat_ofNat (by omega)]
  have hpos : 0 < s'.engine.seq := UInt64.lt_iff_toNat_lt.mpr (by rw [hnum]; exact Nat.succ_pos k)
  have hsnap : s.engine.snapshotSeq = 0 := by
    obtain ⟨j, -, hj, hsnap⟩ := h.log.snapshotSeq
    obtain rfl := Nat.le_zero.mp hj
    exact hsnap
  have hsum := h.sumAtFile_eq hk
  have hsum' := h'.sumAtFile_eq (k := k) (by omega)
  rw [if_pos (Nat.zero_le k), getElem?_recsFrom_zero, ← hseq] at hsum hsum'
  rw [hc, Option.map_some, Option.map_some] at hsum
  rw [hc', Option.map_some, Option.map_some] at hsum'
  have hhello : s'.hello crc = ⟨s'.engine.seq, true,
      crc (encodePayload (c.logged J s'.engine.seq))⟩ := by
    simp [Sys.hello, hpos, Sys.recordSum, sumAt, h'.disk_wal, hsum']
  have hne : s'.engine.seq ≠ 0 := fun h0 => absurd (h0 ▸ hpos) (by decide)
  have hbetween : ¬ (s'.engine.seq < s.engine.snapshotSeq ∨ s.engine.seq < s'.engine.seq) := by
    rw [hsnap, UInt64.lt_iff_toNat_lt, UInt64.lt_iff_toNat_lt, h.log.toNat_seq, hnum]
    simp only [UInt64.toNat_zero]
    omega
  simp only [hhello, Sys.openWALForReplication, if_neg hbetween, h.disk_wal, if_neg hne, hsum]
  simp

/-- The nodes have different first inserts and the same second one, and the leader would stream. -/
theorem diverged_follower_streamed : ∃ leader follower : Node Exact,
      Reached crc32ChecksumIEEE anyCodec flagBytes line leader [firstInsert, secondInsert] ∧
      Reached crc32ChecksumIEEE anyCodec flagBytes line follower [.insert 3 [0] ∅, secondInsert] ∧
      leader.sys.openWALForReplication crc32ChecksumIEEE (follower.sys.hello crc32ChecksumIEEE) =
        .stream ∧
      follower.sys.engine.contents 3 = some ([0], ∅) ∧
      contentsAt line [firstInsert, secondInsert] 2 3 = none := by
  generalize crc32ChecksumIEEE = crc
  obtain ⟨leader, hleader, h⟩ := inserted_twice crc 1
  obtain ⟨follower, hfollower, h'⟩ := inserted_twice crc 3
  refine ⟨leader, follower, hleader, hfollower, h.streams crc h' rfl rfl rfl, ?_, rfl⟩
  rw [h'.contents]
  rfl

theorem same_history_streamed : ∃ leader follower : Node Exact,
      leader.sys.openWALForReplication crc32ChecksumIEEE (follower.sys.hello crc32ChecksumIEEE) =
        .stream ∧
      follower.sys.engine.contents = contentsAt line [firstInsert, secondInsert] 2 := by
  generalize crc32ChecksumIEEE = crc
  obtain ⟨node, hnode, h⟩ := inserted_twice crc 1
  have hstream := h.streams crc h rfl rfl rfl
  refine ⟨node, node, hstream, ?_⟩
  refine (stream_sound_iff crc anyCodec flagBytes line node node _ _ hnode hnode ?_ hstream).mpr ?_
  · intro r r' hr hr' _
    exact Option.some.inj (hr.symm.trans hr')
  · exact fun c _ => ⟨fun _ _ => rfl, fun _ _ _ => rfl⟩

end Example

end NuclaDB
