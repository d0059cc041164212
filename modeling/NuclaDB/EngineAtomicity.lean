import NuclaDB.EngineReplica

/-!
# A record that a follower cannot apply

`ApplyReplicated` logs a leader's record before it looks at the vector or decodes the
metadata.
-/

namespace NuclaDB

open LittleEndian Hnsw

section Atomic
variable {D : Type} [Hnsw.Dist D] (crc : Bytes → UInt32) (J : Codec)

def Wal.Writer.expects (w : Wal.Writer) (rec : Wal.Record) : Bool :=
  w.readyLocked.isOk && rec.seq == w.nextSeq

def Engine.applicable (e : Engine D) (rec : Wal.Record) : Bool :=
  if rec.op = Wal.opInsert then
    (validateVector rec.vector e.graph.cfg.dim).isOk && (decodeExtra J rec.extra).isSome
  else if rec.op = Wal.opMeta then (decodeExtra J rec.extra).isSome
  else true

def Opens (cfg : Config D) (disk : Disk) : Prop :=
  ∀ workers rng, ∃ out, openEngine crc J cfg workers rng disk = .ok out

/-- An error other than a failed write or sync leaves the log, the writer's next sequence number,
the engine and the directory as they were. -/
def AllOrNothing (e : Engine D) (disk : Disk) (io : Wal.Outcome) (rec : Wal.Record) : Prop :=
  let (e', file', result) := e.applyReplicated crc J io (disk.wal.getD []) rec
  ∀ err, result = .error err → err ≠ .wal .io →
    file' = disk.wal.getD [] ∧ e'.w.nextSeq = e.w.nextSeq ∧ e'.seq = e.seq ∧ e'.graph = e.graph ∧
      e'.metadata = e.metadata ∧
      (Opens crc J e.cfg { disk with wal := some (disk.wal.getD []) } →
        Opens crc J e.cfg { disk with wal := some file' })

section Refused
variable {crc J} {e : Engine D} {io : Wal.Outcome} {file : Bytes} {rec : Wal.Record}

theorem Wal.Writer.appendRecord_cases (crc : Bytes → UInt32) (w : Wal.Writer) (io : Wal.Outcome) (file : Bytes)
    (rec : Wal.Record) :
    (w.expects rec = false ∧ ∃ err, err ≠ .io ∧ w.appendRecord crc io file rec = (w, file, .error err)) ∨
    (w.expects rec = true ∧ io ≠ .ok ∧
      ∃ file', w.appendRecord crc io file rec = (w.failLocked, file', .error .io)) ∨
    (w.expects rec = true ∧ io = .ok ∧ w.appendRecord crc io file rec =
      ({ w with nextSeq := w.nextSeq + 1 }, file ++ Wal.encodeRecord crc rec, .ok ())) := by
  cases hready : w.readyLocked with
  | error err =>
    left
    refine ⟨by simp [expects, hready, Except.isOk, Except.toBool], err, ?_, by
      simp only [appendRecord, hready]⟩
    rintro rfl
    simp only [readyLocked] at hready
    split at hready
    · simp at hready
    · split at hready <;> simp at hready
  | ok u =>
    by_cases hseq : rec.seq = w.nextSeq
    · have hexpects : w.expects rec = true := by
        simp [expects, hready, hseq, Except.isOk, Except.toBool]
      right
      cases io with
      | ok => exact .inr ⟨hexpects, rfl, appendRecord_ready crc hready file hseq⟩
      | writeFails n =>
        refine .inl ⟨hexpects, by simp, file ++ (Wal.encodeRecord crc rec).take n, ?_⟩
        simp only [appendRecord, hready, hseq, ne_eq, not_true_eq_false, if_false, writeSync]
      | syncFails =>
        refine .inl ⟨hexpects, by simp, file ++ Wal.encodeRecord crc rec, ?_⟩
        simp only [appendRecord, hready, hseq, ne_eq, not_true_eq_false, if_false, writeSync]
    · left
      refine ⟨by simp [expects, hseq], .outOfOrder rec.seq w.nextSeq, by simp, ?_⟩
      simp only [appendRecord, hready, ne_eq, hseq, not_false_eq_true, if_true]

theorem Engine.applyRecord_cases (e : Engine D) (rec : Wal.Record) :
    (e.applicable J rec = true ∧ (e.applyRecord J rec).2 = none) ∨ (e.applicable J rec = false ∧
        ∃ err, err ≠ .wal .io ∧ (e.applyRecord J rec).2 = some err) := by
  by_cases hins : rec.op = Wal.opInsert
  · simp only [applyRecord, applicable, Graph.insert, if_pos hins]
    cases hv : validateVector rec.vector e.graph.cfg.dim with
    | error err => simp [bind, Except.bind, Except.isOk, Except.toBool]
    | ok u =>
      cases hd : decodeExtra J rec.extra with
      | none => simp [bind, Except.bind, pure, Except.pure]
      | some md => simp [bind, Except.bind, pure, Except.pure, Except.isOk, Except.toBool]
  · by_cases hmeta : rec.op = Wal.opMeta
    · have hdel : rec.op ≠ Wal.opDelete := by simp [hmeta, Wal.opMeta, Wal.opDelete]
      simp only [applyRecord, applicable, applyMeta, if_neg hins, if_neg hdel, if_pos hmeta]
      cases hd : decodeExtra J rec.extra with
      | none => simp
      | some md => simp
    · left
      simp only [applyRecord, applicable, if_neg hins, if_neg hmeta, true_and]
      split <;> rfl

theorem Engine.applyReplicated_logged {w : Wal.Writer} {file' : Bytes}
    (happend : e.w.appendRecord crc io file rec = (w, file', .ok ())) :
    (e.applicable J rec = true ∧ (e.applyReplicated crc J io file rec).2.2 = .ok ()) ∨
      (e.applicable J rec = false ∧ (e.applyReplicated crc J io file rec).2.1 = file' ∧
        ∃ err, err ≠ .wal .io ∧ (e.applyReplicated crc J io file rec).2.2 = .error err) := by
  simp only [applyReplicated, happend]
  rcases ({ e with w := w } : Engine D).applyRecord_cases (J := J) rec with
    ⟨hyes, hnone⟩ | ⟨hno, err, hne, hsome⟩
  · left
    generalize ({ e with w := w } : Engine D).applyRecord J rec = applied at hnone
    obtain ⟨e', r⟩ := applied
    obtain rfl : r = none := hnone
    exact ⟨hyes, rfl⟩
  · right
    generalize ({ e with w := w } : Engine D).applyRecord J rec = applied at hsome
    obtain ⟨e', r⟩ := applied
    obtain rfl : r = some err := hsome
    exact ⟨hno, rfl, err, hne, rfl⟩

omit [Hnsw.Dist D] in
theorem Wal.append_encodeRecord_ne (file : Bytes) (rec : Wal.Record) :
    file ++ Wal.encodeRecord crc rec ≠ file := by
  intro heq
  have hlen := Wal.encodeRecord_length_eq crc rec
  rw [List.append_right_eq_self.mp heq, List.length_nil] at hlen
  omega

end Refused

/-- For every engine, directory and record: `ApplyReplicated` is all or nothing exactly when a
record that gets into the log can also be applied. -/
theorem replicated_all_or_nothing_iff (e : Engine D) (disk : Disk) (io : Wal.Outcome)
    (rec : Wal.Record) :
    AllOrNothing crc J e disk io rec ↔
      (e.w.expects rec = true → io = .ok → e.applicable J rec = true) := by
  rcases e.w.appendRecord_cases crc io (disk.wal.getD []) rec with
    ⟨hno, err, -, happend⟩ | ⟨-, hio, file', happend⟩ | ⟨hyes, hio, happend⟩
  · simp [AllOrNothing, Engine.applyReplicated, happend, hno]
  · simp [AllOrNothing, Engine.applyReplicated, happend, hio]
  · simp only [hyes, hio, forall_const]
    subst hio
    rcases Engine.applyReplicated_logged (J := J) happend with
      ⟨happ, hok⟩ | ⟨happ, hfile, err, hne, herr⟩
    · simp [AllOrNothing, hok, happ]
    · simp only [happ, Bool.false_eq_true, iff_false]
      intro hall
      exact Wal.append_encodeRecord_ne _ _ (hfile ▸ (hall err herr hne).1)

def shortInsert : Wal.Record := ⟨1, Wal.opInsert, 1, [], []⟩

/-- A new follower gets a vector without components as its first record. It is refused after it has
been logged, and the directory, which opened before, does not open any more. -/
theorem short_vector_blocks_open :
    ∃ e disk, openEngine crc32ChecksumIEEE anyCodec line ⟨1, by decide⟩ (fun _ => 0) Disk.empty =
        .ok (e, disk) ∧
      ¬ AllOrNothing crc32ChecksumIEEE anyCodec e disk .ok shortInsert ∧
      Opens crc32ChecksumIEEE anyCodec line disk ∧
      ¬ Opens crc32ChecksumIEEE anyCodec line
        { disk with wal := some (Wal.encodeRecord crc32ChecksumIEEE shortInsert) } := by
  obtain ⟨e, hopen, -, -, hcfg, hset, -, hw, -⟩ := openEngine_empty crc32ChecksumIEEE anyCodec line
    ⟨1, by decide⟩ fun _ => 0
  refine ⟨e, _, hopen, ?_, fun workers rng => ?_, fun hopens => ?_⟩
  · have happend : e.w.appendRecord crc32ChecksumIEEE .ok [] shortInsert =
        (⟨2, false, false⟩, [] ++ Wal.encodeRecord crc32ChecksumIEEE shortInsert, .ok ()) := by
      rw [hw]
      rfl
    have hdim : e.graph.cfg.dim = 1 := congrArg (·.1.dim) hset
    rcases Engine.applyReplicated_logged (J := anyCodec) happend with
      ⟨happ, -⟩ | ⟨-, hfile, err, hne, herr⟩
    · simp [Engine.applicable, shortInsert, hdim, validateVector, Except.isOk, Except.toBool] at happ
    · intro hall
      exact Wal.append_encodeRecord_ne _ _ (hfile ▸ (hall err herr hne).1)
  · obtain ⟨e', hopen', -⟩ := openFrom_spec anyCodec line workers
      (fun _ => none) ∅ 0 [] [] (Graph.new_wf line rng) rfl rfl (by simp) (by simp) (by simp)
      (by simp)
    have hframes : some [] = some ((Wal.walCode crc32ChecksumIEEE).encAll [] ++ []) := rfl
    exact ⟨_, openEngine_of_frames rfl rfl hframes (by simp) trivial rfl (.inl rfl) hopen'⟩
  · obtain ⟨out, hout⟩ := hopens ⟨1, by decide⟩ fun _ => 0
    have hfails : (openEngine crc32ChecksumIEEE anyCodec line ⟨1, by decide⟩ (fun _ => 0)
        ⟨none, none, some (Wal.encodeRecord crc32ChecksumIEEE shortInsert), none⟩).isOk = false := by
      decide +kernel
    rw [hout] at hfails
    cases hfails

end Atomic

end NuclaDB
