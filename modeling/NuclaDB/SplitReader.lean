import Mathlib.Data.List.Basic

/-!
# Readers that split a stream

A reader gives any number of elements up to what is asked for: at least one, or it ends. A
stream may be asked again after that. `readFull` and `copy` are loops of package `io`.
-/

namespace NuclaDB.SplitReader

open List

inductive Err (ε : Type)
  | eof
  | unexpectedEOF
  | failed (e : ε)
deriving DecidableEq

def Err.unlessEOF {ε : Type} : Err ε → Option (Err ε)
  | eof => none
  | e => some e

structure Piece (α ε σ : Type) where
  data : List α
  err : Option (Err ε)
  next : σ

/-- `holds` is what is still to come, and `final` is how it ends. -/
structure Reader (α ε σ : Type) where
  read : σ → ℕ → Piece α ε σ
  holds : σ → List α
  final : σ → Err ε
  length_le (s : σ) (n : ℕ) : 0 < n → (read s n).data.length ≤ n
  more (s : σ) (n : ℕ) : 0 < n → (read s n).err = none →
    (read s n).data ≠ [] ∧ holds s = (read s n).data ++ holds (read s n).next ∧
      final (read s n).next = final s
  done (s : σ) (n : ℕ) (e : Err ε) : 0 < n → (read s n).err = some e →
    holds s = (read s n).data ∧ e = final s

/-- Once it has ended it stays so, and only the end of the file comes together with data. -/
structure Stream (α ε σ : Type) extends Reader α ε σ where
  exhausted (s : σ) (n : ℕ) (e : Err ε) : 0 < n → (read s n).err = some e →
    holds (read s n).next = [] ∧ final (read s n).next = final s
  clean (s : σ) (n : ℕ) (e : Err ε) : 0 < n → (read s n).err = some e → e ≠ .eof → (read s n).data = []

variable {α ε σ γ : Type}

namespace Reader
variable (R : Reader α ε σ)

def copy (size : ℕ) (hsize : 0 < size) (s : σ) : Piece α ε σ :=
  let piece := R.read s size
  match _herr : piece.err with
  | some e => ⟨piece.data, e.unlessEOF, piece.next⟩
  | none =>
    let rest := copy size hsize piece.next
    ⟨piece.data ++ rest.data, rest.err, rest.next⟩
termination_by (R.holds s).length
decreasing_by
  obtain ⟨hne, hholds, -⟩ := R.more s size hsize _herr
  have hpos := length_pos_of_ne_nil hne
  rw [hholds, length_append]
  omega

variable {R} {size : ℕ} (hsize : 0 < size)

theorem copy_spec (s : σ) : (R.copy size hsize s).data = R.holds s ∧
    (R.copy size hsize s).err = (R.final s).unlessEOF := by
  fun_induction Reader.copy R size hsize s with
  | case1 s piece e herr =>
    obtain ⟨hholds, rfl⟩ := R.done s size e hsize herr
    exact ⟨hholds.symm, rfl⟩
  | case2 s piece herr rest ih =>
    obtain ⟨-, hholds, hfinal⟩ := R.more s size hsize herr
    refine ⟨?_, ?_⟩
    · rw [ih.1]
      exact hholds.symm
    · rw [ih.2, hfinal]

theorem copy_next {f : σ → γ} {Q : γ → σ → Prop}
    (hmore : ∀ s, (R.read s size).err = none → f (R.read s size).next = f s)
    (hdone : ∀ s e, (R.read s size).err = some e → Q (f s) (R.read s size).next) (s : σ) :
    Q (f s) (R.copy size hsize s).next := by
  fun_induction Reader.copy R size hsize s with
  | case1 s piece e herr => exact hdone s e herr
  | case2 s piece herr rest ih => exact hmore s herr ▸ ih

end Reader

namespace Stream
variable (R : Stream α ε σ)

def fill (n : ℕ) (s : σ) : Piece α ε σ :=
  if _hn : n = 0 then ⟨[], none, s⟩
  else
    let piece := R.read s n
    match _herr : piece.err with
    | some e => ⟨piece.data, some e, piece.next⟩
    | none =>
      let rest := fill (n - piece.data.length) piece.next
      ⟨piece.data ++ rest.data, rest.err, rest.next⟩
termination_by n
decreasing_by
  have hpos := length_pos_of_ne_nil (R.more s n (Nat.pos_of_ne_zero _hn) _herr).1
  exact Nat.sub_lt (Nat.pos_of_ne_zero _hn) hpos

/-- All of `n` elements, or an error: the end of the file if there is nothing at all. -/
def readFull (n : ℕ) (s : σ) : Except (Err ε) (List α) × σ :=
  let piece := R.fill n s
  if n ≤ piece.data.length then (.ok piece.data, piece.next)
  else
    match piece.err with
    | some (.failed e) => (.error (.failed e), piece.next)
    | some .unexpectedEOF => (.error .unexpectedEOF, piece.next)
    | _ => (.error (if piece.data.isEmpty then .eof else .unexpectedEOF), piece.next)

variable {R}

theorem holds_read (R : Stream α ε σ) (s : σ) {n : ℕ} (hn : 0 < n) :
    R.holds s = (R.read s n).data ++ R.holds (R.read s n).next ∧
      R.final (R.read s n).next = R.final s := by
  cases herr : (R.read s n).err with
  | none => exact (R.more s n hn herr).2
  | some e =>
    obtain ⟨hover, hfinal⟩ := R.exhausted s n e hn herr
    exact ⟨by rw [hover, append_nil, (R.done s n e hn herr).1], hfinal⟩

theorem fill_spec (n : ℕ) (s : σ) :
    (R.fill n s).data.length ≤ n ∧ R.holds s = (R.fill n s).data ++ R.holds (R.fill n s).next ∧
      R.final (R.fill n s).next = R.final s ∧
      ((R.fill n s).data.length < n →
        (R.fill n s).err = some (R.final s) ∧ R.holds (R.fill n s).next = []) := by
  fun_induction Stream.fill R n s with
  | case1 s => simp
  | case2 n s hn piece e herr =>
    have hpos := Nat.pos_of_ne_zero hn
    obtain ⟨hholds, hfinal⟩ := R.holds_read s hpos
    obtain ⟨-, rfl⟩ := R.done s n e hpos herr
    exact ⟨R.length_le s n hpos, hholds, hfinal, fun _ => ⟨rfl, (R.exhausted s n _ hpos herr).1⟩⟩
  | case3 n s hn piece herr rest ih =>
    have hpos := Nat.pos_of_ne_zero hn
    obtain ⟨hholds, hfinal⟩ := R.holds_read s hpos
    have hle : piece.data.length ≤ n := R.length_le s n hpos
    change (rest.data.length ≤ _ ∧ _ = rest.data ++ R.holds rest.next ∧ R.final rest.next = _ ∧
      (rest.data.length < _ → rest.err = _ ∧ R.holds rest.next = [])) at ih
    obtain ⟨hlen, hrest, hfinal', hshort⟩ := ih
    refine ⟨?_, ?_, hfinal'.trans hfinal, fun hlt => ?_⟩
    · rw [length_append]
      omega
    · rw [append_assoc, ← hrest]
      exact hholds
    · rw [length_append] at hlt
      rw [← hfinal]
      exact hshort (by omega)

theorem readFull_of_le {n : ℕ} {s : σ} (h : n ≤ (R.holds s).length) :
    (R.readFull n s).1 = .ok ((R.holds s).take n) ∧ R.holds (R.readFull n s).2 = (R.holds s).drop n ∧
      R.final (R.readFull n s).2 = R.final s := by
  obtain ⟨hlen, hholds, hfinal, hshort⟩ := fill_spec (R := R) n s
  have hfull : (R.fill n s).data.length = n := by
    by_contra hne
    rw [hholds, (hshort (by omega)).2, append_nil] at h
    omega
  rw [readFull, if_pos (Nat.le_of_eq hfull.symm), hholds, take_left' hfull, drop_left' hfull]
  exact ⟨rfl, rfl, hfinal⟩

theorem readFull_of_lt {n : ℕ} {s : σ} (h : (R.holds s).length < n) :
    ∃ e, (R.readFull n s).1 = .error e ∧ (e = .eof ∨ e = .unexpectedEOF ∨ e = R.final s) ∧
      (R.final s ≠ .eof → e = R.final s) := by
  obtain ⟨hlen, hholds, -, hshort⟩ := fill_spec (R := R) n s
  have hlt : (R.fill n s).data.length < n := by
    rw [hholds, length_append] at h
    omega
  rw [readFull, if_neg (by omega), (hshort hlt).1]
  cases R.final s with
  | eof =>
    by_cases hempty : (R.fill n s).data.isEmpty
    · exact ⟨.eof, by simp [hempty], by simp, by simp⟩
    · exact ⟨.unexpectedEOF, by simp [hempty], by simp, by simp⟩
  | unexpectedEOF => exact ⟨.unexpectedEOF, rfl, by simp, fun _ => rfl⟩
  | failed e => exact ⟨.failed e, rfl, by simp, fun _ => rfl⟩

theorem readFull_ok {n : ℕ} {s : σ} {a : List α} (h : (R.readFull n s).1 = .ok a) :
    n ≤ (R.holds s).length ∧ a = (R.holds s).take n ∧
      R.holds (R.readFull n s).2 = (R.holds s).drop n := by
  rcases Nat.lt_or_ge (R.holds s).length n with hlt | hge
  · obtain ⟨e, herr, -⟩ := readFull_of_lt hlt
    rw [herr] at h
    cases h
  · obtain ⟨hok, hholds, -⟩ := readFull_of_le hge
    rw [hok, Except.ok.injEq] at h
    exact ⟨hge, h.symm, hholds⟩

def ofList : Stream α Empty (List α) where
  read s n := if s = [] then ⟨[], some .eof, []⟩ else ⟨s.take n, none, s.drop n⟩
  holds s := s
  final _ := .eof
  length_le s n _ := by
    split
    · exact Nat.zero_le n
    · exact length_take_le n s
  more s n hn h := by
    split at h
    · cases h
    · next hs => simp [hs, Nat.pos_iff_ne_zero.mp hn]
  done s n e hn h := by
    split at h
    · next hs => simpa [hs] using h.symm
    · cases h
  exhausted s n e hn h := by
    split at h
    · next hs => simp [hs]
    · cases h
  clean s n e hn h := by
    split at h
    · next hs => simp [hs]
    · cases h

end Stream

section Buffered
variable (R : Stream α ε σ)

/-- A buffered reader: what it has read ahead, and an error that it has not returned yet. -/
structure Buffered where
  buf : List α
  err : Option (Err ε)
  under : σ
  exhausted : ∀ e, err = some e → R.holds under = [] ∧ e = R.final under

variable {R}

namespace Buffered

def start (s : σ) : Buffered R := ⟨[], none, s, nofun⟩

/-- `bufio.Reader.Read`. A read that is as large as the buffer goes past it. -/
def read (size : ℕ) (hsize : 0 < size) (b : Buffered R) (n : ℕ) : Piece α ε (Buffered R) :=
  if n = 0 then
    if b.buf = [] then ⟨[], b.err, ⟨b.buf, none, b.under, nofun⟩⟩ else ⟨[], none, b⟩
  else if b.buf ≠ [] then ⟨b.buf.take n, none, ⟨b.buf.drop n, b.err, b.under, b.exhausted⟩⟩
  else if b.err.isSome then ⟨[], b.err, ⟨[], none, b.under, nofun⟩⟩
  else if size ≤ n then
    let piece := R.read b.under n
    ⟨piece.data, piece.err, ⟨[], none, piece.next, nofun⟩⟩
  else
    let piece := R.read b.under size
    if piece.data = [] then ⟨[], piece.err, ⟨[], none, piece.next, nofun⟩⟩
    else ⟨piece.data.take n, none, ⟨piece.data.drop n, piece.err, piece.next, fun e herr =>
      ⟨(R.exhausted b.under size e hsize herr).1,
        ((R.done b.under size e hsize herr).2).trans (R.exhausted b.under size e hsize herr).2.symm⟩⟩⟩

theorem read_cases (size : ℕ) (hsize : 0 < size) (b : Buffered R) {n : ℕ} (hn : 0 < n) :
    -- From the buffer, filled before it if it was empty.
    (∃ buf b', b.read size hsize n = ⟨buf.take n, none, b'⟩ ∧ buf ≠ [] ∧ b'.buf = buf.drop n ∧
        b.buf ++ R.holds b.under = buf ++ R.holds b'.under ∧ R.final b'.under = R.final b.under) ∨
      -- Past the buffer.
      (∃ k, 0 < k ∧ b.buf = [] ∧ b.read size hsize n = ⟨(R.read b.under k).data, (R.read b.under k).err,
        ⟨[], none, (R.read b.under k).next, nofun⟩⟩ ∧ (R.read b.under k).data.length ≤ n) ∨
      -- An error from before.
      ∃ e, b.buf = [] ∧ b.err = some e ∧ b.read size hsize n = ⟨[], some e, ⟨[], none, b.under, nofun⟩⟩ := by
  rw [read, if_neg (Nat.pos_iff_ne_zero.mp hn)]
  by_cases hbuf : b.buf = []
  · rw [if_neg (by simp [hbuf])]
    cases herr : b.err with
    | some e => exact .inr (.inr ⟨e, hbuf, rfl, rfl⟩)
    | none =>
      simp only [Option.isSome_none, Bool.false_eq_true, if_false]
      by_cases hlarge : size ≤ n
      · rw [if_pos hlarge]
        exact .inr (.inl ⟨n, hn, hbuf, rfl, R.length_le _ _ hn⟩)
      · rw [if_neg hlarge]
        by_cases hdata : (R.read b.under size).data = []
        · rw [if_pos hdata]
          exact .inr (.inl ⟨size, hsize, hbuf, by rw [hdata], by simp [hdata]⟩)
        · rw [if_neg hdata]
          refine .inl ⟨_, _, rfl, hdata, rfl, ?_⟩
          obtain ⟨hholds, hfinal⟩ := R.holds_read b.under hsize
          exact ⟨by rw [hbuf, hholds]; rfl, hfinal⟩
  · rw [if_pos hbuf]
    exact .inl ⟨b.buf, _, rfl, hbuf, rfl, rfl, rfl⟩

end Buffered

def buffered (R : Stream α ε σ) (size : ℕ) (hsize : 0 < size) : Stream α ε (Buffered R) where
  read := Buffered.read size hsize
  holds b := b.buf ++ R.holds b.under
  final b := R.final b.under
  length_le b n hn := by
    rcases b.read_cases size hsize hn with ⟨buf, b', hread, -⟩ | ⟨k, -, -, hread, hle⟩ | ⟨e, -, -, hread⟩
    · rw [hread]
      exact length_take_le n buf
    · rw [hread]
      exact hle
    · rw [hread]
      exact Nat.zero_le n
  more b n hn hnone := by
    rcases b.read_cases size hsize hn with ⟨buf, b', hread, hne, hbuf, hholds, hfinal⟩ |
      ⟨k, hk, hbuf, hread, -⟩ | ⟨e, -, -, hread⟩
    · rw [hread]
      refine ⟨by simp [hne, Nat.pos_iff_ne_zero.mp hn], ?_, hfinal⟩
      rw [hholds, hbuf, ← append_assoc, take_append_drop]
    · rw [hread] at hnone ⊢
      rw [hbuf]
      exact R.more b.under k hk hnone
    · rw [hread] at hnone
      cases hnone
  done b n e hn hsome := by
    rcases b.read_cases size hsize hn with ⟨buf, b', hread, -⟩ |
      ⟨k, hk, hbuf, hread, -⟩ | ⟨e', hbuf, herr, hread⟩
    · rw [hread] at hsome
      cases hsome
    · rw [hread] at hsome ⊢
      rw [hbuf]
      exact R.done b.under k e hk hsome
    · rw [hread] at hsome ⊢
      obtain rfl := Option.some.inj hsome
      rw [hbuf]
      exact b.exhausted e' herr
  exhausted b n e hn hsome := by
    rcases b.read_cases size hsize hn with ⟨buf, b', hread, -⟩ |
      ⟨k, hk, hbuf, hread, -⟩ | ⟨e', hbuf, herr, hread⟩
    · rw [hread] at hsome
      cases hsome
    · rw [hread] at hsome ⊢
      exact R.exhausted b.under k e hk hsome
    · rw [hread]
      exact ⟨(b.exhausted e' herr).1, rfl⟩
  clean b n e hn hsome hne := by
    rcases b.read_cases size hsize hn with ⟨buf, b', hread, -⟩ |
      ⟨k, hk, hbuf, hread, -⟩ | ⟨e', hbuf, herr, hread⟩
    · rw [hread] at hsome
      cases hsome
    · rw [hread] at hsome ⊢
      exact R.clean b.under k e hk hsome hne
    · rw [hread]

end Buffered

end NuclaDB.SplitReader
