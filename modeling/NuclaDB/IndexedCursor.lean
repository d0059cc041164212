import Mathlib.Algebra.Order.Ring.Int
import NuclaDB.ByteCursor

/-!
# Readers that index a byte string

An `Indexed` reader keeps a position in a byte string and computes with integers of
64 bits. Indexing outside the string is a crash; a reader that `Follows` has none. A `Decoder`
is written once for both ways of reading.
-/

namespace NuclaDB
open LittleEndian List

inductive Outcome (ε α : Type)
  | done (a : α)
  | fail (e : ε)
  | crash

namespace Outcome
variable {ε α β : Type}

def bind (x : Outcome ε α) (f : α → Outcome ε β) : Outcome ε β :=
  match x with
  | .done a => f a
  | .fail e => .fail e
  | .crash => .crash

instance : Monad (Outcome ε) where
  pure := .done
  bind := bind

def ofOption (e : ε) : Option α → Outcome ε α
  | some a => .done a
  | none => .fail e

def orCrash : Option α → Outcome ε α
  | some a => .done a
  | none => .crash

def index (table : List α) (i : ℕ) : Outcome ε α := orCrash table[i]?

def slice (table : List α) (i j : ℤ) : Outcome ε (List α) :=
  if 0 ≤ i ∧ i ≤ j ∧ j ≤ table.length then .done ((table.drop i.toNat).take (j - i).toNat)
  else .crash

theorem index_eq {table : List α} {i : ℕ} (hi : i < table.length) :
    index (ε := ε) table i = .done table[i] := by
  rw [index, getElem?_eq_getElem hi, orCrash]

theorem slice_eq {table : List α} {i n : ℕ} (h : i + n ≤ table.length) :
    slice (ε := ε) table i (i + n : ℕ) = .done ((table.drop i).take n) := by
  have hdiff : (((i + n : ℕ) : ℤ) - i).toNat = n := by omega
  rw [slice, if_pos (by omega), Int.toNat_natCast, hdiff]

@[simp] theorem done_bind (a : α) (f : α → Outcome ε β) : (done a >>= f) = f a := rfl

@[simp] theorem fail_bind (e : ε) (f : α → Outcome ε β) : (fail e >>= f) = fail e := rfl

/-- The same failure, or results that `R` relates; never a crash. -/
inductive Matches {γ : Type} (R : α → γ → Prop) : Outcome ε α → Except ε γ → Prop
  | done {a : α} {c : γ} (h : R a c) : Matches R (.done a) (.ok c)
  | fail (e : ε) : Matches R (.fail e) (.error e)

theorem Matches.bind {γ δ : Type} {R : α → γ → Prop} {S : β → δ → Prop} {x : Outcome ε α} {y : Except ε γ}
    {f : α → Outcome ε β} {g : γ → Except ε δ} (h : Matches R x y)
    (hf : ∀ a c, R a c → y = .ok c → Matches S (f a) (g c)) : Matches S (x >>= f) (y >>= g) := by
  cases h with
  | done hac => exact hf _ _ hac rfl
  | fail e => exact .fail e

theorem Matches.map {γ : Type} {R : α → γ → Prop} {S : β → γ → Prop} {x : Outcome ε α} {y : Except ε γ}
    {f : α → β} (h : Matches R x y) (hf : ∀ a c, R a c → S (f a) c) : Matches S (x >>= fun a => .done (f a)) y := by
  cases h with
  | done hac => exact .done (hf _ _ hac)
  | fail e => exact .fail e

theorem Matches.mono {γ : Type} {R S : α → γ → Prop} {x : Outcome ε α} {y : Except ε γ} (h : Matches R x y)
    (hRS : ∀ a c, R a c → S a c) : Matches S x y := by
  cases h with
  | done hac => exact .done (hRS _ _ hac)
  | fail e => exact .fail e

inductive Answers {γ : Type} (R : α → γ → Prop) : Outcome Unit α → Option γ → Prop
  | done {a : α} {c : γ} (h : R a c) : Answers R (.done a) (some c)
  | fail : Answers R (.fail ()) none

theorem Answers.bind {γ δ : Type} {R : α → γ → Prop} {S : β → δ → Prop} {x : Outcome Unit α} {y : Option γ}
    {f : α → Outcome Unit β} {g : γ → Option δ} (h : Answers R x y)
    (hf : ∀ a c, R a c → y = some c → Answers S (f a) (g c)) : Answers S (x >>= f) (y >>= g) := by
  cases h with
  | done hac => exact hf _ _ hac rfl
  | fail => exact .fail

theorem Answers.then {γ δ : Type} {R : α → γ → Prop} {S : α → δ → Prop} {x : Outcome Unit α} {y : Option γ}
    {g : γ → Option δ} (h : Answers R x y) (hg : ∀ a c, R a c → ∃ d, g c = some d ∧ S a d) :
    Answers S x (y >>= g) := by
  cases h with
  | fail => exact .fail
  | done hac =>
    obtain ⟨d, hd, hS⟩ := hg _ _ hac
    rw [Option.bind_eq_bind, Option.bind_some, hd]
    exact .done hS

end Outcome

def int64 (x : ℤ) : ℤ := x.bmod (2 ^ 64)

theorem int64_eq {x : ℤ} (h0 : -2 ^ 63 ≤ x) (h : x < 2 ^ 63) : int64 x = x := by
  unfold int64
  rw [Int.bmod_eq_of_le] <;> omega

/-- A reader takes the string and a position in it to its answer and the position after it. -/
structure Indexed (ε α : Type) where
  run : Bytes → ℤ → Outcome ε (α × ℤ)

namespace Indexed
variable {ε α β : Type}

instance : Monad (Indexed ε) where
  pure a := ⟨fun _ pos => .done (a, pos)⟩
  bind p f := ⟨fun data pos => p.run data pos >>= fun r => (f r.1).run data r.2⟩

def fail (e : ε) : Indexed ε α := ⟨fun _ _ => .fail e⟩

def getPos : Indexed ε ℤ := ⟨fun _ pos => .done (pos, pos)⟩

def setPos (pos : ℤ) : Indexed ε Unit := ⟨fun _ _ => .done ((), pos)⟩

def len : Indexed ε ℤ := ⟨fun data pos => .done (data.length, pos)⟩

def lift (x : Outcome ε α) : Indexed ε α := ⟨fun _ pos => x >>= fun a => .done (a, pos)⟩

def byteAt (i : ℤ) : Indexed ε UInt8 where
  run data pos := if 0 ≤ i ∧ i < data.length then .done (data.getD i.toNat 0, pos) else .crash

def slice (i j : ℤ) : Indexed ε Bytes where
  run data pos := Outcome.slice data i j >>= fun bytes => .done (bytes, pos)

def failIf (c : Prop) [Decidable c] (e : ε) : Indexed ε Unit := if c then fail e else pure ()

def many (p : Indexed ε α) : ℕ → Indexed ε (List α)
  | 0 => pure []
  | n + 1 => do
    let a ← p
    let rest ← many p n
    return a :: rest

section Apply
variable (data : Bytes) (pos : ℤ)

theorem run_bind (p : Indexed ε α) (f : α → Indexed ε β) :
    (p >>= f).run data pos = (p.run data pos >>= fun r => (f r.1).run data r.2) := rfl

theorem run_pure (a : α) : (pure a : Indexed ε α).run data pos = .done (a, pos) := rfl

theorem run_getPos : (getPos (ε := ε)).run data pos = .done (pos, pos) := rfl

theorem run_setPos (target : ℤ) : (setPos (ε := ε) target).run data pos = .done ((), target) := rfl

theorem run_len : (len (ε := ε)).run data pos = .done ((data.length : ℤ), pos) := rfl

theorem run_byteAt (i : ℤ) : (byteAt (ε := ε) i).run data pos =
    if 0 ≤ i ∧ i < data.length then .done (data.getD i.toNat 0, pos) else .crash := rfl

theorem run_lift (x : Outcome ε α) : (lift x).run data pos = (x >>= fun a => .done (a, pos)) := rfl

theorem run_failIf (c : Prop) [Decidable c] (e : ε) :
    (failIf c e).run data pos = if c then .fail e else .done ((), pos) := by
  simp only [failIf]
  split <;> rfl

end Apply

def next : Indexed ε UInt8 := do
  let pos ← getPos
  let b ← byteAt pos
  setPos (int64 (pos + 1))
  return b

theorem next_eq (data : Bytes) (pos : ℤ) : (next (ε := ε)).run data pos =
    ((byteAt pos).run data pos >>= fun r => .done (r.1, int64 (pos + 1))) := by
  simp only [next, run_bind, run_getPos, run_setPos, run_pure, Outcome.done_bind]

def take (n : ℤ) : Indexed ε Bytes := do
  let pos ← getPos
  let bytes ← slice pos (int64 (pos + n))
  setPos (int64 (pos + n))
  return bytes

def word32 : Indexed ε UInt32 := do return LittleEndian.uint32 (← take 4)

def word64 : Indexed ε UInt64 := do return LittleEndian.uint64 (← take 8)

theorem take_eq (n : ℤ) (data : Bytes) (pos : ℤ) : (take (ε := ε) n).run data pos =
    (Outcome.slice data pos (int64 (pos + n)) >>= fun bytes =>
      .done (bytes, int64 (pos + n))) := by
  simp only [take, slice, run_bind, run_getPos, run_setPos, run_pure, Outcome.done_bind]
  cases Outcome.slice data pos (int64 (pos + n)) <;> rfl

section Readers
variable (short : ε)

def need (n : ℤ) : Indexed ε Unit := do
  let pos ← getPos
  let size ← len
  failIf (n < 0 ∨ pos < 0 ∨ size < pos ∨ int64 (size - pos) < n) short

def skip (n : ℤ) : Indexed ε Unit := do
  need short n
  let pos ← getPos
  setPos (int64 (pos + n))

def byte : Indexed ε UInt8 := do
  need short 1
  next

def bytes (n : ℤ) : Indexed ε Bytes := do
  need short n
  take n

def uint32 : Indexed ε UInt32 := do
  need short 4
  word32

def uint64 : Indexed ε UInt64 := do
  need short 8
  word64

end Readers

/-- From this position on, the reader that indexes does what the other one does. -/
def FollowsFrom (R : α → β → Prop) (data : Bytes) (n : ℕ) (q : Indexed ε α) (p : Cursor ε β) : Prop :=
  Outcome.Matches (fun a b => ∃ k ≤ data.length, a.2 = (k : ℤ) ∧ b.2 = data.drop k ∧ R a.1 b.1)
    (q.run data n) (p (data.drop n))

def Follows (data : Bytes) (q : Indexed ε α) (p : Cursor ε α) : Prop :=
  ∀ n ≤ data.length, FollowsFrom Eq data n q p

section Rules
variable {data : Bytes} {n pos : ℕ} {p : Cursor ε α} {q : Indexed ε α}

theorem FollowsFrom.done {k : ℕ} {a : α}
    (hk : k ≤ data.length) (hp : p (data.drop n) = .ok (a, data.drop k))
    (hq : q.run data n = .done (a, k)) : FollowsFrom Eq data n q p := by
  rw [FollowsFrom, hp, hq]
  exact .done ⟨k, hk, rfl, rfl, rfl⟩

theorem FollowsFrom.fail {e : ε}
    (hp : p (data.drop n) = .error e) (hq : q.run data n = .fail e) : FollowsFrom Eq data n q p := by
  rw [FollowsFrom, hp, hq]
  exact .fail e

theorem Follows.pure (a : α) : Follows data (Pure.pure a : Indexed ε α) (Pure.pure a) :=
  fun _ hn => FollowsFrom.done hn rfl rfl

theorem FollowsFrom.bind {γ δ : Type} {R : α → γ → Prop} {S : β → δ → Prop} {p : Cursor ε γ}
    {f : α → Indexed ε β} {g : γ → Cursor ε δ} (hp : FollowsFrom R data n q p)
    (hf : ∀ a c (k : ℕ), R a c → k ≤ data.length → p (data.drop n) = .ok (c, data.drop k) →
      FollowsFrom S data k (f a) (g c)) :
    FollowsFrom S data n (q >>= f) (p >>= g) := by
  refine Outcome.Matches.bind hp ?_
  rintro ⟨a, pos⟩ ⟨c, rest⟩ ⟨k, hk, rfl, rfl, hac⟩ hok
  exact hf a c k hac hk hok

theorem Follows.bind {f : α → Indexed ε β} {g : α → Cursor ε β}
    (hp : Follows data q p) (hf : ∀ a, Follows data (f a) (g a)) :
    Follows data (q >>= f) (p >>= g) := by
  intro n hn
  refine (hp n hn).bind ?_
  rintro a _ k rfl hk -
  exact hf a k hk

theorem Follows.failIf {c c' : Prop} [Decidable c] [Decidable c'] (hcc : c ↔ c') (e : ε) :
    Follows data (failIf c e) (Cursor.failIf c' e) := by
  intro n hn
  by_cases hc : c
  · exact FollowsFrom.fail (e := e) (by simp only [Cursor.failIf, if_pos (hcc.mp hc)]; rfl)
      (by simp only [Indexed.failIf, if_pos hc]; rfl)
  · exact FollowsFrom.done hn (by simp only [Cursor.failIf, if_neg (mt hcc.mpr hc)]; rfl)
      (by simp only [Indexed.failIf, if_neg hc]; rfl)

theorem Follows.many (hp : Follows data q p) (n : ℕ) : Follows data (many q n) (Cursor.many p n) := by
  induction n with
  | zero => exact Follows.pure []
  | succ n ih => exact hp.bind fun a => ih.bind fun rest => Follows.pure (a :: rest)

variable (short : ε) (hsize : data.length < 2 ^ 63)
include hsize

theorem run_need (n : ℕ) (hpos : pos ≤ data.length) : (need short n).run data pos =
    if data.length < pos + n then .fail short else .done ((), (pos : ℤ)) := by
  have hleft : int64 (data.length - pos : ℤ) = data.length - pos := int64_eq (by omega) (by omega)
  have hneed : (need short n).run data pos =
      (failIf ((n : ℤ) < 0 ∨ (pos : ℤ) < 0 ∨ (data.length : ℤ) < pos ∨
        int64 (data.length - pos : ℤ) < n) short).run data pos := rfl
  rw [hneed, run_failIf, hleft]
  exact if_congr (by omega) rfl rfl

theorem follows_need (n : ℕ) : Follows data (need short n) (Cursor.need short n) := by
  intro pos hpos
  by_cases hshort : data.length < pos + n
  · refine FollowsFrom.fail (e := short) ?_ ?_
    · rw [Cursor.need, if_pos (by rw [length_drop]; omega)]
    · rw [run_need short hsize n hpos, if_pos hshort]
  · refine FollowsFrom.done (a := ()) hpos ?_ ?_
    · rw [Cursor.need, if_neg (by rw [length_drop]; omega)]
    · rw [run_need short hsize n hpos, if_neg hshort]

omit hsize in
theorem need_eq_ok {k : ℕ} {u : Unit} (hpos : pos ≤ data.length) (hk : k ≤ data.length)
    (h : Cursor.need short n (data.drop pos) = .ok (u, data.drop k)) :
    k = pos ∧ pos + n ≤ data.length := by
  rw [Cursor.need, length_drop] at h
  split at h
  · cases h
  · have hdrop := congrArg List.length (Prod.mk.inj (Except.ok.inj h)).2
    rw [length_drop, length_drop] at hdrop
    omega

theorem follows_skip (n : ℕ) : Follows data (skip short n) (Cursor.skip short n) := by
  intro pos hpos
  have hsplit : Cursor.skip short n =
      (Cursor.need short n >>= fun _ => fun bytes => .ok ((), bytes.drop n) : Cursor ε Unit) := by
    funext bytes
    simp only [Cursor.skip, Cursor.need, Bind.bind, StateT.bind]
    split <;> rfl
  rw [hsplit]
  refine (follows_need short hsize n pos hpos).bind fun _ u k _ hk h => ?_
  obtain ⟨rfl, hroom⟩ := need_eq_ok short hpos hk h
  have hnext : int64 (k + n : ℤ) = ((k + n : ℕ) : ℤ) := by
    rw [int64_eq (by omega) (by omega)]
    omega
  refine FollowsFrom.done (a := ()) (k := k + n) hroom ?_ ?_
  · rw [drop_drop]
  · rw [run_bind, run_getPos, Outcome.done_bind, run_setPos, hnext]

theorem followsFrom_take (hroom : pos + n ≤ data.length) :
    FollowsFrom Eq data pos (take n) (Cursor.take short n) := by
  have hnext : int64 (pos + n : ℤ) = ((pos + n : ℕ) : ℤ) := by
    rw [int64_eq (by omega) (by omega)]
    omega
  refine FollowsFrom.done (a := (data.drop pos).take n) hroom ?_ ?_
  · rw [Cursor.take, if_neg (by rw [length_drop]; omega), drop_drop]
  · rw [take_eq, hnext, Outcome.slice_eq hroom, Outcome.done_bind]

theorem followsFrom_word32 (hroom : pos + 4 ≤ data.length) :
    FollowsFrom Eq data pos word32 (Cursor.uint32 short) :=
  (followsFrom_take short hsize hroom).bind fun _ _ k h hk _ => h ▸ Follows.pure _ k hk

theorem followsFrom_word64 (hroom : pos + 8 ≤ data.length) :
    FollowsFrom Eq data pos word64 (Cursor.uint64 short) :=
  (followsFrom_take short hsize hroom).bind fun _ _ k h hk _ => h ▸ Follows.pure _ k hk

theorem follows_need_then {f : Indexed ε α} {g : Cursor ε α}
    (h : ∀ pos, pos + n ≤ data.length → FollowsFrom Eq data pos f g) :
    Follows data (need short n >>= fun _ => f) (Cursor.need short n >>= fun _ => g) := by
  intro pos hpos
  refine (follows_need short hsize n pos hpos).bind fun _ u k _ hk hok => ?_
  obtain ⟨rfl, hroom⟩ := need_eq_ok short hpos hk hok
  exact h k hroom

omit hsize in
theorem need_then_eq (hp : ∀ bytes : Bytes, bytes.length < n →
    p bytes = .error short) : (Cursor.need short n >>= fun _ => p) = p := by
  funext bytes
  by_cases hn : bytes.length < n
  · rw [hp bytes hn]
    simp only [Bind.bind, StateT.bind, Cursor.need, if_pos hn]
    rfl
  · simp only [Bind.bind, StateT.bind, Cursor.need, if_neg hn]
    rfl

omit hsize in
theorem take_short {bytes : Bytes} (hn : bytes.length < n) :
    Cursor.take short n bytes = .error short := if_pos hn

theorem follows_bytes (n : ℕ) : Follows data (bytes short n) (Cursor.take short n) := by
  rw [← need_then_eq short fun _ => take_short short]
  exact follows_need_then short hsize fun _ => followsFrom_take short hsize

theorem follows_uint32 : Follows data (uint32 short) (Cursor.uint32 short) := by
  rw [← need_then_eq (n := 4) (p := Cursor.uint32 short) short fun bytes hn => by
    simp only [Cursor.uint32, Bind.bind, StateT.bind, take_short short hn]
    rfl]
  exact follows_need_then short hsize fun _ => followsFrom_word32 short hsize

theorem follows_uint64 : Follows data (uint64 short) (Cursor.uint64 short) := by
  rw [← need_then_eq (n := 8) (p := Cursor.uint64 short) short fun bytes hn => by
    simp only [Cursor.uint64, Bind.bind, StateT.bind, take_short short hn]
    rfl]
  exact follows_need_then short hsize fun _ => followsFrom_word64 short hsize

theorem follows_byte : Follows data (byte short) (Cursor.byte short) := by
  rw [← need_then_eq (n := 1) (p := Cursor.byte short) short fun bytes hn => by
    rw [length_eq_zero_iff.mp (by omega : bytes.length = 0)]
    rfl]
  refine follows_need_then short hsize fun pos hroom => ?_
  have hlt : pos < data.length := hroom
  have hnext : int64 (pos + 1 : ℤ) = ((pos + 1 : ℕ) : ℤ) := int64_eq (by omega) (by omega)
  have hat : (byteAt (ε := ε) pos).run data pos = .done (data[pos], (pos : ℤ)) := by
    rw [run_byteAt, if_pos (by omega), Int.toNat_natCast, getD_eq_getElem?_getD,
      getElem?_eq_getElem hlt, Option.getD_some]
  refine FollowsFrom.done (a := data[pos]) (k := pos + 1) hroom ?_ ?_
  · rw [drop_eq_getElem_cons hlt]
    rfl
  · rw [next_eq, hat, hnext, Outcome.done_bind]

omit hsize in
theorem followsFrom_many {size : ℕ}
    (hp : ∀ pos, pos + size ≤ data.length → FollowsFrom Eq data pos q p)
    (htake : ∀ bytes a rest, p bytes = .ok (a, rest) → rest.length + size = bytes.length)
    {count : ℕ} (hroom : pos + count * size ≤ data.length) :
    FollowsFrom Eq data pos (many q count) (Cursor.many p count) := by
  induction count generalizing pos with
  | zero => exact Follows.pure [] pos (by omega)
  | succ count ih =>
    rw [Nat.succ_mul] at hroom
    refine (hp pos (by omega)).bind ?_
    rintro a _ k rfl hk hok
    have hlen := htake _ _ _ hok
    rw [length_drop, length_drop] at hlen
    refine (ih (by omega)).bind ?_
    rintro rest _ k' rfl hk' -
    exact Follows.pure (a :: rest) k' hk'

end Rules

end Indexed

/-- What reads with a position, what reads off the front, and that the first follows the second. -/
structure Decoder (ε α : Type) where
  indexed : Indexed ε α
  cursor : Cursor ε α
  follows : ∀ {data : Bytes}, data.length < 2 ^ 63 → Indexed.Follows data indexed cursor

namespace Decoder
variable {ε α β : Type}

instance : Monad (Decoder ε) where
  pure a := ⟨pure a, pure a, fun _ => .pure a⟩
  bind p f := ⟨p.indexed >>= fun a => (f a).indexed, p.cursor >>= fun a => (f a).cursor,
    fun h => (p.follows h).bind fun a => (f a).follows h⟩

theorem cursor_bind (p : Decoder ε α) (f : α → Decoder ε β) :
    (p >>= f).cursor = p.cursor >>= fun a => (f a).cursor := rfl

theorem cursor_pure (a : α) : (pure a : Decoder ε α).cursor = pure a := rfl

def failIf (c : Prop) [Decidable c] (e : ε) : Decoder ε Unit :=
  ⟨Indexed.failIf c e, Cursor.failIf c e, fun _ => .failIf Iff.rfl e⟩

theorem cursor_failIf (c : Prop) [Decidable c] (e : ε) : (failIf c e).cursor = Cursor.failIf c e := rfl

def many (p : Decoder ε α) (n : ℕ) : Decoder ε (List α) :=
  ⟨Indexed.many p.indexed n, Cursor.many p.cursor n, fun h => (p.follows h).many n⟩

def mapError (f : ε → ε) (p : Decoder ε α) : Decoder ε α where
  indexed := ⟨fun data pos =>
    match p.indexed.run data pos with
    | .fail e => .fail (f e)
    | .done r => .done r
    | .crash => .crash⟩
  cursor := fun bytes => (p.cursor bytes).mapError f
  follows {data} h n hn := by
    have hp := p.follows h n hn
    simp only [Indexed.FollowsFrom] at hp ⊢
    generalize p.indexed.run data n = x, p.cursor (data.drop n) = y at hp
    cases hp with
    | done hac => exact .done hac
    | fail e => exact .fail (f e)

section Bytes
variable (short : ε)

def byte : Decoder ε UInt8 := ⟨.byte short, .byte short, Indexed.follows_byte short⟩

def uint32 : Decoder ε UInt32 := ⟨.uint32 short, .uint32 short, Indexed.follows_uint32 short⟩

def uint64 : Decoder ε UInt64 := ⟨.uint64 short, .uint64 short, Indexed.follows_uint64 short⟩

def bytes (n : ℕ) : Decoder ε Bytes :=
  ⟨.bytes short n, .take short n, fun h => Indexed.follows_bytes short h n⟩

def skip (n : ℕ) : Decoder ε Unit := ⟨.skip short n, .skip short n, fun h => Indexed.follows_skip short h n⟩

theorem int64_mul (n : UInt32) (width : Fin 9) :
    int64 (n.toNat * width.val : ℤ) = ((n.toNat * width.val : ℕ) : ℤ) := by
  have hn := n.toNat_lt
  have hle : n.toNat * width.val ≤ n.toNat * 8 := Nat.mul_le_mul_left _ (by omega)
  rw [← Int.natCast_mul]
  exact int64_eq (by omega) (by omega)

/-- Over `n` words, with the size computed in 64 bits. -/
def skipWords (n : UInt32) (width : Fin 9) : Decoder ε Unit :=
  ⟨.skip short (int64 (n.toNat * width.val)), .skip short (n.toNat * width.val),
    fun h => int64_mul n width ▸ Indexed.follows_skip short h _⟩

theorem word_takes {f : Bytes → α} {n : ℕ} {bytes rest : Bytes} {a : α}
    (h : (Cursor.take short n >>= fun b => pure (f b)) bytes = .ok (a, rest)) :
    rest.length + n = bytes.length := by
  simp only [Cursor.bind_eq_ok, Cursor.pure_eq_ok] at h
  obtain ⟨b, left, htake, heq⟩ := h
  rw [Cursor.take] at htake
  split at htake
  · cases htake
  · obtain ⟨-, rfl⟩ := Prod.mk.inj (Except.ok.inj htake)
    rw [← (Prod.mk.inj heq).2, List.length_drop]
    omega

/-- The room for `n` words is asked for once, and the words are then read without asking. -/
def words (width : Fin 9) (q : Indexed ε α) (p : Cursor ε α)
    (hq : ∀ {data : Bytes} {pos : ℕ}, data.length < 2 ^ 63 → pos + width.val ≤ data.length →
      Indexed.FollowsFrom Eq data pos q p)
    (hp : ∀ bytes a rest, p bytes = .ok (a, rest) → rest.length + width.val = bytes.length)
    (n : UInt32) : Decoder ε (List α) where
  indexed := do
    Indexed.need short (int64 (n.toNat * width.val))
    Indexed.many q n.toNat
  cursor := do
    Cursor.need short (n.toNat * width.val)
    Cursor.many p n.toNat
  follows h := by
    rw [int64_mul]
    exact Indexed.follows_need_then short h fun pos hroom =>
      Indexed.followsFrom_many (fun _ => hq h) hp hroom

def uint32s : UInt32 → Decoder ε (List UInt32) :=
  words short ⟨4, by decide⟩ .word32 (.uint32 short) (Indexed.followsFrom_word32 short) fun _ _ _ => word_takes short

def uint64s : UInt32 → Decoder ε (List UInt64) :=
  words short (.last 8) .word64 (.uint64 short) (Indexed.followsFrom_word64 short) fun _ _ _ => word_takes short

end Bytes

end Decoder

end NuclaDB
