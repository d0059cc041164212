import NuclaDB.LittleEndian

/-!
# Sequential readers of byte strings

A `Cursor` reads from the front of a byte string and may fail. `Reads p bytes v` says that
`p` takes exactly `bytes` off the front and returns `v`.
-/

namespace NuclaDB
open LittleEndian Except

abbrev Cursor (ε : Type) := StateT Bytes (Except ε)

namespace Cursor
variable {ε α β : Type} {bytes : Bytes} {b : β} {p : Cursor ε α} {f : α → Cursor ε β} (short : ε)

def take (n : ℕ) : Cursor ε Bytes := fun bytes =>
  if bytes.length < n then .error short else .ok (bytes.take n, bytes.drop n)

def skip (n : ℕ) : Cursor ε Unit := fun bytes =>
  if bytes.length < n then .error short else .ok ((), bytes.drop n)

def byte : Cursor ε UInt8
  | [] => .error short
  | b :: rest => .ok (b, rest)

def uint32 : Cursor ε UInt32 := do
  return LittleEndian.uint32 (← take short 4)

def uint64 : Cursor ε UInt64 := do
  return LittleEndian.uint64 (← take short 8)

def need (n : ℕ) : Cursor ε Unit := fun bytes =>
  if bytes.length < n then .error short else .ok ((), bytes)

def failIf (c : Prop) [Decidable c] (e : ε) : Cursor ε Unit := if c then throw e else pure ()

def many (p : Cursor ε α) : ℕ → Cursor ε (List α)
  | 0 => pure []
  | n + 1 => do
    let a ← p
    let rest ← many p n
    return a :: rest

def Reads (p : Cursor ε α) (bytes : Bytes) (a : α) : Prop :=
  ∀ rest, p (bytes ++ rest) = .ok (a, rest)

theorem Reads.pure (a : α) : Reads (Pure.pure a : Cursor ε α) [] a := fun _ => rfl

theorem Reads.unique {a a' : α} {rest left : Bytes} (hp : Reads p bytes a)
    (h : p (bytes ++ rest) = .ok (a', left)) : a' = a ∧ left = rest :=
  Prod.mk.inj (ok.inj (h.symm.trans (hp rest)))

theorem Reads.bind {bytes' : Bytes} {a : α}
    (hp : Reads p bytes a) (hf : Reads (f a) bytes' b) : Reads (p >>= f) (bytes ++ bytes') b := by
  intro rest
  have h : (p >>= f) (bytes ++ (bytes' ++ rest)) = f a (bytes' ++ rest) := by
    simp only [Bind.bind, StateT.bind, hp (bytes' ++ rest), Except.bind]
  rw [List.append_assoc, h, hf rest]

theorem Reads.bind_nil {a : α}
    (hp : Reads p bytes a) (hf : Reads (f a) [] b) : Reads (p >>= f) bytes b := by
  simpa only [List.append_nil] using hp.bind hf

theorem Reads.map {f : α → β} {a : α} (hp : Reads p bytes a) :
    Reads (p >>= fun a => Pure.pure (f a)) bytes (f a) :=
  hp.bind_nil (Reads.pure (f a))

theorem reads_failIf {c : Prop} [Decidable c] (e : ε) (hc : ¬ c) : Reads (failIf c e) [] () := by
  intro rest
  simp only [failIf, if_neg hc]
  rfl

theorem Reads.failIf_bind {c : Prop} [Decidable c] {e : ε} {k : Cursor ε β}
    (hc : ¬ c) (hk : Reads k bytes b) : Reads (failIf c e >>= fun _ => k) bytes b := by
  simpa [failIf, hc] using hk

theorem Reads.need_bind {short : ε} {n : ℕ} {k : Cursor ε β}
    (hn : n ≤ bytes.length) (hk : Reads k bytes b) :
    Reads (need short n >>= fun _ => k) bytes b := by
  intro rest
  have hlen : ¬ (bytes ++ rest).length < n := by
    simp only [List.length_append]
    omega
  have h : (need short n >>= fun _ => k) (bytes ++ rest) = k (bytes ++ rest) := by
    simp only [Bind.bind, StateT.bind, need, if_neg hlen, Except.bind]
  rw [h, hk rest]

theorem except_ok_bind (a : α) (f : α → Except ε β) : (ok a >>= f) = f a := rfl

theorem except_bind_eq_ok {x : Except ε α} {f : α → Except ε β} :
    x >>= f = .ok b ↔ ∃ a, x = .ok a ∧ f a = .ok b := by
  cases x with
  | error e => simp [Bind.bind, Except.bind]
  | ok a => simp [Bind.bind, Except.bind]

theorem bind_eq_ok {bytes' : Bytes} : (p >>= f) bytes = .ok (b, bytes') ↔
      ∃ a rest, p bytes = .ok (a, rest) ∧ f a rest = .ok (b, bytes') := by
  simp only [Bind.bind, StateT.bind]
  cases hp : p bytes with
  | error e => simp [Except.bind]
  | ok r =>
    obtain ⟨a, rest⟩ := r
    simp [Except.bind]

theorem pure_eq_ok {a : α} {r : α × Bytes} : (pure a : Cursor ε α) bytes = .ok r ↔ (a, bytes) = r :=
  ⟨ok.inj, congrArg ok⟩

theorem failIf_eq_ok {c : Prop} [Decidable c] {e : ε} {r : Unit × Bytes} :
    failIf c e bytes = .ok r ↔ ¬ c ∧ r = ((), bytes) := by
  by_cases hc : c
  · simp [failIf, hc, throw, throwThe, MonadExceptOf.throw, StateT.lift, Bind.bind, Except.bind]
  · rw [failIf, if_neg hc, pure_eq_ok]
    simp [hc, eq_comm]

section
variable (short : ε)

theorem reads_take (bytes : Bytes) : Reads (take short bytes.length) bytes bytes := by
  intro rest
  simp [take]

theorem reads_skip (bytes : Bytes) {n : ℕ} (hn : bytes.length = n) : Reads (skip short n) bytes () := by
  intro rest
  simp [skip, ← hn]

theorem reads_byte (b : UInt8) : Reads (byte short) [b] b := fun _ => rfl

theorem reads_uint32 (v : UInt32) : Reads (uint32 short) (putUint32 v) v := by
  have h := (putUint32_length v ▸ reads_take short (putUint32 v) : Reads (take short 4) _ _)
  simpa only [uint32, uint32_putUint32] using h.map (f := LittleEndian.uint32)

theorem reads_uint64 (v : UInt64) : Reads (uint64 short) (putUint64 v) v := by
  have h := (putUint64_length v ▸ reads_take short (putUint64 v) : Reads (take short 8) _ _)
  simpa only [uint64, uint64_putUint64] using h.map (f := LittleEndian.uint64)

end

theorem Reads.many {γ : Type} (enc : γ → Bytes) (val : γ → α) {xs : List γ}
    (hp : ∀ x ∈ xs, Reads p (enc x) (val x)) :
    Reads (many p xs.length) (xs.flatMap enc) (xs.map val) := by
  induction xs with
  | nil => exact .pure _
  | cons x xs ih =>
    obtain ⟨hx, hxs⟩ := List.forall_mem_cons.mp hp
    exact hx.bind (ih hxs).map

end Cursor

end NuclaDB
