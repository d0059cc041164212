import Mathlib.Data.Int.Notation
import Mathlib.Data.Nat.Notation

/-!
# Decimals

`strconv.ParseUint` and `strconv.FormatUint` in base ten and 64 bits, and `strconv.Atoi`.
-/

namespace NuclaDB.Strconv

open Nat

def parseUint (s : String) : Option UInt64 :=
  if s.toList.isEmpty || !s.toList.all Char.isDigit then none
  else
    let n := ofDigitChars 10 s.toList 0
    if n < UInt64.size then some (UInt64.ofNat n) else none

def signedDecimal (s : String) : Option ℤ :=
  let decimal (cs : List Char) : Option ℕ :=
    if cs.isEmpty || !cs.all Char.isDigit then none else some (ofDigitChars 10 cs 0)
  match s.toList with
  | '-' :: cs => (decimal cs).map fun n => -(n : ℤ)
  | '+' :: cs => (decimal cs).map fun n => (n : ℤ)
  | cs => (decimal cs).map fun n => (n : ℤ)

def atoi (s : String) : Option Int64 :=
  (signedDecimal s).bind fun n =>
    if Int64.minValue.toInt ≤ n ∧ n ≤ Int64.maxValue.toInt then some (Int64.ofInt n) else none

def formatUint (n : UInt64) : String := String.ofList (toDigits 10 n.toNat)

@[simp] theorem parseUint_formatUint (n : UInt64) : parseUint (formatUint n) = some n := by
  have hdigits : (toDigits 10 n.toNat).all Char.isDigit = true :=
    List.all_eq_true.mpr fun c hc => isDigit_of_mem_toDigits (by omega) (by omega) hc
  have hne : (toDigits 10 n.toNat).isEmpty = false := by simp
  have hlt : n.toNat < UInt64.size := n.toNat_lt
  have hvalue : ofDigitChars 10 (toDigits 10 n.toNat) 0 = n.toNat :=
    ofDigitChars_toDigits (by omega) (by omega)
  simp only [parseUint, formatUint, String.toList_ofList, hdigits, hne, hvalue, hlt, Bool.not_true,
    Bool.or_self, Bool.false_eq_true, if_false, if_true, UInt64.ofNat_toNat]

end NuclaDB.Strconv
