import Mathlib.Data.List.Basic
import Mathlib.Tactic.Ring

/-!
# Fixed-width little-endian integers over byte lists

`leBytes w n` is the `w`-byte little-endian image of `n`, reduced modulo `256 ^ w`, and
`leNat` is the value of a byte list.
-/

namespace NuclaDB.LittleEndian

open List
variable {bs : Bytes} (v : UInt32) (vs : List UInt32)

abbrev Bytes := List UInt8

def leBytes : ℕ → ℕ → Bytes
  | 0, _ => []
  | w + 1, n => UInt8.ofNat (n % 256) :: leBytes w (n / 256)

def leNat : Bytes → ℕ
  | [] => 0
  | b :: bs => b.toNat + 256 * leNat bs

@[simp] theorem leBytes_length (w n : ℕ) : (leBytes w n).length = w := by
  induction w generalizing n with
  | zero => rfl
  | succ w ih => simp [leBytes, ih]

theorem leNat_lt (bs : Bytes) : leNat bs < 256 ^ bs.length := by
  induction bs with
  | nil => simp [leNat]
  | cons b bs ih =>
    have hb : b.toNat < 256 := b.toNat_lt
    simp only [leNat, length_cons, pow_succ]
    omega

theorem leNat_leBytes (w n : ℕ) : leNat (leBytes w n) = n % 256 ^ w := by
  induction w generalizing n with
  | zero => simp [leBytes, leNat, Nat.mod_one]
  | succ w ih =>
    have hb : (UInt8.ofNat (n % 256)).toNat = n % 256 := by
      simp [UInt8.toNat_ofNat']
    simp only [leBytes, leNat, hb, ih]
    rw [pow_succ, Nat.mul_comm (256 ^ w) 256, Nat.mod_mul]

theorem leNat_leBytes_of_lt {w n : ℕ} (h : n < 256 ^ w) : leNat (leBytes w n) = n := by
  rw [leNat_leBytes, Nat.mod_eq_of_lt h]

theorem leBytes_leNat (bs : Bytes) : leBytes bs.length (leNat bs) = bs := by
  induction bs with
  | nil => rfl
  | cons b bs ih =>
    have hb : b.toNat < 256 := b.toNat_lt
    have hmod : (b.toNat + 256 * leNat bs) % 256 = b.toNat := by omega
    have hdiv : (b.toNat + 256 * leNat bs) / 256 = leNat bs := by omega
    simp [leBytes, leNat, hmod, hdiv, ih]

theorem leBytes_leNat_of_length {w : ℕ} (h : bs.length = w) : leBytes w (leNat bs) = bs := by
  subst h
  exact leBytes_leNat bs

def putUint32 : Bytes := leBytes 4 v.toNat
def putUint64 (v : UInt64) : Bytes := leBytes 8 v.toNat
def uint32 (bs : Bytes) : UInt32 := UInt32.ofNat (leNat bs)
def uint64 (bs : Bytes) : UInt64 := UInt64.ofNat (leNat bs)

@[simp] theorem putUint32_length : (putUint32 v).length = 4 := leBytes_length 4 _
@[simp] theorem putUint64_length (v : UInt64) : (putUint64 v).length = 8 := leBytes_length 8 _

@[simp] theorem uint32_putUint32 : uint32 (putUint32 v) = v := by
  have hv : v.toNat < 256 ^ 4 := v.toNat_lt
  rw [uint32, putUint32, leNat_leBytes_of_lt hv, UInt32.ofNat_toNat]

@[simp] theorem uint64_putUint64 (v : UInt64) : uint64 (putUint64 v) = v := by
  have hv : v.toNat < 256 ^ 8 := v.toNat_lt
  rw [uint64, putUint64, leNat_leBytes_of_lt hv, UInt64.ofNat_toNat]

theorem uint32_toNat (h : bs.length = 4) : (uint32 bs).toNat = leNat bs := by
  have hlt := leNat_lt bs
  rw [h] at hlt
  rw [uint32, UInt32.toNat_ofNat']
  exact Nat.mod_eq_of_lt hlt

theorem uint64_toNat (h : bs.length = 8) : (uint64 bs).toNat = leNat bs := by
  have hlt := leNat_lt bs
  rw [h] at hlt
  rw [uint64, UInt64.toNat_ofNat']
  exact Nat.mod_eq_of_lt hlt

theorem putUint32_uint32 (h : bs.length = 4) : putUint32 (uint32 bs) = bs := by
  rw [putUint32, uint32_toNat h, leBytes_leNat_of_length h]

theorem putUint64_uint64 (h : bs.length = 8) : putUint64 (uint64 bs) = bs := by
  rw [putUint64, uint64_toNat h, leBytes_leNat_of_length h]

def putUint32s : Bytes := vs.flatMap putUint32

def uint32s : ℕ → Bytes → List UInt32
  | 0, _ => []
  | n + 1, bs => uint32 (bs.take 4) :: uint32s n (bs.drop 4)

@[simp] theorem putUint32s_cons :
    putUint32s (v :: vs) = putUint32 v ++ putUint32s vs := rfl

@[simp] theorem putUint32s_length : (putUint32s vs).length = 4 * vs.length := by
  induction vs with
  | nil => rfl
  | cons v vs ih => simp [ih]; omega

@[simp] theorem uint32s_length (n : ℕ) (bs : Bytes) : (uint32s n bs).length = n := by
  induction n generalizing bs with
  | zero => rfl
  | succ n ih => simp [uint32s, ih]

theorem uint32s_putUint32s (rest : Bytes) :
    uint32s vs.length (putUint32s vs ++ rest) = vs := by
  induction vs with
  | nil => rfl
  | cons v vs ih =>
    have ht : (putUint32 v ++ (putUint32s vs ++ rest)).take 4 = putUint32 v :=
      take_left' (putUint32_length v)
    have hd : (putUint32 v ++ (putUint32s vs ++ rest)).drop 4 = putUint32s vs ++ rest :=
      drop_left' (putUint32_length v)
    simp only [putUint32s_cons, append_assoc, length_cons, uint32s, ht, hd,
      uint32_putUint32, ih]

theorem putUint32s_uint32s (n : ℕ) (bs : Bytes) (h : 4 * n ≤ bs.length) :
    putUint32s (uint32s n bs) = bs.take (4 * n) := by
  induction n generalizing bs with
  | zero => simp [uint32s, putUint32s]
  | succ n ih =>
    have h4 : (bs.take 4).length = 4 := by rw [length_take]; omega
    have hrest : 4 * n ≤ (bs.drop 4).length := by rw [length_drop]; omega
    rw [uint32s, putUint32s_cons, putUint32_uint32 h4, ih _ hrest,
      show 4 * (n + 1) = 4 + 4 * n by ring, take_add]

/-- The IEEE CRC-32, bit by bit over the reflected polynomial. -/
def crc32Bit (c : UInt32) : UInt32 := (c >>> 1) ^^^ (0xEDB88320 * (c &&& 1))

def crc32Byte (c : UInt32) (b : UInt8) : UInt32 :=
  crc32Bit (crc32Bit (crc32Bit (crc32Bit (crc32Bit (crc32Bit (crc32Bit (crc32Bit
    (c ^^^ b.toUInt32))))))))

def crc32ChecksumIEEE (bs : Bytes) : UInt32 :=
  bs.foldl crc32Byte 0xFFFFFFFF ^^^ 0xFFFFFFFF

/-- The check value of the standard: the checksum of the ASCII digits one to nine. -/
example : crc32ChecksumIEEE [0x31, 0x32, 0x33, 0x34, 0x35, 0x36, 0x37, 0x38, 0x39] = 0xCBF43926 := by
  decide +kernel

end NuclaDB.LittleEndian
