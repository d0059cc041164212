import NuclaDB.LittleEndian

/-!
# SHA-256

The padded message is taken in blocks of sixteen words, each block is extended to sixty-four,
and these go through the round function.
-/

namespace NuclaDB.Sha256
open LittleEndian

structure Hash where
  a : UInt32
  b : UInt32
  c : UInt32
  d : UInt32
  e : UInt32
  f : UInt32
  g : UInt32
  h : UInt32
deriving DecidableEq

def initial : Hash :=
  ⟨0x6a09e667, 0xbb67ae85, 0x3c6ef372, 0xa54ff53a, 0x510e527f, 0x9b05688c, 0x1f83d9ab, 0x5be0cd19⟩

def roundConstants : List UInt32 :=
  [0x428a2f98, 0x71374491, 0xb5c0fbcf, 0xe9b5dba5, 0x3956c25b, 0x59f111f1, 0x923f82a4, 0xab1c5ed5,
   0xd807aa98, 0x12835b01, 0x243185be, 0x550c7dc3, 0x72be5d74, 0x80deb1fe, 0x9bdc06a7, 0xc19bf174,
   0xe49b69c1, 0xefbe4786, 0x0fc19dc6, 0x240ca1cc, 0x2de92c6f, 0x4a7484aa, 0x5cb0a9dc, 0x76f988da,
   0x983e5152, 0xa831c66d, 0xb00327c8, 0xbf597fc7, 0xc6e00bf3, 0xd5a79147, 0x06ca6351, 0x14292967,
   0x27b70a85, 0x2e1b2138, 0x4d2c6dfc, 0x53380d13, 0x650a7354, 0x766a0abb, 0x81c2c92e, 0x92722c85,
   0xa2bfe8a1, 0xa81a664b, 0xc24b8b70, 0xc76c51a3, 0xd192e819, 0xd6990624, 0xf40e3585, 0x106aa070,
   0x19a4c116, 0x1e376c08, 0x2748774c, 0x34b0bcb5, 0x391c0cb3, 0x4ed8aa4a, 0x5b9cca4f, 0x682e6ff3,
   0x748f82ee, 0x78a5636f, 0x84c87814, 0x8cc70208, 0x90befffa, 0xa4506ceb, 0xbef9a3f7, 0xc67178f2]

def rotateRight (x n : UInt32) : UInt32 := (x >>> n) ||| (x <<< (32 - n))

def bigEndian (bytes : Bytes) : ℕ := bytes.foldl (fun n b => 256 * n + b.toNat) 0

/-- A one bit, zeros, and the length in bits fill the last block. -/
def pad (msg : Bytes) : Bytes :=
  msg ++ [0x80] ++ List.replicate ((119 - msg.length % 64) % 64) 0 ++
    (leBytes 8 (8 * msg.length)).reverse

/-- The next `n` words, from a window on the last sixteen. -/
def schedule : ℕ → List UInt32 → List UInt32
  | 0, _ => []
  | n + 1, window =>
    let w15 := window.getD 1 0
    let w2 := window.getD 14 0
    let s0 := rotateRight w15 7 ^^^ rotateRight w15 18 ^^^ (w15 >>> 3)
    let s1 := rotateRight w2 17 ^^^ rotateRight w2 19 ^^^ (w2 >>> 10)
    window.getD 0 0 :: schedule n (window.tail ++ [window.getD 0 0 + s0 + window.getD 9 0 + s1])

def round (x : Hash) (kw : UInt32 × UInt32) : Hash :=
  let s1 := rotateRight x.e 6 ^^^ rotateRight x.e 11 ^^^ rotateRight x.e 25
  let ch := (x.e &&& x.f) ^^^ (~~~x.e &&& x.g)
  let t1 := x.h + s1 + ch + kw.1 + kw.2
  let s0 := rotateRight x.a 2 ^^^ rotateRight x.a 13 ^^^ rotateRight x.a 22
  let maj := (x.a &&& x.b) ^^^ (x.a &&& x.c) ^^^ (x.b &&& x.c)
  ⟨t1 + (s0 + maj), x.a, x.b, x.c, x.d + t1, x.e, x.f, x.g⟩

def compress (x : Hash) (block : Bytes) : Hash :=
  let words := (List.range 16).map fun i => UInt32.ofNat (bigEndian ((block.drop (4 * i)).take 4))
  let y := (roundConstants.zip (schedule 64 words)).foldl round x
  ⟨x.a + y.a, x.b + y.b, x.c + y.c, x.d + y.d, x.e + y.e, x.f + y.f, x.g + y.g, x.h + y.h⟩

def blocks (msg : Bytes) : List Bytes :=
  (List.range ((pad msg).length / 64)).map fun i => ((pad msg).drop (64 * i)).take 64

def sum256 (msg : Bytes) : Bytes :=
  let x := (blocks msg).foldl compress initial
  [x.a, x.b, x.c, x.d, x.e, x.f, x.g, x.h].flatMap fun w => (leBytes 4 w.toNat).reverse

end NuclaDB.Sha256
