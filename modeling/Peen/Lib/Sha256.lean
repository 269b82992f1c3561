import Mathlib.Data.Vector.Basic

/-!
# SHA-256

The hash function of FIPS 180-4 over byte lists, on natural numbers below `2 ^ 32`.
-/

namespace Sha256

def constants : List Nat :=
  [0x428a2f98, 0x71374491, 0xb5c0fbcf, 0xe9b5dba5, 0x3956c25b, 0x59f111f1, 0x923f82a4, 0xab1c5ed5,
   0xd807aa98, 0x12835b01, 0x243185be, 0x550c7dc3, 0x72be5d74, 0x80deb1fe, 0x9bdc06a7, 0xc19bf174,
   0xe49b69c1, 0xefbe4786, 0x0fc19dc6, 0x240ca1cc, 0x2de92c6f, 0x4a7484aa, 0x5cb0a9dc, 0x76f988da,
   0x983e5152, 0xa831c66d, 0xb00327c8, 0xbf597fc7, 0xc6e00bf3, 0xd5a79147, 0x06ca6351, 0x14292967,
   0x27b70a85, 0x2e1b2138, 0x4d2c6dfc, 0x53380d13, 0x650a7354, 0x766a0abb, 0x81c2c92e, 0x92722c85,
   0xa2bfe8a1, 0xa81a664b, 0xc24b8b70, 0xc76c51a3, 0xd192e819, 0xd6990624, 0xf40e3585, 0x106aa070,
   0x19a4c116, 0x1e376c08, 0x2748774c, 0x34b0bcb5, 0x391c0cb3, 0x4ed8aa4a, 0x5b9cca4f, 0x682e6ff3,
   0x748f82ee, 0x78a5636f, 0x84c87814, 0x8cc70208, 0x90befffa, 0xa4506ceb, 0xbef9a3f7, 0xc67178f2]

structure State where
  a : Nat
  b : Nat
  c : Nat
  d : Nat
  e : Nat
  f : Nat
  g : Nat
  h : Nat

def initial : State :=
  ⟨0x6a09e667, 0xbb67ae85, 0x3c6ef372, 0xa54ff53a, 0x510e527f, 0x9b05688c, 0x1f83d9ab, 0x5be0cd19⟩

def add (x y : Nat) : Nat := (x + y) % 4294967296

def rotr (n x : Nat) : Nat := (x >>> n ||| x <<< (32 - n)) % 4294967296

def smallSigma0 (x : Nat) : Nat := rotr 7 x ^^^ rotr 18 x ^^^ x >>> 3

def smallSigma1 (x : Nat) : Nat := rotr 17 x ^^^ rotr 19 x ^^^ x >>> 10

def bigSigma0 (x : Nat) : Nat := rotr 2 x ^^^ rotr 13 x ^^^ rotr 22 x

def bigSigma1 (x : Nat) : Nat := rotr 6 x ^^^ rotr 11 x ^^^ rotr 25 x

/-- The bits of `y` where `x` has ones, those of `z` elsewhere. -/
def choose (x y z : Nat) : Nat := (x &&& y) ^^^ ((4294967295 ^^^ x) &&& z)

def majority (x y z : Nat) : Nat := (x &&& y) ^^^ (x &&& z) ^^^ (y &&& z)

def round (k w : Nat) (s : State) : State :=
  let t1 := add (add (add s.h (bigSigma1 s.e)) (choose s.e s.f s.g)) (add k w)
  let t2 := add (bigSigma0 s.a) (majority s.a s.b s.c)
  ⟨add t1 t2, s.a, s.b, s.c, add s.d t1, s.e, s.f, s.g⟩

def nextWord (ws : List Nat) : Nat :=
  add (add (smallSigma1 (ws.getD 14 0)) (ws.getD 9 0)) (add (smallSigma0 (ws.getD 1 0)) (ws.headD 0))

/-- The rounds of one block: `ws` are the next sixteen message words. -/
def rounds : List Nat → List Nat → State → State
  | [], _, s => s
  | k :: ks, ws, s => rounds ks (ws.tail ++ [nextWord ws]) (round k (ws.headD 0) s)

def compress (s : State) (block : List Nat) : State :=
  let t := rounds constants block s
  ⟨add s.a t.a, add s.b t.b, add s.c t.c, add s.d t.d, add s.e t.e, add s.f t.f, add s.g t.g,
    add s.h t.h⟩

def word (a b c d : UInt8) : Nat :=
  ((a.toNat * 256 + b.toNat) * 256 + c.toNat) * 256 + d.toNat

def words : List UInt8 → List Nat
  | a :: b :: c :: d :: rest => word a b c d :: words rest
  | _ => []

def padding (n : Nat) : List UInt8 :=
  (0x80 :: List.replicate ((119 - n % 64) % 64) 0 : List UInt8) ++
    (List.range 8).map fun i => UInt8.ofNat ((n * 8) >>> (8 * (7 - i)))

def absorb : Nat → List Nat → State → State
  | 0, _, s => s
  | n + 1, ws, s => absorb n (ws.drop 16) (compress s (ws.take 16))

def wordBytes (w : Nat) : List UInt8 :=
  [UInt8.ofNat (w >>> 24), UInt8.ofNat (w >>> 16), UInt8.ofNat (w >>> 8), UInt8.ofNat w]

def hashValue (data : List UInt8) : State :=
  let padded := data ++ padding data.length
  absorb (padded.length / 64) (words padded) initial

/-- The digest of a byte string. -/
def sum256 (data : List UInt8) : Vector UInt8 32 :=
  let s := hashValue data
  (⟨(wordBytes s.a ++ wordBytes s.b ++ wordBytes s.c ++ wordBytes s.d ++ wordBytes s.e ++
    wordBytes s.f ++ wordBytes s.g ++ wordBytes s.h).toArray, rfl⟩ : Vector UInt8 32)

end Sha256
