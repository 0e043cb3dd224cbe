import Mathlib.Algebra.Ring.Nat
import Mathlib.Data.List.Basic

/-! SHA-256 on byte strings, with its words as natural numbers below `2 ^ 32`. -/

namespace Sha2

def add32 (a b : ℕ) : ℕ := (a + b) % 2 ^ 32

def rotr (x n : ℕ) : ℕ := (x >>> n ||| x <<< (32 - n)) % 2 ^ 32

def bigSigma0 (x : ℕ) : ℕ := rotr x 2 ^^^ rotr x 13 ^^^ rotr x 22

def bigSigma1 (x : ℕ) : ℕ := rotr x 6 ^^^ rotr x 11 ^^^ rotr x 25

def smallSigma0 (x : ℕ) : ℕ := rotr x 7 ^^^ rotr x 18 ^^^ x >>> 3

def smallSigma1 (x : ℕ) : ℕ := rotr x 17 ^^^ rotr x 19 ^^^ x >>> 10

def choose (e f g : ℕ) : ℕ := (e &&& f) ^^^ ((2 ^ 32 - 1 - e) &&& g)

def majority (a b c : ℕ) : ℕ := (a &&& b) ^^^ (a &&& c) ^^^ (b &&& c)

def roundConstants : List ℕ :=
  [0x428a2f98, 0x71374491, 0xb5c0fbcf, 0xe9b5dba5, 0x3956c25b, 0x59f111f1, 0x923f82a4, 0xab1c5ed5,
   0xd807aa98, 0x12835b01, 0x243185be, 0x550c7dc3, 0x72be5d74, 0x80deb1fe, 0x9bdc06a7, 0xc19bf174,
   0xe49b69c1, 0xefbe4786, 0x0fc19dc6, 0x240ca1cc, 0x2de92c6f, 0x4a7484aa, 0x5cb0a9dc, 0x76f988da,
   0x983e5152, 0xa831c66d, 0xb00327c8, 0xbf597fc7, 0xc6e00bf3, 0xd5a79147, 0x06ca6351, 0x14292967,
   0x27b70a85, 0x2e1b2138, 0x4d2c6dfc, 0x53380d13, 0x650a7354, 0x766a0abb, 0x81c2c92e, 0x92722c85,
   0xa2bfe8a1, 0xa81a664b, 0xc24b8b70, 0xc76c51a3, 0xd192e819, 0xd6990624, 0xf40e3585, 0x106aa070,
   0x19a4c116, 0x1e376c08, 0x2748774c, 0x34b0bcb5, 0x391c0cb3, 0x4ed8aa4a, 0x5b9cca4f, 0x682e6ff3,
   0x748f82ee, 0x78a5636f, 0x84c87814, 0x8cc70208, 0x90befffa, 0xa4506ceb, 0xbef9a3f7, 0xc67178f2]

structure State where
  (a b c d e f g h : ℕ)

def initial : State :=
  ⟨0x6a09e667, 0xbb67ae85, 0x3c6ef372, 0xa54ff53a, 0x510e527f, 0x9b05688c, 0x1f83d9ab, 0x5be0cd19⟩

/-- The message schedule, each word computed from the sixteen before it. -/
def extend : ℕ → List ℕ → List ℕ
  | fuel + 1, w0 :: w1 :: rest =>
    let w := add32 (add32 (smallSigma1 (rest.getD 12 0)) (rest.getD 7 0))
      (add32 (smallSigma0 w1) w0)
    w0 :: extend fuel (w1 :: rest ++ [w])
  | _, ws => ws

def round (s : State) (kw : ℕ × ℕ) : State :=
  let t1 := add32 (add32 s.h (bigSigma1 s.e)) (add32 (choose s.e s.f s.g) (add32 kw.1 kw.2))
  let t2 := add32 (bigSigma0 s.a) (majority s.a s.b s.c)
  ⟨add32 t1 t2, s.a, s.b, s.c, add32 s.d t1, s.e, s.f, s.g⟩

def compress (s : State) (block : List ℕ) : State :=
  let t := (roundConstants.zip (extend 48 block)).foldl round s
  ⟨add32 s.a t.a, add32 s.b t.b, add32 s.c t.c, add32 s.d t.d,
    add32 s.e t.e, add32 s.f t.f, add32 s.g t.g, add32 s.h t.h⟩

def toWords : List UInt8 → List ℕ
  | b0 :: b1 :: b2 :: b3 :: rest =>
    (((b0.toNat * 256 + b1.toNat) * 256 + b2.toNat) * 256 + b3.toNat) :: toWords rest
  | _ => []

def ofWord (w : ℕ) : List UInt8 :=
  [.ofNat (w / 2 ^ 24), .ofNat (w / 2 ^ 16), .ofNat (w / 2 ^ 8), .ofNat w]

def pad (bytes : List UInt8) : List UInt8 :=
  let bits := bytes.length * 8
  bytes ++ 0x80 :: List.replicate ((119 - bytes.length % 64) % 64) 0 ++
    ofWord (bits / 2 ^ 32) ++ ofWord bits

def compressAll : ℕ → State → List ℕ → State
  | 0, s, _ => s
  | fuel + 1, s, words =>
    match words with
    | [] => s
    | _ :: _ => compressAll fuel (compress s (words.take 16)) (words.drop 16)

def sha256 (bytes : List UInt8) : List UInt8 :=
  let words := toWords (pad bytes)
  let s := compressAll words.length initial words
  [s.a, s.b, s.c, s.d, s.e, s.f, s.g, s.h].flatMap ofWord

theorem length_sha256 (bytes : List UInt8) : (sha256 bytes).length = 32 := rfl

example : sha256 [0x61, 0x62, 0x63] =
    [0xba, 0x78, 0x16, 0xbf, 0x8f, 0x01, 0xcf, 0xea, 0x41, 0x41, 0x40, 0xde, 0x5d, 0xae, 0x22, 0x23,
     0xb0, 0x03, 0x61, 0xa3, 0x96, 0x17, 0x7a, 0x9c, 0xb4, 0x10, 0xff, 0x61, 0xf2, 0x00, 0x15, 0xad] := by
  decide +kernel

end Sha2
