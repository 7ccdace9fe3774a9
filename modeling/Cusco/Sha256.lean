import Mathlib.Data.Vector.Basic
import Mathlib.Tactic.Common

/-!
SHA-256 on byte lists, following FIPS 180-4. Words are natural numbers below
`2 ^ 32`, so the kernel evaluates a digest with its own arithmetic.
-/

namespace Cusco.Sha256

def wordSize : ℕ := 2 ^ 32

def rotr (x n : ℕ) : ℕ := (x >>> n) ||| ((x <<< (32 - n)) % wordSize)

/-- The round constants, first bits of the cube roots of the first 64 primes. -/
def roundConstants : List ℕ :=
  [0x428a2f98, 0x71374491, 0xb5c0fbcf, 0xe9b5dba5, 0x3956c25b, 0x59f111f1, 0x923f82a4, 0xab1c5ed5,
   0xd807aa98, 0x12835b01, 0x243185be, 0x550c7dc3, 0x72be5d74, 0x80deb1fe, 0x9bdc06a7, 0xc19bf174,
   0xe49b69c1, 0xefbe4786, 0x0fc19dc6, 0x240ca1cc, 0x2de92c6f, 0x4a7484aa, 0x5cb0a9dc, 0x76f988da,
   0x983e5152, 0xa831c66d, 0xb00327c8, 0xbf597fc7, 0xc6e00bf3, 0xd5a79147, 0x06ca6351, 0x14292967,
   0x27b70a85, 0x2e1b2138, 0x4d2c6dfc, 0x53380d13, 0x650a7354, 0x766a0abb, 0x81c2c92e, 0x92722c85,
   0xa2bfe8a1, 0xa81a664b, 0xc24b8b70, 0xc76c51a3, 0xd192e819, 0xd6990624, 0xf40e3585, 0x106aa070,
   0x19a4c116, 0x1e376c08, 0x2748774c, 0x34b0bcb5, 0x391c0cb3, 0x4ed8aa4a, 0x5b9cca4f, 0x682e6ff3,
   0x748f82ee, 0x78a5636f, 0x84c87814, 0x8cc70208, 0x90befffa, 0xa4506ceb, 0xbef9a3f7, 0xc67178f2]

/-- The initial hash value, first bits of the square roots of the first 8 primes. -/
def initialHash : List ℕ :=
  [0x6a09e667, 0xbb67ae85, 0x3c6ef372, 0xa54ff53a, 0x510e527f, 0x9b05688c, 0x1f83d9ab, 0x5be0cd19]

/-- The message schedule read through a window of the 16 newest words: each round
emits the oldest and appends the next. -/
def schedule : ℕ → List ℕ → List ℕ
  | 0, window => window
  | _ + 1, [] => []
  | n + 1, w0 :: rest =>
    let w1 := rest.getD 0 0
    let w9 := rest.getD 8 0
    let w14 := rest.getD 13 0
    let s0 := rotr w1 7 ^^^ rotr w1 18 ^^^ (w1 >>> 3)
    let s1 := rotr w14 17 ^^^ rotr w14 19 ^^^ (w14 >>> 10)
    w0 :: schedule n (rest ++ [(w0 + s0 + w9 + s1) % wordSize])

/-- One round; `kw` is the sum of the round constant and the schedule word. -/
def round (state : List ℕ) (kw : ℕ) : List ℕ :=
  match state with
  | [a, b, c, d, e, f, g, h] =>
    let s1 := rotr e 6 ^^^ rotr e 11 ^^^ rotr e 25
    let choice := (e &&& f) ^^^ ((wordSize - 1 - e) &&& g)
    let t1 := (h + s1 + choice + kw) % wordSize
    let s0 := rotr a 2 ^^^ rotr a 13 ^^^ rotr a 22
    let majority := (a &&& b) ^^^ (a &&& c) ^^^ (b &&& c)
    let t2 := (s0 + majority) % wordSize
    [(t1 + t2) % wordSize, a, b, c, (d + t1) % wordSize, e, f, g]
  | _ => state

def compress (hash block : List ℕ) : List ℕ :=
  let rounds := List.zipWith (· + ·) roundConstants (schedule 48 block)
  List.zipWith (fun x y => (x + y) % wordSize) hash (rounds.foldl round hash)

/-- Big-endian words of a byte string. -/
def words : List ℕ → List ℕ
  | a :: b :: c :: d :: rest => (a <<< 24 ||| b <<< 16 ||| c <<< 8 ||| d) :: words rest
  | _ => []

def blocks : ℕ → List ℕ → List (List ℕ)
  | 0, _ => []
  | n + 1, l => l.take 16 :: blocks n (l.drop 16)

def pad (message : List UInt8) : List ℕ :=
  let length := message.length
  message.map UInt8.toNat ++ 0x80 :: (List.replicate ((119 - length % 64) % 64) 0 ++
    (List.range 8).reverse.map (fun i => (length * 8 / 256 ^ i) % 256))

def sha256 (message : List UInt8) : Vector UInt8 32 :=
  let padded := pad message
  let hash := (blocks (padded.length / 64) (words padded)).foldl compress initialHash
  Vector.ofFn (fun (i : Fin 32) =>
    UInt8.ofNat (hash.getD (i.val / 4) 0 >>> (8 * (3 - i.val % 4))))

/-- The digest of the three bytes `abc`. -/
example : (sha256 [0x61, 0x62, 0x63]).toList.take 8 =
    [0xba, 0x78, 0x16, 0xbf, 0x8f, 0x01, 0xcf, 0xea] := by
  decide +kernel

end Cusco.Sha256
