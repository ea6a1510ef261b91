import BlockExchange.Bytes

/-!
# SHA-256

The hash function of FIPS 180-4. A message is padded to whole blocks of 64 bytes (`paddingOf`), each
block is spread over 64 words (`schedule`) and folded into a state of eight words (`compress`), and
the digest is the final state, most significant byte first. A digest has 32 bytes (`length_sha256`).
-/

namespace BlockExchange.Sha256

/-- The eight words carried from block to block. -/
structure State where
  a : UInt32
  b : UInt32
  c : UInt32
  d : UInt32
  e : UInt32
  f : UInt32
  g : UInt32
  h : UInt32
deriving DecidableEq

/-- The first 32 bits of the fractional parts of the square roots of the first eight primes. -/
def State.initial : State where
  a := 0x6a09e667
  b := 0xbb67ae85
  c := 0x3c6ef372
  d := 0xa54ff53a
  e := 0x510e527f
  f := 0x9b05688c
  g := 0x1f83d9ab
  h := 0x5be0cd19

/-- The first 32 bits of the fractional parts of the cube roots of the first 64 primes. -/
def roundConstants : Array UInt32 := #[
  0x428a2f98, 0x71374491, 0xb5c0fbcf, 0xe9b5dba5, 0x3956c25b, 0x59f111f1, 0x923f82a4, 0xab1c5ed5,
  0xd807aa98, 0x12835b01, 0x243185be, 0x550c7dc3, 0x72be5d74, 0x80deb1fe, 0x9bdc06a7, 0xc19bf174,
  0xe49b69c1, 0xefbe4786, 0x0fc19dc6, 0x240ca1cc, 0x2de92c6f, 0x4a7484aa, 0x5cb0a9dc, 0x76f988da,
  0x983e5152, 0xa831c66d, 0xb00327c8, 0xbf597fc7, 0xc6e00bf3, 0xd5a79147, 0x06ca6351, 0x14292967,
  0x27b70a85, 0x2e1b2138, 0x4d2c6dfc, 0x53380d13, 0x650a7354, 0x766a0abb, 0x81c2c92e, 0x92722c85,
  0xa2bfe8a1, 0xa81a664b, 0xc24b8b70, 0xc76c51a3, 0xd192e819, 0xd6990624, 0xf40e3585, 0x106aa070,
  0x19a4c116, 0x1e376c08, 0x2748774c, 0x34b0bcb5, 0x391c0cb3, 0x4ed8aa4a, 0x5b9cca4f, 0x682e6ff3,
  0x748f82ee, 0x78a5636f, 0x84c87814, 0x8cc70208, 0x90befffa, 0xa4506ceb, 0xbef9a3f7, 0xc67178f2]

@[inline] def rotateRight (x n : UInt32) : UInt32 :=
  x >>> n ||| x <<< (32 - n)

@[inline] def smallSigma0 (x : UInt32) : UInt32 :=
  rotateRight x 7 ^^^ rotateRight x 18 ^^^ x >>> 3

@[inline] def smallSigma1 (x : UInt32) : UInt32 :=
  rotateRight x 17 ^^^ rotateRight x 19 ^^^ x >>> 10

@[inline] def bigSigma0 (x : UInt32) : UInt32 :=
  rotateRight x 2 ^^^ rotateRight x 13 ^^^ rotateRight x 22

@[inline] def bigSigma1 (x : UInt32) : UInt32 :=
  rotateRight x 6 ^^^ rotateRight x 11 ^^^ rotateRight x 25

/-- The block's own words, four bytes each. -/
def words (acc : Array UInt32) : Bytes → Array UInt32
  | a :: b :: c :: d :: rest =>
    words (acc.push
      (a.toUInt32 <<< 24 ||| b.toUInt32 <<< 16 ||| c.toUInt32 <<< 8 ||| d.toUInt32)) rest
  | _ => acc

/-- Appends `count` words, each made from four of the sixteen before it. -/
def extend : (count : Nat) → Array UInt32 → Array UInt32
  | 0, w => w
  | count + 1, w =>
    let i := w.size
    extend count (w.push
      (smallSigma1 w[i - 2]! + w[i - 7]! + smallSigma0 w[i - 15]! + w[i - 16]!))

def schedule (block : Bytes) : Array UInt32 :=
  extend 48 (words (Array.emptyWithCapacity 64) block)

@[inline] def round (s : State) (k w : UInt32) : State :=
  let t₁ := s.h + bigSigma1 s.e + (s.e &&& s.f ^^^ (s.e ^^^ 0xffffffff) &&& s.g) + k + w
  let t₂ := bigSigma0 s.a + (s.a &&& s.b ^^^ s.a &&& s.c ^^^ s.b &&& s.c)
  ⟨t₁ + t₂, s.a, s.b, s.c, s.d + t₁, s.e, s.f, s.g⟩

/-- The rounds from the one with index `i` on. -/
def rounds (w : Array UInt32) (i : Nat) : (count : Nat) → State → State
  | 0, s => s
  | count + 1, s => rounds w (i + 1) count (round s roundConstants[i]! w[i]!)

def compress (s : State) (block : Bytes) : State :=
  let t := rounds (schedule block) 0 64 s
  ⟨s.a + t.a, s.b + t.b, s.c + t.c, s.d + t.d, s.e + t.e, s.f + t.f, s.g + t.g, s.h + t.h⟩

/-- What is put after a message of `size` bytes: a one bit, zeros, and its length in bits. -/
def paddingOf (size : Nat) : Bytes :=
  0x80 :: List.replicate ((119 - size % 64) % 64) 0 ++ Bytes.ofNat 8 (size * 8)

/-- Folds `count` blocks of 64 bytes into the state. -/
def absorb : (count : Nat) → State → Bytes → State
  | 0, s, _ => s
  | count + 1, s, b =>
    let (block, rest) := b.splitAt 64
    absorb count (compress s block) rest

def State.digest (s : State) : Bytes :=
  [s.a, s.b, s.c, s.d, s.e, s.f, s.g, s.h].flatMap fun x => Bytes.ofNat 4 x.toNat

end Sha256

def sha256 (data : Bytes) : Bytes :=
  let padded := data ++ Sha256.paddingOf data.length
  (Sha256.absorb (padded.length / 64) .initial padded).digest

@[simp] theorem length_sha256 (data : Bytes) : (sha256 data).length = 32 := by
  simp [sha256, Sha256.State.digest]

end BlockExchange
