import BlockExchange.Sha256
import BlockExchange.Varint

/-!
# Multihashes

A digest of at most 64 bytes together with the number of the function that made it. The binary form
is that number, the digest's length and the digest; `read?` takes one off the front of a byte string
and `ofBytes?` wants nothing after it.
-/

namespace BlockExchange

structure Multihash where
  code : UInt64
  digest : Bytes
  length_digest_le : digest.length ≤ 64
deriving DecidableEq

namespace Multihash

/-- The number of the identity function, whose digest is the content itself. -/
def identity : UInt64 := 0x00

/-- The number of SHA-256. -/
def sha2_256 : UInt64 := 0x12

def sha2_256Length : Nat := 32

def ofSha256 (data : Bytes) : Multihash where
  code := sha2_256
  digest := sha256 data
  length_digest_le := by simp

def toBytes (h : Multihash) : Bytes :=
  Varint.encode h.code.toNat ++ Varint.encode h.digest.length ++ h.digest

/-- The multihash at the front of a byte string and what follows it. -/
def read? (b : Bytes) : Option (Multihash × Bytes) := do
  let (code, b) ← (Varint.readMinimal b).toOption
  let (size, b) ← (Varint.readMinimal b).toOption
  let (digest, b) ← Bytes.splitAt? size.toNat b
  if h : digest.length ≤ 64 then some (⟨code, digest, h⟩, b) else none

/-- Reads a byte string that is one multihash and no more. -/
def ofBytes? (b : Bytes) : Option Multihash :=
  match read? b with
  | some (h, []) => some h
  | _ => none

end Multihash
end BlockExchange
