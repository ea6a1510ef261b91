import BlockExchange.Multihash
import BlockExchange.Text.Base32
import BlockExchange.Text.Base58

/-!
# Content identifiers

A `Cid` names content by a version, the number of the content's codec and a multihash of its bytes.
Version 0 leaves no choice: its codec is `dagPb` and its hash is SHA-256, which the type records. A
version-0 identifier is written as its bare multihash, a version-1 identifier field by field, and
`read?` accepts both, ignoring what follows.
-/

namespace BlockExchange

namespace Codec

def raw : UInt64 := 0x55

/-- The only codec a version-0 identifier can carry. -/
def dagPb : UInt64 := 0x70

/-- The codec of a peer's public key. -/
def peerKey : UInt64 := 0x72

end Codec

inductive CidVersion
  | v0
  | v1
deriving DecidableEq, Repr

def CidVersion.toNat : CidVersion → Nat
  | .v0 => 0
  | .v1 => 1

def CidVersion.ofNat? : Nat → Option CidVersion
  | 0 => some .v0
  | 1 => some .v1
  | _ => none

@[simp] theorem CidVersion.ofNat?_toNat (v : CidVersion) : ofNat? v.toNat = some v := by
  cases v <;> rfl

inductive CidError
  | unknownVersion
  | versionZeroCodec
  | versionZeroHash
  | versionZeroWrapped
  | malformedHash
  | malformedVarint
  | truncated
  | shortDigest
deriving DecidableEq, Repr

def CidError.message : CidError → String
  | .unknownVersion => "Unrecognized CID version"
  | .versionZeroCodec => "CIDv0 requires a DagPB codec"
  | .versionZeroHash => "CIDv0 requires a Sha-256 multihash"
  | .versionZeroWrapped => "CIDv0 cannot be specified in CIDv1 format"
  | .malformedHash => "Failed to parse multihash"
  | .malformedVarint => "Failed to decode unsigned varint format"
  | .truncated => "unexpected end of file"
  | .shortDigest => "failed to fill whole buffer"

/-- What version 0 asks of an identifier. -/
structure Cid.VersionZero (codec : UInt64) (hash : Multihash) : Prop where
  codec_eq : codec = Codec.dagPb
  code_eq : hash.code = Multihash.sha2_256
  length_digest : hash.digest.length = Multihash.sha2_256Length

structure Cid where
  version : CidVersion
  codec : UInt64
  hash : Multihash
  versionZero : version = .v0 → Cid.VersionZero codec hash
deriving DecidableEq

namespace Cid

def v1 (codec : UInt64) (hash : Multihash) : Cid where
  version := .v1
  codec := codec
  hash := hash
  versionZero := nofun

/-- An identifier of the given version, if that version can carry the codec and the hash. -/
def make (version : CidVersion) (codec : UInt64) (hash : Multihash) : Except CidError Cid :=
  match version with
  | .v1 => .ok (v1 codec hash)
  | .v0 =>
    if hc : codec = Codec.dagPb then
      if hh : hash.code = Multihash.sha2_256 ∧ hash.digest.length = Multihash.sha2_256Length then
        .ok ⟨.v0, codec, hash, fun _ => ⟨hc, hh.1, hh.2⟩⟩
      else .error .versionZeroHash
    else .error .versionZeroCodec

theorem fields_of_make {version : CidVersion} {codec : UInt64} {hash : Multihash} {c : Cid}
    (h : make version codec hash = .ok c) :
    c.version = version ∧ c.codec = codec ∧ c.hash = hash := by
  unfold make at h
  split at h
  · cases h; exact ⟨rfl, rfl, rfl⟩
  · split at h
    · split at h
      · cases h; exact ⟨rfl, rfl, rfl⟩
      · cases h
    · cases h

def ofData (codec : UInt64) (data : Bytes) : Cid :=
  v1 codec (.ofSha256 data)

def raw (data : Bytes) : Cid :=
  ofData Codec.raw data

/-- Whether `data` hashes to the digest; never so for a hash function other than SHA-256. -/
def Names (c : Cid) (data : Bytes) : Prop :=
  c.hash.code = Multihash.sha2_256 ∧ c.hash.digest = sha256 data

instance (c : Cid) (data : Bytes) : Decidable (c.Names data) :=
  inferInstanceAs (Decidable (_ ∧ _))

theorem names_ofData (codec : UInt64) (data : Bytes) : (ofData codec data).Names data :=
  ⟨rfl, rfl⟩

def toBytes (c : Cid) : Bytes :=
  match c.version with
  | .v0 => c.hash.toBytes
  | .v1 => Varint.encode c.version.toNat ++ Varint.encode c.codec.toNat ++ c.hash.toBytes

/-- Version 0 is written in base 58, version 1 in base 32 behind its mark. -/
def text (c : Cid) : String :=
  match c.version with
  | .v0 => Base58.encode c.toBytes
  | .v1 => "b" ++ Base32.encode c.toBytes

instance : ToString Cid := ⟨text⟩

/-- Reads one of the two numbers before the hash. -/
def readField (b : Bytes) : Except CidError (UInt64 × Bytes) :=
  match Varint.readMinimal b with
  | .ok r => .ok r
  | .error .truncated => .error .truncated
  | .error .malformed => .error .malformedVarint

/-- The version-0 identifier whose SHA-256 digest stands at the front. -/
def readVersionZero (b : Bytes) : Except CidError (Cid × Bytes) :=
  match h : Bytes.splitAt? Multihash.sha2_256Length b with
  | none => .error .shortDigest
  | some (digest, rest) =>
    have hd : digest.length = Multihash.sha2_256Length := (Bytes.splitAt?_eq_some_iff.mp h).1
    have hle : digest.length ≤ 64 := by rw [hd]; decide
    .ok (⟨.v0, Codec.dagPb, ⟨Multihash.sha2_256, digest, hle⟩, fun _ => ⟨rfl, rfl, hd⟩⟩, rest)

/-- The identifier at the front of a byte string and what follows it. The two numbers `12 20` at the
front announce version 0. -/
def read (b : Bytes) : Except CidError (Cid × Bytes) := do
  let (version, b) ← readField b
  let (codec, b) ← readField b
  if version = Multihash.sha2_256 ∧ codec = UInt64.ofNat Multihash.sha2_256Length then
    readVersionZero b
  else
    match CidVersion.ofNat? version.toNat with
    | none => .error .unknownVersion
    | some .v0 => .error .versionZeroWrapped
    | some .v1 =>
      match Multihash.read? b with
      | none => .error .malformedHash
      | some (hash, rest) => .ok (v1 codec hash, rest)

/-- The identifier at the front of a byte string, whatever follows it. -/
def ofBytes (b : Bytes) : Except CidError Cid := do
  let (c, _) ← read b
  return c

end Cid
end BlockExchange
