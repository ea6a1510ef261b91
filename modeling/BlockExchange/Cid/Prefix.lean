import BlockExchange.Cid.Basic
import BlockExchange.Text.Hex
import BlockExchange.Total

/-!
# Identifier prefixes

The leading fields of a content identifier: all but the digest. A prefix travels beside the content,
and the receiver computes the digest from the bytes it got (`Prefix.toCid`), so that a block can
only name what it carries. The binary form is four numbers, in any spelling and with nothing after
them.
-/

namespace BlockExchange

structure Prefix where
  version : CidVersion
  codec : UInt64
  hashCode : UInt64
  hashLength : UInt64
deriving DecidableEq, Repr

/-- Why bytes are no prefix, or content has no identifier under a prefix. -/
inductive PrefixError
  | malformedVarint
  | trailingBytes
  | unsupportedHash (code : UInt64)
  | digestLength (expected : UInt64)
  | cid (e : CidError)
deriving DecidableEq, Repr

def PrefixError.message : PrefixError → String
  | .malformedVarint => "malformed cid prefix: failed to decode Protobuf message: invalid varint"
  | .trailingBytes => "trailing bytes after cid prefix"
  | .unsupportedHash code => "unsupported hash function 0x" ++ Hex.ofNat code.toNat
  | .digestLength expected =>
    "digest length 32 does not match the advertised " ++ toString expected.toNat
  | .cid e => e.message

namespace Prefix

def ofCid (c : Cid) : Prefix where
  version := c.version
  codec := c.codec
  hashCode := c.hash.code
  hashLength := UInt64.ofNat c.hash.digest.length

/-- The four numbers of the binary form. -/
def fields (p : Prefix) : List Nat :=
  [p.version.toNat, p.codec.toNat, p.hashCode.toNat, p.hashLength.toNat]

def toBytes (p : Prefix) : Bytes :=
  p.fields.flatMap Varint.encode

def encodedLength (p : Prefix) : Nat :=
  total Varint.length p.fields

theorem length_toBytes (p : Prefix) : p.toBytes.length = p.encodedLength := by
  rw [toBytes, length_flatMap_total]
  simp [encodedLength]

def readField (b : Bytes) : Except PrefixError (Nat × Bytes) :=
  match Varint.read? b with
  | some r => .ok r
  | none => .error .malformedVarint

/-- Reads a prefix. An unknown version is reported before anything wrong further on. -/
def ofBytes (b : Bytes) : Except PrefixError Prefix := do
  let (version, b) ← readField b
  let some version := CidVersion.ofNat? version | .error (.cid .unknownVersion)
  let (codec, b) ← readField b
  let (hashCode, b) ← readField b
  let (hashLength, b) ← readField b
  if b.isEmpty then
    return ⟨version, .ofNat codec, .ofNat hashCode, .ofNat hashLength⟩
  else .error .trailingBytes

def toCid (p : Prefix) (data : Bytes) : Except PrefixError Cid :=
  if p.hashCode ≠ Multihash.sha2_256 then .error (.unsupportedHash p.hashCode)
  else if p.hashLength ≠ UInt64.ofNat Multihash.sha2_256Length then
    .error (.digestLength p.hashLength)
  else match Cid.make p.version p.codec (.ofSha256 data) with
    | .ok c => .ok c
    | .error e => .error (.cid e)

theorem hash_of_toCid {p : Prefix} {data : Bytes} {c : Cid} (h : p.toCid data = .ok c) :
    c.hash = .ofSha256 data := by
  unfold toCid at h
  split at h
  · cases h
  · split at h
    · cases h
    · split at h
      · rename_i hm
        cases h
        exact (Cid.fields_of_make hm).2.2
      · cases h

end Prefix
end BlockExchange
