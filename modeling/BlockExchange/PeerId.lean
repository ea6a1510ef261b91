import BlockExchange.Cid.Basic

/-!
# Peer names

A peer is named by a multihash of its public key: a SHA-256 hash of any length, or the key itself if
it has at most 42 bytes. Authorisers know a requester by the content identifier `PeerId.cid` of that
key.
-/

namespace BlockExchange

namespace PeerId

/-- The longest key that is its own name. -/
def maxInlineKeyLength : Nat := 42

/-- The multihashes that name peers. -/
def Admissible (h : Multihash) : Prop :=
  h.code = Multihash.sha2_256 ∨ h.code = Multihash.identity ∧ h.digest.length ≤ maxInlineKeyLength

instance (h : Multihash) : Decidable (Admissible h) :=
  inferInstanceAs (Decidable (_ ∨ _))

inductive Error
  | invalidMultihash
  | unsupportedCode (code : UInt64)
deriving DecidableEq, Repr

def Error.message : Error → String
  | .invalidMultihash => "invalid multihash"
  | .unsupportedCode code => "unsupported multihash code '" ++ toString code.toNat ++ "'"

end PeerId

structure PeerId where
  hash : Multihash
  admissible : PeerId.Admissible hash
deriving DecidableEq

namespace PeerId

def toBytes (p : PeerId) : Bytes :=
  p.hash.toBytes

def ofBytes (b : Bytes) : Except Error PeerId :=
  match Multihash.ofBytes? b with
  | none => .error .invalidMultihash
  | some h => if ha : Admissible h then .ok ⟨h, ha⟩ else .error (.unsupportedCode h.code)

def text (p : PeerId) : String :=
  Base58.encode p.toBytes

instance : ToString PeerId := ⟨text⟩

/-- The peer's key as a content identifier, the form in which authorisers see a requester. -/
def cid (p : PeerId) : Except CidError Cid :=
  match Multihash.ofBytes? p.toBytes with
  | some h => .ok (Cid.v1 Codec.peerKey h)
  | none => .error .malformedHash

end PeerId
end BlockExchange
