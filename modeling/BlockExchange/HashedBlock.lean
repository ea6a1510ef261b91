import BlockExchange.Cid.Prefix

/-!
# Verified blocks

A `HashedBlock` is content together with an identifier whose digest is the content's own; the type
holds the evidence. It is made from a claimed identifier (`ofCid`), from a prefix that travelled
beside the content (`ofPrefix`), or as a raw block (`raw`).
-/

namespace BlockExchange

structure HashedBlock where
  cid : Cid
  data : Bytes
  names : cid.Names data

inductive BlockError
  | hashMismatch (cid : Cid)
  | invalidPrefix (e : PrefixError)
deriving DecidableEq

def BlockError.message : BlockError → String
  | .hashMismatch cid => "block bytes do not hash to " ++ cid.text
  | .invalidPrefix e => e.message

namespace HashedBlock

instance : BEq HashedBlock where
  beq a b := decide (a.cid = b.cid) && a.data == b.data

def ofCid (cid : Cid) (data : Bytes) : Except BlockError HashedBlock :=
  if h : cid.Names data then .ok ⟨cid, data, h⟩ else .error (.hashMismatch cid)

def ofPrefix (p : Prefix) (data : Bytes) : Except BlockError HashedBlock :=
  match h : p.toCid data with
  | .error e => .error (.invalidPrefix e)
  | .ok cid =>
    have hh := Prefix.hash_of_toCid h
    .ok ⟨cid, data, by simp [Cid.Names, hh, Multihash.ofSha256]⟩

def raw (data : Bytes) : HashedBlock where
  cid := Cid.raw data
  data := data
  names := Cid.names_ofData _ _

def summary (b : HashedBlock) : String :=
  "HashedBlock \x7b cid: \"" ++ b.cid.text ++ "\", size: " ++ toString b.data.length ++ " \x7d"

end HashedBlock
end BlockExchange
