import BlockExchange.Cid.Basic
import BlockExchange.Text.Hex

/-!
# Wants

A want is interest in one block, presented with an optional token. Wants for the same block under
different tokens are different wants. On the wire an empty token is no token (`AuthToken.ofWire`).
-/

namespace BlockExchange

/-- An opaque capability, checked by the authoriser of the peer that serves the block. -/
structure AuthToken where
  bytes : Bytes
deriving DecidableEq

namespace AuthToken

def ofWire (b : Bytes) : Option AuthToken :=
  if b.isEmpty then none else some ⟨b⟩

def text (t : AuthToken) : String :=
  Hex.encode t.bytes

instance : ToString AuthToken := ⟨text⟩

def ofText (s : String) : Except Hex.Error AuthToken :=
  (Hex.decode s).map AuthToken.mk

def summary (t : AuthToken) : String :=
  "AuthToken(\"" ++ t.text ++ "\")"

end AuthToken

structure Want where
  cid : Cid
  auth : Option AuthToken := none
deriving DecidableEq

namespace Want

def authBytes (w : Want) : Bytes :=
  match w.auth with
  | none => []
  | some t => t.bytes

def ofWire (cid : Cid) (auth : Bytes) : Want :=
  ⟨cid, AuthToken.ofWire auth⟩

def text (w : Want) : String :=
  match w.auth with
  | none => w.cid.text
  | some t => w.cid.text ++ "?auth=" ++ t.text

instance : ToString Want := ⟨text⟩

/-- The order in which wants are listed: by identifier, then no token before any token, then by
token, all bytewise. -/
protected def compare (a b : Want) : Ordering :=
  (a.cid.toBytes.compare b.cid.toBytes).then <|
    match a.auth, b.auth with
    | none, none => .eq
    | none, some _ => .lt
    | some _, none => .gt
    | some s, some t => s.bytes.compare t.bytes

end Want
end BlockExchange
