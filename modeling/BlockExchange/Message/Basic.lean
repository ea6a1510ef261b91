import BlockExchange.HashedBlock
import BlockExchange.Want

/-!
# Messages

What peers send each other. A message carries a wantlist of entries, block records, presences and a
trace id that ties replies to the request that caused them. The records keep bytes and numbers as
they were sent: names that are no identifiers and numbers that stand for no kind are found out only
when a record is read as a want or a block.
-/

namespace BlockExchange

inductive WantType
  | block
  | have
deriving DecidableEq, Repr

namespace WantType

def toNumber : WantType → Int32
  | .block => 0
  | .have => 1

/-- A number that stands for no want type counts as `block`. -/
def ofNumber (n : Int32) : WantType :=
  if n = 1 then .have else .block

def name : WantType → String
  | .block => "Block"
  | .have => "Have"

end WantType

inductive PresenceType
  | have
  | dontHave
deriving DecidableEq, Repr

namespace PresenceType

def toNumber : PresenceType → Int32
  | .have => 0
  | .dontHave => 1

/-- A number that stands for no presence type counts as `have`. -/
def ofNumber (n : Int32) : PresenceType :=
  if n = 1 then .dontHave else .have

def name : PresenceType → String
  | .have => "Have"
  | .dontHave => "DontHave"

end PresenceType

structure Entry where
  block : Bytes := []
  priority : Int32 := 0
  cancel : Bool := false
  wantType : Int32 := 0
  sendDontHave : Bool := false
  auth : Bytes := []
deriving DecidableEq, BEq

structure Wantlist where
  entries : List Entry := []
  full : Bool := false
deriving DecidableEq, BEq

/-- A block's content behind the prefix of its identifier. -/
structure BlockRecord where
  cidPrefix : Bytes := []
  data : Bytes := []
  auth : Bytes := []
deriving DecidableEq, BEq

/-- Word on whether the sender has a block. -/
structure Presence where
  cid : Bytes := []
  type : Int32 := 0
  auth : Bytes := []
deriving DecidableEq, BEq

structure Message where
  wantlist : Option Wantlist := none
  payload : List BlockRecord := []
  presences : List Presence := []
  pendingBytes : Int32 := 0
  traceId : String := ""
deriving DecidableEq, BEq

namespace Entry

def want (w : Want) (type : WantType) (sendDontHave : Bool) : Entry where
  block := w.cid.toBytes
  priority := 1
  wantType := type.toNumber
  sendDontHave := sendDontHave
  auth := w.authBytes

/-- Takes back an earlier entry for the same want. -/
def cancelling (w : Want) : Entry :=
  { want w .block false with cancel := true }

def kind (e : Entry) : WantType :=
  .ofNumber e.wantType

def toWant (e : Entry) : Except CidError Want := do
  return .ofWire (← Cid.ofBytes e.block) e.auth

end Entry

namespace Presence

def ofWant (w : Want) (type : PresenceType) : Presence where
  cid := w.cid.toBytes
  type := type.toNumber
  auth := w.authBytes

def haveBlock (w : Want) : Presence := ofWant w .have

def dontHaveBlock (w : Want) : Presence := ofWant w .dontHave

def kind (p : Presence) : PresenceType :=
  .ofNumber p.type

def toWant (p : Presence) : Except CidError Want := do
  return .ofWire (← Cid.ofBytes p.cid) p.auth

end Presence

namespace BlockRecord

/-- The record of content that the sender trusts to match `cid`. -/
def ofParts (cid : Cid) (data : Bytes) (auth : Option AuthToken) : BlockRecord where
  cidPrefix := (Prefix.ofCid cid).toBytes
  data := data
  auth := match auth with
    | none => []
    | some t => t.bytes

def ofBlock (b : HashedBlock) (auth : Option AuthToken) : BlockRecord :=
  ofParts b.cid b.data auth

/-- The verified block that the content makes under the prefix. -/
def toHashed (b : BlockRecord) : Except BlockError HashedBlock :=
  match Prefix.ofBytes b.cidPrefix with
  | .error e => .error (.invalidPrefix e)
  | .ok p => HashedBlock.ofPrefix p b.data

def token (b : BlockRecord) : Option AuthToken :=
  AuthToken.ofWire b.auth

end BlockRecord

namespace Message

def traced (traceId : String) : Message where
  traceId := traceId

def entries (m : Message) : List Entry :=
  match m.wantlist with
  | none => []
  | some w => w.entries

def isEmpty (m : Message) : Bool :=
  m.payload.isEmpty && m.presences.isEmpty && m.entries.isEmpty

end Message
end BlockExchange
