import BlockExchange.Batch
import BlockExchange.Exchange.Basic

/-!
# Answering a message

An inbound message asks and tells. Its entries are read as requests (`requests`), each served from
the store as it stands (`serve`). Then its blocks and presences are taken in (`absorb`). The replies
go out in messages under the trace id of the inbound one (`receive`). A store or an authoriser that
fails counts as one that has nothing and allows nothing.
-/

namespace BlockExchange

/-- An entry that was not taken back in its own wantlist. -/
structure Request where
  want : Want
  type : WantType
  sendDontHave : Bool
deriving DecidableEq

/-- Adds an entry in front of a wantlist's requests, given the wants that the rest takes back. -/
def Request.collect (e : Entry) (r : List Request × List Want) : List Request × List Want :=
  match e.toWant with
  | .error _ => r
  | .ok w =>
    if e.cancel then (r.1, w :: r.2)
    else if w ∈ r.2 then r
    else (⟨w, e.kind, e.sendDontHave⟩ :: r.1, r.2)

/-- The requests of a wantlist, in order. An entry that names nothing is passed over. -/
def requests (entries : List Entry) : List Request :=
  (entries.foldr Request.collect ([], [])).1

inductive Reply
  | presence (p : Presence)
  | block (b : BlockRecord)

namespace Reply

def presence? : Reply → Option Presence
  | .presence p => some p
  | .block _ => none

def block? : Reply → Option BlockRecord
  | .presence _ => none
  | .block b => some b

end Reply

namespace Exchange

variable {σ : Type}

def fitsFrame (traceId : String) (b : BlockRecord) : Bool :=
  Message.baseLength traceId + b.fieldLength ≤ maxFrameSize

section Serve

variable [BlockStore σ]

def contains (x : Exchange σ) (cid : Cid) : Bool :=
  match BlockStore.has x.store cid with
  | .ok b => b
  | .error _ => false

def fetch (x : Exchange σ) (cid : Cid) : Option Bytes :=
  match BlockStore.get x.store cid with
  | .ok data => data
  | .error _ => none

def authorises (x : Exchange σ) (requester : Cid) (w : Want) : Bool :=
  match x.authoriser.allowRead w.cid requester w.auth with
  | .ok b => b
  | .error _ => false

def content? (x : Exchange σ) (requester : Cid) (r : Request) : Option Bytes :=
  if r.type = .block && x.contains r.want.cid && x.authorises requester r.want then
    x.fetch r.want.cid
  else none

/-- The word that the block is not here, if it was asked for. -/
def dontHave? (r : Request) : Option Reply :=
  if r.sendDontHave then some (.presence (.dontHaveBlock r.want)) else none

/-- The reply to one request. A block that fits no frame is not here. -/
def serve (x : Exchange σ) (requester : Cid) (traceId : String) (r : Request) : Option Reply :=
  match x.content? requester r with
  | some data =>
    let b := BlockRecord.ofParts r.want.cid data r.want.auth
    if fitsFrame traceId b then some (.block b) else dontHave? r
  | none =>
    if r.type = .have && x.contains r.want.cid then some (.presence (.haveBlock r.want))
    else dontHave? r

end Serve

/-- Takes in one block: it completes the wants for its name, or nobody wants it, or it is refused. -/
def absorbBlock (x : Exchange σ) (b : BlockRecord) : Exchange σ :=
  match b.toHashed with
  | .error _ => { x with journal := x.journal.blockRejected }
  | .ok h =>
    match x.wants.resolve h with
    | (wants, true) => { x with wants, journal := x.journal.blockReceived }
    | (_, false) => { x with journal := x.journal.unwantedBlock }

/-- Takes in one presence: only word that a block is there, and only if it is wanted. -/
def absorbPresence (peer : PeerId) (x : Exchange σ) (p : Presence) : Exchange σ :=
  match p.kind, p.toWant with
  | .have, .ok w =>
    if x.wants.isPending w then { x with haves := x.haves.record w peer } else x
  | _, _ => x

/-- Takes in what a message tells, blocks before presences. -/
def absorb (x : Exchange σ) (peer : PeerId) (m : Message) : Exchange σ :=
  m.presences.foldl (absorbPresence peer) (m.payload.foldl absorbBlock x)

/-- The replies to a message, in the order of its requests. -/
def replies [BlockStore σ] (x : Exchange σ) (requester : Cid) (m : Message) : List Reply :=
  (requests m.entries).filterMap (x.serve requester m.traceId)

def packReplies (x : Exchange σ) (traceId : String) (rs : List Reply) : List Message :=
  pack x.maxMessageSize traceId [] (rs.filterMap Reply.presence?) (rs.filterMap Reply.block?)

/-- Takes in a message from a peer and tells the messages that answer it. -/
def receive [BlockStore σ] (x : Exchange σ) (peer : PeerId) (m : Message) :
    Except CidError (Exchange σ × List Message) := do
  let requester ← peer.cid
  return (x.absorb peer m, x.packReplies m.traceId (x.replies requester m))

end Exchange
end BlockExchange
