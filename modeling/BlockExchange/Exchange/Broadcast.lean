import BlockExchange.Batch
import BlockExchange.Delivery
import BlockExchange.Exchange.Basic

/-!
# Telling peers what is wanted

A `Broadcast` goes from peer to peer and puts the messages of a wantlist into each one's outbox,
waiting where an outbox is full. A peer that is not connected is passed over, and one whose outbox
is closed is not counted.
-/

namespace BlockExchange

structure Broadcast where
  entries : List Entry
  targets : List PeerId
  /-- The outbox that has no room, and the messages that wait for it. -/
  waiting : Option (OutboxId × List Message) := none
  sent : Nat := 0

namespace Broadcast

/-- A broadcast of no entries tells nobody. -/
def start (entries : List Entry) (targets : List PeerId) : Broadcast where
  entries := entries
  targets := if entries.isEmpty then [] else targets

def isDone (b : Broadcast) : Bool :=
  b.targets.isEmpty && b.waiting.isNone

def holds (b : Broadcast) (o : OutboxId) : Bool :=
  b.waiting.any (·.1 == o)

/-- Hands the messages to an outbox, as far as it has room. -/
def tell (task : TaskId) (b : Broadcast) (boxes : Outboxes) (o : OutboxId) (ms : List Message) :
    Broadcast × Outboxes :=
  match boxes[o]? with
  | none => ({ b with waiting := none }, boxes)
  | some box =>
    let (box, delivery) := deliver (Outbox.send task) box ms
    (match delivery with
      | .done => { b with waiting := none, sent := b.sent + 1 }
      | .waiting rest => { b with waiting := some (o, rest) }
      | .failed _ => { b with waiting := none },
    boxes.set o box)

/-- The next thing that a task does for its broadcast; none if it is done or has to wait. -/
def step? {σ : Type} (task : TaskId) (b : Broadcast) (x : Exchange σ) (boxes : Outboxes) :
    Option (Broadcast × Exchange σ × Outboxes) :=
  match b.waiting with
  | some (o, ms) =>
    let (next, boxes) := b.tell task boxes o ms
    if next.waiting.any (fun w => w.2.length == ms.length) then none else some (next, x, boxes)
  | none =>
    match b.targets with
    | [] => none
    | p :: targets =>
      let b := { b with targets }
      match x.peers.outbox? p with
      | none => some (b, x, boxes)
      | some o =>
        let (x, traceId) := x.newTraceId
        let (b, boxes) := b.tell task boxes o (pack x.maxMessageSize traceId b.entries [] [])
        some (b, x, boxes)

end Broadcast

namespace Exchange

variable {σ : Type}

/-- The entries that ask for all pending wants; a single peer hears of the recent ones only. -/
def wantEntries (x : Exchange σ) (now : Duration) (peers : Nat) : List Entry :=
  (x.wants.list now peers).map fun w => .want w .block true

def sendWants (x : Exchange σ) (now : Duration) (peers : List PeerId) : Broadcast :=
  let targets := x.targets peers
  .start (x.wantEntries now targets.length) targets

def wantBlock (x : Exchange σ) (now : Duration) (w : Want) (peers : List PeerId) :
    Exchange σ × WantFuture × Broadcast :=
  let (x, f) := x.register now w
  (x, f, .start [.want w .block true] (x.targets peers))

end Exchange
end BlockExchange
