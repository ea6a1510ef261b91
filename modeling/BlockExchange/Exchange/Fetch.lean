import BlockExchange.Exchange.Broadcast
import BlockExchange.Exchange.Receive

/-!
# Fetching blocks

A `Fetch` looks for each wanted block in the node's own store first. The others are registered and
advertised, and when all their outcomes are there the blocks are put together in the order in which
they were asked for. Blocks from the network are stored first if that was asked for.
-/

namespace BlockExchange

inductive FetchSlot
  | found (b : HashedBlock)
  | awaited (f : WantFuture)

def FetchSlot.isFound : FetchSlot → Bool
  | .found _ => true
  | .awaited _ => false

inductive FetchError
  | abandoned (cid : Cid)
  | store (e : StoreError)
deriving DecidableEq

structure Fetch where
  /-- One for each wanted block, in the order in which they were asked for. -/
  slots : List FetchSlot
  broadcast : Broadcast
  addToLocal : Bool

namespace Exchange

variable {σ : Type} [BlockStore σ]

/-- The block from the node's own store, if the store has it and it is what its name says. -/
def local? (x : Exchange σ) (cid : Cid) : Option HashedBlock :=
  (x.fetch cid).bind fun data => (HashedBlock.ofCid cid data).toOption

def findSlots (now : Duration) (x : Exchange σ) : List Want → Exchange σ × List FetchSlot
  | [] => (x, [])
  | w :: ws =>
    match x.local? w.cid with
    | some b =>
      let (x, slots) := findSlots now x ws
      (x, .found b :: slots)
    | none =>
      let (x, f) := x.register now w
      let (x, slots) := findSlots now x ws
      (x, .awaited f :: slots)

/-- Starts to fetch. Peers are told of all pending wants if any block has to come from them. -/
def getBlocks (x : Exchange σ) (now : Duration) (ws : List Want) (peers : List PeerId)
    (addToLocal : Bool) : Exchange σ × Fetch :=
  let (x, slots) := x.findSlots now ws
  let broadcast :=
    if slots.all FetchSlot.isFound then .start [] [] else x.sendWants now peers
  (x, { slots, broadcast, addToLocal })

def isSettled (x : Exchange σ) (f : Fetch) : Bool :=
  f.slots.all fun
    | .found _ => true
    | .awaited f => match x.wants.poll f with
      | .pending => false
      | _ => true

def gather (addToLocal : Bool) (x : Exchange σ) :
    List FetchSlot → Exchange σ × Except FetchError (List HashedBlock)
  | [] => (x, .ok [])
  | .found b :: slots =>
    let (x, r) := gather addToLocal x slots
    (x, r.map (b :: ·))
  | .awaited f :: slots =>
    match x.wants.poll f with
    | .delivered b =>
      if addToLocal then
        match BlockStore.putBlock x.store b with
        | (store, .error e) => ({ x with store }, .error (.store e))
        | (store, .ok ()) =>
          let (x, r) := gather addToLocal { x with store } slots
          (x, r.map (b :: ·))
      else
        let (x, r) := gather addToLocal x slots
        (x, r.map (b :: ·))
    | _ => (x, .error (.abandoned f.cid))

/-- The outcome of a fetch that has told everyone; none as long as a block is missing. -/
def finish? (x : Exchange σ) (f : Fetch) :
    Option (Exchange σ × Except FetchError (List HashedBlock)) :=
  if f.broadcast.isDone && x.isSettled f then some (x.gather f.addToLocal f.slots) else none

end Exchange
end BlockExchange
