import BlockExchange.Exchange.Drive
import BlockExchange.Exchange.Fetch
import BlockExchange.FarEnd
import BlockExchange.Store.AnyStore

/-!
# Networks of nodes

Nodes, the tasks that run on them, the outboxes between tasks and the pipes between nodes. One task
moves at a time (`step?`). `run` lets the tasks move, in the order in which they were started, until
none can.
-/

namespace BlockExchange

abbrev NodeId := Nat

abbrev LinkId := Nat

structure Node where
  exchange : Exchange AnyStore
  /-- Whether only its tasks still hold on to it. -/
  released : Bool := false

/-- One end of a connection: the first end, or the other one. -/
structure Line where
  link : LinkId
  flipped : Bool

inductive Activity
  | wanting (future : WantFuture) (b : Broadcast)
  | telling (b : Broadcast)
  | fetching (f : Fetch)
  | driving (d : Driver) (line : Line)

namespace Activity

def broadcast? : Activity → Option Broadcast
  | .wanting _ b => some b
  | .telling b => some b
  | .fetching f => some f.broadcast
  | .driving _ _ => none

def withBroadcast (b : Broadcast) : Activity → Activity
  | .wanting future _ => .wanting future b
  | .telling _ => .telling b
  | .fetching f => .fetching { f with broadcast := b }
  | a => a

end Activity

inductive ReceiveError
  | requester (e : CidError)
  | send (e : SendError)
deriving DecidableEq

inductive TaskValue
  | registered (future : WantFuture)
  | sent (peers : Nat)
  | fetched (r : Except FetchError (List HashedBlock))
  | answered (replies : List Message) (r : Except ReceiveError Unit)
  | drove (r : Except DriveError Unit)

inductive TaskState
  | running (a : Activity)
  | finished (v : TaskValue)
  | cancelled

structure Task where
  node : NodeId
  state : TaskState

namespace Task

def isRunningOn (t : Task) (node : NodeId) : Bool :=
  t.node == node && match t.state with
    | .running _ => true
    | _ => false

/-- Whether it is in the middle of filling this outbox. -/
def holds (t : Task) (o : OutboxId) : Bool :=
  match t.state with
  | .running a => a.broadcast?.any (·.holds o)
  | _ => false

end Task

/-- A far end that is played by hand, and its connection. -/
structure Remote where
  link : LinkId
  far : FarEnd := {}

structure Network where
  now : Duration := ⟨0⟩
  calendar : Timestamp
  nodes : List Node
  tasks : List Task := []
  outboxes : Outboxes := []
  /-- The pipes of each connection, as its first end sees them. -/
  links : List Duplex := []
  remotes : List Remote := []
  /-- The future of the first want that was announced since someone last took it. -/
  handed : Option (NodeId × WantFuture) := none

namespace Network

/-! ### Parts -/

def setExchange (n : Network) (id : NodeId) (x : Exchange AnyStore) : Network :=
  { n with nodes := n.nodes.modify id fun node => { node with exchange := x } }

def setState (n : Network) (id : TaskId) (s : TaskState) : Network :=
  { n with tasks := n.tasks.modify id fun t => { t with state := s } }

/-- The pipes as one end of a connection sees them. -/
def io? (n : Network) (l : Line) : Option Duplex :=
  n.links[l.link]?.map fun d => if l.flipped then d.flip else d

def setIo (n : Network) (l : Line) (d : Duplex) : Network :=
  { n with links := n.links.set l.link (if l.flipped then d.flip else d) }

/-- What a node knows, unless it has been let go of. -/
def exchange? (n : Network) (id : NodeId) : Option (Exchange AnyStore) :=
  match n.nodes[id]? with
  | some ⟨x, false⟩ => some x
  | _ => none

/-- Whether nobody holds on to a node any more. -/
def isGone (n : Network) (id : NodeId) : Bool :=
  (n.nodes[id]?.any (·.released)) && !n.tasks.any (·.isRunningOn id)

/-- Whether someone can still put messages into an outbox. -/
def isHeld (n : Network) (o : OutboxId) : Bool :=
  n.tasks.any (·.holds o) ||
    (n.nodes.zipIdx.any fun (node, id) => node.exchange.peers.uses o && !n.isGone id)

/-! ### Moving -/

def broadcastStep? (n : Network) (id : TaskId) (node : NodeId) (x : Exchange AnyStore)
    (a : Activity) (b : Broadcast) : Option Network := do
  let (b, x, outboxes) ← b.step? id x n.outboxes
  return { n.setExchange node x with outboxes }.setState id (.running (a.withBroadcast b))

/-- A driver goes on; what the peer sent comes before what the node wants to send. -/
def driveStep? (n : Network) (id : TaskId) (node : NodeId) (x : Exchange AnyStore) (d : Driver)
    (line : Line) : Option Network := do
  let queue ← n.outboxes[d.outbox]?
  let io ← n.io? line
  let s : DriveState AnyStore := { driver := d, exchange := x, queue, io }
  let held := n.isHeld d.outbox
  let (s, result) ← (s.step? n.calendar held .inbound).or (s.step? n.calendar held .outbound)
  let s := if result.isSome then s.finish else s
  let n := (n.setExchange node s.exchange).setIo line s.io
  let n := { n with outboxes := n.outboxes.set d.outbox s.queue }
  return n.setState id (match result with
    | none => .running (.driving s.driver line)
    | some r => .finished (.drove r))

def step? (n : Network) (id : TaskId) : Option Network := do
  let task ← n.tasks[id]?
  let x := (← n.nodes[task.node]?).exchange
  let .running a := task.state | none
  match a with
  | .wanting future b =>
    if b.isDone then
      return { n.setState id (.finished (.registered future)) with
        handed := n.handed.or (some (task.node, future)) }
    else n.broadcastStep? id task.node x a b
  | .telling b =>
    if b.isDone then return n.setState id (.finished (.sent b.sent))
    else n.broadcastStep? id task.node x a b
  | .fetching f =>
    match x.finish? f with
    | some (x, r) => return (n.setExchange task.node x).setState id (.finished (.fetched r))
    | none => n.broadcastStep? id task.node x a f.broadcast
  | .driving d line => n.driveStep? id task.node x d line

/-- Lets task after task move as long as it can, and begins again if any has moved. -/
def runFrom : (limit : Nat) → (id : TaskId) → (moved : Bool) → Network → Network
  | 0, _, _, n => n
  | limit + 1, id, moved, n =>
    if id < n.tasks.length then
      match n.step? id with
      | some n => runFrom limit id true n
      | none => runFrom limit (id + 1) moved n
    else if moved then runFrom limit 0 false n
    else n

/-- The wants of a node that is gone are given up. -/
def settle (n : Network) : Network :=
  { n with nodes := n.nodes.zipIdx.map fun (node, id) =>
      if n.isGone id then
        { node with exchange := { node.exchange with wants := node.exchange.wants.abandon } }
      else node }

/-- A bound on the number of moves, beyond what any network of this size comes to. -/
def moveLimit : Nat := 1000000000000

def run (n : Network) : Network :=
  (runFrom moveLimit 0 false n).settle

/-! ### Starting and stopping tasks -/

def addTask (n : Network) (node : NodeId) (s : TaskState) : Network × TaskId :=
  ({ n with tasks := n.tasks ++ [⟨node, s⟩] }, n.tasks.length)

def start (n : Network) (node : NodeId) (a : Activity) : Network × TaskId :=
  n.addTask node (.running a)

def value? (n : Network) (id : TaskId) : Option TaskValue :=
  match n.tasks[id]? with
  | some ⟨_, .finished v⟩ => some v
  | _ => none

/-- Stops a task where it is. A driver lets go of its connection and its outbox, but the peer stays
in the registry. -/
def cancel (n : Network) (id : TaskId) : Network :=
  let state := n.tasks[id]?.map Task.state
  let n := n.setState id .cancelled
  match state with
  | some (.running a) =>
    let n := { n with outboxes := n.outboxes.map fun o : Outbox => o.leave id }
    let n := match a with
      | .driving d line =>
        let n := { n with outboxes := n.outboxes.modify d.outbox Outbox.close }
        match n.io? line with
        | some io => n.setIo line io.drop
        | none => n
      | _ => n
    n.settle
  | _ => n

def wantBlock (n : Network) (node : NodeId) (w : Want) (peers : List PeerId) :
    Option (Network × TaskId) := do
  let x ← n.exchange? node
  let (x, future, b) := x.wantBlock n.now w peers
  return (n.setExchange node x).start node (.wanting future b)

def sendWants (n : Network) (node : NodeId) (peers : List PeerId) : Option (Network × TaskId) := do
  let x ← n.exchange? node
  return n.start node (.telling (x.sendWants n.now peers))

def getBlocks (n : Network) (node : NodeId) (ws : List Want) (peers : List PeerId)
    (addToLocal : Bool) : Option (Network × TaskId) := do
  let x ← n.exchange? node
  let (x, f) := x.getBlocks n.now ws peers addToLocal
  return (n.setExchange node x).start node (.fetching f)

/-- A node receives a message from a peer that takes up to `limit` replies. -/
def receive (n : Network) (node : NodeId) (peer : PeerId) (m : Message) (limit : Option Nat) :
    Option (Network × TaskId) := do
  let x ← n.exchange? node
  match x.receive peer m with
  | .error e => return n.addTask node (.finished (.answered [] (.error (.requester e))))
  | .ok (x, replies) =>
    let (sink, delivery) := deliver Collector.send { limit } replies
    let r := match delivery with
      | .failed e => .error (.send e)
      | _ => .ok ()
    return (n.setExchange node x).addTask node (.finished (.answered sink.messages r))

/-! ### Outboxes and connections -/

def connect (n : Network) (node : NodeId) (peer : PeerId) (capacity : Nat) :
    Option (Network × OutboxId) := do
  let x ← n.exchange? node
  let o := n.outboxes.length
  return ({ n.setExchange node (x.connect peer o) with outboxes := n.outboxes ++ [{ capacity }] }, o)

def drain (n : Network) (o : OutboxId) : Network × List Message :=
  match n.outboxes[o]? with
  | none => (n, [])
  | some box =>
    let (ms, box) := box.drain
    ({ n with outboxes := n.outboxes.set o box }, ms)

def closeOutbox (n : Network) (o : OutboxId) : Network :=
  { n with outboxes := n.outboxes.modify o Outbox.close }

def drive (n : Network) (node : NodeId) (peer : PeerId) (line : Line) :
    Option (Network × TaskId) := do
  let (n, outbox) ← n.connect node peer Driver.outboxCapacity
  return n.start node (.driving { connection := { peer }, outbox } line)

def addLink (n : Network) (capacity : Nat) : Network × LinkId :=
  ({ n with links := n.links ++ [.ofCapacity capacity] }, n.links.length)

/-- Connects a node to a far end that is played by hand. -/
def openRemote (n : Network) (node : NodeId) (peer : PeerId) (capacity : Nat) :
    Option (Network × TaskId × Nat) := do
  let (n, link) := n.addLink capacity
  let (n, task) ← n.drive node peer ⟨link, false⟩
  return ({ n with remotes := n.remotes ++ [⟨link, {}⟩] }, task, n.remotes.length)

/-- Connects two nodes. The first knows the second as `second`, and the second the first as
`first`. -/
def connectNodes (n : Network) (a b : NodeId) (first second : PeerId) (capacity : Nat) :
    Option (Network × TaskId × TaskId) := do
  let (n, link) := n.addLink capacity
  let (n, s) ← n.drive a second ⟨link, false⟩
  let (n, t) ← n.drive b first ⟨link, true⟩
  return (n, s, t)

def remoteIo? (n : Network) (id : Nat) : Option (Remote × Duplex) := do
  let r ← n.remotes[id]?
  return (r, ← n.links[r.link]?)

def remoteWrite (n : Network) (id : Nat) (b : Bytes) : Network × FarEnd.Written :=
  match n.remoteIo? id with
  | none => (n, .gone)
  | some (r, io) =>
    let (io, w) := r.far.write io b
    (n.setIo ⟨r.link, false⟩ io, w)

def remoteRead (n : Network) (id : Nat) : Network × FarEnd.Found :=
  match n.remoteIo? id with
  | none => (n, ⟨[], false, 0⟩)
  | some (r, io) =>
    let (far, io, found) := r.far.read io
    ({ n.setIo ⟨r.link, false⟩ io with remotes := n.remotes.set id { r with far } }, found)

def remoteClose (n : Network) (id : Nat) : Network :=
  match n.remoteIo? id with
  | none => n
  | some (r, io) =>
    let (far, io) := r.far.close io
    { n.setIo ⟨r.link, false⟩ io with remotes := n.remotes.set id { r with far } }

/-! ### Nodes -/

def advance (n : Network) (d : Duration) : Network :=
  { n with now := n.now.add d }

/-- Lets go of a node; its tasks go on. -/
def release (n : Network) (node : NodeId) : Network :=
  settle { n with nodes := n.nodes.modify node fun node => { node with released := true } }

end Network
end BlockExchange
