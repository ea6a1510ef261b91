import BlockExchange.Proofs.Broadcasting
import BlockExchange.Proofs.FullPipes

/-!
# Two drivers on one connection

Two drivers, each at one end of a connection (`Dialogue`). While a driver writes it does not read, so
when both pipes are full and both drivers have more to write, neither ever goes on: nobody makes room
for the other. Two wants for a block are enough to get there, told in either order
(`standstill_reached`): the second is written while the block is. It takes more bytes on their way in
each direction than a pipe holds, nothing ends it, and it is the only way in which two drivers come to
rest with work left (`standstill`).
-/

namespace BlockExchange

/-- The drivers at the two ends of a connection. -/
structure Dialogue (σ τ : Type) where
  near : DriveState σ
  far : DriveState τ

namespace Dialogue

section
variable {σ τ : Type}

def swap (d : Dialogue σ τ) : Dialogue τ σ :=
  ⟨d.far, d.near⟩

/-- Both drivers start, on pipes that hold `forth` bytes from the near one to the far one and `back`
bytes the other way. -/
structure Started (forth back : Nat) (d : Dialogue σ τ) : Prop where
  near : ∃ peer outbox, d.near.driver = { connection := { peer }, outbox }
  far : ∃ peer outbox, d.far.driver = { connection := { peer }, outbox }
  io : d.near.io = ⟨{ capacity := back }, { capacity := forth }⟩
  linked : d.far.io = d.near.io.flip

variable [BlockStore σ] [BlockStore τ]

/-- One of the drivers makes a step and goes on, or others put messages into the outboxes and change
what the nodes are and have. -/
inductive Step : Dialogue σ τ → Dialogue σ τ → Prop
  | near {d : Dialogue σ τ} {s : DriveState σ} {now : Timestamp} {held : Bool} {side : Side}
      (h : d.near.step? now held side = some (s, none)) :
    Step d ⟨s, { d.far with io := s.io.flip }⟩
  | far {d : Dialogue σ τ} {s : DriveState τ} {now : Timestamp} {held : Bool} {side : Side}
      (h : d.far.step? now held side = some (s, none)) :
    Step d ⟨{ d.near with io := s.io.flip }, s⟩
  | others {d : Dialogue σ τ} (x : Exchange σ) (y : Exchange τ) {queue queue' : Outbox}
      {ms ms' : List Message} (hnear : queue.queue = d.near.queue.queue ++ ms)
      (hfar : queue'.queue = d.far.queue.queue ++ ms') :
    Step d ⟨{ d.near with exchange := x, queue }, { d.far with exchange := y, queue := queue' }⟩

theorem Step.swap {d d' : Dialogue σ τ} (h : Step d d') : Step d.swap d'.swap := by
  cases h with
  | near h => exact .far (d := d.swap) h
  | far h => exact .near (d := d.swap) h
  | others x y hnear hfar => exact .others (d := d.swap) y x hfar hnear

/-- What two drivers come to that have started on pipes of these sizes. -/
def Reached (forth back : Nat) (d : Dialogue σ τ) : Prop :=
  ∃ d₀, Started forth back d₀ ∧ Relation.ReflTransGen Step d₀ d

variable {forth back : Nat} {d d' : Dialogue σ τ}

/-! ### What is kept -/

/-- Each driver is in a run of its own, to which the other belongs as the peer. -/
structure Stands (forth back : Nat) (d : Dialogue σ τ) : Prop where
  linked : d.far.io = d.near.io.flip
  forth_eq : d.near.io.outbound.capacity = forth
  back_eq : d.near.io.inbound.capacity = back
  near : ∃ r, DriveState.Drives r d.near none
  far : ∃ r, DriveState.Drives r d.far none

theorem Stands.swap (h : Stands forth back d) : Stands back forth d.swap := by
  refine ⟨?_, ?_, ?_, h.far, h.near⟩
  · show d.near.io = d.far.io.flip
    rw [h.linked]
    rfl
  · show d.far.io.outbound.capacity = back
    rw [h.linked]
    exact h.back_eq
  · show d.far.io.inbound.capacity = forth
    rw [h.linked]
    exact h.forth_eq

theorem Started.stands (h : Started forth back d) : Stands forth back d := by
  obtain ⟨_, _, hnear⟩ := h.near
  obtain ⟨_, _, hfar⟩ := h.far
  exact ⟨h.linked, by rw [h.io], by rw [h.io], ⟨_, .start hnear⟩, ⟨_, .start hfar⟩⟩

/-- What one driver does to the connection is what its peer does in the run of the other. -/
theorem Stands.step_near (h : Stands forth back d) {s : DriveState σ} {now : Timestamp} {held : Bool}
    {side : Side} (hs : d.near.step? now held side = some (s, none)) :
    Stands forth back ⟨s, { d.far with io := s.io.flip }⟩ := by
  obtain ⟨r, hr⟩ := h.near
  obtain ⟨r', hr'⟩ := h.far
  obtain ⟨written, hwrote⟩ := hr.wrote
  obtain ⟨⟨bytes, htakes⟩, houtbound, hinbound⟩ := (DriveState.outcome_of_step? hs).pours hwrote
  have hfed : s.io.outbound.content = d.far.io.inbound.content ++ bytes := by
    rw [h.linked]
    exact htakes.content
  have hqueue : d.far.queue.queue = d.far.queue.queue ++ [] := (List.append_nil _).symm
  exact ⟨rfl, houtbound.trans h.forth_eq, hinbound.trans h.back_eq, ⟨_, hr.step hs⟩,
    ⟨_, hr'.others hqueue hfed⟩⟩

theorem Stands.step (h : Stands forth back d) (hs : Step d d') : Stands forth back d' := by
  cases hs with
  | near hs => exact h.step_near hs
  | far hs => exact (h.swap.step_near hs).swap
  | others x y hnear hfar =>
    obtain ⟨r, hr⟩ := h.near
    obtain ⟨r', hr'⟩ := h.far
    have hnothing : ∀ p : Pipe, p.content = p.content ++ [] := fun p => (List.append_nil _).symm
    exact ⟨h.linked, h.forth_eq, h.back_eq, ⟨_, hr.others hnear (hnothing d.near.io.inbound)⟩,
      ⟨_, hr'.others hfar (hnothing d.far.io.inbound)⟩⟩

theorem Reached.stands (h : Reached forth back d) : Stands forth back d := by
  obtain ⟨d₀, hstarted, hsteps⟩ := h
  induction hsteps with
  | refl => exact hstarted.stands
  | tail _ hs ih => exact ih.step hs

/-! ### Standing still -/

theorem Stands.lt_outstanding (h : Stands forth back d) (hsuspended : d.near.Suspended) :
    forth < d.near.outstanding := by
  obtain ⟨r, hr⟩ := h.near
  obtain ⟨written, hwrote⟩ := hr.wrote
  rw [← h.forth_eq]
  exact hsuspended.lt_outstanding hwrote

/-- A driver that reads empties the pipe that another one is suspended at. -/
theorem Stands.not_idle_far (h : Stands forth back d) (hforth : 0 < forth)
    (hsuspended : d.near.Suspended) : ¬ d.far.Idle := by
  intro hidle
  obtain ⟨r, hr⟩ := h.near
  obtain ⟨written, hwrote⟩ := hr.wrote
  obtain ⟨-, hroom, -⟩ := hsuspended.full hwrote
  have hempty : d.near.io.outbound.content = [] := by
    have hinbound := hidle.inbound
    rw [h.linked] at hinbound
    exact hinbound
  unfold Pipe.room at hroom
  rw [h.forth_eq, hempty] at hroom
  exact Nat.ne_of_gt hforth hroom

/-- Both drivers are suspended, with these things to write and this in the pipes. -/
structure StandsStill (d : Dialogue σ τ) (p : Driver) (q : Driver) (io : Duplex) : Prop where
  near : d.near.Suspended
  far : d.far.Suspended
  near_eq : d.near.driver = p
  far_eq : d.far.driver = q
  io_eq : d.near.io = io

theorem StandsStill.step {p q : Driver} {io : Duplex} (h : StandsStill d p q io) (hs : Step d d') :
    StandsStill d' p q io := by
  cases hs with
  | near hs =>
    rw [h.near.stuck] at hs
    cases hs
  | far hs =>
    rw [h.far.stuck] at hs
    cases hs
  | others x y hnear hfar =>
    exact ⟨h.near.others x _, h.far.others y _, h.near_eq, h.far_eq, h.io_eq⟩

theorem StandsStill.steps {p q : Driver} {io : Duplex} (h : StandsStill d p q io)
    (hs : Relation.ReflTransGen Step d d') : StandsStill d' p q io := by
  induction hs with
  | refl => exact h
  | tail _ hs ih => exact ih.step hs

/-- Two drivers on one connection are never both suspended in writing as long as the bytes on their way
in one of the directions fit into its pipe. If they are, it stays like that with the pipes as they are,
whatever others do. And if no driver can make a step, they are both suspended or there is nothing to
do for either. -/
theorem standstill (hforth : 0 < forth) (hback : 0 < back) (h : Reached forth back d) :
    (d.near.outstanding ≤ forth ∨ d.far.outstanding ≤ back →
      ¬ (d.near.Suspended ∧ d.far.Suspended)) ∧
    (d.near.Suspended → d.far.Suspended → ∀ d', Relation.ReflTransGen Step d d' →
      StandsStill d' d.near.driver d.far.driver d.near.io) ∧
    (d.near.Rests → d.far.Rests →
      (d.near.Suspended ∧ d.far.Suspended) ∨ (d.near.Idle ∧ d.far.Idle)) := by
  have hstands := h.stands
  refine ⟨fun hfits hboth => ?_, fun hnear hfar d' hs => ?_, fun hnear hfar => ?_⟩
  · have hnear := hstands.lt_outstanding hboth.1
    have hfar : back < d.far.outstanding := hstands.swap.lt_outstanding hboth.2
    omega
  · exact StandsStill.steps ⟨hnear, hfar, rfl, rfl, rfl⟩ hs
  · rcases hnear.cases with hnear | hnear <;> rcases hfar.cases with hfar | hfar
    · exact .inl ⟨hnear, hfar⟩
    · exact absurd hfar (hstands.not_idle_far hforth hnear)
    · exact absurd hnear (hstands.swap.not_idle_far hback hfar)
    · exact .inr ⟨hnear, hfar⟩

end

/-! ### Wantlists against a block -/

section
variable {σ τ : Type} [BlockStore σ] [BlockStore τ] {d d' : Dialogue σ τ}

/-- Whose turn it is. The near driver looks at its outbox then, and the far one at the connection. -/
inductive Turn
  | near
  | far

/-- The step of that driver; none if it makes none or stops. -/
def turn? (d : Dialogue σ τ) : Turn → Option (Dialogue σ τ)
  | .near =>
    match d.near.step? ⟨0⟩ true .outbound with
    | some (s, none) => some ⟨s, { d.far with io := s.io.flip }⟩
    | _ => none
  | .far =>
    match d.far.step? ⟨0⟩ true .inbound with
    | some (s, none) => some ⟨{ d.near with io := s.io.flip }, s⟩
    | _ => none

theorem step_of_turn? {turn : Turn} (h : d.turn? turn = some d') : Step d d' := by
  cases turn with
  | near =>
    simp only [turn?] at h
    split at h
    · obtain rfl := Option.some.inj h
      exact .near ‹_›
    · cases h
  | far =>
    simp only [turn?] at h
    split at h
    · obtain rfl := Option.some.inj h
      exact .far ‹_›
    · cases h

theorem steps_of_turns {turns : List Turn} (h : turns.foldlM turn? d = some d') :
    Relation.ReflTransGen Step d d' := by
  induction turns generalizing d with
  | nil =>
    obtain rfl := Option.some.inj h
    exact .refl
  | cons turn turns ih =>
    rw [List.foldlM_cons] at h
    obtain ⟨e, hturn, hturns⟩ := Option.bind_eq_some_iff.mp h
    exact (ih hturns).head (step_of_turn? hturn)

end

/-- A node that wants a block under two tokens, and has room for one want in a message. -/
def wanting : Exchange MemoryStore :=
  let cid := Cid.raw [1, 2, 3]
  let x : Exchange MemoryStore := .new { maxMessageSize := 1 } {} .allowAll .disabled
  ((x.register ⟨0⟩ { cid, auth := some ⟨[7]⟩ }).1.register ⟨0⟩ { cid, auth := some ⟨[8]⟩ }).1

/-- What it tells a peer: a message for each want. -/
def told : List Message :=
  wanting.wantFrames ⟨0⟩

/-- A node that has the block. -/
def holding : Exchange MemoryStore :=
  .new {} (BlockStore.put ({} : MemoryStore) Codec.raw [1, 2, 3]).1 .allowAll .disabled

/-- Both on pipes of eight bytes, with these messages of the first to be forwarded. -/
def meeting (queue : List Message) : Dialogue MemoryStore MemoryStore where
  near :=
    let peer : PeerId := ⟨⟨Multihash.identity, [2], by decide⟩, .inr ⟨rfl, by decide⟩⟩
    { driver := { connection := { peer }, outbox := 0 }
      exchange := wanting
      queue := { capacity := Driver.outboxCapacity, queue }
      io := .ofCapacity 8 }
  far :=
    let peer : PeerId := ⟨⟨Multihash.identity, [1], by decide⟩, .inr ⟨rfl, by decide⟩⟩
    { driver := { connection := { peer }, outbox := 0 }
      exchange := holding
      queue := { capacity := Driver.outboxCapacity }
      io := .ofCapacity 8 }

theorem started_meeting (queue : List Message) : Started 8 8 (meeting queue) :=
  ⟨⟨_, _, rfl⟩, ⟨_, _, rfl⟩, rfl, rfl⟩

/-- The first message goes over in pieces. Then one driver begins with the second and the other with
the block. -/
def exchanging : List Turn :=
  [.near, .near] ++ (List.replicate 9 [.near, .far]).flatten ++ [.near]

theorem exists_suspended {queue : List Message}
    (h : ((exchanging.foldlM turn? (meeting queue)).any fun d =>
      decide (d.near.Suspended ∧ d.far.Suspended)) = true) :
    ∃ d, Relation.ReflTransGen Step (meeting queue) d ∧ d.near.Suspended ∧ d.far.Suspended := by
  obtain ⟨d, hturns, hd⟩ := (Option.any_eq_true _ _).mp h
  exact ⟨d, steps_of_turns hturns, of_decide_eq_true hd⟩

theorem exists_suspended_told :
    ∃ d, Relation.ReflTransGen Step (meeting told) d ∧ d.near.Suspended ∧ d.far.Suspended :=
  exists_suspended (by decide +kernel)

/-- The two nodes come to stand still, in whichever order the wants are told. -/
theorem standstill_reached :
    told.length = 2 ∧ Started 8 8 (meeting told) ∧ Started 8 8 (meeting told.reverse) ∧
    (∃ d, Relation.ReflTransGen Step (meeting told) d ∧ d.near.Suspended ∧ d.far.Suspended) ∧
    ∃ d, Relation.ReflTransGen Step (meeting told.reverse) d ∧
      d.near.Suspended ∧ d.far.Suspended :=
  ⟨by decide +kernel, started_meeting told, started_meeting told.reverse, exists_suspended_told,
    exists_suspended (by decide +kernel)⟩

/-- They stay as they are, with more than a pipe holds on its way in both directions. -/
theorem standstill_lasting : ∃ d : Dialogue MemoryStore MemoryStore,
    Reached 8 8 d ∧ 8 < d.near.outstanding ∧ 8 < d.far.outstanding ∧
    ∀ d', Relation.ReflTransGen Step d d' →
      StandsStill d' d.near.driver d.far.driver d.near.io := by
  obtain ⟨d, hsteps, hnear, hfar⟩ := exists_suspended_told
  have hreached : Reached 8 8 d := ⟨_, started_meeting told, hsteps⟩
  obtain ⟨hfits, hstays, -⟩ := standstill (by decide) (by decide) hreached
  exact ⟨d, hreached, Nat.lt_of_not_le fun h => hfits (.inl h) ⟨hnear, hfar⟩,
    Nat.lt_of_not_le fun h => hfits (.inr h) ⟨hnear, hfar⟩, hstays hnear hfar⟩

end Dialogue
end BlockExchange
