import BlockExchange.Proofs.DriveSteps
import BlockExchange.Store.Memory

/-!
# Who is registered

The registry has for each peer the outbox that was added for it last, as long as nothing that was done
since has taken it out (`outbox?_eq_some_iff`).

A `Site` is an exchange with all its drivers. They start, go on and end in any order, and others add
and remove peers meanwhile. A driver ends in two steps (`Driving.Steps`): it looks whether its own
outbox still exists, which it does as long as the registry has it, and if so it takes itself out. In
between the others may move. The registry has the outbox of a driver for the driver's own peer only,
and not after the driver has found it gone or has taken it out (`Site.Sound`).
-/

namespace BlockExchange

/-! ### Histories -/

/-- What is done to a registry. -/
inductive PeerChange
  | added (p : PeerId) (o : OutboxId)
  | removed (p : PeerId)
  | removedIfSame (p : PeerId) (o : OutboxId)

namespace PeerChange

/-- It takes the outbox of a peer out: another takes its place, or the peer is removed. -/
def Ousts (p : PeerId) (o : OutboxId) : PeerChange → Prop
  | added q _ => q = p
  | removed q => q = p
  | removedIfSame q o' => q = p ∧ o' = o

/-- The outbox was added for the peer and nothing took it out afterwards. -/
def Standing (history : List PeerChange) (p : PeerId) (o : OutboxId) : Prop :=
  ∃ before after, history = before ++ added p o :: after ∧ ∀ e ∈ after, ¬ e.Ousts p o

variable {history : List PeerChange} {e : PeerChange} {p : PeerId} {o : OutboxId}

theorem not_standing_nil : ¬ Standing [] p o := by
  rintro ⟨before, after, h, -⟩
  cases before <;> cases h

theorem standing_concat :
    Standing (history ++ [e]) p o ↔ e = .added p o ∨ (Standing history p o ∧ ¬ e.Ousts p o) := by
  constructor
  · rintro ⟨before, after, h, hafter⟩
    rcases after.eq_nil_or_concat with rfl | ⟨after, last, rfl⟩
    · obtain ⟨-, hlast⟩ := List.append_inj' h rfl
      exact .inl (List.cons.inj hlast).1
    · rw [List.concat_eq_append, ← List.cons_append, ← List.append_assoc] at h
      obtain ⟨rfl, hlast⟩ := List.append_inj' h rfl
      obtain ⟨rfl, -⟩ := List.cons.inj hlast
      exact .inr ⟨⟨before, after, rfl, fun e' he' => hafter e' (by simp [he'])⟩,
        hafter e (by simp)⟩
  · rintro (rfl | ⟨⟨before, after, rfl, hafter⟩, hlast⟩)
    · exact ⟨history, [], rfl, nofun⟩
    · refine ⟨before, after ++ [e], by simp, fun e' he' => ?_⟩
      rcases List.mem_append.mp he' with he' | he'
      · exact hafter e' he'
      · exact List.mem_singleton.mp he' ▸ hlast

end PeerChange

namespace PeerRegistry
variable {r : PeerRegistry} {e : PeerChange} {p : PeerId} {o : OutboxId}

def after (r : PeerRegistry) : PeerChange → PeerRegistry
  | .added p o => r.add p o
  | .removed p => r.remove p
  | .removedIfSame p o => (r.removeIfSame p o).1

theorem outbox?_removeIfSame (r : PeerRegistry) (p q : PeerId) (o : OutboxId) :
    (r.removeIfSame p o).1.outbox? q =
      if q = p ∧ r.outbox? p = some o then none else r.outbox? q := by
  unfold removeIfSame
  by_cases hsame : r.outbox? p = some o
  · simp only [hsame, if_true, and_true]
    exact r.outbox?_remove p q
  · simp only [hsame, if_false, and_false]

/-- An outbox is registered afterwards if it was just added, or if it was registered and stays. -/
theorem outbox?_after_eq_some_iff : (r.after e).outbox? p = some o ↔
    e = .added p o ∨ (r.outbox? p = some o ∧ ¬ e.Ousts p o) := by
  cases e with
  | added q o' =>
    simp only [after, outbox?_add, PeerChange.Ousts, PeerChange.added.injEq]
    by_cases hq : p = q
    · subst hq
      simp
    · simp [hq, Ne.symm hq]
  | removed q =>
    simp only [after, outbox?_remove, PeerChange.Ousts]
    by_cases hq : p = q
    · subst hq
      simp
    · simp [hq, Ne.symm hq]
  | removedIfSame q o' =>
    simp only [after, outbox?_removeIfSame, PeerChange.Ousts]
    by_cases hq : p = q
    · subst hq
      by_cases hsame : r.outbox? p = some o'
      · simp only [hsame, and_self, if_true, true_and, Option.some.injEq]
        exact iff_of_false nofun (by rintro (h | ⟨h, h'⟩); cases h; exact h' h)
      · simp only [hsame, and_false, if_false, true_and]
        refine ⟨fun h => .inr ⟨h, fun ho => hsame (ho ▸ h)⟩, ?_⟩
        rintro (h | ⟨h, -⟩)
        · cases h
        · exact h
    · simp [hq, Ne.symm hq]

/-- The registry has the outbox that was added last for a peer, as long as it was not taken out. -/
theorem outbox?_eq_some_iff (history : List PeerChange) :
    (history.foldl after {}).outbox? p = some o ↔ PeerChange.Standing history p o := by
  induction history using List.reverseRecOn generalizing p o with
  | nil => exact iff_of_false nofun PeerChange.not_standing_nil
  | append_singleton history e ih =>
    rw [List.foldl_append, List.foldl_cons, List.foldl_nil, outbox?_after_eq_some_iff, ih,
      PeerChange.standing_concat]

end PeerRegistry

/-! ### A driver from its start to its end -/

/-- Where a driver is between its start and its end. -/
inductive Phase
  | running
  | stopped
  /-- It has looked for its own outbox, which was there or was not. -/
  | leaving (found : Bool)
  | ended

/-- A driver with all that is its own. -/
structure Driving where
  driver : Driver
  queue : Outbox
  io : Duplex
  phase : Phase := .running

namespace Driving
variable {σ : Type}

def peer (d : Driving) : PeerId :=
  d.driver.connection.peer

def outbox (d : Driving) : OutboxId :=
  d.driver.outbox

def stateIn (d : Driving) (x : Exchange σ) : DriveState σ where
  driver := d.driver
  exchange := x
  queue := d.queue
  io := d.io

def ofState (s : DriveState σ) (phase : Phase) : Driving where
  driver := s.driver
  queue := s.queue
  io := s.io
  phase := phase

/-- A step of a driver in an exchange, what becomes of both, and what it does to the registry. An
outbox that is registered is found; one that is not may be found all the same, since a broadcast may
be waiting for room in it. -/
inductive Steps [BlockStore σ] (x : Exchange σ) (d : Driving) :
    Exchange σ → Driving → List PeerChange → Prop
  | loop {now : Timestamp} {held : Bool} {side : Side} {s : DriveState σ}
      {r : Option (Except DriveError Unit)} (hphase : d.phase = .running)
      (h : (d.stateIn x).step? now held side = some (s, r)) :
    Steps x d s.exchange (.ofState s (if r.isSome then .stopped else .running)) []
  | look {found : Bool} (hphase : d.phase = .stopped)
      (h : (∃ p, x.peers.outbox? p = some d.outbox) → found = true) :
    Steps x d x { d with phase := .leaving found } []
  | leave (hphase : d.phase = .leaving true) :
    Steps x d (d.stateIn x).finish.exchange (.ofState (d.stateIn x).finish .ended)
      [.removedIfSame d.peer d.outbox]
  | leaveSilently (hphase : d.phase = .leaving false) :
    Steps x d x (.ofState (d.stateIn x).finish .ended) []

section
variable [BlockStore σ] {x x' : Exchange σ} {d d' : Driving} {events : List PeerChange}

theorem Steps.peers_eq (h : d.Steps x x' d' events) :
    x'.peers = events.foldl PeerRegistry.after x.peers := by
  cases h with
  | loop _ h => exact (DriveState.outcome_of_step? h).peers_eq
  | look | leave | leaveSilently => rfl

theorem Steps.peer_eq (h : d.Steps x x' d' events) : d'.peer = d.peer := by
  cases h with
  | loop _ h => exact (DriveState.outcome_of_step? h).peer_eq
  | look | leave | leaveSilently => rfl

theorem Steps.outbox_eq (h : d.Steps x x' d' events) : d'.outbox = d.outbox := by
  cases h with
  | loop _ h => exact (DriveState.outcome_of_step? h).outbox_eq
  | look | leave | leaveSilently => rfl

/-- All that a driver does to the registry after its start is to take out its own outbox. -/
theorem Steps.outbox?_eq (h : d.Steps x x' d' events) (p : PeerId) :
    x'.peers.outbox? p = x.peers.outbox? p ∨
    (p = d.peer ∧ x.peers.outbox? p = some d.outbox ∧ x'.peers.outbox? p = none) := by
  rw [h.peers_eq]
  cases h with
  | loop | look | leaveSilently => exact .inl rfl
  | leave =>
    show (x.peers.removeIfSame d.peer d.outbox).1.outbox? p = _ ∨ _ ∧ _ ∧
      (x.peers.removeIfSame d.peer d.outbox).1.outbox? p = none
    rw [PeerRegistry.outbox?_removeIfSame]
    split
    · rename_i hsame
      obtain ⟨rfl, hsame⟩ := hsame
      exact .inr ⟨rfl, hsame, rfl⟩
    · exact .inl rfl

/-- A driver that ends is not registered, if it was registered for its own peer only. -/
theorem Steps.gone (h : d.Steps x x' d' events)
    (hown : ∀ p, x.peers.outbox? p = some d.outbox → p = d.peer)
    (hgone : d.phase = .leaving false → ∀ p, x.peers.outbox? p ≠ some d.outbox)
    (hphase : d'.phase = .leaving false ∨ d'.phase = .ended) (p : PeerId) :
    x'.peers.outbox? p ≠ some d.outbox := by
  cases h with
  | @loop now held side s r =>
    cases r with
    | none => rcases hphase with h | h <;> cases h
    | some r => rcases hphase with h | h <;> cases h
  | look _ h =>
    rcases hphase with hfound | hfound
    · obtain rfl := Phase.leaving.inj hfound
      exact fun hp => absurd (h ⟨p, hp⟩) nofun
    · cases hfound
  | leave =>
    show (x.peers.removeIfSame d.peer d.outbox).1.outbox? p ≠ some d.outbox
    rw [PeerRegistry.outbox?_removeIfSame]
    intro hp
    split at hp
    · cases hp
    · rename_i hother
      obtain rfl := hown p hp
      exact hother ⟨rfl, hp⟩
  | leaveSilently hsilent => exact hgone hsilent p

end
end Driving

/-! ### All drivers of an exchange -/

structure Site (σ : Type) where
  exchange : Exchange σ
  drives : List Driving := []

namespace Site
variable {σ : Type}

def outbox? (s : Site σ) (p : PeerId) : Option OutboxId :=
  s.exchange.peers.outbox? p

/-- An outbox that no driver has. -/
def Foreign (s : Site σ) (o : OutboxId) : Prop :=
  ∀ d ∈ s.drives, d.outbox ≠ o

/-- What can happen next, and what it does to the registry. Nobody but its driver ever has hold of a
driver's outbox to add it. -/
inductive Step [BlockStore σ] (s : Site σ) : List PeerChange → Site σ → Prop
  /-- A driver starts with an outbox of its own. -/
  | start (p : PeerId) {o : OutboxId} {io : Duplex} (hforeign : s.Foreign o)
      (hfresh : ∀ q, s.outbox? q ≠ some o) :
    Step s [.added p o]
      { exchange := s.exchange.connect p o
        drives := s.drives ++ [{ driver := { connection := { peer := p }, outbox := o }
                                 queue := { capacity := Driver.outboxCapacity }, io }] }
  | drive {i : Nat} {d d' : Driving} {x : Exchange σ} {events : List PeerChange}
      (hd : s.drives[i]? = some d) (h : d.Steps s.exchange x d' events) :
    Step s events { exchange := x, drives := s.drives.set i d' }
  | add (p : PeerId) {o : OutboxId} (hforeign : s.Foreign o) :
    Step s [.added p o] { s with exchange := s.exchange.connect p o }
  | remove (p : PeerId) : Step s [.removed p] { s with exchange := (s.exchange.disconnect p).1 }
  | removeIfSame (p : PeerId) (o : OutboxId) :
    Step s [.removedIfSame p o] { s with exchange := (s.exchange.disconnectIfSame p o).1 }
  /-- Anything else that happens in the exchange. -/
  | others {x : Exchange σ} (hpeers : x.peers = s.exchange.peers) : Step s [] { s with exchange := x }
  /-- Broadcasts fill the outbox of a driver, and its peer reads and writes. -/
  | served {i : Nat} {d : Driving} {queue : Outbox} {io : Duplex} (hd : s.drives[i]? = some d) :
    Step s [] { s with drives := s.drives.set i { d with queue, io } }

/-- Any sequence of steps of an exchange that starts with nobody registered. -/
inductive Run [BlockStore σ] : List PeerChange → Site σ → Prop
  | start {x : Exchange σ} (h : x.peers = {}) : Run [] { exchange := x }
  | step {history events : List PeerChange} {s s' : Site σ} (h : Run history s)
      (hs : s.Step events s') : Run (history ++ events) s'

/-- The registry has the outbox of a driver for the driver's own peer only, and not after the driver
has found it gone or has ended. -/
structure Sound (s : Site σ) : Prop where
  own : ∀ d ∈ s.drives, ∀ p, s.outbox? p = some d.outbox → p = d.peer
  gone : ∀ d ∈ s.drives, d.phase = .leaving false ∨ d.phase = .ended →
    ∀ p, s.outbox? p ≠ some d.outbox

section
variable {s : Site σ}

theorem Sound.withExchange (h : s.Sound) {x : Exchange σ}
    (hx : ∀ p o, x.peers.outbox? p = some o → s.outbox? p = some o) :
    Sound { s with exchange := x } where
  own d hd p hp := h.own d hd p (hx p _ hp)
  gone d hd hphase p hp := h.gone d hd hphase p (hx p _ hp)

theorem Sound.setDrive (h : s.Sound) {i : Nat} {d d' : Driving} (hd : s.drives[i]? = some d)
    (hpeer : d'.peer = d.peer) (houtbox : d'.outbox = d.outbox)
    (hgone : d'.phase = .leaving false ∨ d'.phase = .ended → ∀ p, s.outbox? p ≠ some d.outbox) :
    Sound { s with drives := s.drives.set i d' } := by
  refine ⟨fun e he p hp => ?_, fun e he hphase p hp => ?_⟩
  · rcases List.mem_or_eq_of_mem_set he with he | rfl
    · exact h.own e he p hp
    · rw [hpeer]
      exact h.own d (List.mem_of_getElem? hd) p (houtbox ▸ hp)
  · rcases List.mem_or_eq_of_mem_set he with he | rfl
    · exact h.gone e he hphase p hp
    · exact hgone hphase p (houtbox ▸ hp)

theorem Sound.connect (h : s.Sound) {p : PeerId} {o : OutboxId} (hforeign : s.Foreign o) :
    Sound { s with exchange := s.exchange.connect p o } := by
  -- the outboxes of the drivers are registered as before
  have hsame : ∀ d ∈ s.drives, ∀ q, (s.exchange.connect p o).peers.outbox? q = some d.outbox →
      s.outbox? q = some d.outbox := by
    intro d hd q hq
    have hq : (s.exchange.peers.add p o).outbox? q = some d.outbox := hq
    rw [PeerRegistry.outbox?_add] at hq
    split at hq
    · exact absurd (Option.some.inj hq).symm (hforeign d hd)
    · exact hq
  exact ⟨fun d hd q hq => h.own d hd q (hsame d hd q hq),
    fun d hd hphase q hq => h.gone d hd hphase q (hsame d hd q hq)⟩

theorem Sound.start (h : s.Sound) {p : PeerId} {o : OutboxId} (hforeign : s.Foreign o)
    (hfresh : ∀ q, s.outbox? q ≠ some o) {d : Driving} (hpeer : d.peer = p) (houtbox : d.outbox = o)
    (hphase : d.phase = .running) :
    Sound { exchange := s.exchange.connect p o, drives := s.drives ++ [d] } := by
  have hold := h.connect (p := p) hforeign
  refine ⟨fun e he q hq => ?_, fun e he hgone q hq => ?_⟩
  · rcases List.mem_append.mp he with he | he
    · exact hold.own e he q hq
    · obtain rfl := List.mem_singleton.mp he
      have hq : (s.exchange.peers.add p o).outbox? q = some e.outbox := hq
      rw [PeerRegistry.outbox?_add] at hq
      split at hq
      · rename_i hqp
        rw [hqp, hpeer]
      · exact absurd (houtbox ▸ hq) (hfresh q)
  · rcases List.mem_append.mp he with he | he
    · exact hold.gone e he hgone q hq
    · obtain rfl := List.mem_singleton.mp he
      rw [hphase] at hgone
      rcases hgone with h | h <;> cases h

end

section
variable [BlockStore σ] {s s' : Site σ} {history events : List PeerChange}

theorem Step.peers_eq (h : s.Step events s') :
    s'.exchange.peers = events.foldl PeerRegistry.after s.exchange.peers := by
  cases h with
  | drive _ h => exact h.peers_eq
  | others hpeers => exact hpeers
  | start | add | remove | removeIfSame | served => rfl

theorem Run.peers_eq (h : Run history s) : s.exchange.peers = history.foldl PeerRegistry.after {} := by
  induction h with
  | start h => exact h
  | step _ hs ih => rw [List.foldl_append, ← ih, hs.peers_eq]

theorem Sound.step (h : s.Sound) (hs : s.Step events s') : s'.Sound := by
  cases hs with
  | start p hforeign hfresh => exact h.start hforeign hfresh rfl rfl rfl
  | @drive i d d' x _ hd hstep =>
    have hmem := List.mem_of_getElem? hd
    have hless : ∀ p o, x.peers.outbox? p = some o → s.outbox? p = some o := by
      intro p o hp
      rcases hstep.outbox?_eq p with hsame | ⟨-, -, hnone⟩
      · rw [hsame] at hp
        exact hp
      · rw [hnone] at hp
        cases hp
    exact (h.withExchange hless).setDrive hd hstep.peer_eq hstep.outbox_eq
      (hstep.gone (h.own d hmem) fun hphase => h.gone d hmem (.inl hphase))
  | add p hforeign => exact h.connect hforeign
  | remove p =>
    refine h.withExchange fun q o hq => ?_
    have hq : (s.exchange.peers.remove p).outbox? q = some o := hq
    rw [PeerRegistry.outbox?_remove] at hq
    split at hq
    · cases hq
    · exact hq
  | removeIfSame p o =>
    refine h.withExchange fun q o' hq => ?_
    have hq : (s.exchange.peers.removeIfSame p o).1.outbox? q = some o' := hq
    rw [PeerRegistry.outbox?_removeIfSame] at hq
    split at hq
    · cases hq
    · exact hq
  | others hpeers => exact h.withExchange fun p o hp => by rw [hpeers] at hp; exact hp
  | @served i d queue io hd =>
    exact h.setDrive hd rfl rfl (h.gone d (List.mem_of_getElem? hd))

theorem Run.sound (h : Run history s) : s.Sound := by
  induction h with
  | start =>
    exact ⟨fun d hd => absurd hd List.not_mem_nil, fun d hd => absurd hd List.not_mem_nil⟩
  | step _ hs ih => exact ih.step hs

/-- However drivers start, go on and end and whoever else adds and removes peers meanwhile: a driver
leaves every outbox but its own where it is, a driver that has ended is not registered, and the
registry has for each peer the outbox that was added for it last, unless that was taken out since. An
outbox that another took the place of is out for good. -/
theorem registry_of_run (h : Run history s) :
    (∀ d ∈ s.drives, ∀ x d' events, d.Steps s.exchange x d' events → ∀ p,
      x.peers.outbox? p = s.outbox? p ∨
      (p = d.peer ∧ s.outbox? p = some d.outbox ∧ x.peers.outbox? p = none)) ∧
    (∀ d ∈ s.drives, d.phase = .ended → ∀ p, s.outbox? p ≠ some d.outbox) ∧
    ∀ p o, s.outbox? p = some o ↔ PeerChange.Standing history p o := by
  refine ⟨fun d _ x d' events hstep => hstep.outbox?_eq,
    fun d hd hphase => h.sound.gone d hd (.inr hphase), fun p o => ?_⟩
  unfold outbox?
  rw [h.peers_eq]
  exact PeerRegistry.outbox?_eq_some_iff history

end

/-- A peer connects again, and then its first connection ends: the second stays registered. -/
theorem registry_of_run_replaced :
    let peer : PeerId := ⟨⟨Multihash.identity, [1, 2], by decide⟩, .inr ⟨rfl, by decide⟩⟩
    ∃ (s : Site MemoryStore) (d : Driving),
      Run [.added peer 0, .added peer 1, .removedIfSame peer 0] s ∧ d ∈ s.drives ∧
      d.phase = .ended ∧ d.outbox = 0 ∧ (∀ p, s.outbox? p ≠ some 0) ∧ s.outbox? peer = some 1 := by
  intro peer
  let x : Exchange MemoryStore := .new {} {} .allowAll .disabled
  have hx : x.peers = {} := rfl
  let first : Driving :=
    { driver := { connection := { peer }, outbox := 0 }
      queue := { capacity := Driver.outboxCapacity }
      io := ⟨{ capacity := 64, closed := true }, { capacity := 64 }⟩ }
  let second : Driving :=
    { driver := { connection := { peer }, outbox := 1 }
      queue := { capacity := Driver.outboxCapacity }
      io := .ofCapacity 64 }
  let x₂ := (x.connect peer 0).connect peer 1
  obtain ⟨s, hloop⟩ : ∃ s, (first.stateIn x₂).step? ⟨0⟩ true .inbound = some (s, some (.ok ())) := by
    have hended : ((first.stateIn x₂).step? ⟨0⟩ true .inbound).map Prod.snd = some (some (.ok ())) := by
      cbv
    obtain ⟨⟨s, r⟩, hs, rfl⟩ := Option.map_eq_some_iff.mp hended
    exact ⟨s, hs⟩
  have hlooped : first.Steps x₂ s.exchange (.ofState s .stopped) [] := .loop rfl hloop
  let third : Driving := { Driving.ofState s .stopped with phase := .leaving true }
  have hlooked : (Driving.ofState s .stopped).Steps s.exchange s.exchange third [] :=
    .look rfl fun _ => rfl
  have hleft : third.Steps s.exchange (third.stateIn s.exchange).finish.exchange
    (.ofState (third.stateIn s.exchange).finish .ended) [.removedIfSame peer 0] := by
      have hpeer : third.peer = peer := hlooped.peer_eq
      have houtbox : third.outbox = 0 := hlooped.outbox_eq
      rw [← hpeer, ← houtbox]
      exact .leave rfl
  have hnobody : ∀ q, x.peers.outbox? q = none := fun q => by rw [hx]; rfl
  have hone : Run [.added peer 0] ⟨x.connect peer 0, [first]⟩ :=
    Run.step (.start hx) (.start peer (fun d hd => absurd hd List.not_mem_nil)
      fun q hq => by rw [outbox?, hnobody] at hq; cases hq)
  have htwo : Run [.added peer 0, .added peer 1] ⟨x₂, [first, second]⟩ := by
    refine hone.step (.start peer (fun d hd => ?_) fun q hq => ?_)
    · obtain rfl := List.mem_singleton.mp hd
      decide
    · have hq : (x.peers.add peer 0).outbox? q = some 1 := hq
      rw [PeerRegistry.outbox?_add, hnobody] at hq
      split at hq <;> cases hq
  have hrun : Run [.added peer 0, .added peer 1, .removedIfSame peer 0] _ :=
    ((htwo.step (.drive (i := 0) rfl hlooped)).step (.drive (i := 0) rfl hlooked)).step
      (.drive (i := 0) rfl hleft)
  obtain ⟨-, hended, hstanding⟩ := registry_of_run hrun
  have houtbox : (Driving.ofState (third.stateIn s.exchange).finish .ended).outbox = 0 :=
    hleft.outbox_eq.trans hlooped.outbox_eq
  refine ⟨_, .ofState (third.stateIn s.exchange).finish .ended, hrun, List.mem_cons_self, rfl,
    houtbox, ?_, (hstanding peer 1).mpr ⟨[.added peer 0], [.removedIfSame peer 0], rfl, ?_⟩⟩
  · rw [← houtbox]
    exact hended _ List.mem_cons_self rfl
  · intro e he
    obtain rfl := List.mem_singleton.mp he
    exact fun h => absurd h.2 (by decide)

end Site
end BlockExchange
