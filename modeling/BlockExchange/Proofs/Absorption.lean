import BlockExchange.Exchange.Receive
import BlockExchange.Proofs.Prefixes

/-!
# What taking a message in changes

A block changes the wants and the counters, a presence the have table, and nothing else changes
(`absorbBlock_eq`, `absorbPresence_eq`). Receiving never fails: it takes the message in and answers
it (`receive_eq`).
-/

namespace BlockExchange

namespace BlockRecord
variable {b : BlockRecord} {h : HashedBlock}

theorem toHashed_eq_ok_iff : b.toHashed = .ok h ↔
    ∃ p, Prefix.ofBytes b.cidPrefix = .ok p ∧ p.toCid b.data = .ok h.cid ∧ h.data = b.data := by
  unfold toHashed
  cases hp : Prefix.ofBytes b.cidPrefix with
  | error e => simp
  | ok p =>
    simp only [Except.ok.injEq, exists_eq_left']
    exact HashedBlock.ofPrefix_eq_ok_iff

/-- The record of content that has its right name is read as that block. -/
theorem toHashed_ofParts {c : Cid} {data : Bytes} (hn : c.Names data) (auth : Option AuthToken) :
    (ofParts c data auth).toHashed = .ok ⟨c, data, hn⟩ :=
  toHashed_eq_ok_iff.mpr ⟨_, Prefix.ofBytes_toBytes _, Prefix.toCid_ofCid hn, rfl⟩

end BlockRecord

namespace Exchange

variable {σ : Type} {x : Exchange σ}

/-! ### One block -/

section
variable {b : BlockRecord} {h : HashedBlock}

theorem absorbBlock_of_error {e : BlockError} (he : b.toHashed = .error e) :
    x.absorbBlock b = { x with journal := x.journal.blockRejected } := by
  unfold absorbBlock; rw [he]

theorem absorbBlock_of_wanted (hb : b.toHashed = .ok h) (hw : (x.wants.resolve h).2 = true) :
    x.absorbBlock b =
      { x with wants := (x.wants.resolve h).1, journal := x.journal.blockReceived } := by
  unfold absorbBlock
  simp only [hb]
  split
  · rename_i hr; rw [hr]
  · rename_i hr; rw [hr] at hw; cases hw

theorem absorbBlock_of_unwanted (hb : b.toHashed = .ok h) (hw : (x.wants.resolve h).2 = false) :
    x.absorbBlock b = { x with journal := x.journal.unwantedBlock } := by
  unfold absorbBlock
  simp only [hb]
  split
  · rename_i hr; rw [hr] at hw; cases hw
  · rfl

/-- A block is refused, completes wants, or is not wanted. -/
theorem absorbBlock_cases (x : Exchange σ) (b : BlockRecord) :
    (∃ e, b.toHashed = .error e ∧ x.absorbBlock b = { x with journal := x.journal.blockRejected }) ∨
    (∃ h, b.toHashed = .ok h ∧ (x.wants.resolve h).2 = true ∧ x.absorbBlock b =
      { x with wants := (x.wants.resolve h).1, journal := x.journal.blockReceived }) ∨
    (∃ h, b.toHashed = .ok h ∧ (x.wants.resolve h).2 = false ∧
      x.absorbBlock b = { x with journal := x.journal.unwantedBlock }) := by
  cases hb : b.toHashed with
  | error e => exact .inl ⟨e, rfl, absorbBlock_of_error hb⟩
  | ok h =>
    cases hw : (x.wants.resolve h).2 with
    | true => exact .inr (.inl ⟨h, rfl, hw, absorbBlock_of_wanted hb hw⟩)
    | false => exact .inr (.inr ⟨h, rfl, hw, absorbBlock_of_unwanted hb hw⟩)

theorem wants_absorbBlock (x : Exchange σ) (b : BlockRecord) :
    (x.absorbBlock b).wants = x.wants ∨ ∃ h, (x.absorbBlock b).wants = (x.wants.resolve h).1 := by
  rcases x.absorbBlock_cases b with ⟨_, -, hx⟩ | ⟨h, -, -, hx⟩ | ⟨_, -, -, hx⟩ <;> rw [hx]
  · exact .inl rfl
  · exact .inr ⟨h, rfl⟩
  · exact .inl rfl

theorem absorbBlock_eq (x : Exchange σ) (b : BlockRecord) :
    x.absorbBlock b =
      { x with wants := (x.absorbBlock b).wants, journal := (x.absorbBlock b).journal } := by
  rcases x.absorbBlock_cases b with ⟨_, -, hx⟩ | ⟨h, -, -, hx⟩ | ⟨_, -, -, hx⟩ <;> rw [hx]

end

/-! ### One presence -/

theorem absorbPresence_eq (peer : PeerId) (x : Exchange σ) (p : Presence) :
    absorbPresence peer x p = { x with haves := (absorbPresence peer x p).haves } := by
  unfold absorbPresence; split
  · split <;> rfl
  · rfl

/-! ### A whole message -/

theorem foldl_absorbBlock_eq (x : Exchange σ) (bs : List BlockRecord) :
    bs.foldl absorbBlock x =
      { x with wants := (bs.foldl absorbBlock x).wants, journal := (bs.foldl absorbBlock x).journal } := by
  induction bs generalizing x with
  | nil => rfl
  | cons b bs ih =>
    rw [List.foldl_cons, ih (x.absorbBlock b), absorbBlock_eq x b]

theorem foldl_absorbPresence_eq (peer : PeerId) (x : Exchange σ) (ps : List Presence) :
    ps.foldl (absorbPresence peer) x =
      { x with haves := (ps.foldl (absorbPresence peer) x).haves } := by
  induction ps generalizing x with
  | nil => rfl
  | cons p ps ih =>
    rw [List.foldl_cons, ih (absorbPresence peer x p), absorbPresence_eq peer x p]

theorem absorb_eq (x : Exchange σ) (peer : PeerId) (m : Message) :
    x.absorb peer m = { m.payload.foldl absorbBlock x with haves := (x.absorb peer m).haves } :=
  foldl_absorbPresence_eq peer _ m.presences

/-- No message is turned away for its sender. -/
theorem receive_eq [BlockStore σ] (x : Exchange σ) (peer : PeerId) (m : Message) :
    x.receive peer m = .ok (x.absorb peer m, x.packReplies m.traceId
      (x.replies (Cid.v1 Codec.peerKey peer.hash) m)) := by
  unfold receive
  rw [peer.cid_eq]
  rfl

end Exchange
end BlockExchange
