import BlockExchange.Proofs.DriveSteps
import BlockExchange.Proofs.PayloadOrder
import BlockExchange.Proofs.Dispatching

/-!
# Replies that fail

A message is taken in before the first reply to it is sent, so a connection that fails takes nothing
back. `Exchange.Handles` follows one message over any connection, while others change the exchange
as they may: a run that fails and one in which everything is sent end with the same exchange
(`Handles.changes`, `handles_of_changes`). A driver sends over a pipe, step by step, and its steps
leave alone what the message brought (`DriveState.Writes.kept`).
-/

namespace BlockExchange

theorem Dispatch.Stands.takenBy_eq {ms rest : List Message} {calls : List (Message × Receipt)}
    {n : Nat} (h : Stands ms rest calls (some (.ok n))) : takenBy calls = ms := by
  cases h with
  | done hall _ => exact hall

namespace Exchange
variable {σ κ : Type} [BlockStore σ] {R : Exchange σ → Exchange σ → Prop}
  {send : κ → Message → κ × Receipt} {x y : Exchange σ} {peer : PeerId} {m : Message}
  {frames : List Message} {d : Dispatch} {s s₀ : κ} {calls : List (Message × Receipt)}
  {result : Option (Except SendError Nat)}

/-- What has come of handling a message over a connection `s₀`: the exchange, what is still to be
sent, the connection and the calls on it, and the result if there is one. In between others may
change the exchange as `R` says, and the connection as they like. -/
inductive Handles (R : Exchange σ → Exchange σ → Prop) (send : κ → Message → κ × Receipt)
    (x : Exchange σ) (peer : PeerId) (m : Message) (s₀ : κ) :
    Exchange σ → Dispatch → κ → List (Message × Receipt) → Option (Except SendError Nat) → Prop
  | absorbed {y : Exchange σ} {frames : List Message} (h : x.receive peer m = .ok (y, frames)) :
      Handles R send x peer m s₀ y ⟨frames.length, frames⟩ s₀ [] none
  | others {y z : Exchange σ} {d : Dispatch} {s : κ} {calls : List (Message × Receipt)}
      (h : Handles R send x peer m s₀ y d s calls none) (hothers : R y z) :
      Handles R send x peer m s₀ z d s calls none
  | change {y : Exchange σ} {d : Dispatch} {s : κ} {calls : List (Message × Receipt)}
      (h : Handles R send x peer m s₀ y d s calls none) (s' : κ) :
      Handles R send x peer m s₀ y d s' calls none
  | poll {y : Exchange σ} {d d' : Dispatch} {s s' : κ} {calls calls' : List (Message × Receipt)}
      {result : Option (Except SendError Nat)} (h : Handles R send x peer m s₀ y d s calls none)
      (hpoll : d.poll (recording send) (s, calls) = (d', (s', calls'), result)) :
      Handles R send x peer m s₀ y d' s' calls' result

/-- Sending changes nothing of the exchange. -/
theorem Handles.changes (h : Handles R send x peer m s₀ y d s calls result) :
    Relation.ReflTransGen R (x.absorb peer m) y := by
  induction h with
  | absorbed h =>
    rw [receive_eq] at h
    obtain ⟨rfl, -⟩ := Prod.mk.inj (Except.ok.inj h)
    exact .refl
  | others _ hothers ih => exact ih.tail hothers
  | change _ _ ih => exact ih
  | poll _ _ ih => exact ih

theorem Handles.polled (h : Handles R send x peer m s₀ y d s calls result)
    (hframes : x.receive peer m = .ok (x.absorb peer m, frames)) :
    Dispatch.Polled send ⟨frames.length, frames⟩ d s calls result := by
  induction h with
  | absorbed h =>
    obtain ⟨-, rfl⟩ := Prod.mk.inj (Except.ok.inj (h.symm.trans hframes))
    exact .start s₀
  | others _ _ ih => exact ih
  | change _ s' ih => exact ih.change s'
  | poll _ hpoll ih => exact ih.poll hpoll

/-- Whatever the others do, over a connection that takes everything the message can be handled so
that all of it is sent. -/
theorem handles_of_changes (haccepts : ∀ s n, (send s n).2 = .accepted)
    (hframes : x.receive peer m = .ok (x.absorb peer m, frames))
    (hchanges : Relation.ReflTransGen R (x.absorb peer m) y) (s₀ : κ) :
    ∃ d s calls, Handles R send x peer m s₀ y d s calls (some (.ok frames.length)) ∧
      takenBy calls = frames := by
  have hwaits : Handles R send x peer m s₀ y ⟨frames.length, frames⟩ s₀ [] none := by
    induction hchanges with
    | refl => exact .absorbed hframes
    | tail _ hothers ih => exact ih.others hothers
  have hrecords : ∀ t n, (recording send t n).2 = .accepted := fun t n => haccepts t.1 n
  let sent := frames.foldl (fun t n => (recording send t n).1) (s₀, [])
  have hpoll : Dispatch.poll (recording send) ⟨frames.length, frames⟩ (s₀, []) =
      (⟨frames.length, []⟩, (sent.1, sent.2), some (.ok frames.length)) := by
    unfold Dispatch.poll
    rw [deliver_of_accepts hrecords]
  have hdone := hwaits.poll hpoll
  exact ⟨_, sent.1, sent.2, hdone, ((hdone.polled hframes).stands rfl).2.takenBy_eq⟩

/-- Over a connection that fails, the calls end with the one that failed, and what was sent before
is not all that there was to send. -/
theorem Handles.failed (h : Handles R send x peer m s₀ y d s calls result)
    (hframes : x.receive peer m = .ok (x.absorb peer m, frames)) (hrefuses : Refuses calls) :
    ∃ earlier refused later e, result = some (.error e) ∧
      calls = earlier ++ [(refused, .failed e)] ∧ ¬ Refuses earlier ∧
      takenBy earlier ++ refused :: later = frames := by
  cases ((h.polled hframes).stands rfl).2 with
  | waiting _ hnone => exact absurd hrefuses hnone
  | done _ hnone => exact absurd hrefuses hnone
  | @failed earlier refused later e hall hnone =>
    exact ⟨earlier, refused, later, e, rfl, rfl, hnone, hall⟩

end Exchange

/-! ### A driver that writes -/

namespace DriveState
variable {σ : Type} {s t u : DriveState σ} {now : Timestamp} {held : Bool} {side : Side}
  {next : Next σ} {result : Option (Except DriveError Unit)}

/-- Writing moves on message by message, and leaves alone what messages brought. -/
structure Kept (s t : DriveState σ) : Prop where
  blocks : s.exchange.SameBlocks t.exchange
  haves : t.exchange.haves = s.exchange.haves
  sending : t.driver.sending <:+ s.driver.sending

theorem Kept.refl (s : DriveState σ) : Kept s s :=
  ⟨.refl _, rfl, List.suffix_rfl⟩

theorem Kept.trans (h : Kept s t) (h' : Kept t u) : Kept s u :=
  ⟨h.blocks.trans h'.blocks, h'.haves.trans h.haves, h'.sending.trans h.sending⟩

variable [BlockStore σ]

/-- Steps of a driver that has something to write, whatever becomes of its pipes in between. -/
inductive Writes (s : DriveState σ) : DriveState σ → Option (Except DriveError Unit) → Prop
  | start : Writes s s none
  | pipes {t : DriveState σ} (h : Writes s t none) (io : Duplex) : Writes s { t with io } none
  | step {t u : DriveState σ} {now : Timestamp} {held : Bool} {side : Side}
      {result : Option (Except DriveError Unit)} (h : Writes s t none)
      (hsending : t.driver.sending ≠ []) (hstep : t.step? now held side = some (u, result)) :
      Writes s u result

theorem Outcome.kept (h : s.Outcome now held side next) (hsending : s.driver.sending ≠ []) :
    Kept s next.1 ∧ (next.2 ≠ none → next.1.driver.sending = s.driver.sending) := by
  cases h with
  | begun _ _ _ => exact ⟨⟨.refl _, rfl, List.suffix_rfl⟩, fun _ => rfl⟩
  | notBegun _ _ _ _ => exact ⟨⟨.refl _, rfl, List.suffix_rfl⟩, fun _ => rfl⟩
  | @written _ _ m rest c io j hs _ hfinish =>
    obtain rfl := Connection.journal_of_finish hfinish
    refine ⟨⟨⟨rfl, rfl, rfl, rfl⟩, rfl, ?_⟩, fun hnone => absurd rfl hnone⟩
    rw [hs]
    exact List.suffix_cons m rest
  | notWritten _ _ _ _ => exact ⟨⟨.refl _, rfl, List.suffix_rfl⟩, fun _ => rfl⟩
  | read hidle | notRead hidle | taken hidle | drained hidle => exact absurd hidle hsending

theorem Writes.kept (h : s.Writes t result) :
    Kept s t ∧ ∀ e, result = some (.error e) → t.driver.sending ≠ [] := by
  induction h with
  | start => exact ⟨.refl s, nofun⟩
  | pipes _ io ih => exact ⟨ih.1.trans ⟨.refl _, rfl, List.suffix_rfl⟩, nofun⟩
  | step _ hsending hstep ih =>
    obtain ⟨hkept, hstays⟩ := (outcome_of_step? hstep).kept hsending
    refine ⟨ih.1.trans hkept, fun e he => ?_⟩
    rw [hstays (by rw [he]; nofun)]
    exact hsending

/-- A driver that has nothing to write reads this message, and finds the exchange like this. -/
structure Reads (s : DriveState σ) (x : Exchange σ) (peer : PeerId) (m : Message)
    (t : DriveState σ) : Prop where
  idle : s.driver.sending = []
  step : ∃ now held c io j, s.driver.connection.receive s.io s.exchange.journal now =
    (c, io, j, .message m) ∧ c.peer = peer ∧ { s.exchange with journal := j } = x ∧
      s.step? now held .inbound = some (t, none)

theorem Reads.receive_eq {x : Exchange σ} {peer : PeerId} {m : Message} (h : s.Reads x peer m t) :
    x.receive peer m = .ok (t.exchange, t.driver.sending) := by
  obtain ⟨hidle, now, held, c, io, j, hreceive, rfl, rfl, hstep⟩ := h
  have houtcome := outcome_of_step? hstep
  generalize hnext : (t, (none : Option (Except DriveError Unit))) = next at houtcome
  cases houtcome with
  | begun hs | notBegun hs | written hs | notWritten hs =>
    rw [hidle] at hs
    cases hs
  | read _ hreceive' hx =>
    obtain ⟨rfl, -⟩ := Prod.mk.inj hnext
    obtain ⟨rfl, rfl, rfl, hm⟩ : c = _ ∧ io = _ ∧ j = _ ∧ _ = _ := by
      simpa only [Prod.mk.injEq] using hreceive.symm.trans hreceive'
    cases hm
    exact hx
  | notRead _ hreceive' hanswer =>
    exact absurd (congrArg (·.2.2.2) (hreceive.symm.trans hreceive')).symm (hanswer m)

end DriveState

namespace Exchange
variable {σ : Type}

/-- A future that waits for one of the blocks of a message has a block once it is taken in. -/
theorem exists_delivered_absorb {x : Exchange σ} {m : Message} {w : Want} {f : WantFuture}
    {b : HashedBlock} (hf : x.wants.Tracks w f .pending) (hb : b ∈ verified m.payload)
    (hcid : b.cid = w.cid) (peer : PeerId) :
    ∃ c, (x.absorb peer m).wants.poll f = .delivered c ∧ c.cid = w.cid := by
  have hwants : (x.absorb peer m).wants = x.wants.run ((verified m.payload).map .resolve) := by
    rw [wants_absorb, wants_foldl_absorbBlock]
  have hpoll := (hf.run ((verified m.payload).map .resolve)).poll_eq
  rw [← hwants, WantTable.firstBlock?_resolves] at hpoll
  cases hfind : (verified m.payload).find? fun c => c.cid = w.cid with
  | none => exact absurd (decide_eq_true hcid) (List.find?_eq_none.mp hfind b hb)
  | some c =>
    rw [hfind] at hpoll
    have hc := List.find?_some hfind
    exact ⟨c, hpoll, by simpa using hc⟩

/-- A message is handled over a connection that fails: it ends in the error, the connection has
taken some of the replies and not all, and everything else is as if all had been sent, whatever
others do to the exchange meanwhile. So no block that came with the message is lost. It is the same
with a driver, which sends step by step. -/
theorem failed_reply_loses_nothing [BlockStore σ] (x : Exchange σ) (peer : PeerId) (m : Message) :
    ∃ frames, x.receive peer m = .ok (x.absorb peer m, frames) ∧
      (∀ w f b, x.wants.Tracks w f .pending → b ∈ verified m.payload → b.cid = w.cid →
        ∃ c, (x.absorb peer m).wants.poll f = .delivered c ∧ c.cid = w.cid) ∧
      (∀ (κ : Type) (send : κ → Message → κ × Receipt) (R : Exchange σ → Exchange σ → Prop)
        s₀ y d s calls result, Handles R send x peer m s₀ y d s calls result → Refuses calls →
        (∃ earlier refused later e, result = some (.error e) ∧
          calls = earlier ++ [(refused, .failed e)] ∧ ¬ Refuses earlier ∧
          takenBy earlier ++ refused :: later = frames) ∧
        Relation.ReflTransGen R (x.absorb peer m) y ∧
        ∀ (κ' : Type) (healthy : κ' → Message → κ' × Receipt),
          (∀ s n, (healthy s n).2 = .accepted) → ∀ s₁, ∃ d' s' calls',
            Handles R healthy x peer m s₁ y d' s' calls' (some (.ok frames.length)) ∧
            takenBy calls' = frames) ∧
      ∀ (s t u : DriveState σ) (e : DriveError), s.Reads x peer m t → t.Writes u (some (.error e)) →
        (∃ written refused later, written ++ refused :: later = frames ∧
          u.driver.sending = refused :: later) ∧
        (x.absorb peer m).SameBlocks u.exchange ∧
        u.exchange.haves = (x.absorb peer m).haves := by
  have hframes := x.receive_eq peer m
  refine ⟨_, hframes, fun w f b hf hb hcid => exists_delivered_absorb hf hb hcid peer,
    fun κ send R s₀ y d s calls result h hrefuses => ?_, fun s t u e hread hwrites => ?_⟩
  · refine ⟨h.failed hframes hrefuses, h.changes, fun κ' healthy haccepts s₁ => ?_⟩
    exact handles_of_changes haccepts hframes h.changes s₁
  · have hsame := hframes.symm.trans hread.receive_eq
    obtain ⟨hexchange, hsending⟩ := Prod.mk.inj (Except.ok.inj hsame)
    obtain ⟨⟨hblocks, hhaves, written, hwritten⟩, hleft⟩ := hwrites.kept
    rw [hexchange, hsending]
    refine ⟨?_, hblocks, hhaves⟩
    obtain ⟨refused, later, hlater⟩ := List.exists_cons_of_ne_nil (hleft e rfl)
    exact ⟨written, refused, later, hlater ▸ hwritten, hlater⟩

/-- A block that is wanted comes with two requests, and the connection takes one of the two
replies. -/
theorem failed_reply_loses_nothing_second :
    let hello : Want := ⟨.raw [104, 101, 108, 108, 111], none⟩
    let peer : PeerId := ⟨⟨Multihash.identity, [1], by decide⟩, .inr ⟨rfl, by decide⟩⟩
    let x₀ : Exchange MemoryStore := .new { maxMessageSize := 0 } {} .allowAll .disabled
    let x := (x₀.register ⟨0⟩ hello).1
    let f := (x₀.register ⟨0⟩ hello).2
    let m : Message :=
      { wantlist := some { entries := [.want ⟨.raw [1], none⟩ .have true,
          .want ⟨.raw [2], none⟩ .have true] }
        payload := [.ofParts hello.cid [104, 101, 108, 108, 111] none] }
    let sink : Collector := { limit := some 1 }
    ∃ a b y d s calls, x.receive peer m = .ok (y, [a, b]) ∧
      Handles (fun _ _ => False) Collector.send x peer m sink y d s calls
        (some (.error .refused)) ∧
      Refuses calls ∧ takenBy calls = [a] ∧
      (∃ earlier refused later e, calls = earlier ++ [(refused, .failed e)] ∧
        takenBy earlier ++ refused :: later = [a, b]) ∧
      ∃ c, y.wants.poll f = .delivered c ∧ c.cid = hello.cid := by
  intro hello peer x₀ x f m sink
  obtain ⟨frames, hframes, hdelivered, hfails, -⟩ := failed_reply_loses_nothing x peer m
  have htwo : frames.length = 2 := by
    obtain ⟨-, rfl⟩ := Prod.mk.inj (Except.ok.inj (hframes.symm.trans (x.receive_eq peer m)))
    decide +kernel
  obtain ⟨a, b, rfl⟩ := List.length_eq_two.mp htwo
  have hhandled : Handles (fun _ _ => False) Collector.send x peer m sink (x.absorb peer m)
      ⟨2, [a, b]⟩ { sink with messages := [a] } [(a, .accepted), (b, .failed .refused)]
      (some (.error .refused)) := (Handles.absorbed hframes).poll rfl
  have hrefuses : Refuses [(a, .accepted), (b, .failed .refused)] := ⟨b, .refused, by simp⟩
  obtain ⟨⟨earlier, refused, later, e, -, hcalls, -, htaken⟩, -⟩ :=
    hfails _ _ _ _ _ _ _ _ _ hhandled hrefuses
  have hwaits : x.wants.Tracks hello f .pending :=
    (WantTable.valid_new _).tracks_register ⟨0⟩ hello
  have hnames : hello.cid.Names [104, 101, 108, 108, 111] := Cid.names_ofData _ _
  have hmem : ⟨hello.cid, _, hnames⟩ ∈ verified m.payload :=
    mem_verified_iff.mpr ⟨_, List.mem_singleton_self _, BlockRecord.toHashed_ofParts hnames none⟩
  exact ⟨a, b, _, _, _, _, hframes, hhandled, hrefuses, rfl,
    ⟨earlier, refused, later, e, hcalls, htaken⟩, hdelivered hello f _ hwaits hmem rfl⟩

end Exchange
end BlockExchange
