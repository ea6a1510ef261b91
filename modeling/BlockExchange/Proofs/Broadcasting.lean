import BlockExchange.Proofs.ExchangeRun

/-!
# What a broadcast queues

`Broadcast.Queues` are the steps of a broadcast, with the messages that they put into one outbox;
what happens to the outboxes between the steps is left open. A broadcast to one peer puts the messages
of its wantlist there in order, all of them if it counts the peer, and else the first of them up to
where the outbox was closed (`prefix_of_queues`).
-/

namespace BlockExchange

/-- What the messages handed over are to all the messages. -/
def Delivery.Handed (all handed : List Message) : Delivery → Prop
  | .done => handed = all
  | .waiting rest => handed ++ rest = all
  | .failed _ => handed <+: all

namespace Outbox
variable (task : TaskId) (box : Outbox)

theorem queue_offer (m : Message) : (box.offer task m).1.queue =
    if (box.offer task m).2 = .accepted then box.queue ++ [m] else box.queue := by
  unfold offer
  split
  · rfl
  · split
    · rfl
    · split <;> rfl

theorem queue_send (m : Message) : (box.send task m).1.queue =
    if (box.send task m).2 = .accepted then box.queue ++ [m] else box.queue := by
  have hq := box.queue_offer task m
  unfold send
  split <;> (rename_i ho; rw [ho] at hq; exact hq)

/-- Handing messages to an outbox puts those that it takes behind its queue. -/
theorem queue_deliver (ms : List Message) :
    ∃ handed, (deliver (send task) box ms).1.queue = box.queue ++ handed ∧
      (deliver (send task) box ms).2.Handed ms handed := by
  induction ms generalizing box with
  | nil => exact ⟨[], (List.append_nil _).symm, rfl⟩
  | cons m ms ih =>
    have hq := box.queue_send task m
    unfold deliver
    split
    · rename_i box' hsend
      rw [hsend, if_pos rfl] at hq
      obtain ⟨handed, hqueue, hhanded⟩ := ih box'
      refine ⟨m :: handed, ?_, ?_⟩
      · rw [hqueue, hq, List.append_assoc]
        rfl
      · cases hd : (deliver (send task) box' ms).2 with
        | done => rw [hd] at hhanded; exact congrArg (m :: ·) hhanded
        | waiting rest => rw [hd] at hhanded; exact congrArg (m :: ·) hhanded
        | failed e => rw [hd] at hhanded; exact List.cons_prefix_cons.mpr ⟨rfl, hhanded⟩
    · rename_i box' hsend
      rw [hsend, if_neg nofun] at hq
      exact ⟨[], by rw [List.append_nil]; exact hq, rfl⟩
    · rename_i box' e hsend
      rw [hsend, if_neg nofun] at hq
      exact ⟨[], by rw [List.append_nil]; exact hq, List.nil_prefix⟩

/-- An open outbox that nobody waits for takes all the messages that it has room for. -/
theorem deliver_of_room {box : Outbox} (hopen : box.isOpen = true) (hw : box.waiting = [])
    {ms : List Message} (hroom : ms.length ≤ box.room) :
    deliver (send task) box ms = ({ box with queue := box.queue ++ ms }, .done) := by
  induction ms generalizing box with
  | nil =>
    show (box, _) = _
    rw [List.append_nil]
  | cons m ms ih =>
    rw [List.length_cons] at hroom
    have hadmits : box.admits task = true := by
      unfold admits
      rw [hw]
      exact decide_eq_true (Nat.lt_of_lt_of_le (Nat.succ_pos _) hroom)
    have hsend : box.send task m = ({ box with queue := box.queue ++ [m] }, .accepted) := by
      unfold send offer leave
      simp only [hopen, hadmits, hw, Bool.not_true, Bool.false_eq_true, if_true, if_false,
        List.erase_nil]
    have hnext : ms.length ≤ ({ box with queue := box.queue ++ [m] } : Outbox).room := by
      show ms.length ≤ box.capacity - (box.queue ++ [m]).length
      unfold room at hroom
      rw [List.length_append, List.length_singleton]
      omega
    have hrest : deliver (send task) { box with queue := box.queue ++ [m] } ms = _ :=
      ih hopen hw hnext
    rw [deliver, hsend]
    show deliver (send task) { box with queue := box.queue ++ [m] } ms = _
    rw [hrest, List.append_assoc]
    rfl

end Outbox

/-- The messages in an outbox; none if there is no such outbox. -/
def Outboxes.queueAt (boxes : Outboxes) (o : OutboxId) : List Message :=
  (boxes[o]?.map Outbox.queue).getD []

theorem Outboxes.queueAt_of_getElem? {boxes : Outboxes} {o : OutboxId} {box : Outbox}
    (h : boxes[o]? = some box) : boxes.queueAt o = box.queue := by
  rw [queueAt, h]
  rfl

theorem Outboxes.queueAt_set {boxes : Outboxes} {o : OutboxId} {box : Outbox}
    (h : boxes[o]? = some box) (box' : Outbox) : queueAt (boxes.set o box') o = box'.queue := by
  obtain ⟨hlt, -⟩ := List.getElem?_eq_some_iff.mp h
  exact queueAt_of_getElem? (List.getElem?_set_self hlt)

namespace Broadcast
variable {σ : Type} {task : TaskId} {o : OutboxId} {b c d : Broadcast} {x y z : Exchange σ}
  {boxes : Outboxes} {all queued ms : List Message}

/-- Steps of a broadcast and the messages that they put into one outbox, whatever others do to the
outboxes in between. -/
inductive Queues (task : TaskId) (o : OutboxId) :
    Broadcast → Exchange σ → List Message → Broadcast → Exchange σ → Prop
  | refl (b : Broadcast) (x : Exchange σ) : Queues task o b x [] b x
  | step {b c d : Broadcast} {x y z : Exchange σ} {boxes after : Outboxes} {ms more : List Message}
      (h : b.step? task x boxes = some (c, y, after))
      (hqueue : after.queueAt o = boxes.queueAt o ++ ms) (rest : Queues task o c y more d z) :
      Queues task o b x (ms ++ more) d z

/-- Where a broadcast stands that has no other peer to tell, with what it has queued of `all`. -/
inductive Stands (o : OutboxId) (all queued : List Message) (b : Broadcast) : Prop
  | waiting {rest : List Message} (ht : b.targets = []) (hw : b.waiting = some (o, rest))
      (hs : b.sent = 0) (hq : queued ++ rest = all)
  | told (ht : b.targets = []) (hw : b.waiting = none) (hs : b.sent = 1) (hq : queued = all)
  | failed (ht : b.targets = []) (hw : b.waiting = none) (hs : b.sent = 0) (hq : queued <+: all)

theorem Stands.after (earlier : List Message) (h : b.Stands o all queued) :
    b.Stands o (earlier ++ all) (earlier ++ queued) := by
  cases h with
  | waiting ht hw hs hq => exact .waiting ht hw hs (by rw [List.append_assoc, hq])
  | told ht hw hs hq => exact .told ht hw hs (congrArg (earlier ++ ·) hq)
  | failed ht hw hs hq => exact .failed ht hw hs ((List.prefix_append_right_inj earlier).mpr hq)

theorem stands_tell (task : TaskId) (boxes : Outboxes) (o : OutboxId) (ms : List Message)
    (ht : b.targets = []) (hs : b.sent = 0) :
    ∃ handed, (b.tell task boxes o ms).2.queueAt o = boxes.queueAt o ++ handed ∧
      (b.tell task boxes o ms).1.Stands o ms handed := by
  unfold tell
  cases hbox : boxes[o]? with
  | none => exact ⟨[], (List.append_nil _).symm, .failed ht rfl hs List.nil_prefix⟩
  | some box =>
    obtain ⟨handed, hqueue, hhanded⟩ := box.queue_deliver task ms
    refine ⟨handed, ?_, ?_⟩
    · rw [Outboxes.queueAt_of_getElem? hbox]
      exact (Outboxes.queueAt_set hbox _).trans hqueue
    · show Stands o ms handed (match (deliver (Outbox.send task) box ms).2 with
        | .done => _
        | .waiting rest => _
        | .failed _ => _)
      cases hd : (deliver (Outbox.send task) box ms).2 with
      | done =>
        rw [hd] at hhanded
        exact .told ht rfl (congrArg (· + 1) hs) hhanded
      | waiting rest =>
        rw [hd] at hhanded
        exact .waiting ht rfl hs hhanded
      | failed e =>
        rw [hd] at hhanded
        exact .failed ht rfl hs hhanded

theorem Stands.prefix (h : b.Stands o all queued) : queued <+: all := by
  cases h with
  | waiting _ _ _ hq => exact ⟨_, hq⟩
  | told _ _ _ hq => exact ⟨[], by rw [List.append_nil, hq]⟩
  | failed _ _ _ hq => exact hq

theorem Stands.eq_of_sent (h : b.Stands o all queued) (hs : b.sent = 1) : queued = all := by
  cases h with
  | waiting _ _ h0 _ => rw [h0] at hs; cases hs
  | told _ _ _ hq => exact hq
  | failed _ _ h0 _ => rw [h0] at hs; cases hs

theorem tell_of_done {box box' : Outbox} (hbox : boxes[o]? = some box)
    (hdone : deliver (Outbox.send task) box ms = (box', .done)) :
    b.tell task boxes o ms = ({ b with waiting := none, sent := b.sent + 1 }, boxes.set o box') := by
  unfold tell
  simp only [hbox, hdone]

/-- One step queues the next of the messages. -/
theorem Stands.step {after : Outboxes} (h : b.Stands o all queued)
    (hstep : b.step? task x boxes = some (c, y, after))
    (hqueue : after.queueAt o = boxes.queueAt o ++ ms) : y = x ∧ c.Stands o all (queued ++ ms) := by
  unfold step? at hstep
  cases h with
  | @waiting rest ht hw hs hq =>
    simp only [hw] at hstep
    split at hstep
    · cases hstep
    · obtain ⟨handed, htold, hstands⟩ := stands_tell task boxes o rest ht hs
      obtain ⟨rfl, rfl, rfl⟩ : _ = c ∧ x = y ∧ _ = after := by
        simpa only [Option.some.injEq, Prod.mk.injEq] using hstep
      obtain rfl : handed = ms := List.append_cancel_left (htold.symm.trans hqueue)
      exact ⟨rfl, hq ▸ hstands.after queued⟩
  | told ht hw hs hq =>
    simp only [hw, ht] at hstep
    cases hstep
  | failed ht hw hs hq =>
    simp only [hw, ht] at hstep
    cases hstep

theorem Stands.queues {more : List Message} (h : b.Stands o all queued)
    (hq : Queues task o b x more c y) : y = x ∧ c.Stands o all (queued ++ more) := by
  induction hq generalizing queued with
  | refl b x => exact ⟨rfl, by rw [List.append_nil]; exact h⟩
  | step hstep hqueue _ ih =>
    obtain ⟨rfl, hc⟩ := h.step hstep hqueue
    obtain ⟨rfl, hd⟩ := ih hc
    exact ⟨rfl, by rw [← List.append_assoc]; exact hd⟩

/-- The next connected peer is told of all the entries, under a trace id of its own. -/
theorem step?_of_target {p : PeerId} {targets : List PeerId} (hw : b.waiting = none)
    (ht : b.targets = p :: targets) (hp : x.peers.outbox? p = some o) {after : Outboxes}
    (htell : tell task { b with targets } boxes o
      (pack x.maxMessageSize x.newTraceId.2 b.entries [] []) = (c, after)) :
    b.step? task x boxes = some (c, x.newTraceId.1, after) := by
  have hmax : x.newTraceId.1.maxMessageSize = x.maxMessageSize := by rw [Exchange.newTraceId_eq]
  unfold step?
  simp only [hw, ht, hp, hmax]
  rw [hw] at htell
  rw [htell]

theorem step?_of_not_connected {p : PeerId} {targets : List PeerId} (hw : b.waiting = none)
    (ht : b.targets = p :: targets) (hp : x.peers.outbox? p = none) :
    b.step? task x boxes = some ({ b with targets }, x, boxes) := by
  unfold step?
  simp only [hw, ht, hp]

theorem Queues.eq_of_targets_nil (hw : b.waiting = none) (ht : b.targets = [])
    (hq : Queues task o b x queued c y) : queued = [] ∧ b = c ∧ x = y := by
  cases hq with
  | refl => exact ⟨rfl, rfl, rfl⟩
  | step hstep _ _ =>
    unfold step? at hstep
    simp only [hw, ht] at hstep
    cases hstep

end Broadcast

namespace Exchange
variable {σ : Type} {x y : Exchange σ} {task : TaskId} {o : OutboxId} {b : Broadcast}
  {queued : List Message}

/-- The messages that tell a single peer what is wanted. -/
def wantFrames (x : Exchange σ) (now : Duration) : List Message :=
  pack x.maxMessageSize x.newTraceId.2 (x.wantEntries now 1) [] []

/-- What wants that are sent to a peer put into its outbox; nothing if it is not connected. -/
theorem prefix_of_queues {now : Duration} {p : PeerId} (hp : ∀ q ∈ x.peers.outbox? p, q = o)
    (hq : Broadcast.Queues task o (x.sendWants now [p]) x queued b y) :
    (y = x ∨ y = x.newTraceId.1) ∧ queued <+: x.wantFrames now ∧
      (b.sent = 1 → queued = x.wantFrames now) := by
  cases he : (x.wantEntries now 1).isEmpty with
  | true =>
    obtain ⟨rfl, rfl, rfl⟩ := hq.eq_of_targets_nil rfl (if_pos he)
    exact ⟨.inl rfl, List.nil_prefix, nofun⟩
  | false =>
    have ht : (x.sendWants now [p]).targets = [p] := if_neg (Bool.eq_false_iff.mp he)
    cases hq with
    | refl => exact ⟨.inl rfl, List.nil_prefix, nofun⟩
    | @step _ _ _ _ _ _ boxes _ _ _ hstep hqueue rest =>
      cases hbox : x.peers.outbox? p with
      | none =>
        rw [Broadcast.step?_of_not_connected rfl ht hbox] at hstep
        obtain ⟨rfl, rfl, rfl⟩ := by
          simpa only [Option.some.injEq, Prod.mk.injEq] using hstep
        obtain rfl := List.self_eq_append_right.mp hqueue
        obtain ⟨rfl, rfl, rfl⟩ := rest.eq_of_targets_nil rfl rfl
        exact ⟨.inl rfl, List.nil_prefix, nofun⟩
      | some q =>
        obtain rfl := hp q hbox
        rw [Broadcast.step?_of_target rfl ht hbox rfl] at hstep
        obtain ⟨rfl, rfl, rfl⟩ := by
          simpa only [Option.some.injEq, Prod.mk.injEq] using hstep
        have hrest : ({ x.sendWants now [p] with targets := [] } : Broadcast).sent = 0 := rfl
        obtain ⟨handed, htold, hstands⟩ :=
          Broadcast.stands_tell task boxes q (x.wantFrames now) rfl hrest
        obtain rfl := List.append_cancel_left (htold.symm.trans hqueue)
        obtain ⟨rfl, hb⟩ := hstands.queues rest
        exact ⟨.inr rfl, hb.prefix, hb.eq_of_sent⟩

/-- With room in the peer's outbox, everything is queued at once. -/
theorem queues_of_room {now : Duration} {p : PeerId} (hp : x.peers.outbox? p = some o)
    (he : x.wantEntries now 1 ≠ []) {boxes : Outboxes} {box : Outbox} (hbox : boxes[o]? = some box)
    (hopen : box.isOpen = true) (hw : box.waiting = [])
    (hroom : (x.wantFrames now).length ≤ box.room) (task : TaskId) :
    ∃ told, Broadcast.Queues task o (x.sendWants now [p]) x (x.wantFrames now) told x.newTraceId.1 ∧
      told.sent = 1 := by
  have ht : (x.sendWants now [p]).targets = [p] := if_neg (mt List.isEmpty_iff.mp he)
  have hdone := box.deliver_of_room task hopen hw hroom
  have hstep := Broadcast.step?_of_target rfl ht hp (Broadcast.tell_of_done hbox hdone)
  have hqueue : Outboxes.queueAt (boxes.set o { box with queue := box.queue ++ x.wantFrames now }) o =
      boxes.queueAt o ++ x.wantFrames now := by
    rw [Outboxes.queueAt_set hbox, Outboxes.queueAt_of_getElem? hbox]
  have hrun := Broadcast.Queues.step hstep hqueue (.refl _ _)
  rw [List.append_nil] at hrun
  exact ⟨_, hrun, rfl⟩

end Exchange
end BlockExchange
