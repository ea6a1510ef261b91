import BlockExchange.Proofs.FewestMessages
import BlockExchange.Proofs.WantAges
import BlockExchange.Store.Memory

/-!
# Whom a broadcast reaches

A peer is reached over the outbox it is registered with, if that is open (`Exchange.openOutbox?`). A
broadcast serves some of its targets (`Broadcast.Serves`): each that is reached gets the messages of
all entries and is counted, and nothing goes anywhere else. One move serves one target at most
(`serves_of_step?`), and what was served adds up over all moves (`Tells.serves`).
-/

namespace BlockExchange

/-! ### How many messages there are -/

theorem Cutting.length_le {maxSize : Nat} {traceId : String} {records : List PackRecord}
    {runs : List (List PackRecord)} (h : Cutting maxSize traceId records runs) :
    runs.length ≤ records.length := by
  rw [← h.flatten]
  have hne := h.nonempty
  clear h
  induction runs with
  | nil => exact Nat.le_refl 0
  | cons run runs ih =>
    obtain ⟨hrun, hruns⟩ := List.forall_mem_cons.mp hne
    have hpos := List.length_pos_of_ne_nil hrun
    have hrest := ih hruns
    simp only [List.flatten_cons, List.length_append, List.length_cons]
    omega

theorem length_pack_le (maxSize : Nat) (traceId : String) (entries : List Entry) :
    (pack maxSize traceId entries [] []).length ≤ entries.length := by
  obtain ⟨runs, hcut, hfinish, -⟩ :=
    Batch.exists_cutting maxSize traceId (PackRecord.ofLists entries [] [])
  rw [pack_eq_finish, hfinish, List.length_map]
  simpa [PackRecord.ofLists] using hcut.length_le

/-! ### Open outboxes -/

def Outboxes.isOpenAt (boxes : Outboxes) (o : OutboxId) : Bool :=
  boxes[o]?.any Outbox.isOpen

/-- Every open outbox has room for this many messages, and nobody waits for it. -/
def Outboxes.Roomy (boxes : Outboxes) (n : Nat) : Prop :=
  ∀ (o : OutboxId) (box : Outbox), boxes[o]? = some box → box.isOpen = true →
    box.waiting = [] ∧ n ≤ box.room

theorem Outboxes.Roomy.mono {boxes : Outboxes} {m n : Nat} (h : boxes.Roomy n) (hle : m ≤ n) :
    boxes.Roomy m := by
  intro o box hbox hopen
  obtain ⟨hline, hroom⟩ := h o box hbox hopen
  exact ⟨hline, Nat.le_trans hle hroom⟩

theorem Outboxes.isOpenAt_set {boxes : Outboxes} {o : OutboxId} {box box' : Outbox}
    (hbox : boxes[o]? = some box) (hopen : box'.isOpen = box.isOpen) (q : OutboxId) :
    isOpenAt (boxes.set o box') q = boxes.isOpenAt q := by
  obtain ⟨hlt, -⟩ := List.getElem?_eq_some_iff.mp hbox
  unfold isOpenAt
  by_cases hq : q = o
  · subst hq
    simp [List.getElem?_set_self hlt, hbox, hopen]
  · rw [List.getElem?_set_ne (Ne.symm hq)]

/-- Messages in one outbox take their own room and no other. -/
theorem Outboxes.Roomy.post {boxes : Outboxes} {o : OutboxId} {box : Outbox} {k n : Nat}
    {ms : List Message} (h : boxes.Roomy (k + n)) (hbox : boxes[o]? = some box)
    (hms : ms.length ≤ k) : Roomy (boxes.set o { box with queue := box.queue ++ ms }) n := by
  intro q box' hbox' hopen
  obtain ⟨hlt, -⟩ := List.getElem?_eq_some_iff.mp hbox
  by_cases hq : q = o
  · subst hq
    rw [List.getElem?_set_self hlt] at hbox'
    obtain rfl := Option.some.inj hbox'
    obtain ⟨hline, hroom⟩ := h q box hbox hopen
    refine ⟨hline, ?_⟩
    show n ≤ box.capacity - (box.queue ++ ms).length
    unfold Outbox.room at hroom
    rw [List.length_append]
    omega
  · rw [List.getElem?_set_ne (Ne.symm hq)] at hbox'
    exact h.mono (Nat.le_add_left _ _) q box' hbox' hopen

/-- The outbox over which a peer is reached. -/
def Exchange.openOutbox? {σ : Type} (x : Exchange σ) (boxes : Outboxes) (p : PeerId) :
    Option OutboxId :=
  (x.peers.outbox? p).filter boxes.isOpenAt

section
variable {σ : Type} {x : Exchange σ} {boxes : Outboxes} {p : PeerId} {o : OutboxId}

theorem Outboxes.isOpenAt_iff :
    boxes.isOpenAt o = true ↔ ∃ box, boxes[o]? = some box ∧ box.isOpen = true := by
  simp [isOpenAt, Option.any_eq_true]

theorem Exchange.openOutbox?_eq_some_iff :
    x.openOutbox? boxes p = some o ↔ Linked p o x boxes := by
  simp [openOutbox?, Linked, Option.filter_eq_some_iff, Outboxes.isOpenAt_iff]

theorem Exchange.openOutbox?_of_closed (hp : x.peers.outbox? p = some o)
    (ho : boxes.isOpenAt o = false) : x.openOutbox? boxes p = none := by
  simp [openOutbox?, hp, ho]

theorem Exchange.openOutbox?_of_open (hp : x.peers.outbox? p = some o)
    (ho : boxes.isOpenAt o = true) : x.openOutbox? boxes p = some o := by
  simp [openOutbox?, hp, ho]

end

theorem Outbox.deliver_of_closed {box : Outbox} (h : box.isOpen = false) (task : TaskId)
    {ms : List Message} (hms : ms ≠ []) :
    deliver (Outbox.send task) box ms = (box.leave task, .failed .outboxClosed) := by
  cases ms with
  | nil => exact absurd rfl hms
  | cons m ms => simp [deliver, Outbox.send, Outbox.offer, h]

namespace Broadcast
variable {σ : Type} {task : TaskId} {b c d : Broadcast} {x y z : Exchange σ}
  {boxes after : Outboxes} {o q : OutboxId} {p : PeerId} {ms handed : List Message}
  {waiting : Option (OutboxId × List Message)} {n : Nat}

/-- A closed outbox, or one that does not exist, takes nothing; the open ones stay as they are. -/
theorem tell_of_closed (ho : boxes.isOpenAt o = false) (hms : ms ≠ []) (task : TaskId)
    (b : Broadcast) :
    ∃ after : Outboxes, b.tell task boxes o ms = ({ b with waiting := none }, after) ∧
      (∀ q, after.queueAt q = boxes.queueAt q) ∧
      ∀ (q : OutboxId) (box : Outbox), box.isOpen = true →
        (after[q]? = some box ↔ boxes[q]? = some box) := by
  unfold tell
  cases hbox : boxes[o]? with
  | none => exact ⟨boxes, rfl, fun q => rfl, fun q box _ => Iff.rfl⟩
  | some box =>
    have hclosed : box.isOpen = false := by simpa [Outboxes.isOpenAt, hbox] using ho
    simp only [Outbox.deliver_of_closed hclosed task hms]
    refine ⟨_, rfl, fun q => ?_, fun q box' hopen => ?_⟩
    · by_cases hq : q = o
      · subst hq
        rw [Outboxes.queueAt_set hbox, Outboxes.queueAt_of_getElem? hbox]
        rfl
      · exact queueAt_set_of_ne hq _
    · by_cases hq : q = o
      · subst hq
        obtain ⟨hlt, -⟩ := List.getElem?_eq_some_iff.mp hbox
        rw [List.getElem?_set_self hlt, hbox]
        constructor
        · rintro ⟨⟩
          exact absurd (hclosed.symm.trans hopen) Bool.false_ne_true
        · rintro ⟨⟩
          exact absurd (hclosed.symm.trans hopen) Bool.false_ne_true
      · rw [List.getElem?_set_ne (Ne.symm hq)]

/-! ### Serving targets -/

/-- The messages that wait for an outbox. -/
def waitsFor (b : Broadcast) (o : OutboxId) : List Message :=
  (b.waiting.map fun w => only w.1 w.2 o).getD []

@[simp] theorem waitsFor_of_none (h : b.waiting = none) (o : OutboxId) : b.waitsFor o = [] := by
  simp [waitsFor, h]

theorem waitsFor_of_some (h : b.waiting = some (o, ms)) (q : OutboxId) :
    b.waitsFor q = only o ms q := by
  simp [waitsFor, h]

/-- An open outbox gets all the messages, some of them at once and the others later. -/
theorem Handing.settles (h : Handing boxes o ms handed waiting n) (ho : boxes.isOpenAt o = true) :
    n + waiting.toList.length = 1 ∧ (∀ q rest, waiting = some (q, rest) → q = o) ∧
      ∀ c : Broadcast, c.waiting = waiting →
        ∀ q, only o handed q ++ c.waitsFor q = only o ms q := by
  cases h with
  | told hall =>
    subst hall
    refine ⟨rfl, nofun, fun c hc q => ?_⟩
    simp [waitsFor_of_none hc]
  | @waiting rest hall =>
    subst hall
    refine ⟨rfl, ?_, fun c hc q => ?_⟩
    · rintro _ _ ⟨⟩
      rfl
    · rw [waitsFor_of_some hc]
      unfold only
      split <;> simp
  | refused _ hclosed =>
    obtain ⟨box, hbox, hopen⟩ := Outboxes.isOpenAt_iff.mp ho
    rw [hclosed box hbox] at hopen
    cases hopen

/-- From one state of a broadcast to a later one, these targets are served: those that are reached
are counted and get a batch each, behind what waits for their outbox. -/
structure Serves (reach : PeerId → Option OutboxId) (x : Exchange σ) (b c : Broadcast)
    (served : List PeerId) (posted : OutboxId → List Message) : Prop where
  entries : c.entries = b.entries
  targets : b.targets = served ++ c.targets
  sent : c.sent + c.waiting.toList.length =
    b.sent + b.waiting.toList.length + (served.filterMap reach).length
  waits : ∀ o ms, c.waiting = some (o, ms) →
    (∃ all, b.waiting = some (o, all)) ∨ ∃ p ∈ served, reach p = some o
  posted : ∀ o, ∃ batches : List (List Message),
    batches.length = (served.filterMap reach).count o ∧
    (∀ ms ∈ batches, Framing x b.entries ms) ∧
    posted o ++ c.waitsFor o = b.waitsFor o ++ batches.flatten

namespace Serves
variable {reach : PeerId → Option OutboxId} {served more : List PeerId}
  {posted later : OutboxId → List Message}

theorem refl (reach : PeerId → Option OutboxId) (x : Exchange σ) (b : Broadcast) :
    Serves reach x b b [] fun _ => [] := by
  refine ⟨rfl, rfl, rfl, fun o ms h => .inl ⟨ms, h⟩, fun o => ⟨[], rfl, nofun, ?_⟩⟩
  simp

theorem trans (h : Serves reach x b c served posted) (h' : Serves reach y c d more later)
    (hmax : y.maxMessageSize = x.maxMessageSize) :
    Serves reach x b d (served ++ more) fun o => posted o ++ later o := by
  refine ⟨h'.entries.trans h.entries, ?_, ?_, fun o ms hd => ?_, fun o => ?_⟩
  · rw [h.targets, h'.targets, List.append_assoc]
  · have hfirst := h.sent
    have hsecond := h'.sent
    rw [List.filterMap_append, List.length_append]
    omega
  · rcases h'.waits o ms hd with ⟨all, hc⟩ | ⟨p, hp, hreach⟩
    · rcases h.waits o all hc with hb | ⟨p, hp, hreach⟩
      · exact .inl hb
      · exact .inr ⟨p, List.mem_append_left _ hp, hreach⟩
    · exact .inr ⟨p, List.mem_append_right _ hp, hreach⟩
  · obtain ⟨batches, hcount, hframing, hposted⟩ := h.posted o
    obtain ⟨batches', hcount', hframing', hposted'⟩ := h'.posted o
    refine ⟨batches ++ batches', ?_, fun ms hms => ?_, ?_⟩
    · rw [List.length_append, hcount, hcount', List.filterMap_append, List.count_append]
    · rcases List.mem_append.mp hms with hms | hms
      · exact hframing ms hms
      · have hms' := hframing' ms hms
        rw [h.entries] at hms'
        exact hms'.of_maxMessageSize hmax
    · rw [List.append_assoc, hposted', ← List.append_assoc, hposted, List.append_assoc,
        List.flatten_append]

end Serves

section
variable {reach : PeerId → Option OutboxId} {targets : List PeerId}
  {posted : OutboxId → List Message}

theorem serves_unreached (x : Exchange σ) (hw : b.waiting = none) (ht : b.targets = p :: targets)
    (hreach : reach p = none) (hposted : ∀ q, posted q = []) :
    Serves reach x b { b with targets } [p] posted := by
  refine ⟨rfl, ht, ?_, fun o ms hc => .inl ⟨ms, hc⟩,
    fun q => ⟨[], ?_, List.forall_mem_nil _, ?_⟩⟩
  · simp [hreach]
  · simp [hreach]
  · simp [hposted, hw]

theorem serves_reached (hframing : Framing x b.entries ms) (hw : b.waiting = none)
    (ht : b.targets = p :: targets) (hreach : reach p = some o)
    (h : Handing boxes o ms handed waiting n) (ho : boxes.isOpenAt o = true) :
    Serves reach x b { b with targets, waiting, sent := b.sent + n } [p] (only o handed) := by
  obtain ⟨hcount, hsame, hall⟩ := h.settles ho
  refine ⟨rfl, ht, ?_, fun q rest hc => ?_, fun q => ?_⟩
  · simp only [List.filterMap_cons, hreach, List.filterMap_nil, hw]
    show b.sent + n + waiting.toList.length = b.sent + 0 + 1
    omega
  · rw [hsame q rest hc]
    exact .inr ⟨p, List.mem_singleton_self p, hreach⟩
  · have hposted := hall { b with targets, waiting, sent := b.sent + n } rfl q
    by_cases hq : q = o
    · subst hq
      refine ⟨[ms], ?_, ?_, ?_⟩
      · simp [hreach]
      · simpa using hframing
      · rw [hposted, only_self, waitsFor_of_none hw]
        simp
    · refine ⟨[], ?_, List.forall_mem_nil _, ?_⟩
      · simp [hreach, Ne.symm hq]
      · rw [hposted, waitsFor_of_none hw]
        simp [only, hq]

/-- What waited for an open outbox is handed over, and no target is begun with. -/
theorem serves_waiting (hw : b.waiting = some (o, ms)) (h : Handing boxes o ms handed waiting n)
    (ho : boxes.isOpenAt o = true) :
    Serves reach x b { b with waiting, sent := b.sent + n } [] (only o handed) := by
  obtain ⟨hcount, hsame, hall⟩ := h.settles ho
  refine ⟨rfl, rfl, ?_, fun q rest hc => ?_, fun q => ⟨[], rfl, List.forall_mem_nil _, ?_⟩⟩
  · rw [hw]
    show b.sent + n + waiting.toList.length = b.sent + 1 + 0
    omega
  · rw [hsame q rest hc]
    exact .inl ⟨ms, hw⟩
  · rw [waitsFor_of_some hw, List.flatten_nil, List.append_nil]
    exact hall _ rfl q

end

theorem serves_of_step? {posted : OutboxId → List Message}
    (h : b.step? task x boxes = some (c, y, after))
    (hqueue : ∀ q, after.queueAt q = boxes.queueAt q ++ posted q)
    (hentries : b.entries = [] → b.targets = [])
    (hwaits : ∀ o ms, b.waiting = some (o, ms) → boxes.isOpenAt o = true) :
    ∃ served, Serves (x.openOutbox? boxes) x b c served posted := by
  cases stepped_of_step? h hqueue with
  | skips hw ht hp =>
    exact ⟨_, serves_unreached x hw ht (by simp [Exchange.openOutbox?, hp]) fun q => rfl⟩
  | @resumes o ms _ _ _ hw hhanding => exact ⟨_, serves_waiting hw hhanding (hwaits o ms hw)⟩
  | @begins p targets o handed waiting n hw ht hp hhanding =>
    cases ho : boxes.isOpenAt o with
    | true =>
      have hreach := Exchange.openOutbox?_of_open hp ho
      exact ⟨_, serves_reached ⟨x, rfl⟩ hw ht hreach hhanding ho⟩
    | false =>
      have hreach := Exchange.openOutbox?_of_closed hp ho
      have hne : b.entries ≠ [] := fun he => by simp [hentries he] at ht
      have hframes : pack x.maxMessageSize x.newTraceId.2 b.entries [] [] ≠ [] := by
        simp [pack_eq_nil_iff, hne]
      obtain ⟨after', htold, hqueues, -⟩ := tell_of_closed ho hframes task { b with targets }
      have hstep := (step?_of_target hw ht hp htold).symm.trans h
      obtain ⟨hnext, -, rfl⟩ : _ ∧ _ ∧ after' = after := by
        simpa only [Option.some.injEq, Prod.mk.injEq] using hstep
      have hnothing : ∀ q, only o handed q = [] := fun q =>
        List.self_eq_append_right.mp ((hqueues q).symm.trans (hqueue q))
      rw [← hnext, ← hw]
      exact ⟨_, serves_unreached x hw ht hreach hnothing⟩

theorem Serves.congr {reach reach' : PeerId → Option OutboxId} {served : List PeerId}
    {posted : OutboxId → List Message} (h : Serves reach x b c served posted)
    (hsame : ∀ p ∈ served, reach p = reach' p) : Serves reach' x b c served posted := by
  have hmap : served.filterMap reach = served.filterMap reach' := List.filterMap_congr hsame
  obtain ⟨hentries, htargets, hsent, hwaits, hposted⟩ := h
  rw [hmap] at hsent
  simp only [hmap] at hposted
  refine ⟨hentries, htargets, hsent, fun o ms hc => ?_, hposted⟩
  rcases hwaits o ms hc with hb | ⟨p, hp, hreach⟩
  · exact .inl hb
  · exact .inr ⟨p, hp, by rw [← hsame p hp, hreach]⟩

section
variable [BlockStore σ] {moves : List (Move σ)} {reach : PeerId → Option OutboxId}

/-- While nothing changes about who is reached, a broadcast serves one target after the other. -/
theorem Tells.serves (ht : Tells task b x moves c y) (hentries : b.entries = [] → b.targets = [])
    (hreach : ∀ m ∈ moves, ∀ p ∈ b.targets, m.before.openOutbox? m.boxes p = reach p)
    (hwaits : ∀ o ms, b.waiting = some (o, ms) → ∀ m ∈ moves, m.boxes.isOpenAt o = true) :
    ∃ served, Serves reach x b c served fun o => postedTo o moves := by
  induction ht with
  | refl b x => exact ⟨[], .refl reach x b⟩
  | @others b c x y z more moves h _ ih =>
    obtain ⟨served, hserves⟩ := ih hentries hreach hwaits
    have hnothing : Serves reach x b b [] fun _ => [] := .refl reach x b
    exact ⟨[] ++ served, hnothing.trans hserves h.maxMessageSize_eq⟩
  | @step b c d x y z boxes after posted moves h hqueue _ ih =>
    obtain ⟨hhere, hreach'⟩ := List.forall_mem_cons.mp hreach
    obtain ⟨served, hstep⟩ := serves_of_step? h hqueue hentries fun o ms hb =>
      hwaits o ms hb _ List.mem_cons_self
    have hserved : ∀ p ∈ served, p ∈ b.targets := fun p hp => by
      rw [hstep.targets]
      exact List.mem_append_left _ hp
    have hleft : ∀ p ∈ c.targets, p ∈ b.targets := fun p hp => by
      rw [hstep.targets]
      exact List.mem_append_right _ hp
    replace hstep := hstep.congr fun p hp => hhere p (hserved p hp)
    have hentries' : c.entries = [] → c.targets = [] := fun he => by
      have htargets := hentries (hstep.entries ▸ he)
      rw [hstep.targets] at htargets
      exact (List.append_eq_nil_iff.mp htargets).2
    have hwaits' : ∀ o ms, c.waiting = some (o, ms) → ∀ m ∈ moves, m.boxes.isOpenAt o = true := by
      intro o ms hc m hm
      rcases hstep.waits o ms hc with ⟨all, hb⟩ | ⟨p, hp, hopen⟩
      · exact hwaits o all hb m (List.mem_cons_of_mem _ hm)
      · rw [← hreach' m hm p (hserved p hp)] at hopen
        exact Outboxes.isOpenAt_iff.mpr (Exchange.openOutbox?_eq_some_iff.mp hopen).2
    obtain ⟨more, hrest⟩ := ih hentries' (fun m hm p hp => hreach' m hm p (hleft p hp)) hwaits'
    exact ⟨served ++ more, hstep.trans hrest (stepped_of_step? h hqueue).maxMessageSize_eq⟩

end

/-! ### Telling without interruption -/

/-- With room in all open outboxes, the next target is done with in one move. -/
theorem exists_next (task : TaskId) {targets : List PeerId} (hw : b.waiting = none)
    (ht : b.targets = p :: targets) (hne : b.entries ≠ [])
    (hroom : boxes.Roomy (b.entries.length + n)) (x : Exchange σ) :
    ∃ c y after, b.step? task x boxes = some (c, y, after) ∧ c.entries = b.entries ∧
      c.targets = targets ∧ c.waiting = none ∧ y = { x with traced := y.traced } ∧
      (∀ q, after.isOpenAt q = boxes.isOpenAt q) ∧ after.Roomy n := by
  cases hp : x.peers.outbox? p with
  | none =>
    exact ⟨_, _, _, step?_of_not_connected hw ht hp, rfl, rfl, hw, rfl, fun q => rfl,
      hroom.mono (Nat.le_add_left _ _)⟩
  | some o =>
    have hframes : pack x.maxMessageSize x.newTraceId.2 b.entries [] [] ≠ [] := by
      simp [pack_eq_nil_iff, hne]
    cases ho : boxes.isOpenAt o with
    | false =>
      obtain ⟨after, htold, -, hsame⟩ := tell_of_closed ho hframes task { b with targets }
      refine ⟨_, _, _, step?_of_target hw ht hp htold, rfl, rfl, rfl, x.newTraceId_eq, fun q => ?_,
        fun q box hbox hopen => ?_⟩
      · rw [Bool.eq_iff_iff, Outboxes.isOpenAt_iff, Outboxes.isOpenAt_iff]
        exact exists_congr fun box => and_congr_left fun hopen => hsame q box hopen
      · exact hroom.mono (Nat.le_add_left _ _) q box ((hsame q box hopen).mp hbox) hopen
    | true =>
      obtain ⟨box, hbox, hopen⟩ := Outboxes.isOpenAt_iff.mp ho
      obtain ⟨hline, hfree⟩ := hroom o box hbox hopen
      have hlength := length_pack_le x.maxMessageSize x.newTraceId.2 b.entries
      have hfits : (pack x.maxMessageSize x.newTraceId.2 b.entries [] []).length ≤ box.room := by
        omega
      have hdone := box.deliver_of_room task hopen hline hfits
      exact ⟨_, _, _, step?_of_target hw ht hp (tell_of_done hbox hdone), rfl, rfl, rfl,
        x.newTraceId_eq, Outboxes.isOpenAt_set hbox rfl, hroom.post hbox hlength⟩

/-- Moves of a broadcast between which nothing else happens. -/
inductive Alone (task : TaskId) : Broadcast → Exchange σ → Outboxes → List (Move σ) → Broadcast →
    Exchange σ → Outboxes → Prop
  | refl (b : Broadcast) (x : Exchange σ) (boxes : Outboxes) : Alone task b x boxes [] b x boxes
  | step {b c d : Broadcast} {x y z : Exchange σ} {boxes after last : Outboxes}
      {posted : OutboxId → List Message} {moves : List (Move σ)}
      (h : b.step? task x boxes = some (c, y, after))
      (hqueue : ∀ q, after.queueAt q = boxes.queueAt q ++ posted q)
      (rest : Alone task c y after moves d z last) :
      Alone task b x boxes (⟨x, boxes, y, posted⟩ :: moves) d z last

theorem Alone.tells [BlockStore σ] {moves : List (Move σ)} {last : Outboxes}
    (h : Alone task b x boxes moves c y last) : Tells task b x moves c y := by
  induction h with
  | refl b x boxes => exact .refl b x
  | step h hqueue _ ih => exact .step h hqueue ih

/-- With room in all open outboxes for everything, a broadcast comes to its end by itself, and
nothing changes on the way about who is reached. -/
theorem exists_alone (task : TaskId) (hw : b.waiting = none)
    (hentries : b.entries = [] → b.targets = [])
    (hroom : boxes.Roomy (b.targets.length * b.entries.length)) (x : Exchange σ) :
    ∃ moves c y after, Alone task b x boxes moves c y after ∧ c.isDone = true ∧
      (∀ m ∈ moves, ∀ p, m.before.openOutbox? m.boxes p = x.openOutbox? boxes p) ∧
      y = { x with traced := y.traced } := by
  induction htargets : b.targets generalizing b x boxes with
  | nil => exact ⟨[], b, x, boxes, .refl b x boxes, by simp [isDone, htargets, hw], nofun, rfl⟩
  | cons p targets ih =>
    have hne : b.entries ≠ [] := fun he => by simp [hentries he] at htargets
    have hsplit : b.targets.length * b.entries.length =
        b.entries.length + targets.length * b.entries.length := by
      rw [htargets, List.length_cons, Nat.succ_mul, Nat.add_comm]
    rw [hsplit] at hroom
    obtain ⟨c, y, after, hstep, hce, hct, hcw, hy, hopen, hroom'⟩ :=
      exists_next task hw htargets hne hroom x
    obtain ⟨posted, -, hqueue⟩ := exists_stepped hstep
    obtain ⟨moves, d, z, last, halone, hdone, hsteady, hz⟩ :=
      ih hcw (fun he => absurd (hce ▸ he) hne) (by rw [hct, hce]; exact hroom') y hct
    refine ⟨⟨x, boxes, y, posted⟩ :: moves, d, z, last, .step hstep hqueue halone, hdone, ?_, ?_⟩
    · refine List.forall_mem_cons.mpr ⟨fun p => rfl, fun m hm p => ?_⟩
      have hboxes : after.isOpenAt = boxes.isOpenAt := funext hopen
      rw [hsteady m hm p, Exchange.openOutbox?, Exchange.openOutbox?, hboxes, hy]
    · rw [hz, hy]

end Broadcast

namespace Exchange
variable {σ : Type} {x y : Exchange σ} {boxes : Outboxes} {moves : List (Move σ)} {c : Broadcast}
  {ws : List Want} {receivers : List OutboxId} {peers : List PeerId}

/-- At each move these peers are reached, or not, as they were at the beginning. -/
def Steady (x : Exchange σ) (boxes : Outboxes) (peers : List PeerId) (moves : List (Move σ)) :
    Prop :=
  ∀ m ∈ moves, ∀ p ∈ peers, m.before.openOutbox? m.boxes p = x.openOutbox? boxes p

/-- The broadcast counted these receivers, and asked each of them, and nobody else, for these
wants. -/
structure Distributed (ws : List Want) (receivers : List OutboxId) (moves : List (Move σ))
    (c : Broadcast) : Prop where
  counted : c.sent = receivers.length
  posted : ∀ o, ∃ batches : List (List Message), batches.length = receivers.count o ∧
    (∀ ms ∈ batches, ms.flatMap Message.entries = ws.map fun w => .want w .block true) ∧
    postedTo o moves = batches.flatten
  unchanged : ∀ m ∈ moves, m.after = { m.before with traced := m.after.traced }

theorem Distributed.entries_of_count (h : Distributed ws receivers moves c) {o : OutboxId}
    (hcount : receivers.count o = 1) :
    (postedTo o moves).flatMap Message.entries = ws.map fun w => .want w .block true := by
  obtain ⟨batches, hlength, hentries, hposted⟩ := h.posted o
  rw [hcount] at hlength
  obtain ⟨ms, rfl⟩ := List.length_eq_one_iff.mp hlength
  rw [hposted]
  simpa using hentries ms (List.mem_singleton_self ms)

theorem Distributed.posted_of_not_mem (h : Distributed ws receivers moves c) {o : OutboxId}
    (ho : o ∉ receivers) : postedTo o moves = [] := by
  obtain ⟨batches, hlength, -, hposted⟩ := h.posted o
  rw [List.count_eq_zero.mpr ho] at hlength
  rw [hposted, List.eq_nil_of_length_eq_zero hlength]
  rfl

theorem nodup_targets (x : Exchange σ) (h : peers.Nodup) : (x.targets peers).Nodup := by
  unfold targets
  split
  · exact x.peers.outboxes.nodup_keys
  · exact h

/-- A peer that does not share its outbox is the only one to be reached over it. -/
theorem count_openOutbox? {p : PeerId} {o : OutboxId} (hnodup : peers.Nodup) (hp : p ∈ peers)
    (ho : x.openOutbox? boxes p = some o)
    (honly : ∀ q ∈ peers, x.openOutbox? boxes q = some o → q = p) :
    (peers.filterMap (x.openOutbox? boxes)).count o = 1 := by
  have hsame : ∀ q ∈ peers, (x.openOutbox? boxes q == some o) = true ↔ (q == p) = true := by
    intro q hq
    rw [beq_iff_eq, beq_iff_eq]
    constructor
    · exact honly q hq
    · rintro rfl
      exact ho
  rw [List.count_filterMap, List.countP_congr hsame]
  exact List.count_eq_one_of_mem hnodup hp

theorem targets_sendWants (x : Exchange σ) (now : Duration) (peers : List PeerId) :
    (x.sendWants now peers).targets =
      if x.wants.list now (x.targets peers).length = [] then [] else x.targets peers := by
  simp [sendWants, Broadcast.start, wantEntries]

variable [BlockStore σ] {calls : List WantCall} {task : TaskId}

theorem distributed_of_tells {now : Duration}
    (ht : Broadcast.Tells task (x.sendWants now peers) x moves c y) (hdone : c.isDone = true)
    (hsteady : Steady x boxes (x.targets peers) moves) :
    Distributed (x.wants.list now (x.targets peers).length)
      ((x.sendWants now peers).targets.filterMap (x.openOutbox? boxes)) moves c := by
  obtain ⟨htargets, hw⟩ : c.targets = [] ∧ c.waiting = none := by
    simpa [Broadcast.isDone] using hdone
  have hstart : ∀ p ∈ (x.sendWants now peers).targets, p ∈ x.targets peers := by
    intro p hp
    simp only [sendWants, Broadcast.start] at hp
    split at hp
    · cases hp
    · exact hp
  have hentries : (x.sendWants now peers).entries = [] → (x.sendWants now peers).targets = [] :=
    fun he => if_pos (List.isEmpty_iff.mpr he)
  obtain ⟨served, hserves⟩ := ht.serves hentries
    (fun m hm p hp => hsteady m hm p (hstart p hp)) (fun o ms hb => by cases hb)
  have hall : (x.sendWants now peers).targets = served := by
    rw [hserves.targets, htargets, List.append_nil]
  rw [hall]
  refine ⟨?_, fun o => ?_, ht.exchange_eq⟩
  · have hsent := hserves.sent
    rw [hw] at hsent
    simpa [sendWants, Broadcast.start] using hsent
  · obtain ⟨batches, hcount, hframing, hposted⟩ := hserves.posted o
    refine ⟨batches, hcount, fun ms hms => (hframing ms hms).entries, ?_⟩
    rw [Broadcast.waitsFor_of_none hw, Broadcast.waitsFor_of_none rfl, List.append_nil] at hposted
    exact hposted

/-- What becomes of all pending wants, of whatever age, when they are sent: each target that is
reached is counted and asked once for each of them, a single target only for the recent ones, and
nobody else gets anything. With room in all open outboxes this comes to its end. -/
theorem wants_distributed (hx : Past x calls) (now : Duration) (peers : List PeerId)
    (boxes : Outboxes) :
    ∃ ws : List Want, ws.Nodup ∧
      (∀ w, w ∈ ws ↔ ∃ asked, firstAsked? calls w = some asked ∧
        ((x.targets peers).length = 1 → (now.since asked).lt x.wants.recency = true)) ∧
      (∀ task moves c y, Broadcast.Tells task (x.sendWants now peers) x moves c y →
        c.isDone = true → Steady x boxes (x.targets peers) moves →
        Distributed ws
          (if ws = [] then [] else (x.targets peers).filterMap (x.openOutbox? boxes)) moves c ∧
        (peers.Nodup → ∀ p ∈ x.targets peers, ∀ o, x.openOutbox? boxes p = some o →
          (∀ q ∈ x.targets peers, x.openOutbox? boxes q = some o → q = p) →
          (postedTo o moves).flatMap Message.entries = ws.map fun w => .want w .block true)) ∧
      (boxes.Roomy ((x.targets peers).length * ws.length) →
        ∀ task, ∃ moves c y after,
          Broadcast.Alone task (x.sendWants now peers) x boxes moves c y after ∧
          c.isDone = true ∧ Steady x boxes (x.targets peers) moves ∧
          y = { x with traced := y.traced }) := by
  refine ⟨x.wants.list now (x.targets peers).length, x.wants.nodup_list ..,
    fun w => hx.mem_list_iff, fun task moves c y ht hdone hsteady => ?_, fun hroom task => ?_⟩
  · have hdist := distributed_of_tells ht hdone hsteady
    rw [targets_sendWants] at hdist
    by_cases hnone : x.wants.list now (x.targets peers).length = []
    · rw [if_pos hnone] at hdist ⊢
      refine ⟨hdist, fun _ p _ o _ _ => ?_⟩
      rw [hdist.posted_of_not_mem List.not_mem_nil, hnone]
      rfl
    · rw [if_neg hnone] at hdist ⊢
      refine ⟨hdist, fun hnodup p hp o ho honly => hdist.entries_of_count ?_⟩
      exact count_openOutbox? (x.nodup_targets hnodup) hp ho honly
  · have hentries : (x.sendWants now peers).entries = [] → (x.sendWants now peers).targets = [] :=
      fun he => if_pos (List.isEmpty_iff.mpr he)
    have hfewer : (x.sendWants now peers).targets.length ≤ (x.targets peers).length := by
      rw [targets_sendWants]
      split <;> simp
    have hlength : (x.sendWants now peers).entries.length =
        (x.wants.list now (x.targets peers).length).length := List.length_map _
    obtain ⟨moves, c, y, after, halone, hdone, hsteady, hy⟩ :=
      Broadcast.exists_alone task rfl hentries
        (hroom.mono (hlength ▸ Nat.mul_le_mul_right _ hfewer)) x
    exact ⟨moves, c, y, after, halone, hdone, fun m hm p _ => hsteady m hm p, hy⟩

/-- A want is sent to two peers, one of whom has closed its outbox. -/
theorem wants_distributed_one_closed :
    let w : Want := ⟨.raw [104, 101, 108, 108, 111], none⟩
    let p : PeerId := ⟨⟨Multihash.identity, [1], by decide⟩, .inr ⟨rfl, by decide⟩⟩
    let q : PeerId := ⟨⟨Multihash.identity, [2], by decide⟩, .inr ⟨rfl, by decide⟩⟩
    let x : Exchange MemoryStore :=
      ((((Exchange.new {} {} .allowAll .disabled).connect p 0).connect q 1).register ⟨0⟩ w).1
    let boxes : Outboxes := [{ capacity := 4 }, { capacity := 4, isOpen := false }]
    Past x [.register ⟨0⟩ w] ∧ ∃ moves c y after,
      Broadcast.Alone 0 (x.sendWants ⟨5⟩ []) x boxes moves c y after ∧ c.isDone = true ∧
      c.sent = 1 ∧ (postedTo 0 moves).flatMap Message.entries = [.want w .block true] ∧
      postedTo 1 moves = [] := by
  intro w p q x boxes
  have hx : Past x [.register ⟨0⟩ w] :=
    (((Past.start {} {} .allowAll .disabled).nothing (.connect p 0) rfl).nothing
      (.connect q 1) rfl).step (.register ⟨0⟩ w)
  obtain ⟨ws, hnodup, hws, hsent, hruns⟩ := wants_distributed hx ⟨5⟩ [] boxes
  have htargets : x.targets [] = [p, q] := by decide +kernel
  have hreached : [p, q].filterMap (x.openOutbox? boxes) = [0] := by decide +kernel
  rw [htargets] at hws hruns hsent
  have hone : ws = [w] := by
    refine List.perm_singleton.mp ((List.perm_ext_iff_of_nodup hnodup (List.nodup_singleton w)).mpr
      fun v => ?_)
    rw [hws, List.mem_singleton]
    have hasked : firstAsked? [.register ⟨0⟩ w] v = if w = v then some ⟨0⟩ else none :=
      firstAsked?_register [] v ⟨0⟩ w
    rw [hasked]
    constructor
    · rintro ⟨asked, hw, -⟩
      by_contra hne
      rw [if_neg (Ne.symm hne)] at hw
      cases hw
    · intro hv
      exact ⟨⟨0⟩, if_pos hv.symm, nofun⟩
  subst hone
  have hroom : boxes.Roomy ([p, q].length * [w].length) := by
    rintro (_ | _ | o) box hbox hopen
    · cases hbox
      exact ⟨rfl, by decide⟩
    · cases hbox
      cases hopen
    · cases hbox
  obtain ⟨moves, c, y, after, halone, hdone, hsteady, -⟩ := hruns hroom 0
  obtain ⟨hdist, -⟩ := hsent 0 moves c y halone.tells hdone hsteady
  rw [if_neg (List.cons_ne_nil w []), hreached] at hdist
  refine ⟨hx, moves, c, y, after, halone, hdone, hdist.counted, ?_, ?_⟩
  · exact hdist.entries_of_count rfl
  · exact hdist.posted_of_not_mem (by decide)

end Exchange
end BlockExchange
