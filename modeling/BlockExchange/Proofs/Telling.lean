import BlockExchange.Proofs.Broadcasting
import BlockExchange.Proofs.ReplySizes
import BlockExchange.Proofs.WantChanges

/-!
# Telling several peers

`Broadcast.Tells` are the moves of a broadcast to any peers; between them anything may happen to the
exchange and to the outboxes. `Stepped` is all that one move can do. What a broadcast puts into an
outbox comes from packing its entries (`Tells.mem_posted`), and a peer that stays connected over an
open outbox gets all of them, one message behind the other (`Tells.posted_of_linked`).
-/

namespace BlockExchange

/-- One step of a task: what it found, what it left, and the messages it put into each outbox. -/
structure Move (σ : Type) where
  before : Exchange σ
  boxes : Outboxes
  after : Exchange σ
  posted : OutboxId → List Message

/-- The messages that some moves put into an outbox. -/
def postedTo {σ : Type} (o : OutboxId) (moves : List (Move σ)) : List Message :=
  moves.flatMap fun m => m.posted o

/-- The peer is connected, and somebody takes from its outbox. -/
def Linked {σ : Type} (p : PeerId) (o : OutboxId) (x : Exchange σ) (boxes : Outboxes) : Prop :=
  x.peers.outbox? p = some o ∧ ∃ box, boxes[o]? = some box ∧ box.isOpen = true

/-! ### What is listed -/

namespace WantTable
variable {t : WantTable} {now : Duration} {v : Want} {peers : Nat}

theorem registration?_eq_some_iff {r : Registration} : t.registration? v = some r ↔
    ∃ byToken, (v.cid, byToken) ∈ t.wants.pairs ∧ (v.auth, r) ∈ byToken.pairs := by
  unfold registration? registrations
  constructor
  · intro h
    cases hb : t.wants.get? v.cid with
    | none =>
      rw [hb] at h
      cases h
    | some byToken =>
      rw [hb] at h
      exact ⟨byToken, (Table.get?_eq_some_iff _).mp hb, (Table.get?_eq_some_iff _).mp h⟩
  · rintro ⟨byToken, hb, hr⟩
    rw [(Table.get?_eq_some_iff _).mpr hb]
    exact (Table.get?_eq_some_iff _).mpr hr

/-- Every pending want is listed; for a single peer only if it is recent. -/
theorem mem_list_iff : v ∈ t.list now peers ↔
    ∃ r, t.registration? v = some r ∧ (peers ≠ 1 ∨ t.isRecent now r = true) := by
  unfold list
  simp only [List.mem_flatMap, List.mem_map, List.mem_filter, Bool.or_eq_true, bne_iff_ne]
  constructor
  · rintro ⟨⟨cid, byToken⟩, hb, ⟨auth, r⟩, ⟨hr, hp⟩, rfl⟩
    exact ⟨r, registration?_eq_some_iff.mpr ⟨byToken, hb, hr⟩, hp⟩
  · rintro ⟨r, hreg, hp⟩
    obtain ⟨byToken, hb, hr⟩ := registration?_eq_some_iff.mp hreg
    exact ⟨_, hb, _, ⟨hr, hp⟩, rfl⟩

theorem isPending_of_mem_list (h : v ∈ t.list now peers) : t.isPending v = true := by
  obtain ⟨r, hr, -⟩ := mem_list_iff.mp h
  exact isPending_iff_registration?.mpr ⟨r, hr⟩

end WantTable

/-! ### Open outboxes -/

namespace Outbox
variable (task : TaskId) (box : Outbox) (m : Message)

theorem isOpen_offer : (box.offer task m).1.isOpen = box.isOpen := by
  unfold offer
  split
  · rfl
  · split
    · rfl
    · split <;> rfl

theorem fst_send : (box.send task m).1 = (box.offer task m).1 := by
  unfold send
  split <;> (rename_i ho; rw [ho])

theorem isOpen_of_send_failed {e : SendError} (h : (box.send task m).2 = .failed e) :
    box.isOpen = false := by
  unfold send offer at h
  cases hopen : box.isOpen with
  | false => rfl
  | true =>
    rw [hopen] at h
    simp only [Bool.not_true, Bool.false_eq_true, if_false] at h
    split at h <;> rename_i ho
    · cases h
    · cases h
    · split at ho
      · cases ho
      · split at ho <;> cases ho

/-- An open outbox turns nothing away. -/
theorem isOpen_of_deliver_failed {ms : List Message} {e : SendError}
    (h : (deliver (Outbox.send task) box ms).2 = .failed e) : box.isOpen = false := by
  induction ms generalizing box with
  | nil => cases h
  | cons m ms ih =>
    unfold deliver at h
    split at h
    · rename_i box' hsend
      have hbox : (box.send task m).1 = box' := congrArg Prod.fst hsend
      have hclosed := ih box' h
      rwa [← hbox, fst_send, isOpen_offer] at hclosed
    · cases h
    · rename_i box' e' hsend
      exact box.isOpen_of_send_failed task m (congrArg Prod.snd hsend)

end Outbox

namespace Broadcast
variable {σ : Type} {task : TaskId} {o q : OutboxId} {p : PeerId} {b c : Broadcast}
  {x y : Exchange σ} {boxes after : Outboxes} {ms handed later : List Message}
  {waiting : Option (OutboxId × List Message)} {n : Nat}

/-! ### Handing messages to one peer -/

/-- Messages for one outbox. -/
def only (o : OutboxId) (ms : List Message) (q : OutboxId) : List Message :=
  if q = o then ms else []

@[simp] theorem only_self : only o ms o = ms :=
  if_pos rfl

/-- What becomes of messages for an outbox: what waits then, and how many peers have been told. -/
inductive Handing (boxes : Outboxes) (o : OutboxId) (ms handed : List Message) :
    Option (OutboxId × List Message) → Nat → Prop
  | told (h : handed = ms) : Handing boxes o ms handed none 1
  | waiting {rest : List Message} (h : handed ++ rest = ms) :
      Handing boxes o ms handed (some (o, rest)) 0
  | refused (h : handed <+: ms) (hbox : ∀ box, boxes[o]? = some box → box.isOpen = false) :
      Handing boxes o ms handed none 0

theorem queueAt_set_of_ne (h : q ≠ o) (box : Outbox) :
    Outboxes.queueAt (boxes.set o box) q = boxes.queueAt q := by
  unfold Outboxes.queueAt
  rw [List.getElem?_set_ne (Ne.symm h)]

theorem handing_tell (task : TaskId) (b : Broadcast) (boxes : Outboxes) (o : OutboxId)
    (ms : List Message) :
    ∃ handed waiting n after, Handing boxes o ms handed waiting n ∧
      b.tell task boxes o ms = ({ b with waiting, sent := b.sent + n }, after) ∧
      ∀ q, after.queueAt q = boxes.queueAt q ++ only o handed q := by
  unfold tell
  cases hbox : boxes[o]? with
  | none =>
    refine ⟨[], none, 0, boxes, .refused List.nil_prefix ?_, rfl, fun q => ?_⟩
    · intro box h
      rw [hbox] at h
      cases h
    · simp [only]
  | some box =>
    obtain ⟨handed, hqueue, hhanded⟩ := box.queue_deliver task ms
    have hqueues : ∀ q, Outboxes.queueAt (boxes.set o (deliver (Outbox.send task) box ms).1) q =
        boxes.queueAt q ++ only o handed q := by
      intro q
      unfold only
      split
      · rename_i hq
        subst hq
        rw [Outboxes.queueAt_set hbox, Outboxes.queueAt_of_getElem? hbox, hqueue]
      · rename_i hq
        rw [queueAt_set_of_ne hq, List.append_nil]
    simp only
    cases hd : (deliver (Outbox.send task) box ms).2 with
    | done =>
      rw [hd] at hhanded
      exact ⟨handed, none, 1, _, .told hhanded, rfl, hqueues⟩
    | waiting rest =>
      rw [hd] at hhanded
      exact ⟨handed, some (o, rest), 0, _, .waiting hhanded, rfl, hqueues⟩
    | failed e =>
      rw [hd] at hhanded
      refine ⟨handed, none, 0, _, .refused hhanded fun box' h => ?_, rfl, hqueues⟩
      obtain rfl := Option.some.inj (hbox.symm.trans h)
      exact box.isOpen_of_deliver_failed task hd

theorem Handing.prefix (h : Handing boxes o ms handed waiting n) : handed <+: ms := by
  cases h with
  | told h => exact h ▸ List.prefix_refl _
  | waiting h => exact ⟨_, h⟩
  | refused h _ => exact h

theorem Handing.mem (h : Handing boxes o ms handed waiting n) {m : Message}
    (hm : m ∈ only o handed q ∨ ∃ rest, waiting = some (q, rest) ∧ m ∈ rest) : q = o ∧ m ∈ ms := by
  rcases hm with hm | ⟨rest, hrest, hm⟩
  · unfold only at hm
    split at hm
    · exact ⟨‹q = o›, h.prefix.subset hm⟩
    · cases hm
  · cases h with
    | told _ => cases hrest
    | waiting hms =>
      obtain ⟨rfl, rfl⟩ := Prod.mk.inj (Option.some.inj hrest)
      exact ⟨rfl, hms ▸ List.mem_append_right _ hm⟩
    | refused _ _ => cases hrest

/-- Behind what an open outbox takes comes what waits for it. -/
theorem Handing.prefix_of_open (h : Handing boxes o ms handed waiting n) {box : Outbox}
    (hbox : boxes[o]? = some box) (hopen : box.isOpen = true)
    (hlater : ∀ rest, waiting = some (o, rest) → rest <+: later) : ms <+: handed ++ later := by
  cases h with
  | told h => exact h ▸ List.prefix_append handed later
  | waiting h => exact h ▸ (List.prefix_append_right_inj handed).mpr (hlater _ rfl)
  | refused _ hclosed =>
    rw [hclosed box hbox] at hopen
    cases hopen

/-! ### One move -/

/-- The frames of a wantlist, under some trace id that an exchange makes up. -/
def Framing (x : Exchange σ) (es : List Entry) (frames : List Message) : Prop :=
  ∃ z : Exchange σ, frames = pack x.maxMessageSize z.newTraceId.2 es [] []

section
variable {es : List Entry} {frames : List Message} (h : Framing x es frames)
include h

theorem Framing.entries : frames.flatMap Message.entries = es := by
  obtain ⟨z, rfl⟩ := h
  exact flatMap_pack_entries ..

theorem Framing.of_maxMessageSize (hmax : x.maxMessageSize = y.maxMessageSize) :
    Framing y es frames := by
  obtain ⟨z, rfl⟩ := h
  exact ⟨z, by rw [hmax]⟩

end

/-- The message waits for the outbox, or is one of the frames of the wantlist. -/
def Offers (b : Broadcast) (x : Exchange σ) (o : OutboxId) (m : Message) : Prop :=
  (∃ ms, b.waiting = some (o, ms) ∧ m ∈ ms) ∨ ∃ frames, Framing x b.entries frames ∧ m ∈ frames

theorem Offers.of_maxMessageSize {m : Message} (h : b.Offers x o m)
    (hmax : x.maxMessageSize = y.maxMessageSize) : b.Offers y o m :=
  h.imp_right fun ⟨frames, hf, hm⟩ => ⟨frames, hf.of_maxMessageSize hmax, hm⟩

/-- All that one move of a broadcast can do: it passes over a peer that is not connected, goes on
where it had to wait, or begins to tell the next peer under a trace id of its own. -/
inductive Stepped (b : Broadcast) (x : Exchange σ) (boxes : Outboxes) :
    Broadcast → Exchange σ → (OutboxId → List Message) → Prop
  | skips {p : PeerId} {targets : List PeerId} (hw : b.waiting = none)
      (ht : b.targets = p :: targets) (hp : x.peers.outbox? p = none) :
      Stepped b x boxes { b with targets } x fun _ => []
  | resumes {o : OutboxId} {ms handed : List Message} {waiting : Option (OutboxId × List Message)}
      {n : Nat} (hw : b.waiting = some (o, ms)) (h : Handing boxes o ms handed waiting n) :
      Stepped b x boxes { b with waiting, sent := b.sent + n } x (only o handed)
  | begins {p : PeerId} {targets : List PeerId} {o : OutboxId} {handed : List Message}
      {waiting : Option (OutboxId × List Message)} {n : Nat} (hw : b.waiting = none)
      (ht : b.targets = p :: targets) (hp : x.peers.outbox? p = some o)
      (h : Handing boxes o (pack x.maxMessageSize x.newTraceId.2 b.entries [] []) handed waiting
        n) :
      Stepped b x boxes { b with targets, waiting, sent := b.sent + n } x.newTraceId.1
        (only o handed)

theorem exists_stepped (h : b.step? task x boxes = some (c, y, after)) :
    ∃ posted, Stepped b x boxes c y posted ∧
      ∀ q, after.queueAt q = boxes.queueAt q ++ posted q := by
  cases hw : b.waiting with
  | some w =>
    obtain ⟨o, ms⟩ := w
    obtain ⟨handed, waiting, n, boxes', hhanding, htell, hqueues⟩ := handing_tell task b boxes o ms
    unfold step? at h
    simp only [hw, htell] at h
    split at h
    · cases h
    · simp only [Option.some.injEq, Prod.mk.injEq] at h
      obtain ⟨rfl, rfl, rfl⟩ := h
      exact ⟨_, .resumes hw hhanding, hqueues⟩
  | none =>
    cases ht : b.targets with
    | nil =>
      unfold step? at h
      simp only [hw, ht] at h
      cases h
    | cons p targets =>
      cases hp : x.peers.outbox? p with
      | none =>
        rw [step?_of_not_connected hw ht hp] at h
        simp only [Option.some.injEq, Prod.mk.injEq] at h
        obtain ⟨rfl, rfl, rfl⟩ := h
        exact ⟨_, .skips hw ht hp, fun _ => (List.append_nil _).symm⟩
      | some o =>
        obtain ⟨handed, waiting, n, boxes', hhanding, htell, hqueues⟩ :=
          handing_tell task { b with targets } boxes o
            (pack x.maxMessageSize x.newTraceId.2 b.entries [] [])
        rw [step?_of_target hw ht hp htell] at h
        simp only [Option.some.injEq, Prod.mk.injEq] at h
        obtain ⟨rfl, rfl, rfl⟩ := h
        exact ⟨_, .begins hw ht hp hhanding, hqueues⟩

theorem stepped_of_step? {posted : OutboxId → List Message}
    (h : b.step? task x boxes = some (c, y, after))
    (hqueue : ∀ q, after.queueAt q = boxes.queueAt q ++ posted q) :
    Stepped b x boxes c y posted := by
  obtain ⟨posted', hstepped, hqueue'⟩ := exists_stepped h
  have heq : posted = posted' :=
    funext fun q => List.append_cancel_left ((hqueue q).symm.trans (hqueue' q))
  exact heq ▸ hstepped

section
variable {posted : OutboxId → List Message} (h : Stepped b x boxes c y posted)
include h

theorem Stepped.exchange : y = x ∨ y = x.newTraceId.1 := by
  cases h with
  | skips => exact .inl rfl
  | resumes => exact .inl rfl
  | begins => exact .inr rfl

theorem Stepped.exchange_eq : y = { x with traced := y.traced } := by
  rcases h.exchange with rfl | rfl
  · rfl
  · exact x.newTraceId_eq

theorem Stepped.maxMessageSize_eq : y.maxMessageSize = x.maxMessageSize := by
  rw [h.exchange_eq]

theorem Stepped.entries_eq : c.entries = b.entries := by
  cases h <;> rfl

/-- What a move posts, and what is still to be posted after it, was to be posted before. -/
theorem Stepped.offers {m : Message} (hm : m ∈ posted o ∨ c.Offers y o m) : b.Offers x o m := by
  have hframes : ∀ frames, Framing y c.entries frames → Framing x b.entries frames := by
    intro frames hf
    rw [h.entries_eq] at hf
    exact hf.of_maxMessageSize h.maxMessageSize_eq
  rcases hm with hm | hm | ⟨frames, hf, hm⟩
  · cases h with
    | skips => cases hm
    | resumes hw hhanding =>
      obtain ⟨rfl, hms⟩ := hhanding.mem (.inl hm)
      exact .inl ⟨_, hw, hms⟩
    | begins _ _ _ hhanding => exact .inr ⟨_, ⟨x, rfl⟩, (hhanding.mem (.inl hm)).2⟩
  · cases h with
    | skips => exact .inl hm
    | resumes hw hhanding =>
      obtain ⟨rfl, hms⟩ := hhanding.mem (.inr hm)
      exact .inl ⟨_, hw, hms⟩
    | begins _ _ _ hhanding => exact .inr ⟨_, ⟨x, rfl⟩, (hhanding.mem (.inr hm)).2⟩
  · exact .inr ⟨frames, hframes frames hf, hm⟩

end

/-! ### Many moves -/

section
variable [BlockStore σ]

/-- Moves of a broadcast, whatever others do to the exchange and to the outboxes in between. -/
inductive Tells (task : TaskId) :
    Broadcast → Exchange σ → List (Move σ) → Broadcast → Exchange σ → Prop
  | refl (b : Broadcast) (x : Exchange σ) : Tells task b x [] b x
  | others {b c : Broadcast} {x y z : Exchange σ} {more : List (Want × WantFuture)}
      {moves : List (Move σ)} (h : Exchange.Step x y more) (rest : Tells task b y moves c z) :
      Tells task b x moves c z
  | step {b c d : Broadcast} {x y z : Exchange σ} {boxes after : Outboxes}
      {posted : OutboxId → List Message} {moves : List (Move σ)}
      (h : b.step? task x boxes = some (c, y, after))
      (hqueue : ∀ q, after.queueAt q = boxes.queueAt q ++ posted q)
      (rest : Tells task c y moves d z) : Tells task b x (⟨x, boxes, y, posted⟩ :: moves) d z

variable {moves : List (Move σ)} {given : List (Want × WantFuture)}

theorem Tells.run (ht : Tells task b x moves c y) (hx : Exchange.Run x given) :
    ∃ more, Exchange.Run y (given ++ more) := by
  induction ht generalizing given with
  | refl b x => exact ⟨[], by rwa [List.append_nil]⟩
  | others h _ ih =>
    obtain ⟨more, hy⟩ := ih (hx.step h)
    exact ⟨_, by rwa [List.append_assoc] at hy⟩
  | step h hqueue _ ih =>
    rcases (stepped_of_step? h hqueue).exchange with rfl | rfl
    · exact ih hx
    · obtain ⟨more, hy⟩ := ih (hx.step .newTraceId)
      exact ⟨_, by rwa [List.append_assoc] at hy⟩

/-- The moves of a broadcast leave everything of the exchange alone but the count of trace ids. -/
theorem Tells.exchange_eq (ht : Tells task b x moves c y) :
    ∀ m ∈ moves, m.after = { m.before with traced := m.after.traced } := by
  induction ht with
  | refl b x => exact fun m hm => absurd hm List.not_mem_nil
  | others _ _ ih => exact ih
  | step h hqueue _ ih =>
    refine List.forall_mem_cons.mpr ⟨?_, ih⟩
    exact (stepped_of_step? h hqueue).exchange_eq

theorem Tells.moves_eq_nil (ht : Tells task b x moves c y) (hdone : b.isDone = true) :
    moves = [] := by
  obtain ⟨htargets, hw⟩ : b.targets = [] ∧ b.waiting = none := by
    simpa [isDone] using hdone
  induction ht with
  | refl b x => rfl
  | others _ _ ih => exact ih hdone htargets hw
  | step h _ _ _ =>
    unfold step? at h
    simp only [hw, htargets] at h
    cases h

theorem Tells.mem_posted (ht : Tells task b x moves c y) {m : Message}
    (hm : m ∈ postedTo o moves) : b.Offers x o m := by
  induction ht with
  | refl b x => cases hm
  | others h _ ih => exact (ih hm).of_maxMessageSize h.maxMessageSize_eq
  | step h hqueue _ ih =>
    refine (stepped_of_step? h hqueue).offers ?_
    exact (List.mem_append.mp hm).imp_right ih

theorem Tells.mem_entries (ht : Tells task b x moves c y) (hw : b.waiting = none) {m : Message}
    (hm : m ∈ postedTo o moves) {e : Entry} (he : e ∈ m.entries) : e ∈ b.entries := by
  rcases ht.mem_posted hm with ⟨ms, hms, -⟩ | ⟨frames, hframes, hm⟩
  · rw [hw] at hms
    cases hms
  · rw [← hframes.entries]
    exact List.mem_flatMap.mpr ⟨m, hm, he⟩

/-- A peer that stays connected over an open outbox gets what waits for it, and the whole wantlist
if it is still to be told. -/
theorem Tells.posted_of_linked (ht : Tells task b x moves c y) (hdone : c.isDone = true)
    (hl : ∀ m ∈ moves, Linked p o m.before m.boxes) :
    (∀ ms, b.waiting = some (o, ms) → ms <+: postedTo o moves) ∧
      (p ∈ b.targets → ∃ frames, Framing x b.entries frames ∧ frames <:+: postedTo o moves) := by
  induction ht with
  | refl b x =>
    obtain ⟨htargets, hw⟩ : b.targets = [] ∧ b.waiting = none := by
      simpa [isDone] using hdone
    rw [htargets, hw]
    exact ⟨nofun, nofun⟩
  | others h _ ih =>
    obtain ⟨hwaits, hrest⟩ := ih hdone hl
    refine ⟨hwaits, fun hp => ?_⟩
    obtain ⟨frames, hframes, hinfix⟩ := hrest hp
    exact ⟨frames, hframes.of_maxMessageSize h.maxMessageSize_eq, hinfix⟩
  | @step b c d x y z boxes after posted moves h hqueue _ ih =>
    obtain ⟨⟨hlinked, box, hbox, hopen⟩, hl⟩ := List.forall_mem_cons.mp hl
    obtain ⟨hwaits, hrest⟩ := ih hdone hl
    have hstepped := stepped_of_step? h hqueue
    have hlater : p ∈ c.targets → ∃ frames, Framing x b.entries frames ∧
        frames <:+: posted o ++ postedTo o moves := by
      intro hp
      obtain ⟨frames, hframes, hinfix⟩ := hrest hp
      rw [hstepped.entries_eq] at hframes
      exact ⟨frames, hframes.of_maxMessageSize hstepped.maxMessageSize_eq,
        hinfix.trans (List.suffix_append _ _).isInfix⟩
    show (∀ ms, b.waiting = some (o, ms) → ms <+: posted o ++ postedTo o moves) ∧
      (p ∈ b.targets → ∃ frames, Framing x b.entries frames ∧
        frames <:+: posted o ++ postedTo o moves)
    cases hstepped with
    | skips hw ht hp =>
      refine ⟨by rw [hw]; exact nofun, fun hmem => hlater ?_⟩
      rw [ht] at hmem
      rcases List.mem_cons.mp hmem with rfl | hmem
      · rw [hp] at hlinked
        cases hlinked
      · exact hmem
    | @resumes q ms handed waiting n hw hhanding =>
      refine ⟨fun ms' hms => ?_, hlater⟩
      rw [hw] at hms
      obtain ⟨rfl, rfl⟩ := Prod.mk.inj (Option.some.inj hms)
      rw [only_self]
      exact hhanding.prefix_of_open hbox hopen hwaits
    | @begins p' targets q handed waiting n hw ht hp hhanding =>
      refine ⟨by rw [hw]; exact nofun, fun hmem => ?_⟩
      rw [ht] at hmem
      rcases List.mem_cons.mp hmem with rfl | hmem
      · obtain rfl := Option.some.inj (hlinked.symm.trans hp)
        rw [only_self]
        exact ⟨_, ⟨x, rfl⟩, (hhanding.prefix_of_open hbox hopen hwaits).isInfix⟩
      · exact hlater hmem

/-- With room in its outbox, the only peer is told everything in one move. -/
theorem tells_of_room (task : TaskId) {box : Outbox} (hw : b.waiting = none) (ht : b.targets = [p])
    (hp : x.peers.outbox? p = some o) (hbox : boxes[o]? = some box) (hopen : box.isOpen = true)
    (hline : box.waiting = [])
    (hroom : (pack x.maxMessageSize x.newTraceId.2 b.entries [] []).length ≤ box.room) :
    ∃ moves c, Tells task b x moves c x.newTraceId.1 ∧ c.isDone = true ∧
      (∀ m ∈ moves, Linked p o m.before m.boxes) ∧
      postedTo o moves = pack x.maxMessageSize x.newTraceId.2 b.entries [] [] := by
  let frames := pack x.maxMessageSize x.newTraceId.2 b.entries [] []
  have hdone := box.deliver_of_room task hopen hline hroom
  have hstep := step?_of_target hw ht hp (tell_of_done hbox hdone)
  refine ⟨[⟨x, boxes, x.newTraceId.1, only o frames⟩], _, .step hstep (fun q => ?_) (.refl _ _),
    rfl, List.forall_mem_singleton.mpr ⟨hp, box, hbox, hopen⟩, ?_⟩
  · unfold only
    split
    · rename_i hq
      subst hq
      rw [Outboxes.queueAt_set hbox, Outboxes.queueAt_of_getElem? hbox]
    · rename_i hq
      rw [queueAt_set_of_ne hq, List.append_nil]
  · exact (List.append_nil _).trans only_self

/-- Some outbox has room for everything. -/
theorem exists_tells (task : TaskId) (hw : b.waiting = none) (ht : b.targets = [p])
    (hp : x.peers.outbox? p = some 0) :
    ∃ moves c, Tells task b x moves c x.newTraceId.1 ∧ c.isDone = true ∧
      (∀ m ∈ moves, Linked p 0 m.before m.boxes) ∧
      postedTo 0 moves = pack x.maxMessageSize x.newTraceId.2 b.entries [] [] := by
  let frames := pack x.maxMessageSize x.newTraceId.2 b.entries [] []
  have hbox : ([{ capacity := frames.length }] : Outboxes)[0]? =
      some { capacity := frames.length } := rfl
  exact tells_of_room task hw ht hp hbox rfl rfl (Nat.le_refl _)

end
end Broadcast
end BlockExchange
