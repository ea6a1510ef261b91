import BlockExchange.Dispatch
import BlockExchange.Proofs.Packing
import Mathlib

/-!
# Handing packed records over

The messages of a pack stand in the order of their kinds (`Message.Precedes`, `pairwise_pack`): a push
changes the open message only, and a record of an earlier kind is pushed before those of later ones. A
dispatch that is polled until it has a result, while its sink changes as it likes between the polls
(`Dispatch.Polled`), has its messages taken in order and stops at the first that is refused
(`Dispatch.Polled.stands`).
-/

namespace BlockExchange

/-! ### The order of the kinds -/

/-- Nothing in `n` is of an earlier kind than something in `m`. -/
structure Message.Precedes (m n : Message) : Prop where
  presences : m.presences ≠ [] → n.entries = []
  payload : m.payload ≠ [] → n.entries = [] ∧ n.presences = []

theorem Message.precedes_traced (m : Message) (traceId : String) : m.Precedes (.traced traceId) :=
  ⟨fun _ => rfl, fun _ => ⟨rfl, rfl⟩⟩

namespace Batch

def Ordered (b : Batch) : Prop :=
  b.messages.Pairwise Message.Precedes

section
variable {b c : Batch}

theorem ordered_new (maxSize : Nat) (traceId : String) : Ordered { maxSize, traceId } :=
  List.pairwise_singleton ..

theorem Ordered.makeRoom (h : b.Ordered) (cost : Nat) : (b.makeRoom cost).Ordered := by
  unfold Batch.makeRoom
  split
  · refine List.pairwise_append.mpr ⟨h, List.pairwise_singleton .., fun m _ n hn => ?_⟩
    rw [List.mem_singleton.mp hn]
    exact m.precedes_traced b.traceId
  · exact h

/-- The open message may be filled with what its forerunners let through. -/
theorem Ordered.fill (h : b.Ordered) (hclosed : c.closed = b.closed)
    (hopened : ∀ m ∈ b.closed, m.Precedes b.opened → m.Precedes c.opened) : c.Ordered := by
  obtain ⟨hbefore, -, hlast⟩ := List.pairwise_append.mp h
  unfold Ordered messages
  rw [hclosed]
  refine List.pairwise_append.mpr ⟨hbefore, List.pairwise_singleton .., fun m hm n hn => ?_⟩
  rw [List.mem_singleton.mp hn]
  exact hopened m hm (hlast m hm b.opened List.mem_cons_self)

/-- What no message of a batch holds, no closed message holds after making room. -/
theorem eq_nil_of_mem_makeRoom {α : Type} {f : Message → List α} (hf : ∀ id, f (.traced id) = [])
    (h : b.messages.flatMap f = []) {cost : Nat} {m : Message} (hm : m ∈ (b.makeRoom cost).closed) :
    f m = [] := by
  rw [← flatMap_makeRoom (b := b) hf cost] at h
  exact List.flatMap_eq_nil_iff.mp h m (List.mem_append_left _ hm)

theorem Ordered.pushEntry (h : b.Ordered) (hpresences : b.messages.flatMap Message.presences = [])
    (hpayload : b.messages.flatMap Message.payload = []) (e : Entry) : (b.pushEntry e).Ordered := by
  refine (h.makeRoom (b.entryCost e.fieldLength)).fill rfl fun m hm _ => ⟨fun hne => ?_, fun hne => ?_⟩
  · exact absurd (eq_nil_of_mem_makeRoom (fun _ => rfl) hpresences hm) hne
  · exact absurd (eq_nil_of_mem_makeRoom (fun _ => rfl) hpayload hm) hne

theorem Ordered.pushPresence (h : b.Ordered) (hpayload : b.messages.flatMap Message.payload = [])
    (p : Presence) : (b.pushPresence p).Ordered := by
  refine (h.makeRoom p.fieldLength).fill rfl fun m hm hlast => ⟨hlast.presences, fun hne => ?_⟩
  exact absurd (eq_nil_of_mem_makeRoom (fun _ => rfl) hpayload hm) hne

theorem Ordered.pushBlock (h : b.Ordered) (r : BlockRecord) : (b.pushBlock r).Ordered :=
  (h.makeRoom r.fieldLength).fill rfl fun _ _ hlast => ⟨hlast.presences, hlast.payload⟩

theorem Ordered.finish (h : b.Ordered) : b.finish.Pairwise Message.Precedes := by
  unfold Batch.finish
  split
  · exact List.Pairwise.sublist (List.sublist_append_left _ _) h
  · exact h

end
end Batch

section
variable (maxSize : Nat) (traceId : String) (entries : List Entry) (presences : List Presence)
  (blocks : List BlockRecord)

theorem pairwise_pack :
    (pack maxSize traceId entries presences blocks).Pairwise Message.Precedes := by
  let listed : Batch := entries.foldl Batch.pushEntry { maxSize, traceId }
  have hlisted : listed.Ordered ∧ listed.messages.flatMap Message.presences = [] ∧
      listed.messages.flatMap Message.payload = [] := by
    refine List.foldlRecOn (motive := fun b : Batch => b.Ordered ∧
      b.messages.flatMap Message.presences = [] ∧ b.messages.flatMap Message.payload = [])
      entries Batch.pushEntry ⟨Batch.ordered_new .., rfl, rfl⟩ ?_
    rintro b ⟨hb, hpresences, hpayload⟩ e -
    refine ⟨hb.pushEntry hpresences hpayload e, ?_, ?_⟩
    · rw [Batch.presences_pushEntry, hpresences]
    · rw [Batch.payload_pushEntry, hpayload]
  let told : Batch := presences.foldl Batch.pushPresence listed
  have htold : told.Ordered ∧ told.messages.flatMap Message.payload = [] := by
    refine List.foldlRecOn (motive := fun b : Batch => b.Ordered ∧
      b.messages.flatMap Message.payload = []) presences Batch.pushPresence
      ⟨hlisted.1, hlisted.2.2⟩ ?_
    rintro b ⟨hb, hpayload⟩ p -
    refine ⟨hb.pushPresence hpayload p, ?_⟩
    rw [Batch.payload_pushPresence, hpayload]
  have hall : (blocks.foldl Batch.pushBlock told).Ordered :=
    List.foldlRecOn blocks Batch.pushBlock htold.1 fun b hb r _ => hb.pushBlock r
  exact hall.finish

end

/-! ### Calls on a sink -/

/-- A sink that keeps note of the calls on it. -/
def recording {σ : Type} (send : σ → Message → σ × Receipt) (s : σ × List (Message × Receipt))
    (m : Message) : (σ × List (Message × Receipt)) × Receipt :=
  let (s', receipt) := send s.1 m
  ((s', s.2 ++ [(m, receipt)]), receipt)

/-- The messages that a sink has taken. -/
def takenBy (calls : List (Message × Receipt)) : List Message :=
  (calls.filter (·.2 = .accepted)).map Prod.fst

def Refuses (calls : List (Message × Receipt)) : Prop :=
  ∃ m e, (m, Receipt.failed e) ∈ calls

/-- The calls that one attempt to hand messages over makes, by how it ends. -/
inductive Attempt (ms : List Message) : List (Message × Receipt) → Delivery → Prop
  | done : Attempt ms (ms.map (·, .accepted)) .done
  | waiting (taken : List Message) {m : Message} {later : List Message} (h : taken ++ m :: later = ms) :
      Attempt ms (taken.map (·, .accepted) ++ [(m, .full)]) (.waiting (m :: later))
  | failed (taken : List Message) {m : Message} {later : List Message} {e : SendError}
      (h : taken ++ m :: later = ms) :
      Attempt ms (taken.map (·, .accepted) ++ [(m, .failed e)]) (.failed e)

section
variable {σ : Type} {send : σ → Message → σ × Receipt} {calls more : List (Message × Receipt)}
  {ms : List Message} {delivery : Delivery}

theorem Attempt.cons (h : Attempt ms more delivery) (m : Message) :
    Attempt (m :: ms) ((m, .accepted) :: more) delivery := by
  cases h with
  | done => exact .done
  | waiting taken h => exact .waiting (m :: taken) (congrArg (m :: ·) h)
  | failed taken h => exact .failed (m :: taken) (congrArg (m :: ·) h)

/-- Keeping note changes nothing, and the calls noted are those of one attempt. -/
theorem deliver_recording (send : σ → Message → σ × Receipt) (s : σ)
    (calls : List (Message × Receipt)) (ms : List Message) :
    ∃ more, Attempt ms more (deliver send s ms).2 ∧
      deliver (recording send) (s, calls) ms =
        (((deliver send s ms).1, calls ++ more), (deliver send s ms).2) := by
  induction ms generalizing s calls with
  | nil => exact ⟨[], .done, by rw [List.append_nil]; rfl⟩
  | cons m ms ih =>
    cases hsend : send s m with
    | mk s' receipt =>
      have hrecord : recording send (s, calls) m = ((s', calls ++ [(m, receipt)]), receipt) := by
        unfold recording
        rw [hsend]
      unfold deliver
      rw [hrecord, hsend]
      cases receipt with
      | accepted =>
        obtain ⟨more, hattempt, heq⟩ := ih s' (calls ++ [(m, .accepted)])
        refine ⟨(m, .accepted) :: more, hattempt.cons m, ?_⟩
        show deliver (recording send) (s', calls ++ [(m, .accepted)]) ms = _
        rw [heq, List.append_assoc]
        rfl
      | full => exact ⟨[(m, .full)], .waiting [] rfl, rfl⟩
      | failed e => exact ⟨[(m, .failed e)], .failed [] rfl, rfl⟩

theorem takenBy_append : takenBy (calls ++ more) = takenBy calls ++ takenBy more := by
  unfold takenBy
  rw [List.filter_append, List.map_append]

theorem takenBy_accepted (taken : List Message) :
    takenBy (taken.map (·, Receipt.accepted)) = taken := by
  induction taken with
  | nil => rfl
  | cons m taken ih => exact congrArg (m :: ·) ih

theorem not_refuses_accepted (taken : List Message) :
    ¬ Refuses (taken.map (·, Receipt.accepted)) := by
  rintro ⟨m, e, h⟩
  obtain ⟨n, -, hn⟩ := List.mem_map.mp h
  cases congrArg Prod.snd hn

theorem not_refuses_append (h : ¬ Refuses calls) (h' : ¬ Refuses more) : ¬ Refuses (calls ++ more) := by
  rintro ⟨m, e, hm⟩
  rcases List.mem_append.mp hm with hm | hm
  · exact h ⟨m, e, hm⟩
  · exact h' ⟨m, e, hm⟩

end

/-! ### A dispatch under way -/

namespace Dispatch

/-- What has come of a dispatch: its state and the sink's, the calls on the sink, and the result if
there is one. -/
inductive Polled {σ : Type} (send : σ → Message → σ × Receipt) (d₀ : Dispatch) :
    Dispatch → σ → List (Message × Receipt) → Option (Except SendError Nat) → Prop
  | start (s : σ) : Polled send d₀ d₀ s [] none
  /-- While a dispatch waits its sink may change as it likes. -/
  | change {d : Dispatch} {s : σ} {calls : List (Message × Receipt)}
      (h : Polled send d₀ d s calls none) (s' : σ) : Polled send d₀ d s' calls none
  | poll {d d' : Dispatch} {s s' : σ} {calls calls' : List (Message × Receipt)}
      {result : Option (Except SendError Nat)} (h : Polled send d₀ d s calls none)
      (hpoll : d.poll (recording send) (s, calls) = (d', (s', calls'), result)) :
    Polled send d₀ d' s' calls' result

/-- How a dispatch of some messages stands after these calls on its sink. -/
inductive Stands (ms rest : List Message) :
    List (Message × Receipt) → Option (Except SendError Nat) → Prop
  | waiting {calls : List (Message × Receipt)} (h : takenBy calls ++ rest = ms)
      (hnone : ¬ Refuses calls) : Stands ms rest calls none
  | done {calls : List (Message × Receipt)} (h : takenBy calls = ms) (hnone : ¬ Refuses calls) :
      Stands ms rest calls (some (.ok ms.length))
  /-- The last call is the first that was refused. -/
  | failed {calls : List (Message × Receipt)} {m : Message} {later : List Message} {e : SendError}
      (h : takenBy calls ++ m :: later = ms) (hnone : ¬ Refuses calls) :
      Stands ms rest (calls ++ [(m, .failed e)]) (some (.error e))

variable {σ : Type} {send : σ → Message → σ × Receipt} {d₀ d d' : Dispatch} {s s' : σ}
  {ms : List Message} {calls calls' : List (Message × Receipt)}
  {result : Option (Except SendError Nat)}

/-- What one poll leads to, by how its attempt ends. -/
theorem poll_recording (h : d.poll (recording send) (s, calls) = (d', (s', calls'), result)) :
    ∃ more delivery, calls' = calls ++ more ∧ d'.count = d.count ∧ Attempt d.rest more delivery ∧
      result = (match delivery with
        | .done => some (.ok d.count)
        | .waiting _ => none
        | .failed e => some (.error e)) ∧
      ∀ rest, delivery = .waiting rest → d'.rest = rest := by
  obtain ⟨more, hattempt, heq⟩ := deliver_recording send s calls d.rest
  refine ⟨more, (deliver send s d.rest).2, ?_⟩
  unfold poll at h
  rw [heq] at h
  cases hd : (deliver send s d.rest).2 with
  | done =>
    rw [hd] at h hattempt
    simp only [Prod.mk.injEq] at h
    obtain ⟨rfl, ⟨-, rfl⟩, rfl⟩ := h
    exact ⟨rfl, rfl, hattempt, rfl, nofun⟩
  | waiting rest =>
    rw [hd] at h hattempt
    simp only [Prod.mk.injEq] at h
    obtain ⟨rfl, ⟨-, rfl⟩, rfl⟩ := h
    exact ⟨rfl, rfl, hattempt, rfl, fun rest' hrest => Delivery.waiting.inj hrest⟩
  | failed e =>
    rw [hd] at h hattempt
    simp only [Prod.mk.injEq] at h
    obtain ⟨rfl, ⟨-, rfl⟩, rfl⟩ := h
    exact ⟨rfl, rfl, hattempt, rfl, nofun⟩

theorem Stands.poll (h : Stands ms d.rest calls none) (hcount : d.count = ms.length)
    (hpoll : d.poll (recording send) (s, calls) = (d', (s', calls'), result)) :
    d'.count = ms.length ∧ Stands ms d'.rest calls' result := by
  obtain ⟨more, delivery, rfl, hcount', hattempt, rfl, hrest⟩ := poll_recording hpoll
  refine ⟨hcount'.trans hcount, ?_⟩
  cases h with
  | waiting h hnone =>
  cases hattempt with
  | done =>
    rw [hcount]
    refine .done ?_ (not_refuses_append hnone (not_refuses_accepted d.rest))
    rw [takenBy_append, takenBy_accepted, h]
  | waiting taken hsplit =>
    refine .waiting ?_ (not_refuses_append hnone (not_refuses_append (not_refuses_accepted taken) ?_))
    · rw [hrest _ rfl, takenBy_append, takenBy_append, takenBy_accepted, ← h, ← hsplit]
      simp [takenBy]
    · rintro ⟨n, e, hn⟩
      cases congrArg Prod.snd (List.mem_singleton.mp hn)
  | @failed taken m later e hsplit =>
    have htaken : takenBy (calls ++ taken.map (·, .accepted)) ++ m :: later = ms := by
      rw [takenBy_append, takenBy_accepted, List.append_assoc, hsplit, h]
    rw [← List.append_assoc]
    exact .failed htaken (not_refuses_append hnone (not_refuses_accepted taken))

theorem Polled.stands (hcount : d₀.count = d₀.rest.length) (h : Polled send d₀ d s calls result) :
    d.count = d₀.rest.length ∧ Stands d₀.rest d.rest calls result := by
  induction h with
  | start s => exact ⟨hcount, .waiting rfl fun ⟨_, _, h⟩ => absurd h List.not_mem_nil⟩
  | change _ s' ih => exact ih
  | poll _ hpoll ih => exact ih.2.poll ih.1 hpoll

/-- The messages of a pack hold its records, each once and in order, entries before presences before
blocks; none is empty, and all carry the trace id and nothing else. Any sink is handed these messages
in order, up to the first that it refuses; if it refuses none, their number is the result. -/
theorem records_handed_over (maxSize : Nat) (traceId : String) (entries : List Entry)
    (presences : List Presence) (blocks : List BlockRecord) :
    let ms := pack maxSize traceId entries presences blocks
    (∀ m ∈ ms, m.isEmpty = false ∧ m.Stamped traceId) ∧
    (ms = [] ↔ entries = [] ∧ presences = [] ∧ blocks = []) ∧
    ms.flatMap Message.entries = entries ∧ ms.flatMap Message.presences = presences ∧
    ms.flatMap Message.payload = blocks ∧ ms.Pairwise Message.Precedes ∧
    ∀ (σ : Type) (send : σ → Message → σ × Receipt),
      (∀ d s calls result, Polled send (start maxSize traceId entries presences blocks) d s calls
        result → Stands ms d.rest calls result) ∧
      ((∀ s m, (send s m).2 = .accepted) → ∀ s,
        ((start maxSize traceId entries presences blocks).poll send s).2.2 =
          some (.ok ms.length)) := by
  intro ms
  refine ⟨fun m hm => ⟨isEmpty_of_mem_pack _ _ _ _ _ m hm, stamped_of_mem_pack _ _ _ _ _ m hm⟩,
    pack_eq_nil_iff .., flatMap_pack_entries .., flatMap_pack_presences .., flatMap_pack_payload ..,
    pairwise_pack .., fun σ send => ⟨fun d s calls result h => (h.stands rfl).2, fun haccepts s => ?_⟩⟩
  unfold poll
  rw [deliver_of_accepts haccepts]
  rfl

/-- Of three presences in messages of their own a sink with room for one takes the first, and the second
is the last that it is offered. -/
theorem records_handed_over_refused :
    let told : List Presence := [{ type := 0 }, { type := 1 }, { type := 2 }]
    let sink : Collector := { limit := some 1 }
    let ms := pack 0 "" [] told []
    let r := (start 0 "" [] told []).poll (recording Collector.send) (sink, [])
    r.2.2 = some (.error .refused) ∧ ms.length = 3 ∧ Stands ms r.1.rest r.2.1.2 r.2.2 := by
  intro told sink ms r
  have hrefused : ((start 0 "" [] [{ type := 0 }, { type := 1 }, { type := 2 }] []).poll
      (recording Collector.send) ({ limit := some 1 }, [])).2.2 = some (.error .refused) := by cbv
  refine ⟨hrefused, by decide +kernel, ?_⟩
  exact ((records_handed_over 0 "" [] told []).2.2.2.2.2.2 Collector Collector.send).1 _ r.2.1.1 _ _
    (.poll (.start sink) rfl)

end Dispatch
end BlockExchange
