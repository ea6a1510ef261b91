import BlockExchange.Exchange.Fetch
import BlockExchange.Proofs.Absorption
import BlockExchange.Proofs.Tickets

/-!
# Runs of an exchange

`Exchange.Run` is any sequence of what can happen to an exchange, with the futures that were given out
and the wants they are for. `WantTable.Honours` ties a table to these: each future is tracked, each
outstanding want has a future, and a future that is done has a block of its want's name. It holds
throughout a run (`Exchange.Run.honours`).
-/

namespace BlockExchange

namespace WantTable

structure Honours (t : WantTable) (given : List (Want × WantFuture)) : Prop where
  valid : t.Valid
  tracks : ∀ w f, (w, f) ∈ given → ∃ o, t.Tracks w f o ∧ ∀ b, o = .delivered b → b.cid = w.cid
  handed : ∀ w n, t.ticket? w = some n → (w, ⟨w.cid, n⟩) ∈ given

namespace Honours
variable {t : WantTable} {given : List (Want × WantFuture)}

theorem of_new (recency : Duration) : Honours { recency } [] where
  valid := valid_new recency
  tracks w f h := absurd h List.not_mem_nil
  handed w n h := by cases h

theorem register (h : t.Honours given) (now : Duration) (w : Want) :
    (t.register now w).1.Honours (given ++ [(w, (t.register now w).2)]) := by
  refine ⟨h.valid.register now w, fun v f hf => ?_, fun v n hv => ?_⟩
  · rcases List.mem_append.mp hf with hf | hf
    · obtain ⟨o, ho, hb⟩ := h.tracks v f hf
      exact ⟨o, ho.register now w, hb⟩
    · obtain ⟨rfl, rfl⟩ := Prod.mk.inj (List.mem_singleton.mp hf)
      exact ⟨.pending, h.valid.tracks_register now v, nofun⟩
  · rw [ticket?_register] at hv
    split at hv
    · rename_i hvw
      obtain rfl := Option.some.inj hv
      subst hvw
      rw [register_snd]
      exact List.mem_append_right _ (List.mem_singleton.mpr rfl)
    · exact List.mem_append_left _ (h.handed v n hv)

theorem resolve (h : t.Honours given) (b : HashedBlock) : (t.resolve b).1.Honours given := by
  refine ⟨h.valid.resolve b, fun w f hf => ?_, fun w n hw => ?_⟩
  · obtain ⟨o, ho, hb⟩ := h.tracks w f hf
    refine ⟨_, ho.resolve b, fun c hc => ?_⟩
    by_cases hp : o = .pending ∧ b.cid = w.cid
    · obtain ⟨rfl, hbw⟩ := hp
      rw [WantOutcome.resolved_pending hbw] at hc
      obtain rfl := WantOutcome.delivered.inj hc
      exact hbw
    · rw [WantOutcome.resolved_eq_self hp] at hc
      exact hb c hc
  · rw [ticket?_resolve] at hw
    split at hw
    · cases hw
    · exact h.handed w n hw

theorem abandon (h : t.Honours given) : t.abandon.Honours given := by
  refine ⟨h.valid.abandon, fun w f hf => ?_, fun w n hw => by cases hw⟩
  obtain ⟨o, ho, hb⟩ := h.tracks w f hf
  refine ⟨_, ho.abandon, fun c hc => hb c ?_⟩
  cases o with
  | pending => cases hc
  | delivered _ => exact hc
  | abandoned => cases hc

theorem rearrange {u : WantTable} (h : t.Honours given) (hu : t.Rearranged u) : u.Honours given := by
  refine ⟨h.valid.rearrange hu, fun w f hf => ?_, fun w n hw => ?_⟩
  · obtain ⟨o, ho, hb⟩ := h.tracks w f hf
    exact ⟨o, ho.rearrange hu, hb⟩
  · rw [hu.ticket?_eq] at hw
    exact h.handed w n hw

theorem tracks_poll (h : t.Honours given) {w : Want} {f : WantFuture} (hf : (w, f) ∈ given) :
    t.Tracks w f (t.poll f) ∧ ∀ b, t.poll f = .delivered b → b.cid = w.cid := by
  obtain ⟨o, ho, hb⟩ := h.tracks w f hf
  rw [ho.poll_eq]
  exact ⟨ho, hb⟩

/-- Every pending want has a future that waits for it. -/
theorem exists_pending (h : t.Honours given) {w : Want} (hw : t.isPending w = true) :
    ∃ f, (w, f) ∈ given ∧ t.poll f = .pending := by
  obtain ⟨n, hn⟩ := isPending_iff.mp hw
  exact ⟨_, h.handed w n hn, (h.valid.tracks w n hn).poll_eq⟩

end Honours
end WantTable

namespace Exchange

variable {σ : Type}

/-- The wants that a fetch waits for, with their futures. -/
def awaited : List Want → List FetchSlot → List (Want × WantFuture)
  | w :: ws, .awaited f :: slots => (w, f) :: awaited ws slots
  | _ :: ws, .found _ :: slots => awaited ws slots
  | _, _ => []

/-- What can happen to an exchange, and the futures that are given out when it does. -/
inductive Step [BlockStore σ] (x : Exchange σ) : Exchange σ → List (Want × WantFuture) → Prop
  | register (now : Duration) (w : Want) :
      Step x (x.register now w).1 [(w, (x.register now w).2)]
  | wantBlock (now : Duration) (w : Want) (peers : List PeerId) :
      Step x (x.wantBlock now w peers).1 [(w, (x.wantBlock now w peers).2.1)]
  | getBlocks (now : Duration) (ws : List Want) (peers : List PeerId) (addToLocal : Bool) :
      Step x (x.getBlocks now ws peers addToLocal).1
        (awaited ws (x.getBlocks now ws peers addToLocal).2.slots)
  | gather (addToLocal : Bool) (slots : List FetchSlot) : Step x (x.gather addToLocal slots).1 []
  | receive {peer : PeerId} {m : Message} {y : Exchange σ} {frames : List Message}
      (h : x.receive peer m = .ok (y, frames)) : Step x y []
  | connect (p : PeerId) (o : OutboxId) : Step x (x.connect p o) []
  | disconnect (p : PeerId) : Step x (x.disconnect p).1 []
  | disconnectIfSame (p : PeerId) (o : OutboxId) : Step x (x.disconnectIfSame p o).1 []
  | newTraceId : Step x x.newTraceId.1 []
  | noteSent (p : PeerId) (m : Message) (now : Timestamp) :
      Step x { x with journal := x.journal.sent p m now } []
  | noteReceived (p : PeerId) (m : Message) (now : Timestamp) :
      Step x { x with journal := x.journal.received p m now } []
  /-- Someone else who holds the store changes it. -/
  | storeChange (s : σ) : Step x { x with store := s } []
  /-- The node is let go of, and its wants with it. -/
  | giveUp : Step x { x with wants := x.wants.abandon } []
  /-- The wants are kept, and listed, in another order from now on. -/
  | rearrange {wants : WantTable} (h : x.wants.Rearranged wants) : Step x { x with wants } []

/-- An exchange that has come about, and the futures it has given out. -/
inductive Run [BlockStore σ] : Exchange σ → List (Want × WantFuture) → Prop
  | start (settings : ExchangeSettings) (store : σ) (authoriser : Authoriser) (trace : TraceLog) :
      Run (.new settings store authoriser trace) []
  | step {x y : Exchange σ} {given more : List (Want × WantFuture)} (h : Run x given)
      (hs : Step x y more) : Run y (given ++ more)

/-! ### What the steps do to the wants -/

variable {x : Exchange σ} {given : List (Want × WantFuture)}

theorem honours_absorbBlock (h : x.wants.Honours given) (r : BlockRecord) :
    (x.absorbBlock r).wants.Honours given := by
  rcases wants_absorbBlock x r with hw | ⟨b, hw⟩
  · rw [hw]; exact h
  · rw [hw]; exact h.resolve b

theorem honours_foldl_absorbBlock (h : x.wants.Honours given) (rs : List BlockRecord) :
    (rs.foldl absorbBlock x).wants.Honours given := by
  induction rs generalizing x with
  | nil => exact h
  | cons r rs ih => exact ih (honours_absorbBlock h r)

theorem wants_absorb (x : Exchange σ) (peer : PeerId) (m : Message) :
    (x.absorb peer m).wants = (m.payload.foldl absorbBlock x).wants := by
  rw [absorb_eq]

theorem newTraceId_eq (x : Exchange σ) :
    x.newTraceId.1 = { x with traced := x.newTraceId.1.traced } := by
  unfold newTraceId; split <;> rfl

variable [BlockStore σ]

theorem honours_findSlots (h : x.wants.Honours given) (now : Duration) (ws : List Want) :
    (x.findSlots now ws).1.wants.Honours (given ++ awaited ws (x.findSlots now ws).2) := by
  induction ws generalizing x given with
  | nil => simpa [findSlots, awaited] using h
  | cons w ws ih =>
    unfold findSlots
    cases x.local? w.cid with
    | some b => exact ih h
    | none =>
      have hr := ih (x := (x.register now w).1) (h.register now w)
      rw [List.append_assoc, List.singleton_append] at hr
      exact hr

theorem findSlots_eq (x : Exchange σ) (now : Duration) (ws : List Want) :
    (x.findSlots now ws).1 = { x with wants := (x.findSlots now ws).1.wants } := by
  induction ws generalizing x with
  | nil => rfl
  | cons w ws ih =>
    unfold findSlots
    cases x.local? w.cid with
    | some b => exact ih x
    | none => exact ih (x.register now w).1

theorem gather_eq (addToLocal : Bool) (x : Exchange σ) (slots : List FetchSlot) :
    (x.gather addToLocal slots).1 = { x with store := (x.gather addToLocal slots).1.store } := by
  induction slots generalizing x with
  | nil => rfl
  | cons s slots ih =>
    cases s with
    | found b => exact ih x
    | awaited f =>
      unfold gather
      split
      · split
        · split
          · rfl
          · exact ih _
        · exact ih x
      · rfl

theorem Step.honours {y : Exchange σ} {more : List (Want × WantFuture)} (hs : Step x y more)
    (h : x.wants.Honours given) : y.wants.Honours (given ++ more) := by
  cases hs with
  | register now w => exact h.register now w
  | wantBlock now w peers => exact h.register now w
  | getBlocks now ws peers addToLocal => exact honours_findSlots h now ws
  | gather addToLocal slots =>
    rw [gather_eq, List.append_nil]; exact h
  | receive hy =>
    rw [receive_eq] at hy
    obtain ⟨rfl, -⟩ := Prod.mk.inj (Except.ok.inj hy)
    rw [wants_absorb, List.append_nil]
    exact honours_foldl_absorbBlock h _
  | newTraceId => rw [newTraceId_eq, List.append_nil]; exact h
  | giveUp => rw [List.append_nil]; exact h.abandon
  | rearrange hu => rw [List.append_nil]; exact h.rearrange hu
  | connect | disconnect | disconnectIfSame | noteSent | noteReceived | storeChange =>
    rw [List.append_nil]; exact h

theorem Run.honours (h : Run x given) : x.wants.Honours given := by
  induction h with
  | start settings store authoriser trace => exact .of_new _
  | step _ hs ih => exact hs.honours ih

end Exchange
end BlockExchange
