import BlockExchange.Proofs.Lookups
import BlockExchange.Store.Memory

/-!
# Fetching blocks

A fetch looks for its wants (`Looks`), tells peers what is pending (`Broadcast.Tells`), waits until
all its futures are done, and gathers the blocks (`Gathers`). Between any two of its moves anything
may happen to the exchange. `Gained` is all that gathering one block can do. So the blocks come in
the order of the wants, a valid copy in the store keeps a want from being registered, and the fetch
changes the store only by putting in what was asked to be kept (`fetch_in_order`).
-/

namespace BlockExchange.Exchange

variable {σ : Type} {x y z : Exchange σ} {now : Duration} {w : Want} {ws : List Want}
  {s : FetchSlot} {slots : List FetchSlot} {f : WantFuture} {b : HashedBlock}
  {given others more : List (Want × WantFuture)} {addToLocal : Bool}
  {r : Except FetchError (List HashedBlock)}

/-! ### Waiting -/

theorem poll_of_isSettled {c : Broadcast} (h : z.isSettled ⟨slots, c, addToLocal⟩ = true)
    (hf : FetchSlot.awaited f ∈ slots) : z.wants.poll f ≠ .pending := by
  intro hp
  have hs := List.all_eq_true.mp h _ hf
  simp only [hp, Bool.false_eq_true] at hs

/-! ### Gathering -/

/-- What one slot of a fetch came to. -/
structure Gain (σ : Type) where
  slot : FetchSlot
  before : Exchange σ
  outcome : Except FetchError HashedBlock
  after : Exchange σ

theorem exists_gain {gains : List (Gain σ)} {bs : List HashedBlock}
    (hslots : gains.map Gain.slot = slots) (houts : gains.map Gain.outcome = bs.map .ok)
    (hs : s ∈ slots) : ∃ g ∈ gains, g.slot = s ∧ ∃ b ∈ bs, g.outcome = .ok b := by
  rw [← hslots] at hs
  obtain ⟨g, hmem, hslot⟩ := List.mem_map.mp hs
  have hout : g.outcome ∈ bs.map .ok := houts ▸ List.mem_map_of_mem hmem
  obtain ⟨b, hb, hok⟩ := List.mem_map.mp hout
  exact ⟨g, hmem, hslot, b, hb, hok.symm⟩

variable [BlockStore σ]

/-- The last moves of a fetch, whatever happens in between: its slots are taken in order, up to the
first that fails. -/
inductive Gathers (addToLocal : Bool) : Exchange σ → List FetchSlot → List (Gain σ) → Exchange σ →
    Except FetchError (List HashedBlock) → Prop
  | done (x : Exchange σ) : Gathers addToLocal x [] [] x (.ok [])
  | others {x y z : Exchange σ} {slots : List FetchSlot} {more : List (Want × WantFuture)}
      {gains : List (Gain σ)} {r : Except FetchError (List HashedBlock)} (h : Step x y more)
      (rest : Gathers addToLocal y slots gains z r) : Gathers addToLocal x slots gains z r
  | gain {x y z : Exchange σ} {s : FetchSlot} {slots : List FetchSlot} {b : HashedBlock}
      {gains : List (Gain σ)} {r : Except FetchError (List HashedBlock)}
      (h : x.gather addToLocal [s] = (y, .ok [b])) (rest : Gathers addToLocal y slots gains z r) :
      Gathers addToLocal x (s :: slots) (⟨s, x, .ok b, y⟩ :: gains) z (r.map (b :: ·))
  | fail {x y : Exchange σ} {s : FetchSlot} {slots : List FetchSlot} {e : FetchError}
      (h : x.gather addToLocal [s] = (y, .error e)) :
      Gathers addToLocal x (s :: slots) [⟨s, x, .error e, y⟩] y (.error e)

/-- What a slot comes to, given the outcomes in `z`, when all of them were there. -/
inductive Gained (z : Exchange σ) : Bool → Gain σ → Prop
  | found {addToLocal : Bool} {x : Exchange σ} (b : HashedBlock) :
      Gained z addToLocal ⟨.found b, x, .ok b, x⟩
  | passed {x : Exchange σ} {f : WantFuture} {b : HashedBlock} (hcid : b.cid = f.cid)
      (hpoll : z.wants.poll f = .delivered b) : Gained z false ⟨.awaited f, x, .ok b, x⟩
  | stored {x : Exchange σ} {f : WantFuture} {b : HashedBlock} {store : σ} (hcid : b.cid = f.cid)
      (hpoll : z.wants.poll f = .delivered b)
      (hput : BlockStore.putBlock x.store b = (store, .ok ())) :
      Gained z true ⟨.awaited f, x, .ok b, { x with store }⟩
  | refused {x : Exchange σ} {f : WantFuture} {b : HashedBlock} {store : σ} {e : StoreError}
      (hcid : b.cid = f.cid) (hpoll : z.wants.poll f = .delivered b)
      (hput : BlockStore.putBlock x.store b = (store, .error e)) :
      Gained z true ⟨.awaited f, x, .error (.store e), { x with store }⟩
  | abandoned {addToLocal : Bool} {x : Exchange σ} {f : WantFuture}
      (hpoll : z.wants.poll f = .abandoned) :
      Gained z addToLocal ⟨.awaited f, x, .error (.abandoned f.cid), x⟩

/-- The futures of the slots were given out, and have the outcomes that they have in `z`. -/
structure Agrees (z x : Exchange σ) (given : List (Want × WantFuture)) (slots : List FetchSlot) :
    Prop where
  honours : x.wants.Honours given
  given : ∀ f, FetchSlot.awaited f ∈ slots → ∃ w, (w, f) ∈ given
  poll_eq : ∀ f, FetchSlot.awaited f ∈ slots → x.wants.poll f = z.wants.poll f
  settled : ∀ f, FetchSlot.awaited f ∈ slots → z.wants.poll f ≠ .pending

namespace Agrees

theorem step (h : Agrees z x given slots) (hs : Step x y more) :
    Agrees z y (given ++ more) slots := by
  refine ⟨hs.honours h.honours, fun f hf => ?_, fun f hf => ?_, h.settled⟩
  · obtain ⟨w, hw⟩ := h.given f hf
    exact ⟨w, List.mem_append_left _ hw⟩
  · obtain ⟨w, hw⟩ := h.given f hf
    rw [← h.poll_eq f hf]
    refine hs.poll_eq h.honours hw ?_
    rw [h.poll_eq f hf]
    exact h.settled f hf

theorem gather (h : Agrees z x given (s :: slots)) (addToLocal : Bool) :
    Agrees z (x.gather addToLocal [s]).1 given slots := by
  rw [gather_eq]
  exact ⟨h.honours, fun f hf => h.given f (List.mem_cons_of_mem s hf),
    fun f hf => h.poll_eq f (List.mem_cons_of_mem s hf),
    fun f hf => h.settled f (List.mem_cons_of_mem s hf)⟩

end Agrees

section
variable (slots : List FetchSlot)

theorem gather_of_abandoned (hpoll : ∀ b, x.wants.poll f ≠ .delivered b) (addToLocal : Bool) :
    x.gather addToLocal (.awaited f :: slots) = (x, .error (.abandoned f.cid)) := by
  cases hf : x.wants.poll f with
  | delivered b => exact absurd hf (hpoll b)
  | pending => simp only [gather, hf]
  | abandoned => simp only [gather, hf]

theorem gather_of_delivered (hpoll : x.wants.poll f = .delivered b) :
    x.gather false (.awaited f :: slots) =
      ((x.gather false slots).1, (x.gather false slots).2.map (b :: ·)) := by
  simp only [gather, hpoll, Bool.false_eq_true, if_false]

theorem gather_of_stored (hpoll : x.wants.poll f = .delivered b) {store : σ}
    (hput : BlockStore.putBlock x.store b = (store, .ok ())) :
    x.gather true (.awaited f :: slots) =
      ((({ x with store } : Exchange σ).gather true slots).1,
        (({ x with store } : Exchange σ).gather true slots).2.map (b :: ·)) := by
  simp only [gather, hpoll, if_true, hput]

theorem gather_of_refused (hpoll : x.wants.poll f = .delivered b) {store : σ} {e : StoreError}
    (hput : BlockStore.putBlock x.store b = (store, .error e)) :
    x.gather true (.awaited f :: slots) = ({ x with store }, .error (.store e)) := by
  simp only [gather, hpoll, if_true, hput]

end

/-- All that taking one slot can come to. -/
theorem gained_of_gather (h : Agrees z x given (s :: slots)) (addToLocal : Bool) :
    ∃ y outcome, x.gather addToLocal [s] = (y, outcome.map ([·])) ∧
      Gained z addToLocal ⟨s, x, outcome, y⟩ := by
  cases s with
  | found b => exact ⟨x, .ok b, rfl, .found b⟩
  | awaited f =>
    have hpoll := h.poll_eq f List.mem_cons_self
    have hne := h.settled f List.mem_cons_self
    cases hf : x.wants.poll f with
    | pending => exact absurd (hpoll.symm.trans hf) hne
    | abandoned =>
      refine ⟨x, .error (.abandoned f.cid), gather_of_abandoned [] ?_ _, ?_⟩
      · rw [hf]
        exact nofun
      · exact .abandoned (hpoll.symm.trans hf)
    | delivered b =>
      obtain ⟨w, hw⟩ := h.given f List.mem_cons_self
      obtain ⟨htracks, hcid⟩ := h.honours.tracks_poll hw
      have hb : b.cid = f.cid := (hcid b hf).trans htracks.cid_eq.symm
      have hz := hpoll.symm.trans hf
      cases addToLocal with
      | false => exact ⟨x, .ok b, gather_of_delivered [] hf, .passed hb hz⟩
      | true =>
        rcases hput : BlockStore.putBlock x.store b with ⟨store, e | u⟩
        · exact ⟨_, .error (.store e), gather_of_refused [] hf hput, .refused hb hz hput⟩
        · exact ⟨_, .ok b, gather_of_stored [] hf hput, .stored hb hz hput⟩

section
variable {gains : List (Gain σ)} (hg : Gathers addToLocal x slots gains y r)
include hg

theorem Gathers.gained (h : Agrees z x given slots) : ∀ g ∈ gains, Gained z addToLocal g := by
  induction hg generalizing given with
  | done x => exact fun g hg => absurd hg List.not_mem_nil
  | others hs _ ih => exact ih (h.step hs)
  | gain hgather _ ih =>
    obtain ⟨y, outcome, heq, hgained⟩ := gained_of_gather h addToLocal
    rw [hgather] at heq
    cases outcome with
    | error e => cases heq
    | ok b =>
      cases heq
      have hnext := h.gather addToLocal
      rw [hgather] at hnext
      exact List.forall_mem_cons.mpr ⟨hgained, ih hnext⟩
  | fail hgather =>
    obtain ⟨y, outcome, heq, hgained⟩ := gained_of_gather h addToLocal
    rw [hgather] at heq
    cases outcome with
    | error e =>
      cases heq
      exact List.forall_mem_singleton.mpr hgained
    | ok b => cases heq

/-- If nothing failed, every slot has come to the block that stands in its place in the result. -/
theorem Gathers.of_ok {bs : List HashedBlock} (hr : r = .ok bs) :
    gains.map Gain.slot = slots ∧ gains.map Gain.outcome = bs.map .ok := by
  induction hg generalizing bs with
  | done x =>
    cases hr
    exact ⟨rfl, rfl⟩
  | others _ _ ih => exact ih hr
  | @gain _ _ _ _ _ _ _ r _ _ ih =>
    cases r with
    | error e => cases hr
    | ok bs' =>
      cases hr
      obtain ⟨hslots, houtcomes⟩ := ih rfl
      exact ⟨congrArg _ hslots, congrArg _ houtcomes⟩
  | fail _ => cases hr

theorem Gathers.error_iff {e : FetchError} :
    r = .error e ↔ ∃ g ∈ gains, g.outcome = .error e := by
  induction hg with
  | done x => exact iff_of_false nofun (by simp)
  | others _ _ ih => exact ih
  | @gain _ _ _ _ _ _ _ r _ _ ih =>
    cases r with
    | error e' => simp [Except.map, ← ih]
    | ok bs => simpa [Except.map] using ih
  | fail _ => simp [eq_comm]

end

theorem gather_cons (addToLocal : Bool) (x : Exchange σ) (s : FetchSlot) (slots : List FetchSlot) :
    (∃ y b, x.gather addToLocal [s] = (y, .ok [b]) ∧ x.gather addToLocal (s :: slots) =
      ((y.gather addToLocal slots).1, (y.gather addToLocal slots).2.map (b :: ·))) ∨
    ∃ y e, x.gather addToLocal [s] = (y, .error e) ∧
      x.gather addToLocal (s :: slots) = (y, .error e) := by
  cases s with
  | found b => exact .inl ⟨x, b, rfl, rfl⟩
  | awaited f =>
    by_cases hf : ∃ b, x.wants.poll f = .delivered b
    · obtain ⟨b, hf⟩ := hf
      cases addToLocal with
      | false => exact .inl ⟨x, b, gather_of_delivered [] hf, gather_of_delivered slots hf⟩
      | true =>
        rcases hput : BlockStore.putBlock x.store b with ⟨store, e | u⟩
        · exact .inr ⟨_, .store e, gather_of_refused [] hf hput, gather_of_refused slots hf hput⟩
        · exact .inl ⟨_, b, gather_of_stored [] hf hput, gather_of_stored slots hf hput⟩
    · have hne : ∀ b, x.wants.poll f ≠ .delivered b := fun b hb => hf ⟨b, hb⟩
      exact .inr ⟨x, _, gather_of_abandoned [] hne _, gather_of_abandoned slots hne _⟩

/-- The last moves of a call that is not interrupted. -/
theorem gathers_gather (x : Exchange σ) (addToLocal : Bool) (slots : List FetchSlot) :
    ∃ gains, Gathers addToLocal x slots gains (x.gather addToLocal slots).1
      (x.gather addToLocal slots).2 := by
  induction slots generalizing x with
  | nil => exact ⟨[], .done x⟩
  | cons s slots ih =>
    rcases gather_cons addToLocal x s slots with ⟨y, b, hs, hall⟩ | ⟨y, e, hs, hall⟩
    · obtain ⟨gains, hg⟩ := ih y
      rw [hall]
      exact ⟨_, .gain hs hg⟩
    · rw [hall]
      exact ⟨_, .fail hs⟩

/-! ### A whole fetch -/

theorem cid_of_gained {l : Look σ} {g : Gain σ} (hl : Looked w l) (hg : Gained z addToLocal g)
    (hslot : g.slot = l.slot) (hout : g.outcome = .ok b) : b.cid = w.cid := by
  cases hl with
  | found hcid _ =>
    cases hg with
    | found b' =>
      cases hslot
      cases hout
      exact hcid
    | passed | stored | refused | abandoned => cases hslot
  | @awaited now x _ =>
    have hf : (x.register now w).2.cid = w.cid :=
      congrArg WantFuture.cid (x.wants.register_snd now w)
    cases hg with
    | found b' => cases hslot
    | passed hcid _ =>
      cases hslot
      cases hout
      exact hcid.trans hf
    | stored hcid _ _ =>
      cases hslot
      cases hout
      exact hcid.trans hf
    | refused | abandoned => cases hout

theorem forall₂_of_gained {looks : List (Look σ)} {gains : List (Gain σ)} {bs : List HashedBlock}
    (hl : List.Forall₂ Looked ws looks) (hg : ∀ g ∈ gains, Gained z addToLocal g)
    (hslots : gains.map Gain.slot = looks.map Look.slot)
    (houts : gains.map Gain.outcome = bs.map .ok) :
    List.Forall₂ (fun w b => b.cid = w.cid ∧ b.cid.Names b.data) ws bs := by
  induction hl generalizing gains bs with
  | nil =>
    obtain rfl := List.map_eq_nil_iff.mp hslots
    obtain rfl := List.map_eq_nil_iff.mp houts.symm
    exact .nil
  | cons hw _ ih =>
    obtain ⟨g, gains, rfl, hslot, hslots⟩ := List.map_eq_cons_iff.mp hslots
    obtain ⟨b, bs, rfl, hout, houts⟩ := List.map_eq_cons_iff.mp houts.symm
    obtain ⟨hgained, hg⟩ := List.forall_mem_cons.mp hg
    exact .cons ⟨cid_of_gained hw hgained hslot hout.symm, b.names⟩ (ih hg hslots houts.symm)

theorem exists_mem_awaited (h : ws.length = slots.length) (hf : FetchSlot.awaited f ∈ slots) :
    ∃ w, (w, f) ∈ awaited ws slots := by
  induction slots generalizing ws with
  | nil => cases hf
  | cons s slots ih =>
    cases ws with
    | nil => cases h
    | cons w ws =>
      rw [awaited_cons]
      rcases List.mem_cons.mp hf with rfl | hf
      · exact ⟨w, List.mem_append_left _ (List.mem_singleton_self _)⟩
      · obtain ⟨v, hv⟩ := ih (Nat.succ.inj h) hf
        exact ⟨v, List.mem_append_right _ hv⟩

/-- What a fetch has done when it returns. `others` are the futures that others were given while it
looked, and `z` is the exchange when all outcomes were there. -/
structure Fetched (x : Exchange σ) (ws : List Want) (others : List (Want × WantFuture))
    (looks : List (Look σ)) (moves : List (Move σ)) (z : Exchange σ) (addToLocal : Bool)
    (gains : List (Gain σ)) (r : Except FetchError (List HashedBlock)) : Prop where
  /-- A want with a valid copy in the store is not registered. -/
  looked : List.Forall₂ Looked ws looks
  /-- What is advertised was pending before, is of others, or is waited for by the fetch itself. -/
  advertised : ∀ o, ∀ m ∈ postedTo o moves, ∀ e ∈ m.entries, ∃ v, e = .want v .block true ∧
    (x.wants.isPending v = true ∨ (∃ f, (v, f) ∈ others) ∨
      ∃ f, (v, f) ∈ awaited ws (looks.map Look.slot))
  silent : (looks.map Look.slot).all FetchSlot.isFound = true → moves = []
  /-- The fetch itself changes the store only where it takes a block from the network. -/
  store_kept : (∀ l ∈ looks, l.after.store = l.before.store) ∧
    (∀ m ∈ moves, m.after.store = m.before.store) ∧
    (addToLocal = false → ∀ g ∈ gains, g.after.store = g.before.store)
  gained : ∀ g ∈ gains, Gained z addToLocal g
  in_order : ∀ bs, r = .ok bs → gains.map Gain.slot = looks.map Look.slot ∧
    gains.map Gain.outcome = bs.map .ok ∧
    List.Forall₂ (fun w b => b.cid = w.cid ∧ b.cid.Names b.data) ws bs
  stored : addToLocal = true → ∀ bs, r = .ok bs → ∀ w f, (w, f) ∈ awaited ws (looks.map Look.slot) →
    ∃ g ∈ gains, ∃ b ∈ bs, b.cid = w.cid ∧ z.wants.poll f = .delivered b ∧
      BlockStore.putBlock g.before.store b = (g.after.store, .ok ())
  error_iff : ∀ e, r = .error e ↔ ∃ g ∈ gains, g.outcome = .error e
  abandoned : ∀ f, .awaited f ∈ looks.map Look.slot → z.wants.poll f = .abandoned →
    ∃ e, r = .error e

/-- Without being asked to keep blocks, a fetch leaves the exchange as it is when it gathers them.
-/
theorem Gained.after_eq {g : Gain σ} (h : Gained z false g) : g.after = g.before := by
  cases h <;> rfl

theorem Gained.delivered {g : Gain σ} (h : Gained z addToLocal g) (hslot : g.slot = .awaited f)
    (hout : g.outcome = .ok b) : z.wants.poll f = .delivered b ∧
      (addToLocal = true → BlockStore.putBlock g.before.store b = (g.after.store, .ok ())) := by
  cases h with
  | found b' => cases hslot
  | passed _ hpoll =>
    cases hslot
    cases hout
    exact ⟨hpoll, nofun⟩
  | stored _ hpoll hput =>
    cases hslot
    cases hout
    exact ⟨hpoll, fun _ => hput⟩
  | refused | abandoned => cases hout

/-- However a fetch is interrupted, and whatever the store answers: if it returns blocks, they are
those that were asked for, one for each want and in their order, and else it returns what failed.
-/
theorem fetch_in_order {looks : List (Look σ)} {moves : List (Move σ)} {gains : List (Gain σ)}
    {peers : List PeerId} {task : TaskId} {c : Broadcast} {after : Exchange σ} (hx : Run x given)
    (hl : Looks x ws others looks y)
    (ht : Broadcast.Tells task (y.advertise now (looks.map Look.slot) peers) y moves c z)
    (hs : z.isSettled ⟨looks.map Look.slot, c, addToLocal⟩ = true)
    (hg : Gathers addToLocal z (looks.map Look.slot) gains after r) :
    Fetched x ws others looks moves z addToLocal gains r := by
  obtain ⟨more, hy, hgiven⟩ := hl.run hx
  obtain ⟨later, hz⟩ := ht.run hy
  have hlooked := hl.looked
  have hlength : ws.length = (looks.map Look.slot).length := by
    rw [List.length_map, hlooked.length_eq]
  have hagrees : Agrees z z (given ++ more ++ later) (looks.map Look.slot) := by
    refine ⟨hz.honours, fun f hf => ?_, fun _ _ => rfl, fun f hf => poll_of_isSettled hs hf⟩
    obtain ⟨w, hw⟩ := exists_mem_awaited hlength hf
    exact ⟨w, List.mem_append_left _ (hgiven _ hw)⟩
  have hgained := hg.gained hagrees
  refine ⟨hlooked, fun o m hm e he => ?_, fun hfound => ht.moves_eq_nil ?_, ⟨?_, ?_, ?_⟩, hgained,
    fun bs hr => ?_, fun ha bs hr w f hf => ?_, fun e => hg.error_iff, fun f hf hp => ?_⟩
  · have hlisted := ht.mem_entries (waiting_advertise ..) hm he
    obtain ⟨v, rfl, hv⟩ := isPending_of_mem_advertise hlisted
    exact ⟨v, rfl, hl.isPending hv⟩
  · unfold advertise
    rw [if_pos hfound]
    rfl
  · exact hl.store_eq
  · intro m hm
    rw [ht.exchange_eq m hm]
  · rintro rfl g hmem
    rw [(hgained g hmem).after_eq]
  · obtain ⟨hslots, houts⟩ := hg.of_ok hr
    exact ⟨hslots, houts, forall₂_of_gained hlooked hgained hslots houts⟩
  · subst ha
    obtain ⟨hslots, houts⟩ := hg.of_ok hr
    obtain ⟨g, hmem, hslot, b, hb, hout⟩ := exists_gain hslots houts (mem_of_mem_awaited hf)
    obtain ⟨hpoll, hput⟩ := (hgained g hmem).delivered hslot hout
    have hcid := (hz.honours.tracks_poll (List.mem_append_left _ (hgiven _ hf))).2 b hpoll
    exact ⟨g, hmem, b, hb, hcid, hpoll, hput rfl⟩
  · cases r with
    | error e => exact ⟨e, rfl⟩
    | ok bs =>
      obtain ⟨hslots, houts⟩ := hg.of_ok rfl
      obtain ⟨g, hmem, hslot, b, -, hout⟩ := exists_gain hslots houts hf
      have hpoll := ((hgained g hmem).delivered hslot hout).1
      rw [hp] at hpoll
      cases hpoll

/-- A call that is not interrupted ends by gathering its blocks at once. -/
theorem gathers_of_finish? {c : Broadcast} {after : Exchange σ}
    (h : z.finish? ⟨slots, c, addToLocal⟩ = some (after, r)) :
    c.isDone = true ∧ z.isSettled ⟨slots, c, addToLocal⟩ = true ∧
      ∃ gains, Gathers addToLocal z slots gains after r := by
  unfold finish? at h
  split at h
  · rename_i hready
    obtain ⟨hdone, hs⟩ := Bool.and_eq_true_iff.mp hready
    obtain ⟨gains, hg⟩ := gathers_gather z addToLocal slots
    obtain ⟨rfl, rfl⟩ := Prod.mk.inj (Option.some.inj h)
    exact ⟨hdone, hs, gains, hg⟩
  · cases h

/-- One block is in the store, and another one is asked for three times, under two tokens. It
arrives while the call waits, which then returns blocks. -/
theorem fetch_in_order_repeated :
    let x : Exchange MemoryStore :=
      .new {} (BlockStore.put ({} : MemoryStore) Codec.raw [5]).1 .allowAll .disabled
    let ws : List Want :=
      [⟨.raw [3], none⟩, ⟨.raw [5], none⟩, ⟨.raw [3], some ⟨[9]⟩⟩, ⟨.raw [3], none⟩]
    let peer : PeerId := ⟨⟨Multihash.identity, [1, 2], by decide⟩, .inr ⟨rfl, by decide⟩⟩
    let m : Message := { payload := [.ofBlock (.raw [3]) none] }
    Run x [] ∧ ∃ y call looks gains after bs,
      x.getBlocks ⟨0⟩ ws [] true = (y, call) ∧ Looks x ws [] looks y ∧
      Broadcast.Tells 0 (y.advertise ⟨0⟩ (looks.map Look.slot) []) y [] call.broadcast
        (y.absorb peer m) ∧
      (y.absorb peer m).isSettled ⟨looks.map Look.slot, call.broadcast, true⟩ = true ∧
      (y.absorb peer m).finish? call = some (after, .ok bs) ∧
      Gathers true (y.absorb peer m) (looks.map Look.slot) gains after (.ok bs) ∧
      Fetched x ws [] looks [] (y.absorb peer m) true gains (.ok bs) := by
  intro x ws peer m
  have hx : Run x [] := .start _ _ _ _
  have hready : (((x.getBlocks ⟨0⟩ ws [] true).1.absorb peer m).finish?
      (x.getBlocks ⟨0⟩ ws [] true).2).any (·.2.toOption.isSome) = true := by decide +kernel
  rcases hget : x.getBlocks ⟨0⟩ ws [] true with ⟨y, call⟩
  rw [hget] at hready
  obtain ⟨looks, hl, rfl⟩ := looks_of_getBlocks hget
  have ht : Broadcast.Tells 0 (y.advertise ⟨0⟩ (looks.map Look.slot) []) y []
      (y.advertise ⟨0⟩ (looks.map Look.slot) []) (y.absorb peer m) :=
    .others (.receive (receive_eq y peer m)) (.refl _ _)
  rcases hfinish : (y.absorb peer m).finish? _ with - | ⟨after, e | bs⟩
  · rw [hfinish] at hready
    cases hready
  · rw [hfinish] at hready
    cases hready
  · obtain ⟨-, hs, gains, hg⟩ := gathers_of_finish? hfinish
    have hfetched := fetch_in_order hx hl ht hs hg
    exact ⟨hx, y, _, looks, gains, after, bs, rfl, hl, ht, hs, hfinish, hg, hfetched⟩

end BlockExchange.Exchange
