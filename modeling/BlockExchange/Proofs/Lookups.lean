import BlockExchange.Proofs.Telling

/-!
# Looking for blocks

A fetch looks for one want after the other (`Looks`); between two lookups anything may happen to
the exchange. `Looked` is all that one lookup can do: with a valid copy in the store it changes
nothing, and otherwise its want is registered. What a fetch advertises then are the pending wants,
and each of these was pending before, or others have asked for it, or the fetch waits for it
(`Looks.isPending`).
-/

namespace BlockExchange.Exchange

variable {σ : Type} {x y : Exchange σ} {now : Duration} {w : Want} {ws : List Want}
  {s : FetchSlot} {slots : List FetchSlot} {f : WantFuture} {b : HashedBlock}
  {given others : List (Want × WantFuture)} {addToLocal : Bool}

/-! ### Advertising -/

/-- The broadcast of a fetch: none if every block was found, else of all pending wants. -/
def advertise (x : Exchange σ) (now : Duration) (slots : List FetchSlot) (peers : List PeerId) :
    Broadcast :=
  if slots.all FetchSlot.isFound then .start [] [] else x.sendWants now peers

theorem waiting_advertise (x : Exchange σ) (now : Duration) (slots : List FetchSlot)
    (peers : List PeerId) : (x.advertise now slots peers).waiting = none := by
  unfold advertise
  split <;> rfl

theorem isPending_of_mem_advertise {peers : List PeerId} {e : Entry}
    (he : e ∈ (x.advertise now slots peers).entries) :
    ∃ v, e = .want v .block true ∧ x.wants.isPending v = true := by
  unfold advertise at he
  split at he
  · cases he
  · obtain ⟨v, hv, rfl⟩ := List.mem_map.mp he
    exact ⟨v, rfl, WantTable.isPending_of_mem_list hv⟩

variable [BlockStore σ]

/-! ### Looking -/

/-- One lookup: its moment, the exchange before it, what it found, and the exchange after it. -/
structure Look (σ : Type) where
  moment : Duration
  before : Exchange σ
  slot : FetchSlot
  after : Exchange σ

/-- The lookups of a fetch, whatever happens in between; `others` are the futures that others were
given meanwhile. -/
inductive Looks :
    Exchange σ → List Want → List (Want × WantFuture) → List (Look σ) → Exchange σ → Prop
  | done (x : Exchange σ) : Looks x [] [] [] x
  | others {x y z : Exchange σ} {ws : List Want} {more others : List (Want × WantFuture)}
      {looks : List (Look σ)} (h : Step x y more) (rest : Looks y ws others looks z) :
      Looks x ws (more ++ others) looks z
  | look {x y z : Exchange σ} {now : Duration} {w : Want} {ws : List Want} {s : FetchSlot}
      {others : List (Want × WantFuture)} {looks : List (Look σ)}
      (h : x.findSlots now [w] = (y, [s])) (rest : Looks y ws others looks z) :
      Looks x (w :: ws) others (⟨now, x, s, y⟩ :: looks) z

/-- What a lookup does: it changes nothing if the store has a valid copy, and registers its want if
not. -/
inductive Looked (w : Want) : Look σ → Prop
  | found {now : Duration} {x : Exchange σ} {b : HashedBlock} (hcid : b.cid = w.cid)
      (hget : BlockStore.get x.store w.cid = .ok (some b.data)) : Looked w ⟨now, x, .found b, x⟩
  | awaited {now : Duration} {x : Exchange σ}
      (hmiss : ∀ data, BlockStore.get x.store w.cid = .ok (some data) → ¬ w.cid.Names data) :
      Looked w ⟨now, x, .awaited (x.register now w).2, (x.register now w).1⟩

theorem local?_eq_some_iff {cid : Cid} : x.local? cid = some b ↔
    b.cid = cid ∧ BlockStore.get x.store cid = .ok (some b.data) := by
  unfold local?
  rw [Option.bind_eq_some_iff]
  constructor
  · rintro ⟨data, hfetch, hb⟩
    unfold HashedBlock.ofCid at hb
    split at hb
    · cases hb
      exact ⟨rfl, fetch_eq_some_iff.mp hfetch⟩
    · cases hb
  · rintro ⟨rfl, hget⟩
    refine ⟨b.data, fetch_eq_some_iff.mpr hget, ?_⟩
    rw [HashedBlock.ofCid, dif_pos b.names]
    rfl

theorem findSlots_of_local (h : x.local? w.cid = some b) (now : Duration) :
    x.findSlots now [w] = (x, [.found b]) := by
  simp only [findSlots, h]

theorem findSlots_of_missing (h : x.local? w.cid = none) (now : Duration) :
    x.findSlots now [w] = ((x.register now w).1, [.awaited (x.register now w).2]) := by
  simp only [findSlots, h]

theorem looked_of_findSlots (h : x.findSlots now [w] = (y, [s])) : Looked w ⟨now, x, s, y⟩ := by
  cases hl : x.local? w.cid with
  | some b =>
    rw [findSlots_of_local hl] at h
    simp only [Prod.mk.injEq, List.cons.injEq, and_true] at h
    obtain ⟨rfl, rfl⟩ := h
    obtain ⟨hcid, hget⟩ := local?_eq_some_iff.mp hl
    exact .found hcid hget
  | none =>
    rw [findSlots_of_missing hl] at h
    simp only [Prod.mk.injEq, List.cons.injEq, and_true] at h
    obtain ⟨rfl, rfl⟩ := h
    refine .awaited fun data hget hn => ?_
    have hsome : x.local? w.cid = some ⟨w.cid, data, hn⟩ := local?_eq_some_iff.mpr ⟨rfl, hget⟩
    rw [hl] at hsome
    cases hsome

theorem awaited_cons (w : Want) (ws : List Want) (s : FetchSlot) (slots : List FetchSlot) :
    awaited (w :: ws) (s :: slots) = awaited [w] [s] ++ awaited ws slots := by
  cases s <;> rfl

theorem mem_of_mem_awaited (h : (w, f) ∈ awaited ws slots) : FetchSlot.awaited f ∈ slots := by
  induction slots generalizing ws with
  | nil => cases ws <;> cases h
  | cons s slots ih =>
    cases ws with
    | nil => cases h
    | cons v ws =>
      rw [awaited_cons] at h
      rcases List.mem_append.mp h with h | h
      · cases s with
        | found b => cases h
        | awaited f' =>
          obtain ⟨rfl, rfl⟩ := Prod.mk.inj (List.mem_singleton.mp h)
          exact List.mem_cons_self
      · exact List.mem_cons_of_mem _ (ih h)

/-- A lookup is one of the things that can happen to an exchange. -/
theorem step_of_findSlots (h : x.findSlots now [w] = (y, [s])) : Step x y (awaited [w] [s]) := by
  have hstep := Step.getBlocks (x := x) now [w] [] false
  have hget : x.getBlocks now [w] [] false = (y, (x.getBlocks now [w] [] false).2) ∧
      (x.getBlocks now [w] [] false).2.slots = [s] := by
    unfold getBlocks
    rw [h]
    exact ⟨rfl, rfl⟩
  rw [hget.1, hget.2] at hstep
  exact hstep

section
variable {looks : List (Look σ)} (hl : Looks x ws others looks y)
include hl

theorem Looks.run (hx : Run x given) :
    ∃ more, Run y (given ++ more) ∧ ∀ p ∈ awaited ws (looks.map Look.slot), p ∈ given ++ more := by
  induction hl generalizing given with
  | done x => exact ⟨[], by rwa [List.append_nil], nofun⟩
  | others h _ ih =>
    obtain ⟨more, hy, hmem⟩ := ih (hx.step h)
    rw [List.append_assoc] at hy hmem
    exact ⟨_, hy, hmem⟩
  | look h _ ih =>
    obtain ⟨more, hy, hmem⟩ := ih (hx.step (step_of_findSlots h))
    rw [List.append_assoc] at hy hmem
    refine ⟨_, hy, fun p hp => ?_⟩
    rw [List.map_cons, awaited_cons] at hp
    rcases List.mem_append.mp hp with hp | hp
    · exact List.mem_append_right _ (List.mem_append_left _ hp)
    · exact hmem p hp

theorem Looks.looked : List.Forall₂ Looked ws looks := by
  induction hl with
  | done x => exact .nil
  | others _ _ ih => exact ih
  | look h _ ih => exact .cons (looked_of_findSlots h) ih

theorem Looks.store_eq : ∀ l ∈ looks, l.after.store = l.before.store := by
  induction hl with
  | done x => exact fun l hl => absurd hl List.not_mem_nil
  | others _ _ ih => exact ih
  | look h _ ih =>
    refine List.forall_mem_cons.mpr ⟨?_, ih⟩
    cases looked_of_findSlots h <;> rfl

/-- What is pending after the lookups was pending before, or others have asked for it, or it is one
of the wants that the fetch waits for. -/
theorem Looks.isPending {v : Want} (hv : y.wants.isPending v = true) :
    x.wants.isPending v = true ∨ (∃ f, (v, f) ∈ others) ∨
      ∃ f, (v, f) ∈ awaited ws (looks.map Look.slot) := by
  induction hl with
  | done x => exact .inl hv
  | others h _ ih =>
    rcases ih hv with hp | ⟨f, hf⟩ | hf
    · rcases h.isPending hp with hp | ⟨f, hf⟩
      · exact .inl hp
      · exact .inr (.inl ⟨f, List.mem_append_left _ hf⟩)
    · exact .inr (.inl ⟨f, List.mem_append_right _ hf⟩)
    · exact .inr (.inr hf)
  | look h _ ih =>
    rw [List.map_cons, awaited_cons]
    rcases ih hv with hp | ho | ⟨f, hf⟩
    · rcases (step_of_findSlots h).isPending hp with hp | ⟨f, hf⟩
      · exact .inl hp
      · exact .inr (.inr ⟨f, List.mem_append_left _ hf⟩)
    · exact .inr (.inl ho)
    · exact .inr (.inr ⟨f, List.mem_append_right _ hf⟩)

/-- A registration that is there after the lookups was there before, or others have made it, or one
of the lookups has, at its moment. -/
theorem Looks.registration? {v : Want} {r : Registration} (hr : y.wants.registration? v = some r) :
    x.wants.registration? v = some r ∨ (∃ f, (v, f) ∈ others) ∨
      ∃ l ∈ looks, r.created = l.moment := by
  induction hl with
  | done x => exact .inl hr
  | others h _ ih =>
    rcases ih hr with hr | ⟨f, hf⟩ | hl
    · rcases h.wants_eq.registration? hr with hr | ⟨f, hf⟩
      · exact .inl hr
      · exact .inr (.inl ⟨f, List.mem_append_left _ hf⟩)
    · exact .inr (.inl ⟨f, List.mem_append_right _ hf⟩)
    · exact .inr (.inr hl)
  | @look x y z now w ws s others looks h _ ih =>
    rcases ih hr with hr | ho | ⟨l, hl, hcreated⟩
    · have hlooked := looked_of_findSlots h
      clear h
      cases hlooked with
      | found => exact .inl hr
      | awaited hmiss =>
        have hrun : (x.wants.run [.register now w]).registration? v = some r := hr
        rcases WantTable.registered_of_run hrun with hr | hcall
        · exact .inl hr
        · cases List.mem_singleton.mp hcall
          exact .inr (.inr ⟨_, List.mem_cons_self, rfl⟩)
    · exact .inr (.inl ho)
    · exact .inr (.inr ⟨l, List.mem_cons_of_mem _ hl, hcreated⟩)

end

theorem findSlots_cons (x : Exchange σ) (now : Duration) (w : Want) (ws : List Want) :
    ∃ y s, x.findSlots now [w] = (y, [s]) ∧
      x.findSlots now (w :: ws) = ((y.findSlots now ws).1, s :: (y.findSlots now ws).2) := by
  cases hl : x.local? w.cid with
  | some b => exact ⟨_, _, findSlots_of_local hl now, by rw [findSlots]; simp only [hl]⟩
  | none => exact ⟨_, _, findSlots_of_missing hl now, by rw [findSlots]; simp only [hl]⟩

/-- The lookups of a call that is not interrupted. -/
theorem looks_findSlots (x : Exchange σ) (now : Duration) (ws : List Want) :
    ∃ looks, Looks x ws [] looks (x.findSlots now ws).1 ∧
      looks.map Look.slot = (x.findSlots now ws).2 := by
  induction ws generalizing x with
  | nil => exact ⟨[], .done x, rfl⟩
  | cons w ws ih =>
    obtain ⟨y, s, hlook, hslots⟩ := x.findSlots_cons now w ws
    obtain ⟨looks, hl, hmap⟩ := ih y
    rw [hslots]
    exact ⟨_, .look hlook hl, by rw [List.map_cons, hmap]⟩

/-- A call that is not interrupted looks, and then begins to tell peers. -/
theorem looks_of_getBlocks {peers : List PeerId} {call : Fetch}
    (h : x.getBlocks now ws peers addToLocal = (y, call)) :
    ∃ looks, Looks x ws [] looks y ∧ call =
      ⟨looks.map Look.slot, y.advertise now (looks.map Look.slot) peers, addToLocal⟩ := by
  obtain ⟨looks, hl, hslots⟩ := looks_findSlots x now ws
  obtain ⟨rfl, rfl⟩ := Prod.mk.inj h
  exact ⟨looks, hl, by rw [hslots]; rfl⟩

end BlockExchange.Exchange
