import BlockExchange.Proofs.FileNames
import BlockExchange.Proofs.Lookups
import BlockExchange.Store.Memory

/-!
# What a fetch asks for

A fetch waits for its own wants, but what it sends are the pending wants of the whole exchange, and
a single peer hears of the recent ones only. So a want that the fetch waits for reaches the peers
that stay connected if there are several of them, or if it was registered a short while ago
(`posted_iff_recent`); a single peer is never told of an older one (`unasked_after_recency`). On
the wire a token without bytes is no token, so two wants may have the same entry.
-/

namespace BlockExchange

theorem Entry.want_inj {v w : Want} : want v .block true = want w .block true ↔
    v.cid = w.cid ∧ v.authBytes = w.authBytes := by
  constructor
  · intro h
    injection h with hblock _ _ _ _ hauth
    exact ⟨Cid.toBytes_injective hblock, hauth⟩
  · rintro ⟨hcid, hauth⟩
    unfold want
    rw [hcid, hauth]

namespace Exchange

variable {σ : Type} {x y z : Exchange σ} {now : Duration} {w : Want} {ws : List Want}
  {slots : List FetchSlot} {f : WantFuture} {peers : List PeerId}

/-- Somebody registered the want, or one that reads the same on the wire, less than the recency
ago. -/
def RecentlyWanted (x : Exchange σ) (now : Duration) (w : Want) : Prop :=
  ∃ v r, v.cid = w.cid ∧ v.authBytes = w.authBytes ∧ x.wants.registration? v = some r ∧
    (now.since r.created).lt x.wants.recency = true

theorem advertise_of_mem_awaited (h : (w, f) ∈ awaited ws slots) (x : Exchange σ) (now : Duration)
    (peers : List PeerId) : x.advertise now slots peers = x.sendWants now peers := by
  unfold advertise
  refine if_neg fun hfound => ?_
  have hf := List.all_eq_true.mp hfound _ (mem_of_mem_awaited h)
  cases hf

/-- Which of the pending wants are among the entries that are sent. -/
theorem mem_wantEntries_iff (hw : x.wants.isPending w = true) {n : Nat} :
    Entry.want w .block true ∈ x.wantEntries now n ↔ n ≠ 1 ∨ x.RecentlyWanted now w := by
  unfold wantEntries
  rw [List.mem_map]
  constructor
  · rintro ⟨v, hv, he⟩
    obtain ⟨hcid, hauth⟩ := Entry.want_inj.mp he
    obtain ⟨r, hr, hn | hrecent⟩ := WantTable.mem_list_iff.mp hv
    · exact .inl hn
    · exact .inr ⟨v, r, hcid, hauth, hr, hrecent⟩
  · rintro (hn | ⟨v, r, hcid, hauth, hr, hrecent⟩)
    · obtain ⟨r, hr⟩ := WantTable.isPending_iff_registration?.mp hw
      exact ⟨w, WantTable.mem_list_iff.mpr ⟨r, hr, .inl hn⟩, rfl⟩
    · exact ⟨v, WantTable.mem_list_iff.mpr ⟨r, hr, .inr hrecent⟩, Entry.want_inj.mpr ⟨hcid, hauth⟩⟩

variable [BlockStore σ] {others : List (Want × WantFuture)} {looks : List (Look σ)}
  {moves : List (Move σ)} {task : TaskId} {c : Broadcast} {p : PeerId} {o : OutboxId}

/-- A want that nobody else has asked for is a recent one, if the lookups did not take long. -/
theorem recentlyWanted_of_looks (hl : Looks x ws others looks y) (hw : y.wants.isPending w = true)
    (hbefore : x.wants.isPending w = false) (hothers : ∀ f, (w, f) ∉ others)
    (hmoments : ∀ l ∈ looks, (now.since l.moment).lt y.wants.recency = true) :
    y.RecentlyWanted now w := by
  obtain ⟨r, hr⟩ := WantTable.isPending_iff_registration?.mp hw
  rcases hl.registration? hr with hx | ⟨f, hf⟩ | ⟨l, hmem, hcreated⟩
  · rw [WantTable.isPending_iff_registration?.mpr ⟨r, hx⟩] at hbefore
    cases hbefore
  · exact absurd hf (hothers f)
  · exact ⟨w, r, rfl, rfl, hr, by rw [hcreated]; exact hmoments l hmem⟩

/-- What a broadcast of all pending wants puts into the outbox of a target that stays connected. -/
theorem posted_sendWants_iff (hw : y.wants.isPending w = true)
    (ht : Broadcast.Tells task (y.sendWants now peers) y moves c z) (hdone : c.isDone = true)
    (hp : p ∈ y.targets peers) (hlinked : ∀ m ∈ moves, Linked p o m.before m.boxes) :
    (∃ m ∈ postedTo o moves, Entry.want w .block true ∈ m.entries) ↔
      (y.targets peers).length ≠ 1 ∨ y.RecentlyWanted now w := by
  rw [← mem_wantEntries_iff hw]
  constructor
  · rintro ⟨m, hm, he⟩
    exact ht.mem_entries rfl hm he
  · intro he
    have htargets : (y.sendWants now peers).targets = y.targets peers :=
      if_neg fun hempty => List.ne_nil_of_mem he (List.isEmpty_iff.mp hempty)
    obtain ⟨frames, hframes, hinfix⟩ := (ht.posted_of_linked hdone hlinked).2 (htargets ▸ hp)
    have hmem : Entry.want w .block true ∈ frames.flatMap Message.entries := by
      rw [hframes.entries]
      exact he
    obtain ⟨m, hm, he⟩ := List.mem_flatMap.mp hmem
    exact ⟨m, hinfix.subset hm, he⟩

/-- A want that a fetch waits for, and that is pending when the fetch begins to send, reaches a
target that stays connected over an open outbox exactly if there are several targets or the want is
recent; so it does if nobody else has asked for it and the lookups did not take long. -/
theorem posted_iff_recent (hl : Looks x ws others looks y)
    (hw : (w, f) ∈ awaited ws (looks.map Look.slot)) (hpending : y.wants.isPending w = true)
    (ht : Broadcast.Tells task (y.advertise now (looks.map Look.slot) peers) y moves c z)
    (hdone : c.isDone = true) (hp : p ∈ y.targets peers)
    (hlinked : ∀ m ∈ moves, Linked p o m.before m.boxes) :
    ((∃ m ∈ postedTo o moves, Entry.want w .block true ∈ m.entries) ↔
      (y.targets peers).length ≠ 1 ∨ y.RecentlyWanted now w) ∧
    (x.wants.isPending w = false → (∀ f, (w, f) ∉ others) →
      (∀ l ∈ looks, (now.since l.moment).lt y.wants.recency = true) →
      ∃ m ∈ postedTo o moves, Entry.want w .block true ∈ m.entries) := by
  rw [advertise_of_mem_awaited hw] at ht
  have hiff := posted_sendWants_iff hpending ht hdone hp hlinked
  refine ⟨hiff, fun hbefore hothers hmoments => hiff.mpr (.inr ?_)⟩
  exact recentlyWanted_of_looks hl hpending hbefore hothers hmoments

/-- A want is registered, and fetched from one peer a second later. -/
theorem posted_iff_recent_second :
    let w : Want := ⟨.raw [104, 101, 108, 108, 111], none⟩
    let p : PeerId := ⟨⟨Multihash.identity, [1, 2], by decide⟩, .inr ⟨rfl, by decide⟩⟩
    let x₀ : Exchange MemoryStore := (Exchange.new {} {} .allowAll .disabled).connect p 0
    let x := (x₀.register ⟨0⟩ w).1
    let now := Duration.ofSeconds 1
    ∃ y call looks f moves c z,
      x.getBlocks now [w] [p] false = (y, call) ∧ Looks x [w] [] looks y ∧
      (w, f) ∈ awaited [w] (looks.map Look.slot) ∧ y.wants.isPending w = true ∧
      Broadcast.Tells 0 (y.advertise now (looks.map Look.slot) [p]) y moves c z ∧
      c.isDone = true ∧ p ∈ y.targets [p] ∧ (∀ m ∈ moves, Linked p 0 m.before m.boxes) ∧
      y.RecentlyWanted now w ∧ ∃ m ∈ postedTo 0 moves, Entry.want w .block true ∈ m.entries := by
  intro w p x₀ x now
  have hready : awaited [w] (x.getBlocks now [w] [p] false).2.slots = [(w, (x₀.register ⟨0⟩ w).2)] ∧
      (x.getBlocks now [w] [p] false).1.wants.registration? w = some ⟨0, ⟨0⟩⟩ ∧
      (now.since ⟨0⟩).lt (x.getBlocks now [w] [p] false).1.wants.recency = true ∧
      (x.getBlocks now [w] [p] false).2.broadcast.targets = [p] ∧
      (x.getBlocks now [w] [p] false).1.peers.outbox? p = some 0 := by
    decide +kernel
  rcases hget : x.getBlocks now [w] [p] false with ⟨y, call⟩
  rw [hget] at hready
  obtain ⟨hawaited, hr, hrecent, htargets, hp⟩ := hready
  obtain ⟨looks, hl, rfl⟩ := looks_of_getBlocks hget
  have hw : (w, (x₀.register ⟨0⟩ w).2) ∈ awaited [w] (looks.map Look.slot) :=
    hawaited ▸ List.mem_singleton_self _
  have hpending : y.wants.isPending w = true := WantTable.isPending_iff_registration?.mpr ⟨_, hr⟩
  obtain ⟨moves, c, ht, hdone, hlinked, -⟩ :=
    Broadcast.exists_tells 0 (waiting_advertise ..) htargets hp
  have hmem : p ∈ y.targets [p] := List.mem_singleton_self p
  have hwanted : y.RecentlyWanted now w := ⟨w, _, rfl, rfl, hr, hrecent⟩
  have hposted := (posted_iff_recent hl hw hpending ht hdone hmem hlinked).1.mpr (.inr hwanted)
  exact ⟨y, _, looks, _, moves, c, _, rfl, hl, hw, hpending, ht, hdone, hmem, hlinked, hwanted,
    hposted⟩

/-- A want is registered, and fetched from one connected peer five minutes later: the fetch waits
for it, and whatever happens puts nothing into any outbox. -/
theorem unasked_after_recency :
    let w : Want := ⟨.raw [104, 101, 108, 108, 111], none⟩
    let p : PeerId := ⟨⟨Multihash.identity, [1, 2], by decide⟩, .inr ⟨rfl, by decide⟩⟩
    let x₀ : Exchange MemoryStore := (Exchange.new {} {} .allowAll .disabled).connect p 0
    let f := (x₀.register ⟨0⟩ w).2
    let x := (x₀.register ⟨0⟩ w).1
    let now := Duration.ofSeconds 300
    Run x [(w, f)] ∧ ∃ y call, x.getBlocks now [w] [p] false = (y, call) ∧
      (w, f) ∈ awaited [w] call.slots ∧ y.wants.isPending w = true ∧ y.isSettled call = false ∧
      p ∈ y.targets [p] ∧ y.peers.outbox? p = some 0 ∧ call.broadcast.isDone = true ∧
      ∀ {task : TaskId} {moves : List (Move MemoryStore)} {c : Broadcast}
        {z : Exchange MemoryStore},
        Broadcast.Tells task call.broadcast y moves c z → ∀ o, postedTo o moves = [] := by
  intro w p x₀ f x now
  have hx₀ : Run x₀ [] := (Run.start {} {} .allowAll .disabled).step (.connect p 0)
  have hx : Run x [(w, f)] := hx₀.step (.register ⟨0⟩ w)
  have hready : awaited [w] (x.getBlocks now [w] [p] false).2.slots = [(w, f)] ∧
      (x.getBlocks now [w] [p] false).1.wants.isPending w = true ∧
      (x.getBlocks now [w] [p] false).1.isSettled (x.getBlocks now [w] [p] false).2 = false ∧
      (x.getBlocks now [w] [p] false).1.peers.outbox? p = some 0 ∧
      (x.getBlocks now [w] [p] false).2.broadcast.isDone = true := by
    decide +kernel
  rcases hget : x.getBlocks now [w] [p] false with ⟨y, call⟩
  rw [hget] at hready
  obtain ⟨hawaited, hpending, hsettled, hp, hdone⟩ := hready
  have hw : (w, f) ∈ awaited [w] call.slots := hawaited ▸ List.mem_singleton_self _
  refine ⟨hx, y, call, rfl, hw, hpending, hsettled, List.mem_singleton_self p, hp, hdone, ?_⟩
  intro task moves c z ht o
  rw [ht.moves_eq_nil hdone]
  rfl

end Exchange
end BlockExchange
