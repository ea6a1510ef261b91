import BlockExchange.Proofs.TwoNodes

/-!
# Honest replies

A node whose store was filled by its own calls, or is a directory with anything in it, sends only
content that has its right name (`Honest.faithful`). So each block record that answers a request is
read by the receiver as the block of the requested identifier, whatever the version and the codec,
and no record is refused. Each served identifier that the receiver waits for is counted as received
once, and only what it does not wait for any more as unwanted (`replies_verify`).
-/

namespace BlockExchange

/-- A store in memory that was filled by `put` and `putBlock`, or one in a directory that may hold
anything under any name. -/
inductive AnyStore.Honest : AnyStore → Prop
  | reached {s : AnyStore} (h : s.Reached) : Honest s
  | directory (d : DirectoryStore) : Honest (.directory d)

theorem AnyStore.Honest.faithful {s : AnyStore} (h : s.Honest) : Faithful s := by
  cases h with
  | reached h => exact h.faithful
  | directory d => exact d.faithful

namespace Exchange

/-! ### One answer -/

section
variable {σ : Type} [BlockStore σ] {x : Exchange σ} {requester : Cid} {traceId : String}

/-- A record that answers a request is read as content of the requested identifier. -/
theorem toHashed_of_serve (hs : Faithful x.store) {r : Request} {b : BlockRecord}
    (h : x.serve requester traceId r = some (.block b)) :
    ∃ c, b.toHashed = .ok c ∧ c.cid = r.want.cid ∧ c.data = b.data := by
  obtain ⟨data, hserved, rfl⟩ := serve_eq_block_iff.mp h
  have hn := (hs r.want.cid data hserved.stored).2
  exact ⟨_, BlockRecord.toHashed_ofParts hn r.want.auth, rfl, rfl⟩

theorem forall₂_toHashed (hs : Faithful x.store) (requester : Cid) (traceId : String)
    (rs : List Request) :
    List.Forall₂ (fun r a => ∀ b, a = some (.block b) →
        ∃ c, b.toHashed = .ok c ∧ c.cid = r.want.cid ∧ c.data = b.data)
      rs (rs.map (x.serve requester traceId)) := by
  rw [List.forall₂_map_right_iff, List.forall₂_same]
  intro r _ b hb
  exact toHashed_of_serve hs hb

/-- The block records among the replies to a message. -/
theorem exists_toHashed_of_mem_answerTo (hs : Faithful x.store) {peer : PeerId} {m : Message}
    {b : BlockRecord} (hb : b ∈ (x.answerTo peer m).flatMap Message.payload) :
    ∃ c, b.toHashed = .ok c := by
  rw [answerTo, packReplies, flatMap_pack_payload, Reply.mem_filterMap_block?, replies,
    List.mem_filterMap] at hb
  obtain ⟨r, -, hserve⟩ := hb
  obtain ⟨c, hc, -⟩ := toHashed_of_serve hs hserve
  exact ⟨c, hc⟩

end

/-! ### What a payload adds to the counters -/

section
variable {σ : Type} {x : Exchange σ}

theorem verified_cons_of_ok {r : BlockRecord} {c : HashedBlock} (h : r.toHashed = .ok c)
    (rs : List BlockRecord) : verified (r :: rs) = c :: verified rs :=
  List.filterMap_cons_some (by rw [h]; rfl)

theorem verified_cons_of_error {r : BlockRecord} {e : BlockError} (h : r.toHashed = .error e)
    (rs : List BlockRecord) : verified (r :: rs) = verified rs :=
  List.filterMap_cons_none (by rw [h]; rfl)

/-- How a payload is counted: `fresh` are the identifiers of its blocks that somebody waited for. -/
structure Counted (x after : Exchange σ) (rs : List BlockRecord) (fresh : List Cid) : Prop where
  nodup : fresh.Nodup
  mem_iff : ∀ cid, cid ∈ fresh ↔
    cid ∈ (verified rs).map HashedBlock.cid ∧ ∃ w, w.cid = cid ∧ x.wants.isPending w = true
  received : after.journal.counters.blocksReceived =
    x.journal.counters.blocksReceived + fresh.length
  unwanted : after.journal.counters.unwantedBlocks + fresh.length =
    x.journal.counters.unwantedBlocks + (verified rs).length
  rejected : after.journal.counters.blocksRejected + (verified rs).length =
    x.journal.counters.blocksRejected + rs.length

namespace Counted
variable {y after : Exchange σ} {r : BlockRecord} {rs : List BlockRecord} {fresh : List Cid}

theorem refused {e : BlockError} (hr : r.toHashed = .error e)
    (h : Counted { x with journal := x.journal.blockRejected } after rs fresh) :
    Counted x after (r :: rs) fresh := by
  refine ⟨h.nodup, ?_, h.received, ?_, ?_⟩
  · rw [verified_cons_of_error hr]
    exact h.mem_iff
  · rw [verified_cons_of_error hr]
    exact h.unwanted
  · have hrejected : _ = x.journal.counters.blocksRejected + 1 + rs.length := h.rejected
    rw [verified_cons_of_error hr, List.length_cons]
    omega

theorem unwanted_block {c : HashedBlock} (hr : r.toHashed = .ok c)
    (hw : ¬ ∃ w, w.cid = c.cid ∧ x.wants.isPending w = true)
    (h : Counted { x with journal := x.journal.unwantedBlock } after rs fresh) :
    Counted x after (r :: rs) fresh := by
  refine ⟨h.nodup, fun cid => ?_, h.received, ?_, ?_⟩
  · rw [verified_cons_of_ok hr, h.mem_iff, List.map_cons, List.mem_cons]
    constructor
    · rintro ⟨hc, hp⟩
      exact ⟨.inr hc, hp⟩
    · rintro ⟨rfl | hc, hp⟩
      · exact absurd hp hw
      · exact ⟨hc, hp⟩
  · have hunwanted : _ = x.journal.counters.unwantedBlocks + 1 + (verified rs).length := h.unwanted
    rw [verified_cons_of_ok hr, List.length_cons]
    omega
  · have hrejected : _ = x.journal.counters.blocksRejected + rs.length := h.rejected
    rw [verified_cons_of_ok hr, List.length_cons, List.length_cons]
    omega

theorem received_block {c : HashedBlock} (hr : r.toHashed = .ok c)
    (hw : ∃ w, w.cid = c.cid ∧ x.wants.isPending w = true)
    (h : Counted { x with wants := (x.wants.resolve c).1, journal := x.journal.blockReceived }
      after rs fresh) :
    Counted x after (r :: rs) (c.cid :: fresh) := by
  have hmem : ∀ cid, cid ∈ fresh ↔ cid ∈ (verified rs).map HashedBlock.cid ∧
      ∃ w, w.cid = cid ∧ w.cid ≠ c.cid ∧ x.wants.isPending w = true := by
    intro cid
    rw [h.mem_iff]
    simp only [WantTable.isPending_resolve_iff]
  refine ⟨List.nodup_cons.mpr ⟨fun hc => ?_, h.nodup⟩, fun cid => ?_, ?_, ?_, ?_⟩
  · -- what has been resolved is not waited for any more
    obtain ⟨-, w, hcid, hne, -⟩ := (hmem _).mp hc
    exact hne hcid
  · rw [verified_cons_of_ok hr, List.mem_cons, hmem, List.map_cons, List.mem_cons]
    constructor
    · rintro (rfl | ⟨hd, w, hcid, -, hp⟩)
      · exact ⟨.inl rfl, hw⟩
      · exact ⟨.inr hd, w, hcid, hp⟩
    · rintro ⟨rfl | hd, w, hcid, hp⟩
      · exact .inl rfl
      · by_cases hc : cid = c.cid
        · exact .inl hc
        · exact .inr ⟨hd, w, hcid, fun hw => hc (hcid.symm.trans hw), hp⟩
  · have hreceived : _ = x.journal.counters.blocksReceived + 1 + fresh.length := h.received
    rw [List.length_cons]
    omega
  · have hunwanted : _ = x.journal.counters.unwantedBlocks + (verified rs).length := h.unwanted
    rw [verified_cons_of_ok hr, List.length_cons, List.length_cons]
    omega
  · have hrejected : _ = x.journal.counters.blocksRejected + rs.length := h.rejected
    rw [verified_cons_of_ok hr, List.length_cons, List.length_cons]
    omega

end Counted

/-- The first block for an identifier that somebody waits for is counted as received, every other
one as unwanted, and what is no block as refused. -/
theorem exists_counted (h : x.wants.Valid) (rs : List BlockRecord) :
    ∃ fresh, Counted x (rs.foldl absorbBlock x) rs fresh := by
  induction rs generalizing x with
  | nil =>
    refine ⟨[], List.nodup_nil, fun cid => ?_, rfl, rfl, rfl⟩
    simp [verified]
  | cons r rs ih =>
    rw [List.foldl_cons]
    rcases x.absorbBlock_cases r with ⟨e, hr, hx⟩ | ⟨c, hr, hw, hx⟩ | ⟨c, hr, hw, hx⟩ <;> rw [hx]
    · obtain ⟨fresh, hf⟩ := ih (x := { x with journal := x.journal.blockRejected }) h
      exact ⟨fresh, hf.refused hr⟩
    · obtain ⟨fresh, hf⟩ := ih (x :=
        { x with wants := (x.wants.resolve c).1, journal := x.journal.blockReceived }) (h.resolve c)
      exact ⟨c.cid :: fresh, hf.received_block hr ((h.resolve_snd_iff c).mp hw)⟩
    · obtain ⟨fresh, hf⟩ := ih (x := { x with journal := x.journal.unwantedBlock }) h
      refine ⟨fresh, hf.unwanted_block hr fun hp => ?_⟩
      rw [(h.resolve_snd_iff c).mpr hp] at hw
      cases hw

/-! ### Taking replies in -/

theorem absorbBlock_withHaves (x : Exchange σ) (haves : HaveTable) (r : BlockRecord) :
    ({ x with haves } : Exchange σ).absorbBlock r = { x.absorbBlock r with haves } := by
  rcases x.absorbBlock_cases r with ⟨e, hr, hx⟩ | ⟨c, hr, hw, hx⟩ | ⟨c, hr, hw, hx⟩ <;> rw [hx]
  · exact absorbBlock_of_error hr
  · exact absorbBlock_of_wanted hr hw
  · exact absorbBlock_of_unwanted hr hw

theorem foldl_absorbBlock_withHaves (x : Exchange σ) (haves : HaveTable) (rs : List BlockRecord) :
    rs.foldl absorbBlock { x with haves } = { rs.foldl absorbBlock x with haves } := by
  induction rs generalizing x with
  | nil => rfl
  | cons r rs ih => rw [List.foldl_cons, List.foldl_cons, absorbBlock_withHaves, ih]

/-- Presences change the have table only, and messages everything else as their blocks do. -/
theorem foldl_absorb_eq (x : Exchange σ) (peer : PeerId) (ms : List Message) :
    ∃ haves, ms.foldl (fun x m => x.absorb peer m) x =
      { (ms.flatMap Message.payload).foldl absorbBlock x with haves } := by
  induction ms generalizing x with
  | nil => exact ⟨x.haves, rfl⟩
  | cons m ms ih =>
    obtain ⟨haves, hrest⟩ := ih (x.absorb peer m)
    refine ⟨haves, ?_⟩
    rw [List.foldl_cons, hrest, absorb_eq, foldl_absorbBlock_withHaves, List.flatMap_cons,
      List.foldl_append]

/-- A receiver finds nothing to refuse in block records. It counts every identifier that it waits
for once as received, and what it counts as unwanted it has asked for twice or has got meanwhile.
-/
structure Accepts (x after : Exchange σ) (rs : List BlockRecord) : Prop where
  rejected : after.journal.counters.blocksRejected = x.journal.counters.blocksRejected
  counted : ∃ fresh, Counted x after rs fresh
  unwanted : ((verified rs).map HashedBlock.cid).Nodup →
    (∀ c ∈ verified rs, ∃ w, w.cid = c.cid ∧ x.wants.isPending w = true) →
    after.journal.counters.unwantedBlocks = x.journal.counters.unwantedBlocks

theorem length_verified {rs : List BlockRecord} (h : ∀ r ∈ rs, ∃ c, r.toHashed = .ok c) :
    (verified rs).length = rs.length := by
  induction rs with
  | nil => rfl
  | cons r rs ih =>
    obtain ⟨c, hc⟩ := h r List.mem_cons_self
    rw [verified_cons_of_ok hc, List.length_cons, List.length_cons,
      ih fun r hr => h r (List.mem_cons_of_mem _ hr)]

theorem Counted.accepts {after : Exchange σ} {rs : List BlockRecord} {fresh : List Cid}
    (h : Counted x after rs fresh) (hrs : ∀ r ∈ rs, ∃ c, r.toHashed = .ok c) :
    Accepts x after rs := by
  refine ⟨?_, ⟨fresh, h⟩, fun hnodup hwanted => ?_⟩
  · have hrejected := h.rejected
    rw [length_verified hrs] at hrejected
    omega
  · have hperm : fresh.Perm ((verified rs).map HashedBlock.cid) := by
      rw [List.perm_ext_iff_of_nodup h.nodup hnodup]
      intro cid
      rw [h.mem_iff, and_iff_left_iff_imp, List.mem_map]
      rintro ⟨c, hc, rfl⟩
      exact hwanted c hc
    have hlength := hperm.length_eq
    have hunwanted := h.unwanted
    rw [List.length_map] at hlength
    omega

end

/-! ### Serving and receiving -/

/-- Whatever a peer asks for and however it spells it, each block record among the answers is
content of the identifier that the request names, and every node that receives the answers accepts
them. -/
theorem replies_verify {x : Exchange AnyStore} (hs : x.store.Honest) (peer : PeerId) (m : Message) :
    ∃ y frames answers, x.receive peer m = .ok (y, frames) ∧
      List.Forall₂ (fun r a => ∀ b, a = some (.block b) →
          ∃ c, b.toHashed = .ok c ∧ c.cid = r.want.cid ∧ c.data = b.data)
        (requests m.entries) answers ∧
      frames.flatMap Message.payload = answers.filterMap (·.bind Reply.block?) ∧
      ∀ {τ : Type} [BlockStore τ] {z : Exchange τ} {given : List (Want × WantFuture)},
        Run z given → ∀ sender, ∃ after, z.receiveAll sender frames = .ok (after, []) ∧
          Accepts z after (frames.flatMap Message.payload) := by
  have hfaithful := hs.faithful
  refine ⟨_, x.answerTo peer m, _, receive_eq x peer m,
    forall₂_toHashed hfaithful (Cid.v1 Codec.peerKey peer.hash) m.traceId _, ?_, ?_⟩
  · rw [answerTo, packReplies, flatMap_pack_payload, replies, List.filterMap_filterMap,
      List.filterMap_map]
    rfl
  · intro τ _ z given hz sender
    have hquiet : (x.answerTo peer m).flatMap (z.answerTo sender) = [] :=
      List.flatMap_eq_nil_iff.mpr fun f hf => answerTo_of_no_entries (entries_of_mem_answerTo hf)
    obtain ⟨haves, hafter⟩ := foldl_absorb_eq z sender (x.answerTo peer m)
    obtain ⟨fresh, hcounted⟩ :=
      exists_counted hz.honours.valid ((x.answerTo peer m).flatMap Message.payload)
    have haccepts := hcounted.accepts fun b => exists_toHashed_of_mem_answerTo hfaithful
    refine ⟨_, by rw [receiveAll_eq, hquiet], ?_⟩
    rw [hafter]
    exact ⟨haccepts.rejected, ⟨fresh, hcounted.nodup, hcounted.mem_iff, hcounted.received,
      hcounted.unwanted, hcounted.rejected⟩, haccepts.unwanted⟩

/-- A node in memory that was given a block under each version is asked for both, and twice for one
of them. -/
theorem replies_verify_both_versions :
    let old : Cid := ⟨.v0, Codec.dagPb, .ofSha256 [1, 2], fun _ => ⟨rfl, rfl, length_sha256 _⟩⟩
    let store := (BlockStore.putBlock (AnyStore.memory {}) ⟨old, [1, 2], rfl, rfl⟩).1
    let x : Exchange AnyStore := .new {} (BlockStore.put store Codec.raw [3]).1 .allowAll .disabled
    let peer : PeerId := ⟨⟨Multihash.identity, [1, 2], by decide⟩, .inr ⟨rfl, by decide⟩⟩
    let ws : List Want := [⟨old, none⟩, ⟨.raw [3], none⟩, ⟨.raw [3], some ⟨[9]⟩⟩]
    let m : Message := { wantlist := some { entries := ws.map (Entry.want · .block true) } }
    let z : Exchange MemoryStore := .new {} {} .requireToken .disabled
    x.store.Honest ∧ Run z [] ∧
    ∃ y frames answers, x.receive peer m = .ok (y, frames) ∧
      List.Forall₂ (fun r a => ∀ b, a = some (.block b) →
          ∃ c, b.toHashed = .ok c ∧ c.cid = r.want.cid ∧ c.data = b.data)
        (requests m.entries) answers ∧
      frames.flatMap Message.payload = answers.filterMap (·.bind Reply.block?) ∧
      ∃ after, z.receiveAll peer frames = .ok (after, []) ∧
        Accepts z after (frames.flatMap Message.payload) := by
  intro old store x peer ws m z
  have hopen : AnyStore.open none none false = .ok (.memory {}) := rfl
  have hs : x.store.Honest := .reached (.put (.putBlock (.opened hopen) _) _ _)
  have hz : Run z [] := .start _ _ _ _
  obtain ⟨y, frames, answers, hreceive, hanswers, hpayload, haccepts⟩ := replies_verify hs peer m
  exact ⟨hs, hz, y, frames, answers, hreceive, hanswers, hpayload, haccepts hz peer⟩

end Exchange
end BlockExchange
