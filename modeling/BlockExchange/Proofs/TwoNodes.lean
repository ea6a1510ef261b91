import BlockExchange.Proofs.Broadcasting
import BlockExchange.Proofs.Serving
import BlockExchange.Proofs.StoreContent
import BlockExchange.Proofs.WantHistory

/-!
# Two nodes

One node tells another what it wants, the other answers, and the first takes the answers in. The
entries of the first are read as requests for its wants (`requests_want`), each is answered with a
record of the block or with word that the block is not here (`serve_eq_block_iff`), and a record is
read as the block that it was made of. So a want is completed exactly when one of the wants for its
identifier that were listed is one that the other node grants (`two_nodes`).
-/

namespace BlockExchange

/-! ### Asking -/

/-- What the entry for a want asks for. A token without bytes is none on the wire. -/
def Request.ofWant (v : Want) : Request :=
  ⟨.ofWire v.cid v.authBytes, .block, true⟩

/-- The entries that list wants are all read, and none takes another back. -/
theorem requests_want (vs : List Want) :
    requests (vs.map (Entry.want · .block true)) = vs.map .ofWant := by
  suffices h : (vs.map (Entry.want · .block true)).foldr Request.collect ([], []) =
      (vs.map .ofWant, []) from congrArg Prod.fst h
  induction vs with
  | nil => rfl
  | cons v vs ih =>
    rw [List.map_cons, List.foldr_cons, ih]
    unfold Request.collect
    rw [Entry.toWant_want]
    rfl

namespace Exchange

section
variable {σ : Type} [BlockStore σ] {x : Exchange σ} {requester : Cid} {traceId : String}
  {peer : PeerId}

/-- The node has the block of a want and gives it to the requester in a frame of its own. -/
structure Grants (x : Exchange σ) (requester : Cid) (traceId : String) (v : Want) (data : Bytes) :
    Prop where
  held : BlockStore.get x.store v.cid = .ok (some data)
  allowed : x.authoriser.allowRead v.cid requester (AuthToken.ofWire v.authBytes) = .ok true
  fits : (Message.encode
    { payload := [.ofParts v.cid data (AuthToken.ofWire v.authBytes)], traceId }).length ≤ maxFrameSize

/-- One of the listed wants is for this identifier and is granted. -/
def Supplies (x : Exchange σ) (requester : Cid) (traceId : String) (listed : List Want) (cid : Cid) :
    Prop :=
  ∃ v ∈ listed, v.cid = cid ∧ ∃ data, x.Grants requester traceId v data

theorem served_ofWant_iff (hs : Faithful x.store) {v : Want} {data : Bytes} :
    (Request.ofWant v).Served x.store x.authoriser requester traceId data ↔
      x.Grants requester traceId v data := by
  constructor
  · rintro ⟨-, -, allowed, held, fits⟩
    exact ⟨held, allowed, fits⟩
  · rintro ⟨held, allowed, fits⟩
    exact ⟨rfl, (hs v.cid data held).1, allowed, held, fits⟩

/-! ### Many messages -/

/-- Takes in messages from a peer, one after the other, and tells all the messages that answer
them. -/
def receiveAll (x : Exchange σ) (peer : PeerId) :
    List Message → Except CidError (Exchange σ × List Message)
  | [] => .ok (x, [])
  | m :: ms => do
    let (x, frames) ← x.receive peer m
    let (x, more) ← receiveAll x peer ms
    return (x, frames ++ more)

/-- The messages that answer a message. -/
def answerTo (x : Exchange σ) (peer : PeerId) (m : Message) : List Message :=
  x.packReplies m.traceId (x.replies (Cid.v1 Codec.peerKey peer.hash) m)

/-- Taking a message in does not change what another one is answered with. -/
theorem answerTo_absorb (x : Exchange σ) (peer : PeerId) (m n : Message) :
    (x.absorb peer m).answerTo peer n = x.answerTo peer n := by
  rw [absorb_eq, foldl_absorbBlock_eq]
  rfl

theorem receiveAll_eq (x : Exchange σ) (peer : PeerId) (ms : List Message) :
    x.receiveAll peer ms =
      .ok (ms.foldl (fun x m => x.absorb peer m) x, ms.flatMap (x.answerTo peer)) := by
  induction ms generalizing x with
  | nil => rfl
  | cons m ms ih =>
    have hsame : (x.absorb peer m).answerTo peer = x.answerTo peer :=
      funext fun n => answerTo_absorb x peer m n
    unfold receiveAll
    rw [receive_eq]
    show (receiveAll (x.absorb peer m) peer ms >>= _) = _
    rw [ih, hsame]
    rfl

/-- The blocks and presences that answer messages are those of the replies to them. -/
theorem flatMap_answerTo {α : Type} {f : Message → List α} {g : Reply → Option α}
    (hf : ∀ m, (x.answerTo peer m).flatMap f =
      (x.replies (Cid.v1 Codec.peerKey peer.hash) m).filterMap g) (ms : List Message) :
    (ms.flatMap (x.answerTo peer)).flatMap f =
      (ms.flatMap (x.replies (Cid.v1 Codec.peerKey peer.hash))).filterMap g := by
  induction ms with
  | nil => rfl
  | cons m ms ih =>
    rw [List.flatMap_cons, List.flatMap_append, hf, ih, List.flatMap_cons, List.filterMap_append]

/-- The messages list these wants, in order and under one trace id. -/
structure Lists (ms : List Message) (traceId : String) (listed : List Want) : Prop where
  entries_eq : ms.flatMap Message.entries = listed.map (Entry.want · .block true)
  traceId_eq : ∀ m ∈ ms, m.traceId = traceId

/-- The replies to messages that list wants are those to the requests for these wants. -/
theorem flatMap_replies {ms : List Message} {listed : List Want} (hl : Lists ms traceId listed) :
    ms.flatMap (x.replies requester) =
      listed.filterMap fun v => x.serve requester traceId (.ofWant v) := by
  obtain ⟨hlisted, htrace⟩ := hl
  induction ms generalizing listed with
  | nil =>
    obtain rfl := List.map_eq_nil_iff.mp hlisted.symm
    rfl
  | cons m ms ih =>
    obtain ⟨vs, more, rfl, hm, hms⟩ := List.append_eq_map_iff.mp hlisted
    have hrest := ih hms.symm fun n hn => htrace n (List.mem_cons_of_mem m hn)
    rw [List.flatMap_cons, hrest, List.filterMap_append, replies, ← hm, requests_want,
      htrace m List.mem_cons_self, List.filterMap_map]
    rfl

theorem answerTo_of_no_entries {m : Message} (h : m.entries = []) :
    x.answerTo peer m = [] := by
  unfold answerTo replies
  rw [h]
  rfl

end

/-! ### Taking the answers in -/

section
variable {σ : Type} {x : Exchange σ}

/-- Word that a block is not here changes nothing. -/
theorem foldl_absorbPresence_of_dontHave {peer : PeerId} {ps : List Presence}
    (h : ∀ p ∈ ps, p.kind = .dontHave) : ps.foldl (absorbPresence peer) x = x := by
  induction ps with
  | nil => rfl
  | cons p ps ih =>
    have hp : absorbPresence peer x p = x := by
      unfold absorbPresence
      rw [h p List.mem_cons_self]
    rw [List.foldl_cons, hp]
    exact ih fun q hq => h q (List.mem_cons_of_mem p hq)

theorem foldl_absorb_of_dontHave {peer : PeerId} {ms : List Message}
    (h : ∀ m ∈ ms, ∀ p ∈ m.presences, p.kind = .dontHave) :
    ms.foldl (fun x m => x.absorb peer m) x = (ms.flatMap Message.payload).foldl absorbBlock x := by
  induction ms generalizing x with
  | nil => rfl
  | cons m ms ih =>
    have hm : x.absorb peer m = m.payload.foldl absorbBlock x :=
      foldl_absorbPresence_of_dontHave (h m List.mem_cons_self)
    rw [List.foldl_cons, hm, List.flatMap_cons, List.foldl_append]
    exact ih fun n hn => h n (List.mem_cons_of_mem m hn)

/-- The verified blocks among some records. -/
def verified (rs : List BlockRecord) : List HashedBlock :=
  rs.filterMap fun r => r.toHashed.toOption

theorem mem_verified_iff {rs : List BlockRecord} {c : HashedBlock} :
    c ∈ verified rs ↔ ∃ r ∈ rs, r.toHashed = .ok c := by
  unfold verified
  rw [List.mem_filterMap]
  refine exists_congr fun r => and_congr_right fun _ => ?_
  cases r.toHashed with
  | error e => exact iff_of_false nofun nofun
  | ok d => rw [Except.toOption, Option.some.injEq, Except.ok.injEq]

/-- Block records resolve the wants for the verified blocks among them. -/
theorem wants_foldl_absorbBlock (x : Exchange σ) (rs : List BlockRecord) :
    (rs.foldl absorbBlock x).wants = x.wants.run ((verified rs).map .resolve) := by
  induction rs generalizing x with
  | nil => rfl
  | cons r rs ih =>
    rw [List.foldl_cons, ih]
    rcases x.absorbBlock_cases r with ⟨e, he, hx⟩ | ⟨c, hc, -, hx⟩ | ⟨c, hc, hw, hx⟩ <;> rw [hx]
    · have hrs : verified (r :: rs) = verified rs := List.filterMap_cons_none (by rw [he]; rfl)
      rw [hrs]
    · have hrs : verified (r :: rs) = c :: verified rs := List.filterMap_cons_some (by rw [hc]; rfl)
      rw [hrs]
      rfl
    · have hrs : verified (r :: rs) = c :: verified rs := List.filterMap_cons_some (by rw [hc]; rfl)
      have hsame : x.wants.call (.resolve c) = x.wants := WantTable.resolve_fst_of_unwanted hw
      rw [hrs, List.map_cons, WantTable.run, WantTable.run, List.foldl_cons, hsame]

theorem blocksRejected_foldl_absorbBlock {rs : List BlockRecord}
    (h : ∀ r ∈ rs, ∃ c, r.toHashed = .ok c) (x : Exchange σ) :
    (rs.foldl absorbBlock x).journal.counters.blocksRejected =
      x.journal.counters.blocksRejected := by
  induction rs generalizing x with
  | nil => rfl
  | cons r rs ih =>
    obtain ⟨c, hc⟩ := h r List.mem_cons_self
    rw [List.foldl_cons, ih fun q hq => h q (List.mem_cons_of_mem r hq)]
    rcases x.absorbBlock_cases r with ⟨e, he, hx⟩ | ⟨_, -, -, hx⟩ | ⟨_, -, -, hx⟩
    · rw [hc] at he
      cases he
    · rw [hx]
      rfl
    · rw [hx]
      rfl

end

/-! ### The answers -/

section
variable {σ : Type} [BlockStore σ] {x : Exchange σ} {peer : PeerId} {traceId : String}
  {ms : List Message} {listed : List Want}

theorem entries_of_mem_answerTo {m f : Message} (hf : f ∈ x.answerTo peer m) : f.entries = [] :=
  List.flatMap_eq_nil_iff.mp (flatMap_pack_entries ..) f hf

theorem mem_payload_iff (hs : Faithful x.store) (hl : Lists ms traceId listed) {r : BlockRecord} :
    r ∈ (ms.flatMap (x.answerTo peer)).flatMap Message.payload ↔
      ∃ v ∈ listed, ∃ data, x.Grants (Cid.v1 Codec.peerKey peer.hash) traceId v data ∧
        r = .ofParts v.cid data (AuthToken.ofWire v.authBytes) := by
  rw [flatMap_answerTo fun m => flatMap_pack_payload .., flatMap_replies hl,
    Reply.mem_filterMap_block?, List.mem_filterMap]
  refine exists_congr fun v => and_congr_right fun _ => ?_
  rw [serve_eq_block_iff]
  exact exists_congr fun data => and_congr_left fun _ => served_ofWant_iff hs

theorem kind_of_mem_presences (hl : Lists ms traceId listed) {f : Message}
    (hf : f ∈ ms.flatMap (x.answerTo peer)) {p : Presence} (hp : p ∈ f.presences) :
    p.kind = .dontHave := by
  have hmem := List.mem_flatMap_of_mem hf hp
  rw [flatMap_answerTo fun m => flatMap_pack_presences ..,
    flatMap_replies hl, Reply.mem_filterMap_presence?,
    List.mem_filterMap] at hmem
  obtain ⟨v, -, hserve⟩ := hmem
  exact kind_of_serve_eq_presence rfl hserve

/-- Each record that is sent is read as the block that it was made of. -/
theorem mem_verified_payload_iff (hs : Faithful x.store) (hl : Lists ms traceId listed)
    {c : HashedBlock} :
    c ∈ verified ((ms.flatMap (x.answerTo peer)).flatMap Message.payload) ↔
      ∃ v ∈ listed, v.cid = c.cid ∧ x.Grants (Cid.v1 Codec.peerKey peer.hash) traceId v c.data := by
  rw [mem_verified_iff]
  constructor
  · rintro ⟨r, hr, hc⟩
    obtain ⟨v, hv, data, hg, rfl⟩ := (mem_payload_iff hs hl).mp hr
    rw [BlockRecord.toHashed_ofParts (hs v.cid data hg.held).2] at hc
    obtain rfl := Except.ok.inj hc
    exact ⟨v, hv, rfl, hg⟩
  · rintro ⟨v, hv, hcid, hg⟩
    obtain ⟨cid, data, hn⟩ := c
    obtain rfl : v.cid = cid := hcid
    exact ⟨_, (mem_payload_iff hs hl).mpr ⟨v, hv, data, hg, rfl⟩, BlockRecord.toHashed_ofParts hn _⟩

theorem exists_mem_verified_iff (hs : Faithful x.store) (hl : Lists ms traceId listed) {cid : Cid} :
    (∃ c ∈ verified ((ms.flatMap (x.answerTo peer)).flatMap Message.payload), c.cid = cid) ↔
      x.Supplies (Cid.v1 Codec.peerKey peer.hash) traceId listed cid := by
  constructor
  · rintro ⟨c, hc, rfl⟩
    obtain ⟨v, hv, hcid, hg⟩ := (mem_verified_payload_iff hs hl).mp hc
    exact ⟨v, hv, hcid, c.data, hg⟩
  · rintro ⟨v, hv, rfl, data, hg⟩
    have hn := (hs v.cid data hg.held).2
    exact ⟨⟨v.cid, data, hn⟩, (mem_verified_payload_iff hs hl).mpr ⟨v, hv, rfl, hg⟩, rfl⟩

theorem exists_toHashed_of_mem_payload (hs : Faithful x.store) (hl : Lists ms traceId listed)
    {r : BlockRecord} (hr : r ∈ (ms.flatMap (x.answerTo peer)).flatMap Message.payload) :
    ∃ c, r.toHashed = .ok c := by
  obtain ⟨v, -, data, hg, rfl⟩ := (mem_payload_iff hs hl).mp hr
  exact ⟨_, BlockRecord.toHashed_ofParts (hs v.cid data hg.held).2 _⟩

end

/-! ### Wants, answers, blocks -/

section
variable {σ : Type} {a a₁ : Exchange σ} {given : List (Want × WantFuture)} {b : Exchange AnyStore}
  {task : TaskId} {o : OutboxId} {now : Duration} {told : Broadcast} {queued : List Message}

/-- What a node queues for a peer lists the first of its wants for a single peer, under one trace
id, and has nothing else. -/
theorem exists_listed {p : PeerId} (hp : ∀ q ∈ a.peers.outbox? p, q = o)
    (hq : Broadcast.Queues task o (a.sendWants now [p]) a queued told a₁) :
    ∃ listed, Lists queued a.newTraceId.2 listed ∧ listed <+: a.wants.list now 1 ∧
      (told.sent = 1 → listed = a.wants.list now 1) ∧
      ∀ m ∈ queued, m.presences = [] ∧ m.payload = [] := by
  obtain ⟨-, hprefix, hall⟩ := prefix_of_queues hp hq
  have hframes : ∀ m ∈ queued, m ∈ a.wantFrames now := fun m hm => hprefix.subset hm
  have hentries : queued.flatMap Message.entries <+:
      (a.wants.list now 1).map (Entry.want · .block true) := by
    obtain ⟨rest, hrest⟩ := hprefix
    have htotal : (a.wantFrames now).flatMap Message.entries = a.wantEntries now 1 :=
      flatMap_pack_entries ..
    rw [← hrest, List.flatMap_append] at htotal
    exact ⟨_, htotal⟩
  obtain ⟨listed, hlisted, heq⟩ := List.prefix_map_iff.mp hentries
  refine ⟨listed, ⟨heq, fun m hm => ?_⟩, hlisted, fun hsent => ?_, fun m hm => ⟨?_, ?_⟩⟩
  · exact (stamped_of_mem_pack _ _ _ _ _ m (hframes m hm)).traceId_eq
  · have htotal : (a.wantFrames now).flatMap Message.entries = a.wantEntries now 1 :=
      flatMap_pack_entries ..
    rw [← hall hsent, heq] at htotal
    have hlen := congrArg List.length htotal
    unfold wantEntries at hlen
    rw [List.length_map, List.length_map] at hlen
    exact hlisted.eq_of_length hlen
  · exact List.flatMap_eq_nil_iff.mp (flatMap_pack_presences ..) m (hframes m hm)
  · exact List.flatMap_eq_nil_iff.mp (flatMap_pack_payload ..) m (hframes m hm)

/-- Of the wants that were pending, those for supplied identifiers are completed with what the other
node holds, and the others wait on. No block was refused. -/
structure CompletedBy (b : Exchange AnyStore) (supplied : Cid → Prop)
    (given : List (Want × WantFuture)) (a after : Exchange σ) : Prop where
  delivered : ∀ w f, (w, f) ∈ given → a.wants.poll f = .pending → supplied w.cid →
    ∃ c, after.wants.poll f = .delivered c ∧ c.cid = w.cid ∧
      BlockStore.get b.store w.cid = .ok (some c.data)
  waiting : ∀ w f, (w, f) ∈ given → a.wants.poll f = .pending → ¬ supplied w.cid →
    after.wants.poll f = .pending
  isPending_iff : ∀ w, after.wants.isPending w = true ↔
    a.wants.isPending w = true ∧ ¬ supplied w.cid
  blocksRejected : after.journal.counters.blocksRejected = a.journal.counters.blocksRejected

/-- Answers of verified blocks complete the wants for these blocks. -/
theorem completedBy_answers (h : a.wants.Honours given) (hs : Faithful b.store) {ms : List Message}
    {traceId : String} {listed : List Want} (hl : Lists ms traceId listed) (peer : PeerId) :
    CompletedBy b (b.Supplies (Cid.v1 Codec.peerKey peer.hash) traceId listed) given a
      (((ms.flatMap (b.answerTo peer)).flatMap Message.payload).foldl absorbBlock a) := by
  set rs := (ms.flatMap (b.answerTo peer)).flatMap Message.payload
  have hrun := wants_foldl_absorbBlock a rs
  have hpoll : ∀ w f, (w, f) ∈ given → a.wants.poll f = .pending →
      (rs.foldl absorbBlock a).wants.poll f =
        ((verified rs).find? fun c => c.cid = w.cid).elim .pending .delivered := by
    intro w f hf hp
    have htracks := (h.tracks_poll hf).1
    rw [hp] at htracks
    rw [hrun, (htracks.run _).poll_eq, WantTable.firstBlock?_resolves]
  refine ⟨fun w f hf hp hsupplied => ?_, fun w f hf hp hnot => ?_, fun w => ?_,
    blocksRejected_foldl_absorbBlock (fun r => exists_toHashed_of_mem_payload hs hl) a⟩
  · obtain ⟨c, hc⟩ := Option.isSome_iff_exists.mp <| List.find?_isSome.mpr <|
      ((exists_mem_verified_iff hs hl).mpr hsupplied).imp fun c hc => ⟨hc.1, decide_eq_true hc.2⟩
    have hfound := List.find?_some hc
    have hcid : c.cid = w.cid := of_decide_eq_true hfound
    obtain ⟨v, -, hv, hg⟩ := (mem_verified_payload_iff hs hl).mp (List.mem_of_find?_eq_some hc)
    refine ⟨c, by rw [hpoll w f hf hp, hc]; rfl, hcid, ?_⟩
    rw [← hcid, ← hv]
    exact hg.held
  · have hnone : ((verified rs).find? fun c => c.cid = w.cid) = none :=
      List.find?_eq_none.mpr fun c hc hcid =>
        hnot ((exists_mem_verified_iff hs hl).mp ⟨c, hc, of_decide_eq_true hcid⟩)
    rw [hpoll w f hf hp, hnone]
    rfl
  · rw [hrun, WantTable.isPending_run_resolves_iff, ← exists_mem_verified_iff hs hl, not_exists]
    exact and_congr_right fun _ => forall_congr' fun c => not_and.symm

/-- If a node gets all that another has to say to its wants, a want is completed exactly when a want
for its identifier was listed that the other node grants, and the node has nothing to say to that.
A node that is not connected is told of no want. -/
theorem two_nodes [BlockStore σ] (ha : Run a given) (hb : b.store.Reached) (pa pb : PeerId)
    (ho : ∀ q ∈ a.peers.outbox? pb, q = o)
    (hq : Broadcast.Queues task o (a.sendWants now [pb]) a queued told a₁) :
    ∃ requester listed answers after,
      pa.cid = .ok requester ∧
      queued.flatMap Message.entries = listed.map (Entry.want · .block true) ∧
      listed <+: a.wants.list now 1 ∧ (told.sent = 1 → listed = a.wants.list now 1) ∧
      b.receiveAll pa queued = .ok (b, answers) ∧ a₁.receiveAll pb answers = .ok (after, []) ∧
      CompletedBy b (b.Supplies requester a.newTraceId.2 listed) given a after := by
  have hs := hb.faithful
  obtain ⟨listed, hl, hprefix, hall, hquiet⟩ := exists_listed ho hq
  have hreceived : b.receiveAll pa queued = .ok (b, queued.flatMap (b.answerTo pa)) := by
    have hpayload : queued.flatMap Message.payload = [] :=
      List.flatMap_eq_nil_iff.mpr fun m hm => (hquiet m hm).2
    rw [receiveAll_eq, foldl_absorb_of_dontHave, hpayload]
    · rfl
    · intro m hm p hp
      rw [(hquiet m hm).1] at hp
      cases hp
  set answers := queued.flatMap (b.answerTo pa)
  have hanswered : a₁.receiveAll pb answers =
      .ok ((answers.flatMap Message.payload).foldl absorbBlock a₁, []) := by
    have hnone : answers.flatMap (a₁.answerTo pb) = [] := by
      refine List.flatMap_eq_nil_iff.mpr fun f hf => answerTo_of_no_entries ?_
      obtain ⟨m, -, hf⟩ := List.mem_flatMap.mp hf
      exact entries_of_mem_answerTo hf
    rw [receiveAll_eq, hnone, foldl_absorb_of_dontHave fun f hf p => kind_of_mem_presences hl hf]
  refine ⟨_, listed, answers, _, pa.cid_eq, hl.entries_eq, hprefix, hall, hreceived, hanswered, ?_⟩
  -- a trace id may have been made up, which changes neither the wants nor the counters
  obtain ⟨traced, rfl⟩ : ∃ traced, a₁ = { a with traced } := by
    rcases (prefix_of_queues ho hq).1 with rfl | rfl
    · exact ⟨_, rfl⟩
    · exact ⟨_, newTraceId_eq a⟩
  have hwants : ({ a with traced } : Exchange σ).wants.Honours given := ha.honours
  have hdone := completedBy_answers hwants hs hl pa
  exact ⟨hdone.delivered, hdone.waiting, hdone.isPending_iff, hdone.blocksRejected⟩

/-- One node wants a block under a token without bytes, and the other has it in memory. -/
theorem two_nodes_one_block :
    let w : Want := { cid := Cid.raw [1, 2, 3], auth := some ⟨[]⟩ }
    let pa : PeerId := ⟨⟨Multihash.identity, [1], by decide⟩, .inr ⟨rfl, by decide⟩⟩
    let pb : PeerId := ⟨⟨Multihash.identity, [2], by decide⟩, .inr ⟨rfl, by decide⟩⟩
    let x : Exchange MemoryStore := .new {} {} .allowAll .disabled
    let a := (x.register ⟨0⟩ w).1.connect pb 0
    let given := [(w, (x.register ⟨0⟩ w).2)]
    let b : Exchange AnyStore :=
      .new {} (BlockStore.put (AnyStore.memory {}) Codec.raw [1, 2, 3]).1 .allowAll .disabled
    Run a given ∧ b.store.Reached ∧ (∀ q ∈ a.peers.outbox? pb, q = 0) ∧
    ∃ queued told a₁, Broadcast.Queues 0 0 (a.sendWants ⟨1⟩ [pb]) a queued told a₁ ∧
      told.sent = 1 ∧
      ∃ requester listed answers after,
        pa.cid = .ok requester ∧
        queued.flatMap Message.entries = listed.map (Entry.want · .block true) ∧
        listed <+: a.wants.list ⟨1⟩ 1 ∧ (told.sent = 1 → listed = a.wants.list ⟨1⟩ 1) ∧
        b.receiveAll pa queued = .ok (b, answers) ∧ a₁.receiveAll pb answers = .ok (after, []) ∧
        CompletedBy b (b.Supplies requester a.newTraceId.2 listed) given a after := by
  intro w pa pb x a given b
  have hx : Run x [] := .start _ _ _ _
  have ha : Run a given := (hx.step (.register ⟨0⟩ w)).step (.connect pb 0)
  have hopen : AnyStore.open none none false = .ok (.memory {}) := rfl
  have hb : b.store.Reached := .put (.opened hopen) _ _
  have hconnected : a.peers.outbox? pb = some 0 := by decide
  have ho : ∀ q ∈ a.peers.outbox? pb, q = 0 := fun q hq => Option.some.inj (hq.symm.trans hconnected)
  have hlist : a.wants.list ⟨1⟩ 1 = [w] := rfl
  have hentries : a.wantEntries ⟨1⟩ 1 ≠ [] := by
    unfold wantEntries
    rw [hlist]
    exact List.cons_ne_nil _ _
  let box : Outbox := { capacity := (a.wantFrames ⟨1⟩).length }
  have hbox : ([box] : Outboxes)[0]? = some box := rfl
  obtain ⟨told, hq, hsent⟩ := queues_of_room hconnected hentries hbox rfl rfl (Nat.le_refl _) 0
  exact ⟨ha, hb, ho, _, told, _, hq, hsent, two_nodes ha hb pa pb ho hq⟩

end
end Exchange
end BlockExchange
