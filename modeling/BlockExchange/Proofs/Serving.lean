import Mathlib.Data.List.Forall2
import BlockExchange.Delivery
import BlockExchange.Proofs.Absorption
import BlockExchange.Proofs.Packing

/-!
# What a wantlist is answered with

`Answered` says for one request what the reply is, in terms of the calls on the store and on the
authoriser and of the size of the reply's own message. `Exchange.serve` is that reply
(`answered_serve`), and `receive_answers` says that the messages which answer an inbound one hold the
replies to its requests and nothing else.
-/

namespace BlockExchange

variable {σ : Type}

namespace Reply

theorem mem_filterMap_presence? {rs : List Reply} {p : Presence} :
    p ∈ rs.filterMap presence? ↔ .presence p ∈ rs := by
  rw [List.mem_filterMap]
  constructor
  · rintro ⟨r, hr, hp⟩
    cases r with
    | presence q => rwa [← Option.some.inj hp]
    | block b => cases hp
  · intro h; exact ⟨_, h, rfl⟩

theorem mem_filterMap_block? {rs : List Reply} {b : BlockRecord} :
    b ∈ rs.filterMap block? ↔ .block b ∈ rs := by
  rw [List.mem_filterMap]
  constructor
  · rintro ⟨r, hr, hb⟩
    cases r with
    | presence q => cases hb
    | block c => rwa [← Option.some.inj hb]
  · intro h; exact ⟨_, h, rfl⟩

end Reply

namespace Request

/-- A request that repeats what an entry says. A number that stands for no want type asks for
content. -/
structure ReadFrom (e : Entry) (r : Request) : Prop where
  want : e.toWant = .ok r.want
  type : r.type = .have ↔ e.wantType = 1
  sendDontHave : r.sendDontHave = e.sendDontHave

theorem readFrom_kind {e : Entry} {w : Want} (hw : e.toWant = .ok w) :
    ReadFrom e ⟨w, e.kind, e.sendDontHave⟩ := by
  refine ⟨hw, ?_, rfl⟩
  show WantType.ofNumber e.wantType = .have ↔ _
  unfold WantType.ofNumber
  split <;> simp [*]

theorem exists_entry_of_mem_requests {entries : List Entry} {r : Request} (h : r ∈ requests entries) :
    ∃ e ∈ entries, r.ReadFrom e := by
  unfold requests at h
  induction entries with
  | nil => exact absurd h List.not_mem_nil
  | cons e entries ih =>
    have hrest (h : r ∈ (entries.foldr collect ([], [])).1) : ∃ e' ∈ e :: entries, r.ReadFrom e' := by
      obtain ⟨e', he', hr⟩ := ih h
      exact ⟨e', List.mem_cons_of_mem e he', hr⟩
    rw [List.foldr_cons, collect] at h
    split at h
    · exact hrest h
    · rename_i w hw
      split at h
      · exact hrest h
      · split at h
        · exact hrest h
        · rcases List.mem_cons.mp h with rfl | h
          · exact ⟨e, List.mem_cons_self, readFrom_kind hw⟩
          · exact hrest h

variable [BlockStore σ]

def record (r : Request) (data : Bytes) : BlockRecord where
  cidPrefix := (Prefix.ofCid r.want.cid).toBytes
  data := data
  auth := r.want.authBytes

/-- A request that is answered with content: it asks for it, the store has it and gives it out, the
requester may read it, and it fits a message of its own. -/
structure Served (s : σ) (a : Authoriser) (requester : Cid) (traceId : String) (r : Request)
    (data : Bytes) : Prop where
  type_eq : r.type = .block
  present : BlockStore.has s r.want.cid = .ok true
  allowed : a.allowRead r.want.cid requester r.want.auth = .ok true
  stored : BlockStore.get s r.want.cid = .ok (some data)
  fits : (Message.encode { payload := [r.record data], traceId }).length ≤ maxFrameSize

structure Confirmed (s : σ) (r : Request) : Prop where
  type_eq : r.type = .have
  present : BlockStore.has s r.want.cid = .ok true

/-- The reply to a request, if there is one. -/
inductive Answered (s : σ) (a : Authoriser) (requester : Cid) (traceId : String) (r : Request) :
    Option Reply → Prop
  | served {data : Bytes} (h : r.Served s a requester traceId data) :
      Answered s a requester traceId r (some (.block (r.record data)))
  | confirmed (h : r.Confirmed s) :
      Answered s a requester traceId r (some (.presence (.haveBlock r.want)))
  | denied (hs : ∀ data, ¬ r.Served s a requester traceId data) (hc : ¬ r.Confirmed s)
      (hd : r.sendDontHave = true) :
      Answered s a requester traceId r (some (.presence (.dontHaveBlock r.want)))
  | ignored (hs : ∀ data, ¬ r.Served s a requester traceId data) (hc : ¬ r.Confirmed s)
      (hd : r.sendDontHave = false) : Answered s a requester traceId r none

end Request

namespace Exchange

variable {x : Exchange σ} {requester : Cid} {traceId : String} {r : Request}

/-! ### The calls -/

theorem authorises_iff {w : Want} :
    x.authorises requester w = true ↔ x.authoriser.allowRead w.cid requester w.auth = .ok true := by
  unfold authorises; split
  · rename_i h; rw [h, Except.ok.injEq]
  · rename_i h; simp [h]

variable [BlockStore σ]

theorem contains_iff {cid : Cid} : x.contains cid = true ↔ BlockStore.has x.store cid = .ok true := by
  unfold contains; split
  · rename_i h; rw [h, Except.ok.injEq]
  · rename_i h; simp [h]

theorem fetch_eq_some_iff {cid : Cid} {data : Bytes} :
    x.fetch cid = some data ↔ BlockStore.get x.store cid = .ok (some data) := by
  unfold fetch; split
  · rename_i h; rw [h, Except.ok.injEq]
  · rename_i h; simp [h]

theorem content?_eq_some_iff {data : Bytes} :
    x.content? requester r = some data ↔
      r.type = .block ∧ BlockStore.has x.store r.want.cid = .ok true ∧
        x.authoriser.allowRead r.want.cid requester r.want.auth = .ok true ∧
        BlockStore.get x.store r.want.cid = .ok (some data) := by
  unfold content?
  rw [← contains_iff, ← authorises_iff, ← fetch_eq_some_iff, ← and_assoc, ← and_assoc]
  split
  · rename_i h
    simp only [Bool.and_eq_true, decide_eq_true_eq] at h
    exact (and_iff_right h).symm
  · rename_i h
    simp only [Bool.and_eq_true, decide_eq_true_eq] at h
    simp [h]

theorem fitsFrame_iff {b : BlockRecord} :
    fitsFrame traceId b = true ↔
      (Message.encode { payload := [b], traceId }).length ≤ maxFrameSize := by
  have h : Message.encodedLength { payload := [b], traceId } =
      Message.baseLength traceId + b.fieldLength := by
    simp [Message.encodedLength, Protobuf.numberLength, Protobuf.signed, Nat.add_comm]
  rw [Message.length_encode, h, fitsFrame, decide_eq_true_eq]

/-! ### One request -/

theorem served_iff {data : Bytes} :
    r.Served x.store x.authoriser requester traceId data ↔
      x.content? requester r = some data ∧ fitsFrame traceId (r.record data) = true := by
  rw [content?_eq_some_iff, fitsFrame_iff]
  constructor
  · rintro ⟨ht, hp, ha, hs, hf⟩; exact ⟨⟨ht, hp, ha, hs⟩, hf⟩
  · rintro ⟨⟨ht, hp, ha, hs⟩, hf⟩; exact ⟨ht, hp, ha, hs, hf⟩

theorem answered_dontHave? (hs : ∀ data, ¬ r.Served x.store x.authoriser requester traceId data)
    (hc : ¬ r.Confirmed x.store) :
    r.Answered x.store x.authoriser requester traceId (dontHave? r) := by
  unfold dontHave?; split
  · rename_i hd; exact .denied hs hc hd
  · rename_i hd; exact .ignored hs hc (Bool.eq_false_iff.mpr hd)

theorem answered_serve (x : Exchange σ) (requester : Cid) (traceId : String) (r : Request) :
    r.Answered x.store x.authoriser requester traceId (x.serve requester traceId r) := by
  unfold serve
  cases hcontent : x.content? requester r with
  | some data =>
    have ht := (content?_eq_some_iff.mp hcontent).1
    show r.Answered _ _ _ _ (if fitsFrame traceId (r.record data) then _ else _)
    split
    · rename_i hf
      exact .served (served_iff.mpr ⟨hcontent, hf⟩)
    · rename_i hf
      -- content that fits no frame is denied; the request is not for a confirmation either
      refine answered_dontHave? (fun d hd => ?_) fun hc => ?_
      · obtain ⟨hd, hfd⟩ := served_iff.mp hd
        obtain rfl : data = d := Option.some.inj (hcontent ▸ hd)
        exact hf hfd
      · rw [hc.type_eq] at ht; cases ht
  | none =>
    have hs : ∀ data, ¬ r.Served x.store x.authoriser requester traceId data := by
      intro data hd
      rw [(served_iff.mp hd).1] at hcontent; cases hcontent
    show r.Answered _ _ _ _ (if _ then _ else _)
    split
    · rename_i hc
      simp only [Bool.and_eq_true, decide_eq_true_eq] at hc
      exact .confirmed ⟨hc.1, contains_iff.mp hc.2⟩
    · rename_i hc
      simp only [Bool.and_eq_true, decide_eq_true_eq] at hc
      exact answered_dontHave? hs fun h => hc ⟨h.type_eq, contains_iff.mpr h.present⟩

/-- A request is answered with a record exactly when it is served, and the record says so. -/
theorem serve_eq_block_iff {b : BlockRecord} :
    x.serve requester traceId r = some (.block b) ↔
      ∃ data, r.Served x.store x.authoriser requester traceId data ∧ b = r.record data := by
  constructor
  · intro h
    have hanswer := answered_serve x requester traceId r
    rw [h] at hanswer
    cases hanswer with
    | served hs => exact ⟨_, hs, rfl⟩
  · rintro ⟨data, hs, rfl⟩
    obtain ⟨hcontent, hfits⟩ := served_iff.mp hs
    unfold serve
    rw [hcontent]
    exact if_pos hfits

theorem kind_of_serve_eq_presence {p : Presence} (hr : r.type = .block)
    (h : x.serve requester traceId r = some (.presence p)) : p.kind = .dontHave := by
  have hanswer := answered_serve x requester traceId r
  rw [h] at hanswer
  cases hanswer with
  | confirmed hc =>
    rw [hc.type_eq] at hr
    cases hr
  | denied => rfl

/-! ### All requests -/

theorem answered_replies (x : Exchange σ) (requester : Cid) (m : Message) :
    List.Forall₂ (Request.Answered x.store x.authoriser requester m.traceId) (requests m.entries)
      ((requests m.entries).map (x.serve requester m.traceId)) := by
  rw [List.forall₂_map_right_iff]
  exact List.forall₂_same.mpr fun r _ => answered_serve x requester m.traceId r

/-- Whatever the store and the authoriser answer, a peer is sent, in the order of its requests, the
content, confirmations and denials that `Request.Answered` states, under its own trace id, and
nothing if there is none of these. -/
theorem receive_answers (x : Exchange σ) (peer : PeerId) (m : Message) :
    ∃ requester y frames answers,
      peer.cid = .ok requester ∧ x.receive peer m = .ok (y, frames) ∧
      (∀ {κ : Type} (send : κ → Message → κ × Receipt) (c : κ),
        (∀ c f, (send c f).2 = .accepted) →
        deliver send c frames = (frames.foldl (fun c f => (send c f).1) c, .done)) ∧
      (∀ f ∈ frames, f.entries = [] ∧ f.traceId = m.traceId) ∧
      (∀ r ∈ requests m.entries, ∃ e ∈ m.entries, r.ReadFrom e) ∧
      List.Forall₂ (Request.Answered x.store x.authoriser requester m.traceId)
        (requests m.entries) answers ∧
      frames.flatMap Message.presences = answers.filterMap (·.bind Reply.presence?) ∧
      frames.flatMap Message.payload = answers.filterMap (·.bind Reply.block?) ∧
      (frames = [] ↔ ∀ a ∈ answers, a = none) := by
  have hreplies := answered_replies x (Cid.v1 Codec.peerKey peer.hash) m
  set answers := (requests m.entries).map (x.serve (Cid.v1 Codec.peerKey peer.hash) m.traceId)
    with hanswers
  have hof : ∀ {α : Type} (f : Reply → Option α),
      (x.replies (Cid.v1 Codec.peerKey peer.hash) m).filterMap f = answers.filterMap (·.bind f) := by
    intro α f
    rw [hanswers, replies, List.filterMap_filterMap, List.filterMap_map]
    rfl
  refine ⟨_, _, _, answers, peer.cid_eq, receive_eq x peer m, fun send c h => deliver_of_accepts h c _, ?_,
    fun r => Request.exists_entry_of_mem_requests, hreplies, ?_, ?_, ?_⟩
  · intro f hf
    refine ⟨?_, (stamped_of_mem_pack _ _ _ _ _ f hf).traceId_eq⟩
    exact List.flatMap_eq_nil_iff.mp (flatMap_pack_entries ..) f hf
  · rw [packReplies, flatMap_pack_presences, hof]
  · rw [packReplies, flatMap_pack_payload, hof]
  · rw [packReplies, pack_eq_nil_iff, hof, hof, List.filterMap_eq_nil_iff, List.filterMap_eq_nil_iff]
    constructor
    · rintro ⟨-, hp, hb⟩ (_ | _ | _) ha
      · rfl
      · cases hp _ ha
      · cases hb _ ha
    · intro h
      exact ⟨rfl, fun a ha => by rw [h a ha]; rfl, fun a ha => by rw [h a ha]; rfl⟩

end Exchange
end BlockExchange
