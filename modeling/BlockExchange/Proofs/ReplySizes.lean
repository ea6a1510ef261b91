import BlockExchange.Frame
import BlockExchange.Proofs.CidBytes
import BlockExchange.Proofs.ExchangeRun
import BlockExchange.Proofs.InboundCost
import BlockExchange.Proofs.PackedSizes
import BlockExchange.Proofs.Serving
import BlockExchange.Store.Memory

/-!
# Replies fit a frame

A block is sent only if it fits a frame with the trace id. A presence is sent without a look at its
size: it repeats the name and the token of an entry, and takes no more bytes than the entry did
(`fieldLength_ofWant_le`). So every reply fits a frame of its own, and since no exchange packs more
than a frame holds, so does every message (`replies_fit`).
-/

namespace BlockExchange

open Protobuf

theorem bytesLength_mono {s t m n : Nat} (hs : s < 16) (ht : t < 16) (h : m ≤ n) :
    bytesLength s m ≤ bytesLength t n := by
  have hmono := Varint.length_mono h
  unfold bytesLength delimitedLength
  rw [length_key hs, length_key ht]
  split
  · exact Nat.zero_le _
  · rw [if_neg (by omega)]
    omega

/-! ### Presences -/

namespace Presence

/-- Only word that a block is not here has a number to write, and it goes only to those who set the
flag that asks for it. -/
theorem numberLength_le {type : PresenceType} {asked : Bool} (h : type = .dontHave → asked = true) :
    numberLength 2 (signed type.toNumber) ≤ flagLength 5 asked := by
  cases type with
  | «have» => exact Nat.zero_le _
  | dontHave =>
    rw [h rfl]
    unfold flagLength numberLength
    rw [length_key (by decide), length_key (by decide)]
    exact Nat.le_refl _

/-- A presence is not longer than the entry whose want it repeats. -/
theorem fieldLength_ofWant_le {e : Entry} {w : Want} (hw : e.toWant = .ok w) {type : PresenceType}
    (hd : type = .dontHave → e.sendDontHave = true) :
    (ofWant w type).fieldLength ≤ e.echoFieldLength := by
  obtain ⟨cid, hcid, rfl⟩ := Entry.toWant_eq_ok_iff.mp hw
  have hname : bytesLength 1 cid.toBytes.length ≤ bytesLength 1 e.block.length :=
    bytesLength_mono (by decide) (by decide) (Cid.length_toBytes_le hcid)
  have hnumber := numberLength_le hd
  have hauth : bytesLength 3 (Want.ofWire cid e.auth).authBytes.length = bytesLength 6 e.auth.length := by
    rw [Want.authBytes_ofWire]
    unfold bytesLength delimitedLength
    rw [length_key (by decide), length_key (by decide)]
  have hlen : (ofWant (.ofWire cid e.auth) type).encodedLength ≤ e.echoLength := by
    show bytesLength 1 cid.toBytes.length + numberLength 2 (signed type.toNumber) +
      bytesLength 3 (Want.ofWire cid e.auth).authBytes.length ≤ e.echoLength
    unfold Entry.echoLength
    omega
  have hmono := Varint.length_mono hlen
  unfold fieldLength Entry.echoFieldLength delimitedLength
  rw [length_key (by decide), length_key (by decide)]
  omega

end Presence

/-! ### Replies -/

namespace Reply

def fieldLength : Reply → Nat
  | .presence p => p.fieldLength
  | .block b => b.fieldLength

end Reply

namespace Exchange

variable {σ : Type} {x : Exchange σ} {given : List (Want × WantFuture)}

/-- Messages that replies are packed into fit a frame if each reply does. -/
theorem fits_of_mem_packReplies {traceId : String} {rs : List Reply}
    (hmax : x.maxMessageSize ≤ maxFrameSize)
    (hrs : ∀ a ∈ rs, a.fieldLength + Message.baseLength traceId ≤ maxFrameSize) :
    ∀ f ∈ x.packReplies traceId rs, f.encodedLength ≤ maxFrameSize := by
  intro f hf
  rcases pack_within _ _ _ _ _ f hf with hle | hone
  · exact Nat.le_trans hle hmax
  · have he : f.entries = [] :=
      List.flatMap_eq_nil_iff.mp (flatMap_pack_entries _ _ _ _ _) f hf
    have hp : ∀ p ∈ f.presences, .presence p ∈ rs := fun p hp => by
      have hmem := List.mem_flatMap_of_mem hf hp
      rw [packReplies, flatMap_pack_presences] at hmem
      exact Reply.mem_filterMap_presence?.mp hmem
    have hr : ∀ r ∈ f.payload, .block r ∈ rs := fun r hr => by
      have hmem := List.mem_flatMap_of_mem hf hr
      rw [packReplies, flatMap_pack_payload] at hmem
      exact Reply.mem_filterMap_block?.mp hmem
    rw [encodedLength_of_mem_pack _ _ hf]
    unfold Message.recordCount at hone
    unfold Message.recordsLength
    rw [he] at hone ⊢
    cases hps : f.presences with
    | nil =>
      obtain ⟨r, hrs'⟩ := List.length_eq_one_iff.mp (show f.payload.length = 1 by simpa [hps] using hone)
      have hfit := hrs _ (hr r (hrs' ▸ List.mem_singleton_self r))
      rw [hrs']
      exact (Nat.zero_add _).symm ▸ hfit
    | cons p ps =>
      have hcount : ps.length + f.payload.length = 0 := by
        simp only [hps, List.length_cons, List.length_nil] at hone
        omega
      obtain rfl := List.eq_nil_of_length_eq_zero (show ps.length = 0 by omega)
      rw [List.eq_nil_of_length_eq_zero (show f.payload.length = 0 by omega)]
      have hfit := hrs _ (hp p (hps ▸ List.mem_singleton_self p))
      exact (Nat.zero_add _).symm ▸ hfit

variable [BlockStore σ]

/-- A reply fits a frame of its own if the message that it answers came in one. -/
theorem fits_of_mem_replies {b : Bytes} {m : Message} (hb : b.length ≤ maxFrameSize)
    (hm : Message.decode b = .ok m) {requester : Cid} {a : Reply} (ha : a ∈ x.replies requester m) :
    a.fieldLength + Message.baseLength m.traceId ≤ maxFrameSize := by
  obtain ⟨r, hr, hserve⟩ := List.mem_filterMap.mp ha
  obtain ⟨e, he, hread⟩ := Request.exists_entry_of_mem_requests hr
  have hecho : e.echoFieldLength + Message.baseLength m.traceId ≤ b.length := by
    have hentry := le_total_of_mem he Entry.echoFieldLength
    have hmessage := Message.echoLength_le hm
    unfold Message.echoLength at hmessage
    omega
  have hanswer := answered_serve x requester m.traceId r
  rw [hserve] at hanswer
  cases hanswer with
  | served h =>
    have hfits := fitsFrame_iff.mpr h.fits
    unfold fitsFrame at hfits
    rw [decide_eq_true_eq] at hfits
    show BlockRecord.fieldLength _ + _ ≤ _
    omega
  | confirmed h =>
    have hlen : (Presence.haveBlock r.want).fieldLength ≤ e.echoFieldLength :=
      Presence.fieldLength_ofWant_le hread.want nofun
    show Presence.fieldLength _ + _ ≤ _
    omega
  | denied hs hc hd =>
    have hlen : (Presence.dontHaveBlock r.want).fieldLength ≤ e.echoFieldLength :=
      Presence.fieldLength_ofWant_le hread.want fun _ => hread.sendDontHave ▸ hd
    show Presence.fieldLength _ + _ ≤ _
    omega

/-! ### The limit of an exchange -/

theorem Step.maxMessageSize_eq {y : Exchange σ} {more : List (Want × WantFuture)}
    (hs : Step x y more) : y.maxMessageSize = x.maxMessageSize := by
  cases hs with
  | getBlocks now ws peers addToLocal =>
    show (x.findSlots now ws).1.maxMessageSize = _
    rw [findSlots_eq]
  | gather addToLocal slots => rw [gather_eq]
  | receive hy =>
    rw [receive_eq] at hy
    obtain ⟨rfl, -⟩ := Prod.mk.inj (Except.ok.inj hy)
    rw [absorb_eq, foldl_absorbBlock_eq]
  | newTraceId => rw [newTraceId_eq]
  | register | wantBlock | connect | disconnect | disconnectIfSame | noteSent | noteReceived
  | storeChange | giveUp | rearrange => rfl

/-- Whatever size is configured, no exchange packs more than a frame holds. -/
theorem Run.maxMessageSize_le (h : Run x given) : x.maxMessageSize ≤ maxFrameSize := by
  induction h with
  | start settings store authoriser trace => exact Nat.min_le_right _ _
  | step _ hs ih => rw [hs.maxMessageSize_eq]; exact ih

/-- However the bytes of an inbound frame spell a message, every message that answers it fits a frame,
and a codec with that limit writes it. -/
theorem replies_fit (h : Run x given) (peer : PeerId) {b : Bytes} {m : Message}
    (hb : b.length ≤ maxFrameSize) (hm : Message.decode b = .ok m) :
    ∃ y frames, x.receive peer m = .ok (y, frames) ∧
      ∀ f ∈ frames, f.encode.length ≤ maxFrameSize ∧
        ∀ (c : FrameCodec) (buffer : Bytes), c.maxSize = maxFrameSize →
          c.append f buffer = (buffer ++ FrameCodec.frame f.encode, .ok ()) := by
  refine ⟨_, _, receive_eq x peer m, fun f hf => ?_⟩
  have hfit := fits_of_mem_packReplies h.maxMessageSize_le (fun a => fits_of_mem_replies hb hm) f hf
  refine ⟨f.length_encode ▸ hfit, fun c buffer hc => ?_⟩
  have hheader : maxFrameSize ≤ FrameCodec.maxHeader := by decide
  unfold FrameCodec.append
  rw [hc, if_neg (Nat.not_lt.mpr hfit), if_neg (Nat.not_lt.mpr (Nat.le_trans hfit hheader))]

/-- A request for an unknown block in which the entry's length and the flag take more bytes than they
need and a byte follows the name. -/
theorem replies_fit_long_spelling :
    let x : Exchange MemoryStore := .new { maxMessageSize := 0 } {} .allowAll .disabled
    let peer : PeerId := ⟨⟨Multihash.identity, [1, 2], by decide⟩, .inr ⟨rfl, by decide⟩⟩
    let b : Bytes := [0x0a, 0x11, 0x0a, 0x8e, 0x00, 0x0a, 0x06, 0x01, 0x55, 0x00, 0x01, 0x07, 0xff,
      0x28, 0x81, 0x00, 0x32, 0x01, 0x09, 0x32, 0x01, 0x61]
    let m : Message :=
      { wantlist := some { entries :=
          [{ block := [0x01, 0x55, 0x00, 0x01, 0x07, 0xff], sendDontHave := true, auth := [9] }] }
        traceId := "a" }
    Run x [] ∧ b.length ≤ maxFrameSize ∧ Message.decode b = .ok m ∧
      ∃ y frames, x.receive peer m = .ok (y, frames) ∧
        ∀ f ∈ frames, f.encode.length ≤ maxFrameSize ∧
          ∀ (c : FrameCodec) (buffer : Bytes), c.maxSize = maxFrameSize →
            c.append f buffer = (buffer ++ FrameCodec.frame f.encode, .ok ()) := by
  intro x peer b m
  have hx : Run x [] := .start _ _ _ _
  have hb : b.length ≤ maxFrameSize := by decide
  have hm : Message.decode b = .ok m := by decide +kernel
  exact ⟨hx, hb, hm, replies_fit hx peer hb hm⟩

end Exchange
end BlockExchange
