import BlockExchange.Proofs.Cancelling
import BlockExchange.Proofs.FileNames
import BlockExchange.Proofs.ReplySizes
import BlockExchange.Proofs.RoundTrip
import BlockExchange.Store.Memory

/-!
# Wants on the wire

The records for a want are read back as they were written (`Entry.carries_want` and its kin), and the
want that is read in them is the one that they were made for, but for a token without bytes, which is
no token on the wire (`Want.asRead`). So a peer takes two wants for one exactly when they differ in
nothing else (`Want.asRead_eq_iff`). When a peer is asked who has the block of a want and says that it
does, its word is noted down under the want as it was read (`wants_keep_identity`).
-/

namespace BlockExchange

open Protobuf

namespace Want
variable {v w : Want}

/-- What a want is read as behind the wire. -/
def asRead (w : Want) : Want :=
  .ofWire w.cid w.authBytes

@[simp] theorem authBytes_asRead (w : Want) : w.asRead.authBytes = w.authBytes :=
  authBytes_ofWire ..

theorem asRead_of_none (h : w.auth = none) : w.asRead = w := by
  obtain ⟨cid, auth⟩ := w
  obtain rfl : auth = none := h
  rfl

theorem asRead_of_some {b : Bytes} (h : w.auth = some ⟨b⟩) (hb : b ≠ []) : w.asRead = w := by
  obtain ⟨cid, auth⟩ := w
  obtain rfl : auth = some ⟨b⟩ := h
  show (⟨cid, AuthToken.ofWire b⟩ : Want) = _
  rw [AuthToken.ofWire, if_neg (by simpa using hb)]

theorem asRead_of_empty (h : w.auth = some ⟨[]⟩) : w.asRead = { w with auth := none } := by
  obtain ⟨cid, auth⟩ := w
  obtain rfl : auth = some ⟨[]⟩ := h
  rfl

theorem asRead_eq_self_iff : w.asRead = w ↔ w.auth ≠ some ⟨[]⟩ := by
  constructor
  · intro h hempty
    rw [asRead_of_empty hempty] at h
    rw [← h] at hempty
    cases hempty
  · intro h
    cases hauth : w.auth with
    | none => exact asRead_of_none hauth
    | some t => exact asRead_of_some hauth fun hb => h (by rw [hauth, ← hb])

/-- Wants for one block of which one has no token and the other a token without bytes. -/
def ApartInEmptyToken (v w : Want) : Prop :=
  v.cid = w.cid ∧ (v.auth = none ∧ w.auth = some ⟨[]⟩ ∨ v.auth = some ⟨[]⟩ ∧ w.auth = none)

theorem asRead_eq_iff : v.asRead = w.asRead ↔ v = w ∨ v.ApartInEmptyToken w := by
  constructor
  · intro h
    have hcid : v.asRead.cid = w.asRead.cid := congrArg Want.cid h
    change v.cid = w.cid at hcid
    by_cases hv : v.auth = some ⟨[]⟩ <;> by_cases hw : w.auth = some ⟨[]⟩
    · left
      rw [← show (⟨v.cid, v.auth⟩ : Want) = v from rfl, hv, hcid, ← hw]
    · rw [asRead_of_empty hv, asRead_eq_self_iff.mpr hw] at h
      exact .inr ⟨hcid, .inr ⟨hv, by rw [← h]⟩⟩
    · rw [asRead_eq_self_iff.mpr hv, asRead_of_empty hw] at h
      exact .inr ⟨hcid, .inl ⟨by rw [h], hw⟩⟩
    · rw [asRead_eq_self_iff.mpr hv, asRead_eq_self_iff.mpr hw] at h
      exact .inl h
  · rintro (rfl | ⟨hcid, ⟨hv, hw⟩ | ⟨hv, hw⟩⟩)
    · rfl
    · rw [asRead_of_none hv, asRead_of_empty hw, ← hcid, ← hv]
    · rw [asRead_of_empty hv, asRead_of_none hw, hcid, ← hw]

end Want

/-! ### Records -/

namespace Entry
variable {w : Want}

/-- The entry is read back from its bytes, and names the want. -/
structure Carries (e : Entry) (w : Want) : Prop where
  decode_encode : schema.decode {} e.encode = .ok e
  toWant_eq : e.toWant = .ok w

theorem carries_want (hw : w.authBytes.length < UInt64.size) (type : WantType)
    (sendDontHave : Bool) : (want w type sendDontHave).Carries w.asRead where
  decode_encode :=
    (fields_of_lt _ (Nat.lt_of_le_of_lt w.cid.length_toBytes_bounded (by decide)) hw _).decode
  toWant_eq := toWant_want ..

theorem carries_cancelling (hw : w.authBytes.length < UInt64.size) :
    (cancelling w).Carries w.asRead where
  decode_encode :=
    (fields_of_lt _ (Nat.lt_of_le_of_lt w.cid.length_toBytes_bounded (by decide)) hw _).decode
  toWant_eq := toWant_want w .block false

end Entry

namespace Presence
variable {w : Want}

/-- The presence is read back from its bytes, and names the want. -/
structure Carries (p : Presence) (w : Want) : Prop where
  decode_encode : schema.decode {} p.encode = .ok p
  toWant_eq : p.toWant = .ok w

theorem toWant_ofWant (w : Want) (type : PresenceType) : (ofWant w type).toWant = .ok w.asRead := by
  show (Cid.ofBytes w.cid.toBytes >>= fun cid => pure (Want.ofWire cid w.authBytes)) = _
  rw [w.cid.ofBytes_toBytes]
  rfl

theorem carries_ofWant (hw : w.authBytes.length < UInt64.size) (type : PresenceType) :
    (ofWant w type).Carries w.asRead where
  decode_encode :=
    (fields_of_lt _ (Nat.lt_of_le_of_lt w.cid.length_toBytes_bounded (by decide)) hw _).decode
  toWant_eq := toWant_ofWant ..

/-- A peer that tells of the want that it has read writes the record that the asker would write. -/
theorem ofWant_asRead (w : Want) (type : PresenceType) : ofWant w.asRead type = ofWant w type := by
  show (⟨w.cid.toBytes, type.toNumber, w.asRead.authBytes⟩ : Presence) = _
  rw [w.authBytes_asRead]
  rfl

end Presence

/-! ### Asking -/

/-- The message asks who has the block of the want, and what follows does not take that back. -/
def Message.Asks (m : Message) (w : Want) : Prop :=
  ∃ before sendDontHave after, m.entries = before ++ Entry.want w .have sendDontHave :: after ∧
    ∀ e ∈ after, e.cancel = true → e.toWant ≠ .ok w.asRead

theorem Message.Asks.exists_request {m : Message} {w : Want} (h : m.Asks w) :
    ∃ r ∈ requests m.entries, r.want = w.asRead ∧ r.type = .have := by
  obtain ⟨before, sendDontHave, after, hentries, hafter⟩ := h
  refine ⟨⟨w.asRead, .have, sendDontHave⟩, ?_, rfl, rfl⟩
  rw [hentries]
  refine Request.requests_subset_append before _ ?_
  have hread := Request.readFrom_kind (Entry.toWant_want w .have sendDontHave)
  have hkept : ¬ Cancels after w.asRead := by
    rintro ⟨e, he, hcancel, hfor⟩
    exact hafter e he hcancel (Entry.toWant_eq_ok_iff_isFor.mpr hfor)
  rw [Request.requests_cons_of_stands ⟨rfl, hread, hkept⟩]
  exact List.mem_cons_self

/-! ### Noting down who has what -/

namespace Exchange

section
variable {σ : Type} {x : Exchange σ} {peer : PeerId} {v : Want} {ps : List Presence}

theorem lookup_absorbPresence_of_said {p : Presence} (hkind : p.kind = .have)
    (hwant : p.toWant = .ok v) (hv : x.wants.isPending v = true) :
    (absorbPresence peer x p).haves.lookup v = some peer := by
  unfold absorbPresence
  simp only [hkind, hwant, hv, if_true]
  rw [HaveTable.lookup_record, if_pos rfl]

theorem lookup_absorbPresence_cases (peer : PeerId) (x : Exchange σ) (p : Presence) (v : Want) :
    (absorbPresence peer x p).haves.lookup v = x.haves.lookup v ∨
      p.kind = .have ∧ p.toWant = .ok v ∧ x.wants.isPending v = true ∧
        (absorbPresence peer x p).haves.lookup v = some peer := by
  unfold absorbPresence
  split
  · rename_i w hkind hwant
    split
    · rename_i hpending
      by_cases hvw : v = w
      · obtain rfl := hvw
        exact .inr ⟨hkind, hwant, hpending, by rw [HaveTable.lookup_record, if_pos rfl]⟩
      · exact .inl (by rw [HaveTable.lookup_record, if_neg hvw])
    · exact .inl rfl
  · exact .inl rfl

theorem wants_absorbPresence (peer : PeerId) (x : Exchange σ) (p : Presence) :
    (absorbPresence peer x p).wants = x.wants := by
  rw [absorbPresence_eq]

/-- Once it is noted that the peer has a block, nothing else that it says takes that back. -/
theorem lookup_foldl_of_noted (h : x.haves.lookup v = some peer) (ps : List Presence) :
    (ps.foldl (absorbPresence peer) x).haves.lookup v = some peer := by
  induction ps generalizing x with
  | nil => exact h
  | cons p ps ih =>
    refine ih ?_
    rcases lookup_absorbPresence_cases peer x p v with hsame | ⟨-, -, -, hnoted⟩
    · rw [hsame, h]
    · exact hnoted

theorem lookup_foldl_of_said {p : Presence} (hp : p ∈ ps) (hkind : p.kind = .have)
    (hwant : p.toWant = .ok v) (hv : x.wants.isPending v = true) :
    (ps.foldl (absorbPresence peer) x).haves.lookup v = some peer := by
  induction ps generalizing x with
  | nil => cases hp
  | cons q ps ih =>
    rcases List.mem_cons.mp hp with rfl | hp
    · exact lookup_foldl_of_noted (lookup_absorbPresence_of_said hkind hwant hv) ps
    · exact ih hp (by rw [wants_absorbPresence]; exact hv)

theorem exists_said_of_lookup_foldl
    (h : (ps.foldl (absorbPresence peer) x).haves.lookup v ≠ x.haves.lookup v) :
    ∃ p ∈ ps, p.kind = .have ∧ p.toWant = .ok v := by
  induction ps generalizing x with
  | nil => exact absurd rfl h
  | cons p ps ih =>
    rcases lookup_absorbPresence_cases peer x p v with hsame | ⟨hkind, hwant, -, -⟩
    · rw [← hsame] at h
      obtain ⟨q, hq, hsaid⟩ := ih h
      exact ⟨q, List.mem_cons_of_mem p hq, hsaid⟩
    · exact ⟨p, List.mem_cons_self, hkind, hwant⟩

/-- What a message makes of who has what: word of a block that is wanted is noted under the want that
it names, and nothing is noted under another want. -/
structure Notes (x : Exchange σ) (peer : PeerId) (m : Message) (y : Exchange σ) : Prop where
  noted : ∀ p ∈ m.presences, ∀ v, p.kind = .have → p.toWant = .ok v → y.wants.isPending v = true →
    y.haves.lookup v = some peer
  said : ∀ v, y.haves.lookup v ≠ x.haves.lookup v → ∃ p ∈ m.presences, p.kind = .have ∧ p.toWant = .ok v

theorem notes_absorb (x : Exchange σ) (peer : PeerId) (m : Message) :
    x.Notes peer m (x.absorb peer m) where
  noted p hp v hkind hwant hv := by
    rw [absorb_eq] at hv
    exact lookup_foldl_of_said hp hkind hwant hv
  said v h := by
    have hblocks : (m.payload.foldl absorbBlock x).haves = x.haves := by rw [foldl_absorbBlock_eq]
    rw [← hblocks] at h
    exact exists_said_of_lookup_foldl h

end

section
variable {σ τ : Type} [BlockStore σ] [BlockStore τ]

/-- A node that has the block of a want says so when it is asked, and every message with its answers
fits a frame. -/
theorem exists_have_answer {y : Exchange τ} {m : Message} {w : Want}
    (hmax : y.maxMessageSize ≤ maxFrameSize) (hm : m.Asks w) (hfit : m.encodedLength ≤ maxFrameSize)
    (hy : BlockStore.has y.store w.cid = .ok true) (asker : PeerId) :
    ∃ y' frames, y.receive asker m = .ok (y', frames) ∧
      ∃ f ∈ frames, Presence.haveBlock w ∈ f.presences ∧ f.encodedLength ≤ maxFrameSize := by
  obtain ⟨r, hr, hwant, htype⟩ := hm.exists_request
  have hserve : y.serve (Cid.v1 Codec.peerKey asker.hash) m.traceId r =
      some (.presence (.haveBlock w)) := by
    have hcontent : y.content? (Cid.v1 Codec.peerKey asker.hash) r = none := by
      unfold content?
      rw [htype]
      rfl
    have hhas : y.contains r.want.cid = true := contains_iff.mpr (by rw [hwant]; exact hy)
    have hsame : Presence.haveBlock r.want = .haveBlock w := by
      rw [hwant]
      exact Presence.ofWant_asRead w .have
    unfold serve
    simp only [hcontent, htype, hhas, decide_true, Bool.and_self, if_true, hsame]
  have hmem : Presence.haveBlock w ∈ (y.packReplies m.traceId
      (y.replies (Cid.v1 Codec.peerKey asker.hash) m)).flatMap Message.presences := by
    rw [packReplies, flatMap_pack_presences, Reply.mem_filterMap_presence?]
    exact List.mem_filterMap.mpr ⟨r, hr, hserve⟩
  obtain ⟨f, hf, hanswer⟩ := List.mem_flatMap.mp hmem
  have hread : Message.decode m.encode = .ok m :=
    m.decode_encode (Nat.lt_of_le_of_lt hfit (by decide))
  exact ⟨_, _, y.receive_eq asker m, f, hf, hanswer, fits_of_mem_packReplies hmax
    (fun a => fits_of_mem_replies (m.length_encode.trans_le hfit) hread) f hf⟩

/-- Every record for a want is read back as it was written, and as that want, unless its token has no
bytes: then it is read as having none, and no two wants but such are taken for one. Who has the block
and is asked for it says so, and the word is noted down under the want as it was read, if that is
pending then. -/
theorem wants_keep_identity (w : Want) (hw : w.authBytes.length < UInt64.size) :
    (∀ type sendDontHave, (Entry.want w type sendDontHave).Carries w.asRead) ∧
    (Entry.cancelling w).Carries w.asRead ∧
    (Presence.haveBlock w).Carries w.asRead ∧ (Presence.dontHaveBlock w).Carries w.asRead ∧
    (w.asRead = w ↔ w.auth ≠ some ⟨[]⟩) ∧
    (∀ v : Want, v.asRead = w.asRead ↔ v = w ∨ v.ApartInEmptyToken w) ∧
    ∀ (x : Exchange σ) (y : Exchange τ) (asker holder : PeerId) (m : Message),
      y.maxMessageSize ≤ maxFrameSize → m.Asks w → m.encodedLength ≤ maxFrameSize →
      BlockStore.has y.store w.cid = .ok true →
      ∃ asked y' frames f answer x' replies,
        Message.decode m.encode = .ok asked ∧ y.receive asker asked = .ok (y', frames) ∧
        f ∈ frames ∧ Presence.haveBlock w ∈ f.presences ∧
        Message.decode f.encode = .ok answer ∧ x.receive holder answer = .ok (x', replies) ∧
        x.Notes holder answer x' ∧
        (x'.wants.isPending w.asRead = true → x'.haves.lookup w.asRead = some holder) := by
  refine ⟨Entry.carries_want hw, Entry.carries_cancelling hw, Presence.carries_ofWant hw .have,
    Presence.carries_ofWant hw .dontHave, Want.asRead_eq_self_iff, fun v => Want.asRead_eq_iff,
    fun x y asker holder m hmax hm hfit hy => ?_⟩
  have hsize : maxFrameSize < UInt64.size := by decide
  obtain ⟨y', frames, hreceive, f, hf, hanswer, hfit'⟩ := exists_have_answer hmax hm hfit hy asker
  have hnotes := x.notes_absorb holder f
  exact ⟨m, y', frames, f, f, _, _, m.decode_encode (Nat.lt_of_le_of_lt hfit hsize), hreceive, hf,
    hanswer, f.decode_encode (Nat.lt_of_le_of_lt hfit' hsize), x.receive_eq holder f, hnotes,
    hnotes.noted _ hanswer _ rfl (Presence.toWant_ofWant w .have)⟩

/-- A want under a token of one byte, which another node has the block of. -/
theorem wants_keep_identity_one_byte :
    let w : Want := ⟨.raw [104, 101, 108, 108, 111], some ⟨[9]⟩⟩
    let asker : PeerId := ⟨⟨Multihash.identity, [1], by decide⟩, .inr ⟨rfl, by decide⟩⟩
    let holder : PeerId := ⟨⟨Multihash.identity, [2], by decide⟩, .inr ⟨rfl, by decide⟩⟩
    let x : Exchange MemoryStore := ((Exchange.new {} {} .allowAll .disabled).register ⟨0⟩ w).1
    let y : Exchange MemoryStore := .new {}
      (BlockStore.put ({} : MemoryStore) Codec.raw [104, 101, 108, 108, 111]).1 .allowAll .disabled
    let m : Message := { wantlist := some { entries := [.want w .have true] } }
    w.authBytes.length < UInt64.size ∧ y.maxMessageSize ≤ maxFrameSize ∧ m.Asks w ∧
      m.encodedLength ≤ maxFrameSize ∧ BlockStore.has y.store w.cid = .ok true ∧ w.asRead = w ∧
      (Entry.want w .have true).Carries w ∧
      ∃ asked y' frames f answer x' replies,
        Message.decode m.encode = .ok asked ∧ y.receive asker asked = .ok (y', frames) ∧
        f ∈ frames ∧ Presence.haveBlock w ∈ f.presences ∧
        Message.decode f.encode = .ok answer ∧ x.receive holder answer = .ok (x', replies) ∧
        (x'.wants.isPending w = true → x'.haves.lookup w = some holder) := by
  intro w asker holder x y m
  have hw : w.authBytes.length < UInt64.size := by decide
  have hmax : y.maxMessageSize ≤ maxFrameSize := by decide
  have hm : m.Asks w := ⟨[], true, [], rfl, nofun⟩
  have hfit : m.encodedLength ≤ maxFrameSize := by decide +kernel
  have hy : BlockStore.has y.store w.cid = .ok true :=
    congrArg Except.ok (show y.store.blocks.contains w.cid = true by decide +kernel)
  obtain ⟨hentry, -, -, -, hself, -, hexchange⟩ :=
    wants_keep_identity (σ := MemoryStore) (τ := MemoryStore) w hw
  have hsame : w.asRead = w := hself.mpr (by decide)
  obtain ⟨asked, y', frames, f, answer, x', replies, hasked, hreceive, hf, hhave, hanswer, hx, -,
    hnoted⟩ := hexchange x y asker holder m hmax hm hfit hy
  rw [hsame] at hentry hnoted
  exact ⟨hw, hmax, hm, hfit, hy, hsame, hentry .have true, asked, y', frames, f, answer, x', replies,
    hasked, hreceive, hf, hhave, hanswer, hx, hnoted⟩

/-- A want under a token without bytes is read as one without a token in all its records, and word
that a peer has its block is not noted down under it, although it is pending. -/
theorem empty_token_not_kept :
    let w : Want := ⟨.raw [104, 101, 108, 108, 111], some ⟨[]⟩⟩
    let v : Want := ⟨.raw [104, 101, 108, 108, 111], none⟩
    let holder : PeerId := ⟨⟨Multihash.identity, [2], by decide⟩, .inr ⟨rfl, by decide⟩⟩
    let x : Exchange MemoryStore := ((Exchange.new {} {} .allowAll .disabled).register ⟨0⟩ w).1
    let m : Message := { presences := [.haveBlock w] }
    v ≠ w ∧ (Entry.want w .have true).Carries v ∧ (Entry.cancelling w).Carries v ∧
      (Presence.haveBlock w).Carries v ∧ (Presence.dontHaveBlock w).Carries v ∧
      ∃ x' replies, x.receive holder m = .ok (x', replies) ∧
        x'.wants.isPending w = true ∧ x'.haves.lookup w = none := by
  intro w v holder x m
  have hw : w.authBytes.length < UInt64.size := by decide
  have hread : w.asRead = v := Want.asRead_of_empty rfl
  have hne : v ≠ w := fun h => nomatch congrArg Want.auth h
  refine ⟨hne, hread ▸ Entry.carries_want hw .have true, hread ▸ Entry.carries_cancelling hw,
    hread ▸ Presence.carries_ofWant hw .have, hread ▸ Presence.carries_ofWant hw .dontHave, _, _,
    x.receive_eq holder m, ?_, ?_⟩
  · decide +kernel
  · decide +kernel

end

end Exchange
end BlockExchange
