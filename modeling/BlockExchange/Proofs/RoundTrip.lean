import BlockExchange.Frame
import BlockExchange.Proofs.FieldRuns

/-!
# Messages and frames read back

What a record's writer writes is a run of the record's fields that leads from the empty record to the
record itself (`fields` for each). So every message that a frame can hold is decoded to itself
(`Message.decode_encode`), and a codec takes exactly the frame that another one wrote off the buffer
again (`FrameCodec.decode_append`).
-/

namespace BlockExchange

open Protobuf Schema

/-! ### Records -/

/-- No number in front of a byte string of the record is too large to be read. -/
theorem Entry.fields_of_lt (e : Entry) (hblock : e.block.length < UInt64.size)
    (hauth : e.auth.length < UInt64.size) (depth : Nat) : schema.Fields depth e.encode {} e := by
  have hrun : schema.Fields depth _ {} _ :=
    (((((Fields.bytes 1 (fun e x => { e with block := x }) (by decide) rfl rfl e.block
      hblock).append
    (.signed 2 (fun e x => { e with priority := x }) (by decide) rfl rfl e.priority)).append
    (.flag 3 (fun e x => { e with cancel := x }) (by decide) rfl rfl e.cancel)).append
    (.signed 4 (fun e x => { e with wantType := x }) (by decide) rfl rfl e.wantType)).append
    (.flag 5 (fun e x => { e with sendDontHave := x }) (by decide) rfl rfl e.sendDontHave)).append
    (.bytes 6 (fun e x => { e with auth := x }) (by decide) rfl rfl e.auth hauth)
  exact hrun

theorem Entry.fields (e : Entry) (h : e.encodedLength < UInt64.size) (depth : Nat) :
    schema.Fields depth e.encode {} e := by
  have hblock := le_bytesLength 1 e.block.length
  have hauth := le_bytesLength 6 e.auth.length
  unfold encodedLength at h
  exact e.fields_of_lt (by omega) (by omega) depth

theorem BlockRecord.fields (b : BlockRecord) (h : b.encodedLength < UInt64.size) (depth : Nat) :
    schema.Fields depth b.encode {} b := by
  have hprefix := le_bytesLength 1 b.cidPrefix.length
  have hdata := le_bytesLength 2 b.data.length
  have hauth := le_bytesLength 3 b.auth.length
  unfold encodedLength at h
  have hrun : schema.Fields depth _ {} _ :=
    ((Fields.bytes 1 (fun b x => { b with cidPrefix := x }) (by decide) rfl rfl b.cidPrefix
      (by omega)).append
    (.bytes 2 (fun b x => { b with data := x }) (by decide) rfl rfl b.data (by omega))).append
    (.bytes 3 (fun b x => { b with auth := x }) (by decide) rfl rfl b.auth (by omega))
  exact hrun

theorem Presence.fields_of_lt (p : Presence) (hcid : p.cid.length < UInt64.size)
    (hauth : p.auth.length < UInt64.size) (depth : Nat) : schema.Fields depth p.encode {} p := by
  have hrun : schema.Fields depth _ {} _ :=
    ((Fields.bytes 1 (fun p x => { p with cid := x }) (by decide) rfl rfl p.cid hcid).append
    (.signed 2 (fun p x => { p with type := x }) (by decide) rfl rfl p.type)).append
    (.bytes 3 (fun p x => { p with auth := x }) (by decide) rfl rfl p.auth hauth)
  exact hrun

theorem Presence.fields (p : Presence) (h : p.encodedLength < UInt64.size) (depth : Nat) :
    schema.Fields depth p.encode {} p := by
  have hcid := le_bytesLength 1 p.cid.length
  have hauth := le_bytesLength 3 p.auth.length
  unfold encodedLength at h
  exact p.fields_of_lt (by omega) (by omega) depth

theorem lt_of_total_delimitedLength_lt {α : Type} {len : α → Nat} {tag n : Nat} {xs : List α}
    (h : total (fun x => delimitedLength tag (len x)) xs < n) {x : α} (hx : x ∈ xs) : len x < n := by
  have hfield := le_total_of_mem hx fun x => delimitedLength tag (len x)
  have hlen := le_delimitedLength tag (len x)
  omega

theorem Wantlist.fields (w : Wantlist) (h : w.encodedLength < UInt64.size) (depth : Nat) :
    schema.Fields (depth + 1) w.encode {} w := by
  have htotal : total Entry.fieldLength w.entries < UInt64.size :=
    Nat.lt_of_le_of_lt (Nat.le_add_right _ _) h
  have hentries : schema.Fields (depth + 1) (w.entries.flatMap Entry.write) {}
      { entries := w.entries } :=
    .messages Entry.tag (fun (l : Wantlist) e => { l with entries := l.entries ++ [e] })
      (fun es => { entries := es }) {} (by decide) rfl (fun _ _ => rfl) Entry.encode fun e he =>
        have hlt := lt_of_total_delimitedLength_lt htotal he
        ⟨e.fields hlt depth, e.length_encode ▸ hlt⟩
  exact hentries.append
    (.flag 2 (fun (l : Wantlist) x => { l with full := x }) (by decide) rfl rfl w.full)

theorem Message.fields (m : Message) (h : m.encodedLength < UInt64.size) (depth : Nat) :
    schema.Fields (depth + 2) m.encode {} m := by
  unfold encodedLength at h
  have hpayload : schema.Fields (depth + 2) (m.payload.flatMap BlockRecord.write)
      { wantlist := m.wantlist } { wantlist := m.wantlist, payload := m.payload } :=
    have htotal : total BlockRecord.fieldLength m.payload < UInt64.size := by omega
    .messages BlockRecord.tag (fun (m : Message) b => { m with payload := m.payload ++ [b] })
      (fun bs => { wantlist := m.wantlist, payload := bs }) {} (by decide) rfl (fun _ _ => rfl)
      BlockRecord.encode fun b hb =>
        have hlt := lt_of_total_delimitedLength_lt htotal hb
        ⟨b.fields hlt _, b.length_encode ▸ hlt⟩
  have hpresences : schema.Fields (depth + 2) (m.presences.flatMap Presence.write)
      { wantlist := m.wantlist, payload := m.payload }
      { wantlist := m.wantlist, payload := m.payload, presences := m.presences } :=
    have htotal : total Presence.fieldLength m.presences < UInt64.size := by omega
    .messages Presence.tag (fun (m : Message) p => { m with presences := m.presences ++ [p] })
      (fun ps => { wantlist := m.wantlist, payload := m.payload, presences := ps }) {} (by decide)
      rfl (fun _ _ => rfl) Presence.encode fun p hp =>
        have hlt := lt_of_total_delimitedLength_lt htotal hp
        ⟨p.fields hlt _, p.length_encode ▸ hlt⟩
  have hlen : (Text.utf8 m.traceId).length < UInt64.size := by
    have htext := le_bytesLength traceIdTag m.traceId.utf8ByteSize
    rw [Text.length_utf8]
    unfold baseLength at h
    omega
  unfold encode
  refine (((Fields.append ?_ hpayload).append hpresences).append
    (.signed 5 (fun m x => { m with pendingBytes := x }) (by decide) rfl rfl m.pendingBytes)).append
    (.text traceIdTag (fun (m : Message) x => { m with traceId := x }) (by decide) rfl rfl m.traceId
      hlen)
  cases hw : m.wantlist with
  | none => exact .nil _
  | some w =>
    have hlen : w.encodedLength < UInt64.size := by
      have hfield := le_delimitedLength Wantlist.tag w.encodedLength
      simp only [hw, Wantlist.fieldLength] at h
      omega
    exact .message Wantlist.tag (fun (m : Message) => m.wantlist.getD {})
      (fun m l => { m with wantlist := some l }) (by decide) rfl (w.fields hlen depth)
      (w.length_encode ▸ hlen)

/-- Every message of less than 2^64 bytes is read back from its bytes. -/
theorem Message.decode_encode (m : Message) (h : m.encodedLength < UInt64.size) :
    decode m.encode = .ok m :=
  (m.fields h 98).decode

/-! ### Frames -/

namespace Bytes

theorem toNat_concat (b : Bytes) (x : UInt8) : toNat (b ++ [x]) = b.toNat * 256 + x.toNat :=
  List.foldl_append

theorem toNat_ofNat {width n : Nat} (h : n < Nat.pow 256 width) : (ofNat width n).toNat = n := by
  induction width generalizing n with
  | zero =>
    have hn : n < 1 := h
    show 0 = n
    omega
  | succ width ih =>
    have hpow : Nat.pow 256 (width + 1) = Nat.pow 256 width * 256 := rfl
    have hdiv : n / 256 < Nat.pow 256 width := by omega
    rw [ofNat, toNat_concat, ih hdiv, UInt8.toNat_ofNat']
    omega

end Bytes

namespace FrameCodec

theorem length_frame (body : Bytes) : (frame body).length = headerSize + body.length := by
  rw [frame, List.length_append, Bytes.length_ofNat]

theorem append_eq (c : FrameCodec) (m : Message) (buffer : Bytes) :
    (m.encode.length ≤ min c.maxSize maxHeader ∧
      c.append m buffer = (buffer ++ frame m.encode, .ok ())) ∨
    (¬ m.encode.length ≤ min c.maxSize maxHeader ∧
      ∃ e, c.append m buffer = (buffer, .error e)) := by
  rw [m.length_encode, Nat.le_min]
  unfold append
  by_cases hmax : c.maxSize < m.encodedLength
  · exact .inr ⟨fun h => absurd h.1 (Nat.not_le.mpr hmax), _, if_pos hmax⟩
  · by_cases hheader : maxHeader < m.encodedLength
    · exact .inr ⟨fun h => absurd h.2 (Nat.not_le.mpr hheader), _, by rw [if_neg hmax, if_pos hheader]⟩
    · exact .inl ⟨⟨Nat.le_of_not_lt hmax, Nat.le_of_not_lt hheader⟩, by
        rw [if_neg hmax, if_neg hheader]⟩

/-- A codec that is not in the middle of a frame reads a frame within its limit. -/
theorem decode_frame {maxSize : Nat} {m : Message} (h : m.encode.length ≤ min maxSize maxHeader)
    (rest : Bytes) :
    decode { maxSize } (frame m.encode ++ rest) = ⟨{ maxSize }, rest, .ok (some m)⟩ := by
  have hheader : m.encode.length ≤ maxHeader := (Nat.le_min.mp h).2
  have hnum : (Bytes.ofNat headerSize m.encode.length).toNat = m.encode.length :=
    Bytes.toNat_ofNat (Nat.lt_of_le_of_lt hheader (by decide))
  have hlen : m.encodedLength < UInt64.size := by
    rw [← m.length_encode]
    exact Nat.lt_of_le_of_lt hheader (by decide)
  have hsplit : Bytes.splitAt? headerSize (frame m.encode ++ rest) =
      some (Bytes.ofNat headerSize m.encode.length, m.encode ++ rest) :=
    Bytes.splitAt?_eq_some_iff.mpr ⟨Bytes.length_ofNat .., List.append_assoc ..⟩
  have hlimit : ¬ limit { maxSize } < m.encode.length := Nat.not_lt.mpr h
  unfold decode
  simp only [hsplit, hnum]
  rw [if_neg hlimit]
  unfold decodeBody
  simp only [Bytes.splitAt?_append, m.decode_encode hlen]

/-- Writing succeeds exactly within the limit. It puts one frame behind the buffer, which a codec
with the same limit reads back and leaves nothing of, and a failure leaves the buffer alone. -/
theorem decode_append (c : FrameCodec) (m : Message) (buffer : Bytes) :
    ((c.append m buffer).2 = .ok () ↔ m.encode.length ≤ min c.maxSize 0xffffffff) ∧
    ((c.append m buffer).2 = .ok () → ∃ f, (c.append m buffer).1 = buffer ++ f ∧
      f.length = 4 + m.encode.length ∧
      ∀ rest, decode { maxSize := c.maxSize } (f ++ rest) =
        ⟨{ maxSize := c.maxSize }, rest, .ok (some m)⟩) ∧
    ∀ e, (c.append m buffer).2 = .error e → (c.append m buffer).1 = buffer := by
  rcases c.append_eq m buffer with ⟨hfits, hc⟩ | ⟨hbig, e, hc⟩ <;> rw [hc]
  · exact ⟨iff_of_true rfl hfits,
      fun _ => ⟨frame m.encode, rfl, length_frame _, decode_frame hfits⟩, nofun⟩
  · exact ⟨iff_of_false nofun hbig, nofun, fun _ _ => rfl⟩

end FrameCodec
end BlockExchange
