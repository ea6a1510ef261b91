import BlockExchange.Message.Encode
import BlockExchange.Proofs.Readers

/-!
# What an inbound message costs its sender

Bytes may spell a message in more ways than one: numbers with bytes to spare, fields given twice,
fields that nobody knows. None of these makes a message shorter than the parts of it that an answer
repeats. `Schema.Pays` says for a schema that each field it reads takes at least the bytes that it
adds to a weight, and `echoLength_le` bounds so the names, tokens and trace id of a decoded message.
-/

namespace BlockExchange.Protobuf

theorem Cursor.size_of_read? {c c' : Cursor} {n : Nat}
    (h : Varint.read? c.bytes = some (n, c'.bytes)) : Varint.length n + c'.size ≤ c.size := by
  rw [c.size_eq, c'.size_eq]
  exact Varint.length_of_read? h

/-! ### Values -/

namespace Reader
variable {c c' : Cursor} {w : WireType}

theorem size_bytes {b : Bytes} (h : bytes w c = .ok (b, c')) :
    Varint.length b.length + b.length + c'.size ≤ c.size := by
  have hlen := Varint.length_of_read? (bytes_eq_ok_iff.mp h).2
  rw [List.length_append] at hlen
  rw [c.size_eq, c'.size_eq]
  omega

theorem size_text {s : String} (h : text w c = .ok (s, c')) :
    Varint.length s.utf8ByteSize + s.utf8ByteSize + c'.size ≤ c.size := by
  have hlen := Varint.length_of_read? (text_eq_ok_iff.mp h).2
  rw [List.length_append, Text.length_utf8] at hlen
  rw [c.size_eq, c'.size_eq]
  omega

theorem size_flag {b : Bool} (h : flag w c = .ok (b, c')) : 1 + c'.size ≤ c.size := by
  obtain ⟨-, n, hn, -⟩ := flag_eq_ok_iff.mp h
  have := Cursor.size_of_read? hn
  have := Varint.length_pos n
  omega

theorem size_signed {x : Int32} (h : signed w c = .ok (x, c')) : c'.size ≤ c.size := by
  obtain ⟨-, n, hn, -⟩ := signed_eq_ok_iff.mp h
  have := Cursor.size_of_read? hn
  omega

theorem size_key {tag : Nat} (h : key c = .ok ((tag, w), c')) : 1 + c'.size ≤ c.size := by
  obtain ⟨n, hn, -⟩ := key_eq_ok_iff.mp h
  have := Cursor.size_of_read? hn
  have := Varint.length_pos n
  omega

/-! ### Fields that are skipped -/

theorem discard_eq_ok_iff {α : Type} {r : Reader α} {u : Unit} :
    discard r c = .ok (u, c') ↔ ∃ a, r c = .ok (a, c') := by
  show (r >>= fun _ => pure ()) c = .ok (u, c') ↔ _
  rw [bind_pure_eq_ok_iff]
  exact exists_congr fun a => and_iff_left rfl

theorem size_discard_take {n : Nat} {u : Unit} (h : discard (take n) c = .ok (u, c')) :
    c'.size ≤ c.size := by
  obtain ⟨b, hb⟩ := discard_eq_ok_iff.mp h
  have hlen := congrArg List.length (take_eq_ok_iff.mp hb).2
  rw [List.length_append] at hlen
  rw [c.size_eq, c'.size_eq]
  omega

theorem size_skipGroup {skip : WireType → Nat → Reader Unit} {tag bound : Nat} {u : Unit}
    (hskip : ∀ {w tag u c c'}, skip w tag c = .ok (u, c') → c'.size ≤ c.size)
    (h : skipGroup skip tag bound c = .ok (u, c')) : c'.size ≤ c.size := by
  induction bound generalizing c with
  | zero => exact (fail_eq_ok_iff.mp h).elim
  | succ bound ih =>
    rw [skipGroup, bind_eq_ok_iff] at h
    obtain ⟨⟨t, w⟩, d, hk, h⟩ := h
    have hkey := size_key hk
    simp only at h
    split at h
    · split at h
      · obtain ⟨-, rfl⟩ := pure_eq_ok_iff.mp h
        omega
      · exact (fail_eq_ok_iff.mp h).elim
    · obtain ⟨v, e, hv, h⟩ := bind_eq_ok_iff.mp h
      have hfield := hskip hv
      have hrest := ih h
      omega

theorem size_skipField {depth tag : Nat} {u : Unit} (h : skipField depth w tag c = .ok (u, c')) :
    c'.size ≤ c.size := by
  induction depth generalizing w tag c c' u with
  | zero => exact (fail_eq_ok_iff.mp h).elim
  | succ depth ih =>
    unfold skipField at h
    cases w with
    | varint =>
      obtain ⟨n, hn⟩ := discard_eq_ok_iff.mp h
      have := Cursor.size_of_read? (varint_eq_ok_iff.mp hn)
      omega
    | thirtyTwoBit => exact size_discard_take h
    | sixtyFourBit => exact size_discard_take h
    | lengthDelimited =>
      obtain ⟨n, d, hn, h⟩ := bind_eq_ok_iff.mp h
      have := Cursor.size_of_read? (varint_eq_ok_iff.mp hn)
      have := size_discard_take h
      omega
    | startGroup =>
      obtain ⟨n, d, hn, h⟩ := bind_eq_ok_iff.mp h
      obtain ⟨-, rfl⟩ := remaining_eq_ok_iff.mp hn
      exact size_skipGroup ih h
    | endGroup => exact (fail_eq_ok_iff.mp h).elim

end Reader

/-! ### Messages -/

namespace Schema
variable {α : Type} {S : Schema α} {weight : α → Nat} {depth stop : Nat} {a a' : α} {c c' : Cursor}
  {w : WireType}

/-- Every field adds to the weight no more than the bytes it takes, the key among them. -/
def Pays (S : Schema α) (weight : α → Nat) : Prop :=
  ∀ {tag field read}, S.field? tag = some (field, read) → ∀ {depth w a a' c c'},
    read depth w a c = .ok (a', c') → weight a' + c'.size ≤ weight a + c.size + 1

theorem Pays.readField (hS : S.Pays weight) (h : S.readField depth a c = .ok (a', c')) :
    weight a' + c'.size ≤ weight a + c.size := by
  have hdef := h
  unfold Schema.readField at hdef
  obtain ⟨⟨tag, w⟩, d, hk, hread⟩ := Reader.bind_eq_ok_iff.mp hdef
  have hkey := Reader.size_key hk
  cases hf : S.field? tag with
  | some f =>
    obtain ⟨field, read⟩ := f
    have hpay := hS hf ((readField_of_known hf hk).mp h)
    omega
  | none =>
    simp only [hf, Reader.bind_eq_ok_iff, Reader.pure_eq_ok_iff] at hread
    obtain ⟨u, e, hskip, rfl, rfl⟩ := hread
    have := Reader.size_skipField hskip
    omega

theorem Pays.readFields (hS : S.Pays weight) {bound : Nat}
    (h : S.readFields depth stop bound a c = .ok (a', c')) :
    weight a' + c'.size ≤ weight a + c.size := by
  induction bound generalizing a c with
  | zero =>
    obtain ⟨rfl, rfl⟩ := readFields_zero.mp h
    exact Nat.le_refl _
  | succ bound ih =>
    rcases readFields_succ.mp h with ⟨-, rfl, rfl⟩ | ⟨-, b, d, hb, hrest⟩
    · exact Nat.le_refl _
    · exact Nat.le_trans (ih hrest) (hS.readField hb)

/-- A nested message takes the bytes that its fields add, and those of their number. -/
theorem Pays.readMessage (hS : S.Pays weight) (h : S.readMessage depth w a c = .ok (a', c')) :
    ∃ n, weight a' ≤ weight a + n ∧ Varint.length n + n + c'.size ≤ c.size := by
  obtain ⟨-, inner, n, d, -, hn, hle, hend, hfields⟩ := readMessage_eq_ok_iff.mp h
  have hpay := hS.readFields hfields
  have hnum := Cursor.size_of_read? hn
  exact ⟨n, by omega, by omega⟩

theorem Pays.decode (hS : S.Pays weight) {b : Bytes} (h : S.decode a b = .ok a') :
    weight a' ≤ weight a + b.length := by
  obtain ⟨c', hfields⟩ := decode_eq_ok_iff.mp h
  have hpay := hS.readFields hfields
  have hsize : (Cursor.ofBytes b).size = b.length := rfl
  omega

end Schema
end BlockExchange.Protobuf

namespace BlockExchange

open Protobuf

/-! ### What an answer repeats -/

/-- The length of the parts of an entry that a presence can repeat. -/
def Entry.echoLength (e : Entry) : Nat :=
  bytesLength 1 e.block.length + flagLength 5 e.sendDontHave + bytesLength 6 e.auth.length

def Entry.echoFieldLength (e : Entry) : Nat :=
  delimitedLength tag e.echoLength

def Wantlist.echoLength (w : Wantlist) : Nat :=
  total Entry.echoFieldLength w.entries

def Message.echoLength (m : Message) : Nat :=
  total Entry.echoFieldLength m.entries + baseLength m.traceId

/-- A field with a small tag has a key of one byte. -/
theorem length_key {tag : Nat} (h : tag < 16) (w : WireType) : Varint.length (key tag w) = 1 := by
  apply Varint.length_of_lt
  unfold key
  cases w <;> simp only [WireType.toNat] <;> omega

theorem bytesLength_le {tag : Nat} (h : tag < 16) (n : Nat) :
    bytesLength tag n ≤ 1 + Varint.length n + n := by
  unfold bytesLength delimitedLength
  rw [length_key h]
  split <;> omega

theorem flagLength_le {tag : Nat} (h : tag < 16) (b : Bool) : flagLength tag b ≤ 2 := by
  unfold flagLength numberLength
  rw [length_key h]
  cases b with
  | false => exact Nat.zero_le 2
  | true => exact Nat.le_of_eq (congrArg (1 + ·) (Varint.length_of_lt (by decide)))

theorem Entry.pays_schema : Entry.schema.Pays Entry.echoLength := by
  intro tag field read hf depth w e e' c c' h
  unfold schema at hf
  simp only at hf
  split at hf <;> cases hf <;> obtain ⟨x, hx, rfl⟩ := Reader.bind_pure_eq_ok_iff.mp h
  · have hsize := Reader.size_bytes hx
    have hlen := bytesLength_le (show 1 < 16 by decide) x.length
    show bytesLength 1 x.length + flagLength 5 e.sendDontHave + bytesLength 6 e.auth.length + _ ≤
      bytesLength 1 e.block.length + _ + _ + _ + 1
    omega
  · have hsize := Reader.size_signed hx
    show e.echoLength + _ ≤ _
    omega
  · have hsize := Reader.size_flag hx
    show e.echoLength + _ ≤ _
    omega
  · have hsize := Reader.size_signed hx
    show e.echoLength + _ ≤ _
    omega
  · have hsize := Reader.size_flag hx
    have hlen := flagLength_le (show 5 < 16 by decide) x
    show bytesLength 1 e.block.length + flagLength 5 x + bytesLength 6 e.auth.length + _ ≤
      _ + flagLength 5 e.sendDontHave + _ + _ + 1
    omega
  · have hsize := Reader.size_bytes hx
    have hlen := bytesLength_le (show 6 < 16 by decide) x.length
    show bytesLength 1 e.block.length + flagLength 5 e.sendDontHave + bytesLength 6 x.length + _ ≤
      _ + _ + bytesLength 6 e.auth.length + _ + 1
    omega

theorem Wantlist.pays_schema : Wantlist.schema.Pays Wantlist.echoLength := by
  intro tag field read hf depth w l l' c c' h
  unfold schema at hf
  simp only at hf
  split at hf <;> cases hf <;> obtain ⟨x, hx, rfl⟩ := Reader.bind_pure_eq_ok_iff.mp h
  · obtain ⟨n, hn, hsize⟩ := Entry.pays_schema.readMessage hx
    have hempty : Entry.echoLength {} = 0 := rfl
    have hfield : x.echoFieldLength ≤ 1 + Varint.length n + n := by
      have hmono := Varint.length_mono (show x.echoLength ≤ n by omega)
      unfold Entry.echoFieldLength delimitedLength
      rw [length_key (by decide)]
      omega
    show total Entry.echoFieldLength (l.entries ++ [x]) + _ ≤
      total Entry.echoFieldLength l.entries + _ + 1
    rw [total_append, total_cons, total_nil]
    omega
  · have hsize := Reader.size_flag hx
    show l.echoLength + _ ≤ _
    omega

theorem BlockRecord.pays_schema : BlockRecord.schema.Pays fun _ => 0 := by
  intro tag field read hf depth w b b' c c' h
  unfold schema at hf
  simp only at hf
  split at hf <;> cases hf <;> obtain ⟨x, hx, rfl⟩ := Reader.bind_pure_eq_ok_iff.mp h <;>
    have hsize := Reader.size_bytes hx <;> show 0 + _ ≤ 0 + _ + 1 <;> omega

theorem Presence.pays_schema : Presence.schema.Pays fun _ => 0 := by
  intro tag field read hf depth w p p' c c' h
  unfold schema at hf
  simp only at hf
  split at hf <;> cases hf <;> obtain ⟨x, hx, rfl⟩ := Reader.bind_pure_eq_ok_iff.mp h
  · have hsize := Reader.size_bytes hx
    show 0 + _ ≤ 0 + _ + 1
    omega
  · have hsize := Reader.size_signed hx
    show 0 + _ ≤ 0 + _ + 1
    omega
  · have hsize := Reader.size_bytes hx
    show 0 + _ ≤ 0 + _ + 1
    omega

theorem Message.pays_schema : Message.schema.Pays Message.echoLength := by
  intro tag field read hf depth w m m' c c' h
  unfold schema at hf
  simp only at hf
  split at hf <;> cases hf <;> obtain ⟨x, hx, rfl⟩ := Reader.bind_pure_eq_ok_iff.mp h
  · obtain ⟨n, hn, hsize⟩ := Wantlist.pays_schema.readMessage hx
    -- a wantlist that is given again goes on from the entries of the earlier one
    have hearlier : (m.wantlist.getD {}).echoLength = total Entry.echoFieldLength m.entries := by
      unfold entries
      cases m.wantlist <;> rfl
    show x.echoLength + baseLength m.traceId + _ ≤
      total Entry.echoFieldLength m.entries + _ + _ + 1
    omega
  · obtain ⟨n, -, hsize⟩ := BlockRecord.pays_schema.readMessage hx
    show m.echoLength + _ ≤ _
    omega
  · obtain ⟨n, -, hsize⟩ := Presence.pays_schema.readMessage hx
    show m.echoLength + _ ≤ _
    omega
  · have hsize := Reader.size_signed hx
    show m.echoLength + _ ≤ _
    omega
  · have hsize := Reader.size_text hx
    have hlen := bytesLength_le (show traceIdTag < 16 by decide) x.utf8ByteSize
    show total Entry.echoFieldLength m.entries + bytesLength traceIdTag x.utf8ByteSize + _ ≤
      total Entry.echoFieldLength m.entries + baseLength m.traceId + _ + 1
    omega

/-- However a message is spelled, what an answer repeats of it is not longer than the spelling. -/
theorem Message.echoLength_le {b : Bytes} {m : Message} (h : decode b = .ok m) :
    m.echoLength ≤ b.length := by
  have hempty : Message.echoLength {} = 0 := rfl
  have hpay := Message.pays_schema.decode h
  omega

end BlockExchange
