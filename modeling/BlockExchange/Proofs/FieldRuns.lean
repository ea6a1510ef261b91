import BlockExchange.Proofs.Readers

/-!
# Runs of fields

`Schema.Fields` says of bytes that they are fields one after the other, and what reading them makes of
a message that is partly read. Each writer writes such a run: a field that is left out is the empty
run, since the value that it would have is there already. A run is read by `readFields` whatever
follows it (`Fields.readFields`), behind its length as a nested message, or as a whole.
-/

namespace BlockExchange.Protobuf

/-! ### Keys and numbers -/

theorem signed_lt (x : Int32) : signed x < UInt64.size := by
  unfold signed
  have hsize : UInt64.size = 0x10000000000000000 := rfl
  omega

theorem le_bytesLength (tag n : Nat) : n ≤ bytesLength tag n := by
  unfold bytesLength delimitedLength
  split <;> omega

theorem le_delimitedLength (tag n : Nat) : n ≤ delimitedLength tag n :=
  Nat.le_add_left _ _

/-- The tags that are in use; a tag of zero is none. -/
def SmallTag (tag : Nat) : Prop :=
  0 < tag ∧ tag < 16

instance (tag : Nat) : Decidable (SmallTag tag) :=
  inferInstanceAs (Decidable (_ ∧ _))

theorem Reader.key_of_bytes {tag : Nat} (ht : SmallTag tag) {w : WireType} {c c' : Cursor}
    (hc : c.bytes = Varint.encode (Protobuf.key tag w) ++ c'.bytes) :
    key c = .ok ((tag, w), c') := by
  obtain ⟨hpos, hlt⟩ := ht
  have hw : w.toNat < 8 := by cases w <;> decide
  have hkey : Protobuf.key tag w = tag * 8 + w.toNat := rfl
  have hsize : UInt64.size = 0x10000000000000000 := rfl
  refine key_eq_ok_iff.mpr ⟨Protobuf.key tag w, ?_, ?_, ?_, ?_, Nat.ne_of_gt hpos⟩
  · rw [hc]
    exact Varint.read?_encode (by omega) c'.bytes
  · unfold maxKey
    omega
  · rw [show Protobuf.key tag w % 8 = w.toNat by omega]
    exact w.ofNat?_toNat
  · omega

namespace Schema
variable {α β : Type} {S : Schema α} {depth : Nat} {a a' a'' : α} {b : Bytes}

/-- The bytes are one field, and reading it turns `a` into `a'`. -/
structure OneField (S : Schema α) (depth : Nat) (b : Bytes) (a a' : α) : Prop where
  ne_nil : b ≠ []
  reads : ∀ c c' : Cursor, c.bytes = b ++ c'.bytes → S.readField depth a c = .ok (a', c')

/-- The bytes are fields one after the other, and reading them all turns `a` into `a'`. -/
inductive Fields (S : Schema α) (depth : Nat) : Bytes → α → α → Prop
  | nil (a : α) : Fields S depth [] a a
  | cons {f b : Bytes} {a a' a'' : α} (hf : S.OneField depth f a a')
      (hb : Fields S depth b a' a'') : Fields S depth (f ++ b) a a''

namespace Fields

theorem append {b₁ b₂ : Bytes} (h₁ : S.Fields depth b₁ a a') (h₂ : S.Fields depth b₂ a' a'') :
    S.Fields depth (b₁ ++ b₂) a a'' := by
  induction h₁ with
  | nil a => exact h₂
  | cons hf _ ih =>
    rw [List.append_assoc]
    exact .cons hf (ih h₂)

theorem single (h : S.OneField depth b a a') : S.Fields depth b a a' := by
  have hrun := Fields.cons h (.nil a')
  rwa [List.append_nil] at hrun

/-! ### Reading a run -/

/-- Fields are read up to where the run ends; the bound on their number is never met. -/
theorem readFields (h : S.Fields depth b a a') {c c' : Cursor} (hc : c.bytes = b ++ c'.bytes)
    {bound : Nat} (hb : b.length ≤ bound) :
    S.readFields depth c'.size bound a c = .ok (a', c') := by
  induction h generalizing c bound with
  | nil a =>
    obtain rfl : c = c' := Cursor.eq_of_bytes hc
    cases bound with
    | zero => exact readFields_zero.mpr ⟨rfl, rfl⟩
    | succ bound => exact readFields_succ.mpr (.inl ⟨Nat.le_refl _, rfl, rfl⟩)
  | @cons f b a a₁ a₂ hf _ ih =>
    have hpos : 0 < f.length := List.length_pos_iff.mpr hf.ne_nil
    have hsize : c.size = f.length + b.length + c'.size := by
      rw [c.size_eq, c'.size_eq, hc, List.length_append, List.length_append]
    rw [List.length_append] at hb
    obtain ⟨bound, rfl⟩ : ∃ n, bound = n + 1 := ⟨bound - 1, by omega⟩
    have hd : c.bytes = f ++ (Cursor.ofBytes (b ++ c'.bytes)).bytes := by
      rw [hc, List.append_assoc]
      rfl
    exact readFields_succ.mpr
      (.inr ⟨by omega, a₁, _, hf.reads c _ hd, ih rfl (by omega)⟩)

theorem decode (h : S.Fields maxDepth b a a') : S.decode a b = .ok a' := by
  have hend : (Cursor.ofBytes b).bytes = b ++ (Cursor.ofBytes []).bytes := (List.append_nil b).symm
  exact decode_eq_ok_iff.mpr ⟨_, h.readFields hend (Nat.le_refl _)⟩

theorem readMessage (h : S.Fields depth b a a') (hb : b.length < UInt64.size) {c c' : Cursor}
    (hc : c.bytes = Varint.encode b.length ++ b ++ c'.bytes) :
    S.readMessage (depth + 1) .lengthDelimited a c = .ok (a', c') := by
  have hd : (Cursor.ofBytes (b ++ c'.bytes)).size = b.length + c'.size := by
    rw [c'.size_eq]
    exact List.length_append
  refine readMessage_eq_ok_iff.mpr
    ⟨rfl, depth, b.length, .ofBytes (b ++ c'.bytes), rfl, ?_, by omega, by omega, ?_⟩
  · rw [hc, List.append_assoc]
    exact Varint.read?_encode hb _
  · rw [show (Cursor.ofBytes (b ++ c'.bytes)).size - b.length = c'.size by omega]
    exact h.readFields rfl (by omega)

/-! ### Writing a run -/

section
variable {tag : Nat} {field : String} {read : (depth : Nat) → WireType → α → Reader α}

theorem of_read (ht : SmallTag tag) (hf : S.field? tag = some (field, read)) {w : WireType}
    {value : Bytes}
    (hread : ∀ c c' : Cursor, c.bytes = value ++ c'.bytes → read depth w a c = .ok (a', c')) :
    S.Fields depth (Varint.encode (key tag w) ++ value) a a' := by
  refine single ⟨List.append_ne_nil_of_left_ne_nil (Varint.encode_ne_nil _) _, fun c c' hc => ?_⟩
  have hd : c.bytes =
      Varint.encode (key tag w) ++ (Cursor.ofBytes (value ++ c'.bytes)).bytes := by
    rw [hc, List.append_assoc]
    rfl
  exact (readField_of_known hf (Reader.key_of_bytes ht hd)).mpr (hread _ c' rfl)

theorem number (ht : SmallTag tag) (hf : S.field? tag = some (field, read)) {n : Nat}
    (hn : n < UInt64.size) (h0 : n = 0 → a' = a)
    (hread : ∀ c c' : Cursor, Varint.read? c.bytes = some (n, c'.bytes) →
      read depth .varint a c = .ok (a', c')) :
    S.Fields depth (writeNumber tag n) a a' := by
  unfold writeNumber
  split
  · rename_i hz
    rw [h0 hz]
    exact .nil a
  · exact of_read ht hf fun c c' hc => hread c c' (by rw [hc]; exact Varint.read?_encode hn _)

theorem byteString (ht : SmallTag tag) (hf : S.field? tag = some (field, read)) {x : Bytes}
    (hx : x.length < UInt64.size) (h0 : x = [] → a' = a)
    (hread : ∀ c c' : Cursor, Reader.bytes .lengthDelimited c = .ok (x, c') →
      read depth .lengthDelimited a c = .ok (a', c')) :
    S.Fields depth (writeBytes tag x) a a' := by
  unfold writeBytes
  split
  · rename_i hnil
    rw [h0 (List.isEmpty_iff.mp hnil)]
    exact .nil a
  · unfold writeDelimited
    rw [List.append_assoc]
    refine of_read ht hf fun c c' hc => hread c c' (Reader.bytes_eq_ok_iff.mpr ⟨rfl, ?_⟩)
    rw [hc, List.append_assoc]
    exact Varint.read?_encode hx _

end

section
variable (tag : Nat) {field : String}

theorem signed (set : α → Int32 → α) (ht : SmallTag tag)
    (hf : S.field? tag = some (field, fun _ w a => do return set a (← Reader.signed w)))
    (h0 : set a 0 = a) (x : Int32) :
    S.Fields depth (writeNumber tag (Protobuf.signed x)) a (set a x) := by
  refine number ht hf (signed_lt x) (fun hx => ?_) fun c c' hc => ?_
  · have hzero := ofSigned_signed x
    rw [hx] at hzero
    rw [← hzero]
    exact h0
  · exact Reader.bind_pure_eq_ok_iff.mpr
      ⟨x, Reader.signed_eq_ok_iff.mpr ⟨rfl, _, hc, ofSigned_signed x⟩, rfl⟩

theorem flag (set : α → Bool → α) (ht : SmallTag tag)
    (hf : S.field? tag = some (field, fun _ w a => do return set a (← Reader.flag w)))
    (h0 : set a false = a) (x : Bool) : S.Fields depth (writeFlag tag x) a (set a x) := by
  refine number ht hf (show x.toNat < UInt64.size by cases x <;> decide) (fun hx => ?_)
    fun c c' hc => ?_
  · cases x with
    | false => exact h0
    | true => cases hx
  · exact Reader.bind_pure_eq_ok_iff.mpr
      ⟨x, Reader.flag_eq_ok_iff.mpr ⟨rfl, _, hc, by cases x <;> rfl⟩, rfl⟩

theorem bytes (set : α → Bytes → α) (ht : SmallTag tag)
    (hf : S.field? tag = some (field, fun _ w a => do return set a (← Reader.bytes w)))
    (h0 : set a [] = a) (x : Bytes) (hx : x.length < UInt64.size) :
    S.Fields depth (writeBytes tag x) a (set a x) := by
  refine byteString ht hf hx (fun hnil => ?_) fun c c' hc => ?_
  · rw [hnil]
    exact h0
  · exact Reader.bind_pure_eq_ok_iff.mpr ⟨x, hc, rfl⟩

theorem text (set : α → String → α) (ht : SmallTag tag)
    (hf : S.field? tag = some (field, fun _ w a => do return set a (← Reader.text w)))
    (h0 : set a "" = a) (x : String) (hx : (Text.utf8 x).length < UInt64.size) :
    S.Fields depth (writeText tag x) a (set a x) := by
  refine byteString ht hf hx (fun hnil => ?_) fun c c' hc => ?_
  · have hempty : Text.ofUtf8? [] = some "" := Text.ofUtf8?_eq_some_iff.mpr rfl
    rw [← hnil, Text.ofUtf8?_utf8] at hempty
    rw [Option.some.inj hempty]
    exact h0
  · exact Reader.bind_pure_eq_ok_iff.mpr
      ⟨x, Reader.text_eq_ok_iff.mpr (Reader.bytes_eq_ok_iff.mp hc), rfl⟩

/-- A nested message goes on from what `get` finds. -/
theorem message {T : Schema β} (get : α → β) (set : α → β → α) (ht : SmallTag tag)
    (hf : S.field? tag = some (field, fun depth w a => do
      return set a (← T.readMessage depth w (get a))))
    {body : Bytes} {x : β} (hbody : T.Fields depth body (get a) x)
    (hlen : body.length < UInt64.size) :
    S.Fields (depth + 1) (writeDelimited tag body) a (set a x) := by
  unfold writeDelimited
  rw [List.append_assoc]
  exact of_read ht hf fun c c' hc =>
    Reader.bind_pure_eq_ok_iff.mpr ⟨x, hbody.readMessage hlen hc, rfl⟩

/-- Nested messages that are each one more of a list. -/
theorem messages {T : Schema β} (add : α → β → α) (set : List β → α) (empty : β)
    (ht : SmallTag tag)
    (hf : S.field? tag = some (field, fun depth w a => do
      return add a (← T.readMessage depth w empty)))
    (hadd : ∀ done x, add (set done) x = set (done ++ [x])) (encode : β → Bytes) {xs : List β}
    (h : ∀ x ∈ xs, T.Fields depth (encode x) empty x ∧ (encode x).length < UInt64.size) :
    S.Fields (depth + 1) (xs.flatMap fun x => writeDelimited tag (encode x)) (set []) (set xs) := by
  suffices hrun : ∀ done, S.Fields (depth + 1) (xs.flatMap fun x => writeDelimited tag (encode x))
      (set done) (set (done ++ xs)) from hrun []
  induction xs with
  | nil =>
    intro done
    rw [List.append_nil]
    exact .nil _
  | cons x xs ih =>
    intro done
    obtain ⟨hx, hlen⟩ := h x List.mem_cons_self
    have hone : S.Fields (depth + 1) (writeDelimited tag (encode x)) (set done)
        (add (set done) x) :=
      message tag (fun _ => empty) add ht hf hx hlen
    rw [hadd] at hone
    have hrest := ih (fun y hy => h y (List.mem_cons_of_mem x hy)) (done ++ [x])
    rw [List.append_assoc] at hrest
    exact hone.append hrest

end

end Fields
end Schema
end BlockExchange.Protobuf
