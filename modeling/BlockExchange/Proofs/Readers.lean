import BlockExchange.Message.Decode
import BlockExchange.Proofs.Varints
import BlockExchange.Protobuf.Writer

/-!
# What readers take

For each reader the condition under which it succeeds, said with the bytes in front of it: what it
takes off them, what it gives and what it leaves (`_eq_ok_iff`). Read from left to right the lemmas
bound what a value costs, and from right to left they run a reader on what a writer wrote.
-/

namespace BlockExchange.Protobuf

namespace Cursor

theorem eq_of_bytes {c d : Cursor} (h : c.bytes = d.bytes) : c = d := by
  cases c with
  | mk bytes size size_eq =>
    cases d with
    | mk bytes' size' size_eq' =>
      subst h size_eq size_eq'
      rfl

theorem splitAt?_eq_some_iff {c c' : Cursor} {n : Nat} {b : Bytes} :
    c.splitAt? n = some (b, c') ↔ b.length = n ∧ c.bytes = b ++ c'.bytes := by
  unfold splitAt?
  constructor
  · intro h
    split at h
    · rename_i hn
      obtain ⟨rfl, rfl⟩ := Prod.mk.inj (Option.some.inj h)
      have hsplit : c.bytes.splitAt n = (c.bytes.take n, c.bytes.drop n) := List.splitAt_eq
      show (c.bytes.splitAt n).1.length = n ∧
        c.bytes = (c.bytes.splitAt n).1 ++ (c.bytes.splitAt n).2
      rw [hsplit]
      refine ⟨?_, (List.take_append_drop n c.bytes).symm⟩
      show (c.bytes.take n).length = n
      rw [List.length_take, ← c.size_eq]
      exact Nat.min_eq_left hn
    · cases h
  · rintro ⟨rfl, hb⟩
    have hsize : b.length ≤ c.size := by
      rw [c.size_eq, hb, List.length_append]; exact Nat.le_add_right _ _
    rw [if_pos hsize]
    refine congrArg some (Prod.ext ?_ (eq_of_bytes ?_))
    · show (c.bytes.splitAt b.length).1 = b
      rw [hb, List.splitAt_eq, List.take_left]
    · show (c.bytes.splitAt b.length).2 = c'.bytes
      rw [hb, List.splitAt_eq, List.drop_left]

theorem varint?_eq_some_iff {c c' : Cursor} {n : Nat} :
    c.varint? = some (n, c') ↔ Varint.read? c.bytes = some (n, c'.bytes) := by
  unfold varint?
  split
  · rename_i h
    refine iff_of_false nofun fun he => ?_
    cases h.symm.trans he
  · rename_i m rest h
    constructor
    · intro he
      obtain ⟨rfl, rfl⟩ := Prod.mk.inj (Option.some.inj he)
      exact h
    · intro he
      obtain ⟨rfl, hrest⟩ := Prod.mk.inj (Option.some.inj (h.symm.trans he))
      exact congrArg some (Prod.ext rfl (eq_of_bytes hrest))

end Cursor

namespace Reader
variable {α β : Type} {c c' : Cursor} {w : WireType}

/-! ### Steps one after the other -/

theorem bind_eq_ok_iff {r : Reader α} {g : α → Reader β} {b : β} :
    (r >>= g) c = .ok (b, c') ↔ ∃ a d, r c = .ok (a, d) ∧ g a d = .ok (b, c') := by
  show (r c >>= fun p => g p.1 p.2) = _ ↔ _
  cases r c with
  | error e => exact iff_of_false nofun nofun
  | ok p =>
    constructor
    · intro h; exact ⟨p.1, p.2, rfl, h⟩
    · rintro ⟨a, d, he, h⟩
      obtain rfl := Except.ok.inj he
      exact h

theorem pure_eq_ok_iff {a b : α} : (pure a : Reader α) c = .ok (b, c') ↔ a = b ∧ c = c' := by
  show Except.ok (a, c) = .ok (b, c') ↔ _
  rw [Except.ok.injEq, Prod.mk.injEq]

theorem bind_pure_eq_ok_iff {r : Reader α} {f : α → β} {b : β} :
    (r >>= fun a => pure (f a)) c = .ok (b, c') ↔ ∃ a, r c = .ok (a, c') ∧ f a = b := by
  rw [bind_eq_ok_iff]
  constructor
  · rintro ⟨a, d, ha, h⟩
    obtain ⟨hb, rfl⟩ := pure_eq_ok_iff.mp h
    exact ⟨a, ha, hb⟩
  · rintro ⟨a, ha, hb⟩
    exact ⟨a, c', ha, pure_eq_ok_iff.mpr ⟨hb, rfl⟩⟩

theorem fail_eq_ok_iff {f : Fault} {p : α × Cursor} : (fail f : Reader α) c = .ok p ↔ False :=
  iff_of_false nofun id

theorem within_eq_ok_iff {name : FieldName} {r : Reader α} {p : α × Cursor} :
    r.within name c = .ok p ↔ r c = .ok p := by
  show (r c).mapError _ = _ ↔ _
  cases r c with
  | error e => exact iff_of_false nofun nofun
  | ok q => exact Iff.rfl

/-- A check that fails the reader if `p` holds. -/
theorem refuse_eq_ok_iff {p : Prop} [Decidable p] {f : Fault} {r : Reader α} {q : α × Cursor} :
    (if p then fail f else r) c = .ok q ↔ ¬ p ∧ r c = .ok q := by
  by_cases hp : p
  · rw [if_pos hp, fail_eq_ok_iff]
    exact iff_of_false id fun h => h.1 hp
  · rw [if_neg hp]
    exact (and_iff_right hp).symm

theorem refuse_bind_eq_ok_iff {p : Prop} [Decidable p] {f : Fault} {k : PUnit → Reader α}
    {q : α × Cursor} :
    (if p then (fail f >>= k) else k ⟨⟩) c = .ok q ↔ ¬ p ∧ k ⟨⟩ c = .ok q := by
  have hfail : (fail f >>= k) = fail f := rfl
  rw [hfail]
  exact refuse_eq_ok_iff

theorem remaining_eq_ok_iff {n : Nat} : remaining c = .ok (n, c') ↔ n = c.size ∧ c' = c := by
  show Except.ok (c.size, c) = .ok (n, c') ↔ _
  rw [Except.ok.injEq, Prod.mk.injEq]
  exact and_congr eq_comm eq_comm

/-! ### Values -/

theorem varint_eq_ok_iff {n : Nat} :
    varint c = .ok (n, c') ↔ Varint.read? c.bytes = some (n, c'.bytes) := by
  rw [← Cursor.varint?_eq_some_iff]
  unfold varint
  cases c.varint? with
  | none => exact iff_of_false nofun nofun
  | some p => rw [Except.ok.injEq, Option.some.injEq]

theorem take_eq_ok_iff {n : Nat} {b : Bytes} :
    take n c = .ok (b, c') ↔ b.length = n ∧ c.bytes = b ++ c'.bytes := by
  rw [← Cursor.splitAt?_eq_some_iff]
  unfold take
  cases c.splitAt? n with
  | none => exact iff_of_false nofun nofun
  | some p => rw [Except.ok.injEq, Option.some.injEq]

theorem key_eq_ok_iff {tag : Nat} :
    key c = .ok ((tag, w), c') ↔ ∃ n, Varint.read? c.bytes = some (n, c'.bytes) ∧ n ≤ maxKey ∧
      WireType.ofNat? (n % 8) = some w ∧ n / 8 = tag ∧ tag ≠ 0 := by
  unfold key
  rw [bind_eq_ok_iff]
  constructor
  · rintro ⟨n, d, hn, h⟩
    obtain ⟨hmax, h⟩ := refuse_bind_eq_ok_iff.mp h
    cases hw : WireType.ofNat? (n % 8) with
    | none => simp only [hw, fail_eq_ok_iff] at h
    | some v =>
      simp only [hw, refuse_eq_ok_iff, pure_eq_ok_iff, Prod.mk.injEq] at h
      obtain ⟨h0, ⟨rfl, rfl⟩, rfl⟩ := h
      exact ⟨n, varint_eq_ok_iff.mp hn, Nat.le_of_not_lt hmax, hw, rfl, h0⟩
  · rintro ⟨n, hn, hmax, hw, rfl, h0⟩
    refine ⟨n, c', varint_eq_ok_iff.mpr hn, refuse_bind_eq_ok_iff.mpr ⟨Nat.not_lt.mpr hmax, ?_⟩⟩
    simp only [hw, refuse_eq_ok_iff, pure_eq_ok_iff]
    exact ⟨h0, trivial, trivial⟩

theorem expect_eq_ok_iff {expected : WireType} {u : Unit} :
    expect expected w c = .ok (u, c') ↔ w = expected ∧ c = c' := by
  unfold expect
  split
  · rename_i hw
    rw [pure_eq_ok_iff]
    exact ⟨fun h => ⟨hw, h.2⟩, fun h => ⟨rfl, h.2⟩⟩
  · rename_i hw
    rw [fail_eq_ok_iff]
    exact iff_of_false id fun h => hw h.1

theorem number_eq_ok_iff {n : Nat} :
    number w c = .ok (n, c') ↔ w = .varint ∧ Varint.read? c.bytes = some (n, c'.bytes) := by
  unfold number
  simp only [bind_eq_ok_iff, expect_eq_ok_iff, varint_eq_ok_iff]
  constructor
  · rintro ⟨_, _, ⟨hw, rfl⟩, hn⟩; exact ⟨hw, hn⟩
  · rintro ⟨hw, hn⟩; exact ⟨(), c, ⟨hw, rfl⟩, hn⟩

theorem flag_eq_ok_iff {b : Bool} :
    flag w c = .ok (b, c') ↔ w = .varint ∧
      ∃ n, Varint.read? c.bytes = some (n, c'.bytes) ∧ decide (n ≠ 0) = b := by
  unfold flag
  rw [bind_pure_eq_ok_iff]
  simp only [number_eq_ok_iff, and_assoc, exists_and_left]

theorem signed_eq_ok_iff {x : Int32} :
    signed w c = .ok (x, c') ↔ w = .varint ∧
      ∃ n, Varint.read? c.bytes = some (n, c'.bytes) ∧ ofSigned n = x := by
  unfold signed
  rw [bind_pure_eq_ok_iff]
  simp only [number_eq_ok_iff, and_assoc, exists_and_left]
  exact Iff.rfl

theorem bytes_eq_ok_iff {b : Bytes} :
    bytes w c = .ok (b, c') ↔
      w = .lengthDelimited ∧ Varint.read? c.bytes = some (b.length, b ++ c'.bytes) := by
  unfold bytes
  simp only [bind_eq_ok_iff, expect_eq_ok_iff, varint_eq_ok_iff, take_eq_ok_iff]
  constructor
  · rintro ⟨_, _, ⟨hw, rfl⟩, n, d, hn, rfl, hd⟩
    rw [hd] at hn
    exact ⟨hw, hn⟩
  · rintro ⟨hw, hn⟩
    exact ⟨(), c, ⟨hw, rfl⟩, b.length, .ofBytes (b ++ c'.bytes), hn, rfl, rfl⟩

theorem text_eq_ok_iff {s : String} :
    text w c = .ok (s, c') ↔ w = .lengthDelimited ∧
      Varint.read? c.bytes = some ((Text.utf8 s).length, Text.utf8 s ++ c'.bytes) := by
  unfold text
  rw [← bytes_eq_ok_iff, bind_eq_ok_iff]
  constructor
  · rintro ⟨b, d, hb, h⟩
    cases hs : Text.ofUtf8? b with
    | none => simp only [hs, fail_eq_ok_iff] at h
    | some s' =>
      simp only [hs, pure_eq_ok_iff] at h
      obtain ⟨rfl, rfl⟩ := h
      rw [Text.ofUtf8?_eq_some_iff.mp hs]
      exact hb
  · intro hb
    refine ⟨_, c', hb, ?_⟩
    simp only [Text.ofUtf8?_utf8, pure_eq_ok_iff]
    exact ⟨trivial, trivial⟩

end Reader

namespace Schema
variable {α : Type} {S : Schema α} {depth stop : Nat} {a a' : α} {c c' : Cursor} {w : WireType}

/-! ### Messages -/

theorem readFields_zero : S.readFields depth stop 0 a c = .ok (a', c') ↔ a = a' ∧ c = c' :=
  Reader.pure_eq_ok_iff

theorem readFields_succ {bound : Nat} : S.readFields depth stop (bound + 1) a c = .ok (a', c') ↔
    (c.size ≤ stop ∧ a = a' ∧ c = c') ∨
      (stop < c.size ∧ ∃ b d, S.readField depth a c = .ok (b, d) ∧
        S.readFields depth stop bound b d = .ok (a', c')) := by
  rw [readFields]
  simp only [Reader.bind_eq_ok_iff, Reader.remaining_eq_ok_iff]
  constructor
  · rintro ⟨_, _, ⟨rfl, rfl⟩, h⟩
    split at h
    · rename_i hstop
      exact .inl ⟨hstop, Reader.pure_eq_ok_iff.mp h⟩
    · rename_i hstop
      exact .inr ⟨Nat.lt_of_not_le hstop, Reader.bind_eq_ok_iff.mp h⟩
  · rintro (⟨hstop, h⟩ | ⟨hstop, h⟩)
    · exact ⟨_, _, ⟨rfl, rfl⟩, by rw [if_pos hstop]; exact Reader.pure_eq_ok_iff.mpr h⟩
    · refine ⟨_, _, ⟨rfl, rfl⟩, ?_⟩
      rw [if_neg (Nat.not_le_of_lt hstop)]
      exact Reader.bind_eq_ok_iff.mpr h

theorem readField_of_known {tag : Nat} {field : String}
    {read : (depth : Nat) → WireType → α → Reader α} (hf : S.field? tag = some (field, read))
    {d : Cursor} (hk : Reader.key c = .ok ((tag, w), d)) :
    S.readField depth a c = .ok (a', c') ↔ read depth w a d = .ok (a', c') := by
  unfold readField
  rw [Reader.bind_eq_ok_iff]
  constructor
  · rintro ⟨p, e, hp, h⟩
    obtain ⟨rfl, rfl⟩ := Prod.mk.inj (Except.ok.inj (hk.symm.trans hp))
    simp only [hf, Reader.within_eq_ok_iff] at h
    exact h
  · intro h
    refine ⟨_, d, hk, ?_⟩
    simp only [hf, Reader.within_eq_ok_iff]
    exact h

theorem readMessage_eq_ok_iff : S.readMessage depth w a c = .ok (a', c') ↔
    w = .lengthDelimited ∧ ∃ inner n d, depth = inner + 1 ∧
      Varint.read? c.bytes = some (n, d.bytes) ∧ n ≤ d.size ∧ c'.size = d.size - n ∧
      S.readFields inner (d.size - n) d.size a d = .ok (a', c') := by
  unfold readMessage
  simp only [Reader.bind_eq_ok_iff, Reader.expect_eq_ok_iff]
  constructor
  · rintro ⟨_, _, ⟨rfl, rfl⟩, h⟩
    refine ⟨rfl, ?_⟩
    cases depth with
    | zero => exact (Reader.fail_eq_ok_iff.mp h).elim
    | succ inner =>
      simp only [Reader.bind_eq_ok_iff, Reader.varint_eq_ok_iff, Reader.remaining_eq_ok_iff] at h
      obtain ⟨n, d, hn, _, _, ⟨rfl, rfl⟩, h⟩ := h
      obtain ⟨hle, h⟩ := Reader.refuse_bind_eq_ok_iff.mp h
      simp only [Reader.bind_eq_ok_iff, Reader.remaining_eq_ok_iff] at h
      obtain ⟨b, e, hb, _, _, ⟨rfl, rfl⟩, h⟩ := h
      split at h
      · rename_i hend
        obtain ⟨rfl, rfl⟩ := Reader.pure_eq_ok_iff.mp h
        exact ⟨inner, n, _, rfl, hn, Nat.le_of_not_lt hle, hend, hb⟩
      · exact (Reader.fail_eq_ok_iff.mp h).elim
  · rintro ⟨rfl, inner, n, d, rfl, hn, hle, hend, h⟩
    refine ⟨(), c, ⟨rfl, rfl⟩, ?_⟩
    simp only [Reader.bind_eq_ok_iff, Reader.varint_eq_ok_iff, Reader.remaining_eq_ok_iff]
    refine ⟨n, d, hn, _, _, ⟨rfl, rfl⟩, Reader.refuse_bind_eq_ok_iff.mpr ⟨Nat.not_lt.mpr hle, ?_⟩⟩
    simp only [Reader.bind_eq_ok_iff, Reader.remaining_eq_ok_iff]
    refine ⟨a', c', h, _, _, ⟨rfl, rfl⟩, ?_⟩
    rw [if_pos hend]
    exact Reader.pure_eq_ok_iff.mpr ⟨rfl, rfl⟩

theorem decode_eq_ok_iff {b : Bytes} : S.decode a b = .ok a' ↔
    ∃ c', S.readFields maxDepth 0 b.length a (.ofBytes b) = .ok (a', c') := by
  unfold decode
  show ((S.readFields maxDepth 0 b.length a (.ofBytes b)) >>= fun p => Except.ok p.1) = _ ↔ _
  cases S.readFields maxDepth 0 b.length a (.ofBytes b) with
  | error e => exact iff_of_false nofun nofun
  | ok p =>
    constructor
    · intro h
      obtain rfl := Except.ok.inj h
      exact ⟨p.2, rfl⟩
    · rintro ⟨c', h⟩
      obtain rfl := Except.ok.inj h
      rfl

end Schema
end BlockExchange.Protobuf
