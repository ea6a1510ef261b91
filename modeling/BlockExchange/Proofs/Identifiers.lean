import BlockExchange.PeerId

/-!
# Identifiers read back

What the writers of `Varint` and `Multihash` write, the readers take off the front again and leave
the rest alone. Since a peer's name is a multihash, its key always has a content identifier
(`PeerId.cid_eq`), and no message is ever turned away for the name of its sender.
-/

namespace BlockExchange

namespace Varint

theorem length_of_lt {n : Nat} (h : n < 128) : length n = 1 := by
  rw [length, if_pos h]

theorem length_le_succ {n k : Nat} (h : length (n / 128) ≤ k) : length n ≤ k + 1 := by
  rw [length]; split
  · omega
  · exact Nat.succ_le_succ h

/-- No number of 64 bits takes more than ten bytes. -/
theorem length_le_maxLength {n : Nat} (h : n < UInt64.size) : length n ≤ maxLength := by
  have hlast : n / 128 / 128 / 128 / 128 / 128 / 128 / 128 / 128 / 128 < 128 := by
    simp only [UInt64.size] at h; omega
  have h1 := Nat.le_of_eq (length_of_lt hlast)
  iterate 9 replace h1 := length_le_succ h1
  exact h1

theorem readMinimalWithin_encode {first : Bool} {limit n : Nat} (hl : length n ≤ limit)
    (hf : first = true ∨ n ≠ 0) (rest : Bytes) :
    readMinimalWithin first limit (encode n ++ rest) = .ok (n, rest) := by
  induction limit generalizing first n with
  | zero => have := length_pos n; omega
  | succ limit ih =>
    rw [encode]
    split
    · rename_i hn
      have hx : (UInt8.ofNat n).toNat = n := UInt8.toNat_ofNat_of_lt' (show n < 256 by omega)
      -- a last byte of zero is refused, but for the number zero itself
      have h0 : ¬ (UInt8.ofNat n = 0 ∧ (!first) = true) := by
        rintro ⟨h0, h1⟩
        rcases hf with hf | hf
        · simp [hf] at h1
        · exact hf (by rw [← hx, h0]; rfl)
      simp only [List.cons_append, List.nil_append, readMinimalWithin, hx, hn, h0, ↓reduceIte]
    · rename_i hn
      have hx : (UInt8.ofNat (n % 128 + 128)).toNat = n % 128 + 128 :=
        UInt8.toNat_ofNat_of_lt' (show n % 128 + 128 < 256 by omega)
      have hl' : length (n / 128) ≤ limit := by
        rw [length, if_neg hn] at hl; omega
      have hrest : readMinimalWithin false limit (encode (n / 128) ++ rest) = _ :=
        ih hl' (.inr (by omega))
      have hb : ¬ n % 128 + 128 < 128 := by omega
      simp only [List.cons_append, readMinimalWithin, hx, hb, ↓reduceIte, hrest]
      show Except.ok (n % 128 + 128 - 128 + 128 * (n / 128), rest) = _
      rw [show n % 128 + 128 - 128 + 128 * (n / 128) = n by omega]

theorem readMinimal_encode {n : Nat} (h : n < UInt64.size) (rest : Bytes) :
    readMinimal (encode n ++ rest) = .ok (UInt64.ofNat n, rest) := by
  unfold readMinimal
  rw [readMinimalWithin_encode (length_le_maxLength h) (.inl rfl)]
  rfl

end Varint

namespace Multihash

theorem read?_toBytes (h : Multihash) (rest : Bytes) : read? (h.toBytes ++ rest) = some (h, rest) := by
  have hle := h.length_digest_le
  have hlen : h.digest.length < UInt64.size := Nat.lt_of_le_of_lt hle (by decide)
  have hsize : (UInt64.ofNat h.digest.length).toNat = h.digest.length := UInt64.toNat_ofNat_of_lt' hlen
  have hcode := Varint.readMinimal_encode h.code.toNat_lt
    (Varint.encode h.digest.length ++ (h.digest ++ rest))
  rw [UInt64.ofNat_toNat] at hcode
  have hdigest := Varint.readMinimal_encode hlen (h.digest ++ rest)
  unfold read? toBytes
  simp only [List.append_assoc, hcode, hdigest, Except.toOption, Option.bind_eq_bind,
    Option.bind_some, hsize, Bytes.splitAt?_append, hle, ↓reduceDIte]

theorem ofBytes?_toBytes (h : Multihash) : ofBytes? h.toBytes = some h := by
  have hr := h.read?_toBytes []
  rw [List.append_nil] at hr
  rw [ofBytes?, hr]

end Multihash

/-- Every peer has a requester identifier, and it holds the peer's own multihash. -/
theorem PeerId.cid_eq (p : PeerId) : p.cid = .ok (Cid.v1 Codec.peerKey p.hash) := by
  unfold PeerId.cid PeerId.toBytes
  rw [Multihash.ofBytes?_toBytes]

end BlockExchange
