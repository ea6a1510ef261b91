import BlockExchange.Proofs.CidBytes
import Mathlib.Data.List.Forall2

/-!
# Prefixes and the blocks under them

`Varint.Spells` is the grammar of a number: groups of seven bits, lowest first, of which all but the
last have their high bit set, in at most ten bytes and of at most 64 bits. A prefix is four such
numbers and nothing more (`Prefix.ofBytes_eq_ok_iff`), of which the first is a version; the shortest
spelling is the prefix's own (`Prefix.spelled_by_bytes`).

The identifier that content gets under a prefix is the one with that prefix whose digest is the
content's own, if there is one (`Prefix.toCid_eq_ok_iff`). So it is the same whether content is compared
with a claimed identifier or its identifier is made anew (`HashedBlock.verified_either_way`).
-/

namespace BlockExchange

/-! ### Numbers as they are spelled -/

namespace Varint

/-- Groups of seven bits, lowest first. The high bit of a byte says that more follow. -/
inductive Groups : Bytes → Nat → Prop
  | last {x : UInt8} (h : x.toNat < 128) : Groups [x] x.toNat
  | more {x : UInt8} {s : Bytes} {n : Nat} (h : 128 ≤ x.toNat) (hs : Groups s n) :
    Groups (x :: s) (x.toNat - 128 + 128 * n)

/-- The bytes are a number of 64 bits in at most ten groups. -/
structure Spells (s : Bytes) (n : Nat) : Prop where
  groups : Groups s n
  length_le : s.length ≤ maxLength
  lt : n < UInt64.size

variable {limit n : Nat} {s b rest : Bytes}

theorem Groups.length_pos (h : Groups s n) : 0 < s.length := by
  cases h <;> exact Nat.succ_pos _

theorem Groups.readWithin (h : Groups s n) (hlen : s.length ≤ limit + 1)
    (hn : n < 2 * Nat.pow 128 limit) (rest : Bytes) :
    readWithin (limit + 1) (s ++ rest) = some (n, rest) := by
  induction h generalizing limit with
  | @last x h =>
    -- the last byte of the longest spelling holds one bit
    have hbit : ¬ (limit = 0 ∧ 2 ≤ x.toNat) := by
      rintro ⟨rfl, hx⟩
      exact absurd hn (Nat.not_lt.mpr hx)
    rw [List.singleton_append, Varint.readWithin, if_pos h, if_neg hbit]
  | @more x s n h hs ih =>
    have hpos := hs.length_pos
    rw [List.length_cons] at hlen
    obtain ⟨limit, rfl⟩ : ∃ k, limit = k + 1 := ⟨limit - 1, by omega⟩
    have hpow : Nat.pow 128 (limit + 1) = Nat.pow 128 limit * 128 := rfl
    rw [hpow] at hn
    rw [List.cons_append, Varint.readWithin, if_neg (by omega), ih (by omega) (by omega)]
    rfl

theorem groups_of_readWithin (h : readWithin (limit + 1) b = some (n, rest)) :
    ∃ s, Groups s n ∧ s.length ≤ limit + 1 ∧ n < 2 * Nat.pow 128 limit ∧ b = s ++ rest := by
  induction limit generalizing b n with
  | zero =>
    cases b with
    | nil => cases h
    | cons x b =>
      rw [readWithin] at h
      split at h
      · rename_i hlast
        split at h
        · cases h
        · rename_i hbit
          obtain ⟨rfl, rfl⟩ := Prod.mk.inj (Option.some.inj h)
          refine ⟨[x], .last hlast, Nat.le_refl _, ?_, rfl⟩
          exact Nat.lt_of_not_le fun hx => hbit ⟨rfl, hx⟩
      · cases h
  | succ limit ih =>
    have hpow : Nat.pow 128 (limit + 1) = Nat.pow 128 limit * 128 := rfl
    have hpos : 0 < Nat.pow 128 limit := Nat.pow_pos (by decide)
    cases b with
    | nil => cases h
    | cons x b =>
      have hbyte := x.toNat_lt
      rw [readWithin] at h
      split at h
      · rename_i hlast
        split at h
        · cases h
        · obtain ⟨rfl, rfl⟩ := Prod.mk.inj (Option.some.inj h)
          refine ⟨[x], .last hlast, ?_, ?_, rfl⟩
          · exact Nat.succ_le_succ (Nat.zero_le _)
          · rw [hpow]
            omega
      · rename_i hmore
        obtain ⟨⟨m, r⟩, hread, he⟩ := Option.map_eq_some_iff.mp h
        obtain ⟨rfl, rfl⟩ := Prod.mk.inj he
        obtain ⟨s, hs, hlen, hm, rfl⟩ := ih hread
        refine ⟨x :: s, .more (Nat.le_of_not_lt hmore) hs, Nat.succ_le_succ hlen, ?_, rfl⟩
        rw [hpow]
        omega

/-- The reader takes off the front what spells a number, and nothing else. -/
theorem read?_eq_some_iff : read? b = some (n, rest) ↔ ∃ s, Spells s n ∧ b = s ++ rest := by
  constructor
  · intro h
    have hten : readWithin (9 + 1) b = some (n, rest) := h
    obtain ⟨s, hs, hlen, hn, hb⟩ := groups_of_readWithin hten
    exact ⟨s, ⟨hs, hlen, hn⟩, hb⟩
  · rintro ⟨s, ⟨hs, hlen, hn⟩, rfl⟩
    show readWithin (9 + 1) (s ++ rest) = _
    exact hs.readWithin hlen hn rest

/-- No spelling is shorter than the number's own. -/
theorem Spells.length_encode_le (h : Spells s n) : (encode n).length ≤ s.length := by
  have hread : read? (s ++ []) = some (n, []) := read?_eq_some_iff.mpr ⟨s, h, rfl⟩
  have hlen := length_of_read? hread
  rw [length_encode]
  simpa using hlen

end Varint

theorem CidVersion.ofNat?_eq_some_iff {n : Nat} {v : CidVersion} :
    ofNat? n = some v ↔ v.toNat = n := by
  constructor
  · intro h
    unfold ofNat? at h
    split at h <;> cases h <;> rfl
  · rintro rfl
    exact ofNat?_toNat v

/-! ### Prefixes as bytes -/

namespace Prefix

open Varint (Spells)

variable {b rest : Bytes} {n : Nat} {p : Prefix}

theorem readField_eq_ok_iff : readField b = .ok (n, rest) ↔ ∃ s, Spells s n ∧ b = s ++ rest := by
  rw [← Varint.read?_eq_some_iff]
  unfold readField
  cases Varint.read? b with
  | none => exact iff_of_false nofun nofun
  | some r => rw [Except.ok.injEq, Option.some.injEq]

theorem ofBytes_of_fields {version : CidVersion} {n₀ n₁ n₂ n₃ : Nat} {b₀ b₁ b₂ : Bytes}
    (h₀ : readField b = .ok (n₀, b₀)) (hversion : CidVersion.ofNat? n₀ = some version)
    (h₁ : readField b₀ = .ok (n₁, b₁)) (h₂ : readField b₁ = .ok (n₂, b₂))
    (h₃ : readField b₂ = .ok (n₃, [])) :
    ofBytes b = .ok ⟨version, .ofNat n₁, .ofNat n₂, .ofNat n₃⟩ := by
  unfold ofBytes
  simp only [h₀, hversion, h₁, h₂, h₃, bind, Except.bind]
  rfl

theorem fields_of_ofBytes (h : ofBytes b = .ok p) : ∃ n₀ n₁ n₂ n₃ b₀ b₁ b₂,
    readField b = .ok (n₀, b₀) ∧ CidVersion.ofNat? n₀ = some p.version ∧
    readField b₀ = .ok (n₁, b₁) ∧ readField b₁ = .ok (n₂, b₂) ∧ readField b₂ = .ok (n₃, []) ∧
    p.codec = .ofNat n₁ ∧ p.hashCode = .ofNat n₂ ∧ p.hashLength = .ofNat n₃ := by
  unfold ofBytes at h
  obtain ⟨⟨n₀, b₀⟩, h₀, h⟩ := bind_eq_ok_iff.mp h
  simp only at h
  split at h
  · rename_i version hversion
    obtain ⟨⟨n₁, b₁⟩, h₁, h⟩ := bind_eq_ok_iff.mp h
    obtain ⟨⟨n₂, b₂⟩, h₂, h⟩ := bind_eq_ok_iff.mp h
    obtain ⟨⟨n₃, b₃⟩, h₃, h⟩ := bind_eq_ok_iff.mp h
    simp only at h
    split at h
    · rename_i hend
      obtain rfl := Except.ok.inj h
      obtain rfl := List.isEmpty_iff.mp hend
      exact ⟨n₀, n₁, n₂, n₃, b₀, b₁, b₂, h₀, hversion, h₁, h₂, h₃, rfl, rfl, rfl⟩
    · cases h
  · cases h

/-- Bytes are read as a prefix exactly if they spell its four numbers. -/
theorem ofBytes_eq_ok_iff :
    ofBytes b = .ok p ↔ ∃ ss, List.Forall₂ Spells ss p.fields ∧ b = ss.flatten := by
  constructor
  · intro h
    obtain ⟨n₀, n₁, n₂, n₃, b₀, b₁, b₂, h₀, hversion, h₁, h₂, h₃, hcodec, hcode, hlen⟩ :=
      fields_of_ofBytes h
    obtain ⟨s₀, hs₀, rfl⟩ := readField_eq_ok_iff.mp h₀
    obtain ⟨s₁, hs₁, rfl⟩ := readField_eq_ok_iff.mp h₁
    obtain ⟨s₂, hs₂, rfl⟩ := readField_eq_ok_iff.mp h₂
    obtain ⟨s₃, hs₃, rfl⟩ := readField_eq_ok_iff.mp h₃
    have hfields : p.fields = [n₀, n₁, n₂, n₃] := by
      unfold fields
      rw [CidVersion.ofNat?_eq_some_iff.mp hversion, hcodec, hcode, hlen,
        UInt64.toNat_ofNat_of_lt' hs₁.lt, UInt64.toNat_ofNat_of_lt' hs₂.lt,
        UInt64.toNat_ofNat_of_lt' hs₃.lt]
    rw [hfields]
    exact ⟨[s₀, s₁, s₂, s₃], .cons hs₀ (.cons hs₁ (.cons hs₂ (.cons hs₃ .nil))), rfl⟩
  · rintro ⟨ss, hspells, rfl⟩
    obtain ⟨version, codec, hashCode, hashLength⟩ := p
    cases hspells with | @cons s₀ _ _ _ hs₀ hspells => ?_
    cases hspells with | @cons s₁ _ _ _ hs₁ hspells => ?_
    cases hspells with | @cons s₂ _ _ _ hs₂ hspells => ?_
    cases hspells with | @cons s₃ _ _ _ hs₃ hspells => ?_
    cases hspells
    have h := ofBytes_of_fields (readField_eq_ok_iff.mpr ⟨s₀, hs₀, rfl⟩)
      (CidVersion.ofNat?_toNat version) (readField_eq_ok_iff.mpr ⟨s₁, hs₁, rfl⟩)
      (readField_eq_ok_iff.mpr ⟨s₂, hs₂, rfl⟩) (readField_eq_ok_iff.mpr ⟨s₃, hs₃, rfl⟩)
    simp only [UInt64.ofNat_toNat] at h
    exact h

theorem lt_of_spells {ss : List Bytes} {ns : List Nat} (h : List.Forall₂ Spells ss ns) {n : Nat}
    (hn : n ∈ ns) : n < UInt64.size := by
  induction h with
  | nil => cases hn
  | cons hs _ ih =>
    rcases List.mem_cons.mp hn with rfl | hn
    · exact hs.lt
    · exact ih hn

theorem length_flatMap_encode_le {ss : List Bytes} {ns : List Nat} (h : List.Forall₂ Spells ss ns) :
    (ns.flatMap Varint.encode).length ≤ ss.flatten.length := by
  induction h with
  | nil => exact Nat.le_refl 0
  | cons hs _ ih =>
    rw [List.flatMap_cons, List.flatten_cons, List.length_append, List.length_append]
    exact Nat.add_le_add hs.length_encode_le ih

/-- Four numbers that are spelled somewhere make a prefix if the first is a version. -/
theorem exists_fields {ss : List Bytes} {version codec hashCode hashLength : Nat}
    (h : List.Forall₂ Spells ss [version, codec, hashCode, hashLength])
    (hversion : version = 0 ∨ version = 1) :
    ∃ p : Prefix, p.fields = [version, codec, hashCode, hashLength] := by
  have hlt : ∀ n ∈ [codec, hashCode, hashLength], n < UInt64.size := by
    cases h with | cons _ h => ?_
    exact fun n hn => lt_of_spells h hn
  obtain ⟨v, rfl⟩ : ∃ v : CidVersion, v.toNat = version := by
    rcases hversion with rfl | rfl
    · exact ⟨.v0, rfl⟩
    · exact ⟨.v1, rfl⟩
  refine ⟨⟨v, .ofNat codec, .ofNat hashCode, .ofNat hashLength⟩, ?_⟩
  unfold fields
  rw [UInt64.toNat_ofNat_of_lt' (hlt codec (by simp)),
    UInt64.toNat_ofNat_of_lt' (hlt hashCode (by simp)),
    UInt64.toNat_ofNat_of_lt' (hlt hashLength (by simp))]

/-- A prefix is read back from its bytes, of which there are as many as announced. Any bytes are read
as a prefix exactly if they spell four numbers with nothing behind them, of which the first is 0 or 1,
and then the prefix has these numbers. However they are spelled, the prefix's own bytes are not more,
and they are read as the same prefix. -/
theorem spelled_by_bytes :
    (∀ p : Prefix, ofBytes p.toBytes = .ok p ∧ p.toBytes.length = p.encodedLength) ∧
    ∀ b : Bytes,
      ((∃ p, ofBytes b = .ok p) ↔ ∃ version codec hashCode hashLength ss,
        List.Forall₂ Spells ss [version, codec, hashCode, hashLength] ∧ b = ss.flatten ∧
          (version = 0 ∨ version = 1)) ∧
      (∀ p, ofBytes b = .ok p ↔ ∃ ss, List.Forall₂ Spells ss p.fields ∧ b = ss.flatten) ∧
      ∀ p, ofBytes b = .ok p → p.toBytes.length ≤ b.length ∧ ofBytes p.toBytes = ofBytes b := by
  refine ⟨fun p => ⟨p.ofBytes_toBytes, p.length_toBytes⟩, fun b => ⟨⟨?_, ?_⟩, fun p => ofBytes_eq_ok_iff,
    fun p h => ?_⟩⟩
  · rintro ⟨p, h⟩
    obtain ⟨ss, hspells, hb⟩ := ofBytes_eq_ok_iff.mp h
    refine ⟨_, _, _, _, ss, hspells, hb, ?_⟩
    cases p.version with
    | v0 => exact .inl rfl
    | v1 => exact .inr rfl
  · rintro ⟨version, codec, hashCode, hashLength, ss, hspells, hb, hversion⟩
    obtain ⟨p, hp⟩ := exists_fields hspells hversion
    exact ⟨p, ofBytes_eq_ok_iff.mpr ⟨ss, hp ▸ hspells, hb⟩⟩
  · obtain ⟨ss, hspells, rfl⟩ := ofBytes_eq_ok_iff.mp h
    exact ⟨length_flatMap_encode_le hspells, p.ofBytes_toBytes.trans h.symm⟩

/-! ### Blocks under a prefix -/

theorem make_of_toCid {data : Bytes} {c : Cid} (h : p.toCid data = .ok c) :
    p.hashCode = Multihash.sha2_256 ∧ p.hashLength = UInt64.ofNat Multihash.sha2_256Length ∧
      Cid.make p.version p.codec (.ofSha256 data) = .ok c := by
  unfold toCid at h
  split at h
  · cases h
  · rename_i hcode
    split at h
    · cases h
    · rename_i hlen
      split at h
      · rename_i hmake
        cases h
        exact ⟨Decidable.not_not.mp hcode, Decidable.not_not.mp hlen, hmake⟩
      · cases h

/-- Content gets the identifier that names it and has this prefix. -/
theorem toCid_eq_ok_iff {data : Bytes} {c : Cid} :
    p.toCid data = .ok c ↔ ofCid c = p ∧ c.Names data := by
  constructor
  · intro h
    obtain ⟨hcode, hlen, hmake⟩ := make_of_toCid h
    obtain ⟨hversion, hcodec, hhash⟩ := Cid.fields_of_make hmake
    have hcode' : c.hash.code = p.hashCode := by
      rw [hhash, hcode]
      rfl
    have hlen' : UInt64.ofNat c.hash.digest.length = p.hashLength := by
      rw [hhash, hlen]
      exact congrArg UInt64.ofNat (length_sha256 data)
    constructor
    · unfold ofCid
      rw [hversion, hcodec, hcode', hlen']
    · unfold Cid.Names
      rw [hhash]
      exact ⟨rfl, rfl⟩
  · rintro ⟨rfl, hnames⟩
    exact toCid_ofCid hnames

end Prefix

namespace HashedBlock

variable {p : Prefix} {data : Bytes} {b : HashedBlock}

theorem ofCid_eq_ok_iff {cid : Cid} : ofCid cid data = .ok b ↔ b.cid = cid ∧ b.data = data := by
  unfold ofCid
  split
  · constructor
    · intro h
      obtain rfl := Except.ok.inj h
      exact ⟨rfl, rfl⟩
    · rintro ⟨rfl, rfl⟩
      rfl
  · rename_i hnames
    refine iff_of_false nofun ?_
    rintro ⟨rfl, rfl⟩
    exact hnames b.names

theorem ofPrefix_eq_ok_iff : ofPrefix p data = .ok b ↔ p.toCid data = .ok b.cid ∧ b.data = data := by
  unfold ofPrefix
  split
  · rename_i e he
    refine iff_of_false nofun fun h => ?_
    cases he.symm.trans h.1
  · rename_i cid hcid
    constructor
    · intro h
      obtain rfl := Except.ok.inj h
      exact ⟨hcid, rfl⟩
    · rintro ⟨hb, rfl⟩
      obtain rfl := Except.ok.inj (hcid.symm.trans hb)
      rfl

/-- Content is taken as a block of a claimed identifier exactly if it hashes to the digest in it, and
exactly if the identifier that it gets under the prefix is the claimed one, and the block is the same.
Whichever way a block was made, its identifier names the content that it was made from. -/
theorem verified_either_way (cid : Cid) (data : Bytes) :
    ((∃ b, ofCid cid data = .ok b) ↔ cid.Names data) ∧
    (∀ b, ofCid cid data = .ok b ↔ ofPrefix (Prefix.ofCid cid) data = .ok b ∧ b.cid = cid) ∧
    (∀ b, ofCid cid data = .ok b → b.cid.Names data) ∧
    (∀ p b, ofPrefix p data = .ok b ↔ Prefix.ofCid b.cid = p ∧ b.cid.Names data ∧ b.data = data) ∧
    (raw data).cid.Names data ∧ (raw data).data = data := by
  refine ⟨⟨?_, fun h => ⟨⟨cid, data, h⟩, ofCid_eq_ok_iff.mpr ⟨rfl, rfl⟩⟩⟩, fun b => ?_, fun b h => ?_,
    fun p b => ?_, (raw data).names, rfl⟩
  · rintro ⟨b, h⟩
    obtain ⟨rfl, rfl⟩ := ofCid_eq_ok_iff.mp h
    exact b.names
  · rw [ofCid_eq_ok_iff, ofPrefix_eq_ok_iff, Prefix.toCid_eq_ok_iff]
    constructor
    · rintro ⟨rfl, rfl⟩
      exact ⟨⟨⟨rfl, b.names⟩, rfl⟩, rfl⟩
    · rintro ⟨⟨-, hdata⟩, hcid⟩
      exact ⟨hcid, hdata⟩
  · obtain ⟨-, rfl⟩ := ofCid_eq_ok_iff.mp h
    exact b.names
  · rw [ofPrefix_eq_ok_iff, Prefix.toCid_eq_ok_iff, and_assoc]

end HashedBlock
end BlockExchange
