import BlockExchange.Message.Basic
import BlockExchange.Proofs.Varints

/-!
# Identifiers and wants as bytes

An identifier is read back from its bytes, whatever follows them (`Cid.read_toBytes`). Bytes that are
read as an identifier may spell it in more ways than one, but none is shorter than its own bytes
(`Cid.length_toBytes_le`). A prefix is read back as well, and content makes its identifier again under
it (`Prefix.toCid_ofCid`). The want that an entry names has the entry's identifier and token.
-/

namespace BlockExchange

theorem bind_eq_ok_iff {ε α β : Type} {x : Except ε α} {f : α → Except ε β} {b : β} :
    (x >>= f) = .ok b ↔ ∃ a, x = .ok a ∧ f a = .ok b := by
  cases x with
  | error e => exact iff_of_false nofun (fun ⟨_, h, _⟩ => nomatch h)
  | ok a => exact ⟨fun h => ⟨a, rfl, h⟩, fun ⟨_, h, hb⟩ => Except.ok.inj h ▸ hb⟩

namespace Multihash
variable {b rest : Bytes} {h : Multihash}

theorem length_toBytes (h : Multihash) : h.toBytes.length =
    Varint.length h.code.toNat + Varint.length h.digest.length + h.digest.length := by
  unfold toBytes
  rw [List.length_append, List.length_append, Varint.length_encode, Varint.length_encode]

theorem fields_of_read? (hr : read? b = some (h, rest)) :
    ∃ b₁ size, Varint.readMinimal b = .ok (h.code, b₁) ∧
      Varint.readMinimal b₁ = .ok (size, h.digest ++ rest) ∧ size.toNat = h.digest.length := by
  unfold read? at hr
  cases hcode : Varint.readMinimal b with
  | error e => simp only [hcode, Except.toOption] at hr; cases hr
  | ok p =>
    simp only [hcode, Except.toOption, Option.bind_eq_bind, Option.bind_some] at hr
    cases hsize : Varint.readMinimal p.2 with
    | error e => simp only [hsize] at hr; cases hr
    | ok q =>
      simp only [hsize, Option.bind_some, Option.bind_eq_some_iff] at hr
      obtain ⟨⟨digest, b₃⟩, hdigest, hr⟩ := hr
      simp only at hr
      split at hr
      · obtain ⟨rfl, rfl⟩ := Prod.mk.inj (Option.some.inj hr)
        obtain ⟨hlen, hq⟩ := Bytes.splitAt?_eq_some_iff.mp hdigest
        exact ⟨p.2, q.1, rfl, by rw [hsize, ← hq], hlen.symm⟩
      · cases hr

theorem length_of_read? (hr : read? b = some (h, rest)) :
    h.toBytes.length + rest.length ≤ b.length := by
  obtain ⟨b₁, size, hcode, hdigest, hsize⟩ := fields_of_read? hr
  have h₁ := Varint.length_of_readMinimal hcode
  have h₂ := Varint.length_of_readMinimal hdigest
  rw [hsize, List.length_append] at h₂
  rw [length_toBytes]
  omega

end Multihash

namespace Cid
variable {b rest : Bytes} {c : Cid}

theorem toBytes_v1 (codec : UInt64) (hash : Multihash) : (v1 codec hash).toBytes =
    Varint.encode 1 ++ (Varint.encode codec.toNat ++ hash.toBytes) :=
  List.append_assoc ..

theorem readField_eq_ok_iff {p : UInt64 × Bytes} :
    readField b = .ok p ↔ Varint.readMinimal b = .ok p := by
  unfold readField
  cases Varint.readMinimal b with
  | ok r => simp only [Except.ok.injEq]
  | error e => cases e <;> exact iff_of_false nofun nofun

theorem readVersionZero_eq_ok_iff : readVersionZero b = .ok (c, rest) ↔
    c.version = .v0 ∧ b = c.hash.digest ++ rest := by
  unfold readVersionZero
  split
  · rename_i hsplit
    refine iff_of_false nofun ?_
    rintro ⟨hv, rfl⟩
    have hlen := (c.versionZero hv).length_digest
    have hsome := Bytes.splitAt?_append c.hash.digest rest
    rw [hlen, hsplit] at hsome
    cases hsome
  · rename_i digest rest' hsplit
    obtain ⟨hlen, rfl⟩ := Bytes.splitAt?_eq_some_iff.mp hsplit
    constructor
    · intro h
      obtain ⟨rfl, rfl⟩ := Prod.mk.inj (Except.ok.inj h)
      exact ⟨rfl, rfl⟩
    · rintro ⟨hv, hb⟩
      have hz := c.versionZero hv
      obtain ⟨hd, hr⟩ := List.append_inj hb (hlen.trans hz.length_digest.symm)
      obtain ⟨version, codec, ⟨code, digest', hle⟩, vz⟩ := c
      obtain rfl : codec = Codec.dagPb := hz.codec_eq
      obtain rfl : code = Multihash.sha2_256 := hz.code_eq
      obtain rfl : version = .v0 := hv
      obtain rfl : digest = digest' := hd
      subst hr
      rfl

/-- The two numbers in front tell the version, and the rest is read accordingly. -/
theorem read_of_fields {version codec : UInt64} {b₁ b₂ : Bytes}
    (hversion : Varint.readMinimal b = .ok (version, b₁))
    (hcodec : Varint.readMinimal b₁ = .ok (codec, b₂)) : read b =
      if version = Multihash.sha2_256 ∧ codec = UInt64.ofNat Multihash.sha2_256Length then
        readVersionZero b₂
      else match CidVersion.ofNat? version.toNat with
        | none => .error .unknownVersion
        | some .v0 => .error .versionZeroWrapped
        | some .v1 => match Multihash.read? b₂ with
          | none => .error .malformedHash
          | some (hash, rest) => .ok (v1 codec hash, rest) := by
  unfold read
  rw [readField_eq_ok_iff.mpr hversion]
  show (readField b₁ >>= _) = _
  rw [readField_eq_ok_iff.mpr hcodec]
  rfl

theorem fields_of_read (h : read b = .ok (c, rest)) : ∃ version codec b₁ b₂,
    Varint.readMinimal b = .ok (version, b₁) ∧ Varint.readMinimal b₁ = .ok (codec, b₂) := by
  unfold read at h
  obtain ⟨⟨version, b₁⟩, hversion, h⟩ := bind_eq_ok_iff.mp h
  obtain ⟨⟨codec, b₂⟩, hcodec, -⟩ := bind_eq_ok_iff.mp h
  exact ⟨version, codec, b₁, b₂, readField_eq_ok_iff.mp hversion, readField_eq_ok_iff.mp hcodec⟩

/-! ### Bytes read as an identifier -/

theorem length_toBytes_of_read (h : read b = .ok (c, rest)) :
    c.toBytes.length + rest.length ≤ b.length := by
  obtain ⟨version, codec, b₁, b₂, hversion, hcodec⟩ := fields_of_read h
  have h₁ := Varint.length_of_readMinimal hversion
  have h₂ := Varint.length_of_readMinimal hcodec
  have hpos := Varint.length_pos version.toNat
  rw [read_of_fields hversion hcodec] at h
  split at h
  · obtain ⟨hv, rfl⟩ := readVersionZero_eq_ok_iff.mp h
    have hz := c.versionZero hv
    have hbytes : c.toBytes = c.hash.toBytes := by unfold toBytes; rw [hv]
    have hcode : Varint.length c.hash.code.toNat = 1 :=
      Varint.length_of_lt (by rw [hz.code_eq]; decide)
    have hlen : Varint.length c.hash.digest.length = 1 :=
      Varint.length_of_lt (by rw [hz.length_digest]; decide)
    have hpos' := Varint.length_pos codec.toNat
    rw [List.length_append] at h₂
    rw [hbytes, Multihash.length_toBytes, hcode, hlen]
    omega
  · split at h
    · cases h
    · cases h
    · split at h
      · cases h
      · rename_i hash rest' hhash
        obtain ⟨rfl, rfl⟩ := Prod.mk.inj (Except.ok.inj h)
        have h₃ := Multihash.length_of_read? hhash
        rw [toBytes_v1, List.length_append, List.length_append, Varint.length_encode,
          Varint.length_encode, Varint.length_of_lt (show 1 < 128 by decide)]
        omega

theorem ofBytes_eq_ok_iff : ofBytes b = .ok c ↔ ∃ rest, read b = .ok (c, rest) := by
  unfold ofBytes
  cases read b with
  | error e => exact iff_of_false nofun nofun
  | ok p =>
    constructor
    · intro h
      obtain rfl : p.1 = c := Except.ok.inj h
      exact ⟨p.2, rfl⟩
    · rintro ⟨rest, h⟩
      obtain rfl := Except.ok.inj h
      rfl

theorem length_toBytes_le (h : ofBytes b = .ok c) : c.toBytes.length ≤ b.length := by
  obtain ⟨rest, hr⟩ := ofBytes_eq_ok_iff.mp h
  have := length_toBytes_of_read hr
  omega

/-! ### An identifier read back -/

theorem read_toBytes (c : Cid) (rest : Bytes) : read (c.toBytes ++ rest) = .ok (c, rest) := by
  cases hv : c.version with
  | v0 =>
    have hz := c.versionZero hv
    have hbytes : c.toBytes ++ rest = Varint.encode Multihash.sha2_256.toNat ++
        (Varint.encode Multihash.sha2_256Length ++ (c.hash.digest ++ rest)) := by
      unfold toBytes Multihash.toBytes
      rw [hv, hz.code_eq, hz.length_digest]
      simp only [List.append_assoc]
    have hcode := Varint.readMinimal_encode Multihash.sha2_256.toNat_lt
      (Varint.encode Multihash.sha2_256Length ++ (c.hash.digest ++ rest))
    have hlen := Varint.readMinimal_encode (show Multihash.sha2_256Length < UInt64.size by decide)
      (c.hash.digest ++ rest)
    rw [UInt64.ofNat_toNat] at hcode
    rw [hbytes, read_of_fields hcode hlen, if_pos ⟨rfl, rfl⟩]
    exact readVersionZero_eq_ok_iff.mpr ⟨hv, rfl⟩
  | v1 =>
    obtain ⟨version, codec, hash, vz⟩ := c
    obtain rfl : version = .v1 := hv
    have hbytes : (v1 codec hash).toBytes ++ rest =
        Varint.encode 1 ++ (Varint.encode codec.toNat ++ (hash.toBytes ++ rest)) := by
      rw [toBytes_v1]
      simp only [List.append_assoc]
    have hversion := Varint.readMinimal_encode (show 1 < UInt64.size by decide)
      (Varint.encode codec.toNat ++ (hash.toBytes ++ rest))
    have hcodec := Varint.readMinimal_encode codec.toNat_lt (hash.toBytes ++ rest)
    rw [UInt64.ofNat_toNat] at hcodec
    show read ((v1 codec hash).toBytes ++ rest) = .ok (v1 codec hash, rest)
    -- the version is 1, which is not the code of a hash function that stands in front of version 0
    rw [hbytes, read_of_fields hversion hcodec, if_neg fun h => absurd h.1 (by decide)]
    show (match Multihash.read? (hash.toBytes ++ rest) with
      | none => Except.error CidError.malformedHash
      | some (hash, rest) => Except.ok (v1 codec hash, rest)) = _
    rw [Multihash.read?_toBytes]

theorem ofBytes_toBytes (c : Cid) : ofBytes c.toBytes = .ok c := by
  have h := c.read_toBytes []
  rw [List.append_nil] at h
  exact ofBytes_eq_ok_iff.mpr ⟨[], h⟩

theorem make_self (c : Cid) : make c.version c.codec c.hash = .ok c := by
  unfold make
  obtain ⟨version, codec, hash, vz⟩ := c
  cases version with
  | v0 =>
    obtain ⟨hcodec, hcode, hlen⟩ := vz rfl
    show (if _ : codec = Codec.dagPb then _ else _) = _
    rw [dif_pos hcodec, dif_pos ⟨hcode, hlen⟩]
  | v1 => rfl

theorem hash_of_names {c : Cid} {data : Bytes} (h : c.Names data) : c.hash = .ofSha256 data := by
  obtain ⟨version, codec, ⟨code, digest, hle⟩, vz⟩ := c
  obtain ⟨rfl, rfl⟩ : code = Multihash.sha2_256 ∧ digest = sha256 data := h
  rfl

end Cid

/-! ### Prefixes -/

namespace Prefix

theorem readField_encode {n : Nat} (h : n < UInt64.size) (rest : Bytes) :
    readField (Varint.encode n ++ rest) = .ok (n, rest) := by
  unfold readField
  rw [Varint.read?_encode h]

theorem ofBytes_toBytes (p : Prefix) : ofBytes p.toBytes = .ok p := by
  obtain ⟨version, codec, hashCode, hashLength⟩ := p
  have hversion : version.toNat < UInt64.size := by cases version <;> decide
  have hbytes : toBytes ⟨version, codec, hashCode, hashLength⟩ =
      Varint.encode version.toNat ++ (Varint.encode codec.toNat ++ (Varint.encode hashCode.toNat ++
        (Varint.encode hashLength.toNat ++ []))) := rfl
  unfold ofBytes
  simp only [hbytes, readField_encode hversion, readField_encode codec.toNat_lt,
    readField_encode hashCode.toNat_lt, readField_encode hashLength.toNat_lt, bind, Except.bind,
    CidVersion.ofNat?_toNat, UInt64.ofNat_toNat, List.isEmpty_nil]
  rfl

/-- Content makes its identifier again from all but the digest. -/
theorem toCid_ofCid {c : Cid} {data : Bytes} (h : c.Names data) : (ofCid c).toCid data = .ok c := by
  have hcode : (ofCid c).hashCode = Multihash.sha2_256 := h.1
  have hlen : (ofCid c).hashLength = UInt64.ofNat Multihash.sha2_256Length := by
    show UInt64.ofNat c.hash.digest.length = _
    rw [h.2, length_sha256]
    rfl
  have hmake : Cid.make (ofCid c).version (ofCid c).codec (.ofSha256 data) = .ok c := by
    rw [← Cid.hash_of_names h]
    exact c.make_self
  unfold toCid
  rw [if_neg (not_not_intro hcode), if_neg (not_not_intro hlen), hmake]

end Prefix

/-! ### Wants -/

theorem Want.authBytes_ofWire (cid : Cid) (auth : Bytes) : (ofWire cid auth).authBytes = auth := by
  cases auth <;> rfl

namespace Entry

theorem toWant_eq_ok_iff {e : Entry} {w : Want} :
    e.toWant = .ok w ↔ ∃ cid, Cid.ofBytes e.block = .ok cid ∧ .ofWire cid e.auth = w := by
  unfold toWant
  cases Cid.ofBytes e.block with
  | error _ => exact iff_of_false nofun nofun
  | ok cid =>
    constructor
    · intro h; exact ⟨cid, rfl, Except.ok.inj h⟩
    · rintro ⟨cid', hcid, rfl⟩
      obtain rfl := Except.ok.inj hcid
      rfl

/-- What a peer reads an entry as. A token without bytes is none to it. -/
theorem toWant_want (w : Want) (type : WantType) (sendDontHave : Bool) :
    (want w type sendDontHave).toWant = .ok (.ofWire w.cid w.authBytes) :=
  toWant_eq_ok_iff.mpr ⟨w.cid, w.cid.ofBytes_toBytes, rfl⟩

end Entry
end BlockExchange
