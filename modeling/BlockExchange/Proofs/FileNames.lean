import BlockExchange.Proofs.CidBytes
import BlockExchange.Proofs.TextForms
import BlockExchange.Store.BlockWrite

/-!
# The names of block files

The text of an identifier names its block in a directory. No two identifiers have the same text
(`Cid.text_injective`): a version-0 text begins with `Q` and a version-1 text with `b`, and both give
the binary form back. A text consists of letters and digits. The name under which a block is put
together is such a text with more behind it: a directory takes it as a name, and as it has dots in it,
it is never the name of a block.
-/

namespace BlockExchange

/-! ### Texts of identifiers -/

namespace Cid
variable {c c' : Cid}

theorem toBytes_injective (h : c.toBytes = c'.toBytes) : c = c' := by
  have hread := ofBytes_toBytes c
  rw [h, ofBytes_toBytes] at hread
  exact (Except.ok.inj hread).symm

theorem length_toBytes_bounded (c : Cid) : c.toBytes.length ≤ 104 := by
  have hcodec := Varint.length_le_maxLength c.codec.toNat_lt
  have hcode := Varint.length_le_maxLength c.hash.code.toNat_lt
  have hle := c.hash.length_digest_le
  have hsize : Varint.length c.hash.digest.length ≤ Varint.maxLength :=
    Varint.length_le_maxLength (Nat.lt_of_le_of_lt hle (by decide))
  have hversion : Varint.length c.version.toNat ≤ Varint.maxLength :=
    Varint.length_le_maxLength (by cases c.version <;> decide)
  have hmax : Varint.maxLength = 10 := rfl
  have hhash := c.hash.length_toBytes
  unfold toBytes
  split
  · omega
  · rw [List.length_append, List.length_append, Varint.length_encode, Varint.length_encode]
    omega

theorem toBytes_of_v0 (h : c.version = .v0) :
    c.toBytes = 0x12 :: 0x20 :: c.hash.digest ∧ c.hash.digest.length = 32 := by
  have hz := c.versionZero h
  have hcode : Varint.encode Multihash.sha2_256.toNat = [0x12] := by rw [Varint.encode]; rfl
  have hsize : Varint.encode Multihash.sha2_256Length = [0x20] := by rw [Varint.encode]; rfl
  refine ⟨?_, hz.length_digest⟩
  unfold toBytes Multihash.toBytes
  rw [h]
  simp only [hz.code_eq, hz.length_digest, hcode, hsize]
  rfl

theorem toList_text_of_v1 (h : c.version = .v1) :
    c.text.toList = 'b' :: Base32.encodeChars c.toBytes := by
  unfold text Base32.encode
  simp only [h, String.toList_append, String.toList_ofList]
  rfl

theorem toList_text_of_v0 (h : c.version = .v0) :
    c.text.toList = Base58.digits c.toBytes.toNat := by
  unfold text Base58.encode
  rw [h, (toBytes_of_v0 h).1]
  simp only [String.toList_ofList]
  rfl

/-- The two bytes before the digest decide about the first digit of all. -/
theorem digits_of_v0 (h : c.version = .v0) :
    ∃ rest, Base58.digits c.toBytes.toNat = 'Q' :: rest ∧ rest.length ≤ 46 := by
  obtain ⟨hbytes, hlen⟩ := toBytes_of_v0 h
  have hdigest : c.hash.digest.toNat < 256 ^ 32 := hlen ▸ c.hash.digest.toNat_lt
  have hnat : c.toBytes.toNat = 0x1220 * 256 ^ 32 + c.hash.digest.toNat := by
    have happend := Bytes.toNat_append [0x12, 0x20] c.hash.digest
    rw [hlen] at happend
    rw [hbytes]
    exact happend
  have hhigh : c.toBytes.toNat / 58 ^ 45 = 23 := by
    rw [hnat]
    omega
  have hfirst : Base58.digits 23 = ['Q'] := by
    rw [Base58.digits_of_ne_zero (by decide), Base58.digits_zero]
    rfl
  obtain ⟨rest, hrest⟩ := Base58.digits_div_prefix c.toBytes.toNat 45
  rw [hhigh, hfirst] at hrest
  refine ⟨rest, hrest.symm, ?_⟩
  have hle : (Base58.digits c.toBytes.toNat).length ≤ 47 := Base58.length_digits_le (by omega)
  rw [← hrest] at hle
  exact Nat.le_of_succ_le_succ hle

theorem text_injective (h : c.text = c'.text) : c = c' := by
  have hlist := congrArg String.toList h
  apply toBytes_injective
  cases hv : c.version with
  | v0 =>
    obtain ⟨rest, hq, -⟩ := digits_of_v0 hv
    cases hv' : c'.version with
    | v0 =>
      rw [toList_text_of_v0 hv, toList_text_of_v0 hv'] at hlist
      obtain ⟨hbytes, hlen⟩ := toBytes_of_v0 hv
      obtain ⟨hbytes', hlen'⟩ := toBytes_of_v0 hv'
      refine Bytes.eq_of_toNat ?_ (Base58.digits_injective hlist)
      rw [hbytes, hbytes', List.length_cons, List.length_cons, List.length_cons, List.length_cons,
        hlen, hlen']
    | v1 =>
      rw [toList_text_of_v0 hv, toList_text_of_v1 hv', hq] at hlist
      exact absurd (List.cons.inj hlist).1 (by decide)
  | v1 =>
    cases hv' : c'.version with
    | v0 =>
      obtain ⟨rest, hq, -⟩ := digits_of_v0 hv'
      rw [toList_text_of_v1 hv, toList_text_of_v0 hv', hq] at hlist
      exact absurd (List.cons.inj hlist).1 (by decide)
    | v1 =>
      rw [toList_text_of_v1 hv, toList_text_of_v1 hv'] at hlist
      exact Base32.encodeChars_injective (List.cons.inj hlist).2

theorem isAlphanum_of_mem_text {x : Char} (h : x ∈ c.text.toList) : x.isAlphanum = true := by
  cases hv : c.version with
  | v0 =>
    rw [toList_text_of_v0 hv] at h
    exact Base58.isAlphanum_of_mem_digits h
  | v1 =>
    rw [toList_text_of_v1 hv] at h
    rcases List.mem_cons.mp h with rfl | h
    · decide
    · exact Base32.isAlphanum_of_mem_encodeChars h

theorem toList_text_ne_nil (c : Cid) : c.text.toList ≠ [] := by
  cases hv : c.version with
  | v0 =>
    obtain ⟨rest, hq, -⟩ := digits_of_v0 hv
    rw [toList_text_of_v0 hv, hq]
    nofun
  | v1 =>
    rw [toList_text_of_v1 hv]
    nofun

theorem length_text_le (c : Cid) : c.text.toList.length ≤ 168 := by
  cases hv : c.version with
  | v0 =>
    obtain ⟨rest, hq, hrest⟩ := digits_of_v0 hv
    rw [toList_text_of_v0 hv, hq, List.length_cons]
    omega
  | v1 =>
    have := c.length_toBytes_bounded
    rw [toList_text_of_v1 hv, List.length_cons, Base32.length_encodeChars]
    omega

end Cid

/-! ### Names that a directory takes -/

namespace Directory

/-- The characters of the names that stores give. -/
def IsNameChar (c : Char) : Prop :=
  c.isAlphanum = true ∨ c = '.'

theorem ne_of_isAlphanum {c x : Char} (h : c.isAlphanum = true) (hx : x.isAlphanum = false) :
    c ≠ x := by
  rintro rfl
  exact Bool.noConfusion (h.symm.trans hx)

theorem val_le_of_isAlphanum {c : Char} (h : c.isAlphanum = true) : c.val ≤ 122 := by
  simp only [Char.isAlphanum, Char.isAlpha, Char.isUpper, Char.isLower, Char.isDigit,
    Bool.or_eq_true, Bool.and_eq_true, decide_eq_true_eq] at h
  rcases h with (⟨-, h⟩ | ⟨-, h⟩) | ⟨-, h⟩
  · exact UInt32.le_trans h (by decide)
  · exact h
  · exact UInt32.le_trans h (by decide)

theorem utf8ByteSize_of_nameChars {cs : List Char} (h : ∀ c ∈ cs, IsNameChar c) :
    (String.ofList cs).utf8ByteSize = cs.length := by
  induction cs with
  | nil => rfl
  | cons c cs ih =>
    have hsize : c.utf8Size = 1 := by
      rcases h c List.mem_cons_self with hc | rfl
      · unfold Char.utf8Size
        exact if_pos (UInt32.le_trans (val_le_of_isAlphanum hc) (by decide))
      · decide
    rw [String.ofList_cons, String.utf8ByteSize_append, String.utf8ByteSize_singleton, hsize,
      ih fun c hc => h c (List.mem_cons_of_mem _ hc), List.length_cons, Nat.add_comm]

theorem isPlainName_of_nameChars {name : String} {first : Char} {rest : List Char}
    (hname : name.toList = first :: rest) (hfirst : first.isAlphanum = true)
    (hchars : ∀ c ∈ name.toList, IsNameChar c) (hlen : name.toList.length ≤ maxNameSize) :
    isPlainName name = true := by
  have hsize := utf8ByteSize_of_nameChars hchars
  rw [String.ofList_toList] at hsize
  have hnotdot : first ≠ '.' := ne_of_isAlphanum hfirst (by decide)
  have hne : ∀ other : String, other.toList = [] ∨ other.toList.head? = some '.' → name ≠ other := by
    rintro other hother rfl
    rw [hname] at hother
    rcases hother with h | h
    · cases h
    · exact hnotdot (Option.some.inj h)
  have hempty : name.isEmpty = false := by
    cases h : name.isEmpty with
    | false => rfl
    | true => exact absurd (String.isEmpty_iff.mp h) (hne "" (.inl rfl))
  have hall : (name.toList.all fun c => c != '/' && c != '\x00') = true := by
    rw [List.all_eq_true]
    intro c hc
    rcases hchars c hc with h | rfl
    · have hslash : c ≠ '/' := ne_of_isAlphanum h (by decide)
      have hzero : c ≠ '\x00' := ne_of_isAlphanum h (by decide)
      simp [hslash, hzero]
    · decide
  unfold isPlainName
  simp [hempty, hall, hne "." (.inr rfl), hne ".." (.inr rfl), hsize, hlen]

end Directory

namespace BlockWrite
variable {c c' : Cid}

theorem blockName_injective (h : blockName c = blockName c') : c = c' :=
  Cid.text_injective h

theorem isPlainName_of_text {c : Cid} {tail : List Char} {name : String}
    (hname : name.toList = c.text.toList ++ tail) (htail : ∀ x ∈ tail, Directory.IsNameChar x)
    (hlen : tail.length ≤ 64) : Directory.isPlainName name = true := by
  obtain ⟨first, rest, hfirst⟩ := List.exists_cons_of_ne_nil c.toList_text_ne_nil
  have hle := c.length_text_le
  have hcons : name.toList = first :: (rest ++ tail) := by
    rw [hname, hfirst]
    rfl
  refine Directory.isPlainName_of_nameChars hcons
    (Cid.isAlphanum_of_mem_text (hfirst ▸ List.mem_cons_self)) ?_ ?_
  · intro x hx
    rw [hname] at hx
    rcases List.mem_append.mp hx with hx | hx
    · exact .inl (Cid.isAlphanum_of_mem_text hx)
    · exact htail x hx
  · rw [hname, List.length_append]
    show _ ≤ 255
    omega

theorem toList_partialName (c : Cid) (serial : UInt64) : (partialName c serial).toList =
    c.text.toList ++ ('.' :: ((Bytes.ofNat 8 serial.toNat).flatMap
      (fun x => [Hex.digit (x.toNat / 16), Hex.digit (x.toNat % 16)]) ++ ".partial".toList)) := by
  unfold partialName Hex.encode
  simp only [String.toList_append, String.toList_ofList, List.append_assoc]
  rfl

theorem isPlainName_partialName (c : Cid) (serial : UInt64) :
    Directory.isPlainName (partialName c serial) = true := by
  refine isPlainName_of_text (toList_partialName c serial) (fun x hx => ?_) ?_
  · rcases List.mem_cons.mp hx with rfl | hx
    · exact .inr rfl
    rcases List.mem_append.mp hx with hx | hx
    · obtain ⟨b, -, hb⟩ := List.mem_flatMap.mp hx
      have hlt : b.toNat < 256 := b.toNat_lt
      simp only [List.mem_cons, List.not_mem_nil, or_false] at hb
      rcases hb with rfl | rfl
      · exact .inl (Hex.isAlphanum_digit (by omega))
      · exact .inl (Hex.isAlphanum_digit (by omega))
    · have hall : (".partial".toList.all fun x => x.isAlphanum || x == '.') = true := by decide
      simpa [Directory.IsNameChar] using List.all_eq_true.mp hall x hx
  · simp [List.length_flatMap, List.map_const']

/-- The text of an identifier has no dot. -/
theorem blockName_ne_partialName (c c' : Cid) (serial : UInt64) :
    blockName c ≠ partialName c' serial := by
  intro h
  have hdot : '.' ∈ (partialName c' serial).toList := by
    rw [toList_partialName]
    exact List.mem_append_right _ List.mem_cons_self
  rw [← h] at hdot
  exact Directory.ne_of_isAlphanum (Cid.isAlphanum_of_mem_text hdot) (by decide) rfl

end BlockWrite
end BlockExchange
