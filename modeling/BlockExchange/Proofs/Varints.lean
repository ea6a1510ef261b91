import BlockExchange.Proofs.Identifiers

/-!
# Numbers and the bytes they take

A larger number is not spelled with fewer bytes (`length_mono`). What a reader takes off the front is
never shorter than the number's own spelling, however it was spelled there (`length_of_read?`,
`length_of_readMinimal`), and `read?` takes back what `encode` wrote.
-/

namespace BlockExchange.Varint

/-! ### Lengths -/

theorem length_of_le {n : Nat} (h : 128 ≤ n) : length n = length (n / 128) + 1 := by
  rw [length, if_neg (by omega)]

theorem length_mono {m n : Nat} (h : m ≤ n) : length m ≤ length n := by
  induction n using Nat.strongRecOn generalizing m with
  | ind n ih =>
    by_cases hm : m < 128
    · rw [length_of_lt hm]; exact length_pos n
    · have hdiv : length (m / 128) ≤ length (n / 128) :=
        ih (n / 128) (by omega) (Nat.div_le_div_right h)
      have hn : 128 ≤ n := by omega
      rw [length_of_le (Nat.le_of_not_lt hm), length_of_le hn]
      omega

/-- One more group of seven bits takes one more byte. -/
theorem length_group_le {x : Nat} (hx : x < 128) (n : Nat) : length (x + 128 * n) ≤ length n + 1 := by
  have hdiv : (x + 128 * n) / 128 = n := by omega
  exact length_le_succ (Nat.le_of_eq (congrArg length hdiv))

theorem length_of_readWithin_le {limit n : Nat} {b rest : Bytes}
    (h : readWithin limit b = some (n, rest)) : length n + rest.length ≤ b.length := by
  induction limit generalizing b n with
  | zero => cases h
  | succ limit ih =>
    cases b with
    | nil => cases h
    | cons x b =>
      have hx := x.toNat_lt
      rw [readWithin] at h
      split at h
      · rename_i hlast
        split at h
        · cases h
        · obtain ⟨rfl, rfl⟩ := Prod.mk.inj (Option.some.inj h)
          rw [length_of_lt hlast, List.length_cons]
          omega
      · obtain ⟨⟨m, r⟩, hr, he⟩ := Option.map_eq_some_iff.mp h
        obtain ⟨rfl, rfl⟩ := Prod.mk.inj he
        have hrest := ih hr
        have hgroup := length_group_le (x := x.toNat - 128) (by omega) m
        rw [List.length_cons]
        omega

theorem length_of_read? {n : Nat} {b rest : Bytes} (h : read? b = some (n, rest)) :
    length n + rest.length ≤ b.length :=
  length_of_readWithin_le h

theorem length_of_readMinimalWithin {first : Bool} {limit n : Nat} {b rest : Bytes}
    (h : readMinimalWithin first limit b = .ok (n, rest)) : length n + rest.length ≤ b.length := by
  induction limit generalizing first b n with
  | zero => cases h
  | succ limit ih =>
    cases b with
    | nil => cases h
    | cons x b =>
      have hx := x.toNat_lt
      rw [readMinimalWithin] at h
      split at h
      · rename_i hlast
        split at h
        · cases h
        · obtain ⟨rfl, rfl⟩ := Prod.mk.inj (Except.ok.inj h)
          rw [length_of_lt hlast, List.length_cons]
          omega
      · cases hr : readMinimalWithin false limit b with
        | error e => rw [hr] at h; cases h
        | ok r =>
          rw [hr] at h
          obtain ⟨rfl, rfl⟩ := Prod.mk.inj (Except.ok.inj h)
          have hrest : length r.1 + r.2.length ≤ b.length := ih hr
          have hgroup := length_group_le (x := x.toNat - 128) (by omega) r.1
          rw [List.length_cons]
          omega

/-- The bits beyond 64 that are dropped make the number no longer. -/
theorem length_of_readMinimal {n : UInt64} {b rest : Bytes} (h : readMinimal b = .ok (n, rest)) :
    length n.toNat + rest.length ≤ b.length := by
  unfold readMinimal at h
  cases hr : readMinimalWithin true maxLength b with
  | error e => rw [hr] at h; cases h
  | ok r =>
    rw [hr] at h
    obtain ⟨rfl, rfl⟩ := Prod.mk.inj (Except.ok.inj h)
    have hlen : length r.1 + r.2.length ≤ b.length := length_of_readMinimalWithin hr
    have hmod : length (UInt64.ofNat r.1).toNat ≤ length r.1 := by
      rw [UInt64.toNat_ofNat']
      exact length_mono (Nat.mod_le _ _)
    show length (UInt64.ofNat r.1).toNat + r.2.length ≤ b.length
    omega

/-! ### Reading back -/

theorem readWithin_encode (limit : Nat) {n : Nat} (h : n < 2 * Nat.pow 128 limit) (rest : Bytes) :
    readWithin (limit + 1) (encode n ++ rest) = some (n, rest) := by
  induction limit generalizing n with
  | zero =>
    have hn : n < 2 := h
    have hx : (UInt8.ofNat n).toNat = n := UInt8.toNat_ofNat_of_lt' (show n < 256 by omega)
    rw [encode, if_pos (by omega), List.singleton_append, readWithin, hx, if_pos (by omega),
      if_neg (by omega)]
  | succ limit ih =>
    rw [encode]
    split
    · rename_i hn
      have hx : (UInt8.ofNat n).toNat = n := UInt8.toNat_ofNat_of_lt' (show n < 256 by omega)
      rw [List.singleton_append, readWithin, hx, if_pos hn, if_neg (by omega)]
    · rename_i hn
      have hx : (UInt8.ofNat (n % 128 + 128)).toNat = n % 128 + 128 :=
        UInt8.toNat_ofNat_of_lt' (show n % 128 + 128 < 256 by omega)
      have hdiv : n / 128 < 2 * Nat.pow 128 limit := by
        have hpow : Nat.pow 128 (limit + 1) = Nat.pow 128 limit * 128 := rfl
        rw [hpow] at h
        omega
      rw [List.cons_append, readWithin, hx, if_neg (by omega), ih hdiv]
      show some (n % 128 + 128 - 128 + 128 * (n / 128), rest) = some (n, rest)
      rw [show n % 128 + 128 - 128 + 128 * (n / 128) = n by omega]

theorem read?_encode {n : Nat} (h : n < UInt64.size) (rest : Bytes) :
    read? (encode n ++ rest) = some (n, rest) :=
  -- nine groups of seven bits and one bit more are 64
  readWithin_encode 9 h rest

end BlockExchange.Varint
