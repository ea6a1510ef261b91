import BlockExchange.Bytes

/-!
# Variable-length numbers

A number written seven bits a byte, lowest first, every byte but the last with its high bit set.
There is one writer and there are two readers. `read?` takes any spelling of a 64-bit number in at
most ten bytes; `readMinimal` wants the shortest spelling and drops what the tenth byte holds beyond
64 bits.
-/

namespace BlockExchange.Varint

/-- No number of 64 bits is spelled with more bytes. -/
def maxLength : Nat := 10

def encode (n : Nat) : Bytes :=
  if n < 128 then [UInt8.ofNat n] else UInt8.ofNat (n % 128 + 128) :: encode (n / 128)
termination_by n
decreasing_by omega

def length (n : Nat) : Nat :=
  if n < 128 then 1 else length (n / 128) + 1
termination_by n
decreasing_by omega

@[simp] theorem length_encode (n : Nat) : (encode n).length = length n := by
  induction n using Nat.strongRecOn with
  | ind n ih =>
    rw [encode, length]
    split
    · rfl
    · simp [ih (n / 128) (by omega)]

theorem length_pos (n : Nat) : 0 < length n := by
  rw [length]; split <;> omega

theorem encode_ne_nil (n : Nat) : encode n ≠ [] := by
  rw [encode]; split <;> simp

/-- Reads a number of at most `limit` bytes. The last byte of the longest spelling holds one bit. -/
def readWithin : (limit : Nat) → Bytes → Option (Nat × Bytes)
  | 0, _ => none
  | _, [] => none
  | limit + 1, b :: rest =>
    if b.toNat < 128 then
      if limit = 0 ∧ 2 ≤ b.toNat then none else some (b.toNat, rest)
    else (readWithin limit rest).map fun (n, rest) => (b.toNat - 128 + 128 * n, rest)

/-- The number at the front of a byte string, in any spelling of up to ten bytes. -/
def read? (b : Bytes) : Option (Nat × Bytes) :=
  readWithin maxLength b

/-- How many bytes the number at the front takes up: all up to the first without its high bit. -/
def spelledLength (b : Bytes) : Nat :=
  (b.takeWhile (128 ≤ ·.toNat)).length + 1

theorem length_of_readWithin {limit n : Nat} {b rest : Bytes}
    (h : readWithin limit b = some (n, rest)) : b.length = spelledLength b + rest.length := by
  induction limit generalizing b n with
  | zero => simp [readWithin] at h
  | succ limit ih =>
    cases b with
    | nil => simp [readWithin] at h
    | cons x b =>
      rw [readWithin] at h
      split at h
      · have hx : ¬ 128 ≤ x.toNat := by omega
        split at h
        · simp at h
        · simp only [Option.some.injEq, Prod.mk.injEq] at h
          simp [spelledLength, hx, h.2]
          omega
      · have hx : 128 ≤ x.toNat := by omega
        obtain ⟨⟨m, r⟩, hr, he⟩ := Option.map_eq_some_iff.mp h
        simp only [Prod.mk.injEq] at he
        have := ih (he.2 ▸ hr)
        simp only [spelledLength, List.takeWhile_cons, hx, decide_true, if_true,
          List.length_cons] at this ⊢
        omega

inductive MinimalError
  | truncated
  | malformed
deriving DecidableEq, Repr

/-- Reads a number of at most `limit` bytes of which the last, unless it is the first, is not zero. -/
def readMinimalWithin (first : Bool) : (limit : Nat) → Bytes → Except MinimalError (Nat × Bytes)
  | 0, _ => .error .malformed
  | _, [] => .error .truncated
  | limit + 1, b :: rest =>
    if b.toNat < 128 then
      if b = 0 ∧ !first then .error .malformed else .ok (b.toNat, rest)
    else do
      let (n, rest) ← readMinimalWithin false limit rest
      return (b.toNat - 128 + 128 * n, rest)

/-- The minimally spelled number at the front, modulo 2^64. -/
def readMinimal (b : Bytes) : Except MinimalError (UInt64 × Bytes) := do
  let (n, rest) ← readMinimalWithin true maxLength b
  return (UInt64.ofNat n, rest)

end BlockExchange.Varint
