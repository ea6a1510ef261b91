/-!
# Byte strings

`Bytes` is a list of bytes. The module holds the three things done to byte strings everywhere:
fixed-width big-endian numbers, cutting a known number of bytes off the front (`splitAt?`), and the
bytewise order (`compare`), in which a proper beginning comes first.
-/

namespace BlockExchange

abbrev Bytes := List UInt8

namespace Bytes

/-- The low `width` bytes of `n`, most significant first. -/
def ofNat : (width : Nat) → (n : Nat) → Bytes
  | 0, _ => []
  | width + 1, n => ofNat width (n / 256) ++ [UInt8.ofNat n]

/-- The number whose bytes these are, most significant first. -/
def toNat (b : Bytes) : Nat :=
  b.foldl (fun n x => n * 256 + x.toNat) 0

@[simp] theorem length_ofNat (width n : Nat) : (ofNat width n).length = width := by
  induction width generalizing n with
  | zero => rfl
  | succ width ih => simp [ofNat, ih]

/-- The first `n` bytes and the rest, or nothing if there are fewer than `n`. -/
def splitAt? (n : Nat) (b : Bytes) : Option (Bytes × Bytes) :=
  let r := b.splitAt n
  if r.1.length = n then some r else none

theorem splitAt?_eq_some_iff {n : Nat} {b front rest : Bytes} :
    splitAt? n b = some (front, rest) ↔ front.length = n ∧ b = front ++ rest := by
  simp only [splitAt?, List.splitAt_eq]
  constructor
  · intro h
    split at h
    · simp only [Option.some.injEq, Prod.mk.injEq] at h
      obtain ⟨rfl, rfl⟩ := h
      exact ⟨‹_›, (List.take_append_drop n b).symm⟩
    · simp at h
  · rintro ⟨rfl, rfl⟩
    simp

@[simp] theorem splitAt?_append (front rest : Bytes) :
    splitAt? front.length (front ++ rest) = some (front, rest) :=
  splitAt?_eq_some_iff.mpr ⟨rfl, rfl⟩

/-- Bytewise order; a proper beginning of a byte string comes before it. -/
protected def compare : Bytes → Bytes → Ordering
  | [], [] => .eq
  | [], _ :: _ => .lt
  | _ :: _, [] => .gt
  | x :: xs, y :: ys =>
    if x < y then .lt else if y < x then .gt else Bytes.compare xs ys

protected def ble (a b : Bytes) : Bool :=
  (a.compare b).isLE

end Bytes
end BlockExchange
