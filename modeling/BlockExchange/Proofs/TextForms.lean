import BlockExchange.Proofs.RoundTrip
import BlockExchange.Text.Base32
import BlockExchange.Text.Base58
import BlockExchange.Text.Hex
import Mathlib

/-!
# Bytes and numbers as text

No two byte strings have the same base 32 text (`Base32.encodeChars_injective`), and no two numbers the
same base 58 digits (`Base58.digits_injective`). All of them, and hexadecimal digits too, are letters
and digits.
-/

namespace BlockExchange

namespace Bytes

theorem toNat_lt (b : Bytes) : b.toNat < 256 ^ b.length := by
  induction b using List.reverseRecOn with
  | nil => decide
  | append_singleton b x ih =>
    have hx : x.toNat < 256 := x.toNat_lt
    rw [toNat_concat, List.length_append, List.length_singleton, Nat.pow_succ]
    omega

theorem toNat_append (a b : Bytes) : toNat (a ++ b) = a.toNat * 256 ^ b.length + b.toNat := by
  induction b using List.reverseRecOn with
  | nil => rw [List.append_nil]; exact (Nat.mul_one _).symm
  | append_singleton b x ih =>
    rw [← List.append_assoc, toNat_concat, toNat_concat, ih, List.length_append, List.length_singleton,
      Nat.pow_succ, Nat.add_mul, Nat.mul_assoc, Nat.add_assoc]

theorem ofNat_toNat (b : Bytes) : ofNat b.length b.toNat = b := by
  induction b using List.reverseRecOn with
  | nil => rfl
  | append_singleton b x ih =>
    have hx : x.toNat < 256 := x.toNat_lt
    have hdiv : (toNat b * 256 + x.toNat) / 256 = toNat b := by omega
    have hlow : UInt8.ofNat (toNat b * 256 + x.toNat) = x := by
      apply UInt8.toNat_inj.mp
      rw [UInt8.toNat_ofNat']
      omega
    rw [toNat_concat, List.length_append, List.length_singleton, ofNat, hdiv, ih, hlow]

theorem eq_of_toNat {b c : Bytes} (hlen : b.length = c.length) (h : b.toNat = c.toNat) : b = c := by
  rw [← ofNat_toNat b, ← ofNat_toNat c, hlen, h]

end Bytes

/-! ### Base 32 -/

namespace Base32

theorem digit_injective {m n : Nat} (hm : m < 32) (hn : n < 32) (h : digit m = digit n) : m = n := by
  have hall : ∀ m n : Fin 32, digit m = digit n → m = n := by decide +kernel
  exact congrArg Fin.val (hall ⟨m, hm⟩ ⟨n, hn⟩ h)

theorem isAlphanum_digit {n : Nat} (h : n < 32) : (digit n).isAlphanum = true := by
  have hall : ∀ n : Fin 32, (digit n).isAlphanum = true := by decide +kernel
  exact hall ⟨n, h⟩

@[simp] theorem length_digits (count n : Nat) : (digits count n).length = count := by
  induction count generalizing n with
  | zero => rfl
  | succ count ih => rw [digits, List.length_append, ih, List.length_singleton]

theorem isAlphanum_of_mem_digits {count n : Nat} {c : Char} (h : c ∈ digits count n) :
    c.isAlphanum = true := by
  induction count generalizing n with
  | zero => cases h
  | succ count ih =>
    rcases List.mem_append.mp h with h | h
    · exact ih h
    · rw [List.mem_singleton.mp h]
      exact isAlphanum_digit (Nat.mod_lt _ (by decide))

theorem digits_injective {count m n : Nat} (hm : m < 32 ^ count) (hn : n < 32 ^ count)
    (h : digits count m = digits count n) : m = n := by
  induction count generalizing m n with
  | zero => omega
  | succ count ih =>
    rw [Nat.pow_succ] at hm hn
    obtain ⟨hhigh, hlow⟩ := List.append_inj' h rfl
    have hdiv : m / 32 = n / 32 := ih (by omega) (by omega) hhigh
    have hmod : m % 32 = n % 32 :=
      digit_injective (Nat.mod_lt _ (by decide)) (Nat.mod_lt _ (by decide)) (List.cons.inj hlow).1
    omega

theorem encodeChars_append {front : Bytes} (h : front.length = 5) (rest : Bytes) :
    encodeChars (front ++ rest) = digits 8 front.toNat ++ encodeChars rest := by
  match front, h with
  | [_, _, _, _, _], _ => rfl

theorem encodeChars_tail {tail : Bytes} (h : tail.length < 5) : encodeChars tail =
    digits ((tail.length * 8 + 4) / 5) (tail.toNat <<< ((5 - tail.length * 8 % 5) % 5)) := by
  match tail, h with
  | [], _ => rfl
  | [_], _ => rfl
  | [_, _], _ => rfl
  | [_, _, _], _ => rfl
  | [_, _, _, _], _ => rfl

/-- A byte string is taken five bytes at a time. -/
theorem inFives {motive : Bytes → Prop} (tail : ∀ b : Bytes, b.length < 5 → motive b)
    (step : ∀ front rest : Bytes, front.length = 5 → motive rest → motive (front ++ rest))
    (b : Bytes) : motive b := by
  generalize hlen : b.length = n
  induction n using Nat.strongRecOn generalizing b with
  | ind n ih =>
    by_cases hshort : b.length < 5
    · exact tail b hshort
    · have hrest : (b.drop 5).length < n := by
        rw [List.length_drop]
        omega
      rw [← List.take_append_drop 5 b]
      exact step _ _ (by rw [List.length_take]; omega) (ih _ hrest _ rfl)

theorem length_encodeChars (b : Bytes) : (encodeChars b).length = (b.length * 8 + 4) / 5 := by
  induction b using inFives with
  | tail b h => rw [encodeChars_tail h, length_digits]
  | step front rest h ih =>
    rw [encodeChars_append h, List.length_append, length_digits, ih, List.length_append, h]
    omega

theorem isAlphanum_of_mem_encodeChars {b : Bytes} {c : Char} (hc : c ∈ encodeChars b) :
    c.isAlphanum = true := by
  induction b using inFives with
  | tail b h =>
    rw [encodeChars_tail h] at hc
    exact isAlphanum_of_mem_digits hc
  | step front rest h ih =>
    rw [encodeChars_append h] at hc
    rcases List.mem_append.mp hc with hc | hc
    · exact isAlphanum_of_mem_digits hc
    · exact ih hc

/-- The bits of a tail, filled up with zeros, fit its characters. -/
theorem shifted_lt {k n : Nat} (hk : k < 5) (hn : n < 256 ^ k) :
    n <<< ((5 - k * 8 % 5) % 5) < 32 ^ ((k * 8 + 4) / 5) := by
  rw [Nat.shiftLeft_eq]
  match k, hk with
  | 0, _ => show n * 1 < 1; omega
  | 1, _ => show n * 4 < 1024; omega
  | 2, _ => show n * 16 < 1048576; omega
  | 3, _ => show n * 2 < 33554432; omega
  | 4, _ => show n * 8 < 34359738368; omega

theorem encodeChars_injective {b c : Bytes} (h : encodeChars b = encodeChars c) : b = c := by
  have hlen : b.length = c.length := by
    have := congrArg List.length h
    rw [length_encodeChars, length_encodeChars] at this
    omega
  induction b using inFives generalizing c with
  | tail b hb =>
    rw [encodeChars_tail hb, encodeChars_tail (hlen ▸ hb), ← hlen] at h
    have heq := digits_injective (shifted_lt hb b.toNat_lt) (shifted_lt hb (hlen ▸ c.toNat_lt)) h
    rw [Nat.shiftLeft_eq, Nat.shiftLeft_eq] at heq
    exact Bytes.eq_of_toNat hlen (Nat.eq_of_mul_eq_mul_right (Nat.two_pow_pos _) heq)
  | step front rest hfront ih =>
    have hc : (c.take 5).length = 5 := by
      rw [List.length_take, ← hlen, List.length_append]
      omega
    rw [← List.take_append_drop 5 c] at h hlen ⊢
    rw [encodeChars_append hfront, encodeChars_append hc] at h
    obtain ⟨hdigits, hrest⟩ := List.append_inj h (by rw [length_digits, length_digits])
    have hbound : ∀ x : Bytes, x.length = 5 → x.toNat < 32 ^ 8 := fun x hx => by
      have := hx ▸ x.toNat_lt
      exact this
    have hnat := digits_injective (hbound _ hfront) (hbound _ hc) hdigits
    rw [List.length_append, List.length_append, hfront, hc] at hlen
    rw [Bytes.eq_of_toNat (hfront.trans hc.symm) hnat, ih hrest (Nat.add_left_cancel hlen)]

end Base32

/-! ### Base 58 -/

namespace Base58

theorem digit_injective {m n : Nat} (hm : m < 58) (hn : n < 58) (h : digit m = digit n) : m = n := by
  have hall : ∀ m n : Fin 58, digit m = digit n → m = n := by decide +kernel
  exact congrArg Fin.val (hall ⟨m, hm⟩ ⟨n, hn⟩ h)

theorem isAlphanum_digit {n : Nat} (h : n < 58) : (digit n).isAlphanum = true := by
  have hall : ∀ n : Fin 58, (digit n).isAlphanum = true := by decide +kernel
  exact hall ⟨n, h⟩

theorem digits_zero : digits 0 = [] := by
  rw [digits, if_pos rfl]

theorem digits_of_ne_zero {n : Nat} (h : n ≠ 0) : digits n = digits (n / 58) ++ [digit (n % 58)] := by
  rw [digits, if_neg h]

theorem digits_eq_nil_iff {n : Nat} : digits n = [] ↔ n = 0 := by
  by_cases h : n = 0
  · rw [h]
    exact iff_of_true digits_zero rfl
  · rw [digits_of_ne_zero h]
    simp [h]

theorem isAlphanum_of_mem_digits {n : Nat} {c : Char} (h : c ∈ digits n) : c.isAlphanum = true := by
  induction n using digits.induct with
  | case1 => rw [digits_zero] at h; cases h
  | case2 n hn ih =>
    rw [digits_of_ne_zero hn] at h
    rcases List.mem_append.mp h with h | h
    · exact ih h
    · rw [List.mem_singleton.mp h]
      exact isAlphanum_digit (Nat.mod_lt _ (by decide))

theorem digits_injective {m n : Nat} (h : digits m = digits n) : m = n := by
  induction m using digits.induct generalizing n with
  | case1 =>
    rw [digits_zero] at h
    exact (digits_eq_nil_iff.mp h.symm).symm
  | case2 m hm ih =>
    have hn : n ≠ 0 := fun hn => hm (digits_eq_nil_iff.mp (h.trans (digits_eq_nil_iff.mpr hn)))
    rw [digits_of_ne_zero hm, digits_of_ne_zero hn] at h
    obtain ⟨hhigh, hlow⟩ := List.append_inj' h rfl
    have hdiv := ih hhigh
    have hmod := digit_injective (Nat.mod_lt _ (by decide)) (Nat.mod_lt _ (by decide))
      (List.cons.inj hlow).1
    omega

theorem length_digits_le {n k : Nat} (h : n < 58 ^ k) : (digits n).length ≤ k := by
  induction k generalizing n with
  | zero =>
    obtain rfl : n = 0 := by omega
    rw [digits_zero]
    exact Nat.le_refl _
  | succ k ih =>
    by_cases hn : n = 0
    · rw [hn, digits_zero]
      exact Nat.zero_le _
    · rw [Nat.pow_succ] at h
      rw [digits_of_ne_zero hn, List.length_append, List.length_singleton]
      exact Nat.succ_le_succ (ih (by omega))

/-- The digits of a number begin with those of its high part. -/
theorem digits_div_prefix (n k : Nat) : digits (n / 58 ^ k) <+: digits n := by
  induction k generalizing n with
  | zero =>
    have hdiv : n / 58 ^ 0 = n := Nat.div_one n
    exact hdiv.symm ▸ List.prefix_refl _
  | succ k ih =>
    have hdiv : n / 58 ^ (k + 1) = n / 58 / 58 ^ k := by
      rw [Nat.pow_succ, Nat.mul_comm, Nat.div_div_eq_div_mul]
    rw [hdiv]
    refine (ih (n / 58)).trans ?_
    by_cases hn : n = 0
    · subst hn
      exact List.prefix_refl _
    · exact digits_of_ne_zero hn ▸ List.prefix_append _ _

end Base58

theorem Hex.isAlphanum_digit {n : Nat} (h : n < 16) : (Hex.digit n).isAlphanum = true := by
  have hall : ∀ n : Fin 16, (Hex.digit n).isAlphanum = true := by decide +kernel
  exact hall ⟨n, h⟩

end BlockExchange
