/-!
# TOML numbers and dates

Each is one word of letters, digits and a few marks. An integer is read (`integer?`); of a
floating-point number and of a date it is only said whether the word is one.
-/

namespace BlockExchange.Toml.Number

def isWordChar (c : Char) : Bool :=
  c.isAlphanum || c = '_' || c = '-' || c = '+' || c = '.' || c = ':'

def digitValue (c : Char) : Nat :=
  if c.isDigit then c.toNat - 48 else c.toLower.toNat - 87

/-- The number that digits tell, underscores left out. -/
def ofDigits (base : Nat) (digits : List Char) : Nat :=
  (digits.filter (· ≠ '_')).foldl (fun n c => n * base + digitValue c) 0

/-- Skips digits with single underscores between them; `after` says whether a digit stands before. -/
def skipDigits (isDigit : Char → Bool) : (after : Bool) → List Char → List Char
  | _, [] => []
  | after, '_' :: c :: s =>
    if after && isDigit c then skipDigits isDigit true s else '_' :: c :: s
  | _, c :: s => if isDigit c then skipDigits isDigit true s else c :: s

/-- Splits one or more digits, with single underscores between them, off the front. -/
def digits? (isDigit : Char → Bool) (s : List Char) : Option (List Char × List Char) :=
  let rest := skipDigits isDigit false s
  if rest.length < s.length then some (s.take (s.length - rest.length), rest) else none

/-- Digits without a leading zero, or the digit zero. -/
def decimal? (s : List Char) : Option (List Char × List Char) :=
  match s with
  | '0' :: s => some (['0'], s)
  | s => digits? Char.isDigit s

/-- Whether a minus stands in front, and what follows the sign. -/
def sign (s : List Char) : Bool × List Char :=
  match s with
  | '-' :: s => (true, s)
  | '+' :: s => (false, s)
  | s => (false, s)

def isHexDigit (c : Char) : Bool :=
  c.isDigit || ('a' ≤ c && c ≤ 'f') || ('A' ≤ c && c ≤ 'F')

def isOctalDigit (c : Char) : Bool :=
  '0' ≤ c && c ≤ '7'

def isBinaryDigit (c : Char) : Bool :=
  c = '0' || c = '1'

/-- The number that a whole word of digits tells. -/
def based? (base : Nat) (isDigit : Char → Bool) (s : List Char) : Option Int :=
  match digits? isDigit s with
  | some (digits, []) => some (ofDigits base digits)
  | _ => none

def signed? (s : List Char) : Option Int :=
  let (negative, s) := sign s
  match decimal? s with
  | some (digits, []) =>
    let n : Int := ofDigits 10 digits
    some (if negative then -n else n)
  | _ => none

def minInteger : Int := -0x8000000000000000

def maxInteger : Int := 0x7fffffffffffffff

def integer? (word : List Char) : Option Int := do
  let n ← match word with
    | '0' :: 'x' :: s => based? 16 isHexDigit s
    | '0' :: 'o' :: s => based? 8 isOctalDigit s
    | '0' :: 'b' :: s => based? 2 isBinaryDigit s
    | s => signed? s
  if minInteger ≤ n ∧ n ≤ maxInteger then some n else none

/-- Whether `m` times ten to the power `e` is rounded to infinity in double precision. -/
def overflows (m : Nat) (e : Int) : Bool :=
  let bound := 1 <<< 1024 - 1 <<< 970
  let places := (Nat.toDigits 10 m).length + e
  if m = 0 || places < 300 then false
  else if 320 < places then true
  else if 0 ≤ e then bound ≤ m * Nat.pow 10 e.toNat
  else bound * Nat.pow 10 (-e).toNat ≤ m

def fraction? (s : List Char) : Option (List Char × List Char) :=
  match s with
  | '.' :: s => digits? Char.isDigit s
  | s => some ([], s)

def exponent? (s : List Char) : Option (Int × List Char) :=
  match s with
  | c :: s =>
    if c = 'e' ∨ c = 'E' then do
      let (negative, s) := sign s
      let (digits, s) ← digits? Char.isDigit s
      let n : Int := ofDigits 10 digits
      return (if negative then -n else n, s)
    else some (0, c :: s)
  | [] => some (0, [])

/-- A number with a fraction, a power of ten or both, and not too large. -/
def isDecimalFloat (word : List Char) : Bool :=
  let (negative, s) := sign word
  match (do
      let (whole, s) ← decimal? s
      let (part, s') ← fraction? s
      let (e, rest) ← exponent? s'
      guard (rest.isEmpty && !s.isEmpty)
      return (whole, part, e)) with
  | none => false
  | some (whole, part, e) =>
    let places := (part.filter (· ≠ '_')).length
    negative || !overflows (ofDigits 10 (whole ++ part)) (e - places)

def isFloat (word : List Char) : Bool :=
  isDecimalFloat word
    || (sign word).2 = "inf".toList || (sign word).2 = "nan".toList

/-- A number of exactly `count` digits in a range. -/
def ranged? (count low high : Nat) (s : List Char) : Option (Nat × List Char) := do
  let digits := s.take count
  guard (digits.length = count && digits.all Char.isDigit)
  let n := ofDigits 10 digits
  guard (low ≤ n ∧ n ≤ high)
  return (n, s.drop count)

def mark? (c : Char) (s : List Char) : Option (List Char) :=
  match s with
  | d :: s => if c = d then some s else none
  | [] => none

def daysInMonth (year month : Nat) : Nat :=
  if month = 2 then
    if year % 4 = 0 ∧ (year % 100 ≠ 0 ∨ year % 400 = 0) then 29 else 28
  else if month = 4 ∨ month = 6 ∨ month = 9 ∨ month = 11 then 30
  else 31

/-- What follows a date. -/
def date? (s : List Char) : Option (List Char) := do
  let (year, s) ← ranged? 4 0 9999 s
  let s ← mark? '-' s
  let (month, s) ← ranged? 2 1 12 s
  let s ← mark? '-' s
  let (_, s) ← ranged? 2 1 (daysInMonth year month) s
  return s

/-- What follows a time of day with its seconds. -/
def time? (s : List Char) : Option (List Char) := do
  let (_, s) ← ranged? 2 0 23 s
  let s ← mark? ':' s
  let (_, s) ← ranged? 2 0 59 s
  let s ← mark? ':' s
  let (_, s) ← ranged? 2 0 60 s
  match s with
  | '.' :: s =>
    let rest := s.dropWhile Char.isDigit
    if rest.length < s.length then some rest else none
  | s => some s

/-- Whether a word is a distance from universal time. -/
def isOffset (s : List Char) : Bool :=
  match s with
  | ['Z'] | ['z'] => true
  | c :: s =>
    (c = '+' || c = '-') && (do
      let (_, s) ← ranged? 2 0 23 s
      let s ← mark? ':' s
      let (_, s) ← ranged? 2 0 59 s
      return s) = some []
  | [] => false

/-- Whether a word is a time of day, with a distance from universal time or without. -/
def isZonedTime (s : List Char) : Bool :=
  match time? s with
  | some [] => true
  | some rest => isOffset rest
  | none => false

def isDate (s : List Char) : Bool :=
  date? s = some []

/-- Whether a word is a date, a time of day or both with a `T` between. -/
def isDateTime (s : List Char) : Bool :=
  time? s = some [] ||
    match date? s with
    | some [] => true
    | some (c :: s) => (c = 'T' || c = 't') && isZonedTime s
    | none => false

end BlockExchange.Toml.Number
