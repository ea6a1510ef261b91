/-!
# TOML strings

The four ways to write a string: between double quotes, where a backslash escapes, or between
apostrophes, where nothing does; each in one line or, between tripled marks, in several. `read`
takes a string in any of them off the front of a text and `write` chooses the plainest one that can
hold the string.
-/

namespace BlockExchange.Toml.Quoted

/-- Control characters, which no string holds unescaped. -/
def isControl (c : Char) : Bool :=
  c.toNat < 0x20 || c.toNat = 0x7f

/-- Characters that stand for themselves between any marks, other than the marks. -/
def isPlain (c : Char) : Bool :=
  c = '\t' || !isControl c

def hexValue? (c : Char) : Option Nat :=
  if c.isDigit then some (c.toNat - 48)
  else if 'a' ≤ c ∧ c ≤ 'f' then some (c.toNat - 87)
  else if 'A' ≤ c ∧ c ≤ 'F' then some (c.toNat - 55)
  else none

/-- The number whose hexadecimal digits these are. -/
def hexNumber? (cs : List Char) : Option Nat :=
  cs.foldlM (fun n c => (hexValue? c).map (n * 16 + ·)) 0

/-- The character with the number that the first `count` hexadecimal digits tell. -/
def readNumbered (count : Nat) (s : List Char) : Option (Char × List Char) :=
  match hexNumber? (s.take count) with
  | none => none
  | some n =>
    if (s.take count).length = count ∧ n.isValidChar then some (Char.ofNat n, s.drop count)
    else none

/-- The character that an escape stands for, after its backslash. -/
def readEscape : List Char → Option (Char × List Char)
  | 'b' :: s => some ('\x08', s)
  | 't' :: s => some ('\t', s)
  | 'n' :: s => some ('\n', s)
  | 'f' :: s => some ('\x0c', s)
  | 'r' :: s => some ('\r', s)
  | '"' :: s => some ('"', s)
  | '\\' :: s => some ('\\', s)
  | 'u' :: s => readNumbered 4 s
  | 'U' :: s => readNumbered 8 s
  | _ => none

theorem length_of_readNumbered {count : Nat} {s rest : List Char} {c : Char}
    (h : readNumbered count s = some (c, rest)) : rest.length ≤ s.length := by
  unfold readNumbered at h
  split at h
  · cases h
  · split at h
    · cases h
      simp
    · cases h

theorem length_of_readEscape {s rest : List Char} {c : Char}
    (h : readEscape s = some (c, rest)) : rest.length < s.length := by
  unfold readEscape at h
  split at h
  case h_8 => exact Nat.lt_succ_of_le (length_of_readNumbered h)
  case h_9 => exact Nat.lt_succ_of_le (length_of_readNumbered h)
  case h_10 => cases h
  all_goals
    cases h
    exact Nat.lt_succ_self _

/-- The rest of a one-line string between double quotes. -/
def readBasic (s : List Char) : Option (List Char × List Char) :=
  match s with
  | [] => none
  | '"' :: s => some ([], s)
  | '\\' :: s =>
    match h : readEscape s with
    | none => none
    | some (c, rest) =>
      have := length_of_readEscape h
      (readBasic rest).map fun (cs, rest) => (c :: cs, rest)
  | c :: s => if isPlain c then (readBasic s).map fun (cs, rest) => (c :: cs, rest) else none
termination_by s.length
decreasing_by all_goals (simp_wf <;> omega)

def readLiteral : List Char → Option (List Char × List Char)
  | [] => none
  | '\'' :: s => some ([], s)
  | c :: s => if isPlain c then (readLiteral s).map fun (cs, rest) => (c :: cs, rest) else none

def isBlank (c : Char) : Bool :=
  c = ' ' || c = '\t'

def skipLines : List Char → List Char
  | '\n' :: s => skipLines s
  | '\r' :: '\n' :: s => skipLines s
  | c :: s => if isBlank c then skipLines s else c :: s
  | [] => []

theorem length_skipLines_le (s : List Char) : (skipLines s).length ≤ s.length := by
  fun_induction skipLines s <;> simp_all <;> omega

/-- What follows a backslash at the end of a line, all blank lines skipped. -/
def skipLineEnd (s : List Char) : Option (List Char) :=
  match s.dropWhile isBlank with
  | '\n' :: s => some (skipLines s)
  | '\r' :: '\n' :: s => some (skipLines s)
  | _ => none

theorem length_of_skipLineEnd {s rest : List Char} (h : skipLineEnd s = some rest) :
    rest.length < s.length := by
  have hd : (s.dropWhile isBlank).length ≤ s.length := (List.dropWhile_sublist _).length_le
  unfold skipLineEnd at h
  split at h
  · rename_i s' hs
    have := length_skipLines_le s'
    rw [hs, List.length_cons] at hd
    cases h
    omega
  · rename_i s' hs
    have := length_skipLines_le s'
    rw [hs, List.length_cons, List.length_cons] at hd
    cases h
    omega
  · cases h

/-- The rest of a string between tripled double quotes. The string may end in one or two quotes of
its own. -/
def readLines (s : List Char) : Option (List Char × List Char) :=
  match s with
  | [] => none
  | '"' :: '"' :: '"' :: '"' :: '"' :: s => some (['"', '"'], s)
  | '"' :: '"' :: '"' :: '"' :: s => some (['"'], s)
  | '"' :: '"' :: '"' :: s => some ([], s)
  | '\\' :: s =>
    match h : skipLineEnd s with
    | some rest =>
      have := length_of_skipLineEnd h
      readLines rest
    | none =>
      match h : readEscape s with
      | none => none
      | some (c, rest) =>
        have := length_of_readEscape h
        (readLines rest).map fun (cs, rest) => (c :: cs, rest)
  | '\r' :: '\n' :: s => (readLines s).map fun (cs, rest) => ('\n' :: cs, rest)
  | c :: s =>
    if isPlain c || c = '\n' then (readLines s).map fun (cs, rest) => (c :: cs, rest) else none
termination_by s.length
decreasing_by all_goals (simp_wf <;> omega)

def readLiteralLines : List Char → Option (List Char × List Char)
  | [] => none
  | '\'' :: '\'' :: '\'' :: '\'' :: '\'' :: s => some (['\'', '\''], s)
  | '\'' :: '\'' :: '\'' :: '\'' :: s => some (['\''], s)
  | '\'' :: '\'' :: '\'' :: s => some ([], s)
  | '\r' :: '\n' :: s => (readLiteralLines s).map fun (cs, rest) => ('\n' :: cs, rest)
  | c :: s =>
    if isPlain c || c = '\n' then (readLiteralLines s).map fun (cs, rest) => (c :: cs, rest)
    else none

/-- Drops the line end right after an opening mark. -/
def dropLineEnd : List Char → List Char
  | '\n' :: s => s
  | '\r' :: '\n' :: s => s
  | s => s

def readLine : List Char → Option (List Char × List Char)
  | '"' :: s => readBasic s
  | '\'' :: s => readLiteral s
  | _ => none

def read : List Char → Option (List Char × List Char)
  | '"' :: '"' :: '"' :: s => readLines (dropLineEnd s)
  | '\'' :: '\'' :: '\'' :: s => readLiteralLines (dropLineEnd s)
  | s => readLine s

inductive Style
  | basic
  | literal
  | basicLines
  | literalLines
deriving DecidableEq, Repr

/-- How many of `c` stand in a row at most; `run` of them stand before the text. -/
def longestRun (c : Char) : (run : Nat) → List Char → Nat
  | run, [] => run
  | run, d :: s => if d = c then longestRun c (run + 1) s else max run (longestRun c 0 s)

/-- The first style that needs no escape; failing that, double quotes. -/
def style (s : List Char) : Style :=
  let controls := s.any fun c => isControl c && c ≠ '\t' && c ≠ '\n'
  let lines := s.contains '\n'
  let escape := s.contains '\\'
  let quotes := longestRun '"' 0 s
  let apostrophes := longestRun '\'' 0 s
  if !controls && !escape && quotes = 0 && !lines then .basic
  else if !controls && apostrophes = 0 && !lines then .literal
  else if !controls && !escape && quotes ≤ 2 then .basicLines
  else if !controls && apostrophes ≤ 2 then .literalLines
  else if lines then .basicLines
  else .basic

/-- The last four hexadecimal digits of a character's number, in capitals. -/
def numberText (c : Char) : List Char :=
  let digits := (Nat.toDigits 16 c.toNat).map Char.toUpper
  List.replicate (4 - digits.length) '0' ++ digits

/-- The text of a string between double quotes. Between tripled quotes (`lines`) line ends stand for
themselves, and so do two quotes in a row; `run` quotes stand right before the text. -/
def escape (lines : Bool) : (run : Nat) → List Char → List Char
  | _, [] => []
  | run, c :: s =>
    if c = '"' then
      if lines && run < 2 then c :: escape lines (run + 1) s else '\\' :: c :: escape lines 0 s
    else if c = '\\' then '\\' :: '\\' :: escape lines 0 s
    else if c = '\x08' then '\\' :: 'b' :: escape lines 0 s
    else if c = '\t' then '\\' :: 't' :: escape lines 0 s
    else if c = '\n' then
      if lines then c :: escape lines 0 s else '\\' :: 'n' :: escape lines 0 s
    else if c = '\x0c' then '\\' :: 'f' :: escape lines 0 s
    else if c = '\r' then '\\' :: 'r' :: escape lines 0 s
    else if isControl c then '\\' :: 'u' :: numberText c ++ escape lines 0 s
    else c :: escape lines 0 s

/-- A text in several lines starts on a line of its own. -/
def opening (s : List Char) : List Char :=
  if s.contains '\n' then ['\n'] else []

def write (s : List Char) : List Char :=
  match style s with
  | .basic => ['"'] ++ escape false 0 s ++ ['"']
  | .literal => ['\''] ++ s ++ ['\'']
  | .basicLines => ['"', '"', '"'] ++ opening s ++ escape true 0 s ++ ['"', '"', '"']
  | .literalLines => ['\'', '\'', '\''] ++ opening s ++ s ++ ['\'', '\'', '\'']

end BlockExchange.Toml.Quoted
