import BlockExchange.Toml.Number
import BlockExchange.Toml.Quoted
import BlockExchange.Toml.Value

/-!
# TOML documents

`parse` reads a text as a table: fields and headers, one to a line. A value may stand in brackets
over several lines, an inline table may not. Arrays and inline tables nest at most `maxDepth` deep,
and a dotted key has at most as many parts.
-/

namespace BlockExchange.Toml

open Quoted (isBlank)

def maxDepth : Nat := 79

/-- A byte-order mark, which may stand at the start of a text. -/
def byteOrderMark : Char := '\ufeff'

def isCommentChar (c : Char) : Bool :=
  c = '\t' || 0x20 ≤ c.toNat && c ≠ '\x7f'

def skipBlanks (s : List Char) : List Char :=
  s.dropWhile isBlank

/-- Skips blanks, line ends and comments. A comment that holds a control character is not skipped
whole. -/
def skipSpace : (inComment : Bool) → List Char → List Char
  | _, '\n' :: s => skipSpace false s
  | _, '\r' :: '\n' :: s => skipSpace false s
  | true, c :: s => if isCommentChar c then skipSpace true s else c :: s
  | false, c :: s =>
    if isBlank c then skipSpace false s
    else if c = '#' then skipSpace true s
    else c :: s
  | _, [] => []

/-- What follows the line, which must hold nothing more than a comment. -/
def endLine? (s : List Char) : Option (List Char) :=
  let s := match skipBlanks s with
    | '#' :: s => s.dropWhile isCommentChar
    | s => s
  match s with
  | [] => some []
  | '\n' :: s => some s
  | '\r' :: '\n' :: s => some s
  | _ => none

def isBareKeyChar (c : Char) : Bool :=
  c.isAlphanum || c = '_' || c = '-'

def keyPart? (s : List Char) : Option (String × List Char) :=
  match Quoted.readLine s with
  | some (key, s) => some (String.ofList key, s)
  | none =>
    let (key, s) := s.span isBareKeyChar
    if key.isEmpty then none else some (String.ofList key, s)

def keyParts? (s : List Char) : Option (List String × List Char) := do
  let (part, rest) ← keyPart? (skipBlanks s)
  match skipBlanks rest with
  | '.' :: rest =>
    if rest.length < s.length then do
      let (parts, rest) ← keyParts? rest
      return (part :: parts, rest)
    else none
  | rest => return ([part], rest)
termination_by s.length

/-- A key: the path and the last part. -/
def key? (s : List Char) : Option ((List String × String) × List Char) := do
  let (parts, s) ← keyParts? s
  guard (parts.length ≤ maxDepth)
  let last ← parts.getLast?
  return ((parts.dropLast, last), s)

/-- A value that is one word, or a date and a time with a space between. -/
def word? (s : List Char) : Option (Value × List Char) :=
  let (word, rest) := s.span Number.isWordChar
  if word = "true".toList then some (.boolean true, rest)
  else if word = "false".toList then some (.boolean false, rest)
  else if Number.isDate word then
    match rest with
    | ' ' :: c :: more =>
      if c.isDigit then
        let (time, rest) := (c :: more).span Number.isWordChar
        if Number.isZonedTime time then some (.datetime, rest) else none
      else some (.datetime, rest)
    | rest => some (.datetime, rest)
  else if Number.isDateTime word then some (.datetime, rest)
  else match Number.integer? word with
    | some n => some (.integer n, rest)
    | none => if Number.isFloat word then some (.float, rest) else none

abbrev ValueReader := List Char → Option (Value × List Char)

/-- The rest of an array. A comma may follow the last item. -/
def items? (item : ValueReader) (s : List Char) : Option (List Value × List Char) :=
  match skipSpace false s with
  | ']' :: rest => some ([], rest)
  | s' => do
    let (v, rest) ← item s'
    match skipSpace false rest with
    | ']' :: rest => return ([v], rest)
    | ',' :: rest =>
      if rest.length < s.length then do
        let (vs, rest) ← items? item rest
        return (v :: vs, rest)
      else none
    | _ => none
termination_by s.length

def assignment? (item : ValueReader) (s : List Char) : Option (Assignment × List Char) := do
  let ((path, key), s) ← key? s
  let '=' :: s := s | none
  let (value, s) ← item (skipBlanks s)
  return (⟨path, key, value⟩, s)

/-- The rest of an inline table that is not empty. -/
def inlineAssignments? (item : ValueReader) (s : List Char) :
    Option (List Assignment × List Char) := do
  let (a, rest) ← assignment? item s
  match skipBlanks rest with
  | '\x7d' :: rest => return ([a], rest)
  | ',' :: rest =>
    if rest.length < s.length then do
      let (as, rest) ← inlineAssignments? item rest
      return (a :: as, rest)
    else none
  | _ => none
termination_by s.length

/-- A value that holds at most `depth` more values in each other. -/
def value? : (depth : Nat) → ValueReader
  | 0, s =>
    match Quoted.read s with
    | some (text, s) => some (.string (String.ofList text), s)
    | none => word? s
  | depth + 1, s =>
    match s with
    | '[' :: s => do
      let (vs, s) ← items? (value? depth) s
      return (.array vs, s)
    | '\x7b' :: s =>
      match skipBlanks s with
      | '\x7d' :: s => some (.table .inline [], s)
      | s => do
        let (as, s) ← inlineAssignments? (value? depth) s
        return (.table .inline (← Fields.assign [] as), s)
    | s => value? 0 s

/-- The assignments up to the next header or the end, one to a line. -/
def assignments? (s : List Char) : Option (List Assignment × List Char) :=
  match skipSpace false s with
  | [] => some ([], [])
  | '[' :: s => some ([], '[' :: s)
  | s' => do
    let (a, rest) ← assignment? (value? maxDepth) s'
    let rest ← endLine? rest
    if rest.length < s.length then do
      let (as, rest) ← assignments? rest
      return (a :: as, rest)
    else none
termination_by s.length

def header? (s : List Char) : Option (Header × List Char) :=
  match s with
  | '[' :: '[' :: s => do
    let ((path, key), s) ← key? s
    let ']' :: ']' :: s := s | none
    return (⟨true, path, key⟩, ← endLine? s)
  | '[' :: s => do
    let ((path, key), s) ← key? s
    let ']' :: s := s | none
    return (⟨false, path, key⟩, ← endLine? s)
  | _ => none

/-- The headers of a document, each with the assignments under it. -/
def sections? (s : List Char) : Option (List (Header × List Assignment)) :=
  if s.isEmpty then some []
  else do
    let (header, rest) ← header? s
    let (as, rest) ← assignments? rest
    if rest.length < s.length then return (header, as) :: (← sections? rest) else none
termination_by s.length

def parse (text : String) : Option Fields := do
  let s := match text.toList with
    | c :: s => if c = byteOrderMark then s else c :: s
    | [] => []
  let (as, rest) ← assignments? s
  let sections ← sections? rest
  sections.foldlM Fields.addSection (← Fields.assign [] as)

end BlockExchange.Toml
