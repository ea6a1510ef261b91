import BlockExchange.Proofs.TomlStrings
import BlockExchange.Table
import BlockExchange.Toml.Document
import Mathlib

/-!
# Documents of plain sections read back

A plain document is sections under headers of one word, each with one line for each of its fields:
a key of one word and a value that ends with its line. `parse` reads from its text the tables that
its sections tell (`parse_document`). Strings, whole numbers and truth values are such values
(`tells_write`, `tells_nat`, `tells_bool`).
-/

namespace BlockExchange.Toml

open Quoted (isBlank Unmarked)

/-! ### Runs of characters -/

theorem ne_of_class {p : Char → Bool} {c d : Char} (hc : p c = true) (hd : p d = false) : c ≠ d := by
  rintro rfl
  simp [hc] at hd

theorem span_append {p : Char → Bool} {word rest : List Char} (hword : ∀ c ∈ word, p c = true)
    (hrest : ∀ c ∈ rest.head?, p c = false) : (word ++ rest).span p = (word, rest) := by
  rw [List.span_eq_takeWhile_dropWhile, List.takeWhile_append_of_pos hword,
    List.dropWhile_append_of_pos hword]
  cases rest with
  | nil => simp
  | cons c rest => simp [hrest c rfl]

theorem skipBlanks_of_head {s : List Char} (h : ∀ c ∈ s.head?, isBlank c = false) :
    skipBlanks s = s := by
  cases s with
  | nil => rfl
  | cons c s => exact List.dropWhile_cons_of_neg (by simp [h c rfl])

/-! ### Whole numbers -/

namespace Number

section
variable {digits : List Char}

theorem skipDigits_of_digits (h : ∀ c ∈ digits, c.isDigit = true) (after : Bool) :
    skipDigits Char.isDigit after digits = [] := by
  induction digits generalizing after with
  | nil => rfl
  | cons c digits ih =>
    obtain ⟨hc, h⟩ := List.forall_mem_cons.mp h
    rw [skipDigits, if_pos hc, ih h]
    rintro d s rfl
    exact absurd hc (by decide)

theorem ofDigits_of_digits (h : ∀ c ∈ digits, c.isDigit = true) :
    ofDigits 10 digits = Nat.ofDigitChars 10 digits 0 := by
  have hfilter : digits.filter (· ≠ '_') = digits := by
    rw [List.filter_eq_self]
    intro c hc
    simpa using ne_of_class (h c hc) (d := '_') rfl
  rw [ofDigits, hfilter, Nat.ofDigitChars]
  refine List.foldl_ext _ _ _ fun n c hc => ?_
  rw [digitValue, if_pos (h c hc), Nat.mul_comm]
  rfl

theorem isDigit_toDigits (n : Nat) : ∀ c ∈ Nat.toDigits 10 n, c.isDigit = true :=
  fun _ hc => Nat.isDigit_of_mem_toDigits (by decide) (by decide) hc

/-- Only the number zero begins with the digit zero, which is read as a whole number by itself. -/
theorem head_toDigits {n : Nat} (hn : n ≠ 0) : (Nat.toDigits 10 n).head? ≠ some '0' := by
  induction n using Nat.strongRecOn with
  | ind n ih =>
    rw [Nat.toDigits_eq_if (by decide)]
    split
    · simp [hn]
    · rw [List.head?_append_of_ne_nil _ Nat.toDigits_ne_nil]
      exact ih (n / 10) (by omega) (by omega)

theorem signed?_of_digits (h : ∀ c ∈ digits, c.isDigit = true) (hne : digits ≠ [])
    (hzero : digits = ['0'] ∨ digits.head? ≠ some '0') :
    signed? digits = some (ofDigits 10 digits : Int) := by
  have hsign : sign digits = (false, digits) := by
    unfold sign
    split
    · exact absurd (h '-' List.mem_cons_self) (by decide)
    · exact absurd (h '+' List.mem_cons_self) (by decide)
    · rfl
  have hdecimal : decimal? digits = some (digits, []) := by
    unfold decimal?
    split
    · obtain hzero | hzero := hzero
      · cases hzero
        rfl
      · exact absurd rfl hzero
    · unfold digits?
      simp [skipDigits_of_digits h, List.length_pos_iff.mpr hne]
  simp only [signed?, hsign, hdecimal]
  rfl

theorem integer?_of_digits (h : ∀ c ∈ digits, c.isDigit = true) :
    integer? digits = (signed? digits).bind fun n =>
      if minInteger ≤ n ∧ n ≤ maxInteger then some n else none := by
  unfold integer?
  split
  · exact absurd (h 'x' (by simp)) (by decide)
  · exact absurd (h 'o' (by simp)) (by decide)
  · exact absurd (h 'b' (by simp)) (by decide)
  · rfl

theorem integer?_toDigits {n : Nat} (hn : n ≤ maxInteger) :
    integer? (Nat.toDigits 10 n) = some (n : Int) := by
  have hdigits := isDigit_toDigits n
  have hzero : Nat.toDigits 10 n = ['0'] ∨ (Nat.toDigits 10 n).head? ≠ some '0' := by
    by_cases h : n = 0
    · exact .inl (by rw [h]; rfl)
    · exact .inr (head_toDigits h)
  have hmin : minInteger ≤ n := by
    have : minInteger ≤ 0 := by decide
    omega
  rw [integer?_of_digits hdigits, signed?_of_digits hdigits Nat.toDigits_ne_nil hzero,
    ofDigits_of_digits hdigits, Nat.ofDigitChars_ten_toDigits, Option.bind_some,
    if_pos ⟨hmin, hn⟩]

/-! Digits alone are no date. -/

theorem rest_of_ranged? {count low high n : Nat} {s rest : List Char}
    (h : ranged? count low high s = some (n, rest)) : rest = s.drop count := by
  simp only [ranged?, Option.bind_eq_bind, Option.bind_eq_some_iff] at h
  obtain ⟨-, -, -, -, hsome⟩ := h
  exact (congrArg Prod.snd (Option.some.inj hsome)).symm

theorem mark?_of_digits {c : Char} (h : ∀ c ∈ digits, c.isDigit = true) (hc : c.isDigit = false) :
    mark? c digits = none := by
  cases digits with
  | nil => rfl
  | cons d digits =>
    exact if_neg (ne_of_class (h d List.mem_cons_self) hc).symm

theorem mark?_of_ranged? {c : Char} {count low high n : Nat} {rest : List Char}
    (h : ∀ c ∈ digits, c.isDigit = true) (hr : ranged? count low high digits = some (n, rest))
    (hc : c.isDigit = false) : mark? c rest = none := by
  rw [rest_of_ranged? hr]
  exact mark?_of_digits (fun c hc => h c (List.mem_of_mem_drop hc)) hc

theorem date?_of_digits (h : ∀ c ∈ digits, c.isDigit = true) : date? digits = none := by
  unfold date?
  cases hr : ranged? 4 0 9999 digits with
  | none => rfl
  | some r => simp [mark?_of_ranged? h hr]

theorem time?_of_digits (h : ∀ c ∈ digits, c.isDigit = true) : time? digits = none := by
  unfold time?
  cases hr : ranged? 2 0 23 digits with
  | none => rfl
  | some r => simp [mark?_of_ranged? h hr]

end
end Number

/-! ### Values -/

/-- The text is read as the value, up to the end of its line. -/
def Tells (text : List Char) (v : Value) : Prop :=
  ∀ rest, value? maxDepth (skipBlanks (text ++ '\n' :: rest)) = some (v, '\n' :: rest)

section
variable {text : List Char} {c : Char} {v : Value}

theorem value?_of_head {depth : Nat} (h : ∀ c ∈ text.head?, c ≠ '[' ∧ c ≠ '\x7b') :
    value? depth text = value? 0 text := by
  cases depth with
  | zero => rfl
  | succ depth =>
    conv_lhs => unfold value?
    split
    · exact absurd rfl (h _ rfl).1
    · exact absurd rfl (h _ rfl).2
    · rfl

theorem head_line (hc : text.head? = some c) (rest : List Char) :
    (text ++ '\n' :: rest).head? = some c := by
  simp [hc]

theorem tells_of_head (hc : text.head? = some c) (hblank : isBlank c = false)
    (hbracket : c ≠ '[' ∧ c ≠ '\x7b')
    (h : ∀ rest, value? 0 (text ++ '\n' :: rest) = some (v, '\n' :: rest)) : Tells text v := by
  intro rest
  rw [skipBlanks_of_head (by simp [head_line hc, hblank]),
    value?_of_head (by simp [head_line hc, hbracket]), h]

theorem head_write (s : List Char) :
    (Quoted.write s).head? = some '"' ∨ (Quoted.write s).head? = some '\'' := by
  unfold Quoted.write
  split <;> simp

/-- A string is told by its text in any style. -/
theorem tells_write (s : String) : Tells (Quoted.write s.toList) (.string s) := by
  have hread : ∀ rest, value? 0 (Quoted.write s.toList ++ '\n' :: rest) =
      some (.string s, '\n' :: rest) := by
    intro rest
    have hrest : Unmarked ('\n' :: rest) := by simp [Unmarked]
    rw [value?, Quoted.read_write hrest]
    simp only [String.ofList_toList]
  obtain hquote | hmark := head_write s.toList
  · exact tells_of_head hquote (by decide) (by decide) hread
  · exact tells_of_head hmark (by decide) (by decide) hread

theorem tells_word (hc : text.head? = some c) (hword : ∀ c ∈ text, Number.isWordChar c = true)
    (h : ∀ rest, (text ++ '\n' :: rest).span Number.isWordChar = (text, '\n' :: rest) →
      word? (text ++ '\n' :: rest) = some (v, '\n' :: rest)) : Tells text v := by
  have hne : ∀ d, Number.isWordChar d = false → c ≠ d :=
    fun d hd => ne_of_class (hword c (List.mem_of_head? hc)) hd
  refine tells_of_head hc ?_ ⟨hne '[' rfl, hne '\x7b' rfl⟩ fun rest => ?_
  · simp [isBlank, hne ' ' rfl, hne '\t' rfl]
  · have hunmarked : Unmarked (text ++ '\n' :: rest) := by
      simp [Unmarked, head_line hc, hne '"' rfl, hne '\'' rfl]
    rw [value?, Quoted.read_of_unmarked hunmarked]
    exact h rest (span_append hword (by simp; decide))

theorem tells_nat {n : Nat} (hn : n ≤ Number.maxInteger) :
    Tells (toString n).toList (.integer n) := by
  have htext : (toString n).toList = Nat.toDigits 10 n := Nat.toList_repr
  rw [htext]
  have hdigits := Number.isDigit_toDigits n
  have hword : ∀ w : List Char, 't' ∈ w ∨ 'f' ∈ w → Nat.toDigits 10 n ≠ w := by
    rintro w hw rfl
    obtain ht | hf := hw
    · exact absurd (hdigits _ ht) (by decide)
    · exact absurd (hdigits _ hf) (by decide)
  have hhead := List.head?_eq_some_head (l := Nat.toDigits 10 n) Nat.toDigits_ne_nil
  refine tells_word hhead (fun c hc => ?_) fun rest hspan => ?_
  · simp [Number.isWordChar, Char.isAlphanum, hdigits c hc]
  · -- digits are no other kind of word, and no date either
    unfold word?
    rw [hspan]
    simp [hword, Number.isDate, Number.isDateTime, Number.date?_of_digits hdigits,
      Number.time?_of_digits hdigits, Number.integer?_toDigits hn]

theorem tells_bool (b : Bool) : Tells (toString b).toList (.boolean b) := by
  have hword : ∀ c ∈ (toString b).toList, Number.isWordChar c = true :=
    List.all_eq_true.mp (by cases b <;> rfl)
  cases b with
  | false =>
    refine tells_word (c := 'f') rfl hword fun rest hspan => ?_
    unfold word?
    rw [hspan]
    rfl
  | true =>
    refine tells_word (c := 't') rfl hword fun rest hspan => ?_
    unfold word?
    rw [hspan]
    rfl

end

/-! ### Keys -/

/-- A key that needs no quotes. -/
def IsBare (key : String) : Prop :=
  key.toList ≠ [] ∧ key.toList.all isBareKeyChar = true

section
variable {key : String} {rest : List Char}

theorem isBlank_of_bare {c : Char} (hc : isBareKeyChar c = true) : isBlank c = false := by
  simp [isBlank, ne_of_class hc (d := ' ') rfl, ne_of_class hc (d := '\t') rfl]

theorem IsBare.exists_cons (h : IsBare key) (rest : List Char) :
    ∃ c s, key.toList ++ rest = c :: s ∧ isBareKeyChar c = true := by
  obtain ⟨c, s, hkey⟩ := List.exists_cons_of_ne_nil h.1
  exact ⟨c, s ++ rest, by simp [hkey], List.all_eq_true.mp h.2 c (by simp [hkey])⟩

theorem unmarked_bare (h : IsBare key) (rest : List Char) : Unmarked (key.toList ++ rest) := by
  obtain ⟨c, s, hs, hc⟩ := h.exists_cons rest
  simp [hs, Unmarked, ne_of_class hc (d := '"') rfl, ne_of_class hc (d := '\'') rfl]

theorem skipBlanks_bare (h : IsBare key) (rest : List Char) :
    skipBlanks (key.toList ++ rest) = key.toList ++ rest := by
  obtain ⟨c, s, hs, hc⟩ := h.exists_cons rest
  rw [hs]
  exact skipBlanks_of_head (by simp [isBlank_of_bare hc])

theorem keyPart?_bare (h : IsBare key) (hrest : ∀ c ∈ rest.head?, isBareKeyChar c = false) :
    keyPart? (key.toList ++ rest) = some (key, rest) := by
  unfold keyPart?
  rw [Quoted.readLine_of_unmarked (unmarked_bare h rest),
    span_append (fun c hc => List.all_eq_true.mp h.2 c hc) hrest]
  simp [h.1]

theorem keyParts?_bare (h : IsBare key) (hrest : ∀ c ∈ rest.head?, isBareKeyChar c = false)
    (hdot : (skipBlanks rest).head? ≠ some '.') :
    keyParts? (key.toList ++ rest) = some ([key], skipBlanks rest) := by
  rw [keyParts?, skipBlanks_bare h, keyPart?_bare h hrest]
  dsimp only [Option.bind_eq_bind, Option.bind_some]
  split
  · rename_i heq
    exact absurd (by rw [heq]; rfl) hdot
  · rfl

theorem key?_bare (h : IsBare key) (hrest : ∀ c ∈ rest.head?, isBareKeyChar c = false)
    (hdot : (skipBlanks rest).head? ≠ some '.') :
    key? (key.toList ++ rest) = some (([], key), skipBlanks rest) := by
  rw [key?, keyParts?_bare h hrest hdot]
  rfl

end

/-! ### Lines -/

/-- A line that gives a value to a key, both in a form that is read back. -/
structure Line where
  key : String
  /-- What is written for the value. -/
  text : List Char
  value : Value
  bare : IsBare key
  tells : Tells text value

namespace Line

def chars (l : Line) : List Char :=
  l.key.toList ++ ' ' :: '=' :: ' ' :: (l.text ++ ['\n'])

def assignment (l : Line) : Assignment :=
  ⟨[], l.key, l.value⟩

theorem chars_append (l : Line) (rest : List Char) :
    l.chars ++ rest = l.key.toList ++ ' ' :: '=' :: ' ' :: (l.text ++ '\n' :: rest) := by
  simp [chars]

theorem assignment?_chars (l : Line) (rest : List Char) :
    assignment? (value? maxDepth) (l.chars ++ rest) = some (l.assignment, '\n' :: rest) := by
  have hequals : skipBlanks (' ' :: '=' :: ' ' :: (l.text ++ '\n' :: rest)) =
      '=' :: ' ' :: (l.text ++ '\n' :: rest) := rfl
  have hblank : skipBlanks (' ' :: (l.text ++ '\n' :: rest)) =
      skipBlanks (l.text ++ '\n' :: rest) := rfl
  rw [assignment?, chars_append, key?_bare l.bare (by simp; decide) (by simp [hequals]), hequals]
  simp only [Option.bind_eq_bind, Option.bind_some, hblank, l.tells rest]
  rfl

theorem exists_cons (l : Line) (rest : List Char) :
    ∃ c s, l.chars ++ rest = c :: s ∧ isBareKeyChar c = true := by
  rw [chars_append]
  exact l.bare.exists_cons _

theorem skipSpace_chars (l : Line) (rest : List Char) :
    skipSpace false (l.chars ++ rest) = l.chars ++ rest := by
  obtain ⟨c, s, hs, hc⟩ := l.exists_cons rest
  rw [hs, skipSpace, if_neg (by simp [isBlank_of_bare hc]), if_neg (ne_of_class hc rfl)]
  · exact ne_of_class hc rfl
  · exact fun _ hreturn _ => ne_of_class hc rfl hreturn

theorem assignments?_chars (l : Line) {rest tail : List Char} {as : List Assignment}
    (h : assignments? rest = some (as, tail)) :
    assignments? (l.chars ++ rest) = some (l.assignment :: as, tail) := by
  obtain ⟨c, s, hs, hc⟩ := l.exists_cons rest
  have hend : endLine? ('\n' :: rest) = some rest := rfl
  have hlt : rest.length < (l.chars ++ rest).length := by
    simp only [chars, List.length_append, List.length_cons]
    omega
  rw [assignments?, skipSpace_chars]
  split
  · rename_i hnil
    rw [hs] at hnil
    cases hnil
  · rename_i hbracket
    rw [hs] at hbracket
    exact absurd (List.cons.inj hbracket).1 (ne_of_class hc rfl)
  · simp only [assignment?_chars, Option.bind_eq_bind, Option.bind_some, hend, if_pos hlt, h]
    rfl

theorem assignments?_lines (ls : List Line) {rest tail : List Char}
    (h : assignments? rest = some ([], tail)) :
    assignments? (ls.flatMap chars ++ rest) = some (ls.map assignment, tail) := by
  induction ls with
  | nil => exact h
  | cons l ls ih =>
    rw [List.flatMap_cons, List.append_assoc]
    exact assignments?_chars l ih

end Line

/-! ### Sections -/

/-- A header and the lines under it. -/
structure Section where
  name : String
  lines : List Line
  bare : IsBare name
  nodup_keys : (lines.map Line.key).Nodup

namespace Section

def chars (p : Section) : List Char :=
  '[' :: (p.name.toList ++ ']' :: '\n' :: p.lines.flatMap Line.chars)

def header (p : Section) : Header :=
  ⟨false, [], p.name⟩

/-- What the section holds. -/
def fields (p : Section) : Fields :=
  p.lines.map fun l => (l.key, l.value)

theorem header?_chars (p : Section) (rest : List Char) :
    header? (p.chars ++ rest) = some (p.header, p.lines.flatMap Line.chars ++ rest) := by
  have hchars : p.chars ++ rest =
      '[' :: (p.name.toList ++ ']' :: '\n' :: (p.lines.flatMap Line.chars ++ rest)) := by
    simp [chars]
  have hbracket : skipBlanks (']' :: '\n' :: (p.lines.flatMap Line.chars ++ rest)) =
      ']' :: '\n' :: (p.lines.flatMap Line.chars ++ rest) := rfl
  obtain ⟨c, s, hs, hc⟩ :=
    p.bare.exists_cons (']' :: '\n' :: (p.lines.flatMap Line.chars ++ rest))
  rw [hchars]
  unfold header?
  split
  · rename_i heq
    rw [hs] at heq
    exact absurd (List.cons.inj (List.cons.inj heq).2).1 (ne_of_class hc rfl)
  · rename_i heq
    cases heq
    rw [key?_bare p.bare (by simp; decide) (by simp [hbracket]), hbracket]
    rfl
  · rename_i hno
    exact absurd rfl (hno _)

end Section

/-- What stands after the first section of a document. -/
def following (ps : List Section) : List Char :=
  ps.flatMap fun p => '\n' :: p.chars

/-- The sections of a document, with an empty line between each two. -/
def document : List Section → List Char
  | [] => []
  | p :: ps => p.chars ++ following ps

theorem document_cons (p : Section) (ps : List Section) :
    document (p :: ps) = p.chars ++ following ps := rfl

theorem assignments?_following (ps : List Section) :
    assignments? (following ps) = some ([], document ps) := by
  rw [assignments?]
  cases ps with
  | nil => rfl
  | cons p ps => rfl

theorem assignments?_document (ps : List Section) :
    assignments? (document ps) = some ([], document ps) := by
  rw [assignments?]
  cases ps with
  | nil => rfl
  | cons p ps => rfl

theorem length_document_le (ps : List Section) : (document ps).length ≤ (following ps).length := by
  cases ps with
  | nil => exact Nat.le_refl _
  | cons p ps => simp [document, following]

theorem sections?_document (ps : List Section) :
    sections? (document ps) = some (ps.map fun p => (p.header, p.lines.map Line.assignment)) := by
  induction ps with
  | nil => rw [sections?]; rfl
  | cons p ps ih =>
    have hempty : (document (p :: ps)).isEmpty = false := rfl
    have hlt : (document ps).length < (p.chars ++ following ps).length := by
      have := length_document_le ps
      simp only [Section.chars, List.length_append, List.length_cons]
      omega
    rw [sections?, hempty, document_cons]
    simp only [Section.header?_chars, Option.bind_eq_bind, Option.bind_some, if_pos hlt, ih,
      Line.assignments?_lines p.lines (assignments?_following ps)]
    rfl

/-! ### The tables that sections tell -/

namespace Fields

/-- Items that each add one field, all under different keys, add those fields in order. -/
theorem foldlM_fresh {α : Type} {f : Fields → α → Option Fields} {key : α → String}
    {value : α → Value} (hf : ∀ t a, t.get? (key a) = none → f t a = some (t ++ [(key a, value a)]))
    {items : List α} {t : Fields} (h : (t.map Prod.fst ++ items.map key).Nodup) :
    items.foldlM f t = some (t ++ items.map fun a => (key a, value a)) := by
  induction items generalizing t with
  | nil => simp
  | cons a items ih =>
    have hfresh : t.get? (key a) = none := by
      refine Table.lookup_eq_none fun hmem => ?_
      exact (List.nodup_append.mp h).2.2 _ hmem _ List.mem_cons_self rfl
    have hrest : ((t ++ [(key a, value a)]).map Prod.fst ++ items.map key).Nodup := by
      simpa using h
    rw [List.foldlM_cons, hf t a hfresh, Option.bind_eq_bind, Option.bind_some, ih hrest]
    simp

theorem insert_fresh {t : Fields} {key : String} (v : Value) (h : t.get? key = none) :
    t.insert [] key v = some (t ++ [(key, v)]) := by
  simp [insert, set, h]

theorem assign_lines {ls : List Line} (h : (ls.map Line.key).Nodup) :
    assign [] (ls.map Line.assignment) = some (ls.map fun l => (l.key, l.value)) := by
  rw [assign, List.foldlM_map]
  exact foldlM_fresh (fun t l => insert_fresh l.value) h

theorem addSection_fresh {t : Fields} (p : Section) (h : t.get? p.name = none) :
    t.addSection (p.header, p.lines.map Line.assignment) =
      some (t ++ [(p.name, .table .header p.fields)]) := by
  show openTable p.name _ t = _
  simp [openTable, set, h, assign_lines p.nodup_keys, Section.fields]

end Fields

/-- The tables that are read from a document of plain sections are those of its sections, in order. -/
theorem parse_document {ps : List Section} (h : (ps.map Section.name).Nodup) :
    parse (String.ofList (document ps)) =
      some (ps.map fun p => (p.name, .table .header p.fields)) := by
  have hsections : (ps.map fun p => (p.header, p.lines.map Line.assignment)).foldlM
      Fields.addSection [] = some (ps.map fun p => (p.name, .table .header p.fields)) := by
    rw [List.foldlM_map]
    exact Fields.foldlM_fresh (fun t p => Fields.addSection_fresh p) h
  have hhead : ∀ c s, document ps = c :: s → c ≠ byteOrderMark := by
    cases ps with
    | nil => rintro c s ⟨⟩
    | cons p ps =>
      rintro c s ⟨⟩
      decide
  unfold parse
  rw [String.toList_ofList]
  -- the text starts with no byte-order mark
  split
  · rename_i c s heq
    rw [if_neg (hhead c s heq), ← heq]
    simp only [assignments?_document, sections?_document, Option.bind_eq_bind, Option.bind_some]
    exact hsections
  · rename_i heq
    rw [← heq]
    simp only [assignments?_document, sections?_document, Option.bind_eq_bind, Option.bind_some]
    exact hsections

end BlockExchange.Toml
