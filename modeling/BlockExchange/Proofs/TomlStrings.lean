import BlockExchange.Toml.Quoted
import Mathlib

/-!
# TOML strings read back

Whatever style `write` chooses for a string, `read` takes the string off the front again
(`read_write`). Between single marks each character of the string is told by its own text
(`Written`). Between tripled marks one or two marks of the text may stand for themselves, and the end
of the string has to be told from them: `Spelled` follows how many stand before each point of the text,
and what it says is all that the two readers of such texts need (`TripleMarked`).
-/

namespace BlockExchange.Toml.Quoted

/-- A string is not made longer by what follows it. -/
def Unmarked (rest : List Char) : Prop :=
  ∀ c ∈ rest.head?, c ≠ '"' ∧ c ≠ '\''

section
variable {s t rest : List Char} {c : Char} {run : Nat} {lines : Bool}

/-! ### Characters and escapes -/

theorem numberText_of_lt : ∀ n < 128, (numberText (Char.ofNat n)).length = 4 ∧
    hexNumber? (numberText (Char.ofNat n)) = some n := by
  decide +kernel

theorem readNumbered_numberText (hc : isControl c = true) (t : List Char) :
    readNumbered 4 (numberText c ++ t) = some (c, t) := by
  have hlt : c.toNat < 128 := by
    simp only [isControl, Bool.or_eq_true, decide_eq_true_eq] at hc
    omega
  have hvalid : c.toNat.isValidChar := c.valid
  obtain ⟨hlen, hnumber⟩ := numberText_of_lt c.toNat hlt
  rw [Char.ofNat_toNat] at hlen hnumber
  unfold readNumbered
  rw [List.take_left' hlen, List.drop_left' hlen, hnumber]
  simp only [hlen, hvalid, and_self, ↓reduceIte, Char.ofNat_toNat]

/-- What stands for a character between double quotes, `run` of which were written right before it,
and how many then stand before the next character. -/
inductive Written (lines : Bool) (run : Nat) (c : Char) : List Char → Nat → Prop
  | escaped {m : List Char} (hread : ∀ t, readEscape (m ++ t) = some (c, t))
      (hline : ∀ t, skipLineEnd (m ++ t) = none) : Written lines run c ('\\' :: m) 0
  | quote (hc : c = '"') (hlines : lines = true) (hrun : run < 2) : Written lines run c [c] (run + 1)
  | plain (hquote : c ≠ '"') (hslash : c ≠ '\\') (hreturn : c ≠ '\r')
      (hplain : isPlain c = true ∨ lines = true ∧ c = '\n') : Written lines run c [c] 0

theorem Written.head {text : List Char} {run' : Nat} (h : Written lines run c text run') :
    ∃ d t, text = d :: t ∧ d ≠ '\r' ∧ (d = '\n' → c = '\n') ∧ (d = '"' → lines = true) := by
  cases h with
  | escaped hread hline => exact ⟨'\\', _, rfl, by decide, by simp, by simp⟩
  | quote hc hlines hrun => exact ⟨c, [], rfl, by rw [hc]; decide, id, fun _ => hlines⟩
  | plain hquote hslash hreturn hplain =>
    exact ⟨c, [], rfl, hreturn, id, fun hc => absurd hc hquote⟩

theorem skipLineEnd_of_mark {c : Char} (hblank : isBlank c = false) (hline : c ≠ '\n')
    (hreturn : c ≠ '\r') (t : List Char) : skipLineEnd (c :: t) = none := by
  unfold skipLineEnd
  rw [List.dropWhile_cons_of_neg (by simp [hblank])]
  split
  · rename_i heq
    exact absurd (List.cons.inj heq).1 hline
  · rename_i heq
    exact absurd (List.cons.inj heq).1 hreturn
  · rfl

/-- The text of a string begins with the text of its first character. -/
theorem exists_written (lines : Bool) (run : Nat) (c : Char) (s : List Char) :
    ∃ text run', Written lines run c text run' ∧
      escape lines run (c :: s) = text ++ escape lines run' s := by
  have hmarked : ∀ {mark}, escape lines run (c :: s) = '\\' :: mark :: escape lines 0 s →
      (∀ t, readEscape (mark :: t) = some (c, t)) → isBlank mark = false → mark ≠ '\n' →
      mark ≠ '\r' → ∃ text run', Written lines run c text run' ∧
        escape lines run (c :: s) = text ++ escape lines run' s :=
    fun {mark} hescape hread hblank hline hreturn => ⟨['\\', mark], 0,
      .escaped (m := [mark]) hread (skipLineEnd_of_mark hblank hline hreturn), hescape⟩
  -- the cases are those of `escape`; a quote alone depends on what stands before it
  by_cases hquote : c = '"'
  · subst hquote
    by_cases hrun : (lines && decide (run < 2)) = true
    · have hboth : lines = true ∧ run < 2 := by simpa using hrun
      exact ⟨['"'], run + 1, .quote rfl hboth.1 hboth.2, by simp [escape, hboth]⟩
    · exact hmarked (by simp only [escape, hrun]; rfl) (fun _ => rfl) rfl (by decide) (by decide)
  by_cases hslash : c = '\\'
  · subst hslash
    exact hmarked rfl (fun _ => rfl) rfl (by decide) (by decide)
  by_cases hback : c = '\x08'
  · subst hback
    exact hmarked rfl (fun _ => rfl) rfl (by decide) (by decide)
  by_cases htab : c = '\t'
  · subst htab
    exact hmarked rfl (fun _ => rfl) rfl (by decide) (by decide)
  by_cases hline : c = '\n'
  · subst hline
    cases lines with
    | true => exact ⟨['\n'], 0, .plain (by decide) (by decide) (by decide) (.inr ⟨rfl, rfl⟩), rfl⟩
    | false => exact hmarked rfl (fun _ => rfl) rfl (by decide) (by decide)
  by_cases hfeed : c = '\x0c'
  · subst hfeed
    exact hmarked rfl (fun _ => rfl) rfl (by decide) (by decide)
  by_cases hreturn : c = '\r'
  · subst hreturn
    exact hmarked rfl (fun _ => rfl) rfl (by decide) (by decide)
  have hescape : escape lines run (c :: s) =
      if isControl c then '\\' :: 'u' :: numberText c ++ escape lines 0 s
      else c :: escape lines 0 s := by
    simp only [escape, hquote, hslash, hback, htab, hline, hfeed, hreturn, ↓reduceIte]
  by_cases hcontrol : isControl c = true
  · rw [if_pos hcontrol] at hescape
    exact ⟨'\\' :: 'u' :: numberText c, 0, .escaped (m := 'u' :: numberText c)
      (readNumbered_numberText hcontrol)
      (fun t => skipLineEnd_of_mark rfl (by decide) (by decide) (numberText c ++ t)), hescape⟩
  · rw [if_neg hcontrol] at hescape
    refine ⟨[c], 0, .plain hquote hslash hreturn (.inl ?_), hescape⟩
    unfold isPlain
    simp [hcontrol]

/-! ### Strings in one line -/

theorem readBasic_of_escape (h : readEscape s = some (c, rest)) :
    readBasic ('\\' :: s) = (readBasic rest).map fun (cs, rest) => (c :: cs, rest) := by
  rw [readBasic]
  split
  · rename_i hnone
    rw [h] at hnone
    cases hnone
  · rename_i hsome
    rw [h] at hsome
    cases hsome
    rfl

theorem readBasic_of_plain (hquote : c ≠ '"') (hslash : c ≠ '\\') (hplain : isPlain c = true)
    (s : List Char) : readBasic (c :: s) = (readBasic s).map fun (cs, rest) => (c :: cs, rest) := by
  rw [readBasic, if_pos hplain]
  · exact hquote
  · exact hslash

theorem readBasic_escape (s rest : List Char) :
    readBasic (escape false run s ++ '"' :: rest) = some (s, rest) := by
  induction s generalizing run with
  | nil => rw [escape, List.nil_append, readBasic]
  | cons c s ih =>
    obtain ⟨text, run', hwritten, hescape⟩ := exists_written false run c s
    rw [hescape, List.append_assoc]
    cases hwritten with
    | escaped hread hline => rw [List.cons_append, readBasic_of_escape (hread _), ih]; rfl
    | quote hc hlines hrun => cases hlines
    | plain hquote hslash hreturn hplain =>
      have hplain : isPlain c = true := hplain.resolve_right (by simp)
      rw [List.singleton_append, readBasic_of_plain hquote hslash hplain, ih]
      rfl

theorem readLiteral_append (h : ∀ c ∈ s, isPlain c = true ∧ c ≠ '\'') (rest : List Char) :
    readLiteral (s ++ '\'' :: rest) = some (s, rest) := by
  induction s with
  | nil => rfl
  | cons c s ih =>
    obtain ⟨⟨hplain, hmark⟩, h⟩ := List.forall_mem_cons.mp h
    rw [List.cons_append, readLiteral, if_pos hplain, ih h]
    · rfl
    · exact hmark

/-! ### Strings in several lines -/

/-- A reader of strings between tripled marks. -/
structure TripleMarked (read : List Char → Option (List Char × List Char)) (q : Char) : Prop where
  /-- Three marks end the string, and one or two more before them are in it. -/
  ends : ∀ {rest}, rest.head? ≠ some q → read (q :: q :: q :: rest) = some ([], rest)
  endsOne : ∀ {rest}, rest.head? ≠ some q → read (q :: q :: q :: q :: rest) = some ([q], rest)
  endsTwo : ∀ rest, read (q :: q :: q :: q :: q :: rest) = some ([q, q], rest)
  /-- A mark that does not stand before two others is in the string. -/
  mark : ∀ {s}, ¬ [q, q] <+: s → read (q :: s) = (read s).map fun (cs, rest) => (q :: cs, rest)

/-- The text spells the string to the reader, with at most two marks in a row that stand for
themselves, of which `run` were written before the text. -/
inductive Spelled (read : List Char → Option (List Char × List Char)) (q : Char) :
    Nat → List Char → List Char → Prop
  | nil {run : Nat} : Spelled read q run [] []
  | mark {run : Nat} {text s : List Char} (hrun : run < 2) (h : Spelled read q (run + 1) text s) :
      Spelled read q run (q :: text) (q :: s)
  | other {run : Nat} {first c : Char} {p text s : List Char} (hfirst : first ≠ q)
      (hread : ∀ t, read (first :: (p ++ t)) = (read t).map fun (cs, rest) => (c :: cs, rest))
      (h : Spelled read q 0 text s) : Spelled read q run (first :: (p ++ text)) (c :: s)

theorem Spelled.read_append {read : List Char → Option (List Char × List Char)} {q : Char}
    {text : List Char} (hr : TripleMarked read q) (h : Spelled read q run text s)
    (hrest : rest.head? ≠ some q) : read (text ++ q :: q :: q :: rest) = some (s, rest) := by
  induction h with
  | nil => exact hr.ends hrest
  | other hfirst hread h ih =>
    rw [List.cons_append, List.append_assoc, hread, ih]
    rfl
  | mark hrun h ih =>
    -- what follows the mark begins with two marks only at the end of the text
    cases h with
    | nil => exact hr.endsOne hrest
    | other hfirst hread h =>
      rw [List.cons_append, hr.mark, ih]
      · rfl
      · exact fun hpre => hfirst (List.cons_prefix_cons.mp hpre).1.symm
    | mark hrun' h =>
      cases h with
      | nil => exact hr.endsTwo rest
      | mark hrun'' h => omega
      | other hfirst hread h =>
        rw [List.cons_append, hr.mark, ih]
        · rfl
        · exact fun hpre => hfirst
            (List.cons_prefix_cons.mp (List.cons_prefix_cons.mp hpre).2).1.symm

theorem readLines_of_escape (hline : skipLineEnd s = none) (h : readEscape s = some (c, rest)) :
    readLines ('\\' :: s) = (readLines rest).map fun (cs, rest) => (c :: cs, rest) := by
  rw [readLines]
  split
  · rename_i hsome
    rw [hline] at hsome
    cases hsome
  · split
    · rename_i hnone
      rw [h] at hnone
      cases hnone
    · rename_i hsome
      rw [h] at hsome
      cases hsome
      rfl

theorem readLines_of_plain (hquote : c = '"' → ¬ ['"', '"'] <+: s) (hslash : c ≠ '\\')
    (hreturn : c ≠ '\r') (hplain : isPlain c = true ∨ c = '\n') :
    readLines (c :: s) = (readLines s).map fun (cs, rest) => (c :: cs, rest) := by
  have hmark : ∀ t, c = '"' → s = '"' :: '"' :: t → False :=
    fun t hc hs => hquote hc ⟨t, hs.symm⟩
  rw [readLines, if_pos (by simpa using hplain)]
  case x | x_1 | x_2 => exact fun _ => hmark _
  case x_3 => exact hslash
  case x_4 => exact fun _ hc _ => hreturn hc

theorem tripleMarked_readLines : TripleMarked readLines '"' where
  ends h := by
    rw [readLines]
    · rintro s rfl
      exact h rfl
    · rintro s rfl
      exact h rfl
  endsOne h := by
    rw [readLines]
    rintro s rfl
    exact h rfl
  endsTwo rest := by rw [readLines]
  mark h := readLines_of_plain (fun _ => h) (by decide) (by decide) (.inl rfl)

theorem readLiteralLines_of_plain (hquote : c = '\'' → ¬ ['\'', '\''] <+: s)
    (hreturn : c ≠ '\r') (hplain : isPlain c = true ∨ c = '\n') :
    readLiteralLines (c :: s) = (readLiteralLines s).map fun (cs, rest) => (c :: cs, rest) := by
  have hmark : ∀ t, c = '\'' → s = '\'' :: '\'' :: t → False :=
    fun t hc hs => hquote hc ⟨t, hs.symm⟩
  rw [readLiteralLines, if_pos (by simpa using hplain)]
  case x_1 | x_2 | x_3 => exact fun _ => hmark _
  case x_4 => exact fun _ hc _ => hreturn hc

theorem tripleMarked_readLiteralLines : TripleMarked readLiteralLines '\'' where
  ends h := by
    rw [readLiteralLines]
    · rintro s rfl
      exact h rfl
    · rintro s rfl
      exact h rfl
  endsOne h := by
    rw [readLiteralLines]
    rintro s rfl
    exact h rfl
  endsTwo rest := by rw [readLiteralLines]
  mark h := readLiteralLines_of_plain (fun _ => h) (by decide) (.inl rfl)

/-- Two quotes in a row stand for themselves, so the count of them carries the induction. -/
theorem spelled_escape (run : Nat) (s : List Char) :
    Spelled readLines '"' run (escape true run s) s := by
  induction s generalizing run with
  | nil => exact .nil
  | cons c s ih =>
    obtain ⟨text, run', hwritten, hescape⟩ := exists_written true run c s
    rw [hescape]
    cases hwritten with
    | escaped hread hline =>
      exact .other (by decide) (fun t => readLines_of_escape (hline t) (hread t)) (ih 0)
    | quote hc hlines hrun =>
      subst hc
      exact .mark hrun (ih _)
    | plain hquote hslash hreturn hplain =>
      refine .other (p := []) hquote (fun t => ?_) (ih 0)
      exact readLines_of_plain (fun hc => absurd hc hquote) hslash hreturn (hplain.imp_right And.right)

theorem le_longestRun (c : Char) (run : Nat) (s : List Char) : run ≤ longestRun c run s := by
  induction s generalizing run with
  | nil => exact Nat.le_refl run
  | cons d s ih =>
    rw [longestRun]
    split
    · exact Nat.le_trans (Nat.le_succ run) (ih (run + 1))
    · exact Nat.le_max_left _ _

theorem not_mem_of_longestRun (h : longestRun c 0 s = 0) : c ∉ s := by
  induction s with
  | nil => exact List.not_mem_nil
  | cons d s ih =>
    rw [longestRun] at h
    split at h
    · have := le_longestRun c (0 + 1) s
      omega
    · rename_i hne
      exact List.not_mem_cons_of_ne_of_not_mem (Ne.symm hne) (ih (Nat.max_eq_zero_iff.mp h).2)

theorem spelled_literal (hs : ∀ c ∈ s, isPlain c = true ∨ c = '\n')
    (hrun : longestRun '\'' run s ≤ 2) : Spelled readLiteralLines '\'' run s s := by
  induction s generalizing run with
  | nil => exact .nil
  | cons c s ih =>
    obtain ⟨hc, htail⟩ := List.forall_mem_cons.mp hs
    rw [longestRun] at hrun
    split at hrun
    · rename_i hmark
      have := le_longestRun '\'' (run + 1) s
      subst hmark
      exact .mark (by omega) (ih htail hrun)
    · rename_i hmark
      have hreturn : c ≠ '\r' := by
        rintro rfl
        exact absurd hc (by decide)
      exact .other (p := []) hmark
        (fun t => readLiteralLines_of_plain (fun h => absurd h hmark) hreturn hc)
        (ih htail (Nat.le_trans (Nat.le_max_right _ _) hrun))

/-! ### The styles -/

theorem isPlain_of_any (h : s.any (fun c => isControl c && c ≠ '\t' && c ≠ '\n') = false)
    (hc : c ∈ s) : isPlain c = true ∨ c = '\n' := by
  have := List.any_eq_false.mp h c hc
  unfold isPlain
  grind

theorem of_style_literal (h : style s = .literal) :
    s ≠ [] ∧ ∀ c ∈ s, isPlain c = true ∧ c ≠ '\'' := by
  unfold style at h
  dsimp only at h
  split_ifs at h with hbasic hliteral
  simp only [Bool.and_eq_true, Bool.not_eq_true', decide_eq_true_eq] at hliteral
  obtain ⟨⟨hcontrols, hmarks⟩, hlines⟩ := hliteral
  refine ⟨?_, fun c hc => ⟨(isPlain_of_any hcontrols hc).resolve_right ?_, ?_⟩⟩
  · rintro rfl
    exact hbasic rfl
  · rintro rfl
    simp [hc] at hlines
  · rintro rfl
    exact not_mem_of_longestRun hmarks hc

theorem of_style_literalLines (h : style s = .literalLines) :
    (∀ c ∈ s, isPlain c = true ∨ c = '\n') ∧ longestRun '\'' 0 s ≤ 2 := by
  unfold style at h
  dsimp only at h
  split_ifs at h with hbasic hliteral hbasicLines hliteralLines
  simp only [Bool.and_eq_true, Bool.not_eq_true', decide_eq_true_eq] at hliteralLines
  exact ⟨fun c hc => isPlain_of_any hliteralLines.1 hc, hliteralLines.2⟩

/-- A text in one line does not begin with a line end that would be dropped. -/
theorem dropLineEnd_opening (ht : '\n' ∉ s → ∀ c ∈ t.head?, c ≠ '\n' ∧ c ≠ '\r') :
    dropLineEnd (opening s ++ t) = t := by
  unfold opening
  split
  · rfl
  · rename_i hline
    have hhead := ht (by simpa using hline)
    rw [List.nil_append]
    unfold dropLineEnd
    split
    · exact absurd rfl (hhead _ rfl).1
    · exact absurd rfl (hhead _ rfl).2
    · rfl

theorem readLine_of_unmarked (h : Unmarked s) : readLine s = none := by
  unfold readLine
  split
  · exact absurd rfl (h _ rfl).1
  · exact absurd rfl (h _ rfl).2
  · rfl

theorem read_of_unmarked (h : Unmarked s) : read s = none := by
  unfold read
  split
  · exact absurd rfl (h _ rfl).1
  · exact absurd rfl (h _ rfl).2
  · exact readLine_of_unmarked h

theorem read_eq_readBasic (h : ¬ ['"', '"'] <+: s) : read ('"' :: s) = readBasic s := by
  unfold read
  split
  · rename_i heq
    exact absurd ⟨_, (List.cons.inj heq).2.symm⟩ h
  · rename_i heq
    cases heq
  · rfl

theorem read_eq_readLiteral (h : ¬ ['\'', '\''] <+: s) : read ('\'' :: s) = readLiteral s := by
  unfold read
  split
  · rename_i heq
    cases heq
  · rename_i heq
    exact absurd ⟨_, (List.cons.inj heq).2.symm⟩ h
  · rfl

theorem read_oneLine (hrest : rest.head? ≠ some '"') :
    read ('"' :: (escape false 0 s ++ '"' :: rest)) = some (s, rest) := by
  refine (read_eq_readBasic fun hpre => ?_).trans (readBasic_escape s rest)
  cases s with
  | nil =>
    obtain ⟨t, ht⟩ := (List.cons_prefix_cons.mp hpre).2
    exact hrest (by rw [← ht]; rfl)
  | cons c s =>
    obtain ⟨text, run', hwritten, hescape⟩ := exists_written false 0 c s
    obtain ⟨d, t, htext, -, -, hd⟩ := hwritten.head
    rw [hescape, htext] at hpre
    cases hd (List.cons_prefix_cons.mp hpre).1.symm

theorem read_lines (hrest : rest.head? ≠ some '"') :
    read ('"' :: '"' :: '"' :: (opening s ++ (escape true 0 s ++ '"' :: '"' :: '"' :: rest))) =
      some (s, rest) := by
  show readLines (dropLineEnd _) = _
  rw [dropLineEnd_opening]
  · exact (spelled_escape 0 s).read_append tripleMarked_readLines hrest
  · intro hline
    cases s with
    | nil => simp [escape]
    | cons c s =>
      obtain ⟨text, run', hwritten, hescape⟩ := exists_written true 0 c s
      obtain ⟨d, t, htext, hreturn, hd, -⟩ := hwritten.head
      rw [hescape, htext]
      intro e he
      cases he
      exact ⟨fun hn => hline (hd hn ▸ List.mem_cons_self), hreturn⟩

theorem read_literalLines (hstyle : style s = .literalLines) (hrest : rest.head? ≠ some '\'') :
    read ('\'' :: '\'' :: '\'' :: (opening s ++ (s ++ '\'' :: '\'' :: '\'' :: rest))) =
      some (s, rest) := by
  obtain ⟨hplain, hrun⟩ := of_style_literalLines hstyle
  show readLiteralLines (dropLineEnd _) = _
  rw [dropLineEnd_opening]
  · exact (spelled_literal hplain hrun).read_append tripleMarked_readLiteralLines hrest
  · intro hline
    cases s with
    | nil => simp
    | cons c s =>
      intro e he
      cases he
      refine ⟨fun hn => hline (hn ▸ List.mem_cons_self), ?_⟩
      rintro rfl
      exact absurd (hplain '\r' List.mem_cons_self) (by decide)

/-- A string that was written is read back in full, and no further. -/
theorem read_write (hrest : Unmarked rest) : read (write s ++ rest) = some (s, rest) := by
  have hquote : rest.head? ≠ some '"' := fun h => (hrest '"' h).1 rfl
  have hmark : rest.head? ≠ some '\'' := fun h => (hrest '\'' h).2 rfl
  unfold write
  split
  next hstyle => simpa using read_oneLine hquote
  next hstyle =>
    obtain ⟨hne, hplain⟩ := of_style_literal hstyle
    obtain ⟨c, t, rfl⟩ := List.exists_cons_of_ne_nil hne
    rw [List.append_assoc, List.append_assoc]
    refine (read_eq_readLiteral fun hpre => ?_).trans (readLiteral_append hplain rest)
    exact (hplain c List.mem_cons_self).2 (List.cons_prefix_cons.mp hpre).1.symm
  next hstyle => simpa using read_lines hquote
  next hstyle => simpa using read_literalLines hstyle hmark

end
end BlockExchange.Toml.Quoted
