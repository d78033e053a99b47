/-
# What a report shows

The answer to a source with errors is a report on each of them, four lines long.  The
line of the error is shown under its number, without the white space around it, and a
caret stands below the place where the token of the error is shown (`Showing`).  Main
statements: `answer_shows_errors` and, from 4 GiB on, `answer_shows_errors_apart`.
-/
import ExprLang.Proofs.ErrorOrder
import ExprLang.Proofs.Lines
import ExprLang.Proofs.Tokenization
import ExprLang.Session
import Mathlib.Data.List.Forall2

namespace ExprLang

open Text

/-! ## Texts of one line -/

namespace Text

/-- Whether a text has no line feed in it. -/
def Unbroken (s : String) : Prop :=
  '\n' ∉ s.toList

instance (s : String) : Decidable (Unbroken s) :=
  inferInstanceAs (Decidable ('\n' ∉ s.toList))

@[simp]
theorem unbroken_append {s t : String} : Unbroken (s ++ t) ↔ Unbroken s ∧ Unbroken t := by
  simp [Unbroken]

@[simp]
theorem unbroken_ofList {cs : List Char} : Unbroken (String.ofList cs) ↔ '\n' ∉ cs := by
  rw [Unbroken, String.toList_ofList]

/-- The digits of a number are on one line. -/
theorem feed_not_mem_toDigits {base : Nat} (hbase : 1 < base) (n : Nat) :
    '\n' ∉ Nat.toDigits base n := by
  induction n using Nat.strong_induction_on with
  | _ n ih =>
    rw [Nat.toDigits_eq_if hbase]
    split
    · simp
    · next hge =>
        have hrest := ih (n / base) (Nat.div_lt_self (by omega) hbase)
        simp [hrest]

@[simp]
theorem unbroken_toString (n : Nat) : Unbroken (toString n) := by
  have hdigits : (toString n).toList = Nat.toDigits 10 n := Nat.toList_repr
  rw [Unbroken, hdigits]
  exact feed_not_mem_toDigits (by decide) n

/-- No character is shown with a line feed, not even the line feed. -/
theorem feed_not_mem_escape (c : Char) : '\n' ∉ escape c := by
  unfold escape
  split
  · decide
  · decide
  · decide
  · decide
  · decide
  · decide
  · next hne _ =>
      split
      · simp [codePoint, feed_not_mem_toDigits]
      · simpa [eq_comm] using hne

/-- A text between quotes is on one line. -/
@[simp]
theorem unbroken_quoted (s : String) : Unbroken (quoted s) := by
  simp only [quoted, unbroken_append, unbroken_ofList, List.mem_flatMap, not_exists, not_and]
  exact ⟨⟨by decide, fun c _ => feed_not_mem_escape c⟩, by decide⟩

end Text

namespace SyntaxError

@[simp]
theorem unbroken_describe (k : Token.Kind) : Unbroken k.describe := by
  cases k <;> decide

@[simp]
theorem unbroken_name (e : SyntaxError) : Unbroken e.name := by
  unfold name
  split <;> decide

@[simp]
theorem unbroken_message (e : SyntaxError) : Unbroken e.message := by
  unfold message
  split <;> simp only [unbroken_append, unbroken_describe, unbroken_quoted] <;> decide

theorem unbroken_advice {e : SyntaxError} {advice : String} (h : e.advice? = some advice) :
    Unbroken advice := by
  unfold advice? at h
  split at h <;> cases h <;> decide

/-- What a report says of an error is on one line. -/
@[simp]
theorem unbroken_fullMessage (e : SyntaxError) : Unbroken e.fullMessage := by
  unfold fullMessage
  split
  · exact e.unbroken_message
  · next advice h =>
      simp only [unbroken_append, unbroken_message, unbroken_advice h]
      decide

end SyntaxError

/-! ## Trimming -/

/-- The last element of two lists is of the second one, unless that is empty. -/
theorem mem_of_mem_getLast?_append {α : Type} {xs ys : List α} {y : α} (hne : ys ≠ [])
    (h : y ∈ (xs ++ ys).getLast?) : y ∈ ys := by
  rw [List.getLast?_append, List.getLast?_eq_some_getLast hne, Option.some_or] at h
  rw [← Option.some.inj h]
  exact List.getLast_mem hne

namespace Text

variable {cs tail : List Char}

/-- White space at the end is trimmed off. -/
theorem trimEnd_append_of_blank (h : ∀ c ∈ tail, isBlank c) :
    trimEnd (cs ++ tail) = trimEnd cs := by
  have hrev : ∀ c ∈ tail.reverse, isBlank c = true := fun c hc => h c (List.mem_reverse.mp hc)
  rw [trimEnd, List.reverse_append, List.dropWhile_append_of_pos hrev, trimEnd]

/-- Nothing is trimmed off in front of a character that is no white space. -/
theorem trimEnd_append_of_getLast (h : ∀ c ∈ cs.getLast?, isBlank c = false) :
    trimEnd (cs ++ tail) = cs ++ trimEnd tail := by
  rw [← List.head?_reverse] at h
  rw [trimEnd, List.reverse_append, (span_append_of_head h).2, List.reverse_append,
    List.reverse_reverse, trimEnd]

theorem mem_of_mem_trimEnd {c : Char} (h : c ∈ trimEnd cs) : c ∈ cs := by
  rw [← trimEnd_append cs]
  exact List.mem_append_left _ h

theorem IsLineEnd.isBlank {c : Char} (h : IsLineEnd c) : isBlank c := by
  rcases h with rfl | rfl <;> decide

theorem IsLineEnd.isIndent {c : Char} (h : IsLineEnd c) : isIndent c = false := by
  rcases h with rfl | rfl <;> decide

/-- Only blanks are taken off the start of a line. -/
theorem isIndent_eq_false {c : Char} (h : c.isWhitespace = false) : isIndent c = false := by
  simp only [Char.isWhitespace, Bool.or_eq_false_iff] at h
  simp [isIndent, h.1.1.1, h.1.1.2]

/-- What is in front of further lines ends in a line feed. -/
theorem IsWhole.feed_mem {ahead rest back : List Char} (h : IsWhole (ahead ++ rest) back)
    (hrest : rest ≠ []) (hback : back ≠ []) : '\n' ∈ rest := by
  obtain ⟨content, -, hline | ⟨-, -, hnil⟩⟩ := h
  · have hlast : '\n' ∈ (ahead ++ rest).getLast? := by
      rw [hline, List.getLast?_concat]
      rfl
    exact mem_of_mem_getLast?_append hrest hlast
  · exact absurd hnil hback

namespace LineAt

variable {position : Nat}

/-- The line as a report shows it. -/
def shown (l : LineAt cs position) : List Char :=
  trimEnd (l.line.dropWhile isIndent)

/-- The bytes that are taken off the start of the line to show it. -/
def indent (l : LineAt cs position) : Nat :=
  byteLength (l.line.takeWhile isIndent)

/-- What the lookup has taken off the end of the line is not missed when it is shown. -/
theorem content_trim (l : LineAt cs position) :
    l.content.takeWhile isIndent = l.line.takeWhile isIndent ∧
      trimEnd (l.content.dropWhile isIndent) = l.shown := by
  obtain ⟨tail, hline, htail⟩ := l.exists_line_eq
  have hhead : ∀ c ∈ tail.head?, isIndent c = false := fun c hc =>
    (htail c (List.mem_of_mem_head? hc)).isIndent
  obtain ⟨htake, hdrop⟩ := @span_append_of_head _ isIndent l.content tail hhead
  rw [shown, hline, htake, hdrop, trimEnd_append_of_blank fun c hc => (htail c hc).isBlank]
  exact ⟨rfl, rfl⟩

/-- No more is taken off the start of the line than there is of it. -/
theorem indent_le (l : LineAt cs position) : l.indent ≤ byteLength l.content := by
  have hparts := congrArg byteLength (@List.takeWhile_append_dropWhile _ isIndent l.content)
  rw [byteLength_append, l.content_trim.1] at hparts
  rw [indent]
  omega

/-- The report on an error, by the line that it is in. -/
theorem ofError_eq {source : String} {e : SyntaxError} (l : LineAt source.toList e.position.toNat)
    (h : locate source e.position.toNat = ⟨l.number, String.ofList l.content, l.column⟩) :
    Report.ofError source e =
      ⟨e.name, e.fullMessage, l.number, String.ofList l.shown, l.column - l.indent⟩ := by
  have hstripped : stripStart (String.ofList l.content) =
      (String.ofList (l.content.dropWhile isIndent), l.indent) := by
    refine Prod.ext ?_ ?_
    · rw [stripStart, String.toList_ofList]
    · rw [snd_stripStart, String.toList_ofList, l.content_trim.1, indent]
  rw [Report.ofError, h]
  simp only [hstripped, String.toList_ofList, l.content_trim.2]

/-- A line is shown on one line. -/
theorem feed_not_mem_shown (l : LineAt cs position) : '\n' ∉ l.shown := by
  obtain ⟨content, hfree, hline⟩ := l.ends
  have hcontent : '\n' ∉ trimEnd (content.dropWhile isIndent) := fun hmem =>
    hfree ((List.dropWhile_sublist _).mem (mem_of_mem_trimEnd hmem))
  rw [shown]
  rcases hline with hline | ⟨hline, -⟩
  · have hhead : ∀ c ∈ ['\n'].head?, isIndent c = false := by simp [isIndent]
    have hblank : ∀ c ∈ ['\n'], isBlank c := by simpa using IsLineEnd.isBlank (.inl rfl)
    rwa [hline, (span_append_of_head hhead).2, trimEnd_append_of_blank hblank]
  · rwa [hline]

/-- Text that is not cut by a line feed, and begins at a position, is on the line of the
position, from its column on. -/
theorem exists_line_eq_append (l : LineAt cs position) {before word after : List Char}
    (hcs : cs = before ++ (word ++ after)) (hposition : byteLength before = position)
    (hne : word ≠ []) (hfree : '\n' ∉ word) :
    ∃ ahead rest, l.line = ahead ++ (word ++ rest) ∧ byteLength ahead = l.column := by
  have hword := byteLength_pos hne
  have hsize : byteLength cs = byteLength before + (byteLength word + byteLength after) := by
    rw [hcs, byteLength_append, byteLength_append]
  obtain ⟨hstart, hlt⟩ := l.place_of_lt (by omega)
  -- the text begins in the line ...
  have hsame : l.front ++ (l.line ++ l.back) = before ++ (word ++ after) := by
    rw [← l.text, hcs]
  obtain ⟨ahead, rfl, hline⟩ := exists_eq_append_of_byteLength_le hsame (by omega)
  rw [byteLength_append] at hposition
  have hcolumn : byteLength ahead = l.column := by omega
  obtain ⟨rest, hrest, hback⟩ := exists_eq_append_of_byteLength_le hline.symm (by omega)
  -- ... and ends in it, as it does not reach over the line feed
  rcases List.append_eq_append_iff.mp hback with ⟨further, hlong, -⟩ | ⟨further, hshort, hbehind⟩
  · exact ⟨ahead, further, by rw [hrest, hlong], hcolumn⟩
  · have hrestne : rest ≠ [] := by
      rintro rfl
      rw [hrest, List.append_nil, hcolumn] at hlt
      exact Nat.lt_irrefl _ hlt
    have hwhole := l.ends
    rw [hrest] at hwhole
    have hnil : l.back = [] := by
      by_contra hbackne
      apply hfree
      rw [hshort]
      exact List.mem_append_left _ (hwhole.feed_mem hrestne hbackne)
    have hnone : further = [] := (List.append_eq_nil_iff.mp (hbehind.symm.trans hnil)).1
    exact ⟨ahead, [], by rw [hrest, hshort, hnone, List.append_nil, List.append_nil], hcolumn⟩

variable {ahead word rest : List Char}

/-- Nothing is taken off the start of a line behind a character that is no indentation. -/
theorem dropWhile_add_indent (l : LineAt cs position) (hline : l.line = ahead ++ (word ++ rest))
    (hhead : ∀ c ∈ (word ++ rest).head?, isIndent c = false) :
    byteLength (ahead.dropWhile isIndent) + l.indent = byteLength ahead := by
  have hparts := congrArg byteLength (@List.takeWhile_append_dropWhile _ isIndent ahead)
  rw [byteLength_append] at hparts
  rw [indent, hline, (span_append_of_head hhead).1, ← hparts, Nat.add_comm]

/-- A part of a line without white space is shown, with what is in front of it. -/
theorem shown_eq_of_line_eq (l : LineAt cs position) (hline : l.line = ahead ++ (word ++ rest))
    (hhead : ∀ c ∈ (word ++ rest).head?, isIndent c = false) (hne : word ≠ [])
    (hblank : ∀ c ∈ word, isBlank c = false) :
    l.shown = ahead.dropWhile isIndent ++ (word ++ trimEnd rest) := by
  have hlast : ∀ c ∈ (ahead.dropWhile isIndent ++ word).getLast?, isBlank c = false :=
    fun c hc => hblank c (mem_of_mem_getLast?_append hne hc)
  rw [shown, hline, (span_append_of_head hhead).2, ← List.append_assoc,
    trimEnd_append_of_getLast hlast, List.append_assoc]

end LineAt

end Text

/-! ## Tokens -/

/-- A token that can be seen where it stands: it is not the end marker, and not a single
character of white space. -/
def Token.Visible (t : Token) : Prop :=
  t.kind ≠ .eof ∧ ∀ c, t.text.toList = [c] → isBlank c = false

/-- Parts of words are no white space. -/
theorem isBlank_eq_false_of_isWordChar {c : Char} (h : isWordChar c) : isBlank c = false := by
  rw [isWordChar_iff, isLetter_iff, isDigit_iff] at h
  exact RangeSet.contains_eq_false_of_gap 0x21 0x84 (by decide) (by omega) (by omega)

namespace Token.Kind

variable {k : Token.Kind} {cs : List Char}

/-- No white space is inside a token, unless it is all of it. -/
theorem Spells.isBlank_eq_false (h : k.Spells cs) (hone : ∀ c, cs = [c] → isBlank c = false) :
    ∀ c ∈ cs, isBlank c = false := by
  rcases h.shape with ⟨-, hword⟩ | ⟨c, rfl, -⟩ | rfl | rfl
  · exact fun c hc => isBlank_eq_false_of_isWordChar (hword c hc)
  · exact List.forall_mem_singleton.mpr (hone c rfl)
  · exact List.forall_mem_cons.mpr ⟨by decide, List.forall_mem_singleton.mpr (by decide)⟩
  · exact List.forall_mem_cons.mpr ⟨by decide, List.forall_mem_singleton.mpr (by decide)⟩

end Token.Kind

/-! ## Reports -/

/-- A character behind a run of another one. -/
theorem rightAligned_succ (fill : Char) (width : Nat) (last : Char) :
    rightAligned fill (width + 1) last =
      String.ofList (List.replicate width fill) ++ String.singleton last := by
  rw [rightAligned, Nat.add_sub_cancel, String.ofList_append]
  rfl

/-- How an error of a source is shown: the line that it is in, with its column, and the
token that gave rise to it. -/
structure Showing (source : String) (e : SyntaxError) : Type
    extends LineAt source.toList e.position.toNat where
  /-- The byte column of the caret in the line as it is shown. -/
  caret : Nat
  token : Token
  /-- The caret is moved to the left by what is taken off the line, and never further
  than to its start. -/
  caret_add_indent : caret + toLineAt.indent = column
  token_mem : token ∈ Lexer.tokenize source
  arises : e.ArisesAt token
  /-- A token that can be seen is shown in full, and begins above the caret. -/
  above : token.Visible → ∃ before after,
    toLineAt.shown = before ++ (token.text.toList ++ after) ∧ byteLength before = caret

namespace Showing

variable {source : String} {e : SyntaxError}

/-- The four lines that show an error: its name and message, a bar in the margin, the
line of the source behind its number, and the caret below it. -/
def report (s : Showing source e) : List String :=
  let number := toString s.number
  let margin := String.ofList (List.replicate (number.length + 1) ' ') ++ "|"
  ["Error[" ++ e.name ++ "]: " ++ e.fullMessage,
    margin,
    number ++ " | " ++ String.ofList s.shown,
    margin ++ " " ++ (String.ofList (List.replicate s.caret '-') ++ "^")]

/-- The lines of a report are those that show its error, if the report has the number
and the content of the line and the column of the caret. -/
theorem lines_eq_report (s : Showing source e) :
    (⟨e.name, e.fullMessage, s.number, String.ofList s.shown, s.caret⟩ : Report).lines =
      s.report := by
  have hbar : String.singleton '|' = "|" := rfl
  have hcaret : String.singleton '^' = "^" := rfl
  rw [Report.lines, Report.margin, report]
  dsimp only
  rw [rightAligned_succ, rightAligned_succ, hbar, hcaret]

/-- A report has no line that is broken in two. -/
theorem unbroken_report (s : Showing source e) :
    ∀ line ∈ s.report, Unbroken line := by
  have hbar : Unbroken "|" ∧ Unbroken " | " ∧ Unbroken " " ∧ Unbroken "^" := by decide
  have hhead : Unbroken "Error[" ∧ Unbroken "]: " := by decide
  have hreplicate : ∀ (n : Nat) (c : Char), c ≠ '\n' → '\n' ∉ List.replicate n c := by
    intro n c hc hmem
    exact hc (List.eq_of_mem_replicate hmem).symm
  have hmargin := hreplicate ((toString s.number).length + 1) ' ' (by decide)
  have harrow := hreplicate s.caret '-' (by decide)
  simp only [report, List.forall_mem_cons, unbroken_append, unbroken_ofList, unbroken_toString,
    SyntaxError.unbroken_name, SyntaxError.unbroken_fullMessage, s.feed_not_mem_shown, hbar, hhead,
    hmargin, harrow, not_false_eq_true, and_self, true_and]
  exact List.forall_mem_nil _

end Showing

/-- An error that arises at the end marker is shown at the end of the last line. -/
theorem exists_showing_of_eof {source : String} {e : SyntaxError} {t : Token}
    (l : LineAt source.toList e.position.toNat) (ht : t ∈ Lexer.tokenize source) (he : e.ArisesAt t)
    (heof : t.kind = .eof) (hend : e.position.toNat = byteLength source.toList) :
    ∃ s : Showing source e, s.toLineAt = l ∧ s.token = t := by
  have hcolumn : l.column = byteLength l.content := by
    rw [(l.place_of_le (by omega)).2, LineAt.content, if_neg (by omega)]
  have hle := l.indent_le
  exact ⟨{
    toLineAt := l
    caret := l.column - l.indent
    token := t
    caret_add_indent := by omega
    token_mem := ht
    arises := he
    above := fun hvisible => absurd heof hvisible.1 }, rfl, rfl⟩

/-- An error that arises at any other token is shown below the token. -/
theorem exists_showing_of_spells {source : String} {e : SyntaxError} {t : Token}
    (l : LineAt source.toList e.position.toNat) (ht : t ∈ Lexer.tokenize source) (he : e.ArisesAt t)
    (hspells : t.kind.Spells t.text.toList) {before after : List Char}
    (hsource : source.toList = before ++ (t.text.toList ++ after))
    (hposition : byteLength before = e.position.toNat) :
    ∃ s : Showing source e, s.toLineAt = l ∧ s.token = t := by
  obtain ⟨c, tail, hword, hc⟩ := hspells.exists_cons
  have hfree : '\n' ∉ t.text.toList := fun hmem =>
    absurd (hspells.isWhitespace_eq_false _ hmem) (by decide)
  have hne : t.text.toList ≠ [] := by
    rw [hword]
    exact List.cons_ne_nil c tail
  obtain ⟨ahead, rest, hline, hcolumn⟩ := l.exists_line_eq_append hsource hposition hne hfree
  have hhead : ∀ d ∈ (t.text.toList ++ rest).head?, isIndent d = false := by
    simpa [hword] using isIndent_eq_false hc
  exact ⟨{
    toLineAt := l
    caret := byteLength (ahead.dropWhile isIndent)
    token := t
    caret_add_indent := (l.dropWhile_add_indent hline hhead).trans hcolumn
    token_mem := ht
    arises := he
    above := fun hvisible => ⟨ahead.dropWhile isIndent, trimEnd rest,
      l.shown_eq_of_line_eq hline hhead hne (hspells.isBlank_eq_false hvisible.2), rfl⟩ },
    rfl, rfl⟩

/-- Below 4 GiB the tokens of a source are where they say. -/
theorem Lexer.toNat_start {source : String} (hsize : source.utf8ByteSize < UInt32.size) {t : Token}
    (ht : t ∈ Lexer.tokenize source) :
    (t.kind = .eof ∧ t.start.toNat = byteLength source.toList) ∨
      (t.kind.Spells t.text.toList ∧
        ∃ before after, source.toList = before ++ (t.text.toList ++ after) ∧
          t.start.toNat = byteLength before) := by
  have hscan := Lexer.scans_iff_eq_tokenize.mpr (rfl : Lexer.tokenize source = _)
  rw [utf8ByteSize_eq] at hsize
  rcases hscan.place t ht with ⟨heof, hstart⟩ | ⟨hspells, before, after, hsource, hstart⟩
  · refine .inl ⟨heof, ?_⟩
    rw [hstart, Nat.zero_add, Nat.toUInt32_eq, UInt32.toNat_ofNat_of_lt' hsize]
  · refine .inr ⟨hspells, before, after, hsource, ?_⟩
    have hlt : byteLength before < UInt32.size := by
      rw [hsource, byteLength_append] at hsize
      omega
    rw [hstart, Nat.zero_add, Nat.toUInt32_eq, UInt32.toNat_ofNat_of_lt' hlt]

/-- The report on an error that arises at a token shows the error with the token. -/
theorem exists_ofError_eq {source : String} (hsize : source.utf8ByteSize < UInt32.size)
    {e : SyntaxError} {t : Token} (hne : source.toList ≠ []) (ht : t ∈ Lexer.tokenize source)
    (he : e.ArisesAt t) :
    ∃ s : Showing source e, s.token = t ∧ Report.ofError source e =
      ⟨e.name, e.fullMessage, s.number, String.ofList s.shown, s.caret⟩ := by
  obtain ⟨l, hl⟩ := exists_locate_eq hne e.position.toNat
  have hposition : e.position.toNat = t.start.toNat := congrArg UInt32.toNat he.1
  obtain ⟨s, hs, htoken⟩ : ∃ s : Showing source e, s.toLineAt = l ∧ s.token = t := by
    rcases Lexer.toNat_start hsize ht with
      ⟨heof, hstart⟩ | ⟨hspells, before, after, hsource, hstart⟩
    · exact exists_showing_of_eof l ht he heof (hposition.trans hstart)
    · exact exists_showing_of_spells l ht he hspells hsource (hposition.trans hstart).symm
  have hcaret : l.column - l.indent = s.caret := by
    have := s.caret_add_indent
    rw [hs] at this
    omega
  refine ⟨s, htoken, ?_⟩
  rw [l.ofError_eq hl, hcaret, hs]

/-- Nothing is wrong with the empty source. -/
theorem errors_parse_empty : (parse "").errors = [] := by
  decide +kernel

/-- A source with an error is not empty. -/
theorem toList_ne_nil_of_mem_errors {source : String} {e : SyntaxError}
    (he : e ∈ (parse source).errors) : source.toList ≠ [] := by
  intro hnil
  rw [String.toList_eq_nil_iff.mp hnil, errors_parse_empty] at he
  cases he

/-- The errors of a source arise at tokens of it. -/
theorem exists_arisesAt_of_mem_errors {source : String} {e : SyntaxError}
    (he : e ∈ (parse source).errors) : ∃ t ∈ Lexer.tokenize source, e.ArisesAt t := by
  obtain ⟨program, q, -, hend, hparse⟩ := Parser.exists_orderly_parse source
  rw [hparse] at he
  exact hend.errors.arising e he

/-- The report on an error shows it. -/
theorem exists_report_eq {source : String} (hsize : source.utf8ByteSize < UInt32.size)
    {e : SyntaxError} (he : e ∈ (parse source).errors) :
    ∃ s : Showing source e, (Report.ofError source e).lines = s.report := by
  obtain ⟨t, ht, harises⟩ := exists_arisesAt_of_mem_errors he
  obtain ⟨s, -, hs⟩ := exists_ofError_eq hsize (toList_ne_nil_of_mem_errors he) ht harises
  exact ⟨s, by rw [hs, s.lines_eq_report]⟩

/-- Reports are written line by line. -/
theorem join_render (reports : List Report) :
    String.join (reports.map Report.render) =
      String.join ((reports.map Report.lines).flatten.map (· ++ "\n")) := by
  induction reports with
  | nil => rfl
  | cons r reports ih =>
      rw [List.map_cons, String.join_cons, ih, List.map_cons, List.flatten_cons, List.map_append,
        String.join_append, Report.render]

/-- **The answer to a source with errors shows them**: it has one report for each error, in
the order of the errors, each of four lines, and nothing else.  The source is shorter
than 4 GiB. -/
theorem answer_shows_errors {source : String} (hsize : source.utf8ByteSize < UInt32.size)
    (h : (parse source).errors ≠ []) :
    ∃ reports : List (List String),
      Answer.ofSource source false = ⟨false, String.join (reports.flatten.map (· ++ "\n"))⟩ ∧
        (∀ line ∈ reports.flatten, Unbroken line) ∧
        List.Forall₂ (fun e report => ∃ s : Showing source e, report = s.report)
          (parse source).errors reports := by
  have hanswer : Answer.ofSource source false = (parse source).answer source := rfl
  have hreports : (parse source).errors.map (fun e => (Report.ofError source e).render) =
      ((parse source).errors.map (Report.ofError source)).map Report.render := by
    rw [List.map_map]
    rfl
  refine ⟨((parse source).errors.map (Report.ofError source)).map Report.lines, ?_, ?_, ?_⟩
  · rw [hanswer, Parsed.answer, if_neg (by simpa using h), hreports, join_render]
  · intro line hline
    obtain ⟨report, hreport, hline⟩ := List.mem_flatten.mp hline
    rw [List.map_map] at hreport
    obtain ⟨e, he, rfl⟩ := List.mem_map.mp hreport
    obtain ⟨s, hs⟩ := exists_report_eq hsize he
    exact s.unbroken_report line (hs ▸ hline)
  · rw [List.map_map, List.forall₂_map_right_iff, List.forall₂_same]
    exact fun e he => exists_report_eq hsize he

/-- A source of three lines with an error on each of the last two, one of them at the end. -/
theorem answer_shows_errors_sample :
    "x;\n\t@ é = 1; \r\n  (2".utf8ByteSize < UInt32.size ∧
      (parse "x;\n\t@ é = 1; \r\n  (2").errors ≠ [] ∧
      ∃ reports : List (List String),
        Answer.ofSource "x;\n\t@ é = 1; \r\n  (2" false =
            ⟨false, String.join (reports.flatten.map (· ++ "\n"))⟩ ∧
          (∀ line ∈ reports.flatten, Unbroken line) ∧
          List.Forall₂
            (fun e report =>
              ∃ s : Showing "x;\n\t@ é = 1; \r\n  (2" e, report = s.report)
            (parse "x;\n\t@ é = 1; \r\n  (2").errors reports :=
  ⟨by decide +kernel, by decide +kernel,
    answer_shows_errors (by decide +kernel) (by decide +kernel)⟩

example : (Answer.ofSource "x;\n\t@ é = 1; \r\n" false).out =
    "Error[UnexpectedToken]: expected identifier but got illegal token\n" ++
      "  |\n" ++
      "2 | @ é = 1;\n" ++
      "  | --^\n" := by
  decide +kernel

/-- In a source with 4 GiB of line feeds the place of the last bracket is taken to be in the
first line, which does not show it. -/
theorem isEmpty_showing_apart :
    IsEmpty (Showing (apart "];" '\n' UInt32.size "]") ⟨.noExpression .closeBracket, 2⟩) := by
  refine ⟨fun s => ?_⟩
  have hturn : "];".utf8ByteSize + UInt32.size = UInt32.size + 2 := by decide +kernel
  -- the error is on the second bracket, the position of which wraps around
  have honly : ∀ t ∈ Lexer.tokenize (apart "];" '\n' UInt32.size "]"), t.start = 2 →
      t = ⟨.closeBracket, "]", 2, 3⟩ := by
    rw [Lexer.tokenize_apart_of_turn (by decide) (by decide) hturn]
    decide +kernel
  have htoken : s.token = ⟨.closeBracket, "]", 2, 3⟩ := honly _ s.token_mem s.arises.1.symm
  have hvisible : s.token.Visible := by
    rw [htoken]
    refine ⟨by decide, fun c hc => ?_⟩
    obtain rfl : ']' = c := by simpa using hc
    decide
  obtain ⟨before, after, hshown, hcaret⟩ := s.above hvisible
  -- it is shown in the first line, which is as long as what is in front of the caret
  obtain ⟨hline, hcolumn⟩ := s.line_eq_of_le (toList_apart "];" "]" '\n' (by decide)) (by decide)
    (by decide)
  have hindent : s.indent = 0 := by
    rw [LineAt.indent, hline]
    decide
  have hwhole : s.shown = [']', ';'] := by
    rw [LineAt.shown, hline]
    decide
  have hlength := congrArg byteLength (hshown.symm.trans hwhole)
  have hbefore := s.caret_add_indent
  rw [htoken, byteLength_append, byteLength_append, hcaret] at hlength
  have htwo : byteLength "]".toList = 1 ∧ byteLength [']', ';'] = 2 := by decide
  have hposition : (2 : UInt32).toNat = 2 := rfl
  rw [hcolumn, hindent] at hbefore
  dsimp only at hlength hbefore
  omega

/-- So one of the reports on that source does not show its error. -/
theorem answer_shows_errors_apart :
    (parse (apart "];" '\n' UInt32.size "]")).errors ≠ [] ∧
      ¬ ∃ reports : List (List String),
        Answer.ofSource (apart "];" '\n' UInt32.size "]") false =
            ⟨false, String.join (reports.flatten.map (· ++ "\n"))⟩ ∧
          (∀ line ∈ reports.flatten, Unbroken line) ∧
          List.Forall₂
            (fun e report => ∃ s : Showing (apart "];" '\n' UInt32.size "]") e, report = s.report)
            (parse (apart "];" '\n' UInt32.size "]")).errors reports := by
  have hturn : "];".utf8ByteSize + UInt32.size = UInt32.size + 2 := by decide +kernel
  have herrors : (parse (apart "];" '\n' UInt32.size "]")).errors =
      [⟨.noExpression .closeBracket, 0⟩, ⟨.noExpression .closeBracket, 2⟩] := by
    rw [parse_apart (by decide) (by decide) hturn]
    decide +kernel
  rw [herrors]
  refine ⟨by simp, ?_⟩
  rintro ⟨reports, -, -, hall⟩
  cases hall with
  | cons _ hall =>
      cases hall with
      | cons hshows _ =>
          obtain ⟨s, -⟩ := hshows
          exact isEmpty_showing_apart.false s

end ExprLang
