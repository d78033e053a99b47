/-
# Blanks between lexemes

Lexemes written one behind the other, with blanks between them or none.  A
lexeme that stands next to another one is taken off the text by itself unless
the two fuse (`Fuses`); which ones do is decided by the classes of their texts,
as the first character of a lexeme tells its class.  Blanks keep any two apart.
Main statement: `Lexer.tokenize_spaced_iff`.
-/
import ExprLang.Proofs.Lexemes

namespace ExprLang

open Text Token.Kind

/-! ## Texts that fuse -/

/-- A run of digits. -/
def IsDigits (cs : List Char) : Prop :=
  cs ≠ [] ∧ ∀ c ∈ cs, c.isDigit

/-- Two texts that make other lexemes when one is written right behind the other:
a word goes on in a word or in digits, digits go on in digits, and an equals sign
makes another symbol of an equals sign or an exclamation mark in front of it. -/
def Fuses (a b : List Char) : Prop :=
  (IsWord a ∧ (IsWord b ∨ IsDigits b)) ∨ (IsDigits a ∧ IsDigits b) ∨
    ((a = ['='] ∨ a = ['!']) ∧ (b = ['='] ∨ b = ['=', '=']))

/-! ## What the first character of a lexeme tells -/

namespace Token.Kind

variable {k l : Token.Kind} {c d : Char} {cs ds : List Char}

/-- Digits, words and symbols are told apart by the first character. -/
theorem Spells.cases_head (h : k.Spells (c :: cs)) :
    (k = .integer ∧ IsDigits (c :: cs) ∧ c.isDigit) ∨
      ((k = .identifier ∨ k ∈ reserved) ∧ IsWord (c :: cs) ∧ isLetter c) ∨
        (k ≠ .integer ∧ ¬ (k = .identifier ∨ k ∈ reserved) ∧ isWordChar c = false) := by
  by_cases hint : k = .integer
  · subst hint
    have hdigits := h.of_integer
    exact .inl ⟨rfl, hdigits, hdigits.2 c List.mem_cons_self⟩
  by_cases hword : k = .identifier ∨ k ∈ reserved
  · have hchars := (Lexeme.isWord_of_spells h hword).1
    obtain ⟨d, rest, heq, hd, -⟩ := id hchars
    rw [← (List.cons.inj heq).1] at hd
    exact .inr (.inl ⟨hword, hchars, hd⟩)
  · have hsymbol := @Lexeme.takeSymbol_of_spells c [] k cs h hint hword (by simp)
    exact .inr (.inr ⟨hint, hword, hsymbol.1⟩)

/-- A lexeme that begins with a digit is a run of digits. -/
theorem Spells.isDigits_iff (h : k.Spells (c :: cs)) : IsDigits (c :: cs) ↔ c.isDigit := by
  refine ⟨fun hdigits => hdigits.2 c List.mem_cons_self, fun hc => ?_⟩
  rcases h.cases_head with ⟨-, hdigits, -⟩ | ⟨-, -, hletter⟩ | ⟨-, -, hnone⟩
  · exact hdigits
  · rw [isDigit_eq_false_of_isLetter hletter] at hc
    cases hc
  · rw [isWordChar_iff.mpr (.inr hc)] at hnone
    cases hnone

/-- A lexeme that begins with a letter is a word. -/
theorem Spells.isWord_iff (h : k.Spells (c :: cs)) : IsWord (c :: cs) ↔ isLetter c := by
  constructor
  · rintro ⟨d, rest, heq, hd, -⟩
    rwa [(List.cons.inj heq).1]
  · intro hc
    rcases h.cases_head with ⟨-, -, hdigit⟩ | ⟨-, hword, -⟩ | ⟨-, -, hnone⟩
    · rw [isDigit_eq_false_of_isLetter hc] at hdigit
      cases hdigit
    · exact hword
    · rw [isWordChar_iff.mpr (.inl hc)] at hnone
      cases hnone

/-- Only the integers are runs of digits. -/
theorem Spells.isDigits_iff_kind (h : k.Spells (c :: cs)) : IsDigits (c :: cs) ↔ k = .integer := by
  rw [h.isDigits_iff]
  rcases h.cases_head with ⟨rfl, -, hdigit⟩ | ⟨hk, -, hletter⟩ | ⟨hk, -, hnone⟩
  · simp [hdigit]
  · have hint : k ≠ .integer := by
      rintro rfl
      exact absurd hk (by decide)
    simp [hint, isDigit_eq_false_of_isLetter hletter]
  · rw [Bool.eq_false_iff, Ne, isWordChar_iff, not_or] at hnone
    simp [hk, hnone.2]

/-- Only identifiers and reserved words are words. -/
theorem Spells.isWord_iff_kind (h : k.Spells (c :: cs)) :
    IsWord (c :: cs) ↔ k = .identifier ∨ k ∈ reserved := by
  refine ⟨fun hword => ?_, fun hk => (Lexeme.isWord_of_spells h hk).1⟩
  rw [h.unique (Lexeme.spells_ofWord hword)]
  exact ofWord_mem _

/-- The two signs that an equals sign makes longer are told by their texts. -/
theorem Spells.sign_iff_kind (h : k.Spells cs) :
    (cs = ['='] ∨ cs = ['!']) ↔ (k = .assign ∨ k = .bang) := by
  constructor
  · rintro (rfl | rfl)
    · exact .inl (h.unique (.fixed rfl))
    · exact .inr (h.unique (.fixed rfl))
  · rintro (rfl | rfl)
    · exact .inl (h.eq_of_spelling? rfl)
    · exact .inr (h.eq_of_spelling? rfl)

/-- A lexeme that begins with an equals sign is one equals sign or two. -/
theorem Spells.equals_iff (h : k.Spells (c :: cs)) :
    (c :: cs = ['='] ∨ c :: cs = ['=', '=']) ↔ c = '=' := by
  constructor
  · rintro (heq | heq) <;> exact (List.cons.inj heq).1
  · rintro rfl
    cases h with
    | fixed h =>
        have hchars := mem_reserved_or_symbol h
        rw [String.toList_ofList] at hchars
        rcases hchars with hres | ⟨d, hcs, -⟩ | ⟨-, hcs⟩ | ⟨-, hcs⟩
        · obtain ⟨d, rest, hcs, hd, -⟩ := isWord_of_mem_reserved hres h
          rw [String.toList_ofList] at hcs
          rw [← (List.cons.inj hcs).1] at hd
          exact absurd hd (by decide)
        · exact .inl (by rw [hcs, (List.cons.inj hcs).1])
        · exact .inr hcs
        · exact absurd (List.cons.inj hcs).1 (by decide)
    | integer _ hdigits => exact absurd (hdigits '=' List.mem_cons_self) (by decide)
    | identifier hword =>
        obtain ⟨d, rest, hcs, hd, -⟩ := hword
        rw [← (List.cons.inj hcs).1] at hd
        exact absurd hd (by decide)
    | illegal => exact .inl rfl

/-- **Which lexemes fuse**: those of which the first one is continued by the first
character of the second one. -/
theorem Spells.fuses_iff (hk : k.Spells (c :: cs)) (hl : l.Spells (d :: ds)) :
    Fuses (c :: cs) (d :: ds) ↔ k.continuedBy d := by
  rw [Fuses, hk.isWord_iff_kind, hk.isDigits_iff_kind, hk.sign_iff_kind, hl.isWord_iff,
    hl.isDigits_iff, hl.equals_iff, continuedBy_iff]

end Token.Kind

/-! ## Lexemes with gaps -/

/-- A run of blanks, possibly none: spaces, tabs, line feeds and carriage returns. -/
structure Gap : Type where
  chars : List Char
  blank : ∀ c ∈ chars, c.isWhitespace

/-- Behind a gap nothing goes on; without one it is for the text behind to say. -/
theorem Gap.not_continuedBy_iff (gap : Gap) {k : Token.Kind} (tail : List Char) :
    (∀ c ∈ (gap.chars ++ tail).head?, k.continuedBy c = false) ↔
      (gap.chars = [] → ∀ c ∈ tail.head?, k.continuedBy c = false) := by
  cases hgap : gap.chars with
  | nil => simp
  | cons c cs =>
      have hblank : c.isWhitespace := gap.blank c (by rw [hgap]; exact List.mem_cons_self)
      simp [continuedBy_of_isWhitespace hblank]

/-- A lexeme that is spelled as its kind demands, with the gap behind it. -/
structure SpacedLexeme : Type extends Lexeme where
  spelled : kind.Spells chars
  gap : Gap

namespace SpacedLexeme

/-- Some lexemes with their gaps, one behind the other. -/
def text (items : List SpacedLexeme) : List Char :=
  items.flatMap fun a => a.chars ++ a.gap.chars

theorem text_cons (a : SpacedLexeme) (items : List SpacedLexeme) :
    text (a :: items) = a.chars ++ (a.gap.chars ++ text items) := by
  simp [text]

/-- A lexeme and the one behind it are kept apart: by blanks, or by their texts. -/
def Apart (a b : SpacedLexeme) : Prop :=
  a.gap.chars = [] → ¬ Fuses a.chars b.chars

/-- Behind a lexeme another one follows without continuing it exactly when the two are
kept apart. -/
theorem apart_iff (a b : SpacedLexeme) (items : List SpacedLexeme) :
    a.Apart b ↔
      ∀ c ∈ (a.gap.chars ++ text (b :: items)).head?, a.kind.continuedBy c = false := by
  obtain ⟨c, cs, ha, -⟩ := a.spelled.exists_cons
  obtain ⟨d, ds, hb, -⟩ := b.spelled.exists_cons
  have hfuses := (ha ▸ a.spelled).fuses_iff (hb ▸ b.spelled)
  rw [a.gap.not_continuedBy_iff, Apart, text_cons, ha, hb, hfuses]
  simp

end SpacedLexeme

/-! ## One lexeme off the front -/

namespace Scans

variable {position : Nat} {gap chars rest : List Char} {k : Token.Kind} {ls : List Lexeme}

/-- **One lexeme off the front**: a text with a lexeme first is scanned as that lexeme
and others exactly when what is behind does not continue it and is scanned as the
others. -/
theorem exists_lexeme_cons_iff (hgap : ∀ c ∈ gap, c.isWhitespace) (hspells : k.Spells chars) :
    (∃ ts, Scans position (gap ++ (chars ++ rest)) ts ∧
        ts.map Token.lexeme = ⟨k, chars⟩ :: ls) ↔
      (∀ c ∈ rest.head?, k.continuedBy c = false) ∧
        ∃ ts, Scans (position + byteLength gap + byteLength chars) rest ts ∧
          ts.map Token.lexeme = ls := by
  constructor
  · rintro ⟨ts, hscans, hts⟩
    generalize hcs : gap ++ (chars ++ rest) = cs at hscans
    cases hscans with
    | nil =>
        obtain ⟨hfirst, -⟩ := List.cons.inj hts
        exact absurd (congrArg Lexeme.kind hfirst).symm hspells.ne_eof
    | @cons _ blanks chars' rest' kind tokens hblank hspells' hend htail =>
        obtain ⟨hfirst, htokens⟩ := List.cons.inj hts
        obtain rfl : kind = k := congrArg Lexeme.kind hfirst
        obtain rfl : chars' = chars := by
          simpa [Token.lexeme] using congrArg Lexeme.chars hfirst
        -- the blanks end where the lexeme begins
        obtain ⟨c, more, hchars, hc⟩ := hspells.exists_cons
        have hhead : ∀ tail : List Char, ∀ d ∈ (chars' ++ tail).head?, d.isWhitespace = false := by
          intro tail d hd
          rw [hchars] at hd
          cases hd
          exact hc
        have htake := (Lexeme.span_append hgap (hhead rest)).1
        rw [hcs, (Lexeme.span_append hblank (hhead rest')).1] at htake
        subst htake
        obtain rfl : rest = rest' :=
          List.append_cancel_left (List.append_cancel_left hcs)
        exact ⟨hend, tokens, htail, htokens⟩
  · rintro ⟨hend, ts, hscans, hts⟩
    refine ⟨_, .cons hgap hspells hend hscans, ?_⟩
    rw [List.map_cons, hts, Token.lexeme, String.toList_ofList]

end Scans

/-- **Lexemes with gaps are scanned as those lexemes exactly when each is kept apart
from the next one.** -/
theorem SpacedLexeme.exists_scans_iff (items : List SpacedLexeme) (position : Nat) (gap : Gap) :
    (∃ ts, Scans position (gap.chars ++ text items) ts ∧
        ts.map Token.lexeme = items.map toLexeme ++ [⟨.eof, []⟩]) ↔ items.IsChain Apart := by
  induction items generalizing position gap with
  | nil =>
      have hblank : ∀ c ∈ gap.chars ++ text [], c.isWhitespace := by simpa [text] using gap.blank
      exact iff_of_true ⟨_, .nil hblank, rfl⟩ .nil
  | cons a items ih =>
      rw [text_cons, List.map_cons, List.cons_append,
        Scans.exists_lexeme_cons_iff gap.blank a.spelled, ih]
      cases items with
      | nil =>
          have hlast := (a.gap.not_continuedBy_iff (k := a.kind) (text [])).mpr
            fun _ => by simp [text]
          exact iff_of_true ⟨hlast, .nil⟩ (.singleton a)
      | cons b items => rw [← apart_iff, List.isChain_cons_cons]

/-! ## Sources -/

/-- The source of some lexemes with their gaps, behind a gap at the beginning. -/
def SpacedLexeme.source (gap : Gap) (items : List SpacedLexeme) : String :=
  String.ofList (gap.chars ++ text items)

/-- **Lexemes can be put together exactly where they do not fuse**: the lexer finds the
lexemes that a source was made of, and no others, if and only if no two lexemes that
fuse stand next to each other without a blank. -/
theorem Lexer.tokenize_spaced_iff (gap : Gap) (items : List SpacedLexeme) :
    (tokenize (SpacedLexeme.source gap items)).map Token.lexeme =
        items.map SpacedLexeme.toLexeme ++ [⟨.eof, []⟩] ↔
      items.IsChain SpacedLexeme.Apart := by
  have hsource : (SpacedLexeme.source gap items).toList =
      gap.chars ++ SpacedLexeme.text items := String.toList_ofList
  rw [← SpacedLexeme.exists_scans_iff items 0 gap, ← hsource]
  simp only [scans_iff_eq_tokenize, exists_eq_left]

/-- One equals sign and two of them fuse: three are read as two and one. -/
example : (Lexer.tokenize "===").map Token.lexeme =
    [.ofKind .equal, .ofKind .assign, ⟨.eof, []⟩] := by
  decide +kernel

end ExprLang
