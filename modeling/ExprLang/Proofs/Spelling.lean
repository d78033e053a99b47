/-
# Spellings

Which texts the tokens of a kind are written as, and when a token has to be
longer because of the character behind it.  Both are said without the lexer.
Main statements: `Lexeme.spells_take` and `Lexeme.continuedBy_of_take` (a lexeme
taken off a text is spelled as its kind demands and could not be longer) and
`Lexeme.take_of_spells` (it is the only such beginning of the text).
-/
import ExprLang.Token.Lexeme
import Mathlib.Data.List.TakeWhile
import Mathlib.Tactic.ByContra

namespace ExprLang

/-! ## What a kind is written as -/

/-- A word: a letter or underscore with letters, underscores and digits behind it. -/
def IsWord (cs : List Char) : Prop :=
  ∃ c rest, cs = c :: rest ∧ isLetter c ∧ ∀ d ∈ rest, isWordChar d

namespace Token.Kind

/-- The texts that tokens of a kind are written as.  An illegal token is one
character that nothing else begins with and that is no blank. -/
inductive Spells : Kind → List Char → Prop where
  | fixed {k : Kind} {cs : List Char} (h : k.spelling? = some (String.ofList cs)) : Spells k cs
  | integer {cs : List Char} (hne : cs ≠ []) (hdigits : ∀ c ∈ cs, c.isDigit) : Spells .integer cs
  | identifier {cs : List Char} (hword : IsWord cs)
      (hfree : ∀ k : Kind, k.spelling? ≠ some (String.ofList cs)) : Spells .identifier cs
  | illegal {c : Char} (hblank : c.isWhitespace = false) (hword : isWordChar c = false)
      (hfree : ∀ k : Kind, k.spelling? ≠ some (String.singleton c)) : Spells .illegal [c]

/-- Whether a token of a kind would be longer, or another token, with a given
character behind it. -/
def continuedBy (k : Kind) (c : Char) : Bool :=
  if k = .integer then c.isDigit
  else if k = .identifier ∨ k ∈ reserved then isWordChar c
  else if k = .assign ∨ k = .bang then c = '='
  else false

/-- Identifiers and reserved words are continued by what a word is continued by. -/
theorem continuedBy_word {k : Kind} (hk : k = .identifier ∨ k ∈ reserved) (c : Char) :
    k.continuedBy c = isWordChar c := by
  have hint : k ≠ .integer := by
    rintro rfl
    exact absurd hk (by decide)
  rw [continuedBy, if_neg hint, if_pos hk]

/-- Of the symbols only two are continued, and only by an equals sign. -/
theorem continuedBy_eq_false {k : Kind} {c : Char} (hk : k ≠ .integer)
    (hword : ¬ (k = .identifier ∨ k ∈ reserved)) (hc : k = .assign ∨ k = .bang → c ≠ '=') :
    k.continuedBy c = false := by
  rw [continuedBy, if_neg hk, if_neg hword]
  split
  · next h => simpa using hc h
  · rfl

/-- A reserved word is a word. -/
theorem isWord_of_mem_reserved {k : Kind} {w : String} (hk : k ∈ reserved)
    (h : k.spelling? = some w) : IsWord w.toList := by
  have hword : ∀ c rest, isLetter c → rest.all isWordChar → IsWord (c :: rest) :=
    fun c rest hc hrest => ⟨c, rest, rfl, hc, List.all_eq_true.mp hrest⟩
  simp only [reserved, List.mem_cons, List.not_mem_nil, or_false] at hk
  rcases hk with rfl | rfl | rfl | rfl | rfl | rfl <;>
    (cases h; exact hword _ _ (by decide) (by decide))

/-- A kind with a fixed spelling is a reserved word, or a symbol of one or two
characters. -/
theorem mem_reserved_or_symbol {k : Kind} {w : String} (h : k.spelling? = some w) :
    k ∈ reserved ∨ (∃ c, w.toList = [c] ∧ isWordChar c = false ∧ c.isWhitespace = false) ∨
      (k = .equal ∧ w.toList = ['=', '=']) ∨ (k = .notEqual ∧ w.toList = ['!', '=']) := by
  cases k <;> cases h <;> first
    | exact .inl (by decide)
    | exact .inr (.inl ⟨_, rfl, by decide, by decide⟩)
    | exact .inr (.inr (.inl ⟨rfl, rfl⟩))
    | exact .inr (.inr (.inr ⟨rfl, rfl⟩))

/-- A symbol begins with a character that is neither part of a word nor blank. -/
theorem exists_head_of_symbol {k : Kind} {w : String} (h : k.spelling? = some w)
    (hk : k ∉ reserved) :
    ∃ c rest, w.toList = c :: rest ∧ isWordChar c = false ∧ c.isWhitespace = false := by
  rcases mem_reserved_or_symbol h with hres | ⟨c, hw, hword, hblank⟩ | ⟨-, hw⟩ | ⟨-, hw⟩
  · exact absurd hres hk
  · exact ⟨c, [], hw, hword, hblank⟩
  · exact ⟨_, _, hw, by decide, by decide⟩
  · exact ⟨_, _, hw, by decide, by decide⟩

/-- No text is written for the end marker. -/
theorem Spells.ne_eof {k : Kind} {cs : List Char} (h : k.Spells cs) : k ≠ .eof := by
  rintro rfl
  cases h with
  | fixed h => cases h

/-- An integer is written in digits. -/
theorem Spells.of_integer {cs : List Char} (h : Spells .integer cs) :
    cs ≠ [] ∧ ∀ c ∈ cs, c.isDigit := by
  cases h with
  | fixed h => cases h
  | integer hne hdigits => exact ⟨hne, hdigits⟩

/-- A kind that is written in one way has no other text. -/
theorem Spells.eq_of_spelling? {k : Kind} {cs : List Char} {w : String} (h : k.Spells cs)
    (hw : k.spelling? = some w) : cs = w.toList := by
  cases h with
  | fixed h => rw [← Option.some.inj (h.symm.trans hw), String.toList_ofList]
  | integer | identifier | illegal => cases hw

end Token.Kind

/-! ## Digits, letters and blanks -/

theorem isDigit_iff {c : Char} : c.isDigit = true ↔ 48 ≤ c.toNat ∧ c.toNat ≤ 57 := by
  simp [Char.isDigit, UInt32.le_iff_toNat_le]

theorem isLetter_iff {c : Char} :
    isLetter c = true ↔
      (65 ≤ c.toNat ∧ c.toNat ≤ 90) ∨ (97 ≤ c.toNat ∧ c.toNat ≤ 122) ∨ c.toNat = 95 := by
  have hletter : isLetter c = (decide (65 ≤ c.val ∧ c.val ≤ 90) ||
      (decide (97 ≤ c.val) && decide (c.val ≤ 122)) || c == '_') := rfl
  have hunder : c = '_' ↔ c.toNat = 95 := Char.toNat_inj.symm
  rw [hletter]
  simp [hunder, UInt32.le_iff_toNat_le, or_assoc]

theorem isWhitespace_iff {c : Char} :
    c.isWhitespace = true ↔ c.toNat = 32 ∨ c.toNat = 9 ∨ c.toNat = 13 ∨ c.toNat = 10 := by
  have hchar : ∀ d : Char, c = d ↔ c.toNat = d.toNat := fun d => Char.toNat_inj.symm
  simp [Char.isWhitespace, hchar, or_assoc]

theorem isWordChar_iff {c : Char} :
    isWordChar c = true ↔ isLetter c = true ∨ c.isDigit = true := by
  simp [isWordChar]

/-- No letter is a digit. -/
theorem isDigit_eq_false_of_isLetter {c : Char} (h : isLetter c = true) : c.isDigit = false := by
  rw [isLetter_iff] at h
  rw [Bool.eq_false_iff, Ne, isDigit_iff]
  omega

/-- No blank is part of a word. -/
theorem isWordChar_eq_false_of_isWhitespace {c : Char} (h : c.isWhitespace = true) :
    isWordChar c = false := by
  rw [isWhitespace_iff] at h
  rw [Bool.eq_false_iff, Ne, isWordChar_iff, isLetter_iff, isDigit_iff]
  omega

/-- Parts of words are no blanks. -/
theorem isWhitespace_eq_false_of_isWordChar {c : Char} (h : isWordChar c) :
    c.isWhitespace = false := by
  by_contra hblank
  rw [isWordChar_eq_false_of_isWhitespace (by simpa using hblank)] at h
  cases h

/-- What continues a token, by its kind. -/
theorem Token.Kind.continuedBy_iff {k : Token.Kind} {d : Char} :
    k.continuedBy d ↔ ((k = .identifier ∨ k ∈ reserved) ∧ (isLetter d ∨ d.isDigit)) ∨
      (k = .integer ∧ d.isDigit) ∨ ((k = .assign ∨ k = .bang) ∧ d = '=') := by
  rw [← isWordChar_iff]
  cases k <;> simp [continuedBy, reserved]

/-- No blank continues a token. -/
theorem Token.Kind.continuedBy_of_isWhitespace {k : Token.Kind} {d : Char}
    (h : d.isWhitespace) : k.continuedBy d = false := by
  have hword := isWordChar_eq_false_of_isWhitespace h
  have hequals : d ≠ '=' := by
    rintro rfl
    exact absurd h (by decide)
  rw [Bool.eq_false_iff, Ne, isWordChar_iff, not_or] at hword
  rw [Bool.eq_false_iff, Ne, continuedBy_iff]
  simp [hword.1, hword.2, hequals]

/-- What a kind is written as: parts of words, one character that is no blank, or one of
the two symbols of two characters. -/
theorem Token.Kind.Spells.shape {k : Token.Kind} {cs : List Char} (h : k.Spells cs) :
    (cs ≠ [] ∧ ∀ c ∈ cs, isWordChar c) ∨ (∃ c, cs = [c] ∧ c.isWhitespace = false) ∨
      cs = ['=', '='] ∨ cs = ['!', '='] := by
  have hword : IsWord cs → cs ≠ [] ∧ ∀ c ∈ cs, isWordChar c := by
    rintro ⟨c, rest, rfl, hc, hrest⟩
    exact ⟨List.cons_ne_nil c rest,
      List.forall_mem_cons.mpr ⟨isWordChar_iff.mpr (.inl hc), hrest⟩⟩
  cases h with
  | fixed h =>
      have hchars := mem_reserved_or_symbol h
      rw [String.toList_ofList] at hchars
      rcases hchars with hres | ⟨c, hcs, -, hblank⟩ | ⟨-, hcs⟩ | ⟨-, hcs⟩
      · have hreserved := isWord_of_mem_reserved hres h
        rw [String.toList_ofList] at hreserved
        exact .inl (hword hreserved)
      · exact .inr (.inl ⟨c, hcs, hblank⟩)
      · exact .inr (.inr (.inl hcs))
      · exact .inr (.inr (.inr hcs))
  | integer hne hdigits =>
      exact .inl ⟨hne, fun c hc => isWordChar_iff.mpr (.inr (hdigits c hc))⟩
  | identifier hiword hfree => exact .inl (hword hiword)
  | illegal hblank hchar hfree => exact .inr (.inl ⟨_, rfl, hblank⟩)

/-- No blank is in what a kind is written as. -/
theorem Token.Kind.Spells.isWhitespace_eq_false {k : Token.Kind} {cs : List Char}
    (h : k.Spells cs) : ∀ c ∈ cs, c.isWhitespace = false := by
  rcases h.shape with ⟨-, hword⟩ | ⟨c, rfl, hc⟩ | rfl | rfl
  · exact fun c hc => isWhitespace_eq_false_of_isWordChar (hword c hc)
  · exact List.forall_mem_singleton.mpr hc
  · exact List.forall_mem_cons.mpr ⟨by decide, List.forall_mem_singleton.mpr (by decide)⟩
  · exact List.forall_mem_cons.mpr ⟨by decide, List.forall_mem_singleton.mpr (by decide)⟩

/-- What a kind is written as begins with no blank. -/
theorem Token.Kind.Spells.exists_cons {k : Token.Kind} {cs : List Char} (h : k.Spells cs) :
    ∃ c rest, cs = c :: rest ∧ c.isWhitespace = false := by
  have hne : cs ≠ [] := by
    rcases h.shape with ⟨hne, -⟩ | ⟨c, rfl, -⟩ | rfl | rfl
    · exact hne
    · exact List.cons_ne_nil c []
    · decide
    · decide
  obtain ⟨c, rest, rfl⟩ := List.exists_cons_of_ne_nil hne
  exact ⟨c, rest, rfl, h.isWhitespace_eq_false c List.mem_cons_self⟩

/-! ## What is taken off a text -/

/-- A list ends a run of what is in front of it if its first element does. -/
theorem span_append_of_head {α : Type} {p : α → Bool} {xs ys : List α}
    (h : ∀ y ∈ ys.head?, p y = false) :
    (xs ++ ys).takeWhile p = xs.takeWhile p ∧ (xs ++ ys).dropWhile p = xs.dropWhile p ++ ys := by
  induction xs with
  | nil =>
      cases ys with
      | nil => exact ⟨rfl, rfl⟩
      | cons y ys =>
          have hy : p y = false := h y rfl
          simp [hy]
  | cons x xs ih => by_cases hx : p x <;> simp [hx, ih]

namespace Lexeme

variable {c : Char} {rest : List Char}

open Token.Kind

/-- A word is spelled as the kind it is given demands. -/
theorem spells_ofWord {cs : List Char} (h : IsWord cs) : (ofWord (String.ofList cs)).Spells cs := by
  rcases ofWord_mem (String.ofList cs) with hw | hw
  · rw [hw]
    refine .identifier h fun k hk => ?_
    by_cases hres : k ∈ reserved
    · rw [(ofWord_eq_iff hres).mpr hk] at hw
      subst hw
      exact absurd hres (by decide)
    · obtain ⟨d, tail, hd, hnot, -⟩ := exists_head_of_symbol hk hres
      obtain ⟨e, tail, rfl, he, -⟩ := h
      rw [String.toList_ofList, List.cons.injEq] at hd
      rw [← hd.1, Bool.eq_false_iff, Ne, isWordChar_iff] at hnot
      exact hnot (.inl he)
  · exact .fixed ((ofWord_eq_iff hw).mp rfl)

/-- Only a word is given the kind of an identifier or of a reserved word. -/
theorem isWord_of_spells {k : Token.Kind} {cs : List Char} (h : k.Spells cs)
    (hk : k = .identifier ∨ k ∈ reserved) : IsWord cs ∧ ofWord (String.ofList cs) = k := by
  cases h with
  | fixed h =>
      have hres : k ∈ reserved := by
        rcases hk with rfl | hk
        · cases h
        · exact hk
      have hword := isWord_of_mem_reserved hres h
      rw [String.toList_ofList] at hword
      exact ⟨hword, (ofWord_eq_iff hres).mpr h⟩
  | integer => exact absurd hk (by decide)
  | identifier hword hfree =>
      refine ⟨hword, ?_⟩
      rcases ofWord_mem (String.ofList cs) with hw | hw
      · exact hw
      · exact absurd ((ofWord_eq_iff hw).mp rfl) (hfree _)
  | illegal => exact absurd hk (by decide)

/-- A symbol of two characters is taken where there is one, and else a symbol or
an illegal character alone. -/
theorem takeSymbol_cases (c : Char) (rest : List Char) :
    (∃ tail, c = '=' ∧ rest = '=' :: tail ∧ takeSymbol c rest = (⟨.equal, ['=', '=']⟩, tail)) ∨
      (∃ tail, c = '!' ∧ rest = '=' :: tail ∧
        takeSymbol c rest = (⟨.notEqual, ['!', '=']⟩, tail)) ∨
      ((c = '=' ∨ c = '!' → rest.head? ≠ some '=') ∧
        takeSymbol c rest = (⟨(ofSymbol? c).getD .illegal, [c]⟩, rest)) := by
  unfold takeSymbol
  split
  · exact .inl ⟨_, rfl, rfl, rfl⟩
  · exact .inr (.inl ⟨_, rfl, rfl, rfl⟩)
  · next hequal hnot =>
      refine .inr (.inr ⟨?_, rfl⟩)
      intro hc hhead
      obtain ⟨tail, rfl⟩ := List.head?_eq_some_iff.mp hhead
      rcases hc with rfl | rfl
      · exact hequal tail rfl rfl
      · exact hnot tail rfl rfl

/-- The kind of a single symbol, or of what is none, is that of no integer and no
word; a sign that an equals sign would continue is spelled as one. -/
theorem kind_of_symbol (c : Char) :
    (ofSymbol? c).getD .illegal ≠ .integer ∧
      ¬ ((ofSymbol? c).getD .illegal = .identifier ∨ (ofSymbol? c).getD .illegal ∈ reserved) ∧
      ((ofSymbol? c).getD .illegal = .assign ∨ (ofSymbol? c).getD .illegal = .bang →
        c = '=' ∨ c = '!') := by
  unfold ofSymbol?
  split <;> simp [reserved]

/-- The symbol taken off a text is spelled as its kind demands. -/
theorem spells_takeSymbol (hword : isWordChar c = false) (hblank : c.isWhitespace = false) :
    (takeSymbol c rest).1.kind.Spells (takeSymbol c rest).1.chars := by
  rcases takeSymbol_cases c rest with ⟨tail, -, -, h⟩ | ⟨tail, -, -, h⟩ | ⟨-, h⟩ <;> rw [h]
  · exact .fixed rfl
  · exact .fixed rfl
  · cases h : ofSymbol? c with
    | none =>
        refine .illegal hblank hword fun k hk => ?_
        rw [ofSymbol?_eq_some_iff.mpr hk] at h
        cases h
    | some k =>
        refine .fixed ?_
        rw [Option.getD_some, ofSymbol?_eq_some_iff.mp h]
        rfl

/-- The symbol taken off a text could not be longer. -/
theorem continuedBy_of_takeSymbol {d : Char} (h : (takeSymbol c rest).2.head? = some d) :
    (takeSymbol c rest).1.kind.continuedBy d = false := by
  rcases takeSymbol_cases c rest with ⟨tail, -, -, he⟩ | ⟨tail, -, -, he⟩ | ⟨hsign, he⟩ <;>
    rw [he] at h ⊢
  · rfl
  · rfl
  · obtain ⟨hint, hword, hkind⟩ := kind_of_symbol c
    apply continuedBy_eq_false hint hword
    intro hk hd
    rw [hd] at h
    exact hsign (hkind hk) h

/-- **What is taken is spelled right**: the lexeme at the start of a text is
spelled as its kind demands. -/
theorem spells_take (hblank : c.isWhitespace = false) :
    (take c rest).1.kind.Spells (take c rest).1.chars := by
  unfold take
  split
  · next hdigit =>
      refine .integer (by simp) fun d hd => ?_
      rcases List.mem_cons.mp hd with rfl | hd
      · exact hdigit
      · exact List.mem_takeWhile_imp hd
  · next hdigit =>
      split
      · next hletter =>
          exact spells_ofWord ⟨c, _, rfl, hletter, fun d hd => List.mem_takeWhile_imp hd⟩
      · next hletter =>
          refine spells_takeSymbol ?_ hblank
          rw [Bool.eq_false_iff, Ne, isWordChar_iff]
          exact fun h => h.elim hletter hdigit

/-- **What is taken could not be longer**: the character behind the lexeme at the
start of a text does not continue it. -/
theorem continuedBy_of_take {d : Char} (h : (take c rest).2.head? = some d) :
    (take c rest).1.kind.continuedBy d = false := by
  have hstop : ∀ p : Char → Bool, (rest.dropWhile p).head? = some d → p d = false := by
    intro p hp
    have hhead := List.head?_dropWhile_not p rest
    rw [hp] at hhead
    simpa using hhead
  unfold take at h ⊢
  split at h
  · next hdigit =>
      rw [if_pos hdigit]
      exact hstop _ h
  · next hdigit =>
      rw [if_neg hdigit]
      split at h
      · next hletter =>
          rw [if_pos hletter]
          dsimp only
          rw [continuedBy_word (ofWord_mem _)]
          exact hstop _ h
      · next hletter =>
          rw [if_neg hletter]
          exact continuedBy_of_takeSymbol h

/-- A run that a class of characters ends behind is what the class takes. -/
theorem span_append {p : Char → Bool} {cs : List Char} (hcs : ∀ d ∈ cs, p d)
    (hend : ∀ d ∈ rest.head?, p d = false) :
    (cs ++ rest).takeWhile p = cs ∧ (cs ++ rest).dropWhile p = rest := by
  obtain ⟨htake, hdrop⟩ := span_append_of_head hend
  rw [htake, hdrop, List.takeWhile_eq_self_iff.mpr hcs, List.dropWhile_eq_nil_iff.mpr hcs,
    List.nil_append]
  exact ⟨rfl, rfl⟩

/-- A single symbol, or what is none, is taken where no equals sign makes it longer. -/
theorem takeSymbol_of_kind {k : Token.Kind} (hk : (ofSymbol? c).getD .illegal = k)
    (hend : ∀ d ∈ rest.head?, k.continuedBy d = false) :
    takeSymbol c rest = (⟨k, [c]⟩, rest) := by
  subst hk
  rcases takeSymbol_cases c rest with ⟨tail, rfl, rfl, -⟩ | ⟨tail, rfl, rfl, -⟩ | ⟨-, h⟩
  · exact absurd (hend '=' rfl) (by decide)
  · exact absurd (hend '=' rfl) (by decide)
  · exact h

/-- What no word and no integer is written as is what is taken of the symbols. -/
theorem takeSymbol_of_spells {k : Token.Kind} {cs : List Char} (h : k.Spells (c :: cs))
    (hk : k ≠ .integer) (hword : ¬ (k = .identifier ∨ k ∈ reserved))
    (hend : ∀ d ∈ rest.head?, k.continuedBy d = false) :
    isWordChar c = false ∧ takeSymbol c (cs ++ rest) = (⟨k, c :: cs⟩, rest) := by
  cases h with
  | fixed h =>
      have hchars := mem_reserved_or_symbol h
      rw [String.toList_ofList] at hchars
      rcases hchars with hres | ⟨d, hcs, hd, -⟩ | ⟨rfl, hcs⟩ | ⟨rfl, hcs⟩
      · exact absurd (.inr hres) hword
      · obtain ⟨rfl, rfl⟩ := List.cons.inj hcs
        have hsymbol : ofSymbol? c = some k := ofSymbol?_eq_some_iff.mpr h
        exact ⟨hd, takeSymbol_of_kind (by rw [hsymbol, Option.getD_some]) hend⟩
      · obtain ⟨rfl, rfl⟩ := List.cons.inj hcs
        exact ⟨by decide, rfl⟩
      · obtain ⟨rfl, rfl⟩ := List.cons.inj hcs
        exact ⟨by decide, rfl⟩
  | integer => exact absurd rfl hk
  | identifier => exact absurd (.inl rfl) hword
  | illegal hblank hchar hfree =>
      refine ⟨hchar, takeSymbol_of_kind ?_ hend⟩
      cases hsymbol : ofSymbol? c with
      | none => rfl
      | some l => exact absurd (ofSymbol?_eq_some_iff.mp hsymbol) (hfree l)

/-- **Nothing else could be taken**: what a kind is written as, with no character
behind it that continues it, is the lexeme at the start of the text. -/
theorem take_of_spells {k : Token.Kind} {cs : List Char} (h : k.Spells (c :: cs))
    (hend : ∀ d ∈ rest.head?, k.continuedBy d = false) :
    take c (cs ++ rest) = (⟨k, c :: cs⟩, rest) := by
  by_cases hint : k = .integer
  · subst hint
    have hdigits : ∀ d ∈ c :: cs, d.isDigit = true := by
      cases h with
      | fixed h => cases h
      | integer _ hdigits => exact hdigits
    obtain ⟨htake, hdrop⟩ := span_append (fun d hd => hdigits d (List.mem_cons_of_mem c hd)) hend
    rw [take, if_pos (hdigits c List.mem_cons_self), htake, hdrop]
  by_cases hword : k = .identifier ∨ k ∈ reserved
  · obtain ⟨⟨c', cs', hcs, hletter, hchars⟩, hkind⟩ := isWord_of_spells h hword
    obtain ⟨rfl, rfl⟩ := List.cons.inj hcs
    have hstop : ∀ d ∈ rest.head?, isWordChar d = false := fun d hd =>
      (continuedBy_word hword d).symm.trans (hend d hd)
    obtain ⟨htake, hdrop⟩ := span_append hchars hstop
    rw [take, if_neg (by simp [isDigit_eq_false_of_isLetter hletter]), if_pos hletter, htake,
      hdrop]
    dsimp only
    rw [hkind]
  · obtain ⟨hchar, htake⟩ := takeSymbol_of_spells h hint hword hend
    rw [Bool.eq_false_iff, Ne, isWordChar_iff, not_or] at hchar
    rw [take, if_neg hchar.2, if_neg hchar.1, htake]

end Lexeme

/-- A text is written for one kind only. -/
theorem Token.Kind.Spells.unique {k l : Token.Kind} {cs : List Char} (hk : k.Spells cs)
    (hl : l.Spells cs) : k = l := by
  obtain ⟨c, rest, rfl, -⟩ := hk.exists_cons
  have htake : Lexeme.take c (rest ++ []) = (⟨k, c :: rest⟩, []) :=
    Lexeme.take_of_spells hk (by simp)
  rw [Lexeme.take_of_spells hl (by simp)] at htake
  exact (congrArg (·.1.kind) htake).symm

end ExprLang
