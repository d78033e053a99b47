/-
# Scans of a text

The tokens of a text, laid out as a derivation: blanks, a token that could not be
longer, and so on to the blanks at the end.  Main statement:
`Lexer.scans_iff_eq_tokenize` (the lexer reads a source in the one way in which
it can be read); from it follow what is known of single tokens, their kinds and
places (`Scans.place`) and, in a text shorter than 4 GiB, their order
(`Scans.ascending`).
-/
import ExprLang.Proofs.Spelling
import ExprLang.Token.Lexer

namespace ExprLang

open Text

/-- The tokens of a text that begins at a byte position, end marker included. -/
inductive Scans : (position : Nat) → List Char → List Token → Prop where
  | nil {position : Nat} {blanks : List Char} (hblank : ∀ c ∈ blanks, c.isWhitespace) :
      Scans position blanks [Token.endOfInput (position + byteLength blanks)]
  | cons {position : Nat} {blanks chars rest : List Char} {kind : Token.Kind}
      {tokens : List Token} (hblank : ∀ c ∈ blanks, c.isWhitespace) (hspells : kind.Spells chars)
      (hend : ∀ c ∈ rest.head?, kind.continuedBy c = false)
      (htail : Scans (position + byteLength blanks + byteLength chars) rest tokens) :
      Scans position (blanks ++ (chars ++ rest))
        (⟨kind, String.ofList chars, (position + byteLength blanks).toUInt32,
          (position + byteLength blanks + byteLength chars).toUInt32⟩ :: tokens)

namespace Lexer

/-! ## The lexer makes a scan -/

/-- All tokens ahead of a cursor, the end marker last. -/
def tokens (l : Lexer) : List Token :=
  l.drain.1 ++ [l.drain.2.next.1]

/-- Blanks and what follows them make up the text. -/
theorem takeWhile_append_skipBlanks (l : Lexer) :
    l.rest.takeWhile Char.isWhitespace ++ l.skipBlanks.rest = l.rest :=
  List.takeWhile_append_dropWhile

/-- With nothing but blanks ahead there is the end marker only. -/
theorem tokens_of_rest_eq_nil {l : Lexer} (hl : l.drained = false) (h : l.skipBlanks.rest = []) :
    l.tokens = [Token.endOfInput l.skipBlanks.position] := by
  have heof : l.next.1.kind = .eof := l.kind_next_eq_eof_iff.mpr h
  have hnext : l.next? = (none, { l.next.2 with drained := true }) := by
    rw [next?, hl, if_neg (by simp), if_pos heof]
  have hskip : l.next = (Token.endOfInput l.skipBlanks.position, l.skipBlanks) :=
    read_of_rest_eq_nil h
  have hagain : l.skipBlanks.skipBlanks = l.skipBlanks := l.skipBlanks_skipBlanks
  rw [tokens, drain_of_next?_eq_none hnext, hskip]
  show [(Lexer.next { l.skipBlanks with drained := true }).1] = _
  have hpos := congrArg Lexer.position hagain
  have hrest : (skipBlanks { l.skipBlanks with drained := true }).rest = [] :=
    (congrArg Lexer.rest hagain).trans h
  rw [next, read_of_rest_eq_nil hrest]
  exact congrArg (fun n => [Token.endOfInput n]) hpos

/-- Otherwise the next token comes first. -/
theorem tokens_of_rest_eq_cons {l : Lexer} {c : Char} {rest : List Char}
    (hl : l.drained = false) (h : l.skipBlanks.rest = c :: rest) :
    l.tokens = l.next.1 :: l.next.2.tokens := by
  have heof : l.next.1.kind ≠ .eof := by
    rw [Ne, kind_next_eq_eof_iff, h]
    exact List.cons_ne_nil c rest
  have hnext : l.next? = (some l.next.1, l.next.2) := by
    rw [next?, hl, if_neg (by simp), if_neg heof]
  rw [tokens, drain_of_next?_eq_some hnext]
  rfl

/-- **The lexer makes a scan** of what is ahead of a cursor. -/
theorem scans_tokens (l : Lexer) (hl : l.drained = false) :
    Scans l.position l.rest l.tokens := by
  induction hn : l.rest.length using Nat.strong_induction_on generalizing l with
  | _ n ih =>
    have hblank : ∀ c ∈ l.rest.takeWhile Char.isWhitespace, c.isWhitespace = true :=
      fun c hc => List.mem_takeWhile_imp hc
    have happ := l.takeWhile_append_skipBlanks
    cases h : l.skipBlanks.rest with
    | nil =>
        rw [h, List.append_nil] at happ
        have hscan : Scans l.position _ _ := Scans.nil hblank
        rw [tokens_of_rest_eq_nil hl h, ← happ]
        exact hscan
    | cons c rest =>
        have hc : c.isWhitespace = false := isWhitespace_of_rest_skipBlanks h
        have hlt : l.next.2.rest.length < n := by
          rw [← hn]
          apply length_rest_next_lt
          rw [Ne, kind_next_eq_eof_iff, h]
          exact List.cons_ne_nil c rest
        have htail := ih _ hlt l.next.2 (by rw [next, read_of_rest_eq_cons h]; exact hl) rfl
        rw [tokens_of_rest_eq_cons hl h]
        rw [next, read_of_rest_eq_cons h] at htail ⊢
        have hscan := Scans.cons hblank (@Lexeme.spells_take c rest hc)
          (fun d hd => Lexeme.continuedBy_of_take hd) htail
        rw [Lexeme.take_append, ← h, happ] at hscan
        exact hscan

/-! ## The scan is the only one -/

/-- A run of blanks in front of a character that is none is what is skipped. -/
theorem skipBlanks_of_rest_eq {l : Lexer} {blanks rest : List Char}
    (h : l.rest = blanks ++ rest) (hblank : ∀ c ∈ blanks, c.isWhitespace)
    (hrest : ∀ c ∈ rest.head?, c.isWhitespace = false) :
    l.skipBlanks = { l with position := l.position + byteLength blanks, rest := rest } := by
  obtain ⟨htake, hdrop⟩ := Lexeme.span_append hblank hrest
  rw [skipBlanks, h, htake, hdrop]

/-- Off a text that is all blank the end marker is read. -/
theorem next_of_blank {l : Lexer} (hblank : ∀ c ∈ l.rest, c.isWhitespace) :
    l.next = (Token.endOfInput (l.position + byteLength l.rest),
      { l with position := l.position + byteLength l.rest, rest := [] }) := by
  have hskip := skipBlanks_of_rest_eq (List.append_nil l.rest).symm hblank (by simp)
  rw [next, read_of_rest_eq_nil (by rw [hskip]), hskip]

/-- Behind blanks a text that spells a kind, and does not go on, is read as a
token of that kind. -/
theorem next_of_spells {l : Lexer} {blanks chars rest : List Char} {kind : Token.Kind}
    (h : l.rest = blanks ++ (chars ++ rest)) (hblank : ∀ c ∈ blanks, c.isWhitespace)
    (hspells : kind.Spells chars) (hend : ∀ c ∈ rest.head?, kind.continuedBy c = false) :
    l.next = (⟨kind, String.ofList chars, (l.position + byteLength blanks).toUInt32,
        (l.position + byteLength blanks + byteLength chars).toUInt32⟩,
      { l with
        position := l.position + byteLength blanks + byteLength chars, rest := rest }) := by
  obtain ⟨c, cs, rfl, hc⟩ := hspells.exists_cons
  have hskip := skipBlanks_of_rest_eq h hblank (by simpa using hc)
  have hcons : l.skipBlanks.rest = c :: (cs ++ rest) := by rw [hskip]; rfl
  rw [next, read_of_rest_eq_cons hcons, Lexeme.take_of_spells hspells hend, hskip]

/-- **A text has one scan**, and the lexer finds it. -/
theorem eq_tokens_of_scans {position : Nat} {cs : List Char} {ts : List Token}
    (h : Scans position cs ts) :
    ∀ l : Lexer, l.position = position → l.rest = cs → l.drained = false → ts = l.tokens := by
  induction h with
  | @nil position blanks hblank =>
      rintro l rfl rfl hl
      have hrest : l.skipBlanks.rest = [] :=
        l.kind_next_eq_eof_iff.mp (by rw [next_of_blank hblank]; rfl)
      have hread : l.next.1 = Token.endOfInput (l.position + byteLength l.rest) := by
        rw [next_of_blank hblank]
      rw [tokens_of_rest_eq_nil hl hrest, ← hread, next, read_of_rest_eq_nil hrest]
  | @cons position blanks chars rest kind tokens hblank hspells hend htail ih =>
      rintro l rfl hrest hl
      obtain ⟨c, cs, rfl, hc⟩ := hspells.exists_cons
      have hcons : l.skipBlanks.rest = c :: (cs ++ rest) := by
        rw [skipBlanks_of_rest_eq hrest hblank (by simpa using hc)]
        rfl
      rw [tokens_of_rest_eq_cons hl hcons, next_of_spells hrest hblank hspells hend]
      exact congrArg _ (ih _ rfl rfl hl)

/-- **The lexer reads a source in the one way in which it can be read.** -/
theorem scans_iff_eq_tokenize {source : String} {ts : List Token} :
    Scans 0 source.toList ts ↔ ts = tokenize source := by
  constructor
  · intro h
    exact eq_tokens_of_scans h (ofSource source) rfl rfl rfl
  · rintro rfl
    exact scans_tokens (ofSource source) rfl

end Lexer

/-! ## What a scan says of its tokens -/

namespace Scans

variable {position : Nat} {cs : List Char} {ts : List Token}

/-- A scan ends in one end marker, at the end of the text. -/
theorem exists_eq_append (h : Scans position cs ts) :
    ∃ body, ts = body ++ [Token.endOfInput (position + byteLength cs)] ∧
      ∀ t ∈ body, t.kind.Spells t.text.toList := by
  induction h with
  | nil hblank => exact ⟨[], rfl, by simp⟩
  | @cons position blanks chars rest kind tokens hblank hspells hend htail ih =>
      obtain ⟨body, htokens, hbody⟩ := ih
      have hsize : position + byteLength (blanks ++ (chars ++ rest)) =
          position + byteLength blanks + byteLength chars + byteLength rest := by
        rw [byteLength_append, byteLength_append]
        omega
      refine ⟨⟨kind, String.ofList chars, (position + byteLength blanks).toUInt32,
        (position + byteLength blanks + byteLength chars).toUInt32⟩ :: body, ?_, ?_⟩
      · rw [htokens, hsize, List.cons_append]
      · intro t ht
        rcases List.mem_cons.mp ht with rfl | ht
        · rw [String.toList_ofList]
          exact hspells
        · exact hbody t ht

/-- In a text shorter than 4 GiB each token of a scan begins behind the beginning of
those before it. -/
theorem ascending (h : Scans position cs ts) (hsize : position + byteLength cs < UInt32.size) :
    ts.Pairwise (fun t u => t.start < u.start) ∧ ∀ t ∈ ts, position ≤ t.start.toNat := by
  induction h with
  | @nil position blanks hblank =>
      refine ⟨List.pairwise_singleton _ _, fun t ht => ?_⟩
      rw [List.mem_singleton.mp ht, Token.start_endOfInput, Nat.toUInt32,
        UInt32.toNat_ofNat_of_lt' hsize]
      exact Nat.le_add_right _ _
  | @cons position blanks chars rest kind tokens hblank hspells hend htail ih =>
      rw [byteLength_append, byteLength_append] at hsize
      obtain ⟨hpairs, hstart⟩ := ih (by omega)
      have hpos : 0 < byteLength chars := by
        obtain ⟨c, cs, rfl, -⟩ := hspells.exists_cons
        exact byteLength_pos (List.cons_ne_nil c cs)
      have hfirst : (position + byteLength blanks).toUInt32.toNat = position + byteLength blanks :=
        UInt32.toNat_ofNat_of_lt' (show _ < UInt32.size by omega)
      refine ⟨List.pairwise_cons.mpr ⟨fun t ht => ?_, hpairs⟩, fun t ht => ?_⟩
      · have := hstart t ht
        rw [UInt32.lt_iff_toNat_lt]
        dsimp only
        omega
      · rcases List.mem_cons.mp ht with rfl | ht
        · dsimp only
          omega
        · have := hstart t ht
          omega

/-- Where the tokens of a scan are: the end marker behind the text, the others in it. -/
theorem place (h : Scans position cs ts) : ∀ t ∈ ts,
      (t.kind = .eof ∧ t.start = (position + byteLength cs).toUInt32) ∨
        (t.kind.Spells t.text.toList ∧
          ∃ before after, cs = before ++ (t.text.toList ++ after) ∧
            t.start = (position + byteLength before).toUInt32) := by
  induction h with
  | @nil position blanks hblank =>
      intro t ht
      rw [List.mem_singleton.mp ht]
      exact .inl ⟨rfl, rfl⟩
  | @cons position blanks chars rest kind tokens hblank hspells hend htail ih =>
      intro t ht
      rcases List.mem_cons.mp ht with rfl | ht
      · rw [String.toList_ofList]
        exact .inr ⟨hspells, blanks, rest, rfl, rfl⟩
      · rcases ih t ht with ⟨heof, hstart⟩ | ⟨hspelled, before, after, rfl, hstart⟩
        · refine .inl ⟨heof, ?_⟩
          rw [hstart, byteLength_append, byteLength_append, ← Nat.add_assoc, ← Nat.add_assoc]
        · refine .inr ⟨hspelled, blanks ++ (chars ++ before), after, by simp, ?_⟩
          rw [hstart, byteLength_append, byteLength_append, ← Nat.add_assoc, ← Nat.add_assoc]

end Scans

end ExprLang
