/-
# Tokens of texts put together

Where the last token of a text could not go on into the text behind it, the tokens
of both together are those of the one and, moved along, those of the other.  Main
statements: `Lexer.tokenize_append` and `Lexer.tokenize_enclosed` (a text between
braces keeps its tokens).
-/
import ExprLang.Proofs.ByteView
import ExprLang.Proofs.Window

namespace ExprLang

open Text

/-! ## Moving tokens and errors -/

/-- A token moved along by a number of bytes, as positions are counted: modulo
2 ^ 32. -/
def Token.shift (n : Nat) (t : Token) : Token :=
  { t with start := t.start + n.toUInt32, stop := t.stop + n.toUInt32 }

@[simp]
theorem Token.kind_shift (n : Nat) (t : Token) : (t.shift n).kind = t.kind := rfl

@[simp]
theorem Token.text_shift (n : Nat) (t : Token) : (t.shift n).text = t.text := rfl

@[simp]
theorem Token.start_shift (n : Nat) (t : Token) : (t.shift n).start = t.start + n.toUInt32 := rfl

@[simp]
theorem Token.shift_zero : Token.shift 0 = id :=
  funext fun t => by simp [shift]

/-- A token at a place is moved to another place. -/
theorem Token.shift_mk (n : Nat) (kind : Token.Kind) (text : String) (start stop : Nat) :
    Token.shift n ⟨kind, text, start.toUInt32, stop.toUInt32⟩ =
      ⟨kind, text, (start + n).toUInt32, (stop + n).toUInt32⟩ := by
  simp only [Token.shift, Nat.toUInt32_eq, UInt32.ofNat_add]

/-- So is the end marker. -/
theorem Token.shift_endOfInput (n size : Nat) :
    (Token.endOfInput size).shift n = Token.endOfInput (size + n) :=
  shift_mk n .eof "" size size

/-- An error moved along by a number of bytes. -/
def SyntaxError.shift (n : Nat) (e : SyntaxError) : SyntaxError :=
  { e with position := e.position + n.toUInt32 }

@[simp]
theorem SyntaxError.shift_zero : SyntaxError.shift 0 = id :=
  funext fun e => by simp [shift]

namespace Scans

variable {position : Nat} {cs ds : List Char} {ts us : List Token}

/-- A scan does not depend on where the text begins. -/
theorem shift (h : Scans position cs ts) (n : Nat) :
    Scans (position + n) cs (ts.map (Token.shift n)) := by
  induction h with
  | @nil position blanks hblank =>
      rw [List.map_singleton, Token.shift_endOfInput, Nat.add_right_comm]
      exact .nil hblank
  | @cons position blanks chars rest kind tokens hblank hspells hend htail ih =>
      rw [List.map_cons, Token.shift_mk, Nat.add_right_comm _ (byteLength chars),
        Nat.add_right_comm _ (byteLength blanks)]
      refine .cons hblank hspells hend ?_
      rwa [Nat.add_right_comm _ n, Nat.add_right_comm _ n]

/-- Blanks in front of a text only move its tokens along. -/
theorem blanks_append {blanks : List Char} (hblank : ∀ c ∈ blanks, c.isWhitespace)
    (h : Scans (position + byteLength blanks) cs ts) : Scans position (blanks ++ cs) ts := by
  have hmore : ∀ more : List Char, (∀ c ∈ more, c.isWhitespace) →
      ∀ c ∈ blanks ++ more, c.isWhitespace := by
    intro more hmore c hc
    exact (List.mem_append.mp hc).elim (hblank c) (hmore c)
  cases h with
  | nil hmore' =>
      rw [Nat.add_assoc, ← byteLength_append]
      exact .nil (hmore _ hmore')
  | @cons _ more chars rest kind tokens hmore' hspells hend htail =>
      rw [Nat.add_assoc position, ← byteLength_append] at htail ⊢
      rw [← List.append_assoc]
      exact .cons (hmore more hmore') hspells hend htail

/-- In an empty text there is the end marker only. -/
theorem eq_of_nil (h : Scans position [] ts) : ts = [Token.endOfInput position] := by
  generalize hcs : ([] : List Char) = cs at h
  cases h with
  | nil => rw [← hcs, byteLength_nil, Nat.add_zero]
  | cons _ hspells =>
      obtain ⟨c, chars, rfl, -⟩ := hspells.exists_cons
      simp at hcs

/-- **A scan goes on in another one**, if its last token cannot. -/
theorem append (h : Scans position cs ts) (hnext : Scans (position + byteLength cs) ds us)
    (hlast : ∀ t ∈ ts.dropLast.getLast?, ∀ c ∈ ds.head?, t.kind.continuedBy c = false) :
    Scans position (cs ++ ds) (ts.dropLast ++ us) := by
  induction h with
  | nil hblank => exact hnext.blanks_append hblank
  | @cons position blanks chars rest kind tokens hblank hspells hend htail ih =>
      obtain ⟨body, rfl, -⟩ := htail.exists_eq_append
      rw [List.dropLast_cons_of_ne_nil (by simp), List.dropLast_concat] at hlast ⊢
      rw [List.dropLast_concat] at ih
      have hposition : position + byteLength (blanks ++ (chars ++ rest)) =
          position + byteLength blanks + byteLength chars + byteLength rest := by
        rw [byteLength_append, byteLength_append]
        omega
      rw [hposition] at hnext
      rw [List.append_assoc, List.append_assoc]
      refine .cons hblank hspells (fun c hc => ?_) (ih hnext fun t ht => hlast t ?_)
      · cases rest with
        | nil =>
            -- this token is the last one
            obtain rfl : body = [] := by simpa using congrArg List.length htail.eq_of_nil
            exact hlast _ rfl c hc
        | cons d rest => exact hend c hc
      · cases body with
        | nil => cases ht
        | cons u body => exact ht

end Scans

/-! ## Sources put together -/

namespace Lexer

/-- **The tokens of two sources put together**, if the last token of the one does not
go on into the other. -/
theorem tokenize_append {a b : String}
    (h : ∀ t ∈ (tokenize a).dropLast.getLast?, ∀ c ∈ b.toList.head?,
      t.kind.continuedBy c = false) :
    tokenize (a ++ b) =
      (tokenize a).dropLast ++ (tokenize b).map (Token.shift a.utf8ByteSize) := by
  have ha : Scans 0 a.toList (tokenize a) := scans_iff_eq_tokenize.mpr rfl
  have hb : Scans 0 b.toList (tokenize b) := scans_iff_eq_tokenize.mpr rfl
  refine (scans_iff_eq_tokenize.mp ?_).symm
  rw [String.toList_append]
  refine ha.append ?_ h
  rw [utf8ByteSize_eq]
  exact hb.shift _

/-- The tokens of a source end in its end marker. -/
theorem tokenize_eq_concat (source : String) :
    tokenize source =
      (tokenize source).dropLast ++ [Token.endOfInput source.utf8ByteSize] := by
  have h : Scans 0 source.toList (tokenize source) := scans_iff_eq_tokenize.mpr rfl
  obtain ⟨body, hbody, -⟩ := h.exists_eq_append
  rw [hbody, List.dropLast_concat, utf8ByteSize_eq, Nat.zero_add]

theorem dropLast_tokenize_append {a b : String}
    (h : ∀ t ∈ (tokenize a).dropLast.getLast?, ∀ c ∈ b.toList.head?,
      t.kind.continuedBy c = false) :
    (tokenize (a ++ b)).dropLast =
      (tokenize a).dropLast ++ (tokenize b).dropLast.map (Token.shift a.utf8ByteSize) := by
  rw [tokenize_append h, tokenize_eq_concat b, List.map_append, List.map_singleton,
    ← List.append_assoc, List.dropLast_concat, List.dropLast_concat]

/-- The opening brace at a position. -/
def openingAt (position : Nat) : Token :=
  ⟨.openCurly, "\x7b", position.toUInt32, (position + 1).toUInt32⟩

/-- The closing brace at a position. -/
def closingAt (position : Nat) : Token :=
  ⟨.closeCurly, "\x7d", position.toUInt32, (position + 1).toUInt32⟩

/-- An opening brace behind a text. -/
theorem dropLast_tokenize_opening (a : String) :
    (tokenize (a ++ "\x7b")).dropLast =
      (tokenize a).dropLast ++ [openingAt a.utf8ByteSize] := by
  have hbrace : (tokenize "\x7b").dropLast = [openingAt 0] := by decide +kernel
  rw [dropLast_tokenize_append, hbrace]
  · simp [openingAt, Token.shift, Nat.add_comm]
  · intro t _ c hc
    obtain rfl : '\x7b' = c := by simpa using hc
    cases t.kind <;> rfl

/-- A closing brace behind a text. -/
theorem dropLast_tokenize_closing (a : String) :
    (tokenize (a ++ "\x7d")).dropLast =
      (tokenize a).dropLast ++ [closingAt a.utf8ByteSize] := by
  have hbrace : (tokenize "\x7d").dropLast = [closingAt 0] := by decide +kernel
  rw [dropLast_tokenize_append, hbrace]
  · simp [closingAt, Token.shift, Nat.add_comm]
  · intro t _ c hc
    obtain rfl : '\x7d' = c := by simpa using hc
    cases t.kind <;> rfl

/-- **The tokens of a text between braces** are its own, moved along, and so are those
of the texts around it. -/
theorem tokenize_enclosed (a x b : String) :
    tokenize (a ++ "\x7b" ++ x ++ "\x7d" ++ b) =
      (tokenize a).dropLast ++ openingAt a.utf8ByteSize ::
        ((tokenize x).dropLast.map (Token.shift (a.utf8ByteSize + 1)) ++
          closingAt (a.utf8ByteSize + 1 + x.utf8ByteSize) ::
            (tokenize b).map (Token.shift (a.utf8ByteSize + 1 + x.utf8ByteSize + 1))) := by
  have hopening : "\x7b".utf8ByteSize = 1 := rfl
  have hclosing : "\x7d".utf8ByteSize = 1 := rfl
  -- braces do not go on
  have hlast : ∀ (ts : List Token) (brace t : Token), t ∈ (ts ++ [brace]).getLast? → t = brace := by
    intro ts brace t ht
    rw [List.getLast?_concat] at ht
    exact (Option.some.inj ht).symm
  have hinside : (tokenize (a ++ "\x7b" ++ x)).dropLast =
      (tokenize a).dropLast ++ openingAt a.utf8ByteSize ::
        (tokenize x).dropLast.map (Token.shift (a.utf8ByteSize + 1)) := by
    rw [dropLast_tokenize_append, dropLast_tokenize_opening, String.utf8ByteSize_append, hopening,
      List.append_assoc, List.singleton_append]
    intro t ht c _
    rw [dropLast_tokenize_opening] at ht
    rw [hlast _ _ t ht]
    rfl
  rw [tokenize_append, dropLast_tokenize_closing, hinside]
  · simp only [String.utf8ByteSize_append, hopening, hclosing, List.append_assoc,
      List.cons_append, List.nil_append]
  · intro t ht c _
    rw [dropLast_tokenize_closing] at ht
    rw [hlast _ _ t ht]
    rfl

end Lexer

/-- The end marker of a source stands behind it. -/
theorem Parser.eof_ofSource (source : String) :
    (ofSource source).eof = Token.endOfInput source.utf8ByteSize := by
  have h := (ahead_ofSource source).trans (Lexer.tokenize_eq_concat source)
  exact (List.cons.inj (List.append_inj' h rfl).2).1

/-- The tokens of a source that is shorter than 4 GiB start within it. -/
theorem Lexer.start_lt_of_mem {source : String} (hsize : source.utf8ByteSize < UInt32.size)
    {t : Token} (h : t ∈ (tokenize source).dropLast) : t.start.toNat < source.utf8ByteSize := by
  have hascending := (Parser.ordered_ofSource hsize).ascending trivial
  rw [Parser.remaining, Parser.ahead_ofSource_eq_dropLast, Parser.eof_ofSource] at hascending
  have hlt := UInt32.lt_iff_toNat_lt.mp
    ((List.pairwise_append.mp hascending).2.2 t h _ List.mem_cons_self)
  rwa [Token.endOfInput, Nat.toUInt32_eq, UInt32.toNat_ofNat_of_lt' hsize] at hlt

end ExprLang
