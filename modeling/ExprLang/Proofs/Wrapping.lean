/-
# Positions that wrap around

Positions are machine words, so that in a source of 4 GiB or more tokens far apart may
have the same one.  Two texts with that many blanks between them (`apart`) are read like
two short texts, the second one from a small position on: the blanks are stepped over by
what they are and not by how many, and so the run on such a source is that on a short list
of tokens.  Main statement: `parse_apart`.
-/
import ExprLang.Proofs.Concatenation

namespace ExprLang

open Text

/-! ## Far apart -/

/-- A text that repeats one character. -/
def repeated (c : Char) (n : Nat) : String :=
  String.ofList (List.replicate n c)

/-- Two texts with a number of blanks between them. -/
def apart (a : String) (blank : Char) (n : Nat) (b : String) : String :=
  a ++ repeated blank n ++ b

theorem toList_apart (a b : String) (blank : Char) {n : Nat} (hn : n ≠ 0) :
    (apart a blank n b).toList =
      a.toList ++ blank :: (List.replicate (n - 1) blank ++ b.toList) := by
  obtain ⟨n, rfl⟩ := Nat.exists_eq_succ_of_ne_zero hn
  rw [apart, repeated, String.toList_append, String.toList_append, String.toList_ofList,
    List.replicate_succ, List.append_assoc, List.cons_append, Nat.succ_sub_one]

section Blanks

variable {blank : Char} (hblank : blank.isWhitespace) (n : Nat)
include hblank

/-- Blanks take a byte each. -/
theorem byteLength_replicate_blank : byteLength (List.replicate n blank) = n := by
  have hsize : blank.utf8Size = 1 := by
    simp only [Char.isWhitespace, Bool.or_eq_true, decide_eq_true_eq] at hblank
    rcases hblank with ((rfl | rfl) | rfl) | rfl <;> rfl
  rw [byteLength_eq_length fun c hc => List.eq_of_mem_replicate hc ▸ hsize, List.length_replicate]

theorem isWhitespace_of_mem_replicate : ∀ c ∈ List.replicate n blank, c.isWhitespace :=
  fun _ hc => List.eq_of_mem_replicate hc ▸ hblank

/-- Blanks have no tokens. -/
theorem Lexer.dropLast_tokenize_repeated : (tokenize (repeated blank n)).dropLast = [] := by
  have hscan : Scans 0 (repeated blank n).toList [Token.endOfInput
      (0 + byteLength (List.replicate n blank))] := by
    rw [repeated, String.toList_ofList]
    exact .nil (isWhitespace_of_mem_replicate hblank n)
  rw [← scans_iff_eq_tokenize.mp hscan]
  rfl

end Blanks

namespace Lexer

variable {a b : String} {blank : Char} {n : Nat}

/-- **Texts with blanks between them** have the tokens of both. -/
theorem tokenize_apart (hblank : blank.isWhitespace) (hn : n ≠ 0) :
    tokenize (apart a blank n b) =
      (tokenize a).dropLast ++ (tokenize b).map (Token.shift (a.utf8ByteSize + n)) := by
  have ha : Scans 0 a.toList (tokenize a) := scans_iff_eq_tokenize.mpr rfl
  have hb : Scans 0 b.toList (tokenize b) := scans_iff_eq_tokenize.mpr rfl
  refine (scans_iff_eq_tokenize.mp ?_).symm
  rw [apart, String.toList_append, String.toList_append, repeated, String.toList_ofList,
    List.append_assoc]
  refine ha.append (.blanks_append (isWhitespace_of_mem_replicate hblank n) ?_) fun t _ c hc => ?_
  · rw [byteLength_replicate_blank hblank, ← utf8ByteSize_eq, Nat.add_assoc]
    exact hb.shift _
  · obtain ⟨n, rfl⟩ := Nat.exists_eq_succ_of_ne_zero hn
    obtain rfl : blank = c := by simpa [List.replicate_succ] using hc
    exact Token.Kind.continuedBy_of_isWhitespace hblank

end Lexer

/-! ## Where positions wrap around -/

/-- A full turn of the positions changes none of them. -/
theorem toUInt32_turn_add (n : Nat) : (UInt32.size + n).toUInt32 = n.toUInt32 := by
  rw [Nat.toUInt32_eq, UInt32.ofNat_add]
  exact UInt32.zero_add _

theorem Token.shift_turn_add (n : Nat) : Token.shift (UInt32.size + n) = Token.shift n :=
  funext fun t => by rw [shift, shift, toUInt32_turn_add]

/-- A parser at the start of one text and then of another one, the tokens of which begin
at a position. -/
def Parser.ofTexts (a : String) (position : Nat) (b : String) : Parser where
  ahead := (Lexer.tokenize a).dropLast ++ (Lexer.tokenize b).dropLast.map (Token.shift position)
  eof := Token.endOfInput (b.utf8ByteSize + position)

section Apart

variable {a b : String} {blank : Char} {n position : Nat} (hblank : blank.isWhitespace)
  (hn : n ≠ 0) (hturn : a.utf8ByteSize + n = UInt32.size + position)
include hblank hn hturn

/-- The tokens of two texts that are a full turn apart. -/
theorem Lexer.tokenize_apart_of_turn :
    tokenize (apart a blank n b) =
      (tokenize a).dropLast ++ (tokenize b).map (Token.shift position) := by
  rw [tokenize_apart hblank hn, hturn, Token.shift_turn_add]

theorem Parser.ofSource_apart : ofSource (apart a blank n b) = .ofTexts a position b := by
  have htokens := Lexer.tokenize_apart_of_turn (b := b) hblank hn hturn
  rw [Lexer.tokenize_eq_concat b, List.map_append, List.map_singleton, Token.shift_endOfInput,
    ← List.append_assoc, ← Parser.ahead_ofSource] at htokens
  obtain ⟨hahead, heof⟩ := List.append_inj' htokens rfl
  exact congrArg₂ (fun ahead eof : _ => ({ ahead := ahead, eof := eof } : Parser)) hahead
    (List.cons.inj heof).1

/-- **Two texts that are a full turn apart** are read like two short ones. -/
theorem parse_apart :
    parse (apart a blank n b) = .ofOutcome (Rule.program.run (.ofTexts a position b)) := by
  rw [parse, Parser.ofSource_apart hblank hn hturn]

end Apart

end ExprLang
