/-
# Token kinds

The vocabulary of the language: the kinds of token, the fixed spelling of the
symbols and the reserved words, and the two look-ups that go from a spelling
back to its kind.  Main statements: `Kind.spelling?_injective` (no two kinds
share a spelling), `Kind.ofWord_eq_iff` (a word is reserved exactly when it
spells a reserved kind) and `Kind.ofSymbol?_eq_some_iff`.
-/

namespace ExprLang

/-! ## The alphabet of kinds -/

/-- The kind of a token.  The last six are the reserved words. -/
inductive Token.Kind : Type where
  | eof
  | illegal
  | integer
  | identifier
  | plus
  | minus
  | star
  | slash
  | bang
  | assign
  | equal
  | notEqual
  | less
  | greater
  | comma
  | colon
  | semicolon
  | openParen
  | closeParen
  | openCurly
  | closeCurly
  | openBracket
  | closeBracket
  | quote
  | atSign
  | kwFn
  | kwTrue
  | kwFalse
  | kwIf
  | kwEl
  | kwRet
  deriving DecidableEq, Repr, Inhabited

namespace Token.Kind

/-- Every kind, once. -/
def all : List Kind :=
  [eof, illegal, integer, identifier, plus, minus, star, slash, bang, assign, equal, notEqual,
    less, greater, comma, colon, semicolon, openParen, closeParen, openCurly, closeCurly,
    openBracket, closeBracket, quote, kwFn, atSign, kwTrue, kwFalse, kwIf, kwEl, kwRet]

/-- The list of all kinds misses none. -/
theorem mem_all (k : Kind) : k ∈ all := by
  cases k <;> decide

/-! ## Names and spellings -/

/-- The name under which a token listing shows a kind. -/
def name : Kind → String
  | eof => "EOF"
  | illegal => "Illegal"
  | integer => "Int"
  | identifier => "Identifier"
  | plus => "Plus"
  | minus => "Minus"
  | star => "Star"
  | slash => "Slash"
  | bang => "Not"
  | assign => "Assignment"
  | equal => "Equals"
  | notEqual => "NotEquals"
  | less => "Less"
  | greater => "Greater"
  | comma => "Comma"
  | colon => "Colon"
  | semicolon => "Semicolon"
  | openParen => "OpenParen"
  | closeParen => "CloseParen"
  | openCurly => "OpenCurly"
  | closeCurly => "CloseCurly"
  | openBracket => "OpenBracket"
  | closeBracket => "CloseBracket"
  | quote => "Quote"
  | atSign => "At"
  | kwFn => "Function"
  | kwTrue => "True"
  | kwFalse => "False"
  | kwIf => "If"
  | kwEl => "El"
  | kwRet => "Ret"

/-- The kind with a given name. -/
def ofName? (n : String) : Option Kind :=
  all.find? (·.name == n)

/-- A kind is found under its own name. -/
theorem ofName?_name (k : Kind) : ofName? k.name = some k := by
  cases k <;> decide

/-- The fixed spelling of a symbol or reserved word; the other kinds have none. -/
def spelling? : Kind → Option String
  | eof | illegal | integer | identifier => none
  | plus => some "+"
  | minus => some "-"
  | star => some "*"
  | slash => some "/"
  | bang => some "!"
  | assign => some "="
  | equal => some "=="
  | notEqual => some "!="
  | less => some "<"
  | greater => some ">"
  | comma => some ","
  | colon => some ":"
  | semicolon => some ";"
  | openParen => some "("
  | closeParen => some ")"
  | openCurly => some "\x7b"
  | closeCurly => some "\x7d"
  | openBracket => some "["
  | closeBracket => some "]"
  | quote => some "\""
  | atSign => some "@"
  | kwFn => some "fn"
  | kwTrue => some "true"
  | kwFalse => some "false"
  | kwIf => some "if"
  | kwEl => some "el"
  | kwRet => some "ret"

/-- No two kinds share a spelling. -/
theorem spelling?_injective {k l : Kind} {s : String} (hk : k.spelling? = some s)
    (hl : l.spelling? = some s) : k = l := by
  cases k <;> simp only [spelling?, reduceCtorEq, Option.some.injEq] at hk <;> subst hk <;>
    cases l <;> simp_all [spelling?]

/-- How a message names a kind: in words, or as its spelling in backquotes. -/
def describe : Kind → String
  | eof => "end of input"
  | illegal => "illegal token"
  | integer => "integer"
  | identifier => "identifier"
  | k => "`" ++ k.spelling?.getD "" ++ "`"

/-! ## From a spelling to its kind -/

/-- The kind of a word: reserved, or else an identifier. -/
def ofWord : String → Kind
  | "fn" => kwFn
  | "true" => kwTrue
  | "false" => kwFalse
  | "if" => kwIf
  | "el" => kwEl
  | "ret" => kwRet
  | _ => identifier

/-- The reserved words. -/
def reserved : List Kind :=
  [kwFn, kwTrue, kwFalse, kwIf, kwEl, kwRet]

/-- A word is given a reserved kind exactly when it spells that kind. -/
theorem ofWord_eq_iff {w : String} {k : Kind} (hk : k ∈ reserved) :
    ofWord w = k ↔ k.spelling? = some w := by
  simp only [reserved, List.mem_cons, List.not_mem_nil, or_false] at hk
  unfold ofWord
  constructor
  · intro h
    split at h <;> subst h <;> first | rfl | simp at hk
  · intro h
    rcases hk with rfl | rfl | rfl | rfl | rfl | rfl <;>
      simp only [spelling?, Option.some.injEq] at h <;> subst h <;> rfl

/-- Every word is an identifier or reserved. -/
theorem ofWord_mem (w : String) : ofWord w = identifier ∨ ofWord w ∈ reserved := by
  unfold ofWord
  split <;> simp [reserved]

/-- The kind of a symbol of one character. -/
def ofSymbol? : Char → Option Kind
  | '+' => some plus
  | '-' => some minus
  | '*' => some star
  | '/' => some slash
  | '!' => some bang
  | '=' => some assign
  | '<' => some less
  | '>' => some greater
  | ',' => some comma
  | ':' => some colon
  | ';' => some semicolon
  | '(' => some openParen
  | ')' => some closeParen
  | '\x7b' => some openCurly
  | '\x7d' => some closeCurly
  | '[' => some openBracket
  | ']' => some closeBracket
  | '"' => some quote
  | '@' => some atSign
  | _ => none

/-- A character is given a symbol's kind exactly when it spells it alone. -/
theorem ofSymbol?_eq_some_iff {c : Char} {k : Kind} :
    ofSymbol? c = some k ↔ k.spelling? = some (String.singleton c) := by
  constructor
  · intro h
    unfold ofSymbol? at h
    split at h <;> simp only [Option.some.injEq, reduceCtorEq] at h <;> subst h <;> rfl
  · intro h
    have hc := congrArg (Option.map String.toList) h
    simp only [Option.map_some, String.toList_singleton] at hc
    cases k <;> simp [spelling?] at hc <;> subst hc <;> rfl

end Token.Kind

end ExprLang
