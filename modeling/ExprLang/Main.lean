/-
# The program

Reads its arguments, its file or its standard input, and writes the responses
of the library.  All that is decided here is where bytes come from and go to; a
session is answered line by line as the lines come in.
-/
import ExprLang.CommandLine

namespace ExprLang.Main

/-- The contents of a file, if it can be read. -/
def readFile? (name : String) : IO (Option (List UInt8)) := do
  try
    let bytes ← IO.FS.readBinFile name
    pure (some bytes.data.toList)
  catch _ =>
    pure none

/-- The bytes up to and with the next line feed, in reverse; fewer where the
input ends. -/
partial def readLine (input : IO.FS.Stream) (line : List UInt8) : IO (List UInt8) := do
  let bytes ← input.read 1
  match bytes.data.toList with
  | [] => pure line
  | byte :: _ => if byte = 10 then pure (byte :: line) else readLine input (byte :: line)

/-- Tells on the error stream which statements of a source were skipped. -/
def tellSkipped (options : Options) (source : String) : IO Unit := do
  if options.verbose && !options.tokens then
    for position in Visit.skippedAll (parse source).visits do
      IO.eprintln ("skipped a statement at byte " ++ toString position)

/-- Answers one line after another until the input ends or a line is no text. -/
partial def answerLines (options : Options) (input output : IO.FS.Stream) : IO UInt32 := do
  output.putStr Session.prompt
  output.flush
  match ← readLine input [] with
  | [] =>
    output.putStr "\n"
    pure 0
  | line =>
    match Session.decode? (Text.withoutEnd 10 13 line.reverse) with
    | none =>
      IO.eprintln "a line of the input is not valid text"
      pure 1
    | some source =>
      tellSkipped options source
      output.putStr (Answer.ofSource source options.tokens).out
      answerLines options input output

/-- Answers the source in a file. -/
def answerFile (options : Options) (name : String) : IO UInt32 := do
  let contents ← readFile? name
  match contents.bind Session.decode? with
  | none => IO.eprintln ("failed to read " ++ name)
  | some source => tellSkipped options source
  let response := CommandLine.respondFile contents options.tokens
  IO.print response.out
  pure response.code.toUInt32

end ExprLang.Main

open ExprLang in
/-- Does what the arguments ask for and gives the exit code. -/
def main (arguments : List String) : IO UInt32 := do
  match Request.ofArguments arguments with
  | .misuse =>
    IO.eprintln "Usage: intlang [OPTIONS] [FILE]"
    pure 2
  | .help =>
    IO.print CommandLine.helpText
    pure 0
  | .version =>
    IO.print CommandLine.versionText
    pure 0
  | .run options =>
    match options.file with
    | some name => Main.answerFile options name
    | none =>
      let output ← IO.getStdout
      output.putStr Session.greeting
      Main.answerLines options (← IO.getStdin) output
