/-
# The command line

How the arguments of the program are understood and what the program then does.
Arguments are taken from left to right: a file name at most once, flags at most
once each, in any order; behind `--` everything is a file name.  A request for
help or for the version is granted as soon as it is met.  Main definitions:
`Request.ofArguments`, `CommandLine.respond`.
-/
import ExprLang.Session

namespace ExprLang

/-! ## Requests -/

/-- A flag of the command line. -/
inductive Flag : Type where
  | tokens
  | verbose
  | help
  | version
  deriving DecidableEq, Repr

namespace Flag

/-- The flag with a long name. -/
def ofLong? : String → Option Flag
  | "--tokens" => some tokens
  | "--verbose" => some verbose
  | "--help" => some help
  | "--version" => some version
  | _ => none

/-- The flag with a name of one letter. -/
def ofShort? : Char → Option Flag
  | 'v' => some verbose
  | 'h' => some help
  | 'V' => some version
  | _ => none

end Flag

/-- What is to be run: a file, or else a session; whether tokens are shown in
place of trees; whether skipped statements are told of. -/
structure Options : Type where
  file : Option String := none
  tokens : Bool := false
  verbose : Bool := false
  deriving DecidableEq, Repr

/-- What the arguments ask for. -/
inductive Request : Type where
  | run (options : Options)
  | help
  | version
  | misuse
  deriving DecidableEq, Repr

namespace Request

/-- A file name has to have at least one character. -/
def hasEmptyFile (options : Options) : Bool :=
  options.file = some ""

/-- The request of arguments that are all taken in. -/
def finish (options : Options) : Request :=
  if hasEmptyFile options then misuse else run options

/-- Takes in a flag: either the arguments go on with further options, or the
request is settled.  A file name is checked when the next flag is met. -/
def takeFlag (options : Options) (flag : Flag) : Except Request Options :=
  if hasEmptyFile options then
    .error misuse
  else
    match flag with
    | .tokens => if options.tokens then .error misuse else .ok { options with tokens := true }
    | .verbose => if options.verbose then .error misuse else .ok { options with verbose := true }
    | .help => .error help
    | .version => .error version

/-- Takes in flags of one letter that are written together. -/
def takeCluster (options : Options) : List Char → Except Request Options
  | [] => .ok options
  | c :: cs =>
      match Flag.ofShort? c with
      | none => .error misuse
      | some flag =>
          match takeFlag options flag with
          | .ok options => takeCluster options cs
          | .error request => .error request

/-- Takes in a file name, of which there can be one. -/
def takeFile (options : Options) (name : String) : Except Request Options :=
  if options.file.isSome then .error misuse else .ok { options with file := some name }

/-- Takes in one argument before any `--`. -/
def takeArgument (options : Options) (argument : String) : Except Request Options :=
  match argument.toList with
  | '-' :: '-' :: _ =>
      match Flag.ofLong? argument with
      | none => .error misuse
      | some flag => takeFlag options flag
  | '-' :: c :: cs => takeCluster options (c :: cs)
  | _ => takeFile options argument

/-- Takes in the arguments behind `--`. -/
def ofFiles (options : Options) : List String → Request
  | [] => finish options
  | argument :: rest =>
      match takeFile options argument with
      | .ok options => ofFiles options rest
      | .error request => request

/-- Takes in arguments, from left to right. -/
def ofRest (options : Options) : List String → Request
  | [] => finish options
  | "--" :: rest => ofFiles options rest
  | argument :: rest =>
      match takeArgument options argument with
      | .ok options => ofRest options rest
      | .error request => request

/-- What the arguments of the program ask for. -/
def ofArguments (arguments : List String) : Request :=
  ofRest {} arguments

end Request

/-! ## Responses -/

namespace CommandLine

/-- How the program ends: its exit code, and all that it has written. -/
structure Response : Type where
  code : Nat
  out : String
  deriving DecidableEq, Repr

/-- The text that tells the version. -/
def versionText : String :=
  "intlang 0.1.0\n"

/-- The text that tells how the program is used. -/
def helpText : String :=
  "intLANG - parse programs or explore the language line by line\n\n" ++
    "Usage: intlang [OPTIONS] [FILE]\n\n" ++
    "Arguments:\n" ++
    "  [FILE]  Source file to parse; starts the REPL when omitted\n\n" ++
    "Options:\n" ++
    "      --tokens   Print the token stream instead of the syntax tree\n" ++
    "  -v, --verbose  Enable verbose output\n" ++
    "  -h, --help     Print help\n" ++
    "  -V, --version  Print version\n"

/-- The response to a file with the given contents, `none` where it cannot be
read.  A file that is no text is refused like one that cannot be read. -/
def respondFile (contents : Option (List UInt8)) (showTokens : Bool) : Response :=
  match contents.bind Session.decode? with
  | none => ⟨1, ""⟩
  | some source =>
      let answer := Answer.ofSource source showTokens
      ⟨if answer.ok then 0 else 1, answer.out⟩

/-- The response to a session with the given input.  Syntax errors are answers
like any other; only a line that is no text makes the program fail. -/
def respondSession (input : List UInt8) (showTokens : Bool) : Response :=
  let transcript := Session.transcript input showTokens
  ⟨if transcript.intact then 0 else 1, transcript.out⟩

/-- The response to the arguments, given the contents of the files that can be
read and all of the standard input. -/
def respond (files : String → Option (List UInt8)) (input : List UInt8)
    (arguments : List String) : Response :=
  match Request.ofArguments arguments with
  | .misuse => ⟨2, ""⟩
  | .help => ⟨0, helpText⟩
  | .version => ⟨0, versionText⟩
  | .run options =>
      match options.file with
      | some name => respondFile (files name) options.tokens
      | none => respondSession input options.tokens

end CommandLine

end ExprLang
