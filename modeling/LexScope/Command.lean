import LexScope.Document.Listing

/-!
# The command line

The tool lists the bindings or the calls of a file, or serves an editor. The mode for collecting can
be given before or after the command, once on each side, and the one after it counts. Two dashes end
the options.
-/

namespace LexScope

/-- What the tool is asked to do. -/
inductive Command where
  /-- Serve an editor. -/
  | serve
  /-- List the bindings of a file. -/
  | symbols (file : String)
  /-- List the calls of a file. -/
  | calls (file : String)
  deriving DecidableEq

/-- The arguments as understood. -/
inductive Invocation where
  /-- Print the version. -/
  | version
  /-- Print what the tool can do. -/
  | help
  /-- The arguments make no sense. -/
  | misuse
  /-- Run a command, with the name of a mode if one is given. -/
  | run (mode : Option String) (command : Command)
  deriving DecidableEq

/-- What an argument is before two dashes. -/
inductive Argument where
  /-- The option for the mode, whose value follows. -/
  | mode
  /-- The option for the mode with its value. -/
  | modeIs (value : String)
  /-- The option for the version. -/
  | version
  /-- The option for help. -/
  | help
  /-- Two dashes. -/
  | endOfOptions
  /-- Any other option. -/
  | unknown
  /-- A word. -/
  | word (text : String)
  deriving DecidableEq

namespace Argument

/-- Read an argument. Of several short options in one argument the first decides. -/
def read (text : String) : Argument :=
  match text.toList with
  | ['-', '-'] => endOfOptions
  | '-' :: '-' :: 'm' :: 'o' :: 'd' :: 'e' :: '=' :: value => modeIs (String.ofList value)
  | '-' :: '-' :: long =>
    match String.ofList long with
    | "mode" => mode
    | "version" => version
    | "help" => help
    | _ => unknown
  | '-' :: 'V' :: _ => version
  | '-' :: 'h' :: _ => help
  | '-' :: _ :: _ => unknown
  | _ => word text

/-- The text can be the value of an option: it does not look like an option itself. -/
def isValue (text : String) : Bool :=
  match text.toList with
  | '-' :: _ :: _ => false
  | _ => true

end Argument

namespace Invocation

/-- The commands that take a file. -/
def fileCommand? : String → Option (String → Command)
  | "symbols" => some .symbols
  | "calls" => some .calls
  | _ => none

/-- Read the arguments after a command. `file` is the file given so far, `command` makes a command
of it, and `onlyWords` tells that the options have ended. -/
def parseOperands (command : Option String → Option Command) (takesFile : Bool)
    (outerMode : Option String) (mode file : Option String) (onlyWords : Bool) :
    List String → Invocation
  | [] =>
    match command file with
    | some c => .run (mode.or outerMode) c
    | none => .misuse
  | arg :: rest =>
    match if onlyWords then .word arg else Argument.read arg with
    | .word text =>
      if takesFile && file.isNone && text != "" then
        parseOperands command takesFile outerMode mode (some text) onlyWords rest
      else .misuse
    | .endOfOptions => parseOperands command takesFile outerMode mode file true rest
    | .modeIs value =>
      if mode.isSome then .misuse
      else parseOperands command takesFile outerMode (some value) file onlyWords rest
    | .mode =>
      match rest with
      | value :: rest' =>
        if mode.isSome || !Argument.isValue value then .misuse
        else parseOperands command takesFile outerMode (some value) file onlyWords rest'
      | [] => .misuse
    | .help => .help
    | .version | .unknown => .misuse

/-- What help can be asked about, one topic at a time. -/
def helpTopics : List String := ["lsp", "symbols", "calls", "help"]

/-- Read the arguments up to the command. -/
def parseFrom (mode : Option String) : List String → Invocation
  | [] => .misuse
  | arg :: rest =>
    match Argument.read arg with
    | .word "lsp" => parseOperands (fun _ => some .serve) false mode none none false rest
    | .word "help" =>
      match rest with
      | [] => .help
      | [topic] => if helpTopics.contains topic then .help else .misuse
      | _ => .misuse
    | .word text =>
      match fileCommand? text with
      | some command => parseOperands (·.map command) true mode none none false rest
      | none => .misuse
    | .modeIs value => if mode.isSome then .misuse else parseFrom (some value) rest
    | .mode =>
      match rest with
      | value :: rest' =>
        if mode.isSome || !Argument.isValue value then .misuse else parseFrom (some value) rest'
      | [] => .misuse
    | .version => .version
    | .help => .help
    | .endOfOptions | .unknown => .misuse

/-- Read the arguments. -/
def parse (args : List String) : Invocation := parseFrom none args

/-- The file that has to be read. -/
def file? : Invocation → Option String
  | run _ (.symbols file) => some file
  | run _ (.calls file) => some file
  | _ => none

end Invocation

/-- Why a file cannot be read. -/
inductive ReadFailure where
  /-- There is no such file. -/
  | missing
  /-- Its bytes are no text. -/
  | notText
  /-- Another reason, in words. -/
  | other (reason : String)
  deriving DecidableEq

/-- The failure in words. -/
def ReadFailure.message : ReadFailure → String
  | missing => "No such file or directory (os error 2)"
  | notText => "stream did not contain valid UTF-8"
  | other reason => reason

/-- What the tool leaves behind. -/
structure Outcome where
  /-- The exit code. -/
  code : Nat
  /-- What is printed. -/
  output : String
  /-- What is reported as an error, a line each. -/
  errors : List String
  deriving DecidableEq

namespace Outcome

/-- Name and version of the tool. -/
def versionText : String := "clscope 0.1.0\n"

/-- What the tool can do. -/
def helpText : String :=
  "Lexical scope analysis for Common Lisp source\n\n" ++
  "Usage: clscope [OPTIONS] <COMMAND>\n\n" ++
  "Commands:\n" ++
  "  lsp      Run the language server on stdio\n" ++
  "  symbols  Print every binding in a file\n" ++
  "  calls    Print the call-hierarchy edges of a file\n" ++
  "  help     Print this message or the help of the given subcommand(s)\n\n" ++
  "Options:\n" ++
  "      --mode <MODE>  Exclusion mode for definition collection (e.g. `comment-string`)\n" ++
  "  -h, --help         Print help\n" ++
  "  -V, --version      Print version\n"

/-- The settings of a run: only the mode for collecting can be chosen. -/
def settings (mode : Option String) : Settings :=
  match mode with
  | some name => { collection := Mode.parseLossy name }
  | none => {}

/-- The text of a file. -/
def textOf (contents : Except ReadFailure ByteArray) : Except ReadFailure String :=
  match contents with
  | .error e => .error e
  | .ok bytes =>
    match String.fromUTF8? bytes with
    | some text => .ok text
    | none => .error .notText

/-- List a file, or report why it cannot be read. -/
def ofFile (file : String) (contents : Except ReadFailure ByteArray) (list : String → String) :
    Outcome :=
  match textOf contents with
  | .ok text => ⟨0, list text, []⟩
  | .error e => ⟨1, "", [s!"Error reading {file}: {e.message}"]⟩

/-- The outcome of an invocation, where `contents` gives the bytes of a file. Serving an editor
prints nothing of its own. -/
def of (inv : Invocation) (contents : String → Except ReadFailure ByteArray) : Outcome :=
  match inv with
  | .version => ⟨0, versionText, []⟩
  | .help => ⟨0, helpText, []⟩
  | .misuse => ⟨2, "", []⟩
  | .run _ .serve => ⟨0, "", []⟩
  | .run mode (.symbols file) =>
    ofFile file (contents file) fun text => (analyze (settings mode) text).listBindings
  | .run mode (.calls file) =>
    ofFile file (contents file) fun text => (analyze (settings mode) text).listCalls

end Outcome

end LexScope
