import LexScope.Command
import LexScope.Server.Envelope

/-!
# The program

Reads the file that the arguments name and prints what the command leaves behind, or exchanges
messages with an editor over standard input and output. Each message follows a header with its
length in bytes.
-/

namespace LexScope.Program

/-- The bytes of a file, or why there are none. -/
def readFile (file : String) : IO (Except ReadFailure ByteArray) := do
  try
    return .ok (← IO.FS.readBinFile file)
  catch
    | .noFileOrDirectory _ _ _ => return .error .missing
    | e => return .error (.other (toString e))

/-- The length that a header line announces. -/
def announced? (line : String) : Option Nat :=
  match (afterBeginning? "content-length:" (lowerAscii line)) with
  | some value => value.trimAscii.toString.toNat?
  | none => none

/-- Read header lines up to the empty one. Nothing comes back at the end of the input. -/
partial def readHeader (input : IO.FS.Stream) (length : Nat) : IO (Option Nat) := do
  let line ← input.getLine
  if line.isEmpty then return none
  if line.all Char.isWhitespace then return some length
  readHeader input ((announced? line).getD length)

/-- Read a number of bytes, or fewer at the end of the input. -/
partial def readBody (input : IO.FS.Stream) (length : Nat) (body : ByteArray) : IO ByteArray := do
  if length ≤ body.size then return body
  let chunk ← input.read (length - body.size).toUSize
  if chunk.isEmpty then return body
  readBody input length (body ++ chunk)

/-- Exchange messages until the editor leaves. -/
partial def serve (input output : IO.FS.Stream) (s : Session) : IO Unit := do
  match ← readHeader input 0 with
  | none => return
  | some length =>
    let body ← readBody input length .empty
    let (s', answer) := s.exchange ((String.fromUTF8? body).getD "")
    if let some text := answer then
      output.putStr ("Content-Length: " ++ toString text.utf8ByteSize ++ "\r\n\r\n" ++ text)
      output.flush
    if s'.stage == .closed then return
    serve input output s'

/-- Run the program with its arguments and give back the exit code. -/
def run (args : List String) : IO UInt32 := do
  let inv := Invocation.parse args
  if let .run _ .serve := inv then
    serve (← IO.getStdin) (← IO.getStdout) {}
  let contents ← inv.file?.elim (pure (.error .missing)) readFile
  let out := Outcome.of inv fun _ => contents
  IO.print out.output
  for line in out.errors do
    IO.eprintln line
  return out.code.toUInt32

end LexScope.Program

/-- The command line. -/
def main (args : List String) : IO UInt32 := LexScope.Program.run args
