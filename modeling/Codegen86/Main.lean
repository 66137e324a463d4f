import Codegen86.CommandLine
/-!
# The compiler as a program

Reads the source from a file or from standard input and prints what `CommandLine.respond` answers.
-/

set_option autoImplicit false

namespace Codegen86.CommandLine

def usage : String :=
  "Usage: t86c [FILE] [-r N] [-e NAME] [--no-opt] [--run] [--arg V]... [--stats] [-V]\n"

/-- An error of the system as the reason why a text cannot be read.  Its number may come negated. -/
def readError (e : IO.Error) : ReadError :=
  let known (code : UInt32) : ReadError :=
    (ReadError.ofCode? (min code (-code)).toNat).getD (.system (toString e))
  match e with
  | .noFileOrDirectory .. => .notFound
  | .inappropriateType _ code _ | .invalidArgument _ code _ => known code
  | _ => .system (toString e)

/-- The source text, or why it cannot be read. -/
def readSource (file : Option String) : IO (Except ReadError String) := do
  try
    let bytes ←
      match file with
      | some path => IO.FS.readBinFile path
      | none => (← IO.getStdin).readBinToEnd
    match String.fromUTF8? bytes with
    | some text => return .ok text
    | none => return .error .notText
  catch e => return .error (readError e)

def answer (request : Request) : IO UInt32 := do
  let source ←
    match request with
    | .version => pure (.ok "")
    | .compile o => readSource o.file
  let outcome := respond request source
  IO.print outcome.stdout
  IO.eprint outcome.stderr
  return outcome.exit.toUInt32

end Codegen86.CommandLine

def main (args : List String) : IO UInt32 := do
  match Codegen86.CommandLine.parse args with
  | none =>
    IO.eprint Codegen86.CommandLine.usage
    return 2
  | some request => Codegen86.CommandLine.answer request
