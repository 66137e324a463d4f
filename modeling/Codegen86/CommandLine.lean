import Codegen86.Compile
import Codegen86.Files
import Codegen86.IR.Resolve
import Codegen86.Target.Listing
/-!
# Command line

What the arguments of the compiler ask for, and what it prints.

Options are `-r N` or `--registers N`, `-e NAME` or `--entry NAME`, `--no-opt`, `--run`, `--arg V`,
`--stats` and `-V` or `--version`; one file may be named.  A value may be attached to its option, behind
a `=` or, for a short option, directly.  A value that begins with `-` is an option instead, unless it is
attached, is `-` alone, or is a number for `--arg`.  Only `--arg` may be repeated.  Arguments are taken
in order, and all of them are files after `--`.
-/

set_option autoImplicit false

namespace Codegen86.CommandLine

open Text

/-- What the arguments have given so far. -/
structure Options where
  file : Option String := none
  registers : Option Nat := none
  entry : Option String := none
  noOptimizer : Bool := false
  run : Bool := false
  args : List Word := []
  stats : Bool := false
  deriving DecidableEq, Repr

/-- What a command line asks for. -/
inductive Request where
  | version
  | compile (options : Options)
  deriving DecidableEq, Repr

/-- Options that take a value. -/
inductive Setting where
  | registers | entry | arg
  deriving DecidableEq, Repr

/-- Options that take none. -/
inductive Switch where
  | noOptimizer | run | stats
  deriving DecidableEq, Repr

namespace Options

/-- Give a setting its value; a setting other than `arg` has one value. -/
def set? (o : Options) (setting : Setting) (value : String) : Option Options :=
  match setting with
  | .registers =>
    if o.registers.isSome then none
    else (unsigned64? value.toList).map fun n => { o with registers := some n }
  | .entry => if o.entry.isSome then none else some { o with entry := some value }
  | .arg => (word? value.toList).map fun w => { o with args := o.args ++ [w] }

/-- Turn a switch on, once. -/
def turnOn? (o : Options) : Switch → Option Options
  | .noOptimizer => if o.noOptimizer then none else some { o with noOptimizer := true }
  | .run => if o.run then none else some { o with run := true }
  | .stats => if o.stats then none else some { o with stats := true }

/-- Name the file, once; its name is not empty. -/
def setFile? (o : Options) (file : String) : Option Options :=
  if o.file.isSome || file.isEmpty then none else some { o with file := some file }

def config (o : Options) : Config :=
  let usual : Config := {}
  { registers := o.registers.getD usual.registers
    entry := o.entry.getD usual.entry
    optimize := !o.noOptimizer }

end Options

/-- What one argument is, by its form alone. -/
inductive Argument where
  | file (name : String)
  | onlyFiles
  | version
  | switch (switch : Switch)
  | setting (setting : Setting) (attached : Option String)
  | unknown
  deriving DecidableEq, Repr

/-- An argument that begins with two dashes. -/
def Argument.long (text : List Char) : Argument :=
  let (name, attached) :=
    match cutAt '=' text with
    | some (name, value) => (name, some (String.ofList value))
    | none => (text, none)
  match String.ofList name, attached with
  | "", none => .onlyFiles
  | "version", none => .version
  | "no-opt", none => .switch .noOptimizer
  | "run", none => .switch .run
  | "stats", none => .switch .stats
  | "registers", value => .setting .registers value
  | "entry", value => .setting .entry value
  | "arg", value => .setting .arg value
  | _, _ => .unknown

/-- The value directly behind a short option. -/
def attachedValue : List Char → Option String
  | [] => none
  | '=' :: value => some (String.ofList value)
  | value => some (String.ofList value)

def Argument.of (text : String) : Argument :=
  match text.toList with
  | '-' :: '-' :: rest => .long rest
  | '-' :: 'V' :: _ => .version
  | '-' :: 'r' :: rest => .setting .registers (attachedValue rest)
  | '-' :: 'e' :: rest => .setting .entry (attachedValue rest)
  | '-' :: _ :: _ => .unknown
  | _ => .file text

/-- Whether an argument can be the value of the setting before it. -/
def isValue (setting : Setting) (text : String) : Bool :=
  match text.toList with
  | '-' :: rest => rest.isEmpty || (setting == .arg && (word? text.toList).isSome)
  | _ => true

/-- What a command line asks for; `none` for a command line that makes no sense. -/
def parseFrom (o : Options) : List String → Option Request
  | [] => some (.compile o)
  | text :: rest =>
    match Argument.of text with
    | .unknown => none
    | .version => some .version
    | .onlyFiles => (rest.foldlM Options.setFile? o).map .compile
    | .file name => do parseFrom (← o.setFile? name) rest
    | .switch switch => do parseFrom (← o.turnOn? switch) rest
    | .setting setting (some value) => do parseFrom (← o.set? setting value) rest
    | .setting setting none =>
      match rest with
      | [] => none
      | value :: rest =>
        if isValue setting value then do parseFrom (← o.set? setting value) rest else none

def parse (args : List String) : Option Request := parseFrom {} args

/-- What is printed, and the exit code. -/
structure Outcome where
  exit : Nat
  stdout : String := ""
  stderr : String := ""
  deriving DecidableEq, Repr

namespace Outcome

/-- Whatever was printed before, the command fails with a message. -/
def failed (o : Outcome) (message : String) : Outcome :=
  { o with exit := 1, stderr := o.stderr ++ "Error: " ++ message ++ "\n" }

end Outcome

/-- The name and the version of the program. -/
def versionLine : String := "t86c 0.1.0\n"

/-- Compile a text: print the listing, then the report, then the result of a run. -/
def execute (o : Options) (text : String) : Outcome :=
  let start : Outcome := { exit := 0 }
  match IR.parse text with
  | .error e => start.failed e.message
  | .ok source =>
    match compileWith o.config source {} with
    | .error e => start.failed e.message
    | .ok (assembled, journal) =>
      let printed : Outcome :=
        { exit := 0
          stdout := assembled.program.listing
          stderr := if o.stats then journal.text else "" }
      if o.run then
        match (assembled.run o.args).outcome with
        | .error fault => printed.failed fault.message
        | .ok value =>
          { printed with stdout := printed.stdout ++ "; result = " ++ Word.text value ++ "\n" }
      else printed

/-- Answer a request, given the text of its source or the reason why that cannot be read. -/
def respond (request : Request) (source : Except ReadError String) : Outcome :=
  match request with
  | .version => { exit := 0, stdout := versionLine }
  | .compile o =>
    match source with
    | .ok text => execute o text
    | .error e => ({ exit := 0 } : Outcome).failed e.message

end Codegen86.CommandLine
