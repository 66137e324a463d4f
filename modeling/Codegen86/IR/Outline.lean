import Codegen86.IR.ParseError
import Codegen86.Text.Blank
import Codegen86.Text.Split
/-!
# Outlines of functions

The text of a program read line by line, before any name is looked up: functions with their parameters,
blocks with their statements, statements as a mnemonic and its operands.  Each part keeps its line.

A line is blank, opens or closes a function, labels a block, or holds a statement (`Line.of`).  What
follows a `;` is a comment.
-/

set_option autoImplicit false

namespace Codegen86.IR

open Text

/-- Letters, digits, `_` and `.`, of ASCII only. -/
def isNameChar (c : Char) : Bool := c.isAlphanum || c == '_' || c == '.'

def isName (cs : List Char) : Bool := !cs.isEmpty && cs.all isNameChar

/-- A value is written `%name`. -/
def valueName (line : Nat) (cs : List Char) : Except ParseError String :=
  match (dropFirst? '%' cs).filter isName with
  | some name => .ok (String.ofList name)
  | none => .error ⟨line, .expectedValue (String.ofList cs)⟩

structure Statement where
  line : Nat
  result : Option String
  mnemonic : String
  operands : List (List Char)
  deriving DecidableEq, Repr

structure BlockOutline where
  name : String
  line : Nat
  body : List Statement := []
  deriving DecidableEq, Repr

structure FunctionOutline where
  name : String
  line : Nat
  params : List String
  blocks : List BlockOutline := []
  deriving DecidableEq, Repr

/-- What a line of text is. -/
inductive Line where
  | blank
  | header (text : List Char)
  | close
  | label (name : List Char)
  | statement (text : List Char)
  deriving DecidableEq, Repr

def Line.of (raw : List Char) : Line :=
  let content := trim (raw.takeWhile (· != ';'))
  if content.isEmpty then .blank
  else
    match dropLead? ['f', 'n', ' '] content with
    | some text => .header text
    | none =>
      if content = ['\x7d'] then .close
      else
        match dropLast? ':' content with
        | some name => .label name
        | none => .statement content

/-- Spaces, commas and parentheses all separate operands. -/
def isSeparator (c : Char) : Bool := isBlank c || c == ',' || c == '(' || c == ')'

/-- A statement: a result and `=` if there is one, a mnemonic, and operands. -/
def Statement.read (line : Nat) (content : List Char) : Except ParseError Statement := do
  let (result, rest) ←
    match cutAt '=' content with
    | some (before, after) => do
      let name ← valueName line (trim before)
      pure (some name, after)
    | none => pure (none, content)
  match fields isSeparator rest with
  | [] => .error ⟨line, .noMnemonic⟩
  | mnemonic :: operands => .ok { line, result, mnemonic := String.ofList mnemonic, operands }

/-- Parameters are separated by commas; empty ones are skipped. -/
def readParams (line : Nat) (cs : List Char) : Except ParseError (List String) :=
  (((split (· == ',') cs).map trim).filter (fun p => !p.isEmpty)).mapM (valueName line)

/-- The part of a header behind `fn`: a name and parameters in parentheses before a brace. -/
def FunctionOutline.read (line : Nat) (text : List Char) : Except ParseError FunctionOutline :=
  match dropLast? '\x7b' (trim text) with
  | none => .error ⟨line, .noBrace⟩
  | some signature =>
    match cutAt '(' (trim signature) with
    | none => .error ⟨line, .noOpening⟩
    | some (before, after) =>
      match dropLast? ')' after with
      | none => .error ⟨line, .noClosing⟩
      | some params =>
        let name := trim before
        if isName name then do
          let params ← readParams line params
          pure { name := String.ofList name, line, params }
        else .error ⟨line, .functionName (String.ofList name)⟩

/-- Put a statement into the last block, if there is a block. -/
def FunctionOutline.addStatement? (f : FunctionOutline) (s : Statement) : Option FunctionOutline :=
  f.blocks.getLast?.map fun block =>
    { f with blocks := f.blocks.dropLast ++ [{ block with body := block.body ++ [s] }] }

/-- The functions read so far, and the one that is still open. -/
structure Reader where
  closed : List FunctionOutline := []
  opened : Option FunctionOutline := none
  deriving DecidableEq, Repr

namespace Reader

/-- Take in one line. -/
def feed (r : Reader) (line : Nat) : Line → Except ParseError Reader
  | .blank => .ok r
  | .header text =>
    if r.opened.isSome then .error ⟨line, .nestedFunction⟩
    else do
      let f ← FunctionOutline.read line text
      pure { r with opened := some f }
  | .close =>
    match r.opened with
    | none => .error ⟨line, .strayBrace⟩
    | some f => .ok { closed := r.closed ++ [f], opened := none }
  | .label name =>
    match r.opened with
    | none => .error ⟨line, .strayLabel⟩
    | some f =>
      if isName name then
        .ok { r with
          opened := some { f with blocks := f.blocks ++ [{ name := String.ofList name, line }] } }
      else .error ⟨line, .blockName (String.ofList name)⟩
  | .statement content => do
    let s ← Statement.read line content
    match r.opened.bind (·.addStatement? s) with
    | none => .error ⟨line, .strayInstruction⟩
    | some f => pure { r with opened := some f }

/-- Take in lines, numbered from `first` on. -/
def feedAll (r : Reader) (first : Nat) : List (List Char) → Except ParseError Reader
  | [] => .ok r
  | raw :: rest => do
    let r ← r.feed first (Line.of raw)
    r.feedAll (first + 1) rest

end Reader

/-- The outlines of all functions in a text. -/
def outline (text : List Char) : Except ParseError (List FunctionOutline) := do
  let all := lines text
  let r ← ({} : Reader).feedAll 1 all
  match r.opened with
  | some f => .error ⟨all.length, .unclosed f.name⟩
  | none => pure r.closed

end Codegen86.IR
