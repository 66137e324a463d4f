import Codegen86.Text.Split
/-!
# Files by path

Directories and texts that are named by paths, and reading the text that a path names.

A path is walked name by name, from the root if it begins with `/` and else from the working directory.
An empty name and `.` stay where they are, `..` goes up, and nothing lies above the root.  Every name is
looked up in a directory, so an empty name behind the last `/` asks for one too.  Sizes are counted in
bytes: a name that is too long is refused when it is looked up (`step_eq_nameTooLong_iff`), a path that
is too long before anything is.
-/

set_option autoImplicit false

namespace Codegen86

/-- Why a text cannot be read. -/
inductive ReadError where
  | notFound
  | notADirectory
  | isADirectory
  | nameTooLong
  | notText
  /-- A reason that only the system knows. -/
  | system (reason : String)
  deriving DecidableEq, Repr

namespace ReadError

/-- The number that the system gives to an error. -/
def code? : ReadError → Option Nat
  | notFound => some 2
  | notADirectory => some 20
  | isADirectory => some 21
  | nameTooLong => some 36
  | notText | system _ => none

def ofCode? (code : Nat) : Option ReadError :=
  [notFound, notADirectory, isADirectory, nameTooLong].find? (·.code? == some code)

theorem ofCode?_of_code? {e : ReadError} {code : Nat} (h : e.code? = some code) :
    ofCode? code = some e := by
  cases e <;> cases h <;> rfl

def reason : ReadError → String
  | notFound => "No such file or directory"
  | notADirectory => "Not a directory"
  | isADirectory => "Is a directory"
  | nameTooLong => "File name too long"
  | notText => "stream did not contain valid UTF-8"
  | system reason => reason

def message (e : ReadError) : String :=
  match e.code? with
  | some code => e.reason ++ " (os error " ++ toString code ++ ")"
  | none => e.reason

end ReadError

/-- What a path can name. -/
inductive Node where
  | directory
  | text (content : String)
  deriving DecidableEq, Repr

/-- A place is the list of names that lead to it from the root. -/
structure Files where
  nodes : List (List String × Node) := []
  workingDirectory : List String := []
  deriving DecidableEq, Repr

namespace Files

/-- Bytes that a name can have. -/
def longestName : Nat := 255

/-- Bytes that a path can have; with its end mark they fill a page. -/
def longestPath : Nat := 4095

/-- What is at a place; the root is always there. -/
def node? (files : Files) (place : List String) : Option Node :=
  if place.isEmpty then some .directory else files.nodes.lookup place

/-- The place that a name leads to. -/
def step (files : Files) (place : List String) (name : String) :
    Except ReadError (List String) :=
  match files.node? place with
  | none => .error .notFound
  | some (.text _) => .error .notADirectory
  | some .directory =>
    if name = "" ∨ name = "." then .ok place
    else if name = ".." then .ok place.dropLast
    else if longestName < name.utf8ByteSize then .error .nameTooLong
    else if (files.node? (place ++ [name])).isSome then .ok (place ++ [name])
    else .error .notFound

/-- A name is too long only where it is looked up, in a directory. -/
theorem step_eq_nameTooLong_iff {files : Files} {place : List String} {name : String} :
    files.step place name = .error .nameTooLong ↔
      files.node? place = some .directory ∧ longestName < name.utf8ByteSize := by
  unfold step
  split
  · simp_all
  · simp_all
  · rename_i here
    rw [here]
    by_cases long : longestName < name.utf8ByteSize
    · have named : ¬(name = "" ∨ name = ".") := by
        rintro (rfl | rfl) <;> exact absurd long (by decide)
      have below : ¬name = ".." := by
        rintro rfl
        exact absurd long (by decide)
      rw [if_neg named, if_neg below, if_pos long]
      exact iff_of_true rfl ⟨rfl, long⟩
    · refine iff_of_false (fun h => ?_) fun h => long h.2
      rw [if_neg long] at h
      split at h
      · cases h
      · split at h
        · cases h
        · split at h <;> cases h

/-- The place that a path leads to. -/
def walk (files : Files) (path : String) : Except ReadError (List String) :=
  let names := (Text.split (· == '/') path.toList).map String.ofList
  let start := if path.toList.head? = some '/' then [] else files.workingDirectory
  names.foldlM files.step start

/-- The text that a path names. -/
def read (files : Files) (path : String) : Except ReadError String :=
  if path.isEmpty then .error .notFound
  else if longestPath < path.utf8ByteSize then .error .nameTooLong
  else do
    match files.node? (← files.walk path) with
    | none => .error .notFound
    | some .directory => .error .isADirectory
    | some (.text content) => .ok content

end Files

end Codegen86
