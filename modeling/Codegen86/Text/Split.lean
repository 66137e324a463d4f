/-!
# Cutting text

Cutting a text at separators, at the first occurrence of a character, and into lines.  Pieces hold no separator.
-/

set_option autoImplicit false

namespace Codegen86.Text

/-- Put a character in front of the first piece. -/
def consFirst (c : Char) : List (List Char) → List (List Char)
  | [] => [[c]]
  | piece :: pieces => (c :: piece) :: pieces

/-- The pieces between separators; a text with `n` separators has `n + 1` pieces. -/
def split (separator : Char → Bool) (cs : List Char) : List (List Char) :=
  cs.foldr (fun c pieces => if separator c then [] :: pieces else consFirst c pieces) [[]]

@[simp] theorem split_nil (separator : Char → Bool) : split separator [] = [[]] := rfl

theorem split_cons (separator : Char → Bool) (c : Char) (cs : List Char) :
    split separator (c :: cs) =
      if separator c then [] :: split separator cs else consFirst c (split separator cs) := rfl

/-- The nonempty pieces between separators. -/
def fields (separator : Char → Bool) (cs : List Char) : List (List Char) :=
  (split separator cs).filter (fun piece => !piece.isEmpty)

/-- What stands before and after the first `c`, if there is one. -/
def cutAt (c : Char) (cs : List Char) : Option (List Char × List Char) :=
  match cs.dropWhile (· != c) with
  | [] => none
  | _ :: after => some (cs.takeWhile (· != c), after)

/-- The text without its first character, if that is `c`. -/
def dropFirst? (c : Char) : List Char → Option (List Char)
  | [] => none
  | d :: rest => if d = c then some rest else none

/-- The text without its last character, if that is `c`. -/
def dropLast? (c : Char) (cs : List Char) : Option (List Char) :=
  if cs.getLast? = some c then some cs.dropLast else none

/-- The text without `lead`, if it begins so. -/
def dropLead? : List Char → List Char → Option (List Char)
  | [], cs => some cs
  | _ :: _, [] => none
  | l :: lead, c :: cs => if l = c then dropLead? lead cs else none

/-- The lines of a text.  A line feed ends a line, so the last piece is a line only if it is not
empty. -/
def lines (cs : List Char) : List (List Char) :=
  let pieces := split (· == '\n') cs
  if pieces.getLast? = some [] then pieces.dropLast else pieces

end Codegen86.Text
