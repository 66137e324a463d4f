import Codegen86.Target.Program
/-!
# Empty blocks

An empty block that another block follows is removed, and labels that name it come to name the next
block that is kept.  The last block of a function is kept even if it is empty.
-/

set_option autoImplicit false

namespace Codegen86.Peephole

open Target

/-- The blocks that are kept, and for each removed one the kept one that stands in for it. -/
def compact : List Block → List Block × List (String × String)
  | [] => ([], [])
  | b :: rest =>
    match compact rest with
    | ([], renamed) => ([b], renamed)
    | (next :: kept, renamed) =>
      if b.code.isEmpty then (next :: kept, (b.name, next.name) :: renamed)
      else (b :: next :: kept, renamed)

/-- Blocks and instructions together. -/
def weight (blocks : List Block) : Nat := (blocks.flatMap (·.code)).length + blocks.length

theorem weight_cons (b : Block) (rest : List Block) :
    weight (b :: rest) = b.code.length + 1 + weight rest := by
  simp only [weight, List.flatMap_cons, List.length_append, List.length_cons]
  omega

theorem weight_append (xs ys : List Block) : weight (xs ++ ys) = weight xs + weight ys := by
  simp only [weight, List.flatMap_append, List.length_append]
  omega

/-- Removing blocks removes no instruction. -/
theorem weight_compact (blocks : List Block) :
    weight (compact blocks).1 + (compact blocks).2.length = weight blocks := by
  induction blocks with
  | nil => rfl
  | cons b rest ih =>
    rw [weight_cons b rest]
    unfold compact
    split
    · rename_i renamed eq
      simp only [eq] at ih
      simp only [weight_cons b []]
      omega
    · rename_i next kept renamed eq
      simp only [eq] at ih
      split
      · rename_i empty
        simp only [List.isEmpty_iff.mp empty, List.length_nil, List.length_cons]
        omega
      · simp only [weight_cons b (next :: kept)]
        omega

/-- Let the label at `ref` name the block that stands in for the one it names. -/
def renameRef (renamed : List (String × String)) (pool : Pool) (ref : OperandRef) : Pool :=
  match pool.get ref with
  | .label l =>
    match renamed.lookup l.name with
    | some name => pool.set ref (.symbol name)
    | none => pool
  | _ => pool

/-- Rename the labels of all jumps and calls of some blocks. -/
def renameLabels (renamed : List (String × String)) (pool : Pool) (blocks : List Block) : Pool :=
  ((blocks.flatMap (·.code)).filterMap Instruction.destination?).foldl (renameRef renamed) pool

end Codegen86.Peephole
