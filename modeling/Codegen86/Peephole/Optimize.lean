import Codegen86.Journal
import Codegen86.Peephole.EmptyBlocks
import Codegen86.Peephole.Rule
/-!
# Peephole optimization

A pass goes through the instructions of every block, tries the rules at each, and stays where it is as
long as one applies; then it removes empty blocks.  Passes are repeated until one changes nothing.  Each
pass that changes something leaves fewer instructions and blocks (`weight_passFunction`), so the passes
end.
-/

set_option autoImplicit false

namespace Codegen86.Peephole

open Target

/-- What is left of a block, and the rules that applied, in order. -/
def passCode (rules : List Rule) (pool : Pool) (next : Option String) (code : List Instruction) :
    List Instruction × List Rule :=
  match h : Rule.first? rules pool next code with
  | some (rule, rest) =>
    have := Rule.length_of_shrink? (Rule.shrink?_of_first? h).2
    let (out, applied) := passCode rules pool next rest
    (out, rule :: applied)
  | none =>
    match code with
    | [] => ([], [])
    | i :: rest =>
      let (out, applied) := passCode rules pool next rest
      (i :: out, applied)
termination_by code.length

/-- Every rule that applied dropped one instruction. -/
theorem length_passCode (rules : List Rule) (pool : Pool) (next : Option String)
    (code : List Instruction) :
    (passCode rules pool next code).1.length + (passCode rules pool next code).2.length =
      code.length := by
  fun_induction passCode rules pool next code with
  | case1 code rule rest _ shorter out applied eq ih =>
    simp only [eq] at ih
    simp only [List.length_cons]
    omega
  | case2 => rfl
  | case3 i rest _ out applied eq ih =>
    simp only [eq] at ih
    simp only [List.length_cons]
    omega

/-- The block that control falls into in front of some blocks.  An empty last block does not count,
for falling into it leaves the function. -/
def fallsInto : List Block → Option String
  | [] => none
  | [b] => if b.code.isEmpty then none else some b.name
  | b :: _ => some b.name

/-- A pass over blocks. -/
def passBlocks (rules : List Rule) (pool : Pool) : List Block → List Block × List Rule
  | [] => ([], [])
  | b :: rest =>
    let (code, applied) := passCode rules pool (fallsInto rest) b.code
    let (blocks, more) := passBlocks rules pool rest
    ({ b with code } :: blocks, applied ++ more)

theorem weight_passBlocks (rules : List Rule) (pool : Pool) (blocks : List Block) :
    weight (passBlocks rules pool blocks).1 + (passBlocks rules pool blocks).2.length =
      weight blocks := by
  induction blocks with
  | nil => rfl
  | cons b rest ih =>
    have := length_passCode rules pool (fallsInto rest) b.code
    simp only [passBlocks, weight_cons, List.length_append]
    omega

/-- The outcome of a pass: its result, the pool, the rules that applied, and how many blocks were
removed. -/
structure Pass (α : Type) where
  result : α
  pool : Pool
  applied : List Rule
  blocks : Nat

/-- Whether the pass changed anything. -/
def Pass.changed {α : Type} (p : Pass α) : Bool := !p.applied.isEmpty || p.blocks != 0

/-- A pass over a function. -/
def passFunction (rules : List Rule) (pool : Pool) (f : Function) : Pass Function :=
  let (blocks, applied) := passBlocks rules pool f.blocks
  let (blocks, renamed) := compact blocks
  { result := { f with blocks }
    pool := renameLabels renamed pool blocks
    applied
    blocks := renamed.length }

theorem weight_passFunction (rules : List Rule) (pool : Pool) (f : Function) :
    weight (passFunction rules pool f).result.blocks + (passFunction rules pool f).applied.length +
      (passFunction rules pool f).blocks = weight f.blocks := by
  have code := weight_passBlocks rules pool f.blocks
  have blocks := weight_compact (passBlocks rules pool f.blocks).1
  simp only [passFunction]
  omega

/-- A pass over functions, one after another. -/
def passFunctions (rules : List Rule) (pool : Pool) : List Function → Pass (List Function)
  | [] => { result := [], pool, applied := [], blocks := 0 }
  | f :: rest =>
    let p := passFunction rules pool f
    let q := passFunctions rules p.pool rest
    { result := p.result :: q.result
      pool := q.pool
      applied := p.applied ++ q.applied
      blocks := p.blocks + q.blocks }

/-- Blocks and instructions of all functions together. -/
def totalWeight (functions : List Function) : Nat := weight (functions.flatMap (·.blocks))

theorem weight_passFunctions (rules : List Rule) (pool : Pool) (functions : List Function) :
    totalWeight (passFunctions rules pool functions).result +
      (passFunctions rules pool functions).applied.length +
      (passFunctions rules pool functions).blocks = totalWeight functions := by
  induction functions generalizing pool with
  | nil => rfl
  | cons f rest ih =>
    have first := weight_passFunction rules pool f
    have others := ih (passFunction rules pool f).pool
    simp only [totalWeight] at others
    simp only [passFunctions, totalWeight, List.flatMap_cons, weight_append, List.length_append]
    omega

/-- A pass over a program. -/
def passProgram (rules : List Rule) (p : Program) : Pass Program :=
  let pass := passFunctions rules p.pool p.functions
  { pass with result := { p with functions := pass.result, pool := pass.pool } }

/-- A pass that changes a program makes it smaller. -/
theorem weight_lt_of_changed {rules : List Rule} {p : Program}
    (h : (passProgram rules p).changed = true) :
    totalWeight (passProgram rules p).result.functions < totalWeight p.functions := by
  have total := weight_passFunctions rules p.pool p.functions
  simp only [Pass.changed, passProgram, Bool.or_eq_true, Bool.not_eq_eq_eq_not, Bool.not_true,
    List.isEmpty_eq_false_iff, bne_iff_ne, ne_eq, ← List.length_eq_zero_iff] at h ⊢
  omega

/-- Note the rules that applied in a journal. -/
def record (journal : Journal) (applied : List Rule) : Journal :=
  applied.foldl (fun journal rule => journal.recordRemoval rule.name) journal

/-- Repeat passes until one changes nothing; tells whether any did. -/
def optimize (rules : List Rule) (p : Program) (journal : Journal) : Program × Journal × Bool :=
  let pass := passProgram rules p
  let journal := record journal pass.applied
  if h : pass.changed then
    have := weight_lt_of_changed h
    let (p, journal, _) := optimize rules pass.result journal
    (p, journal, true)
  else (pass.result, journal, false)
termination_by totalWeight p.functions

end Codegen86.Peephole
