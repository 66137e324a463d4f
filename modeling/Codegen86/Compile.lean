import Codegen86.Allocation.Program
import Codegen86.Config
import Codegen86.Machine.Run
import Codegen86.Peephole.Optimize
import Codegen86.Selection.Program
/-!
# Compilation

A program of the intermediate language is selected, allocated, optimized if the configuration says so,
and assembled.  The first error of any stage is the outcome.
-/

set_option autoImplicit false

namespace Codegen86

open Target

/-- A program whose labels have addresses. -/
structure Assembled where
  program : Program
  layout : Layout
  deriving DecidableEq, Repr

/-- Call the entry function on a machine of the usual size. -/
def Assembled.run (a : Assembled) (args : List Word) : Machine.Run :=
  (Machine.load a.program a.layout).run args

/-- The optimizer, where it runs. -/
def optimizeIf (enabled : Bool) (p : Program) (journal : Journal) : Program × Journal :=
  if enabled then
    let (p, journal, _) := Peephole.optimize Peephole.Rule.all p journal
    (p, journal)
  else (p, journal)

/-- Compile a program, and tell what was done. -/
def compileWith (config : Config) (source : IR.Program) (journal : Journal) :
    Except Error (Assembled × Journal) := do
  config.validate
  let (p, journal) ← Selection.select source config.entry journal
  let (p, journal) ← p.allocate config.registers journal
  let (p, journal) := optimizeIf config.optimize p journal
  let (program, layout) ← p.assemble
  return ({ program, layout }, journal)

/-- Compile a program. -/
def compile (config : Config) (source : IR.Program) : Except Error Assembled := do
  return (← compileWith config source {}).1

end Codegen86
