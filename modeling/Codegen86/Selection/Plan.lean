import Codegen86.Frame
import Codegen86.Selection.Placement
/-!
# Plans for lowering functions

What is decided about a function before its instructions are selected.

A comparison whose only use is the branch that ends its own block is *fused* with the branch.  Any other
comparison is *materialized*: it is computed by a jump and so ends a segment of its block.  Registers
hold values only within a segment.  A value that is read outside the segment that defines it *escapes*
and has a home slot in the frame; parameters and local variables have slots anyway.
-/

set_option autoImplicit false

namespace Codegen86.Selection

open IR

/-- The number of a block, and of a segment within it. -/
abbrev Segment := BlockId × Nat

/-- The comparison that is fused with the branch ending a block. -/
def fusedIn? (f : Function) (placement : Placement) (block : Block × BlockId) : Option ValueId :=
  match block.1.body.getLast?.bind f.op? with
  | some (.branch cond _ _) =>
    if f.isComparison cond && placement.lookup cond == some block.2 && (uses f).count cond == 1 then
      some cond
    else none
  | _ => none

/-- The fused comparisons of a function. -/
def fusedComparisons (f : Function) (placement : Placement) : List ValueId :=
  f.numbered.filterMap (fusedIn? f placement)

/-- Whether `v` is a comparison that is not fused. -/
def isMaterialized (f : Function) (fused : List ValueId) (v : ValueId) : Bool :=
  f.isComparison v && !fused.contains v

/-- The listed values with their segments, from segment `segment` on. -/
def segmentsFrom (f : Function) (fused : List ValueId) (id : BlockId) (segment : Nat) :
    List ValueId → List (ValueId × Segment)
  | [] => []
  | v :: rest =>
    (v, (id, segment)) ::
      segmentsFrom f fused id (if isMaterialized f fused v then segment + 1 else segment) rest

/-- The segments of all listed values. -/
def segments (f : Function) (fused : List ValueId) : List (ValueId × Segment) :=
  f.numbered.flatMap fun (block, id) => segmentsFrom f fused id 0 block.body

/-- What is read where the value `v` is computed.  A fused comparison is computed by its branch. -/
def readsAt (f : Function) (fused : List ValueId) (v : ValueId) : List ValueId :=
  if fused.contains v then []
  else
    match f.op? v with
    | some (.branch cond _ _) => if fused.contains cond then f.operandsOf cond else [cond]
    | some op => op.operands
    | none => []

/-- Whether a read of `v` in a segment makes it escape. -/
def escapesTo (f : Function) (fused : List ValueId) (defined : List (ValueId × Segment))
    (segment : Segment) (v : ValueId) : Bool :=
  match f.op? v with
  | some (.arg _) | some (.alloca _) => false
  | _ => isMaterialized f fused v || defined.lookup v != some segment

/-- The values that need a home: those that a read makes escape, and the materialized comparisons. -/
def escaping (f : Function) (fused : List ValueId) : List ValueId :=
  let defined := segments f fused
  defined.flatMap fun (v, segment) =>
    (readsAt f fused v).filter (escapesTo f fused defined segment) ++
      [v].filter (isMaterialized f fused)

/-- Reserve a slot for each value. -/
def reserveHomes (frame : Frame) : List ValueId → List (ValueId × Word) × Frame
  | [] => ([], frame)
  | v :: rest =>
    let (offset, frame) := frame.reserve
    let (homes, frame) := reserveHomes frame rest
    ((v, offset) :: homes, frame)

/-- The fused comparisons, the home slots, and the frame that holds them. -/
structure Plan where
  fused : List ValueId
  homes : List (ValueId × Word)
  frame : Frame
  deriving DecidableEq, Repr

/-- Homes are handed out in the order of value numbers. -/
def Plan.ofFunction (f : Function) : Except Defect Plan := do
  let placement ← placement f
  let fused := fusedComparisons f placement
  let escaping := escaping f fused
  let (homes, frame) := reserveHomes {} ((List.range f.values.size).filter escaping.contains)
  return { fused, homes, frame }

end Codegen86.Selection
