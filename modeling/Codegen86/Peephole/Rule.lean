import Codegen86.Target.Instruction
/-!
# Peephole rules

Each rule looks at the first instruction or two of what is left of a block and may drop one of them.
Arithmetic does not touch the flags, so that adding zero can be dropped like any other instruction
without effect.
-/

set_option autoImplicit false

namespace Codegen86.Peephole

open Target

inductive Rule where
  /-- Adding or subtracting zero. -/
  | zeroArithmetic
  | nop
  /-- A move to its own source. -/
  | selfCopy
  /-- A move whose target the next move overwrites without reading it. -/
  | deadStore
  /-- A move back right after the move there. -/
  | roundTrip
  /-- A jump at the end of a block to the block that follows. -/
  | fallThrough
  deriving DecidableEq, Repr

namespace Rule

/-- All rules, in the order they are tried. -/
def all : List Rule := [zeroArithmetic, nop, selfCopy, deadStore, roundTrip, fallThrough]

def name : Rule → String
  | zeroArithmetic => "zero-arithmetic"
  | nop => "nop"
  | selfCopy => "self-copy"
  | deadStore => "dead-store"
  | roundTrip => "round-trip"
  | fallThrough => "fall-through"

def ofName? (text : String) : Option Rule := all.find? (·.name == text)

/-- Whether evaluating an operand shows what was stored at `location`. -/
def readsLocation (operand location : Operand) : Bool :=
  match location with
  | .reg r => operand.mentions r
  | _ => operand == location

/-- Whether moving `source` to `target` changes the address that `source` stands for. -/
def movesAddress (target source : Operand) : Bool :=
  match target with
  | .reg r => source.isMemory && source.mentions r
  | _ => false

/-- What the rule leaves of the rest of a block; `next` is the block that control falls into at its
end. -/
def shrink? (pool : Pool) (next : Option String) (rule : Rule) (code : List Instruction) :
    Option (List Instruction) :=
  match rule, code with
  | zeroArithmetic, .arith .add _ y :: rest | zeroArithmetic, .arith .sub _ y :: rest =>
    if pool.get y = .imm 0 then some rest else none
  | nop, .nop :: rest => some rest
  | selfCopy, .mov x y :: rest => if pool.get x = pool.get y then some rest else none
  | deadStore, .mov x _ :: .mov z w :: rest =>
    if pool.get x = pool.get z ∧ readsLocation (pool.get w) (pool.get x) = false then
      some (.mov z w :: rest)
    else none
  | roundTrip, .mov x y :: .mov z w :: rest =>
    if pool.get x = pool.get w ∧ pool.get y = pool.get z ∧
        movesAddress (pool.get x) (pool.get y) = false then
      some (.mov x y :: rest)
    else none
  | fallThrough, [.jump x] =>
    match pool.get x with
    | .label l => if l.address = none ∧ some l.name = next then some [] else none
    | _ => none
  | _, _ => none

/-- A rule that applies drops exactly one instruction. -/
theorem length_of_shrink? {pool : Pool} {next : Option String} {rule : Rule}
    {code rest : List Instruction} (h : rule.shrink? pool next code = some rest) :
    rest.length + 1 = code.length := by
  unfold shrink? at h
  split at h
  all_goals try (split at h)
  all_goals try (split at h)
  all_goals simp_all
  all_goals (subst h; rfl)

/-- The first rule of a list that applies, and what it leaves. -/
def first? (rules : List Rule) (pool : Pool) (next : Option String) (code : List Instruction) :
    Option (Rule × List Instruction) :=
  rules.findSome? fun rule => (rule.shrink? pool next code).map fun rest => (rule, rest)

theorem shrink?_of_first? {rules : List Rule} {pool : Pool} {next : Option String}
    {code rest : List Instruction} {rule : Rule}
    (h : first? rules pool next code = some (rule, rest)) :
    rule ∈ rules ∧ rule.shrink? pool next code = some rest := by
  obtain ⟨r, mem, hit⟩ := List.exists_of_findSome?_eq_some h
  obtain ⟨_, applied, same⟩ := Option.map_eq_some_iff.mp hit
  cases same
  exact ⟨mem, applied⟩

end Rule

end Codegen86.Peephole
