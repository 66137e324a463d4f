import Codegen86.IR.Function
/-!
# What programs of the intermediate language compute

Every call of a function has an activation of its own, which holds the values that were computed in it
and a cell for each local variable.  What an activation computes is evaluated operation by operation and
block by block; it has no outcome (`none`) if it reads a value or a cell that was not computed before,
or the value of a call that returned none, or if it meets what is not part of the language's integer
fragment.

`Program.call` is the reference for the compiler.  Its two numbers bound the depth of calls and the
blocks of each activation; they do not matter to an outcome once there is one (`call_mono`,
`call_unique`).
-/

set_option autoImplicit false

namespace Codegen86.IR

/-- How a call ends. -/
inductive Result where
  | value (w : Word)
  | nothing
  | divisionByZero
  deriving DecidableEq, Repr

/-- What calls of functions come to. -/
abbrev Calls := String → List Word → Option Result

/-- The values computed so far, and the contents of the local variables. -/
structure Activation where
  values : ValueId → Option Word
  cells : ValueId → Option Word

/-- What an operation leads to. -/
inductive Outcome where
  | next (a : Activation)
  | goto (target : BlockId) (a : Activation)
  | ended (r : Result)

/-- The word of a truth value. -/
def truth (b : Bool) : Word := if b then 1 else 0

namespace Activation

/-- Parameters have values, and nothing was computed yet. -/
def start (f : Function) (args : List Word) : Activation where
  values v :=
    match f.op? v with
    | some (.arg i) => args[i]?
    | _ => none
  cells _ := none

/-- The value of `v` is computed anew; `none` if the operation has no value. -/
def define (a : Activation) (v : ValueId) (w : Option Word) : Activation :=
  { a with values := fun x => if x = v then w else a.values x }

/-- A local variable begins to exist, with contents zero. -/
def allocate (a : Activation) (v : ValueId) : Activation :=
  { a with cells := fun x => if x = v then some 0 else a.cells x }

/-- Change the contents of a local variable, if it exists. -/
def store (a : Activation) (v : ValueId) (w : Word) : Activation :=
  { a with cells := fun x => if x = v then (a.cells x).map fun _ => w else a.cells x }

/-- What follows a call. -/
def returned (a : Activation) (v : ValueId) : Result → Outcome
  | .value w => .next (a.define v (some w))
  | .nothing => .next (a.define v none)
  | .divisionByZero => .ended .divisionByZero

/-- Evaluate the operation of the value `v`. -/
def operation (calls : Calls) (f : Function) (a : Activation) (v : ValueId) : Option Outcome := do
  match ← f.op? v with
  | .arg _ => return .next a
  | .imm w => return .next (a.define v (some w))
  | .float _ | .symbol _ => none
  | .alloca _ => return .next (a.allocate v)
  | .load addr => return .next (a.define v (some (← a.cells addr)))
  | .store addr value => return .next (a.store addr (← a.values value))
  | .binary (.arith op) lhs rhs =>
    match op.eval (← a.values lhs) (← a.values rhs) with
    | some w => return .next (a.define v (some w))
    | none => return .ended .divisionByZero
  | .binary (.compare op) lhs rhs =>
    return .next (a.define v (some (truth (op.holds (compare (← a.values lhs) (← a.values rhs))))))
  | .call (.direct name) args => return a.returned v (← calls name (← args.mapM a.values))
  | .call (.indirect _) _ => none
  | .branch cond onTrue onFalse => return .goto (if (← a.values cond) = 0 then onFalse else onTrue) a
  | .jump target => return .goto target a
  | .ret => return .ended .nothing
  | .retValue value => return .ended (.value (← a.values value))

/-- Evaluate operations one after another, up to the first that transfers control. -/
def operations (calls : Calls) (f : Function) (a : Activation) : List ValueId → Option Outcome
  | [] => some (.next a)
  | v :: rest => do
    match ← a.operation calls f v with
    | .next a => operations calls f a rest
    | other => return other

/-- Evaluate the block `id` and the blocks that follow it. -/
def blocks (calls : Calls) (f : Function) : Nat → BlockId → Activation → Option Result
  | 0, _, _ => none
  | fuel + 1, id, a => do
    let block ← f.blocks[id]?
    match ← a.operations calls f block.body with
    | .next _ => none
    | .goto target a => blocks calls f fuel target a
    | .ended r => return r

end Activation

/-- Call a function of a program: calls are nested less than `depth` deep, and no activation evaluates
more than `fuel` blocks. -/
def Program.call (p : Program) (fuel : Nat) : Nat → Calls
  | 0 => fun _ _ => none
  | depth + 1 => fun name args => do
    let f ← p.function? name
    Activation.blocks (p.call fuel depth) f fuel 0 (.start f args)

/-! ## The bounds do not matter -/

/-- `calls'` knows what `calls` knows. -/
def Calls.Within (calls calls' : Calls) : Prop :=
  ∀ name args r, calls name args = some r → calls' name args = some r

namespace Activation

variable {calls calls' : Calls} {f : Function}

theorem operation_mono (more : calls.Within calls') {a : Activation} {v : ValueId} {o : Outcome}
    (h : a.operation calls f v = some o) : a.operation calls' f v = some o := by
  unfold operation at h ⊢
  obtain ⟨op, found, h⟩ := Option.bind_eq_some_iff.mp h
  rw [found]
  dsimp only [bind, Option.bind]
  match op with
  | .call (.direct name) args =>
    obtain ⟨words, read, h⟩ := Option.bind_eq_some_iff.mp h
    obtain ⟨r, known, h⟩ := Option.bind_eq_some_iff.mp h
    exact Option.bind_eq_some_iff.mpr
      ⟨words, read, Option.bind_eq_some_iff.mpr ⟨r, more name words r known, h⟩⟩
  | .arg _ | .imm _ | .float _ | .symbol _ | .alloca _ | .load _ | .store _ _
  | .binary (.arith _) _ _ | .binary (.compare _) _ _ | .call (.indirect _) _
  | .branch _ _ _ | .jump _ | .ret | .retValue _ => exact h

theorem operations_mono (more : calls.Within calls') {body : List ValueId} {a : Activation}
    {o : Outcome} (h : a.operations calls f body = some o) :
    a.operations calls' f body = some o := by
  induction body generalizing a with
  | nil => exact h
  | cons v rest ih =>
    rw [operations] at h ⊢
    obtain ⟨first, evaluated, h⟩ := Option.bind_eq_some_iff.mp h
    rw [operation_mono more evaluated]
    cases first with
    | next a => exact ih h
    | _ => exact h

theorem blocks_mono (more : calls.Within calls') {fuel fuel' : Nat} (le : fuel ≤ fuel') {id : BlockId}
    {a : Activation} {r : Result} (h : blocks calls f fuel id a = some r) :
    blocks calls' f fuel' id a = some r := by
  induction fuel generalizing fuel' id a with
  | zero => cases h
  | succ fuel ih =>
    obtain ⟨fuel', rfl⟩ : ∃ n, fuel' = n + 1 := ⟨fuel' - 1, by omega⟩
    rw [blocks] at h ⊢
    obtain ⟨block, found, h⟩ := Option.bind_eq_some_iff.mp h
    obtain ⟨o, evaluated, h⟩ := Option.bind_eq_some_iff.mp h
    rw [found]
    dsimp only [bind, Option.bind]
    rw [operations_mono more evaluated]
    cases o with
    | next a => cases h
    | goto target a => exact ih (by omega) h
    | ended r => exact h

end Activation

namespace Program

variable {p : Program} {fuel fuel' depth depth' : Nat}

/-- Higher bounds keep an outcome. -/
theorem call_mono (fuels : fuel ≤ fuel') (depths : depth ≤ depth') :
    Calls.Within (p.call fuel depth) (p.call fuel' depth') := by
  induction depth generalizing depth' with
  | zero =>
    intro name args r h
    cases h
  | succ depth ih =>
    obtain ⟨depth', rfl⟩ : ∃ n, depth' = n + 1 := ⟨depth' - 1, by omega⟩
    intro name args r h
    obtain ⟨f, found, h⟩ := Option.bind_eq_some_iff.mp h
    exact Option.bind_eq_some_iff.mpr ⟨f, found, Activation.blocks_mono (ih (by omega)) fuels h⟩

/-- A call has one outcome. -/
theorem call_unique {name : String} {args : List Word} {r r' : Result}
    (h : p.call fuel depth name args = some r) (h' : p.call fuel' depth' name args = some r') :
    r = r' := by
  have high := call_mono (Nat.le_max_left fuel fuel') (Nat.le_max_left depth depth') name args r h
  have high' := call_mono (Nat.le_max_right fuel fuel') (Nat.le_max_right depth depth') name args r' h'
  exact Option.some.inj (high.symm.trans high')

end Program

/-! ## Calls that end -/

/-- What is known of calls, without those that divide by zero. -/
def Calls.whole (calls : Calls) : Calls := fun name args => (calls name args).filter (· ≠ .divisionByZero)

theorem Calls.whole_eq_some {calls : Calls} {name : String} {args : List Word} {r : Result} :
    calls.whole name args = some r ↔ calls name args = some r ∧ r ≠ .divisionByZero := by
  simp [whole, Option.filter_eq_some_iff]

namespace Activation

variable {calls : Calls} {f : Function}

theorem operation_whole {a : Activation} {v : ValueId} {o : Outcome} (h : a.operation calls f v = some o)
    (defined : o ≠ .ended .divisionByZero) : a.operation calls.whole f v = some o := by
  unfold operation at h ⊢
  obtain ⟨op, found, h⟩ := Option.bind_eq_some_iff.mp h
  rw [found]
  dsimp only [bind, Option.bind]
  match op with
  | .call (.direct name) args =>
    obtain ⟨words, read, h⟩ := Option.bind_eq_some_iff.mp h
    obtain ⟨r, known, h⟩ := Option.bind_eq_some_iff.mp h
    obtain rfl := Option.some.inj h
    have whole : calls.whole name words = some r := by
      refine Calls.whole_eq_some.mpr ⟨known, ?_⟩
      rintro rfl
      exact defined rfl
    exact Option.bind_eq_some_iff.mpr ⟨words, read, Option.bind_eq_some_iff.mpr ⟨r, whole, rfl⟩⟩
  | .arg _ | .imm _ | .float _ | .symbol _ | .alloca _ | .load _ | .store _ _
  | .binary (.arith _) _ _ | .binary (.compare _) _ _ | .call (.indirect _) _
  | .branch _ _ _ | .jump _ | .ret | .retValue _ => exact h

theorem operations_whole {body : List ValueId} {a : Activation} {o : Outcome}
    (h : a.operations calls f body = some o) (defined : o ≠ .ended .divisionByZero) :
    a.operations calls.whole f body = some o := by
  induction body generalizing a with
  | nil => exact h
  | cons v rest ih =>
    rw [operations] at h ⊢
    obtain ⟨first, evaluated, h⟩ := Option.bind_eq_some_iff.mp h
    have whole : first ≠ .ended .divisionByZero → a.operation calls.whole f v = some first :=
      operation_whole evaluated
    cases first with
    | next a =>
      rw [whole nofun]
      exact ih h
    | goto target a =>
      rw [whole nofun]
      exact h
    | ended r =>
      obtain rfl := Option.some.inj h
      rw [whole defined]
      rfl

/-- An activation that does not divide by zero has no call that does. -/
theorem blocks_whole {fuel : Nat} {id : BlockId} {a : Activation} {r : Result} (h : blocks calls f fuel id a = some r)
    (defined : r ≠ .divisionByZero) : blocks calls.whole f fuel id a = some r := by
  induction fuel generalizing id a with
  | zero => cases h
  | succ fuel ih =>
    rw [blocks] at h ⊢
    obtain ⟨block, found, h⟩ := Option.bind_eq_some_iff.mp h
    obtain ⟨o, evaluated, h⟩ := Option.bind_eq_some_iff.mp h
    rw [found]
    dsimp only [bind, Option.bind]
    cases o with
    | next a => cases h
    | goto target a =>
      rw [operations_whole evaluated nofun]
      exact ih h
    | ended r' =>
      obtain rfl := Option.some.inj h
      rw [operations_whole evaluated fun same => defined (Outcome.ended.inj same)]
      rfl

end Activation

end Codegen86.IR
