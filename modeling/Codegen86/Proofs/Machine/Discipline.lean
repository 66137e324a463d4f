import Codegen86.Machine.Run
import Codegen86.Proofs.Symbolic.Code
/-!
# Words that calls have stored

Which cells of memory hold a return address, the sentinel included, while a program runs: a call stores
one, and any other instruction that writes a cell replaces it.  A run is disciplined if every return pops
such a word and no other instruction reads one.
-/

set_option autoImplicit false

namespace Codegen86.Machine

open Target

/-- The cells that hold a return address. -/
abbrev Marks := Nat → Bool

/-- The marks when something else is stored in a cell. -/
def Marks.clear (marks : Marks) (cell : Option Nat) : Marks :=
  fun i => if cell = some i then false else marks i

/-- The marks when a call stores its return address in a cell. -/
def Marks.set (marks : Marks) (cell : Option Nat) : Marks :=
  fun i => if cell = some i then true else marks i

namespace State

/-- Whether there is a cell does not depend on where a fault would be reported. -/
theorem address_pc (s : State) (pc pc' : Nat) (base : Register)
    (offset : Word) : (s.address pc base offset).toOption = (s.address pc' base offset).toOption := by
  unfold State.address
  cases base with
  | physical i =>
    unfold State.register
    dsimp only
    split
    · simp only [bind, Except.bind]
      split <;> rfl
    · rfl
  | abstract i => rfl
  | _ =>
    simp only [State.register, bind, Except.bind]
    split <;> rfl

/-- The cell that an operand is, if it is one. -/
def cell? (s : State) : Operand → Option Nat
  | .mem base offset => (s.address 0 base offset).toOption
  | _ => none

/-- The cell that is popped next. -/
def top? (s : State) : Option Nat := s.stackPointer.index? s.memory.size

/-- The cell that is pushed to next. -/
def next? (s : State) : Option Nat := (s.stackPointer - 1).index? s.memory.size

end State

variable (m : Machine)

/-- The cells that an instruction reads, but for the return address of a return. -/
def cellsRead (s : State) (i : Instruction) : List Nat :=
  let operands := (i.sources ++ i.destination?.toList).filterMap fun x => s.cell? (m.pool.get x)
  match i with
  | .pop _ => s.top?.toList ++ operands
  | _ => operands

/-- The cells that hold a return address after an instruction. -/
def marksAfter (s : State) (marks : Marks) : Instruction → Marks
  | .call _ => marks.set s.next?
  | .push _ => marks.clear s.next?
  | .pop x => marks.clear ({ s with stackPointer := s.stackPointer + 1 }.cell? (m.pool.get x))
  | .mov x _ | .arith _ x _ => marks.clear (s.cell? (m.pool.get x))
  | _ => marks

/-- Whether an instruction treats return addresses as it should. -/
def Respects (s : State) (marks : Marks) (i : Instruction) : Prop :=
  match i with
  | .ret => ∀ cell, s.top? = some cell → marks cell = true
  | _ => ∀ cell ∈ m.cellsRead s i, marks cell = false

/-- The next instructions from `s`, up to `fuel`, all treat return addresses as they should. -/
def Disciplined : Nat → State → Marks → Prop
  | 0, _, _ => True
  | fuel + 1, s, marks =>
    ∀ i, m.code[s.pc]? = some i →
      m.Respects s marks i ∧
        ∀ next, m.step s = .ok (.next next) → Disciplined fuel next (m.marksAfter s marks i)

/-- The whole run on `args` treats return addresses, and the sentinel, as it should. -/
def DisciplinedRun (args : List Word) : Prop :=
  ∀ s, m.start args = .ok s →
    m.Disciplined m.limit s fun cell => s.top? = some cell

/-! ## Checking a run -/

variable {m}

instance (s : State) (marks : Marks) (i : Instruction) : Decidable (m.Respects s marks i) :=
  match i with
  | .ret =>
    match h : s.top? with
    | none => isTrue fun cell top => by rw [h] at top; cases top
    | some cell => decidable_of_iff (marks cell = true) (by simp [Respects, h])
  | .nop | .halt | .push _ | .pop _ | .mov _ _ | .arith _ _ _ | .cmp _ _ | .jump _ | .jumpIf _ _
  | .call _ => inferInstanceAs (Decidable (∀ cell ∈ m.cellsRead s _, marks cell = false))

variable (m) in
/-- Whether the next instructions treat return addresses as they should. -/
def disciplined : Nat → State → Marks → Bool
  | 0, _, _ => true
  | fuel + 1, s, marks =>
    match m.code[s.pc]? with
    | none => true
    | some i => decide (m.Respects s marks i) &&
      match m.step s with
      | .ok (.next next) => disciplined fuel next (m.marksAfter s marks i)
      | _ => true

theorem disciplined_iff {fuel : Nat} {s : State} {marks : Marks} :
    m.disciplined fuel s marks = true ↔ m.Disciplined fuel s marks := by
  induction fuel generalizing s marks with
  | zero => simp [disciplined, Disciplined]
  | succ fuel ih =>
    rw [disciplined, Disciplined]
    cases m.code[s.pc]? with
    | none => simp
    | some i =>
      simp only [Option.some.injEq, forall_eq', Bool.and_eq_true, decide_eq_true_eq]
      cases m.step s with
      | error f => simp
      | ok r => cases r <;> simp [ih]

instance (fuel : Nat) (s : State) (marks : Marks) : Decidable (m.Disciplined fuel s marks) :=
  decidable_of_iff _ disciplined_iff

instance (args : List Word) : Decidable (m.DisciplinedRun args) :=
  match h : m.start args with
  | .error _ => isTrue fun s start => by rw [h] at start; cases start
  | .ok s => decidable_of_iff (m.Disciplined m.limit s fun cell => s.top? = some cell)
      (by simp [DisciplinedRun, h])

end Codegen86.Machine
