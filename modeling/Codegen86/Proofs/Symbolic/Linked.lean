import Codegen86.Machine.Run
import Codegen86.Proofs.Symbolic.Code
/-!
# Linked programs

A linked program is the code of all its functions in one list, with the addresses that its labels lead
to.  It runs on symbolic states.  A call stores a word for the address behind it; which word is left
open (`word`), so that what a program computes can be shown not to depend on its addresses.  What a
return does depends on what calls have stored, of which a position keeps a record (`points`): the
word that a return pops has to be one that a call stored, and control goes behind that call, with the
abstract registers that the caller had.

`stuck` says that there is no such call, or that control leaves the code.
-/

set_option autoImplicit false

namespace Codegen86.Symbolic

open Target Machine

/-- Where a return goes: out of the program, or behind a call, with the caller's abstract registers. -/
inductive Point where
  | out
  | back (pc : Nat) (locals : Nat → Word)

/-- The call that a return belongs to. -/
inductive Policy where
  /-- The last one that has not returned. -/
  | innermost
  /-- The last one that stored a word where the return pops one. -/
  | stored
  deriving DecidableEq

/-- A program whose labels have addresses, and how it is run. -/
structure Linked where
  code : List Instruction
  pool : Pool
  jumps : Nat → Label → Option Nat
  calls : Label → Option Nat
  model : Model
  policy : Policy
  word : Nat → Word

/-- A state at an instruction.  `points` lists what calls have stored, and where, the last first. -/
structure Position where
  pc : Nat
  view : View
  points : List (Word × Point)

/-- What executing instructions comes to. -/
inductive Progress where
  | running (c : Position)
  | done (v : View)
  | failed (cause : Trap)
  | stuck

/-- The point that a return from `cell` goes to, and the record after it. -/
def Policy.recall (policy : Policy) (cell : Word) (points : List (Word × Point)) :
    Option (Point × List (Word × Point)) :=
  match policy with
  | .innermost =>
    match points with
    | [] => none
    | (_, point) :: rest => some (point, rest)
  | .stored => (points.lookup cell).map fun point => (point, points)

theorem Policy.recall_mem {policy : Policy} {cell : Word} {points rest : List (Word × Point)}
    {point : Point} (h : policy.recall cell points = some (point, rest)) :
    ∃ cell', (cell', point) ∈ points ∧ rest ⊆ points := by
  cases policy with
  | innermost =>
    cases points with
    | nil => cases h
    | cons entry others =>
      cases h
      exact ⟨entry.1, List.mem_cons_self, fun _ mem => List.mem_cons_of_mem _ mem⟩
  | stored =>
    obtain ⟨found, here, same⟩ := Option.map_eq_some_iff.mp h
    cases same
    obtain ⟨before, after, rfl, -⟩ := List.lookup_eq_some_iff.mp here
    exact ⟨cell, by simp, fun _ mem => mem⟩

namespace Linked

variable (P : Linked)

/-- An address inside the code. -/
def inside (target : Option Nat) : Option Nat := target.filter (· < P.code.length)

/-- The address that the jump at `pc` leads to. -/
def jumpTarget (pc : Nat) (x : OperandRef) : Option Nat :=
  P.inside ((P.pool.get x).label?.bind (P.jumps pc))

/-- The address that a call leads to. -/
def callTarget (x : OperandRef) : Option Nat := P.inside ((P.pool.get x).label?.bind P.calls)

/-- The word that a call stores for a point. -/
def wordOf : Point → Word
  | .out => sentinel
  | .back pc _ => P.word pc

/-- Execute an instruction that transfers no control. -/
def stepPlain (c : Position) (i : Instruction) : Progress :=
  match c.view.execute P.model P.pool i with
  | .ok v => .running { c with pc := c.pc + 1, view := v }
  | .error t => .failed t

/-- Execute a return. -/
def stepRet (c : Position) : Progress :=
  match c.view.pop P.model with
  | .error t => .failed t
  | .ok (w, v) =>
    match P.policy.recall c.view.stackPointer c.points with
    | none => .stuck
    | some (point, points) =>
      if w = P.wordOf point then
        match point with
        | .out => .done v
        | .back pc locals =>
          if pc < P.code.length then .running { pc, view := { v with locals }, points } else .stuck
      else .stuck

/-- Execute a jump. -/
def stepJump (c : Position) (x : OperandRef) : Progress :=
  match P.jumpTarget c.pc x with
  | none => .stuck
  | some target => .running { c with pc := target }

/-- Execute a conditional jump. -/
def stepJumpIf (c : Position) (condition : Condition) (x : OperandRef) : Progress :=
  match P.jumpTarget c.pc x with
  | none => .stuck
  | some target => .running { c with pc := if condition.holds c.view.flags then target else c.pc + 1 }

/-- Execute a call; the abstract registers of the called function are all zero. -/
def stepCall (c : Position) (x : OperandRef) : Progress :=
  match P.callTarget x with
  | none => .stuck
  | some target =>
    match c.view.push P.model (P.word (c.pc + 1)) with
    | .error t => .failed t
    | .ok v =>
      .running
        { pc := target
          view := { v with locals := fun _ => 0 }
          points := (v.stackPointer, .back (c.pc + 1) c.view.locals) :: c.points }

/-- Execute the instruction at an address. -/
def step (c : Position) : Progress :=
  match P.code[c.pc]? with
  | none => .stuck
  | some .halt => .done c.view
  | some .ret => P.stepRet c
  | some (.jump x) => P.stepJump c x
  | some (.jumpIf condition x) => P.stepJumpIf c condition x
  | some (.call x) => P.stepCall c x
  | some i => P.stepPlain c i

theorem step_plain {c : Position} {i : Instruction} (here : P.code[c.pc]? = some i)
    (plain : i.isPlain = true) : P.step c = P.stepPlain c i := by
  rw [step, here]
  cases i <;> first | rfl | cases plain

/-- Execute up to `n` instructions. -/
def after : Nat → Position → Progress
  | 0, c => .running c
  | n + 1, c =>
    match P.step c with
    | .running next => after n next
    | other => other

/-- All registers zero, the stack empty at the end of a memory of `words` words. -/
def emptyView (words : Nat) : View :=
  { general := fun _ => 0
    locals := fun _ => 0
    stackPointer := Word.ofNat words
    basePointer := Word.ofNat words
    memory := fun _ => 0
    flags := .eq }

/-- Arguments pushed, last to first, and behind them the sentinel. -/
def startView (words : Nat) (args : List Word) : Except Trap View := do
  (← args.reverse.foldlM (fun v arg => v.push P.model arg) (emptyView words)).push P.model sentinel

/-- Execute up to `n` instructions of a call of the function at address `entry`. -/
def run (words : Nat) (args : List Word) (entry n : Nat) : Progress :=
  match P.startView words args with
  | .error t => .failed t
  | .ok v => P.after n { pc := entry, view := v, points := [(v.stackPointer, .out)] }

variable {P}

theorem after_succ {c next : Position} (go : P.step c = .running next) (n : Nat) :
    P.after (n + 1) c = P.after n next := by
  rw [after, go]

theorem after_running {m : Nat} {c next : Position} (first : P.after m c = .running next) (n : Nat) :
    P.after (m + n) c = P.after n next := by
  induction m generalizing c with
  | zero =>
    cases first
    rw [Nat.zero_add]
  | succ m ih =>
    rw [after] at first
    rw [Nat.succ_add, after]
    cases go : P.step c with
    | running d =>
      rw [go] at first
      exact ih first
    | _ => simp [go] at first

/-- A program that has come to an end stays there. -/
theorem after_ended {m : Nat} {c : Position} (ended : ∀ d, P.after m c ≠ .running d) (n : Nat) :
    P.after (m + n) c = P.after m c := by
  induction m generalizing c with
  | zero => exact absurd rfl (ended c)
  | succ m ih =>
    rw [after] at ended ⊢
    rw [Nat.succ_add, after]
    cases go : P.step c with
    | running d =>
      simp only [go] at ended ⊢
      exact ih ended
    | _ => rfl

theorem inside_eq_some {target : Option Nat} {a : Nat} :
    P.inside target = some a ↔ target = some a ∧ a < P.code.length := by
  simp [inside, Option.filter_eq_some_iff]

/-- Where an instruction leads, and what is recorded of calls afterwards. -/
theorem step_cases {c d : Position} (go : P.step c = .running d) :
    (d.points = c.points ∧ (d.pc = c.pc + 1 ∨ ∃ l, P.jumps c.pc l = some d.pc)) ∨
    (∃ l cell locals, P.calls l = some d.pc ∧
      d.points = (cell, .back (c.pc + 1) locals) :: c.points) ∨
    ∃ cell locals, (cell, .back d.pc locals) ∈ c.points ∧ d.points ⊆ c.points := by
  have target : ∀ {x : OperandRef} {a : Nat} {addresses : Label → Option Nat},
      P.inside ((P.pool.get x).label?.bind addresses) = some a → ∃ l, addresses l = some a := by
    intro x a addresses found
    obtain ⟨l, -, found⟩ := Option.bind_eq_some_iff.mp (inside_eq_some.mp found).1
    exact ⟨l, found⟩
  cases here : P.code[c.pc]? with
  | none => simp [step, here] at go
  | some i =>
    by_cases plain : i.isPlain = true
    · rw [P.step_plain here plain, stepPlain] at go
      split at go
      · cases go
        exact .inl ⟨rfl, .inl rfl⟩
      · cases go
    · rw [step, here] at go
      cases i with
      | halt => cases go
      | jump x =>
        simp only [stepJump] at go
        split at go
        · cases go
        · rename_i a found
          cases go
          exact .inl ⟨rfl, .inr (target found)⟩
      | jumpIf condition x =>
        simp only [stepJumpIf] at go
        split at go
        · cases go
        · rename_i a found
          cases go
          refine .inl ⟨rfl, ?_⟩
          by_cases holds : condition.holds c.view.flags = true
          · exact .inr (by simpa [holds] using target found)
          · exact .inl (by simp [holds])
      | call x =>
        simp only [stepCall] at go
        split at go
        · cases go
        · rename_i a found
          split at go
          · cases go
          · cases go
            obtain ⟨l, address⟩ := target found
            exact .inr (.inl ⟨l, _, _, address, rfl⟩)
      | ret =>
        simp only [stepRet] at go
        split at go
        · cases go
        · split at go
          · cases go
          · rename_i point points recalled
            split at go
            · cases point with
              | out => cases go
              | back pc locals =>
                dsimp only at go
                split at go
                · cases go
                  obtain ⟨cell, mem, rest⟩ := Policy.recall_mem recalled
                  exact .inr (.inr ⟨cell, locals, mem, rest⟩)
                · cases go
            · cases go
      | _ => exact absurd rfl plain

/-- Two linked programs with the same code, whose operands mean the same. -/
structure Same (P P' : Linked) : Prop where
  code : P'.code = P.code
  model : P'.model = P.model
  policy : P'.policy = P.policy
  word : P'.word = P.word
  operands : ∀ i ∈ P.code, i.isPlain = true → ∀ x ∈ i.operands, P'.pool.get x = P.pool.get x
  jumps : ∀ pc x i, P.code[pc]? = some i → i = .jump x ∨ (∃ condition, i = .jumpIf condition x) →
    P'.jumpTarget pc x = P.jumpTarget pc x
  calls : ∀ x, .call x ∈ P.code → P'.callTarget x = P.callTarget x

namespace Same

variable {P' : Linked}

theorem wordOf (h : Same P P') (point : Point) : P'.wordOf point = P.wordOf point := by
  cases point with
  | out => rfl
  | back pc locals => exact congrFun h.word pc

theorem step (h : Same P P') (c : Position) : P'.step c = P.step c := by
  cases here : P.code[c.pc]? with
  | none => rw [Linked.step, Linked.step, h.code, here]
  | some i =>
    have here' : P'.code[c.pc]? = some i := h.code ▸ here
    have mem : i ∈ P.code := List.mem_of_getElem? here
    by_cases plain : i.isPlain = true
    · rw [P.step_plain here plain, P'.step_plain here' plain, stepPlain, stepPlain, h.model,
        View.execute_congr c.view (h.operands i mem plain)]
    · rw [Linked.step, Linked.step, here, here']
      cases i with
      | halt => rfl
      | jump x => simp only [stepJump, h.jumps c.pc x _ here (.inl rfl)]
      | jumpIf condition x => simp only [stepJumpIf, h.jumps c.pc x _ here (.inr ⟨condition, rfl⟩)]
      | call x => simp only [stepCall, h.calls x mem, h.model, h.word]
      | ret => simp only [stepRet, h.model, h.policy, h.wordOf, h.code]
      | _ => exact absurd rfl plain

theorem after (h : Same P P') (n : Nat) (c : Position) : P'.after n c = P.after n c := by
  induction n generalizing c with
  | zero => rfl
  | succ n ih =>
    rw [Linked.after, Linked.after, h.step]
    cases P.step c with
    | running d => exact ih d
    | _ => rfl

theorem run (h : Same P P') (words : Nat) (args : List Word) (entry n : Nat) :
    P'.run words args entry n = P.run words args entry n := by
  have start : P'.startView words args = P.startView words args := by
    rw [startView, startView, h.model]
  simp only [Linked.run, start, h.after]

end Same

/-! ## Where a position leads -/

variable (P) in
/-- Executing from `c` comes to something that `Q` allows. -/
def Leads (c : Position) (Q : Progress → Prop) : Prop := ∃ n, Q (P.after n c)

namespace Leads

variable {c : Position} {Q R : Progress → Prop}

theorem here (q : Q (.running c)) : P.Leads c Q := ⟨0, q⟩

theorem step {next : Position} (go : P.step c = .running next) (later : P.Leads next Q) :
    P.Leads c Q := by
  obtain ⟨n, q⟩ := later
  exact ⟨n + 1, by rwa [after_succ go]⟩

/-- The next instruction is the last one. -/
theorem ends {p : Progress} (go : P.step c = p) (ended : ∀ d, p ≠ .running d) (q : Q p) :
    P.Leads c Q := by
  refine ⟨1, ?_⟩
  rw [after, go]
  cases p with
  | running d => exact absurd rfl (ended d)
  | _ => exact q

theorem mono (h : P.Leads c Q) (wider : ∀ p, Q p → R p) : P.Leads c R := by
  obtain ⟨n, q⟩ := h
  exact ⟨n, wider _ q⟩

theorem trans (first : P.Leads c Q)
    (later : ∀ p, Q p →
      match p with
      | .running d => P.Leads d R
      | other => R other) :
    P.Leads c R := by
  obtain ⟨m, q⟩ := first
  have next := later _ q
  cases reached : P.after m c with
  | running d =>
    rw [reached] at next
    obtain ⟨n, r⟩ := next
    exact ⟨m + n, by rwa [after_running reached]⟩
  | _ => exact ⟨m, by rw [reached] at next ⊢; exact next⟩

end Leads

end Linked

end Codegen86.Symbolic
