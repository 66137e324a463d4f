import Codegen86.Peephole.Rule
import Codegen86.Proofs.Machine.Places
/-!
# Peephole rules on machine states

What a rule leaves of the instructions that it matches does the same to every state of the machine that executes
them (`shrink?_sound`), whatever registers and memory operands occur in them.  One condition is needed: a dead store
is told by comparing operands, and two different memory operands can stand for the same cell.  Where the second move
reads that cell, it is the first move that counts and the rule drops it (`deadStore_aliased`).
-/

set_option autoImplicit false

namespace Codegen86.Machine

open Target

/-- Execute instructions one after another, the first one at address `pc`. -/
def executeAll (m : Machine) (pc : Nat) (s : State) : List Instruction → Except Fault State
  | [] => .ok s
  | i :: rest => do
    match ← m.execute pc { s with pc := pc + 1 } i with
    | .next s => executeAll m (pc + 1) s rest
    | .done s => .ok s

/-- The same registers, flags and memory; the next instruction can be another one. -/
structure State.Agree (s t : State) : Prop where
  general : s.general = t.general
  stackPointer : s.stackPointer = t.stackPointer
  basePointer : s.basePointer = t.basePointer
  memory : s.memory = t.memory
  flags : s.flags = t.flags

namespace State.Agree

variable {s t u : State}

theorem pc (s : State) (n : Nat) : s.Agree { s with pc := n } := ⟨rfl, rfl, rfl, rfl, rfl⟩

theorem symm (h : s.Agree t) : t.Agree s :=
  ⟨h.general.symm, h.stackPointer.symm, h.basePointer.symm, h.memory.symm, h.flags.symm⟩

theorem trans (h : s.Agree t) (h' : t.Agree u) : s.Agree u :=
  ⟨h.general.trans h'.general, h.stackPointer.trans h'.stackPointer, h.basePointer.trans h'.basePointer,
    h.memory.trans h'.memory, h.flags.trans h'.flags⟩

end State.Agree

variable {m : Machine} {pc : Nat} {s s' s'' : State} {x y z w : OperandRef}

/-! ## Single instructions -/

/-- A move puts what its source denotes into the place of its target. -/
theorem execute_mov_ok {r : Step} : m.execute pc s (.mov x y) = .ok r ↔
    ∃ a p, s.value? (m.pool.get y) = some a ∧ s.place? (m.pool.get x) = some p ∧ r = .next (s.set p a) := by
  simp only [execute, bind, Except.bind]
  constructor
  · intro done
    cases read : s.read pc (m.pool.get y) with
    | error fault => simp [read] at done
    | ok a =>
      cases written : s.write pc (m.pool.get x) a with
      | error fault => simp [read, written] at done
      | ok next =>
        simp only [read, written, pure, Except.pure, Except.ok.injEq] at done
        obtain ⟨p, place, rfl⟩ := State.write_ok.mp written
        exact ⟨a, p, State.read_ok.mp read, place, done.symm⟩
  · rintro ⟨a, p, value, place, rfl⟩
    rw [State.read_ok.mpr value]
    simp only [State.write_ok.mpr ⟨p, place, rfl⟩, pure, Except.pure]

theorem execute_arith_ok {op : Arith} {r : Step} (done : m.execute pc s (.arith op x y) = .ok r) :
    ∃ source target p a, s.value? (m.pool.get y) = some source ∧ s.value? (m.pool.get x) = some target ∧
      op.eval target source = some a ∧ s.place? (m.pool.get x) = some p ∧ r = .next (s.set p a) := by
  simp only [execute, bind, Except.bind] at done
  cases right : s.read pc (m.pool.get y) with
  | error fault => simp [right] at done
  | ok source =>
    cases left : s.read pc (m.pool.get x) with
    | error fault => simp [right, left] at done
    | ok target =>
      cases result : op.eval target source with
      | none => simp [right, left, result] at done
      | some a =>
        cases written : s.write pc (m.pool.get x) a with
        | error fault => simp [right, left, result, written] at done
        | ok next =>
          simp only [right, left, result, written, pure, Except.pure, Except.ok.injEq] at done
          obtain ⟨p, place, rfl⟩ := State.write_ok.mp written
          exact ⟨source, target, p, a, State.read_ok.mp right, State.read_ok.mp left, result, place, done.symm⟩

theorem executeAll_singleton {i : Instruction} :
    m.executeAll pc s [i] = .ok s' ↔
      m.execute pc { s with pc := pc + 1 } i = .ok (.next s') ∨
      m.execute pc { s with pc := pc + 1 } i = .ok (.done s') := by
  simp only [executeAll, bind, Except.bind]
  cases m.execute pc { s with pc := pc + 1 } i with
  | error fault => simp
  | ok r => cases r <;> simp

/-- A move by itself. -/
theorem executeAll_mov : m.executeAll pc s [.mov x y] = .ok s' ↔
    ∃ a p, s.value? (m.pool.get y) = some a ∧ s.place? (m.pool.get x) = some p ∧
      s' = { s.set p a with pc := pc + 1 } := by
  simp only [executeAll_singleton, execute_mov_ok, State.value?_pc, State.place?_pc, State.set_pc, Step.next.injEq,
    reduceCtorEq, and_false, exists_false, or_false]

/-- Two moves. -/
theorem executeAll_mov_mov (done : m.executeAll pc s [.mov x y, .mov z w] = .ok s'') :
    ∃ a p b q, s.value? (m.pool.get y) = some a ∧ s.place? (m.pool.get x) = some p ∧
      (s.set p a).value? (m.pool.get w) = some b ∧ (s.set p a).place? (m.pool.get z) = some q ∧
      s'' = { (s.set p a).set q b with pc := pc + 2 } := by
  rw [executeAll] at done
  simp only [bind, Except.bind] at done
  cases first : m.execute pc { s with pc := pc + 1 } (.mov x y) with
  | error fault => simp [first] at done
  | ok r =>
    obtain ⟨a, p, value, place, rfl⟩ := execute_mov_ok.mp first
    simp only [first, State.set_pc] at done
    obtain ⟨b, q, value', place', rfl⟩ := executeAll_mov.mp done
    refine ⟨a, p, b, q, value, place, value', place', ?_⟩
    rw [State.set_pc]

end Codegen86.Machine

namespace Codegen86.Peephole

open Target Machine

variable {m : Machine} {pc : Nat} {s s' s'' : State} {x y z w : OperandRef} {p : Place}

/-! ## Operands that are compared -/

/-- Comparing operands tells whether writing a register changes where another operand is; writing memory changes
that of none. -/
theorem unmoved_of_unread {target o : Operand} (place : s.place? target = some p)
    (unread : Rule.readsLocation o target = false) : State.Unmoved p o := by
  cases target with
  | reg r =>
    rintro base offset rfl register
    obtain rfl := Place.ofRegister?_inj register place
    simp [Rule.readsLocation, Operand.mentions] at unread
  | mem base offset =>
    obtain ⟨i, rfl⟩ := State.place?_mem place
    exact State.unmoved_cell i o
  | imm value => cases place
  | label l => cases place

theorem unmoved_of_keeps {target source : Operand} (place : s.place? target = some p)
    (keeps : Rule.movesAddress target source = false) : State.Unmoved p source := by
  cases target with
  | reg r =>
    rintro base offset rfl register
    obtain rfl := Place.ofRegister?_inj register place
    simp [Rule.movesAddress, Operand.isMemory, Operand.mentions] at keeps
  | mem base offset =>
    obtain ⟨i, rfl⟩ := State.place?_mem place
    exact State.unmoved_cell i source
  | imm value => cases place
  | label l => cases place

/-- Memory operands at offsets from the same register, or operands that are not both memory. -/
def Comparable (o target : Operand) : Prop :=
  ∀ base offset base' offset', o = .mem base offset → target = .mem base' offset' → base = base'

/-- Comparable operands stand for different places unless they are the same. -/
theorem apart_of_comparable {target o : Operand} (comparable : Comparable o target)
    (place : s.place? target = some p) (unread : Rule.readsLocation o target = false) :
    s.place? o ≠ some p := by
  intro same
  cases target with
  | reg r =>
    cases o with
    | reg r' =>
      obtain rfl := Place.ofRegister?_inj same place
      simp [Rule.readsLocation, Operand.mentions] at unread
    | mem base offset =>
      obtain ⟨i, rfl⟩ := State.place?_mem same
      exact Place.ofRegister?_ne_cell place
    | imm value => cases same
    | label l => cases same
  | mem base offset =>
    obtain ⟨i, rfl⟩ := State.place?_mem place
    cases o with
    | reg r => exact Place.ofRegister?_ne_cell same
    | mem base' offset' =>
      obtain rfl := comparable base' offset' base offset rfl rfl
      have here := State.offset_inj same place
      simp [Rule.readsLocation, here] at unread
    | imm value => cases same
    | label l => cases same
  | imm value => cases place
  | label l => cases place

/-! ## Windows -/

/-- An operand that is copied to itself. -/
theorem set_value {o : Operand} {a : Word} (place : s.place? o = some p) (value : s.value? o = some a) :
    s.set p a = s := by
  rw [State.value?_of_place place] at value
  cases value
  exact State.set_get

/-- A move to its own source. -/
theorem selfCopy_idle (equal : m.pool.get x = m.pool.get y)
    (done : m.executeAll pc s [.mov x y] = .ok s') : s.Agree s' := by
  obtain ⟨a, p, value, place, rfl⟩ := executeAll_mov.mp done
  rw [← equal] at value
  rw [set_value place value]
  exact .pc s _

/-- Arithmetic with a source that leaves every word as it is. -/
theorem arith_idle {op : Arith} {neutral : Word} (source : m.pool.get y = .imm neutral)
    (same : ∀ a, op.eval a neutral = some a) (done : m.executeAll pc s [.arith op x y] = .ok s') : s.Agree s' := by
  rcases executeAll_singleton.mp done with next | last
  · obtain ⟨b, a, p, c, right, left, result, place, step⟩ := execute_arith_ok next
    rw [source] at right
    cases right
    rw [same] at result
    cases result
    rw [State.value?_pc] at left
    rw [State.place?_pc] at place
    rw [State.set_pc, set_value place left] at step
    cases step
    exact .pc s _
  · obtain ⟨b, a, p, c, -, -, -, -, step⟩ := execute_arith_ok last
    cases step

/-- A move whose target is overwritten, unless its place is read. -/
theorem deadStore_sound (target : m.pool.get x = m.pool.get z)
    (unread : Rule.readsLocation (m.pool.get w) (m.pool.get x) = false)
    (apart : ∀ p, s.place? (m.pool.get x) = some p → s.place? (m.pool.get w) ≠ some p)
    (done : m.executeAll pc s [.mov x y, .mov z w] = .ok s') :
    ∃ s'', m.executeAll pc s [.mov z w] = .ok s'' ∧ s''.Agree s' := by
  obtain ⟨a, p, b, q, -, place, value, place', rfl⟩ := executeAll_mov_mov done
  have again := State.place?_set_self (w := a) place
  rw [← target, again] at place'
  cases place'
  rw [State.value?_set (unmoved_of_unread place unread) (apart p place)] at value
  rw [target] at place
  refine ⟨_, executeAll_mov.mpr ⟨b, p, value, place, rfl⟩, ?_⟩
  rw [State.set_set]
  exact .trans (.symm (.pc _ _)) (.pc _ _)

/-- A move whose target is read by the next one counts: without it, nothing changes. -/
theorem deadStore_aliased (target : m.pool.get x = m.pool.get z) (place : s.place? (m.pool.get x) = some p)
    (aliased : s.place? (m.pool.get w) = some p)
    (unread : Rule.readsLocation (m.pool.get w) (m.pool.get x) = false)
    (done : m.executeAll pc s [.mov x y, .mov z w] = .ok s') :
    (∃ a, s.value? (m.pool.get y) = some a ∧ (s.set p a).Agree s') ∧
      ∃ s'', m.executeAll pc s [.mov z w] = .ok s'' ∧ s''.Agree s := by
  obtain ⟨a, p', b, q, first, place', value, again, rfl⟩ := executeAll_mov_mov done
  rw [place] at place'
  cases place'
  rw [← target, State.place?_set_self place] at again
  cases again
  have here := (State.place?_set (s := s) (w := a) (unmoved_of_unread place unread)).trans aliased
  constructor
  · refine ⟨a, first, ?_⟩
    rw [set_value here value]
    exact .pc _ _
  · rw [target] at place
    refine ⟨_, executeAll_mov.mpr ⟨_, p, State.value?_of_place aliased, place, rfl⟩, ?_⟩
    rw [State.set_get]
    exact .symm (.pc _ _)

/-- A move back. -/
theorem roundTrip_sound (there : m.pool.get x = m.pool.get w) (back : m.pool.get y = m.pool.get z)
    (keeps : Rule.movesAddress (m.pool.get x) (m.pool.get y) = false)
    (done : m.executeAll pc s [.mov x y, .mov z w] = .ok s') :
    ∃ s'', m.executeAll pc s [.mov x y] = .ok s'' ∧ s''.Agree s' := by
  obtain ⟨a, p, b, q, value, place, value', place', rfl⟩ := executeAll_mov_mov done
  refine ⟨_, executeAll_mov.mpr ⟨a, p, value, place, rfl⟩, ?_⟩
  rw [← there, State.value?_set_self place] at value'
  cases value'
  rw [← back] at place'
  have held : (s.set p a).get q = a := by
    by_cases same : q = p
    · rw [same]
      exact State.get_set (State.has_place place)
    · rw [State.place?_set (unmoved_of_keeps place keeps)] at place'
      rw [State.value?_of_place place'] at value
      cases value
      exact State.get_set_of_ne same
  have idle := set_value place' (by rw [State.value?_of_place place', held])
  rw [idle]
  exact .trans (.symm (.pc _ _)) (.pc _ _)

/-! ## Rules -/

/-- Of two moves, the second one does not read the place that the first one writes. -/
def Unaliased (pool : Pool) (s : State) : List Instruction → Prop
  | .mov x _ :: .mov _ w :: _ => ∀ p, s.place? (pool.get x) = some p → s.place? (pool.get w) ≠ some p
  | _ => True

/-- The operands of two moves that a rule compares can be told apart by comparing them. -/
theorem unaliased_of_comparable {pool : Pool} {next : Option String} {rest rest' : List Instruction}
    (applies : Rule.deadStore.shrink? pool next (.mov x y :: .mov z w :: rest) = some rest')
    (comparable : Comparable (pool.get w) (pool.get x)) :
    Unaliased pool s (.mov x y :: .mov z w :: rest) := by
  intro p place
  simp only [Rule.shrink?, Option.ite_none_right_eq_some] at applies
  exact apart_of_comparable comparable place applies.1.2

/-- Where `matched` can be executed in a state with property `P`, so can `left`, and leads to the same registers,
flags and memory. -/
def Replaces (pool : Pool) (P : State → Prop) (left matched : List Instruction) : Prop :=
  ∀ (m : Machine) (pc : Nat) (s s' : State), m.pool = pool → P s → m.executeAll pc s matched = .ok s' →
    ∃ s'', m.executeAll pc s left = .ok s'' ∧ s''.Agree s'

theorem replaces_of_idle {pool : Pool} {P : State → Prop} {matched : List Instruction}
    (idle : ∀ (m : Machine) (pc : Nat) (s s' : State), m.pool = pool → m.executeAll pc s matched = .ok s' →
      s.Agree s') : Replaces pool P [] matched := by
  intro m pc s s' same _ done
  exact ⟨s, rfl, idle m pc s s' same done⟩

/-- Wherever a rule other than that for jumps applies, it drops one of the one or two instructions that it matches,
and what is left replaces them. -/
theorem shrink?_sound {pool : Pool} {next : Option String} {rule : Rule} {code rest : List Instruction}
    (applies : rule.shrink? pool next code = some rest) (inside : rule ≠ .fallThrough) :
    ∃ matched left tail, code = matched ++ tail ∧ rest = left ++ tail ∧ left.length + 1 = matched.length ∧
      matched.length ≤ 2 ∧ Replaces pool (fun s => rule = .deadStore → Unaliased pool s code) left matched := by
  unfold Rule.shrink? at applies
  split at applies
  · rename_i x y tail
    split at applies
    · rename_i zero
      cases applies
      refine ⟨[.arith .add x y], [], rest, rfl, rfl, rfl, by simp, replaces_of_idle ?_⟩
      rintro m pc s s' rfl done
      exact arith_idle zero (fun a => by simp [Arith.eval]) done
    · cases applies
  · rename_i x y tail
    split at applies
    · rename_i zero
      cases applies
      refine ⟨[.arith .sub x y], [], rest, rfl, rfl, rfl, by simp, replaces_of_idle ?_⟩
      rintro m pc s s' rfl done
      exact arith_idle zero (fun a => by simp [Arith.eval]) done
    · cases applies
  · cases applies
    refine ⟨[.nop], [], rest, rfl, rfl, rfl, by simp, replaces_of_idle ?_⟩
    rintro m pc s s' rfl done
    cases done
    exact .pc s _
  · rename_i x y tail
    split at applies
    · rename_i equal
      cases applies
      refine ⟨[.mov x y], [], rest, rfl, rfl, rfl, by simp, replaces_of_idle ?_⟩
      rintro m pc s s' rfl done
      exact selfCopy_idle equal done
    · cases applies
  · rename_i x y z w tail
    split at applies
    · rename_i compared
      cases applies
      refine ⟨[.mov x y, .mov z w], [.mov z w], tail, rfl, rfl, rfl, by simp, ?_⟩
      rintro m pc s s' rfl unaliased done
      exact deadStore_sound compared.1 compared.2 (unaliased rfl) done
    · cases applies
  · rename_i x y z w tail
    split at applies
    · rename_i compared
      cases applies
      refine ⟨[.mov x y, .mov z w], [.mov x y], tail, rfl, rfl, rfl, by simp, ?_⟩
      rintro m pc s s' rfl - done
      exact roundTrip_sound compared.1 compared.2.1 compared.2.2 done
    · cases applies
  · exact absurd rfl inside
  · cases applies

/-- A store that the next move reads through another register. -/
def aliasedStore : Machine where
  code := #[.mov 0 1, .mov 0 2]
  pool := { operands := #[.mem (.physical 1) 0, .imm 7, .mem (.physical 2) 0] }

/-- The rule drops it, and the word it stores is lost. -/
theorem deadStore_unsound :
    ∃ s s' s'' rest, Rule.deadStore.shrink? aliasedStore.pool none aliasedStore.code.toList = some rest ∧
      aliasedStore.executeAll 0 s aliasedStore.code.toList = .ok s' ∧
      aliasedStore.executeAll 0 s rest = .ok s'' ∧ s''.memory ≠ s'.memory :=
  ⟨.initial 1 0, _, _, [.mov 0 2], by decide, rfl, rfl, by decide⟩

end Codegen86.Peephole
