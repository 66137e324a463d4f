import Codegen86.Proofs.Machine.Places
/-!
# Steps of a machine

What single instructions do where nothing hinders them, and how many of them lead from one state to another
(`Reaches`).  The stack is seen as the list of the words from the stack pointer on (`Stacked`): pushing puts a word
in front of it, popping takes one away.
-/

set_option autoImplicit false

namespace Codegen86.Machine

open Target

/-! ## The stack -/

namespace State

variable {s : State} {top pc : Nat} {words : List Word} {w : Word}

/-- The words of memory from an address on. -/
def above (s : State) (a : Nat) : List Word := s.memory.toList.drop a

/-- The stack pointer is at `top`, in memory or at its end, and the words from there on are `words`. -/
structure Stacked (s : State) (top : Nat) (words : List Word) : Prop where
  pointer : s.stackPointer.toInt = top
  inside : top ≤ s.memory.size
  words : s.above top = words

/-- The state after pushing a word, if there is room for it. -/
def pushed (s : State) (w : Word) : State :=
  { s with
    stackPointer := s.stackPointer - 1
    memory := s.memory.setIfInBounds (s.stackPointer - 1).toNatClampNeg w }

@[simp] theorem pushed_general : (s.pushed w).general = s.general := rfl

/-- The state after taking a word off the stack. -/
def popped (s : State) : State := { s with stackPointer := s.stackPointer + 1 }

namespace Stacked

/-- The address of the next instruction is kept apart. -/
theorem goto (h : Stacked s top words) (pc : Nat) : Stacked { s with pc } top words :=
  ⟨h.pointer, h.inside, h.words⟩

theorem get (h : Stacked s top (w :: words)) : s.memory[top]? = some w := by
  have first := congrArg List.head? h.words
  simpa [above, List.head?_drop] using first

theorem push (h : Stacked s (top + 1) words) : s.push pc w = .ok (s.pushed w) := by
  have pointer := h.pointer
  have inside := h.inside
  have clamp : s.stackPointer.toNatClampNeg = s.stackPointer.toInt.toNat := rfl
  have positive : ¬ s.stackPointer ≤ 0 := by
    rw [Int64.le_iff_toInt_le, show (0 : Word).toInt = 0 from rfl]
    omega
  have within : ¬ s.memory.size < s.stackPointer.toNatClampNeg := by omega
  rw [State.push, if_neg (not_or.mpr ⟨positive, within⟩)]
  rfl

/-- What is pushed is in front. -/
theorem pushed (h : Stacked s (top + 1) words) (w : Word) : Stacked (s.pushed w) top (w :: words) := by
  have pointer := h.pointer
  have inside := h.inside
  have most := s.stackPointer.toInt_lt
  have one : (1 : Word).toInt = 1 := rfl
  have below : (s.stackPointer - 1).toInt = top := by
    rw [Word.toInt_sub_of_bounds, one] <;> omega
  have place : (s.stackPointer - 1).toNatClampNeg = top := by
    show (s.stackPointer - 1).toInt.toNat = top
    omega
  have here : top < (s.memory.toList.set top w).length := by
    rw [List.length_set, Array.length_toList]
    omega
  refine ⟨below, ?_, ?_⟩
  · simp only [State.pushed, Array.size_setIfInBounds]
    omega
  · rw [above, State.pushed, place, Array.toList_setIfInBounds, List.drop_eq_getElem_cons here, List.getElem_set_self,
      List.drop_set_of_lt (Nat.lt_succ_self top)]
    exact congrArg (w :: ·) h.words

theorem pop (h : Stacked s top (w :: words)) : s.pop pc = .ok (w, s.popped) := by
  obtain ⟨inside, -⟩ := Array.getElem?_eq_some_iff.mp h.get
  have place : s.stackPointer.index? s.memory.size = some top := Word.index?_eq_some.mpr ⟨h.pointer, inside⟩
  have word : s.memory.getD top 0 = w := by rw [Array.getD_eq_getD_getElem?, h.get, Option.getD_some]
  simp only [State.pop, place, word, State.popped]

theorem popped (h : Stacked s top (w :: words)) (small : top + 1 < 2 ^ 63) : Stacked s.popped (top + 1) words := by
  obtain ⟨inside, -⟩ := Array.getElem?_eq_some_iff.mp h.get
  have pointer := h.pointer
  have one : (1 : Word).toInt = 1 := rfl
  refine ⟨?_, inside, ?_⟩
  · rw [State.popped, Word.toInt_add_of_bounds, one] <;> omega
  · have rest := congrArg List.tail h.words
    rwa [above, List.tail_drop] at rest

end Stacked

/-- A word of the stack, found through a base pointer. -/
theorem value?_slot {i : Nat} (base : s.basePointer.toInt = top) (inside : (s.above top)[i]? = some w)
    (small : top + i < 2 ^ 63) : s.value? (.frameSlot (Word.ofNat i)) = some w := by
  rw [above, List.getElem?_drop, Array.getElem?_toList] at inside
  obtain ⟨within, -⟩ := Array.getElem?_eq_some_iff.mp inside
  have address : (s.basePointer + Word.ofNat i).toInt = (top + i : Nat) := by
    rw [Word.toInt_add_ofNat] <;> omega
  have place : (s.basePointer + Word.ofNat i).index? s.memory.size = some (top + i) :=
    Word.index?_eq_some.mpr ⟨address, within⟩
  have word : s.memory.getD (top + i) 0 = w := by rw [Array.getD_eq_getD_getElem?, inside, Option.getD_some]
  simp only [Operand.frameSlot, value?, place?, Place.ofRegister?, get, place, bind, Option.bind, pure, Option.map_some,
    word]

end State

/-! ## Single instructions -/

section

variable {m : Machine} {s : State} {x y : OperandRef} {w : Word} {p : Place} {l : Label} {a top : Nat}
  {words : List Word}

/-- No return address is the sentinel. -/
theorem ofNat_ne_sentinel {pc : Nat} (small : pc < 2 ^ 63) : Word.ofNat pc ≠ sentinel := by
  intro same
  have same := congrArg Int64.toInt same
  rw [Word.toInt_ofNat small] at same
  have : (pc : Int) = -1 := same
  omega

theorem step_eq {i : Instruction} (here : m.code[s.pc]? = some i) :
    m.step s = m.execute s.pc { s with pc := s.pc + 1 } i := by
  rw [step, here]

theorem destination_label {pc : Nat} (target : m.pool.get x = .label l) (address : l.address = some a)
    (inside : a < m.code.size) (small : m.code.size < 2 ^ 63) : m.destination pc s x = .ok a := by
  have word : s.read pc (m.pool.get x) = .ok (Word.ofNat a) := by rw [target, State.read_ok, State.value?, address]; rfl
  have place : (Word.ofNat a).index? m.code.size = some a :=
    Word.index?_eq_some.mpr ⟨Word.toInt_ofNat (by omega), inside⟩
  rw [destination, word]
  simp only [bind, Except.bind, jumpAddress, place]

theorem step_push (here : m.code[s.pc]? = some (.push x)) (value : s.value? (m.pool.get x) = some w)
    (stack : s.Stacked (top + 1) words) : m.step s = .ok (.next { s.pushed w with pc := s.pc + 1 }) := by
  have word : State.read { s with pc := s.pc + 1 } s.pc (m.pool.get x) = .ok w := State.read_ok.mpr value
  simp only [step_eq here, execute, word, (stack.goto (s.pc + 1)).push, bind, Except.bind, pure, Except.pure]
  rfl

theorem step_mov (here : m.code[s.pc]? = some (.mov x y)) (value : s.value? (m.pool.get y) = some w)
    (place : s.place? (m.pool.get x) = some p) : m.step s = .ok (.next { s.set p w with pc := s.pc + 1 }) := by
  have word : State.read { s with pc := s.pc + 1 } s.pc (m.pool.get y) = .ok w := State.read_ok.mpr value
  have written : State.write { s with pc := s.pc + 1 } s.pc (m.pool.get x) w = .ok { s.set p w with pc := s.pc + 1 } :=
    State.write_ok.mpr ⟨p, place, State.set_pc (s.pc + 1) |>.symm⟩
  simp only [step_eq here, execute, word, written, bind, Except.bind, pure, Except.pure]

theorem step_arith {op : Arith} {b c : Word} (here : m.code[s.pc]? = some (.arith op x y))
    (source : s.value? (m.pool.get y) = some b) (target : s.value? (m.pool.get x) = some c)
    (result : op.eval c b = some w) (place : s.place? (m.pool.get x) = some p) :
    m.step s = .ok (.next { s.set p w with pc := s.pc + 1 }) := by
  have right : State.read { s with pc := s.pc + 1 } s.pc (m.pool.get y) = .ok b := State.read_ok.mpr source
  have left : State.read { s with pc := s.pc + 1 } s.pc (m.pool.get x) = .ok c := State.read_ok.mpr target
  have written : State.write { s with pc := s.pc + 1 } s.pc (m.pool.get x) w = .ok { s.set p w with pc := s.pc + 1 } :=
    State.write_ok.mpr ⟨p, place, State.set_pc (s.pc + 1) |>.symm⟩
  simp only [step_eq here, execute, right, left, result, written, bind, Except.bind, pure, Except.pure]

theorem step_jump (here : m.code[s.pc]? = some (.jump x)) (target : m.pool.get x = .label l)
    (address : l.address = some a) (inside : a < m.code.size) (small : m.code.size < 2 ^ 63) :
    m.step s = .ok (.next { s with pc := a }) := by
  simp only [step_eq here, execute, destination_label target address inside small, bind, Except.bind, pure,
    Except.pure]

theorem step_call (here : m.code[s.pc]? = some (.call x)) (target : m.pool.get x = .label l)
    (address : l.address = some a) (inside : a < m.code.size) (small : m.code.size < 2 ^ 63)
    (stack : s.Stacked (top + 1) words) :
    m.step s = .ok (.next { s.pushed (Word.ofNat (s.pc + 1)) with pc := a }) := by
  simp only [step_eq here, execute, destination_label target address inside small, (stack.goto (s.pc + 1)).push, bind,
    Except.bind, pure, Except.pure]
  rfl

theorem step_pop (here : m.code[s.pc]? = some (.pop x)) (stack : s.Stacked top (w :: words))
    (place : s.popped.place? (m.pool.get x) = some p) :
    m.step s = .ok (.next { s.popped.set p w with pc := s.pc + 1 }) := by
  have written : State.write (State.popped { s with pc := s.pc + 1 }) s.pc (m.pool.get x) w =
      .ok { s.popped.set p w with pc := s.pc + 1 } :=
    State.write_ok.mpr ⟨p, place, State.set_pc (s := s.popped) (s.pc + 1) |>.symm⟩
  simp only [step_eq here, execute, (stack.goto (s.pc + 1)).pop, written, bind, Except.bind, pure, Except.pure]

theorem step_ret (here : m.code[s.pc]? = some .ret) (stack : s.Stacked top (Word.ofNat a :: words))
    (inside : a < m.code.size) (small : m.code.size < 2 ^ 63) :
    m.step s = .ok (.next { s.popped with pc := a }) := by
  have place : (Word.ofNat a).index? m.code.size = some a :=
    Word.index?_eq_some.mpr ⟨Word.toInt_ofNat (by omega), inside⟩
  have goes : Word.ofNat a ≠ sentinel := ofNat_ne_sentinel (by omega)
  simp only [step_eq here, execute, (stack.goto (s.pc + 1)).pop, jumpAddress, place, goes, if_false, bind, Except.bind,
    pure, Except.pure]
  rfl

end

/-! ## Several instructions -/

/-- A number of instructions leads from one state to another. -/
inductive Reaches (m : Machine) : Nat → State → State → Prop
  | refl (s : State) : Reaches m 0 s s
  | step {n : Nat} {s t u : State} (first : m.step s = .ok (.next t)) (rest : Reaches m n t u) : Reaches m (n + 1) s u

namespace Reaches

variable {m : Machine} {i j : Nat} {s t u : State}

theorem one (first : m.step s = .ok (.next t)) : Reaches m 1 s t := .step first (.refl t)

theorem trans (h : Reaches m i s t) (h' : Reaches m j t u) : Reaches m (i + j) s u := by
  induction h with
  | refl s => rwa [Nat.zero_add]
  | step first _ ih =>
    rw [Nat.succ_add]
    exact .step first (ih h')

theorem of_eq (h : Reaches m i s t) (same : i = j) : Reaches m j s t := same ▸ h

end Reaches

/-- The code of the machine goes on with `code` at an address. -/
def CodeAt (m : Machine) (a : Nat) (code : List Instruction) : Prop := code <+: m.code.toList.drop a

instance (m : Machine) (a : Nat) (code : List Instruction) : Decidable (m.CodeAt a code) :=
  inferInstanceAs (Decidable (code <+: _))

namespace CodeAt

variable {m : Machine} {a : Nat} {i : Instruction} {first rest : List Instruction}

theorem head (h : m.CodeAt a (i :: rest)) : m.code[a]? = some i := by
  obtain ⟨after, all⟩ := h
  have first := congrArg List.head? all
  simpa [List.head?_drop] using first.symm

theorem append (h : m.CodeAt a (first ++ rest)) : m.CodeAt (a + first.length) rest := by
  obtain ⟨after, all⟩ := h
  refine ⟨after, ?_⟩
  rw [← List.drop_drop, ← all, List.append_assoc, List.drop_left]

theorem tail (h : m.CodeAt a (i :: rest)) : m.CodeAt (a + 1) rest := by
  rw [← List.singleton_append] at h
  exact h.append

theorem left (h : m.CodeAt a (first ++ rest)) : m.CodeAt a first := (List.prefix_append first rest).trans h

end CodeAt

end Codegen86.Machine
