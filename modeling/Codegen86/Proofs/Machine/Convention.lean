import Codegen86.Calling
import Codegen86.Proofs.Linking.Layout
import Codegen86.Proofs.Machine.Steps
import Codegen86.Proofs.Pools
/-!
# The calling convention on the machine

A call is three sequences of instructions that are made apart from each other: the caller's, the prologue and the
epilogue of the callee.  A `Linkage` is a machine that has all three.  `convention_agrees` says that they fit together:
the arguments reach the registers of the parameters, and when the callee leaves the stack as it found it, the caller
goes on with both pointers and the stack as they were before the call.

From the base pointer up, the stack of a callee holds the saved base pointer, the return address, the arguments in
order, and what was on the stack before the call.  The first half establishes this picture, the second half starts
from it.
-/

set_option autoImplicit false

namespace Codegen86.Machine

open Target Calling

/-- The words in general registers. -/
def State.values (s : State) (registers : List (Fin generalRegisters)) : List Word :=
  registers.map fun r => s.general.get r

/-- The machine has a sequence of instructions at an address, and the operands that the sequence puts into the pool,
with addresses in the labels. -/
structure Installed (m : Machine) (l : Layout) (a : Nat) (before : Pool) (sequence : List Instruction × Pool) :
    Prop where
  code : m.CodeAt a sequence.1
  operands : ∀ x < sequence.2.operands.size, before.operands.size ≤ x →
    m.pool.get x = l.resolve (sequence.2.get x)

/-- The references are to the registers. -/
def Refers (m : Machine) (refs : List OperandRef) (registers : List (Fin generalRegisters)) : Prop :=
  refs.map m.pool.get = registers.map fun r => .reg (.physical r)

/-- A call in the code of a machine, of a function that reserves `frameWords` words.  The arguments are in the registers
`sources`, and the parameters of the function are the registers `targets`.  The call is at `site`, with code behind
it; the function is entered at `entrance`, its body begins at `start`, and it is left at `exit`.  The pools are those
that the three sequences put their operands into. -/
structure Linkage (m : Machine) (frameWords : Nat) (sources targets : List (Fin generalRegisters)) where
  layout : Layout
  callee : String
  body : String
  arguments : List OperandRef
  parameters : List OperandRef
  frame : OperandRef
  caller : Pool
  entering : Pool
  leaving : Pool
  site : Nat
  entrance : Nat
  start : Nat
  exit : Nat
  size : m.code.size < 2 ^ 63
  passes : m.Refers arguments sources
  takes : m.Refers parameters targets
  reserves : m.pool.get frame = .imm (Word.ofNat frameWords)
  calls : m.Installed layout site caller (callSequence caller callee arguments)
  goesOn : site + sources.length + 1 < m.code.size
  called : layout.address? callee = some entrance
  enters : m.Installed layout entrance entering (prologue entering frame parameters body)
  begins : layout.address? body = some start
  inside : start < m.code.size
  leaves : m.Installed layout exit leaving (epilogue leaving frame)

/-- The instructions of the caller. -/
def Linkage.sequence {m : Machine} {frameWords : Nat} {sources targets : List (Fin generalRegisters)}
    (l : m.Linkage frameWords sources targets) : List Instruction :=
  (callSequence l.caller l.callee l.arguments).1

variable {m : Machine} {l : Layout} {s t : State} {pool : Pool} {refs : List OperandRef}
  {registers : List (Fin generalRegisters)} {words : List Word} {a top base : Nat}

/-! ## What the sequences are made of -/

theorem loadArgs_grows (pool : Pool) (i : Nat) (refs : List OperandRef) : pool.Grows (loadArgs pool i refs).2 := by
  induction refs generalizing pool i with
  | nil => exact .refl pool
  | cons x rest ih => exact (Pool.Grows.add pool (argSlot i)).trans (ih _ (i + 1))

theorem loadArgs_length (pool : Pool) (i : Nat) (refs : List OperandRef) :
    (loadArgs pool i refs).1.length = refs.length := by
  induction refs generalizing pool i with
  | nil => rfl
  | cons x rest ih => exact congrArg (· + 1) (ih _ (i + 1))

namespace Installed

variable {code : List Instruction} {before : Pool} {o : Operand}

/-- The operand that a sequence puts into the pool first, and what it puts there later. -/
theorem operand (h : m.Installed l a before (code, pool)) (grows : (before.add o).2.Grows pool) :
    m.pool.get before.operands.size = l.resolve o ∧ m.Installed l a (before.add o).2 (code, pool) := by
  have size := grows.size
  rw [Pool.size_add] at size
  refine ⟨?_, h.code, fun x most least => h.operands x most ?_⟩
  · rw [h.operands _ size (Nat.le_refl _), grows.get (by simp), Pool.get_size_add]
  · rw [Pool.size_add] at least
    omega

/-- Fewer operands are left when some are there already. -/
theorem later {p : Pool} (h : m.Installed l a before (code, pool)) (grows : before.Grows p) :
    m.Installed l a p (code, pool) :=
  ⟨h.code, fun x most least => h.operands x most (Nat.le_trans grows.size least)⟩

/-- A part of a sequence, with its own operands. -/
theorem part {first rest : List Instruction} {p : Pool} (h : m.Installed l a before (first ++ (code ++ rest), pool))
    (grows : p.Grows pool) : m.Installed l (a + first.length) before (code, p) := by
  refine ⟨h.code.append.left, fun x most least => ?_⟩
  rw [h.operands x (Nat.lt_of_lt_of_le most grows.size) least, grows.get most]

/-- An argument is loaded, and then the others. -/
theorem load {i : Nat} {x : OperandRef} (h : m.Installed l a pool (loadArgs pool i (x :: refs))) :
    m.code[a]? = some (.mov x pool.operands.size) ∧ m.pool.get pool.operands.size = argSlot i ∧
      m.Installed l (a + 1) (pool.add (argSlot i)).2 (loadArgs (pool.add (argSlot i)).2 (i + 1) refs) := by
  obtain ⟨slot, rest⟩ := h.operand (loadArgs_grows (pool.add (argSlot i)).2 (i + 1) refs)
  exact ⟨h.code.head, slot, h.code.tail, rest.operands⟩

end Installed

namespace Installed

/-- Where the instructions and operands of a call are. -/
theorem call {callee : String} (h : m.Installed l a pool (callSequence pool callee refs)) :
    m.CodeAt a (refs.reverse.map .push) ∧
      (∃ x, m.code[a + refs.length]? = some (.call x) ∧ m.pool.get x = l.resolve (.symbol callee)) ∧
      (refs ≠ [] → ∃ y z, m.code[a + refs.length + 1]? = some (.arith .add y z) ∧
        m.pool.get y = .reg .stackPointer ∧ m.pool.get z = .imm (Word.ofNat refs.length)) := by
  have pushes : (refs.reverse.map Instruction.push).length = refs.length := by simp
  unfold callSequence at h
  dsimp only at h
  split at h
  · rename_i none
    obtain ⟨label, -⟩ := h.operand (.refl _)
    have code := h.code.append.head
    rw [pushes] at code
    refine ⟨h.code.left, ⟨_, code, label⟩, fun given => ?_⟩
    exact absurd (List.isEmpty_iff.mp none) given
  · obtain ⟨label, h⟩ := h.operand ((Pool.Grows.add _ _).trans (.add _ _))
    obtain ⟨count, h⟩ := h.operand (.add _ _)
    obtain ⟨stack, h⟩ := h.operand (.refl _)
    have code := h.code.append
    rw [pushes] at code
    exact ⟨h.code.left, ⟨_, code.head, label⟩, fun _ => ⟨_, _, code.tail.head, stack, count⟩⟩

/-- Where the instructions and operands of a prologue are. -/
theorem enter {frame : OperandRef} {body : String} (h : m.Installed l a pool (prologue pool frame refs body)) :
    ∃ saved base top stack label pool',
      m.pool.get saved = .reg .basePointer ∧ m.pool.get base = .reg .basePointer ∧
      m.pool.get top = .reg .stackPointer ∧ m.pool.get stack = .reg .stackPointer ∧
      m.pool.get label = l.resolve (.symbol body) ∧ m.code[a]? = some (.push saved) ∧
      m.code[a + 1]? = some (.mov base top) ∧ m.code[a + 2]? = some (.arith .sub stack frame) ∧
      m.Installed l (a + 3) pool' (loadArgs pool' 0 refs) ∧
      m.code[a + 3 + refs.length]? = some (.jump label) := by
  unfold prologue at h
  dsimp only at h
  have grows (p : Pool) : p.Grows ((loadArgs p 0 refs).2.add (.symbol body)).2 :=
    (loadArgs_grows p 0 refs).trans (.add _ _)
  -- The operands are taken out one after the other, in the order in which they are put in.
  obtain ⟨saved, h⟩ := h.operand ((Pool.Grows.add _ _).trans ((Pool.Grows.add _ _).trans ((Pool.Grows.add _ _).trans
    (grows _))))
  generalize (pool.add (.reg .basePointer)).2 = p₁ at h
  obtain ⟨base, h⟩ := h.operand ((Pool.Grows.add _ _).trans ((Pool.Grows.add _ _).trans (grows _)))
  generalize (p₁.add (.reg .basePointer)).2 = p₂ at h
  obtain ⟨top, h⟩ := h.operand ((Pool.Grows.add _ _).trans (grows _))
  generalize (p₂.add (.reg .stackPointer)).2 = p₃ at h
  obtain ⟨stack, h⟩ := h.operand (grows _)
  generalize (p₃.add (.reg .stackPointer)).2 = p₄ at h
  obtain ⟨label, -⟩ := (h.later (loadArgs_grows p₄ 0 refs)).operand (.refl _)
  rw [List.append_assoc] at h
  have code := h.code
  have jump := code.append.append.head
  rw [loadArgs_length] at jump
  exact ⟨_, _, _, _, _, p₄, saved, base, top, stack, label, code.head, code.tail.head, code.tail.tail.head,
    h.part (.add _ _), jump⟩

/-- Where the instructions and operands of an epilogue are. -/
theorem leave {frame : OperandRef} (h : m.Installed l a pool (epilogue pool frame)) :
    ∃ stack saved, m.pool.get stack = .reg .stackPointer ∧ m.pool.get saved = .reg .basePointer ∧
      m.code[a]? = some (.arith .add stack frame) ∧ m.code[a + 1]? = some (.pop saved) ∧
      m.code[a + 2]? = some .ret := by
  unfold epilogue at h
  obtain ⟨stack, h⟩ := h.operand (.add _ _)
  obtain ⟨saved, h⟩ := h.operand (.refl _)
  exact ⟨_, _, stack, saved, h.code.head, h.code.tail.head, h.code.tail.tail.head⟩

end Installed

/-! ## Runs of pushes and loads -/

theorem Refers.length (h : m.Refers refs registers) : refs.length = registers.length := by
  simpa using congrArg List.length h

theorem Refers.reverse (h : m.Refers refs registers) : m.Refers refs.reverse registers.reverse := by
  rw [Refers, List.map_reverse, List.map_reverse, h]

theorem Refers.cases {r : Fin generalRegisters} (h : m.Refers refs (r :: registers)) :
    ∃ x rest, refs = x :: rest ∧ m.pool.get x = .reg (.physical r) ∧ m.Refers rest registers := by
  obtain ⟨x, rest, rfl, register, others⟩ := List.map_eq_cons_iff.mp h
  exact ⟨x, rest, rfl, register, others⟩

theorem place?_general (r : Fin generalRegisters) : s.place? (.reg (.physical r)) = some (.general r) := by
  simp [State.place?, Place.ofRegister?]

/-- Pushing registers puts their words on the stack, the last one in front. -/
theorem pushes_run (refers : m.Refers refs registers) (code : m.CodeAt s.pc (refs.map .push))
    (stack : s.Stacked (top + registers.length) words) :
    ∃ t, m.Reaches registers.length s t ∧ t.pc = s.pc + registers.length ∧ t.general = s.general ∧
      t.basePointer = s.basePointer ∧ t.Stacked top ((s.values registers).reverse ++ words) := by
  induction registers generalizing s refs words with
  | nil => exact ⟨s, .refl s, rfl, rfl, rfl, stack⟩
  | cons r registers ih =>
    obtain ⟨x, refs, rfl, register, others⟩ := refers.cases
    have value : s.value? (m.pool.get x) = some (s.general.get r) := by
      rw [register, State.value?_of_place (place?_general r)]
      rfl
    have first := step_push code.head value stack
    obtain ⟨t, run, pc, general, basePointer, stacked⟩ :=
      ih (s := { s.pushed (s.general.get r) with pc := s.pc + 1 }) others code.tail ((stack.pushed _).goto _)
    refine ⟨t, .step first run, ?_, general, basePointer, ?_⟩
    · rw [pc, List.length_cons]
      dsimp only
      omega
    · simpa [State.values] using stacked

/-- Loading brings the words behind the return address into registers. -/
theorem loads_run {i : Nat} {args rest : List Word} (refers : m.Refers refs registers) (distinct : registers.Nodup)
    (installed : m.Installed l s.pc pool (loadArgs pool i refs)) (pointer : s.basePointer.toInt = base)
    (stack : (s.above base).drop (argBase + i) = args ++ rest) (length : args.length = registers.length)
    (small : base + argBase + i + args.length < 2 ^ 63) :
    ∃ general, m.Reaches registers.length s { s with general, pc := s.pc + registers.length } ∧
      (registers.map fun r => general[r]) = args ∧ ∀ r ∉ registers, general[r] = s.general[r] := by
  induction registers generalizing s refs i pool args with
  | nil =>
    have none : args = [] := List.eq_nil_of_length_eq_zero length
    exact ⟨s.general, .refl s, none.symm, fun _ _ => rfl⟩
  | cons r registers ih =>
    obtain ⟨x, refs, rfl, register, others⟩ := refers.cases
    obtain ⟨w, args, rfl⟩ := List.exists_cons_of_length_eq_add_one length
    obtain ⟨here, slot, later⟩ := installed.load
    obtain ⟨new, distinct⟩ := List.nodup_cons.mp distinct
    rw [List.length_cons] at small
    have word : (s.above base)[argBase + i]? = some w := by
      rw [← List.head?_drop, stack]
      rfl
    have value : s.value? (m.pool.get pool.operands.size) = some w := by
      rw [slot, argSlot]
      exact State.value?_slot pointer word (by omega)
    have place : s.place? (m.pool.get x) = some (.general r) := by rw [register, place?_general]
    have behind : (s.above base).drop (argBase + (i + 1)) = args ++ rest := by
      have tails := congrArg List.tail stack
      rwa [List.tail_drop] at tails
    have first := step_mov here value place
    obtain ⟨general, run, taken, kept⟩ :=
      ih (s := { s.set (.general r) w with pc := s.pc + 1 }) others distinct later pointer behind
        (Nat.succ.inj length) (by omega)
    have count : s.pc + 1 + registers.length = s.pc + (registers.length + 1) := by omega
    refine ⟨general, .step first ?_, ?_, fun r' out => ?_⟩
    · rw [List.length_cons, ← count]
      exact run
    · rw [List.map_cons, kept r new, taken]
      simp [State.set]
    · obtain ⟨ne, out⟩ := List.ne_and_not_mem_of_not_mem_cons out
      rw [kept r' out]
      exact State.get_set_of_ne (p := .general r) (q := .general r') fun same => ne (Place.general.inj same)

/-! ## A call and its return -/

section

variable {frameWords : Nat} {sources targets : List (Fin generalRegisters)}

/-- The caller pushes its arguments and calls. -/
theorem call_run (l : m.Linkage frameWords sources targets) (begins : s.pc = l.site)
    (stack : s.Stacked (top + 1 + sources.length) words) :
    ∃ t, m.Reaches (sources.length + 1) s t ∧ t.pc = l.entrance ∧ t.general = s.general ∧
      t.basePointer = s.basePointer ∧
      t.Stacked top (Word.ofNat (l.site + sources.length + 1) :: s.values sources ++ words) := by
  obtain ⟨code, ⟨x, called, target⟩, -⟩ := l.calls.call
  rw [← begins] at code
  rw [← sources.length_reverse] at stack
  obtain ⟨t, run, pc, general, basePointer, stacked⟩ := pushes_run l.passes.reverse code stack
  have values : (s.values sources.reverse).reverse = s.values sources := by
    rw [State.values, List.map_reverse, List.reverse_reverse, State.values]
  rw [List.length_reverse] at run pc
  rw [values] at stacked
  rw [begins] at pc
  have here : m.code[t.pc]? = some (.call x) := by rw [pc, ← l.passes.length, called]
  have inside : l.entrance < m.code.size := by
    obtain ⟨_, _, _, _, _, _, _, _, _, _, _, first, _⟩ := l.enters.enter
    exact (Array.getElem?_eq_some_iff.mp first).1
  refine ⟨{ t.pushed (Word.ofNat (t.pc + 1)) with pc := l.entrance },
    run.trans (.one (step_call here target l.called inside l.size stacked)), rfl, general, basePointer, ?_⟩
  rw [← pc]
  exact (stacked.pushed _).goto _

/-- The callee sets up its frame and takes the arguments. -/
theorem prologue_run (l : m.Linkage frameWords sources targets) (distinct : targets.Nodup) {returns : Word}
    {args : List Word} (length : args.length = targets.length) (begins : s.pc = l.entrance)
    (stack : s.Stacked (base + 1) (returns :: args ++ words)) (room : frameWords ≤ base)
    (small : base + argBase + args.length < 2 ^ 63) :
    ∃ t, m.Reaches (targets.length + 4) s t ∧ t.pc = l.start ∧ t.values targets = args ∧
      t.basePointer.toInt = base ∧ t.stackPointer.toInt + frameWords = base ∧ base ≤ t.memory.size ∧
      t.above base = s.basePointer :: returns :: args ++ words := by
  obtain ⟨saved, pointer, top, sinks, label, pool, isSaved, isPointer, isTop, isSinks, isLabel, pushes, moves,
    reserves, loads, jumps⟩ := l.enters.enter
  rw [← begins] at pushes moves reserves loads jumps
  have stacked := stack.pushed s.basePointer
  let framed : State :=
    { s.pushed s.basePointer with
      basePointer := (s.pushed s.basePointer).stackPointer
      stackPointer := (s.pushed s.basePointer).stackPointer - Word.ofNat frameWords
      pc := s.pc + 3 }
  have frame : m.Reaches 3 s framed := by
    have first := step_push pushes (w := s.basePointer) (by rw [isSaved]; rfl) stack
    have second := step_mov (s := { s.pushed s.basePointer with pc := s.pc + 1 }) (p := .basePointer)
      (w := (s.pushed s.basePointer).stackPointer) moves (by rw [isTop]; rfl) (by rw [isPointer]; rfl)
    refine .step first (.step second (.one ?_))
    exact step_arith (p := .stackPointer) reserves (by rw [l.reserves]; rfl) (by rw [isSinks]; rfl) rfl
      (by rw [isSinks]; rfl)
  have sunk : framed.stackPointer.toInt + frameWords = base := by
    have word := Word.toInt_ofNat (n := frameWords) (by omega)
    have pointer := stacked.pointer
    rw [Word.toInt_sub_of_bounds, pointer, word] <;> omega
  have behind : (framed.above base).drop (argBase + 0) = args ++ words := congrArg (List.drop 2) stacked.words
  obtain ⟨general, loaded, taken, -⟩ :=
    loads_run (s := framed) l.takes distinct loads stacked.pointer behind length (by omega)
  have ends : m.code[framed.pc + targets.length]? = some (.jump label) := by rw [← l.takes.length, jumps]
  have last := step_jump (s := { framed with general, pc := framed.pc + targets.length }) ends isLabel l.begins
    l.inside l.size
  exact ⟨_, (frame.trans (loaded.trans (.one last))).of_eq (by omega), rfl, taken, stacked.pointer, sunk,
    stacked.inside, stacked.words⟩

/-- The callee gives its frame back and returns. -/
theorem epilogue_run (l : m.Linkage frameWords sources targets) {saved : Word} (begins : t.pc = l.exit)
    (pointer : t.stackPointer.toInt + frameWords = base) (inside : base ≤ t.memory.size)
    (stack : t.above base = saved :: Word.ofNat (l.site + sources.length + 1) :: words)
    (small : base + argBase < 2 ^ 63) :
    ∃ u, m.Reaches 3 t u ∧ u.pc = l.site + sources.length + 1 ∧ u.general = t.general ∧
      u.basePointer = saved ∧ u.Stacked (base + argBase) words := by
  obtain ⟨sinks, pointer', isSinks, isPointer, releases, restores, returns⟩ := l.leaves.leave
  rw [← begins] at releases restores returns
  have two : argBase = 2 := rfl
  let released : State := { t with stackPointer := t.stackPointer + Word.ofNat frameWords, pc := t.pc + 1 }
  have stacked : released.Stacked base (saved :: Word.ofNat (l.site + sources.length + 1) :: words) := by
    refine ⟨?_, inside, stack⟩
    rw [← pointer]
    exact Word.toInt_add_ofNat (by omega)
  let restored : State := { released.popped with basePointer := saved, pc := t.pc + 2 }
  have stacked' : restored.Stacked (base + 1) (Word.ofNat (l.site + sources.length + 1) :: words) := by
    have rest := stacked.popped (by omega)
    exact ⟨rest.pointer, rest.inside, rest.words⟩
  have first : m.step t = .ok (.next released) :=
    step_arith (p := .stackPointer) releases (by rw [l.reserves]; rfl) (by rw [isSinks]; rfl) rfl
      (by rw [isSinks]; rfl)
  have second : m.step released = .ok (.next restored) :=
    step_pop (p := .basePointer) restores stacked (by rw [isPointer]; rfl)
  have third := step_ret (s := restored) returns stacked' l.goesOn l.size
  exact ⟨_, .step first (.step second (.one third)), rfl, rfl, rfl, (stacked'.popped (by omega)).goto _⟩

/-- The caller drops the arguments, if there are any. -/
theorem cleanup_run (l : m.Linkage frameWords sources targets) {args : List Word}
    (length : args.length = sources.length) (begins : t.pc = l.site + sources.length + 1)
    (stack : t.Stacked base (args ++ words)) (small : base + args.length < 2 ^ 63) :
    ∃ u, m.Reaches (l.sequence.length - (sources.length + 1)) t u ∧ u.pc = l.site + l.sequence.length ∧
      u.general = t.general ∧ u.basePointer = t.basePointer ∧ u.Stacked (base + args.length) words := by
  obtain ⟨-, -, drops⟩ := l.calls.call
  have passed := l.passes.length
  by_cases none : l.arguments = []
  · have sequence : l.sequence.length = 1 := by simp [Linkage.sequence, callSequence, none]
    have empty : sources.length = 0 := by rw [← passed, none]; rfl
    have empty' : args = [] := List.eq_nil_of_length_eq_zero (length.trans empty)
    subst empty'
    rw [sequence, empty]
    exact ⟨t, .refl t, by omega, rfl, rfl, stack⟩
  · obtain ⟨sinks, count, code, isSinks, isCount⟩ := drops none
    have sequence : l.sequence.length = sources.length + 2 := by
      simp [Linkage.sequence, callSequence, none, passed]
    rw [passed, ← begins] at code
    have only := step_arith (p := .stackPointer) code (by rw [isCount]; rfl) (by rw [isSinks]; rfl) rfl
      (by rw [isSinks]; rfl)
    rw [sequence, show sources.length + 2 - (sources.length + 1) = 1 by omega]
    have pointer := stack.pointer
    have all := congrArg List.length stack.words
    rw [State.above, List.length_drop, Array.length_toList, List.length_append] at all
    have inside := stack.inside
    refine ⟨_, .one only, ?_, rfl, rfl, ?_, ?_, ?_⟩
    · dsimp only
      omega
    · rw [passed, ← length]
      show (t.stackPointer + Word.ofNat args.length).toInt = _
      rw [Word.toInt_add_ofNat] <;> omega
    · show base + args.length ≤ t.memory.size
      omega
    · show t.above (base + args.length) = words
      have dropped := congrArg (List.drop args.length) stack.words
      rwa [State.above, List.drop_drop, List.drop_left] at dropped

/-- **Both sides of the calling convention agree.**  The pushes and the call of the caller and the prologue of the
callee bring the word of every argument into the register of its parameter, leave the base pointer at the saved base
pointer, and reserve the frame below it.  From any state at the epilogue that has the pointers and the words from the
base pointer on as they were then, the callee returns behind the call, and when the caller has dropped its arguments,
both pointers and all words from the original stack pointer on are as they were before the call. -/
theorem convention_agrees (l : m.Linkage frameWords sources targets) (count : targets.length = sources.length)
    (distinct : targets.Nodup) (begins : s.pc = l.site) (pointer : s.stackPointer.toInt = top)
    (inside : top ≤ s.memory.size) (room : sources.length + 2 + frameWords ≤ top) :
    ∃ (base : Nat) (entered : State), base + 2 + sources.length = top ∧
      m.Reaches (2 * sources.length + 5) s entered ∧ entered.pc = l.start ∧
      entered.values targets = s.values sources ∧
      entered.basePointer.toInt = base ∧ entered.memory[base]? = some s.basePointer ∧
      entered.stackPointer.toInt + frameWords = base ∧
      ∀ left : State, left.pc = l.exit → left.stackPointer = entered.stackPointer →
        left.basePointer = entered.basePointer → left.above base = entered.above base →
        ∃ back after, m.Reaches 3 left back ∧ back.pc = l.site + sources.length + 1 ∧
          m.Reaches (l.sequence.length - (sources.length + 1)) back after ∧
          after.pc = l.site + l.sequence.length ∧ after.stackPointer = s.stackPointer ∧
          after.basePointer = s.basePointer ∧ after.above top = s.above top ∧ after.general = left.general := by
  obtain ⟨base, rfl⟩ : ∃ base, top = base + argBase + sources.length := ⟨top - 2 - sources.length, by
    rw [argBase]; omega⟩
  have most := s.stackPointer.toInt_lt
  rw [argBase] at *
  have stack : s.Stacked (base + 1 + 1 + sources.length) (s.above (base + 2 + sources.length)) :=
    ⟨pointer, inside, rfl⟩
  obtain ⟨called, run, pc, general, basePointer, stacked⟩ := call_run l begins stack
  have length : (s.values sources).length = targets.length := by rw [State.values, List.length_map, count]
  obtain ⟨entered, run', pc', values, pointer', sunk, inside', stack'⟩ :=
    prologue_run l distinct length pc stacked (by omega) (by rw [argBase, length, count]; omega)
  rw [basePointer] at stack'
  have saved : entered.memory[base]? = some s.basePointer := by
    have first := congrArg List.head? stack'
    simpa [State.above, List.head?_drop] using first
  refine ⟨base, entered, rfl, (run.trans run').of_eq (by omega), pc', values, pointer', saved, sunk, ?_⟩
  intro left exits sameTop _ sameStack
  have within : base ≤ left.memory.size := by
    have some := congrArg List.length (sameStack.trans stack')
    rw [State.above, List.length_drop, Array.length_toList, List.length_append, List.length_cons] at some
    omega
  obtain ⟨back, run, pc, general, basePointer, stacked⟩ :=
    epilogue_run l exits (sameTop ▸ sunk) within (sameStack.trans stack') (by rw [argBase]; omega)
  have length : (s.values sources).length = sources.length := by rw [State.values, List.length_map]
  obtain ⟨after, run', pc', general', basePointer', stacked'⟩ :=
    cleanup_run l length pc stacked (by rw [argBase, length]; omega)
  rw [length, argBase] at stacked'
  refine ⟨back, after, run, pc, run', pc', ?_, basePointer'.trans basePointer, stacked'.words,
    general'.trans general⟩
  exact Int64.toInt_inj.mp (stacked'.pointer.trans pointer.symm)

end

namespace Twice

/-- Three registers and the immediate of a frame. -/
def before : Pool := { operands := #[.reg (.physical 3), .reg (.physical 1), .reg (.physical 5), .imm 2] }

/-- A call that passes one register twice. -/
def call : List Instruction × Pool := callSequence before "callee" [0, 0]

/-- The prologue of the function that it calls. -/
def enter : List Instruction × Pool := prologue call.2 3 [1, 2] "body"

/-- The epilogue of that function. -/
def leave : List Instruction × Pool := epilogue enter.2 3

def layout : Layout := { labels := [("callee", 5), ("body", 11)], size := 15 }

/-- A function that does nothing with its two arguments, and a caller that passes it one register twice. -/
def machine : Machine where
  code := (call.1 ++ [Instruction.halt] ++ enter.1 ++ [Instruction.nop] ++ leave.1).toArray
  pool := { operands := (leave.2.operands.toList.map layout.resolve).toArray }

def sources : List (Fin generalRegisters) := [⟨3, by decide⟩, ⟨3, by decide⟩]

def targets : List (Fin generalRegisters) := [⟨1, by decide⟩, ⟨5, by decide⟩]

def linkage : machine.Linkage 2 sources targets where
  layout := layout
  callee := "callee"
  body := "body"
  arguments := [0, 0]
  parameters := [1, 2]
  frame := 3
  caller := before
  entering := call.2
  leaving := enter.2
  site := 0
  entrance := 5
  start := 11
  exit := 12
  size := by decide
  passes := rfl
  takes := rfl
  reserves := rfl
  calls := ⟨by decide, by decide⟩
  goesOn := by decide
  called := rfl
  enters := ⟨by decide, by decide⟩
  begins := rfl
  inside := by decide
  leaves := ⟨by decide, by decide⟩

/-- A state at the call, with one word on the stack. -/
def state : State :=
  { State.initial 8 0 with
    general := (Vector.replicate generalRegisters 0).set 3 42 (by decide)
    stackPointer := 7 }

/-- Both parameters are the register that is passed twice, and the stack is restored. -/
theorem machine_agrees :
    ∃ entered after : State, machine.Reaches 9 state entered ∧ entered.values targets = [42, 42] ∧
      machine.Reaches 14 state after ∧ after.pc = 4 ∧ after.stackPointer = 7 ∧ after.basePointer = 8 ∧
      after.above 7 = state.above 7 := by
  obtain ⟨base, entered, -, run, pc, values, -, -, -, later⟩ :=
    convention_agrees linkage (s := state) rfl (by decide) rfl (show state.stackPointer.toInt = (7 : Nat) from rfl)
      (by decide) (by decide)
  have body : machine.step entered = .ok (.next { entered with pc := 12 }) := by
    have here : machine.code[entered.pc]? = some .nop := by rw [pc]; rfl
    rw [step_eq here, pc]
    rfl
  obtain ⟨back, after, returns, -, drops, pc', pointer, saved, stack, -⟩ :=
    later { entered with pc := 12 } rfl rfl rfl rfl
  have whole := run.trans (.step body (returns.trans drops))
  exact ⟨entered, after, run, values, whole, pc', pointer, saved, stack⟩

end Twice

end Codegen86.Machine
