import Codegen86.Proofs.Stack.Stages
import Codegen86.Proofs.Symbolic.Effect
/-!
# Running at a stage

A linked program whose instructions lead from stage to stage (`Staged`) never gets stuck, and what goes
wrong in it is a division by zero, a full stack or an address outside memory.  For what the calls that have
not returned have left on the stack stays there (`Chain`): the return addresses and the saved base
pointers are above the words that the function running may write.
-/

set_option autoImplicit false

namespace Codegen86.Stack

open Target Symbolic Machine

/-- What goes wrong for want of memory or of a quotient. -/
def Harmless : Trap → Prop
  | .divisionByZero | .stackOverflow | .invalidAddress _ => True
  | _ => False

/-! ## Operands -/

variable {M : Model} {pool : Pool} {v v' : View} {o : Operand} {w : Word} {t : Trap}

theorem harmless_of_address {offset : Word} (failed : v.address M .basePointer offset = .error t) :
    Harmless t := by
  simp only [View.address, View.register, bind, Except.bind] at failed
  split at failed
  · cases failed
  · cases failed
    trivial

theorem Readable.harmless (h : Readable o) (failed : v.read M o = .error t) : Harmless t := by
  cases o with
  | reg r =>
    cases r with
    | physical i =>
      have known : i < generalRegisters := h
      simp [View.read, View.register, known] at failed
    | abstract i => exact absurd h id
    | _ => cases failed
  | mem base offset =>
    obtain rfl : base = .basePointer := h
    simp only [View.read, bind, Except.bind] at failed
    split at failed
    · rename_i outside
      cases failed
      exact harmless_of_address outside
    · cases failed
  | imm value => cases failed
  | label l => exact absurd h id

theorem Writable.harmless (h : Writable o) (failed : v.write M o w = .error t) : Harmless t := by
  cases o with
  | reg r =>
    cases r with
    | physical i =>
      have known : i < generalRegisters := h
      simp [View.write, View.setRegister, known] at failed
    | _ => exact absurd h id
  | mem base offset =>
    obtain ⟨rfl, -⟩ := h
    simp only [View.write, bind, Except.bind] at failed
    split at failed
    · rename_i outside
      cases failed
      exact harmless_of_address outside
    · cases failed
  | _ => exact absurd h id

/-- The pointers are as they were, and so is memory from the base pointer on. -/
structure Steady (v v' : View) : Prop where
  stackPointer : v'.stackPointer = v.stackPointer
  basePointer : v'.basePointer = v.basePointer
  memory : ∀ a, v.basePointer.toInt ≤ a.toInt → v'.memory a = v.memory a

theorem Writable.steady (h : Writable o) (low : 0 ≤ v.basePointer.toInt) (done : v.write M o w = .ok v') :
    Steady v v' := by
  rcases write_ok done with ⟨k, rfl, rfl⟩ | ⟨r, rfl, rfl⟩ | ⟨rfl, rfl⟩ | ⟨rfl, rfl⟩ |
    ⟨base, offset, a, rfl, found, valid, rfl⟩
  · exact absurd h id
  · exact ⟨rfl, rfl, fun _ _ => rfl⟩
  · exact absurd h id
  · exact absurd h id
  · obtain ⟨rfl, negative⟩ := h
    cases found
    have negative : offset.toInt < 0 := by simpa [Int64.lt_iff_toInt_lt] using negative
    have least := offset.le_toInt
    have most := v.basePointer.toInt_lt
    refine ⟨rfl, rfl, fun a above => put_of_ne _ _ fun same => ?_⟩
    rw [same, Word.toInt_add_of_bounds] at above <;> omega

theorem Neutral.execute {i : Instruction} (h : Neutral pool.get i) (low : 0 ≤ v.basePointer.toInt) :
    match v.execute M pool i with
    | .ok v' => Steady v v'
    | .error t => Harmless t := by
  cases h with
  | nop => exact ⟨rfl, rfl, fun _ _ => rfl⟩
  | @mov x y target source =>
    simp only [View.execute, bind, Except.bind]
    cases read : v.read M (pool.get y) with
    | error t => exact source.harmless read
    | ok value =>
      dsimp only
      cases done : v.write M (pool.get x) value with
      | error t => exact target.harmless done
      | ok v' => exact target.steady low done
  | @arith op x y target source =>
    simp only [View.execute, bind, Except.bind]
    cases read : v.read M (pool.get y) with
    | error t => exact source.harmless read
    | ok value =>
      dsimp only
      cases old : v.read M (pool.get x) with
      | error t => exact target.readable.harmless old
      | ok before =>
        dsimp only
        cases eval : op.eval before value with
        | none => trivial
        | some result =>
          dsimp only
          cases done : v.write M (pool.get x) result with
          | error t => exact target.harmless done
          | ok v' => exact target.steady low done
  | @cmp x y left right =>
    simp only [View.execute, bind, Except.bind, pure, Except.pure]
    cases read : v.read M (pool.get y) with
    | error t => exact right.harmless read
    | ok value =>
      dsimp only
      cases other : v.read M (pool.get x) with
      | error t => exact left.harmless other
      | ok before => exact ⟨rfl, rfl, fun _ _ => rfl⟩

/-- What a push comes to. -/
theorem push_cases (v : View) (w : Word) :
    v.push M w = .error .stackOverflow ∨ 0 < v.stackPointer.toInt ∧
      M.valid (v.stackPointer - 1) = true ∧ (v.stackPointer - 1).toInt = v.stackPointer.toInt - 1 ∧
      v.push M w = .ok { v with
        stackPointer := v.stackPointer - 1
        memory := put v.memory (v.stackPointer - 1) w } := by
  unfold View.push
  dsimp only
  split
  · rename_i room
    have positive : 0 < v.stackPointer.toInt := by simpa [Int64.lt_iff_toInt_lt] using room.1
    have most := v.stackPointer.toInt_lt
    have one : (1 : Word).toInt = 1 := rfl
    exact .inr ⟨positive, room.2, by rw [Word.toInt_sub_of_bounds, one] <;> omega, rfl⟩
  · exact .inl rfl

/-! ## Stages -/

/-- The base pointer of the caller: where the function that called it has saved its own, or as it was at the
start. -/
def callerBase (bottom : Word) : List (Word × Point) → Word
  | [] => bottom
  | (cell, _) :: _ => cell - 1

/-- The pointers at a stage, in a function that has its return address in `cell`, and the base pointer where
it was saved. -/
def Stands (bottom : Word) (cell : Word) (rest : List (Word × Point)) (v : View) : Stage → Prop
  | .entered => v.stackPointer = cell ∧ v.basePointer = callerBase bottom rest
  | .saved => v.stackPointer = cell - 1 ∧ v.memory (cell - 1) = callerBase bottom rest ∧ 0 < cell.toInt
  | .framed w => v.basePointer = cell - 1 ∧ v.memory (cell - 1) = callerBase bottom rest ∧
      0 < cell.toInt ∧ v.stackPointer + w = cell - 1 ∧ v.stackPointer.toInt < cell.toInt

variable {bottom cell : Word} {rest : List (Word × Point)} {k k' : Stage}

theorem toInt_pred (positive : 0 < cell.toInt) : (cell - 1).toInt = cell.toInt - 1 := by
  have most := cell.toInt_lt
  have one : (1 : Word).toInt = 1 := rfl
  rw [Word.toInt_sub_of_bounds, one] <;> omega

/-- A word less than one that is not negative. -/
theorem toInt_sub_le {a b : Word} (low : 0 ≤ a.toInt) (least : 0 ≤ b) : (a - b).toInt ≤ a.toInt := by
  have least : 0 ≤ b.toInt := by simpa [Int64.le_iff_toInt_le] using least
  have most := a.toInt_lt
  have most' := b.toInt_lt
  rw [Word.toInt_sub_of_bounds] <;> omega

/-- Executing an instruction that goes on leads to the next stage, and changes no word from the return
address on. -/
theorem Shifts.execute {i : Instruction} (h : Shifts pool.get k i k') (plain : i.isPlain = true)
    (stands : Stands bottom cell rest v k) :
    match v.execute M pool i with
    | .ok v' => Stands bottom cell rest v' k' ∧ ∀ a, cell.toInt ≤ a.toInt → v'.memory a = v.memory a
    | .error t => Harmless t := by
  cases h with
  | save base =>
    obtain ⟨top, saved⟩ := stands
    simp only [View.execute, base, View.read, View.register, bind, Except.bind, pure, Except.pure]
    rcases push_cases (M := M) v v.basePointer with full | ⟨positive, valid, place, pushed⟩
    · rw [full]
      trivial
    · rw [pushed]
      rw [top] at positive place
      refine ⟨⟨by rw [← top]; rfl, ?_, positive⟩, fun a above => ?_⟩
      · show put v.memory (v.stackPointer - 1) v.basePointer (cell - 1) = _
        rw [top, put_self, saved]
      · show put v.memory (v.stackPointer - 1) v.basePointer a = _
        refine put_of_ne _ _ fun same => ?_
        rw [same, top, place] at above
        omega
  | base target source =>
    obtain ⟨top, saved, positive⟩ := stands
    simp only [View.execute, target, source, View.read, View.register, View.write, View.setRegister, bind,
      Except.bind]
    refine ⟨⟨top, saved, positive, ?_, ?_⟩, fun _ _ => trivial⟩
    · rw [show v.stackPointer + 0 = v.stackPointer by grind]
      exact top
    · rw [top, toInt_pred positive]
      omega
  | @reserve x y w target amount least =>
    obtain ⟨base, saved, positive, top, -⟩ := stands
    simp only [View.execute, target, amount, View.read, View.register, View.write, View.setRegister,
      Arith.eval, bind, Except.bind]
    have top : v.stackPointer = cell - 1 := by grind
    have place := toInt_pred positive
    have less := toInt_sub_le (a := cell - 1) (by omega) least
    refine ⟨⟨base, saved, positive, ?_, ?_⟩, fun _ _ => trivial⟩
    · show v.stackPointer - w + w = cell - 1
      grind
    · show (v.stackPointer - w).toInt < cell.toInt
      rw [top]
      omega
  | @drop x y before after w target amount sum least =>
    obtain ⟨base, saved, positive, top, -⟩ := stands
    simp only [View.execute, target, amount, View.read, View.register, View.write, View.setRegister,
      Arith.eval, bind, Except.bind]
    have place := toInt_pred positive
    have less := toInt_sub_le (a := cell - 1) (by omega) least
    refine ⟨⟨base, saved, positive, ?_, ?_⟩, fun _ _ => trivial⟩
    · show v.stackPointer + w + after = cell - 1
      grind
    · show (v.stackPointer + w).toInt < cell.toInt
      rw [show v.stackPointer + w = cell - 1 - after by grind]
      omega
  | @push x w source =>
    obtain ⟨base, saved, positive, top, below⟩ := stands
    simp only [View.execute, bind, Except.bind, pure, Except.pure]
    cases read : v.read M (pool.get x) with
    | error t => exact source.harmless read
    | ok value =>
      dsimp only
      rcases push_cases (M := M) v value with full | ⟨room, valid, place, pushed⟩
      · rw [full]
        trivial
      · rw [pushed]
        have kept : ∀ a, cell.toInt - 1 ≤ a.toInt →
            put v.memory (v.stackPointer - 1) value a = v.memory a := by
          intro a above
          refine put_of_ne _ _ fun same => ?_
          rw [same, place] at above
          omega
        refine ⟨⟨base, ?_, positive, ?_, ?_⟩, fun a above => kept a (by omega)⟩
        · exact (kept _ (Int.le_of_eq (toInt_pred positive).symm)).trans saved
        · show v.stackPointer - 1 + (w + 1) = cell - 1
          grind
        · show (v.stackPointer - 1).toInt < cell.toInt
          omega
  | neutral neutral =>
    obtain ⟨base, saved, positive, top, below⟩ := stands
    have place := toInt_pred positive
    have outcome := neutral.execute (M := M) (v := v) (by rw [base]; omega)
    cases done : v.execute M pool i with
    | error t =>
      rw [done] at outcome
      exact outcome
    | ok v' =>
      rw [done] at outcome
      have memory : ∀ a, cell.toInt - 1 ≤ a.toInt → v'.memory a = v.memory a := fun a above =>
        outcome.memory a (by rw [base]; omega)
      refine ⟨⟨outcome.basePointer.trans base, ?_, positive, ?_, ?_⟩, fun a above => memory a (by omega)⟩
      · rw [memory _ (by omega), saved]
      · rw [outcome.stackPointer, top]
      · rw [outcome.stackPointer]
        exact below
  | call => cases plain
  | jump => cases plain
  | jumpIf => cases plain
  | @restore x base =>
    obtain ⟨-, saved, positive, top, -⟩ := stands
    have top : v.stackPointer = cell - 1 := by grind
    by_cases valid : M.valid v.stackPointer = true
    · simp only [View.execute, View.pop, if_pos valid, base, View.write, View.setRegister, bind, Except.bind]
      refine ⟨⟨?_, ?_⟩, fun _ _ => trivial⟩
      · show v.stackPointer + 1 = cell
        grind
      · show v.memory v.stackPointer = _
        rw [top, saved]
    · simp only [View.execute, View.pop, if_neg valid, bind, Except.bind]
      trivial
  | ret => cases plain

/-! ## Linked programs -/

/-- `At pc k` says that the instruction at `pc` is executed at stage `k`: the instructions lead from stage to
stage, a jump to the stage where it is, and calls to the start of functions. -/
structure Staged (P : Linked) (At : Nat → Stage → Prop) : Prop where
  start : At 0 .entered
  next : ∀ {pc k}, At pc k → ∃ i k', P.code[pc]? = some i ∧ Shifts P.pool.get k i k' ∧
    (i = .ret ∨ (∃ x, i = .jump x) ∨ At (pc + 1) k')
  jumps : ∀ {pc k x i}, At pc k → P.code[pc]? = some i → i = .jump x ∨ (∃ condition, i = .jumpIf condition x) →
    ∃ target, P.jumpTarget pc x = some target ∧ At target k
  calls : ∀ {pc k x}, At pc k → P.code[pc]? = some (.call x) →
    ∃ target, P.callTarget x = some target ∧ At target .entered

/-- What the calls that have not returned have left on the stack, the last one first.  In the cell of each
is its return address; the base pointer at the call was where its function had saved the one before. -/
inductive Chain (P : Linked) (At : Nat → Stage → Prop) (bottom : Word) (memory : Word → Word) :
    List (Word × Point) → Prop
  | out {cell : Word} (word : memory cell = sentinel) : Chain P At bottom memory [(cell, .out)]
  | back {cell outer w : Word} {pc : Nat} {locals : Nat → Word} {point : Point}
      {rest : List (Word × Point)} (word : memory cell = P.word pc) (stage : At pc (.framed w))
      (top : cell + 1 + w = outer - 1) (below : cell.toInt + 1 < outer.toInt)
      (saved : memory (outer - 1) = callerBase bottom rest)
      (tail : Chain P At bottom memory ((outer, point) :: rest)) :
      Chain P At bottom memory ((cell, .back pc locals) :: (outer, point) :: rest)

variable {P : Linked} {At : Nat → Stage → Prop} {memory memory' : Word → Word} {point : Point}

/-- The words from the last return address on matter, and no others. -/
theorem Chain.congr (h : Chain P At bottom memory ((cell, point) :: rest))
    (same : ∀ a, cell.toInt ≤ a.toInt → memory' a = memory a) :
    Chain P At bottom memory' ((cell, point) :: rest) := by
  generalize points : (cell, point) :: rest = all at h
  induction h generalizing cell point rest with
  | out word =>
    cases points
    exact .out ((same _ (Int.le_refl _)).trans word)
  | @back cell' outer w pc locals point' rest' word stage top below saved tail ih =>
    have least := cell'.le_toInt
    have most := outer.toInt_lt
    have one : (1 : Word).toInt = 1 := rfl
    have place : (outer - 1).toInt = outer.toInt - 1 := by
      rw [Word.toInt_sub_of_bounds, one] <;> omega
    cases points
    exact .back ((same _ (Int.le_refl _)).trans word) stage top below
      ((same _ (by omega)).trans saved) (ih (fun a above => same a (by omega)) rfl)

/-- A position where the stack is as the stage says. -/
structure Sound (P : Linked) (At : Nat → Stage → Prop) (bottom : Word) (c : Position) : Prop where
  stands : ∃ k cell point rest, c.points = (cell, point) :: rest ∧ At c.pc k ∧
    Chain P At bottom c.view.memory c.points ∧ Stands bottom cell rest c.view k

/-- A call that has not returned: where it has put its return address, that address, and the base pointer at
the call. -/
structure Pending where
  cell : Word
  address : Word
  base : Word
  deriving DecidableEq, Repr

/-- The calls that have not returned after an instruction at `pc`. -/
def pendingAfter (pc : Nat) (stackPointer basePointer : Word) (pending : List Pending) :
    Instruction → List Pending
  | .call _ => ⟨stackPointer - 1, Word.ofNat (pc + 1), basePointer⟩ :: pending
  | .ret => pending.tail
  | _ => pending

/-- The calls that have not returned, as they are recorded. -/
def pendingOf (P : Linked) (bottom : Word) : List (Word × Point) → List Pending
  | [] => []
  | (cell, point) :: rest => ⟨cell, P.wordOf point, callerBase bottom rest⟩ :: pendingOf P bottom rest

/-- The pointers and the top of the stack before a return: it pops the address that the last call has put
there, and the base pointer is as it was at the call. -/
structure Answers (pending : List Pending) (v : View) : Prop where
  matched : ∃ call ∈ pending.head?, v.stackPointer = call.cell ∧ v.memory call.cell = call.address ∧
    v.basePointer = call.base

variable {c : Position}

theorem Chain.word (h : Chain P At bottom memory ((cell, point) :: rest)) :
    memory cell = P.wordOf point := by
  cases h with
  | out word => exact word
  | back word => exact word

theorem Chain.answers (chain : Chain P At bottom v.memory ((cell, point) :: rest))
    (stands : Stands bottom cell rest v .entered) :
    Answers (pendingOf P bottom ((cell, point) :: rest)) v :=
  ⟨_, rfl, stands.1, chain.word, stands.2⟩

/-- A return leads behind the call, where the function is at the stage that it was. -/
theorem Staged.ret (h : Staged P At) {words : Nat} (model : P.model = .machine words false)
    (policy : P.policy = .innermost) (points : c.points = (cell, point) :: rest)
    (chain : Chain P At bottom c.view.memory ((cell, point) :: rest))
    (stands : Stands bottom cell rest c.view .entered) :
    match P.stepRet c with
    | .running d => Sound P At bottom d ∧ d.points = rest
    | .done _ => True
    | .failed t => Harmless t
    | .stuck => False := by
  obtain ⟨top, base⟩ := stands
  have least : c.view.pop P.model = .error (.invalidAddress c.view.stackPointer) ∨
      0 ≤ cell.toInt ∧ c.view.pop P.model =
        .ok (c.view.memory cell, { c.view with stackPointer := cell + 1 }) := by
    unfold View.pop
    rw [model]
    split
    · rename_i valid
      rw [Model.machine_valid, Word.index?_isSome, top] at valid
      exact .inr ⟨valid.1, by rw [top]⟩
    · exact .inl rfl
  unfold Linked.stepRet
  rcases least with failed | ⟨low, popped⟩
  · rw [failed]
    trivial
  · rw [popped]
    simp only [policy, points, Policy.recall, chain.word, if_true]
    cases chain with
    | out word => trivial
    | @back _ outer w pc locals point rest word stage place below saved tail =>
      obtain ⟨i, k', here, -⟩ := h.next stage
      have inside : pc < P.code.length := (List.getElem?_eq_some_iff.mp here).1
      simp only [if_pos inside]
      have most := outer.toInt_lt
      have one : (1 : Word).toInt = 1 := rfl
      have above : (cell + 1).toInt = cell.toInt + 1 := by
        rw [Word.toInt_add_of_bounds, one] <;> omega
      refine ⟨⟨.framed w, outer, point, rest, rfl, stage, tail, base, saved, by omega, place, ?_⟩, trivial⟩
      show (cell + 1).toInt < outer.toInt
      omega

/-- A call leads to the start of a function, with its return address on the stack. -/
theorem Staged.call {x : OperandRef} {target : Nat} (called : P.callTarget x = some target)
    (at_ : At target .entered) {w : Word} (back : At (c.pc + 1) (.framed w)) (points : c.points = (cell, point) :: rest)
    (chain : Chain P At bottom c.view.memory ((cell, point) :: rest))
    (stands : Stands bottom cell rest c.view (.framed w)) :
    match P.stepCall c x with
    | .running d => Sound P At bottom d ∧ ∃ locals,
        d.points = (c.view.stackPointer - 1, .back (c.pc + 1) locals) :: c.points
    | .failed t => Harmless t
    | _ => False := by
  obtain ⟨base, saved, positive, top, below⟩ := stands
  simp only [Linked.stepCall, called]
  rcases push_cases (M := P.model) c.view (P.word (c.pc + 1)) with full | ⟨room, valid, place, pushed⟩
  · rw [full]
    trivial
  · rw [pushed]
    have kept : ∀ a, cell.toInt - 1 ≤ a.toInt →
        put c.view.memory (c.view.stackPointer - 1) (P.word (c.pc + 1)) a = c.view.memory a := by
      intro a above
      refine put_of_ne _ _ fun same => ?_
      rw [same, place] at above
      omega
    have stored : Chain P At bottom (put c.view.memory (c.view.stackPointer - 1) (P.word (c.pc + 1)))
        ((cell, point) :: rest) := chain.congr fun a above => kept a (by omega)
    refine ⟨⟨.entered, _, _, _, rfl, at_, ?_, rfl, ?_⟩, _, rfl⟩
    · rw [points]
      refine .back (put_self _ _ _) back ?_ ?_ ?_ stored
      · show c.view.stackPointer - 1 + 1 + w = cell - 1
        grind
      · show (c.view.stackPointer - 1).toInt + 1 < cell.toInt
        omega
      · exact (kept _ (Int.le_of_eq (toInt_pred positive).symm)).trans saved
    · rw [points]
      exact base

/-- The next instruction of a sound position. -/
theorem Staged.step (h : Staged P At) {words : Nat} (model : P.model = .machine words false)
    (policy : P.policy = .innermost) (address : ∀ pc, P.word pc = Word.ofNat pc)
    (sound : Sound P At bottom c) :
    ∃ i, P.code[c.pc]? = some i ∧ (i = .ret → Answers (pendingOf P bottom c.points) c.view) ∧
      match P.step c with
      | .running d => Sound P At bottom d ∧ pendingOf P bottom d.points =
          pendingAfter c.pc c.view.stackPointer c.view.basePointer (pendingOf P bottom c.points) i
      | .done _ => True
      | .failed t => Harmless t
      | .stuck => False := by
  obtain ⟨k, cell, point, rest, points, at_, chain, stands⟩ := sound.stands
  rw [points] at chain
  obtain ⟨i, k', here, shifts, goes⟩ := h.next at_
  refine ⟨i, here, ?_, ?_⟩
  · rintro rfl
    cases shifts with
    | ret =>
      rw [points]
      exact chain.answers stands
    | neutral neutral => cases neutral
  · by_cases plain : i.isPlain = true
    · have after := shifts.execute (M := P.model) plain stands
      have goes : At (c.pc + 1) k' := by
        rcases goes with rfl | ⟨x, rfl⟩ | goes
        · cases plain
        · cases plain
        · exact goes
      rw [P.step_plain here plain, Linked.stepPlain]
      cases done : c.view.execute P.model P.pool i with
      | error t =>
        rw [done] at after
        exact after
      | ok v' =>
        rw [done] at after
        refine ⟨⟨k', cell, point, rest, points, goes, ?_, after.1⟩, ?_⟩
        · rw [points]
          exact chain.congr after.2
        · cases i <;> first | rfl | cases plain
    · have jumps := @h.jumps c.pc k
      rw [Linked.step, here]
      cases shifts with
      | jump =>
        obtain ⟨target, leads, there⟩ := jumps at_ here (.inl rfl)
        simp only [Linked.stepJump, leads]
        exact ⟨⟨_, cell, point, rest, points, there, points ▸ chain, stands⟩, rfl⟩
      | @jumpIf condition x w =>
        obtain ⟨target, leads, there⟩ := jumps at_ here (.inr ⟨condition, rfl⟩)
        have goes : At (c.pc + 1) (.framed w) := by
          rcases goes with none | ⟨x, none⟩ | goes
          · cases none
          · cases none
          · exact goes
        simp only [Linked.stepJumpIf, leads]
        refine ⟨⟨.framed w, cell, point, rest, points, ?_, points ▸ chain, stands⟩, rfl⟩
        split
        · exact there
        · exact goes
      | @call x w =>
        obtain ⟨target, called, there⟩ := h.calls at_ here
        have goes : At (c.pc + 1) (.framed w) := by
          rcases goes with none | ⟨x, none⟩ | goes
          · cases none
          · cases none
          · exact goes
        have base : c.view.basePointer = callerBase bottom c.points := by
          rw [points]
          exact stands.1
        have leads := Staged.call called there goes points chain stands
        show match P.stepCall c x with
          | .running d => _
          | .done _ => _
          | .failed t => _
          | .stuck => _
        cases go : P.stepCall c x with
        | running d =>
          rw [go] at leads
          obtain ⟨sound, locals, same⟩ := leads
          refine ⟨sound, ?_⟩
          rw [same, pendingOf, pendingAfter, base, ← address]
          rfl
        | failed t =>
          rw [go] at leads
          exact leads
        | _ =>
          rw [go] at leads
          exact leads.elim
      | ret =>
        have leads := h.ret model policy points chain stands
        show match P.stepRet c with
          | .running d => _
          | .done _ => _
          | .failed t => _
          | .stuck => _
        cases go : P.stepRet c with
        | running d =>
          rw [go] at leads
          refine ⟨leads.1, ?_⟩
          rw [leads.2, points]
          rfl
        | _ =>
          rw [go] at leads
          exact leads
      | neutral neutral => exact absurd neutral.plain plain
      | _ => exact absurd rfl plain

end Codegen86.Stack
