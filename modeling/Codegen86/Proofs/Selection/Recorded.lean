import Codegen86.Proofs.Selection.Reachable
import Codegen86.Proofs.Selection.Steps
/-!
# What selection records

Selection writes into the journal while it makes code: when it enters a function, when it begins a block, when it
emits an instruction, and when a function is whole.  The blocks are put together, split and collected elsewhere, and
the two stay in step (`Lowering.Noted`): the journal of a selected program is what reading the program from its first
function to its last one would write (`select_journal`).
-/

set_option autoImplicit false

namespace Codegen86

open Target

/-! ## Reading code into a journal -/

namespace Journal

/-- The journal after code is selected. -/
def selectCode (j : Journal) (code : List Instruction) : Journal :=
  code.foldl (fun j i => j.recordInstruction i.mnemonic) j

/-- The journal after a block is selected. -/
def selectBlock (j : Journal) (b : Block) : Journal := j.recordBlock.selectCode b.code

/-- The journal after a function is selected. -/
def selectFunction (j : Journal) (f : Function) : Journal :=
  (f.blocks.foldl selectBlock (j.enter f.name)).recordFunction f.name f.size

theorem selectCode_concat (j : Journal) (code : List Instruction) (i : Instruction) :
    j.selectCode (code ++ [i]) = (j.selectCode code).recordInstruction i.mnemonic := List.foldl_concat ..

end Journal

namespace Selection

open IR (ValueId BlockId)

variable {j : Journal} {c : Context} {s s' : Lowering}

namespace Lowering

/-- The journal is at the code of the block under construction. -/
def Noted (j : Journal) (s : Lowering) : Prop :=
  s.journal = (s.done.toList.foldl Journal.selectBlock j).recordBlock.selectCode s.code.toList

/-- The journal is between two blocks. -/
def Settled (j : Journal) (s : Lowering) : Prop := s.journal = s.done.toList.foldl Journal.selectBlock j

theorem Settled.begin (h : s.Settled j) (name : String) : (s.beginBlock name).Noted j :=
  congrArg Journal.recordBlock h

theorem Noted.end (h : s.Noted j) : s.endBlock.Settled j := by
  show s.journal = (s.done.push { name := s.name, code := s.code.toList }).toList.foldl Journal.selectBlock j
  rw [Array.toList_push, List.foldl_concat]
  exact h

theorem Noted.emit (h : s.Noted j) (i : Instruction) : (s.emit i).Noted j := by
  show s.journal.recordInstruction i.mnemonic = Journal.selectCode _ (s.code.push i).toList
  rw [Array.toList_push, Journal.selectCode_concat]
  exact congrArg (·.recordInstruction i.mnemonic) h

end Lowering

/-! ## Steps -/

theorem Adds.noted (h : Adds s s') (noted : s.Noted j) : s'.Noted j := by
  cases h with
  | operands | label => exact noted
  | emit i => exact noted.emit i

/-- Where a block ends and another begins, the first is noted whole. -/
theorem Step.noted {e : Event} (h : Step c s e s') (noted : s.Noted j) : s'.Noted j := by
  cases h with
  | next name => exact noted.end.begin name
  | call =>
    show (s.toSelector.find _).journal = _
    unfold Selector.find
    split <;> exact noted
  | lead labels =>
    cases labels with
    | known _ same => exact same ▸ noted
    | new _ _ _ same => exact same ▸ noted
  | held | loaded | slot | define | reserve => exact noted

theorem Steps.noted {events : List Event} (h : Steps c s events s') (noted : s.Noted j) : s'.Noted j := by
  induction h with
  | refl => exact noted
  | adds first _ ih => exact ih (first.noted noted)
  | event first _ ih => exact ih (first.noted noted)

namespace Lowering

/-! ## Blocks and functions -/

/-- A block that is one sequence is noted whole. -/
theorem Settled.sequence (c : Context) {sequence : Pool → List Instruction × Pool} (h : s.Settled j) (name : String)
    (grows : s.program.pool.Grows (sequence s.program.pool).2) :
    ((s.beginBlock name).emitSequence sequence).endBlock.Settled j := by
  have steps : Steps c (s.beginBlock name) [] ((s.beginBlock name).emitSequence sequence) :=
    Steps.refl.emitSequence sequence grows
  exact (steps.noted (h.begin name)).end

theorem Settled.block {id : BlockId} {label : String} (h : s.Settled j) (ok : s.block c id label = .ok s') :
    s'.Settled j := by
  obtain ⟨t, all, ok⟩ := bind_ok.mp ok
  cases ok
  exact ((operations_steps all).noted (h.begin label)).end

theorem Settled.blocks {fuel position : Nat} (h : s.Settled j) (ok : s.blocks c fuel position = .ok s') :
    s'.Settled j := by
  induction fuel generalizing position s with
  | zero =>
    cases ok
    exact h
  | succ fuel ih =>
    unfold Lowering.blocks at ok
    split at ok
    · cases ok
      exact h
    · obtain ⟨t, one, ok⟩ := bind_ok.mp ok
      exact ih (h.block one) ok

end Lowering

variable {source : IR.Program} {selector selector' : Selector} {f : IR.Function} {t : Function}

theorem lowerBody_settled {frame : OperandRef} {args : List OperandRef}
    (ok : lowerBody source selector f = .ok (c, frame, args, s)) :
    s.Settled (selector.journal.enter f.name) := by
  unfold lowerBody at ok
  cases planned : Plan.ofFunction f with
  | error defect =>
    rw [planned] at ok
    cases ok
  | ok plan =>
    rw [planned] at ok
    obtain ⟨_, same, ok⟩ := bind_ok.mp ok
    cases same
    obtain ⟨⟨body, u⟩, labelled, ok⟩ := bind_ok.mp ok
    obtain ⟨refs, pool, registers, -, -⟩ := freshRegisters_spec u.toSelector f.arity
    dsimp only at ok
    rw [registers] at ok
    obtain ⟨last, blocks, ok⟩ := bind_ok.mp ok
    have result := Except.ok.inj ok
    simp only [Prod.mk.injEq] at result
    obtain ⟨context, rfl, -, rfl⟩ := result
    rw [context] at blocks
    have start : (Lowering.opened selector f plan).Settled (selector.journal.enter f.name) := rfl
    have opened : u.Settled (selector.journal.enter f.name) := by
      have labelled : (Lowering.opened selector f plan).labelOf _ 0 = .ok (body, u) := labelled
      cases labelOf_cases labelled with
      | known _ same => exact same ▸ start
      | new _ _ _ same => exact same ▸ start
    have begun : Lowering.Settled (selector.journal.enter f.name)
        { u with program := { u.program with pool }, registers := u.registers + f.arity } := opened
    exact (begun.sequence c _ (prologue_grows pool _ refs body)).blocks blocks

/-- A function that is lowered is noted block by block, and then as a whole. -/
theorem lowerFunction_journal (ok : lowerFunction source selector f = .ok (t, selector')) :
    selector'.journal = selector.journal.selectFunction t := by
  obtain ⟨⟨c, frame, args, s⟩, body, ok⟩ := bind_ok.mp ok
  obtain ⟨t', added, ok⟩ := bind_ok.mp ok
  let w := ((s.beginBlock c.epilogue).emitSequence fun pool => Calling.epilogue pool frame).endBlock
  let empty : Function := { name := f.name, args, frameSize := w.frame.words, frame := some frame }
  have settled : w.Settled (selector.journal.enter f.name) :=
    (lowerBody_settled body).sequence c _ (epilogue_grows s.program.pool frame)
  have added : w.done.toList.foldlM Function.addBlock empty = .ok t' := added
  obtain ⟨rfl, -⟩ := (addBlocks_iff (t := empty) List.nodup_nil).mp added
  cases ok
  exact congrArg (Journal.recordFunction · f.name _) settled

/-- The epilogue alone has instructions. -/
theorem lowerFunction_size (ok : lowerFunction source selector f = .ok (t, selector')) : 0 < t.size := by
  obtain ⟨c, frame, s, s', composes⟩ := lowerFunction_composes ok
  rw [Function.size, Function.code, composes.all, List.flatMap_append, List.length_append]
  exact Nat.add_pos_right _ (by simp [Calling.epilogue])

theorem lowerFound_journal {fuel position : Nat} {s s' : Selector} (ok : lowerFound source fuel position s = .ok s') :
    ∃ more, s'.program.functions = s.program.functions ++ more ∧
      s'.journal = more.foldl Journal.selectFunction s.journal ∧ ∀ t ∈ more, 0 < t.size := by
  induction fuel generalizing position s with
  | zero =>
    cases ok
    exact ⟨[], (List.append_nil _).symm, rfl, nofun⟩
  | succ fuel ih =>
    unfold lowerFound at ok
    split at ok
    · cases ok
      exact ⟨[], (List.append_nil _).symm, rfl, nofun⟩
    · split at ok
      · cases ok
      · rename_i f origin
        obtain ⟨⟨t, u⟩, one, ok⟩ := bind_ok.mp ok
        obtain ⟨p, added, ok⟩ := bind_ok.mp ok
        obtain ⟨-, rfl⟩ := add_iff.mp added
        obtain ⟨more, functions, journal, sizes⟩ := ih ok
        obtain ⟨c, frame, v, v', lowers⟩ := lowerFunction_cases one
        obtain ⟨E, -, -, -, -, grows⟩ := lowers.lowered
        refine ⟨t :: more, ?_, ?_, List.forall_mem_cons.mpr ⟨lowerFunction_size one, sizes⟩⟩
        · rw [functions, grows.functions, List.append_assoc, List.singleton_append]
        · rw [journal, List.foldl_cons, lowerFunction_journal one]

/-- The journal of a selected program is what reading the program writes. -/
theorem select_journal {entry : String} {journal journal' : Journal} {p : Program}
    (ok : select source entry journal = .ok (p, journal')) :
    journal' = p.functions.foldl Journal.selectFunction journal ∧ ∀ t ∈ p.functions, 0 < t.size := by
  unfold select at ok
  split at ok
  · cases ok
  · obtain ⟨s, all, ok⟩ := bind_ok.mp ok
    cases ok
    obtain ⟨more, functions, recorded, sizes⟩ := lowerFound_journal all
    have functions : s.program.functions = more := functions
    rw [functions]
    exact ⟨recorded, sizes⟩

end Selection

end Codegen86
