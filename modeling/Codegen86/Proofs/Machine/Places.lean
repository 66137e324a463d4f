import Codegen86.Machine.Run
import Codegen86.Proofs.Words
/-!
# Places

A register or memory operand stands for a place of the state: a register of the machine or a memory cell.  Reading
takes the word of the place and writing replaces it (`read_ok`, `write_ok`), and places do not overlap (`get_set`,
`get_set_of_ne`).  Which cell a memory operand stands for depends on its base register, and so can change when that
register is written.
-/

set_option autoImplicit false

namespace Codegen86.Machine

open Target

/-- What a state holds one word of. -/
inductive Place where
  | general (i : Fin generalRegisters)
  | stackPointer
  | basePointer
  | cell (i : Nat)
  deriving DecidableEq, Repr

/-- The place of a register that the machine has. -/
def Place.ofRegister? : Register → Option Place
  | .stackPointer => some .stackPointer
  | .basePointer => some .basePointer
  | .abstract _ => none
  | .physical i => if h : i < generalRegisters then some (.general ⟨i, h⟩) else none

theorem Place.ofRegister?_inj {r r' : Register} {p : Place} (h : ofRegister? r = some p)
    (h' : ofRegister? r' = some p) : r = r' := by
  cases r <;> cases r' <;> simp_all [ofRegister?]
  all_goals grind

theorem Place.ofRegister?_ne_cell {r : Register} {i : Nat} : ofRegister? r ≠ some (.cell i) := by
  cases r with
  | physical j =>
    rw [ofRegister?]
    split
    · simp
    · simp
  | _ => simp [ofRegister?]

namespace State

variable {s s' : State} {p q : Place} {o : Operand} {a w : Word} {pc : Nat}

/-- The word at a place. -/
def get (s : State) : Place → Word
  | .general i => s.general[i]
  | .stackPointer => s.stackPointer
  | .basePointer => s.basePointer
  | .cell i => s.memory.getD i 0

/-- Replace the word at a place. -/
def set (s : State) (p : Place) (w : Word) : State :=
  match p with
  | .general i => { s with general := s.general.set i w }
  | .stackPointer => { s with stackPointer := w }
  | .basePointer => { s with basePointer := w }
  | .cell i => { s with memory := s.memory.setIfInBounds i w }

/-- The state has such a place. -/
def Has (s : State) (p : Place) : Prop := ∀ i, p = .cell i → i < s.memory.size

/-- The place that an operand stands for, if it stands for one. -/
def place? (s : State) : Operand → Option Place
  | .reg r => Place.ofRegister? r
  | .mem base offset => do
    let p ← Place.ofRegister? base
    let i ← (s.get p + offset).index? s.memory.size
    return .cell i
  | .imm _ | .label _ => none

/-- The word that an operand denotes, if it denotes one. -/
def value? (s : State) : Operand → Option Word
  | .imm value => some value
  | .label l => l.address.map Word.ofNat
  | .reg r => (s.place? (.reg r)).map s.get
  | .mem base offset => (s.place? (.mem base offset)).map s.get

/-! ## Getting and setting -/

theorem get_set (has : s.Has p) : (s.set p w).get p = w := by
  cases p with
  | cell i => simp [get, set, has i rfl]
  | _ => simp [get, set]

theorem get_set_of_ne (ne : q ≠ p) : (s.set p w).get q = s.get q := by
  cases p with
  | general i =>
    cases q with
    | general j =>
      have apart : (i : Nat) ≠ j := fun same => ne (congrArg Place.general (Fin.ext same.symm))
      simp [get, set, apart]
    | _ => rfl
  | cell i =>
    cases q with
    | cell j =>
      have apart : i ≠ j := fun same => ne (congrArg Place.cell same.symm)
      simp [get, set, Array.getD_eq_getD_getElem?, apart]
    | _ => rfl
  | _ => cases q <;> first | rfl | exact absurd rfl ne

theorem set_get : s.set p (s.get p) = s := by
  cases p with
  | general i => simp [get, set]
  | cell i =>
    have same : s.memory.setIfInBounds i (s.memory.getD i 0) = s.memory := by
      apply Array.ext
      · simp
      · intro j inside inside'
        rw [Array.getElem_setIfInBounds inside']
        split
        · rename_i here
          subst here
          simp [inside']
        · rfl
    show { s with memory := s.memory.setIfInBounds i (s.memory.getD i 0) } = s
    rw [same]
  | _ => rfl

theorem set_set : (s.set p a).set p w = s.set p w := by
  cases p with
  | general i => simp [set]
  | cell i => simp [set]
  | _ => rfl

/-- The address of the next instruction is kept apart. -/
@[simp] theorem set_pc (n : Nat) : { s with pc := n }.set p w = { s.set p w with pc := n } := by
  cases p <;> rfl

@[simp] theorem place?_pc (n : Nat) : { s with pc := n }.place? o = s.place? o := rfl

@[simp] theorem value?_pc (n : Nat) : { s with pc := n }.value? o = s.value? o := rfl

theorem size_set : (s.set p w).memory.size = s.memory.size := by
  cases p with
  | cell i => simp [set]
  | _ => rfl

/-! ## Operands -/

theorem register_eq (s : State) (pc : Nat) (r : Register) :
    (s.register pc r).toOption = (Place.ofRegister? r).map s.get := by
  cases r with
  | physical i =>
    rw [register, Place.ofRegister?]
    split <;> rfl
  | _ => rfl

theorem has_place (place : s.place? o = some p) : s.Has p := by
  intro i cell
  subst cell
  cases o with
  | reg r => exact absurd place Place.ofRegister?_ne_cell
  | mem base offset =>
    simp only [place?, Option.bind_eq_bind, Option.bind_eq_some_iff, Option.pure_def, Option.some.injEq,
      Place.cell.injEq] at place
    obtain ⟨b, -, j, found, rfl⟩ := place
    exact Word.index?_lt found
  | imm value => cases place
  | label l => cases place

/-- The cell of a memory operand. -/
theorem address_ok {base : Register} {offset : Word} {i : Nat} :
    s.address pc base offset = .ok i ↔ s.place? (.mem base offset) = some (.cell i) := by
  have known := s.register_eq pc base
  rw [address, place?]
  cases found : s.register pc base with
  | error fault =>
    rw [found] at known
    have unknown := Option.map_eq_none_iff.mp known.symm
    simp [unknown, bind, Except.bind]
  | ok b =>
    rw [found] at known
    obtain ⟨p, place, rfl⟩ := Option.map_eq_some_iff.mp known.symm
    simp only [place, bind, Except.bind, Option.bind]
    cases (s.get p + offset).index? s.memory.size with
    | none => simp
    | some j => simp

/-- A memory operand stands for a cell. -/
theorem place?_mem {base : Register} {offset : Word} (place : s.place? (.mem base offset) = some p) :
    ∃ i, p = .cell i := by
  simp only [place?, Option.bind_eq_bind, Option.bind_eq_some_iff, Option.pure_def, Option.some.injEq] at place
  obtain ⟨-, -, i, -, rfl⟩ := place
  exact ⟨i, rfl⟩

/-- Memory operands at different offsets from the same register stand for different cells. -/
theorem offset_inj {base : Register} {offset offset' : Word} (place : s.place? (.mem base offset) = some p)
    (place' : s.place? (.mem base offset') = some p) : offset = offset' := by
  simp only [place?, Option.bind_eq_bind, Option.bind_eq_some_iff, Option.pure_def, Option.some.injEq] at place place'
  obtain ⟨b, register, i, found, rfl⟩ := place
  obtain ⟨b', register', i', found', same⟩ := place'
  rw [register] at register'
  cases register'
  cases same
  have sum := (Word.index?_eq_some.mp found).1.trans (Word.index?_eq_some.mp found').1.symm
  exact Word.add_left_cancel (Int64.toInt_inj.mp sum)

/-- What is read is what the operand denotes. -/
theorem read_ok : s.read pc o = .ok a ↔ s.value? o = some a := by
  cases o with
  | reg r =>
    have known := s.register_eq pc r
    simp only [read, value?, place?, ← known]
    cases s.register pc r <;> simp [Except.toOption]
  | mem base offset =>
    simp only [read, value?, Option.map_eq_some_iff, bind, Except.bind]
    constructor
    · intro found
      cases place : s.address pc base offset with
      | error fault => simp [place] at found
      | ok i =>
        simp only [place, pure, Except.pure, Except.ok.injEq] at found
        exact ⟨.cell i, address_ok.mp place, found⟩
    · rintro ⟨p, place, rfl⟩
      obtain ⟨i, rfl⟩ := place?_mem place
      rw [address_ok.mpr place]
      rfl
  | imm value => simp [read, value?]
  | label l =>
    simp only [read, value?]
    cases l.address <;> simp

/-- A write replaces the word of a place. -/
theorem write_ok : s.write pc o w = .ok s' ↔ ∃ p, s.place? o = some p ∧ s' = s.set p w := by
  cases o with
  | reg r =>
    simp only [write, place?]
    cases r with
    | physical i =>
      rw [setRegister, Place.ofRegister?]
      split
      · simp [set, eq_comm]
      · simp
    | abstract i => simp [setRegister, Place.ofRegister?]
    | _ => simp [setRegister, Place.ofRegister?, set, eq_comm]
  | mem base offset =>
    simp only [write, bind, Except.bind]
    constructor
    · intro done
      cases place : s.address pc base offset with
      | error fault => simp [place] at done
      | ok i =>
        simp only [place, pure, Except.pure, Except.ok.injEq] at done
        exact ⟨.cell i, address_ok.mp place, done.symm⟩
    · rintro ⟨p, place, rfl⟩
      obtain ⟨i, rfl⟩ := place?_mem place
      rw [address_ok.mpr place]
      rfl
  | imm value => simp [write, place?]
  | label l => simp [write, place?]

/-! ## What a write leaves as it is -/

/-- The operand's address does not depend on the place. -/
def Unmoved (p : Place) (o : Operand) : Prop :=
  ∀ base offset, o = .mem base offset → Place.ofRegister? base ≠ some p

theorem unmoved_cell (i : Nat) (o : Operand) : Unmoved (.cell i) o :=
  fun _ _ _ => Place.ofRegister?_ne_cell

theorem place?_set (unmoved : Unmoved p o) : (s.set p w).place? o = s.place? o := by
  cases o with
  | mem base offset =>
    simp only [place?, size_set, Option.bind_eq_bind]
    cases register : Place.ofRegister? base with
    | none => simp only [Option.bind_none]
    | some q =>
      have ne : q ≠ p := by
        rintro rfl
        exact unmoved base offset rfl register
      rw [Option.bind_some, Option.bind_some, get_set_of_ne ne]
  | reg r => simp only [place?]
  | imm value => simp only [place?]
  | label l => simp only [place?]

/-- A place that is written stays where it is. -/
theorem place?_set_self (place : s.place? o = some p) : (s.set p w).place? o = some p := by
  cases o with
  | mem base offset =>
    obtain ⟨i, rfl⟩ := place?_mem place
    rw [place?_set (unmoved_cell i _), place]
  | _ => exact place

theorem value?_of_place (place : s.place? o = some p) : s.value? o = some (s.get p) := by
  cases o with
  | imm value => cases place
  | label l => cases place
  | _ => simp only [value?, place, Option.map_some]

theorem value?_set_self (place : s.place? o = some p) : (s.set p w).value? o = some w := by
  rw [value?_of_place (place?_set_self place), get_set (has_place place)]

/-- Writing elsewhere changes no operand. -/
theorem value?_set (unmoved : Unmoved p o) (apart : s.place? o ≠ some p) :
    (s.set p w).value? o = s.value? o := by
  have same := place?_set (s := s) (w := w) unmoved
  cases place : s.place? o with
  | none =>
    rw [place] at same
    cases o with
    | imm value => rfl
    | label l => rfl
    | _ => simp only [value?, place, same, Option.map_none]
  | some q =>
    have ne : q ≠ p := by
      rintro rfl
      exact apart place
    rw [place] at same
    rw [value?_of_place place, value?_of_place same, get_set_of_ne ne]

end State

end Codegen86.Machine
