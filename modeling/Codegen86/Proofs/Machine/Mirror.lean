import Codegen86.Proofs.Machine.Discipline
import Codegen86.Proofs.Words
/-!
# The machine as symbolic states show it

A symbolic state mirrors a machine state if registers and flags are the same and memory agrees in every
cell that does not hold a return address; of the words in the other cells it can say something else.  An instruction that transfers no control, and reads no return
address, does the same to both (`Mirrors.execute`): it goes wrong in both, in the same way, or in none.
-/

set_option autoImplicit false

namespace Codegen86.Symbolic

open Target Machine

/-- The view shows the state.  In a marked cell, `R` relates the address, the word and what is shown. -/
structure Mirrors (words : Nat) (R : Word → Word → Word → Prop) (marks : Marks) (s : State) (v : View) :
    Prop where
  size : s.memory.size = words
  general : ∀ i (h : i < generalRegisters), v.general i = s.general[i]
  stackPointer : v.stackPointer = s.stackPointer
  basePointer : v.basePointer = s.basePointer
  flags : v.flags = s.flags
  memory : ∀ a i, a.index? words = some i → marks i = false → v.memory a = s.memory.getD i 0
  marked : ∀ a i, a.index? words = some i → marks i = true → R a (s.memory.getD i 0) (v.memory a)

/-- The same outcome at an instruction address: results in relation `R`, or the same fault. -/
def Same {α β : Type} (pc : Nat) (R : α → β → Prop) : Except Fault α → Except Trap β → Prop
  | .ok a, .ok b => R a b
  | .error f, .error t => f = t.at pc
  | _, _ => False

namespace Same

variable {α β γ δ : Type} {pc : Nat} {R : α → β → Prop} {x : Except Fault α} {y : Except Trap β}

theorem bind {R' : γ → δ → Prop} {f : α → Except Fault γ} {g : β → Except Trap δ}
    (first : Same pc R x y) (next : ∀ a b, R a b → Same pc R' (f a) (g b)) :
    Same pc R' (x >>= f) (y >>= g) := by
  cases x with
  | error fault =>
    cases y with
    | error t => exact first
    | ok b => exact first.elim
  | ok a =>
    cases y with
    | error t => exact first.elim
    | ok b => exact next a b first

theorem map_left {R' : γ → β → Prop} {f : α → γ} (h : Same pc R x y)
    (next : ∀ a b, R a b → R' (f a) b) : Same pc R' (do return f (← x)) y := by
  cases x with
  | error fault =>
    cases y with
    | error t => exact h
    | ok b => exact h
  | ok a =>
    cases y with
    | error t => exact h
    | ok b => exact next a b h

theorem and {R' : α → β → Prop} (h : Same pc R x y) (h' : Same pc R' x y) :
    Same pc (fun a b => R a b ∧ R' a b) x y := by
  cases x with
  | error fault =>
    cases y with
    | error t => exact h
    | ok b => exact h
  | ok a =>
    cases y with
    | error t => exact h
    | ok b => exact ⟨h, h'⟩

theorem mono {R' : α → β → Prop} (h : Same pc R x y) (wider : ∀ a b, R a b → R' a b) :
    Same pc R' x y := by
  cases x with
  | error fault =>
    cases y with
    | error t => exact h
    | ok b => exact h
  | ok a =>
    cases y with
    | error t => exact h
    | ok b => exact wider a b h

theorem and_left {R' : α → Prop} (h : Same pc R x y) (also : ∀ a, x = .ok a → R' a) :
    Same pc (fun a b => R a b ∧ R' a) x y := by
  cases x with
  | error fault =>
    cases y with
    | error t => exact h
    | ok b => exact h
  | ok a =>
    cases y with
    | error t => exact h
    | ok b => exact ⟨h, also a rfl⟩

end Same

namespace Mirrors

variable {words pc : Nat} {R : Word → Word → Word → Prop} {marks : Marks} {s : State} {v : View}

theorem register (h : Mirrors words R marks s v) (r : Register) :
    Same pc Eq (s.register pc r) (v.register (.machine words false) r) := by
  cases r with
  | stackPointer => exact h.stackPointer.symm
  | basePointer => exact h.basePointer.symm
  | abstract i => exact rfl
  | physical i =>
    unfold State.register View.register
    by_cases known : i < generalRegisters
    · simp only [dif_pos known, if_pos known]
      exact (h.general i known).symm
    · simp only [dif_neg known, if_neg known]
      exact rfl

/-- What a state and the view of it become, with the memory as large as before. -/
def Next (words : Nat) (R : Word → Word → Word → Prop) (marks : Marks) (s next : State) (v : View) :
    Prop :=
  Mirrors words R marks next v ∧ next.pc = s.pc

theorem setRegister (h : Mirrors words R marks s v) (r : Register) (value : Word) :
    Same pc (Next words R marks s) (s.setRegister pc r value)
      (v.setRegister (.machine words false) r value) := by
  cases r with
  | stackPointer => exact ⟨{ h with stackPointer := rfl }, rfl⟩
  | basePointer => exact ⟨{ h with basePointer := rfl }, rfl⟩
  | abstract i => exact rfl
  | physical i =>
    unfold State.setRegister View.setRegister
    by_cases known : i < generalRegisters
    · simp only [dif_pos known, if_pos known]
      refine ⟨{ h with general := fun j inside => ?_ }, rfl⟩
      simp only [put, Vector.getElem_set]
      by_cases same : j = i
      · rw [if_pos same, if_pos same.symm]
      · rw [if_neg same, if_neg (Ne.symm same)]
        exact h.general j inside
    · simp only [dif_neg known, if_neg known]
      exact rfl

/-- An address of the view is a cell of the state. -/
theorem address (h : Mirrors words R marks s v) (base : Register) (offset : Word) :
    Same pc (fun i a => a.index? words = some i ∧ s.cell? (.mem base offset) = some i)
      (s.address pc base offset) (v.address (.machine words false) base offset) := by
  refine Same.and_left ((h.register base).bind fun b c same => ?_) fun i found => ?_
  · subst same
    rw [h.size]
    simp only [Model.machine]
    rcases Option.eq_none_or_eq_some (Word.index? (b + offset) words) with found | ⟨i, found⟩
    · simp only [found]
      exact rfl
    · simp only [found]
      exact found
  · rw [State.cell?, State.address_pc s 0 pc, found]
    rfl

theorem read (h : Mirrors words R marks s v) {o : Operand}
    (unmarked : ∀ cell, s.cell? o = some cell → marks cell = false) :
    Same pc Eq (s.read pc o) (v.read (.machine words false) o) := by
  cases o with
  | reg r => exact h.register r
  | imm value => exact rfl
  | label l =>
    simp only [State.read, View.read]
    cases l.address <;> exact rfl
  | mem base offset =>
    refine (h.address base offset).bind fun i a place => ?_
    exact (h.memory a i place.1 (unmarked i place.2)).symm

/-- Storing a word in a cell.  If the cell is marked afterwards, the view may show another one. -/
theorem store (h : Mirrors words R marks s v) {i : Nat} {a : Word} (place : a.index? words = some i)
    {R' : Word → Word → Word → Prop} (wider : ∀ b w w', b ≠ a → R b w w' → R' b w w')
    (marks' : Marks) (value shown : Word) (kept : ∀ j, j ≠ i → marks' j = marks j)
    (same : marks' i = false → shown = value) (related : marks' i = true → R' a value shown) :
    Mirrors words R' marks' { s with memory := s.memory.setIfInBounds i value }
      { v with memory := put v.memory a shown } := by
  have inside := Word.index?_lt place
  rw [← h.size] at inside
  have unique : ∀ {b : Word}, b.index? words = some i → b = a := by
    intro b found
    have at_b := (Word.index?_eq_some.mp found).1
    have at_a := (Word.index?_eq_some.mp place).1
    exact Int64.toInt_inj.mp (at_b.trans at_a.symm)
  have elsewhere : ∀ {b : Word} {j : Nat}, b.index? words = some j → j ≠ i →
      b ≠ a ∧ put v.memory a shown b = v.memory b ∧
        (s.memory.setIfInBounds i value).getD j 0 = s.memory.getD j 0 := by
    intro b j found apart
    have ne : b ≠ a := by
      rintro rfl
      rw [found] at place
      exact apart (Option.some.inj place)
    exact ⟨ne, put_of_ne _ _ ne, by simp [Array.getD_eq_getD_getElem?, Ne.symm apart]⟩
  have here : (s.memory.setIfInBounds i value).getD i 0 = value := by simp [inside]
  refine { h with
    size := by simpa using h.size
    memory := fun b j found unmarked => ?_
    marked := fun b j found mark => ?_ }
  · by_cases at_ : j = i
    · subst at_
      rw [unique found]
      simpa [here] using same unmarked
    · obtain ⟨-, shown_eq, eq⟩ := elsewhere found at_
      simpa [shown_eq, eq] using h.memory b j found ((kept j at_).symm.trans unmarked)
  · by_cases at_ : j = i
    · subst at_
      rw [unique found]
      simpa [here] using related mark
    · obtain ⟨ne, shown_eq, eq⟩ := elsewhere found at_
      have old := h.marked b j found ((kept j at_).symm.trans mark)
      simpa [shown_eq, eq] using wider b _ _ ne old

theorem clear_of_ne {cell : Option Nat} {j : Nat} (ne : cell ≠ some j) :
    marks.clear cell j = marks j := by
  simp [Marks.clear, ne]

theorem clear_self {cell : Option Nat} {i : Nat} (same : cell = some i) :
    marks.clear cell i = false := by
  simp [Marks.clear, same]

theorem write (h : Mirrors words R marks s v) (o : Operand) (value : Word) :
    Same pc (Next words R (marks.clear (s.cell? o)) s) (s.write pc o value)
      (v.write (.machine words false) o value) := by
  cases o with
  | reg r => exact h.setRegister r value
  | imm w => exact rfl
  | label l => exact rfl
  | mem base offset =>
    refine (h.address base offset).bind fun i a place => ?_
    refine ⟨h.store place.1 (fun _ _ _ _ => id) _ value value (fun j ne => ?_) (fun _ => rfl) (fun marked => ?_), rfl⟩
    · exact clear_of_ne (by rw [place.2]; exact fun e => ne (Option.some.inj e).symm)
    · rw [clear_self place.2] at marked
      cases marked

/-- The view may push another word if the cell is marked afterwards. -/
theorem push (h : Mirrors words R marks s v) (pc : Nat) (value shown : Word)
    (R' : Word → Word → Word → Prop) (marks' : Marks)
    (wider : ∀ b w w', b ≠ s.stackPointer - 1 → R b w w' → R' b w w')
    (kept : ∀ j, s.next? ≠ some j → marks' j = marks j)
    (same : ∀ i, s.next? = some i → marks' i = false → shown = value)
    (related : ∀ i, s.next? = some i → marks' i = true → R' (s.stackPointer - 1) value shown) :
    Same pc (Next words R' marks' s) (s.push pc value) (v.push (.machine words false) shown) := by
  have positive : 0 < s.stackPointer ↔ 0 < s.stackPointer.toInt := by
    rw [Int64.lt_iff_toInt_lt]
    rfl
  have clamp : s.stackPointer.toNatClampNeg = s.stackPointer.toInt.toNat := rfl
  have most := s.stackPointer.toInt_lt
  have one : (1 : Word).toInt = 1 := rfl
  unfold State.push View.push
  rw [h.stackPointer, h.size]
  dsimp only
  by_cases full : s.stackPointer ≤ 0 ∨ words < s.stackPointer.toNatClampNeg
  · rw [if_pos full, if_neg]
    · exact rfl
    · rintro ⟨above, room⟩
      have above := positive.mp above
      have top : (s.stackPointer - 1).toInt = s.stackPointer.toInt - 1 := by
        rw [Word.toInt_sub_of_bounds, one] <;> omega
      rw [Model.machine_valid, Word.index?_isSome, top] at room
      rcases full with low | high
      · exact absurd low (Int64.not_le.mpr (positive.mpr above))
      · omega
  · have above : 0 < s.stackPointer := Int64.not_le.mp fun low => full (.inl low)
    have room : ¬ words < s.stackPointer.toNatClampNeg := fun high => full (.inr high)
    have positive := positive.mp above
    have top : (s.stackPointer - 1).toInt = s.stackPointer.toInt - 1 := by
      rw [Word.toInt_sub_of_bounds, one] <;> omega
    have place : (s.stackPointer - 1).index? words = some (s.stackPointer - 1).toNatClampNeg := by
      have : (s.stackPointer - 1).toNatClampNeg = (s.stackPointer - 1).toInt.toNat := rfl
      rw [Word.index?_eq_some]
      omega
    have next : s.next? = some (s.stackPointer - 1).toNatClampNeg := by
      rw [State.next?, h.size, place]
    rw [if_neg full, if_pos ⟨above, Word.index?_isSome.mpr (by omega)⟩]
    refine ⟨?_, rfl⟩
    have stored := h.store place wider marks' value shown
      (fun j ne => kept j fun e => ne (Option.some.inj (e.symm.trans next))) (same _ next)
      (related _ next)
    exact { stored with stackPointer := rfl }

theorem pop (h : Mirrors words R marks s v) (pc : Nat) :
    Same pc
      (fun a b => (∃ i, s.top? = some i ∧ (marks i = false → b.1 = a.1) ∧
          (marks i = true → R s.stackPointer a.1 b.1)) ∧
        a.2 = { s with stackPointer := s.stackPointer + 1 } ∧
        Next words R marks s a.2 b.2)
      (s.pop pc) (v.pop (.machine words false)) := by
  unfold State.pop View.pop
  rw [h.stackPointer, h.size]
  rcases Option.eq_none_or_eq_some (Word.index? s.stackPointer words) with found | ⟨i, found⟩
  · rw [if_neg (by simp [Model.machine_valid, found]), found]
    exact rfl
  · rw [if_pos (by simp [Model.machine_valid, found]), found]
    exact ⟨⟨i, by rw [State.top?, h.size, found], h.memory _ i found, h.marked _ i found⟩, rfl,
      { h with stackPointer := rfl }, rfl⟩

variable {m : Machine}

/-- What an instruction reads holds no return address. -/
theorem unmarked {i : Instruction} (plain : i.isPlain = true) (respects : m.Respects s marks i)
    {x : OperandRef} (source : x ∈ i.sources) :
    ∀ cell, s.cell? (m.pool.get x) = some cell → marks cell = false := by
  intro cell place
  have all : ∀ cell ∈ m.cellsRead s i, marks cell = false := by
    cases i <;> first | exact respects | cases plain
  refine all cell ?_
  have mem : cell ∈ (i.sources ++ i.destination?.toList).filterMap fun x => s.cell? (m.pool.get x) :=
    List.mem_filterMap.mpr ⟨x, List.mem_append_left _ source, place⟩
  unfold cellsRead
  dsimp only
  split
  · exact List.mem_append_right _ mem
  · exact mem

/-- An instruction that transfers no control does the same to a state and its view. -/
theorem execute (h : Mirrors words R marks s v) (pc : Nat) {i : Instruction} (plain : i.isPlain = true)
    (respects : m.Respects s marks i) :
    Same pc (fun a b => ∃ next, a = .next next ∧ Next words R (m.marksAfter s marks i) s next b)
      (m.execute pc s i) (v.execute (.machine words false) m.pool i) := by
  have reads : ∀ x ∈ i.sources, Same pc Eq (s.read pc (m.pool.get x))
      (v.read (.machine words false) (m.pool.get x)) :=
    fun x source => h.read (unmarked plain respects source)
  cases i with
  | nop => exact ⟨s, rfl, h, rfl⟩
  | push x =>
    refine (reads x (by simp [Instruction.sources])).bind fun a b same => ?_
    subst same
    have pushed := h.push pc a a R (marks.clear s.next?)
      (fun _ _ _ _ => id) (fun j => clear_of_ne) (fun _ _ _ => rfl) fun i next marked => by
        rw [clear_self next] at marked
        cases marked
    refine pushed.bind fun next w now => ?_
    exact ⟨next, rfl, { now.1 with }, now.2⟩
  | pop x =>
    refine (h.pop pc).bind fun a b popped => ?_
    obtain ⟨⟨cell, top, shown, -⟩, rest, now⟩ := popped
    obtain ⟨w, next⟩ := a
    obtain ⟨w', v'⟩ := b
    dsimp only at rest now shown
    have same : w' = w := by
      refine shown ?_
      have all : ∀ cell ∈ m.cellsRead s (.pop x), marks cell = false := respects
      exact all cell (by simp [cellsRead, top])
    subst same rest
    exact (now.1.write (m.pool.get x) w').map_left fun last v'' final => ⟨last, rfl, final⟩
  | mov x y =>
    refine (reads y (by simp [Instruction.sources])).bind fun a b same => ?_
    subst same
    exact (h.write (m.pool.get x) a).map_left fun next w now => ⟨next, rfl, now⟩
  | arith op x y =>
    refine (reads y (by simp [Instruction.sources])).bind fun a b same => ?_
    subst same
    refine (reads x (by simp [Instruction.sources])).bind fun c d same => ?_
    subst same
    cases op.eval c a with
    | none => exact rfl
    | some value =>
      exact (h.write (m.pool.get x) value).map_left fun next w now => ⟨next, rfl, now⟩
  | cmp x y =>
    refine (reads y (by simp [Instruction.sources])).bind fun a b same => ?_
    subst same
    refine (reads x (by simp [Instruction.sources])).bind fun c d same => ?_
    subst same
    exact ⟨_, rfl, { h with flags := rfl }, rfl⟩
  | _ => cases plain

end Mirrors

end Codegen86.Symbolic
