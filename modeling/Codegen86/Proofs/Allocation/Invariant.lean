import Codegen86.Allocation.Program
import Codegen86.Proofs.Allocation.Liveness
import Codegen86.Proofs.Allocation.Residents
import Codegen86.Proofs.Symbolic.Code
import Codegen86.Proofs.Words
/-!
# What the allocator keeps

Two invariants of the allocator's state in the middle of a block.

`Shape` is about the state alone: bindings, counts and free registers tell one story, dirty words are
bound, every spilled value has a slot of its own, and the operands that the original code refers to
stand for what they stood for, or for the physical register that took their place.

`Holds` relates two runs, of the original code with abstract registers (`u`) and of the code given out
so far (`t`).  A bound value is in its register; a live value that is not bound is in its slot; memory is
the same but for dirty words and slots.  Both runs have the same stack and base pointer, flags, `R0` and
words pushed.  Which abstract registers count is a parameter: those that are live.
-/

set_option autoImplicit false

namespace Codegen86.Allocation

open Target Symbolic

/-- What stays the same while a block is allocated: `pool` is the pool it starts with and `base` the frame
it starts with; `cap` bounds the frame it may come to.  `tracked` are the words of memory that the two
runs are asked to agree on. -/
structure Setting where
  context : Context
  pool : Pool
  base : Nat
  cap : Nat
  valid : Word → Bool
  tracked : Word → Prop
  enough : 2 ≤ context.registers
  few : context.registers ≤ 64
  small : cap < 2 ^ 32

namespace Setting

/-- How the code given out runs: without abstract registers. -/
def model (E : Setting) : Model := { valid := E.valid, abstracts := false }

/-- How the original code runs: with abstract registers. -/
def original (E : Setting) : Model := { valid := E.valid, abstracts := true }

theorem few_largest (E : Setting) : E.context.registers ≤ RegisterSet.largest :=
  Nat.le_trans E.few (by decide)

end Setting

/-- What can be resident: abstract registers and the words of the frame. -/
def IsKey (base : Nat) (key : Operand) : Prop :=
  (∃ k, key = .reg (.abstract k)) ∨
    ∃ off, key = .mem .basePointer off ∧ -(base : Int) ≤ off.toInt

/-- The value of a resident in the original run. -/
def value (u : View) : Operand → Word
  | .reg (.abstract k) => u.locals k
  | .mem _ off => u.memory (u.basePointer + off)
  | _ => 0

/-- Spill slots, the last one first: each belongs to an abstract register of its own, and they follow
each other below the frame. -/
def SlotsFrom (base : Nat) : List (Operand × Word) → Prop
  | [] => True
  | (key, off) :: rest =>
    key.isAbstract = true ∧ rest.lookup key = none ∧
      off = -Word.ofNat ((base + rest.length + 1) % 2 ^ 32) ∧ SlotsFrom base rest

/-- A word of the spill slots. -/
def IsSpill (E : Setting) (bp a : Word) : Prop :=
  ∃ j, E.base < j ∧ j ≤ E.cap ∧ a = bp + -Word.ofNat j

/-! ## Operands and what they stand for -/

/-- The role that an operand has, from what it was. -/
def roleOf (o : Operand) : Role :=
  if o.isAbstract then .abstract o else if o.isMemory then .memory o else .other

theorem roleOf_cases (o : Operand) : o.isAbstract = true ∧ roleOf o = .abstract o ∨
    o.isAbstract = false ∧ (roleOf o = .memory o ∨ roleOf o = .other) := by
  unfold roleOf
  cases o.isAbstract with
  | true => exact .inl ⟨rfl, rfl⟩
  | false =>
    refine .inr ⟨rfl, ?_⟩
    cases o.isMemory with
    | true => exact .inl rfl
    | false => exact .inr rfl

/-- `x` stands for the operand `o` of the original code. -/
def Stands (s : State) (x : OperandRef) (o : Operand) : Prop :=
  x < s.pool.operands.size ∧
    (s.keys.lookup x = some o ∨ s.keys.lookup x = none ∧ s.pool.get x = o)

/-- An operand that no later step changes. -/
def Settled (s : State) (x : OperandRef) : Prop :=
  x < s.pool.operands.size ∧ (s.pool.get x).isAbstract = false

/-- From `s` to `s'` operands that do not name an abstract register stay, an operand that does may get
the register's physical one, and slots and instructions are only added. -/
structure Evolves (s s' : State) : Prop where
  size : s.pool.operands.size ≤ s'.pool.operands.size
  keyed : ∀ {x key}, s.keys.lookup x = some key → s'.keys.lookup x = some key
  settled : ∀ {x}, x < s.pool.operands.size → (s.pool.get x).isAbstract = false →
    s'.pool.get x = s.pool.get x
  unkeyed : ∀ {x}, x < s.pool.operands.size → s.keys.lookup x = none →
    s'.keys.lookup x = none ∧ s'.pool.get x = s.pool.get x ∨
      s'.keys.lookup x = some (s.pool.get x)
  slots : s.slots <:+ s'.slots
  out : s.out.toList <+: s'.out.toList
  given : ∀ {i}, i ∈ s'.out.toList → i ∈ s.out.toList ∨ ∀ x ∈ i.operands, Settled s' x

namespace Evolves

theorem refl (s : State) : Evolves s s :=
  ⟨Nat.le_refl _, fun h => h, fun _ _ => rfl, fun _ h => .inl ⟨h, rfl⟩, List.suffix_refl _,
    List.prefix_refl _, .inl⟩

theorem settledAt {s s' : State} (h : Evolves s s') {x : OperandRef} (settled : Settled s x) :
    Settled s' x ∧ s'.pool.get x = s.pool.get x := by
  have same := h.settled settled.1 settled.2
  exact ⟨⟨Nat.lt_of_lt_of_le settled.1 h.size, by rw [same]; exact settled.2⟩, same⟩

theorem trans {s s' s'' : State} (h : Evolves s s') (h' : Evolves s' s'') : Evolves s s'' where
  size := Nat.le_trans h.size h'.size
  keyed found := h'.keyed (h.keyed found)
  settled inside concrete := by
    have same := h.settled inside concrete
    rw [h'.settled (Nat.lt_of_lt_of_le inside h.size) (by rw [same]; exact concrete), same]
  unkeyed inside absent := by
    rcases h.unkeyed inside absent with ⟨absent', same⟩ | found
    · rw [← same]
      exact h'.unkeyed (Nat.lt_of_lt_of_le inside h.size) absent'
    · exact .inr (h'.keyed found)
  slots := h.slots.trans h'.slots
  out := h.out.trans h'.out
  given mem := by
    rcases h'.given mem with mem | settled
    · rcases h.given mem with mem | settled
      · exact .inl mem
      · exact .inr fun x use => (h'.settledAt (settled x use)).1
    · exact .inr settled

theorem stands {s s' : State} (h : Evolves s s') {x : OperandRef} {o : Operand}
    (stands : Stands s x o) : Stands s' x o := by
  obtain ⟨inside, found | ⟨absent, rfl⟩⟩ := stands
  · exact ⟨Nat.lt_of_lt_of_le inside h.size, .inl (h.keyed found)⟩
  · exact ⟨Nat.lt_of_lt_of_le inside h.size, (h.unkeyed inside absent).symm⟩

end Evolves

/-! ## The shape of a state -/

structure Shape (E : Setting) (s : State) : Prop where
  residents : s.residents.Consistent E.context.registers
  isKey : ∀ {key reg}, s.register? key = some reg → IsKey E.base key
  dirty : ∀ {key}, key ∈ s.dirty → key.isMemory = true ∧ ∃ reg, s.register? key = some reg
  slots : SlotsFrom E.base s.slots
  frame : s.frame.words.toNat = (E.base + s.slots.length) % 2 ^ 32
  poolSize : E.pool.operands.size ≤ s.pool.operands.size
  keyed : ∀ {x key}, s.keys.lookup x = some key → key.isAbstract = true ∧
    x < s.pool.operands.size ∧
    ∃ reg, s.pool.get x = .reg (.physical reg) ∧ 1 ≤ reg ∧ reg ≤ E.context.registers
  unkeyed : ∀ {x}, x < E.pool.operands.size → s.keys.lookup x = none →
    s.pool.get x = E.pool.get x
  original : ∀ {x key}, x < E.pool.operands.size → s.keys.lookup x = some key →
    E.pool.get x = key
  retarget : ∀ {x y}, s.retarget.lookup x = some y →
    ∃ key, s.keys.lookup x = some key ∧ s.keys.lookup y = some key

theorem Shape.role {E : Setting} {s : State} (h : Shape E s) {x : OperandRef} {o : Operand}
    (stands : Stands s x o) : s.role x = roleOf o := by
  obtain ⟨-, found | ⟨absent, rfl⟩⟩ := stands
  · simp [State.role, roleOf, found, (h.keyed found).1]
  · simp [State.role, roleOf, absent]

/-- Where splits keep what an operand is an instance of, what stands for the operand is an instance of the same. -/
theorem State.current_keyed {s : State}
    (kept : ∀ {x y}, s.retarget.lookup x = some y → ∃ key, s.keys.lookup x = some key ∧ s.keys.lookup y = some key)
    (x : OperandRef) :
    s.current x = x ∨ ∃ key, s.keys.lookup x = some key ∧ s.keys.lookup (s.current x) = some key := by
  unfold State.current
  generalize s.retarget.length = fuel
  induction fuel generalizing x with
  | zero => exact .inl rfl
  | succ fuel ih =>
    unfold State.follow
    split
    · exact .inl rfl
    · rename_i next found
      obtain ⟨key, here, there⟩ := kept found
      rcases ih next with same | ⟨key', here', there'⟩
      · rw [same]
        exact .inr ⟨key, here, there⟩
      · rw [there] at here'
        cases here'
        exact .inr ⟨key, here, there'⟩

/-- The operand that is used for `x` stands for the same. -/
theorem Shape.current {E : Setting} {s : State} (h : Shape E s) {x : OperandRef} {o : Operand}
    (stands : Stands s x o) : Stands s (s.current x) o := by
  rcases State.current_keyed h.retarget x with same | ⟨key, here, there⟩
  · rw [same]
    exact stands
  · obtain ⟨-, found | ⟨absent, -⟩⟩ := stands
    · rw [here] at found
      cases found
      exact ⟨(h.keyed there).2.1, .inl there⟩
    · rw [here] at absent
      cases absent

/-- The operands of the original code stand for themselves. -/
theorem Shape.stands {E : Setting} {s : State} (h : Shape E s) {x : OperandRef}
    (inside : x < E.pool.operands.size) : Stands s x (E.pool.get x) := by
  refine ⟨Nat.lt_of_lt_of_le inside h.poolSize, ?_⟩
  cases found : s.keys.lookup x with
  | some key => exact .inl (congrArg some (h.original inside found).symm)
  | none => exact .inr ⟨rfl, h.unkeyed inside found⟩

/-! ### Slots -/

theorem SlotsFrom.place {base : Nat} {slots : List (Operand × Word)} (h : SlotsFrom base slots)
    (fits : base + slots.length < 2 ^ 32) {key : Operand} {off : Word}
    (found : slots.lookup key = some off) :
    ∃ j, base < j ∧ j ≤ base + slots.length ∧ off = -Word.ofNat j := by
  induction slots with
  | nil => cases found
  | cons entry rest ih =>
    obtain ⟨name, place⟩ := entry
    obtain ⟨-, -, here, later⟩ := h
    rw [List.length_cons] at fits ⊢
    rw [List.lookup_cons] at found
    split at found
    · cases found
      rw [Nat.mod_eq_of_lt (by omega)] at here
      exact ⟨base + rest.length + 1, by omega, by omega, here⟩
    · obtain ⟨j, above, below, eq⟩ := ih later (by omega) found
      exact ⟨j, above, by omega, eq⟩

theorem SlotsFrom.inj {base : Nat} {slots : List (Operand × Word)} (h : SlotsFrom base slots)
    (fits : base + slots.length < 2 ^ 32) {key other : Operand} {off : Word}
    (found : slots.lookup key = some off) (found' : slots.lookup other = some off) :
    key = other := by
  induction slots with
  | nil => cases found
  | cons entry rest ih =>
    obtain ⟨name, place⟩ := entry
    obtain ⟨-, -, here, later⟩ := h
    rw [List.length_cons] at fits
    have apart : ∀ {k : Operand}, rest.lookup k = some off → off ≠ place := by
      intro k found same
      obtain ⟨j, above, below, eq⟩ := later.place (by omega) found
      rw [same, here, Nat.mod_eq_of_lt (by omega)] at eq
      have := Word.neg_ofNat_inj (by omega) (by omega) eq
      omega
    rw [List.lookup_cons] at found found'
    split at found <;> split at found'
    · rename_i e _ e'
      rw [eq_of_beq e, eq_of_beq e']
    · cases found
      exact absurd rfl (apart found')
    · cases found'
      exact absurd rfl (apart found)
    · exact ih later (by omega) found found'

/-- Slots that were there keep their places. -/
theorem SlotsFrom.lookup_suffix {base : Nat} {slots older : List (Operand × Word)}
    (h : SlotsFrom base slots) (suffix : older <:+ slots) {key : Operand} {off : Word}
    (found : older.lookup key = some off) : slots.lookup key = some off := by
  obtain ⟨newer, rfl⟩ := suffix
  induction newer with
  | nil => exact found
  | cons entry rest ih =>
    obtain ⟨name, place⟩ := entry
    rw [List.cons_append] at h
    obtain ⟨-, absent, -, later⟩ := h
    have there := ih later
    rw [List.cons_append, List.lookup_cons]
    split
    · rename_i e
      rw [← eq_of_beq e, there] at absent
      cases absent
    · exact there

/-! ## The two runs -/

structure Holds (E : Setting) (L : Operand → Prop) (s : State) (u t : View) : Prop where
  result : t.general 0 = u.general 0
  stackPointer : t.stackPointer = u.stackPointer
  basePointer : t.basePointer = u.basePointer
  flags : t.flags = u.flags
  pushed : t.pushed = u.pushed
  held : ∀ {key reg}, s.register? key = some reg → key.isMemory = true ∨ L key →
    t.general reg = value u key
  saved : ∀ {key}, key.isAbstract = true → L key → s.register? key = none →
    ∃ off, s.slots.lookup key = some off ∧ t.memory (u.basePointer + off) = value u key
  memory : ∀ {a}, E.tracked a → ¬ IsSpill E u.basePointer a →
    (∀ off, .mem .basePointer off ∈ s.dirty → a ≠ u.basePointer + off) →
    t.memory a = u.memory a
  dirtyValid : ∀ {off}, .mem .basePointer off ∈ s.dirty → E.valid (u.basePointer + off) = true

/-- A live abstract register is in a physical one or has a slot. -/
def Covered (L : Operand → Prop) (s : State) : Prop :=
  ∀ {key}, key.isAbstract = true → L key → s.register? key = none →
    ∃ off, s.slots.lookup key = some off

theorem Covered.of_eq {L : Operand → Prop} {s s' : State} (h : Covered L s)
    (residents : s'.residents = s.residents) (slots : s'.slots = s.slots) : Covered L s' := by
  intro key abstract wanted absent
  rw [State.register?, residents] at absent
  rw [slots]
  exact h abstract wanted absent

/-- What is asked of the base pointer: the spill slots are addresses, and the words of the frame that are
addresses are tracked. -/
structure Room (E : Setting) (bp : Word) : Prop where
  slots : ∀ {j}, E.base < j → j ≤ E.cap → E.valid (bp + -Word.ofNat j) = true
  frame : ∀ {off : Word}, -(E.base : Int) ≤ off.toInt → E.valid (bp + off) = true →
    E.tracked (bp + off)

/-- Fewer live registers ask less. -/
theorem Holds.mono {E : Setting} {L L' : Operand → Prop} {s : State} {u t : View}
    (shape : Shape E s) (h : Holds E L s u t)
    (fewer : ∀ key, key.isAbstract = true → L' key → L key) : Holds E L' s u t where
  result := h.result
  stackPointer := h.stackPointer
  basePointer := h.basePointer
  flags := h.flags
  pushed := h.pushed
  held {key reg} found wanted := by
    refine h.held found ?_
    rcases shape.isKey found with ⟨k, rfl⟩ | ⟨off, rfl, -⟩
    · exact wanted.imp_right (fewer _ rfl)
    · exact .inl rfl
  saved abstract wanted absent := h.saved abstract (fewer _ abstract wanted) absent
  memory := h.memory
  dirtyValid := h.dirtyValid

end Codegen86.Allocation
