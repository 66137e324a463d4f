import Codegen86.Proofs.IR.Semantics
import Codegen86.Proofs.Selection.Functions
import Codegen86.Proofs.Symbolic.Straight
/-!
# Activations of lowered functions

Where the code of a lowered function runs (`Scene`), and what the values of an activation have to do with the
state of the machine: parameters, values with a home and local variables are words of the frame (`Stored`), and
while a block is lowered registers hold values too (`Tracks`).  Only what the activation has computed is related;
a home or a register may have any word for a value that was not computed yet, or that has none.  Nor is anything
said of values that nothing reads (`Scene.Wanted`): a fused comparison is computed by its branch.
-/

set_option autoImplicit false

namespace Codegen86.Selection

open Target IR Symbolic

/-- The frame of an activation of a lowered function, in a memory.  At `base` the base pointer of the caller is
saved; the `size` words below are reserved, and further down there is room for calls of functions that are
`known`.  All slots are those listed when the function is lowered. -/
structure Scene where
  context : Context
  site : Site
  slots : List (ValueId × Word)
  memory : Symbolic.Memory
  known : Calls
  room : Nat
  widest : Nat
  args : List Word
  base : Word
  size : Nat
  above : Word → Word
  words : site.words = context.plan.homes.length + slots.length
  reserved : SlotsAfter 0 (context.plan.homes ++ slots.reverse)
  owners : ((context.plan.homes ++ slots).map (·.1)).Nodup
  fits : site.words ≤ size
  small : size < 2 ^ 32
  least : 0 ≤ base.toInt
  most : base.toInt + 2 + args.length ≤ memory.top
  bounded : memory.top < 2 ^ 63
  spare : memory.Spare (room + 1 + widest) (base - Word.ofNat size)
  passed : ∀ i w, args[i]? = some w → above (base + Word.ofNat (Calling.argBase + i)) = w
  planned : ∃ placement, Planned context.function context.plan placement
  arities : ∀ name f, context.source.function? name = some f → f.arity ≤ widest

namespace Scene

variable (A : Scene)

/-- The stack pointer when no arguments are pushed. -/
def bottom : Word := A.base - Word.ofNat A.size

/-- The states in the body of the function. -/
def Within (v : View) : Prop := v.basePointer = A.base ∧ v.stackPointer.toInt + A.size ≤ A.base.toInt

/-- What the code of the function's blocks runs in. -/
def surroundings : Surroundings where
  model := A.memory.model true
  pool := A.site.pool
  within := A.Within
  calls := A.memory.callsBelow A.bottom A.context.source A.known (A.room + 1)

/-- The abstract register that an operand refers to has a number below `n`, and the value `w`. -/
def Has (n : Nat) (v : View) (x : OperandRef) (w : Word) : Prop :=
  ∃ k < n, A.site.pool.get x = .reg (.abstract k) ∧ v.locals k = w

/-- Something reads the value `x` from a register or from its home. -/
def Wanted (x : ValueId) : Prop := x ∈ uses A.context.function ∧ x ∉ A.context.plan.fused

/-- What was made so far is part of what was made in the end. -/
structure Covers (s : Lowering) : Prop where
  le : (s.site A.context A.site.least).Le A.site
  slots : s.slots <:+ A.slots

end Scene

variable {A : Scene} {s s' : Lowering} {a a' : Activation} {u v : View} {x y : ValueId} {ref : OperandRef}
  {w : Word} {offset : Word} {n m : Nat}

/-! ## Words of the frame -/

namespace Scene

theorem abstracts (A : Scene) : (A.memory.model true).abstracts = true := by
  cases A.memory <;> rfl

theorem toInt_bottom (A : Scene) : A.bottom.toInt = A.base.toInt - A.size := by
  have size := A.small
  have least := A.least
  have most := A.base.toInt_lt
  have place : (Word.ofNat A.size).toInt = A.size := Word.toInt_ofNat (by omega)
  rw [bottom, Word.toInt_sub_of_bounds] <;> omega

theorem within_bottom {v : View} (base : v.basePointer = A.base) (stack : v.stackPointer = A.bottom) :
    A.Within v := by
  refine ⟨base, ?_⟩
  rw [stack, A.toInt_bottom]
  omega

/-- Words from the bottom of the frame upwards are addresses. -/
theorem valid {address : Word} (least : A.base.toInt - A.size ≤ address.toInt)
    (most : address.toInt < A.memory.top) : (A.memory.model true).valid address = true :=
  A.spare.valid (by rw [← bottom, A.toInt_bottom]; exact least) most

theorem toInt_local (reserved : A.site.Local offset) :
    ∃ j : Nat, 1 ≤ j ∧ j ≤ A.site.words ∧ (A.base + offset).toInt = A.base.toInt - j := by
  obtain ⟨j, least, most, rfl⟩ := reserved
  have fits := A.fits
  have small := A.small
  have base := A.least
  refine ⟨j, least, most, ?_⟩
  rw [Nat.mod_eq_of_lt (by omega), Word.toInt_slot (by omega) (by omega)]

theorem valid_local (reserved : A.site.Local offset) :
    (A.memory.model true).valid (A.base + offset) = true := by
  obtain ⟨j, least, most, place⟩ := toInt_local reserved
  have fits := A.fits
  have top := A.most
  exact A.valid (by omega) (by omega)

theorem toInt_arg {i : Nat} (param : A.args[i]? = some w) :
    (A.base + Word.ofNat (Calling.argBase + i)).toInt = A.base.toInt + 2 + i := by
  have inside := (List.getElem?_eq_some_iff.mp param).1
  have top := A.most
  have bounded := A.bounded
  have base := A.least
  have place : (Word.ofNat (Calling.argBase + i)).toInt = 2 + i := by
    rw [Word.toInt_ofNat] <;> simp only [Calling.argBase] <;> omega
  rw [Word.toInt_add_of_bounds] <;> omega

theorem valid_arg {i : Nat} (param : A.args[i]? = some w) :
    (A.memory.model true).valid (A.base + Word.ofNat (Calling.argBase + i)) = true := by
  have inside := (List.getElem?_eq_some_iff.mp param).1
  have top := A.most
  have place := toInt_arg param
  exact A.valid (by omega) (by omega)

/-- Homes and local variables are different words of the frame. -/
theorem entry_inj {e e' : ValueId × Word} (mem : e ∈ A.context.plan.homes ++ A.slots)
    (mem' : e' ∈ A.context.plan.homes ++ A.slots) (same : A.base + e.2 = A.base + e'.2) : e = e' := by
  have perm : ∀ {e}, e ∈ A.context.plan.homes ++ A.slots → e ∈ A.context.plan.homes ++ A.slots.reverse := by
    intro e mem
    simpa using mem
  have words := A.words
  have fits := A.fits
  have small := A.small
  have distinct := A.reserved.nodup (by simp only [List.length_append, List.length_reverse]; omega)
  exact List.inj_on_of_nodup_map distinct (perm mem) (perm mem') (Word.add_left_cancel same)

theorem local_of_entry {e : ValueId × Word} (mem : e ∈ A.context.plan.homes ++ A.slots) :
    A.site.Local e.2 := by
  have mem : e ∈ A.context.plan.homes ++ A.slots.reverse := by simpa using mem
  obtain ⟨j, positive, most, eq⟩ := A.reserved.offset mem
  refine ⟨j, positive, ?_, eq⟩
  rw [A.words]
  simpa using most

theorem toInt_entry {e : ValueId × Word} (mem : e ∈ A.context.plan.homes ++ A.slots) :
    ∃ j : Nat, 1 ≤ j ∧ j ≤ A.site.words ∧ (A.base + e.2).toInt = A.base.toInt - j :=
  toInt_local (local_of_entry mem)

theorem home_mem (home : A.context.plan.homes.lookup x = some offset) :
    (x, offset) ∈ A.context.plan.homes ++ A.slots :=
  List.mem_append_left _ (mem_of_lookup home)

theorem slot_mem (slot : A.slots.lookup x = some offset) : (x, offset) ∈ A.context.plan.homes ++ A.slots :=
  List.mem_append_right _ (mem_of_lookup slot)

/-- A value with a home is no local variable. -/
theorem home_ne_slot {offset' : Word} (home : A.context.plan.homes.lookup x = some offset)
    (slot : A.slots.lookup y = some offset') : x ≠ y := by
  have owners := A.owners
  rw [List.map_append, List.nodup_append] at owners
  exact owners.2.2 x (List.mem_map_of_mem (f := (·.1)) (mem_of_lookup home)) y
    (List.mem_map_of_mem (f := (·.1)) (mem_of_lookup slot))

/-! ## Registers -/

theorem Has.mono (has : A.Has n v ref w) (more : n ≤ m) : A.Has m v ref w := by
  obtain ⟨k, below, is, value⟩ := has
  exact ⟨k, Nat.lt_of_lt_of_le below more, is, value⟩

/-- A new register leaves the others. -/
theorem Has.put (has : A.Has n v ref w) (value : Word) (more : n ≤ m) :
    A.Has m { v with locals := put v.locals n value } ref w := by
  obtain ⟨k, below, is, known⟩ := has
  refine ⟨k, Nat.lt_of_lt_of_le below more, is, ?_⟩
  rw [← known]
  exact put_of_ne _ _ (Nat.ne_of_lt below)

theorem Has.congr (has : A.Has n v ref w) (same : u.locals = v.locals) : A.Has n u ref w := by
  obtain ⟨k, below, is, value⟩ := has
  exact ⟨k, below, is, by rw [same, value]⟩

theorem Has.read (has : A.Has n v ref w) : v.read (A.memory.model true) (A.site.pool.get ref) = .ok w := by
  obtain ⟨k, -, is, rfl⟩ := has
  rw [is]
  exact read_abstract A.abstracts

theorem Covers.of_grown (covers : A.Covers s') (grown : Grown s s') : A.Covers s where
  le := grown.le.trans covers.le
  slots := grown.slots.trans covers.slots

/-- The slot of a local variable is the one listed. -/
theorem Covers.slot (covers : A.Covers s) (slot : s.slots.lookup x = some offset) :
    A.slots.lookup x = some offset := by
  have owners := A.owners
  rw [List.map_append, List.nodup_append] at owners
  exact lookup_of_mem owners.2.1 (covers.slots.subset (mem_of_lookup slot))

end Scene

/-! ## Values of an activation -/

/-- What the activation has computed is in the frame. -/
structure Stored (A : Scene) (a : Activation) (v : View) : Prop where
  basePointer : v.basePointer = A.base
  stackPointer : v.stackPointer = A.bottom
  above : ∀ address, A.base.toInt ≤ address.toInt → v.memory address = A.above address
  params : ∀ x i w, A.context.function.op? x = some (.arg i) → a.values x = some w → A.args[i]? = some w
  homes : ∀ x offset w, A.context.plan.homes.lookup x = some offset → A.Wanted x →
    a.values x = some w → v.memory (A.base + offset) = w
  cells : ∀ x offset w, A.slots.lookup x = some offset → a.cells x = some w → v.memory (A.base + offset) = w

/-- While a block is lowered, registers hold values too. -/
structure Tracks (A : Scene) (s : Lowering) (a : Activation) (v : View) : Prop extends Stored A a v where
  held : ∀ x ref w, s.held.lookup x = some ref → A.Wanted x → a.values x = some w →
    A.Has s.registers v ref w

/-- From `u` to `v` registers that had a value keep it. -/
structure Follows (A : Scene) (s s' : Lowering) (a : Activation) (u v : View) : Prop where
  tracks : Tracks A s' a v
  kept : ∀ ref w, A.Has s.registers u ref w → A.Has s'.registers v ref w
  general : v.general = u.general

namespace Stored

theorem within (h : Stored A a v) : A.Within v := A.within_bottom h.basePointer h.stackPointer

/-- The words of the frame in use, and those above, are all that matters. -/
theorem congr (h : Stored A a v) (base : u.basePointer = v.basePointer) (stack : u.stackPointer = v.stackPointer)
    (same : ∀ address, A.base.toInt - A.site.words ≤ address.toInt → u.memory address = v.memory address) :
    Stored A a u where
  basePointer := base.trans h.basePointer
  stackPointer := stack.trans h.stackPointer
  above address high := (same address (by omega)).trans (h.above address high)
  params := h.params
  homes x offset w home wanted known := by
    obtain ⟨j, -, most, place⟩ := Scene.toInt_entry (Scene.home_mem home)
    rw [same _ (by rw [place]; omega)]
    exact h.homes x offset w home wanted known
  cells x offset w slot known := by
    obtain ⟨j, -, most, place⟩ := Scene.toInt_entry (Scene.slot_mem slot)
    rw [same _ (by rw [place]; omega)]
    exact h.cells x offset w slot known

/-- A word is written to the slot of `x`. -/
theorem written {e : ValueId × Word} (h : Stored A a v) (mem : e ∈ A.context.plan.homes ++ A.slots) (value : Word)
    (params : ∀ x i w, A.context.function.op? x = some (.arg i) → a'.values x = some w → A.args[i]? = some w)
    (homes : ∀ x offset w, A.context.plan.homes.lookup x = some offset → A.Wanted x →
      a'.values x = some w → (x, offset) = e ∧ w = value ∨ (x, offset) ≠ e ∧ a.values x = some w)
    (cells : ∀ x offset w, A.slots.lookup x = some offset → a'.cells x = some w →
      (x, offset) = e ∧ w = value ∨ (x, offset) ≠ e ∧ a.cells x = some w) :
    Stored A a' { v with memory := put v.memory (A.base + e.2) value } where
  basePointer := h.basePointer
  stackPointer := h.stackPointer
  above address high := by
    obtain ⟨j, least, -, place⟩ := Scene.toInt_entry mem
    refine (put_of_ne _ _ ?_).trans (h.above address high)
    rintro rfl
    omega
  params := params
  homes x offset w home wanted known := by
    rcases homes x offset w home wanted known with ⟨rfl, rfl⟩ | ⟨ne, old⟩
    · exact put_self _ _ _
    · refine (put_of_ne _ _ fun same => ne ?_).trans (h.homes x offset w home wanted old)
      exact A.entry_inj (A.home_mem home) mem same
  cells x offset w slot known := by
    rcases cells x offset w slot known with ⟨rfl, rfl⟩ | ⟨ne, old⟩
    · exact put_self _ _ _
    · refine (put_of_ne _ _ fun same => ne ?_).trans (h.cells x offset w slot old)
      exact A.entry_inj (A.slot_mem slot) mem same

end Stored

namespace Tracks

/-- At the beginning of a block no register holds a value. -/
theorem of_stored (h : Stored A a v) (none : s.held = []) : Tracks A s a v := by
  refine { h with held := fun x ref w found => ?_ }
  rw [none] at found
  cases found

/-- A word is moved to the next register. -/
theorem load (h : Tracks A s a v) (value : Word) (held : s'.held = s.held) (more : s.registers ≤ s'.registers) :
    Tracks A s' a { v with locals := put v.locals s.registers value } := by
  refine { basePointer := h.basePointer, stackPointer := h.stackPointer, above := h.above, params := h.params,
           homes := h.homes, cells := h.cells, held := fun x ref w found wanted known => ?_ }
  rw [held] at found
  exact (h.held x ref w found wanted known).put value more

/-- A register holds a value. -/
theorem hold (h : Tracks A s a v) (held : s'.held = (x, ref) :: s.held) (registers : s'.registers = s.registers)
    (has : ∀ w, A.Wanted x → a.values x = some w → A.Has s.registers v ref w) : Tracks A s' a v := by
  refine { h with held := fun y ref' w found wanted known => ?_ }
  rw [held, List.lookup_cons] at found
  rw [registers]
  by_cases same : y = x
  · subst same
    rw [beq_self_eq_true] at found
    obtain rfl := Option.some.inj found
    exact has w wanted known
  · rw [beq_false_of_ne same] at found
    exact h.held y ref' w found wanted known

/-- What does not matter to lowering. -/
theorem congr (h : Tracks A s a v) (held : s'.held = s.held) (registers : s.registers ≤ s'.registers) :
    Tracks A s' a v := by
  refine { h with held := fun y ref' w found wanted known => ?_ }
  rw [held] at found
  exact (h.held y ref' w found wanted known).mono registers

end Tracks

end Codegen86.Selection
