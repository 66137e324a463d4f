import Codegen86.Proofs.Allocation.Invariant
import Codegen86.Proofs.Except
import Codegen86.Proofs.Frames
import Codegen86.Proofs.Lookup
import Codegen86.Proofs.Pools
/-!
# What the allocator gives out

Instruction by instruction the allocator gives out the counterpart of what it is given, and before and
behind it moves between registers and words of the frame (`Job.Renders`).  Nothing is said here of what
the code does; this is about its form alone, for any block whose allocation succeeds.

Spilled values have slots below the frame, one after another (`Job.Stocked`).  There are no more of them than
operands that the allocator puts into the pool.
-/

set_option autoImplicit false

namespace Codegen86

namespace Target.Pool

/-- Operands that name no abstract register stay. -/
structure Keeps (p q : Pool) : Prop where
  size : p.operands.size ≤ q.operands.size
  get : ∀ {x}, x < p.operands.size → (p.get x).isAbstract = false → q.get x = p.get x

theorem Grows.keeps {p q : Pool} (h : p.Grows q) : p.Keeps q := ⟨h.size, fun inside _ => h.get inside⟩

namespace Keeps

theorem refl (p : Pool) : p.Keeps p := (Grows.refl p).keeps

theorem trans {p q r : Pool} (h : p.Keeps q) (h' : q.Keeps r) : p.Keeps r where
  size := Nat.le_trans h.size h'.size
  get inside concrete := by
    have same := h.get inside concrete
    rw [h'.get (Nat.lt_of_lt_of_le inside h.size) (by rw [same]; exact concrete), same]

end Keeps

/-- An operand that names an abstract register is in the pool. -/
theorem inside_of_abstract {p : Pool} {x : OperandRef} (abstract : (p.get x).isAbstract = true) :
    x < p.operands.size := by
  refine Nat.lt_of_not_le fun outside => ?_
  rw [Pool.get, Array.getD_eq_getD_getElem?, Array.getElem?_eq_none outside] at abstract
  cases abstract

end Target.Pool

namespace Allocation

open Target

/-- A block to be allocated: its code, the pool and the words of the frame before, and the number of registers.
Sizes of frames have 32 bits, but `words` counts on.  Transfers of control go to no abstract register. -/
structure Job where
  registers : Nat
  pool : Pool
  words : Nat
  code : List Instruction
  few : registers ≤ 64
  inside : ∀ i ∈ code, ∀ x ∈ i.operands, x < pool.operands.size
  labels : ∀ i ∈ code, ∀ x, i.destination? = some x → (pool.get x).isAbstract = false

namespace Job

variable (J : Job)

/-- A register that is allocated. -/
def IsRegister (o : Operand) : Prop := ∃ r, 1 ≤ r ∧ r ≤ J.registers ∧ o = .reg (.physical r)

/-- An operand of the block. -/
def Used (o : Operand) : Prop := ∃ i ∈ J.code, ∃ x ∈ i.operands, J.pool.get x = o

/-- A word that the block stores to. -/
def Stored (o : Operand) : Prop :=
  o.isMemory = true ∧ ∃ x y, .mov x y ∈ J.code ∧ J.pool.get x = o

/-- The offset of one of the first `n` spill slots. -/
def Slot (n : Nat) (offset : Word) : Prop :=
  ∃ w, J.words < w ∧ w ≤ J.words + n ∧ offset = -Word.ofNat (w % 2 ^ 32)

/-- What the moves of the allocator are between, when it has given out `n` slots. -/
inductive Place (n : Nat) (o : Operand) : Prop
  | register (is : J.IsRegister o)
  | slot {offset : Word} (is : o = .frameSlot offset) (slot : J.Slot n offset)
  | stored (is : J.Stored o)

/-- A move of the allocator. -/
def Spare (q : Pool) (n : Nat) (i : Instruction) : Prop :=
  ∃ x y, i = .mov x y ∧ x < q.operands.size ∧ y < q.operands.size ∧
    J.Place n (q.get x) ∧ J.Place n (q.get y)

/-- `x'` comes in the place of the operand `x`. -/
inductive Replaces (q : Pool) (x x' : OperandRef) : Prop
  | same (eq : x' = x) (concrete : (J.pool.get x).isAbstract = false) (get : q.get x = J.pool.get x)
  | register (resident : (J.pool.get x).isAbstract = true ∨ (J.pool.get x).isMemory = true)
      (inside : x' < q.operands.size) (is : J.IsRegister (q.get x'))

/-- The counterpart of an instruction. -/
inductive Image (q : Pool) : Instruction → Instruction → Prop
  | ret : Image q .ret .ret
  | halt : Image q .halt .halt
  | nop : Image q .nop .nop
  | push {x x' : OperandRef} (h : J.Replaces q x x') : Image q (.push x) (.push x')
  | pop {x x' : OperandRef} (h : J.Replaces q x x') : Image q (.pop x) (.pop x')
  | dropped {x y : OperandRef} : Image q (.mov x y) .nop
  | mov {x y x' y' : OperandRef} (target : J.Replaces q x x') (source : J.Replaces q y y') :
      Image q (.mov x y) (.mov x' y')
  | arith {op : Arith} {x y x' y' : OperandRef} (target : J.Replaces q x x')
      (source : J.Replaces q y y') : Image q (.arith op x y) (.arith op x' y')
  | cmp {x y x' y' : OperandRef} (left : J.Replaces q x x') (right : J.Replaces q y y') :
      Image q (.cmp x y) (.cmp x' y')
  | jump {x x' : OperandRef} (h : J.Replaces q x x') : Image q (.jump x) (.jump x')
  | jumpIf {condition : Condition} {x x' : OperandRef} (h : J.Replaces q x x') :
      Image q (.jumpIf condition x) (.jumpIf condition x')
  | call {x x' : OperandRef} (h : J.Replaces q x x') : Image q (.call x) (.call x')

/-- Code in the place of code: the counterparts of its instructions, and moves between them. -/
inductive Renders (q : Pool) (n : Nat) : List Instruction → List Instruction → Prop
  | nil : Renders q n [] []
  | spare {i : Instruction} {code out : List Instruction} (move : J.Spare q n i)
      (tail : Renders q n code out) : Renders q n code (i :: out)
  | image {i i' : Instruction} {code out : List Instruction} (head : J.Image q i i')
      (tail : Renders q n code out) : Renders q n (i :: code) (i' :: out)

variable {J} {p q : Pool} {n m : Nat} {x x' : OperandRef} {o : Operand}

/-! ## The form of code stays -/

theorem IsRegister.concrete (h : J.IsRegister o) : o.isAbstract = false ∧ o.isMemory = false := by
  obtain ⟨r, -, -, rfl⟩ := h
  exact ⟨rfl, rfl⟩

theorem concrete_of_memory (h : o.isMemory = true) : o.isAbstract = false := by
  cases o <;> first | rfl | cases h

theorem Place.concrete (h : J.Place n o) : o.isAbstract = false := by
  cases h with
  | register is => exact is.concrete.1
  | slot is => rw [is]; rfl
  | stored is => exact concrete_of_memory is.1

theorem Slot.mono (more : n ≤ m) {offset : Word} (h : J.Slot n offset) : J.Slot m offset := by
  obtain ⟨w, least, most, eq⟩ := h
  exact ⟨w, least, by omega, eq⟩

theorem Place.mono (more : n ≤ m) (h : J.Place n o) : J.Place m o := by
  cases h with
  | register is => exact .register is
  | slot is slot => exact .slot is (slot.mono more)
  | stored is => exact .stored is

theorem Spare.mono (keeps : p.Keeps q) (more : n ≤ m) {i : Instruction} (h : J.Spare p n i) :
    J.Spare q m i := by
  obtain ⟨x, y, eq, insideX, insideY, target, source⟩ := h
  refine ⟨x, y, eq, Nat.lt_of_lt_of_le insideX keeps.size, Nat.lt_of_lt_of_le insideY keeps.size, ?_, ?_⟩
  · rw [keeps.get insideX target.concrete]
    exact target.mono more
  · rw [keeps.get insideY source.concrete]
    exact source.mono more

theorem Replaces.mono (keeps : p.Keeps q) (used : x < p.operands.size) (h : J.Replaces p x x') :
    J.Replaces q x x' := by
  cases h with
  | same eq concrete get => exact .same eq concrete ((keeps.get used (get ▸ concrete)).trans get)
  | register resident inside is =>
    refine .register resident (Nat.lt_of_lt_of_le inside keeps.size) ?_
    rw [keeps.get inside is.concrete.1]
    exact is

theorem Image.mono (keeps : p.Keeps q) {i i' : Instruction}
    (used : ∀ x ∈ i.operands, x < p.operands.size) (h : J.Image p i i') : J.Image q i i' := by
  simp only [Instruction.operands] at used
  cases h with
  | ret => exact .ret
  | halt => exact .halt
  | nop => exact .nop
  | push h => exact .push (h.mono keeps (used _ (by simp)))
  | pop h => exact .pop (h.mono keeps (used _ (by simp)))
  | dropped => exact .dropped
  | mov target source => exact .mov (target.mono keeps (used _ (by simp))) (source.mono keeps (used _ (by simp)))
  | arith target source =>
    exact .arith (target.mono keeps (used _ (by simp))) (source.mono keeps (used _ (by simp)))
  | cmp left right => exact .cmp (left.mono keeps (used _ (by simp))) (right.mono keeps (used _ (by simp)))
  | jump h => exact .jump (h.mono keeps (used _ (by simp)))
  | jumpIf h => exact .jumpIf (h.mono keeps (used _ (by simp)))
  | call h => exact .call (h.mono keeps (used _ (by simp)))

theorem Renders.mono (keeps : p.Keeps q) (more : n ≤ m) {code out : List Instruction}
    (used : ∀ i ∈ code, ∀ x ∈ i.operands, x < p.operands.size) (h : J.Renders p n code out) :
    J.Renders q m code out := by
  induction h with
  | nil => exact .nil
  | spare move _ ih => exact .spare (move.mono keeps more) (ih used)
  | image head _ ih =>
    exact .image (head.mono keeps (used _ List.mem_cons_self))
      (ih fun i mem => used i (List.mem_cons_of_mem _ mem))

theorem Renders.append {code out code' out' : List Instruction} (h : J.Renders q n code out)
    (h' : J.Renders q n code' out') : J.Renders q n (code ++ code') (out ++ out') := by
  induction h with
  | nil => exact h'
  | spare move _ ih => exact .spare move ih
  | image head _ ih => exact .image head ih

theorem Renders.spares {moves : List Instruction} (h : ∀ i ∈ moves, J.Spare q n i) :
    J.Renders q n [] moves := by
  induction moves with
  | nil => exact .nil
  | cons i rest ih =>
    exact .spare (h i List.mem_cons_self) (ih fun j mem => h j (List.mem_cons_of_mem _ mem))

/-! ## The state -/

variable (J) in
/-- Slots follow each other below the frame that the block began with, one for each value spilled; the frame
has grown by them, and the pool by more. -/
structure Stocked (s : State) : Prop where
  slots : SlotsAfter J.words s.slots.reverse
  distinct : (s.slots.map (·.1)).Nodup
  frame : s.frame.words.toNat = (J.words + s.slots.length) % 2 ^ 32
  spills : s.slots.length + J.pool.operands.size ≤ s.pool.operands.size

variable (J) in
/-- What the form of the code depends on: registers held are registers that are allocated, dirty words are
words that the block stores to, slots are below the frame, and the operands that were changed named
abstract registers of the block. -/
structure Tame (s : State) : Prop where
  residents : s.residents.Consistent J.registers
  dirty : ∀ {key}, key ∈ s.dirty → J.Stored key
  stocked : J.Stocked s
  size : J.pool.operands.size ≤ s.pool.operands.size
  keyed : ∀ {x key}, s.keys.lookup x = some key → key.isAbstract = true ∧ J.Used key ∧
    x < s.pool.operands.size ∧ J.IsRegister (s.pool.get x)
  unkeyed : ∀ {x}, x < J.pool.operands.size → s.keys.lookup x = none → s.pool.get x = J.pool.get x
  original : ∀ {x key}, x < J.pool.operands.size → s.keys.lookup x = some key → J.pool.get x = key
  retarget : ∀ {x y}, s.retarget.lookup x = some y →
    ∃ key, s.keys.lookup x = some key ∧ s.keys.lookup y = some key

variable (J) in
/-- Moves are given out. -/
structure Moves (s s' : State) : Prop where
  tame : J.Tame s'
  keys : s'.keys = s.keys
  retarget : s'.retarget = s.retarget
  pool : s.pool.Grows s'.pool
  slots : s.slots.length ≤ s'.slots.length
  given : ∃ moves, s'.out.toList = s.out.toList ++ moves ∧ ∀ i ∈ moves, J.Spare s'.pool s'.slots.length i

variable {s s' s'' : State} {c : Context} {index r : Nat} {key : Operand}

theorem few_largest (J : Job) : J.registers ≤ RegisterSet.largest := Nat.le_trans J.few (by decide)

theorem Moves.refl (h : J.Tame s) : J.Moves s s := ⟨h, rfl, rfl, .refl _, Nat.le_refl _, [], by simp, nofun⟩

theorem Moves.trans (h : J.Moves s s') (h' : J.Moves s' s'') : J.Moves s s'' := by
  obtain ⟨moves, out, spare⟩ := h.given
  obtain ⟨moves', out', spare'⟩ := h'.given
  refine ⟨h'.tame, h'.keys.trans h.keys, h'.retarget.trans h.retarget, h.pool.trans h'.pool,
    Nat.le_trans h.slots h'.slots, moves ++ moves', by rw [out', out, List.append_assoc], fun i mem => ?_⟩
  rcases List.mem_append.mp mem with mem | mem
  · exact (spare i mem).mono h'.pool.keeps h'.slots
  · exact spare' i mem

theorem Moves.foldl {α : Type} {f : State → α → State} (l : List α)
    (each : ∀ {s}, J.Tame s → ∀ a ∈ l, J.Moves s (f s a)) (h : J.Tame s) : J.Moves s (l.foldl f s) := by
  induction l generalizing s with
  | nil => exact .refl h
  | cons a rest ih =>
    have first := each h a List.mem_cons_self
    exact first.trans (ih (fun h b mem => each h b (List.mem_cons_of_mem _ mem)) first.tame)

/-- Slots that were given out stay where they are. -/
theorem Stocked.grow (h : J.Stocked s) (slots : s'.slots = s.slots) (frame : s'.frame = s.frame)
    (pool : s.pool.operands.size ≤ s'.pool.operands.size) : J.Stocked s' where
  slots := slots ▸ h.slots
  distinct := slots ▸ h.distinct
  frame := by
    rw [slots, frame]
    exact h.frame
  spills := slots ▸ Nat.le_trans h.spills pool

theorem Stocked.slot (h : J.Stocked s) {key : Operand} {offset : Word}
    (found : s.slots.lookup key = some offset) : J.Slot s.slots.length offset := by
  obtain ⟨w, least, most, eq⟩ := h.slots.offset (List.mem_reverse.mpr (mem_of_lookup found))
  rw [List.length_reverse] at most
  exact ⟨w, least, most, eq⟩

/-- A state that has grown, with the same operands changed. -/
theorem Tame.grow (h : J.Tame s) (residents : s'.residents = s.residents)
    (dirty : ∀ {key}, key ∈ s'.dirty → key ∈ s.dirty) (keys : s'.keys = s.keys)
    (retarget : s'.retarget = s.retarget) (pool : s.pool.Grows s'.pool) (stocked : J.Stocked s') :
    J.Tame s' where
  residents := residents ▸ h.residents
  dirty mem := h.dirty (dirty mem)
  stocked := stocked
  size := Nat.le_trans h.size pool.size
  keyed found := by
    rw [keys] at found
    obtain ⟨abstract, used, inside, is⟩ := h.keyed found
    exact ⟨abstract, used, Nat.lt_of_lt_of_le inside pool.size, by rwa [pool.get inside]⟩
  unkeyed inside absent := by
    rw [keys] at absent
    rw [pool.get (Nat.lt_of_lt_of_le inside h.size)]
    exact h.unkeyed inside absent
  original inside found := h.original inside (keys ▸ found)
  retarget found := by
    rw [retarget] at found
    rw [keys]
    exact h.retarget found

theorem Tame.withResidents (h : J.Tame s) {residents : Residents}
    (consistent : residents.Consistent J.registers) : J.Tame { s with residents } :=
  ⟨consistent, h.dirty, h.stocked.grow rfl rfl (Nat.le_refl _), h.size, h.keyed, h.unkeyed, h.original,
    h.retarget⟩

theorem Tame.register?_le (h : J.Tame s) (held : s.register? key = some r) : 1 ≤ r ∧ r ≤ J.registers :=
  h.residents.bounds held

theorem Tame.bind (h : J.Tame s) (key : Operand) (bounds : 1 ≤ r ∧ r ≤ J.registers) :
    J.Tame (s.bind key r) :=
  h.withResidents (h.residents.bind J.few_largest key bounds)

theorem Tame.unbind (h : J.Tame s) (key : Operand) : J.Tame (s.unbind key) :=
  h.withResidents (h.residents.unbind J.few_largest key)

theorem Tame.unsaid (h : J.Tame s) (journal : Journal) (pinned : RegisterSet) :
    J.Tame { s with journal, pinned } :=
  ⟨h.residents, h.dirty, h.stocked.grow rfl rfl (Nat.le_refl _), h.size, h.keyed, h.unkeyed, h.original,
    h.retarget⟩

theorem Moves.then_unbind (h : J.Moves s s') (key : Operand) : J.Moves s (s'.unbind key) :=
  ⟨h.tame.unbind key, h.keys, h.retarget, h.pool, h.slots, h.given⟩

theorem Moves.then_bind (h : J.Moves s s') (key : Operand) (bounds : 1 ≤ r ∧ r ≤ J.registers) :
    J.Moves s (s'.bind key r) :=
  ⟨h.tame.bind key bounds, h.keys, h.retarget, h.pool, h.slots, h.given⟩

/-! ## Moves -/

/-- What a move between two new operands adds. -/
theorem emitMove_adds (s : State) (target source : Operand) :
    s.pool.Grows (s.emitMove target source).pool ∧
      (s.emitMove target source).pool.operands.size = s.pool.operands.size + 2 ∧
      ∀ {n}, J.Place n target → J.Place n source →
        ∃ i, (s.emitMove target source).out.toList = s.out.toList ++ [i] ∧
          J.Spare (s.emitMove target source).pool n i := by
  have first : s.pool.Grows (s.pool.add target).2 := .add _ _
  have second : (s.pool.add target).2.Grows ((s.pool.add target).2.add source).2 := .add _ _
  have getX : (s.emitMove target source).pool.get s.pool.operands.size = target := by
    show ((s.pool.add target).2.add source).2.get s.pool.operands.size = target
    rw [second.get (by simp)]
    exact Pool.get_size_add _ _
  have getY : (s.emitMove target source).pool.get (s.pool.operands.size + 1) = source := by
    show ((s.pool.add target).2.add source).2.get (s.pool.operands.size + 1) = source
    have := Pool.get_size_add (s.pool.add target).2 source
    rwa [Pool.size_add] at this
  have size : (s.emitMove target source).pool.operands.size = s.pool.operands.size + 2 := by
    simp [State.emitMove, State.addOperand, State.emit]
  refine ⟨first.trans second, size, fun {n} placeX placeY => ⟨_, ?_, s.pool.operands.size,
    s.pool.operands.size + 1, rfl, ?_, ?_, by rwa [getX], by rwa [getY]⟩⟩
  · simp [State.emitMove, State.addOperand, State.emit]
  · rw [size]
    exact Nat.lt_add_of_pos_right (by decide)
  · rw [size]
    exact Nat.lt_succ_self _

/-- A move between places is given out. -/
theorem emitMove_moves (h : J.Tame s) {target source : Operand}
    (places : J.Place s.slots.length target ∧ J.Place s.slots.length source) :
    J.Moves s (s.emitMove target source) := by
  obtain ⟨grows, -, adds⟩ := emitMove_adds (J := J) s target source
  obtain ⟨i, out, spare⟩ := adds places.1 places.2
  exact ⟨h.grow rfl id rfl rfl grows (h.stocked.grow rfl rfl grows.size), rfl, rfl, grows, Nat.le_refl _, [i],
    out, fun j mem => List.mem_singleton.mp mem ▸ spare⟩

theorem isRegister (bounds : 1 ≤ r ∧ r ≤ J.registers) : J.IsRegister (.reg (.physical r)) :=
  ⟨r, bounds.1, bounds.2, rfl⟩

theorem clean_moves (h : J.Tame s) (key : Operand) (bounds : 1 ≤ r ∧ r ≤ J.registers) :
    J.Moves s (s.clean key r) := by
  unfold State.clean
  split
  · rename_i dirty
    have stored : J.Stored key := h.dirty (by simpa [State.isDirty] using dirty)
    have tame : J.Tame (s.markClean key) :=
      h.grow rfl (fun mem => (List.mem_filter.mp mem).1) rfl rfl (.refl _)
        (h.stocked.grow rfl rfl (Nat.le_refl _))
    have moves := emitMove_moves tame ⟨.stored stored, .register (isRegister bounds)⟩
    exact ⟨moves.tame, moves.keys, moves.retarget, moves.pool, moves.slots, moves.given⟩
  · exact .refl h

/-- A value that has no slot gets the next one. -/
theorem Stocked.reserve (h : J.Stocked s) (new : s.slots.lookup key = none) (slots : s'.slots =
      (key, s.frame.reserve.1) :: s.slots) (frame : s'.frame = s.frame.reserve.2)
    (pool : s.pool.operands.size < s'.pool.operands.size) : J.Stocked s' := by
  obtain ⟨offset, words⟩ := Frame.reserve_spec h.frame
  have spills := h.spills
  refine ⟨?_, ?_, ?_, ?_⟩
  · rw [slots, List.reverse_cons]
    exact h.slots.snoc key (by rw [offset, List.length_reverse])
  · rw [slots]
    exact List.nodup_cons.mpr ⟨lookup_eq_none.mp new, h.distinct⟩
  · rw [slots, frame, List.length_cons, ← Nat.add_assoc]
    exact words
  · rw [slots, List.length_cons]
    omega

theorem spill_moves (h : J.Tame s) (key : Operand) (bounds : 1 ≤ r ∧ r ≤ J.registers) :
    J.Moves s (s.spill key r) := by
  unfold State.spill
  cases found : s.slots.lookup key with
  | some offset =>
    have moves : J.Moves s (s.emitMove (.frameSlot offset) (.reg (.physical r))) := emitMove_moves h
      ⟨.slot rfl (h.stocked.slot found), .register (isRegister bounds)⟩
    have tame := moves.tame.unsaid (s.emitMove (.frameSlot offset) (.reg (.physical r))).journal.recordSpill
      s.pinned
    simp only [State.slot, found]
    exact ⟨tame, moves.keys, moves.retarget, moves.pool, moves.slots, moves.given⟩
  | none =>
    simp only [State.slot, found]
    let t : State :=
      { s with frame := s.frame.reserve.2, slots := (key, s.frame.reserve.1) :: s.slots }
    obtain ⟨grows, size, adds⟩ :=
      emitMove_adds (J := J) t (.frameSlot s.frame.reserve.1) (.reg (.physical r))
    let u := t.emitMove (.frameSlot s.frame.reserve.1) (.reg (.physical r))
    have stocked : J.Stocked u := h.stocked.reserve found rfl rfl (size ▸ Nat.lt_add_of_pos_right (by decide))
    have slot : J.Slot u.slots.length s.frame.reserve.1 := stocked.slot List.lookup_cons_self
    have tame : J.Tame u := h.grow rfl id rfl rfl grows stocked
    obtain ⟨i, out, spare⟩ := adds (.slot rfl slot) (.register (isRegister bounds))
    exact ⟨tame.unsaid _ _, rfl, rfl, grows, Nat.le_succ _, [i], out,
      fun j mem => List.mem_singleton.mp mem ▸ spare⟩

theorem vacateOne_moves (h : J.Tame s) (bounds : 1 ≤ r ∧ r ≤ J.registers) (key : Operand) :
    J.Moves s (s.vacateOne c index r key) := by
  unfold State.vacateOne
  dsimp only
  split
  · exact (clean_moves h key bounds).then_unbind key
  · split
    · exact (spill_moves h key bounds).then_unbind key
    · exact (Moves.refl h).then_unbind key

theorem vacate_moves (h : J.Tame s) (r : Nat) : J.Moves s (s.vacate c r index) := by
  refine Moves.foldl _ (fun h' key mem => vacateOne_moves h' ?_ key) h
  exact h.residents.inside (Residents.mem_of.mp mem)

/-- The lowest free register is taken once one is free. -/
theorem first_moves {t : State} (moves : J.Moves s t)
    (ok : (match t.residents.free.first? with
      | some register => (.ok (register, t) : Except Error (Nat × State))
      | none => .error (.registerPressure c.block index)) = .ok (r, s')) :
    J.Moves s s' ∧ 1 ≤ r ∧ r ≤ J.registers := by
  split at ok
  · rename_i free found
    cases ok
    have contains : s'.residents.free.contains r = true := RegisterSet.first?_eq_some found
    have bounds := moves.tame.residents.free_iff.mp contains
    exact ⟨moves, bounds.1, bounds.2.1⟩
  · cases ok

theorem acquire_moves (h : J.Tame s) (ok : s.acquire c index = .ok (r, s')) :
    J.Moves s s' ∧ 1 ≤ r ∧ r ≤ J.registers := by
  unfold State.acquire at ok
  split at ok
  · obtain ⟨t, evicted, ok⟩ := bind_ok.mp ok
    unfold State.evict at evicted
    split at evicted
    · cases evicted
      exact first_moves (vacate_moves h _) ok
    · cases evicted
  · exact first_moves (.refl h) ok

theorem load_moves (h : J.Tame s) (ok : s.load c index key = .ok (r, s')) :
    J.Moves s s' ∧ 1 ≤ r ∧ r ≤ J.registers := by
  unfold State.load at ok
  split at ok
  · rename_i held
    cases ok
    exact ⟨.refl h, h.register?_le held⟩
  · split at ok
    · cases ok
    · rename_i offset found
      obtain ⟨⟨free, t⟩, acquired, ok⟩ := bind_ok.mp ok
      cases ok
      obtain ⟨moves, bounds⟩ := acquire_moves h acquired
      have slot := (h.stocked.slot found).mono moves.slots
      have reload : J.Moves t (t.emitMove (.reg (.physical r)) (.frameSlot offset)) := emitMove_moves moves.tame
        ⟨.register (isRegister bounds), .slot rfl slot⟩
      have both := moves.trans reload
      have tame := both.tame.unsaid
        (t.emitMove (.reg (.physical r)) (.frameSlot offset)).journal.recordReload t.pinned
      refine ⟨⟨tame.bind key bounds, both.keys, both.retarget, both.pool, both.slots, both.given⟩, bounds⟩

theorem separateOne_moves (h : J.Tame s) (bounds : 1 ≤ r ∧ r ≤ J.registers) (owner key : Operand) :
    J.Moves s (s.separateOne c index r owner key) := by
  unfold State.separateOne
  split
  · exact .refl h
  · split
    · exact (clean_moves h key bounds).then_unbind key
    · split
      · split
        · rename_i copy found
          have contains : s.residents.free.contains copy = true := RegisterSet.first?_eq_some found
          have free := h.residents.free_iff.mp contains
          have moves := emitMove_moves h
            ⟨.register (isRegister ⟨free.1, free.2.1⟩), .register (isRegister bounds)⟩
          exact (moves.then_unbind key).then_bind key ⟨free.1, free.2.1⟩
        · exact (spill_moves h key bounds).then_unbind key
      · exact (Moves.refl h).then_unbind key

theorem separate_moves (h : J.Tame s) (r : Nat) (owner : Operand) :
    J.Moves s (s.separate c index r owner) := by
  refine Moves.foldl _ (fun h' key mem => separateOne_moves h' ?_ owner key) h
  exact h.residents.inside (Residents.mem_of.mp mem)

theorem Tame.markClean (h : J.Tame s) (key : Operand) : J.Tame (s.markClean key) :=
  h.grow rfl (fun mem => (List.mem_filter.mp mem).1) rfl rfl (.refl _) (h.stocked.grow rfl rfl (Nat.le_refl _))

theorem releaseDead_moves (h : J.Tame s) : J.Moves s (s.releaseDead c index) := by
  refine Moves.foldl _ (fun {t} h key _ => ?_) h
  unfold State.releaseOne
  split
  · exact .refl h
  · dsimp only
    split
    · rename_i r held
      exact (clean_moves h key (h.register?_le held)).then_unbind key
    · exact ⟨(h.markClean key).unbind key, rfl, rfl, .refl _, Nat.le_refl _, [],
        by simp [State.unbind, State.markClean], nofun⟩

theorem writeBackAll_moves (h : J.Tame s) : J.Moves s s.writeBackAll := by
  have clean : J.Tame { s with dirty := [] } := h.grow rfl nofun rfl rfl (.refl _) (h.stocked.grow rfl rfl (Nat.le_refl _))
  have moves : J.Moves { s with dirty := [] } s.writeBackAll := by
    refine Moves.foldl _ (fun {t} h' key mem => ?_) clean
    have stored : J.Stored key := h.dirty (by simpa [Residents.sorted] using mem)
    split
    · rename_i r held
      exact emitMove_moves h' ⟨.stored stored, .register (isRegister (h'.register?_le held))⟩
    · exact .refl h'
  exact ⟨moves.tame, moves.keys, moves.retarget, moves.pool, moves.slots, moves.given⟩

theorem vacateAll_moves (h : J.Tame s) : J.Moves s (s.vacateAll c index) := by
  refine Moves.foldl _ (fun {t} h r _ => ?_) h
  split
  · exact .refl h
  · exact vacate_moves h r

end Job

end Allocation

end Codegen86
