import Codegen86.Proofs.Allocation.Given
import Codegen86.Proofs.Allocation.Spilling
import Mathlib.Logic.Relation
/-!
# The steps of the allocator

Whatever the allocator does within a block comes down to eleven kinds of change to its state
(`Work.Step`): a binding is made, dropped or moved, a word becomes dirty or is stored, a slot is reserved,
an operand is added, an instruction is given out, an operand comes to name a register or is split, and
the registers in use and the journal change.  Each operation is a chain of steps (`Work.Steps`), for any
number of registers, any code and any pool, so that what one step keeps every operation keeps.  The
first such invariant is `Work.Regular`, which the chains themselves are built on.
-/

set_option autoImplicit false

namespace Codegen86.Allocation

open Target

/-- A block to be allocated.  `needed` are values that must not get lost, and `defined` the abstract registers
that may have a value. -/
structure Work where
  context : Context
  code : List Instruction
  needed : Operand → Prop
  defined : Operand → Prop

/-- The value of `key` is in a register or has a slot. -/
def Kept (s : State) (key : Operand) : Prop :=
  (∃ r, s.register? key = some r) ∨ ∃ offset, s.slots.lookup key = some offset

namespace Work

variable (W : Work)

/-- A register that is allocated. -/
def InRange (r : Nat) : Prop := 1 ≤ r ∧ r ≤ W.context.registers

/-- A place in the pool that the block refers to. -/
def Refers (x : OperandRef) : Prop := ∃ i ∈ W.code, x ∈ i.operands

/-- A place in the pool that a jump or call of the block refers to. -/
def Leads (x : OperandRef) : Prop := ∃ i ∈ W.code, i.destination? = some x

/-- The values that are needed are read from an instruction on. -/
def Reads (index : Nat) : Prop :=
  ∀ key, W.needed key → (W.context.liveness.nextRead key index).isSome = true

/-- The values that are needed are live behind an instruction. -/
def ReadsAfter (index : Nat) : Prop :=
  ∀ key, W.needed key → W.context.liveness.isLiveAfter index key = true

/-- What the allocator puts into the pool: registers, slots, and words of memory that the block refers to. -/
inductive Place (s : State) (o : Operand) : Prop
  | register {r : Nat} (range : W.InRange r) (is : o = .reg (.physical r))
  | slot {key : Operand} {offset : Word} (has : s.slots.lookup key = some offset)
      (is : o = .frameSlot offset)
  | word {x : OperandRef} (refers : W.Refers x) (memory : o.isMemory = true) (is : s.pool.get x = o)

/-- What an instruction that is given out may refer to: what the allocator has put into the pool, and what the
block refers to; what jumps and calls refer to in jumps and calls alone, if it is an abstract register. -/
inductive Fits (s : State) (transfers : Bool) (x : OperandRef) : Prop
  | place (inside : x < s.pool.operands.size) (is : W.Place s (s.pool.get x))
  | same (refers : W.Refers x)
      (concrete : transfers = true ∧ W.Leads x ∨ (s.pool.get x).isAbstract = false)

/-- One change of the allocator's state. -/
inductive Step (s : State) : State → Prop
  | bind {key : Operand} {r : Nat} (range : W.InRange r)
      (known : key.isAbstract = true → W.defined key) : Step s (s.bind key r)
  | unbind {key : Operand} (clean : key ∉ s.dirty) (saved : key.isAbstract = true → W.needed key →
      ∃ offset, s.slots.lookup key = some offset) : Step s (s.unbind key)
  | move {key : Operand} {r : Nat} (range : W.InRange r) (clean : key ∉ s.dirty)
      (known : key.isAbstract = true → W.defined key) : Step s ((s.unbind key).bind key r)
  | soil {x : OperandRef} {word : Operand} (memory : word.isMemory = true)
      (held : ∃ r, s.register? word = some r) (refers : W.Refers x) (is : s.pool.get x = word) :
      Step s (s.markDirty word)
  | store {dirty : List Operand} (fewer : ∀ key ∈ dirty, key ∈ s.dirty) : Step s { s with dirty }
  | reserve {key : Operand} (known : key.isAbstract = true → W.defined key)
      (new : s.slots.lookup key = none) :
      Step s { s with frame := s.frame.reserve.2, slots := (key, s.frame.reserve.1) :: s.slots }
  | operand {o : Operand} (place : W.Place s o) : Step s (s.addOperand o).2
  | emit {i : Instruction} (fits : ∀ x ∈ i.operands, W.Fits s i.destination?.isSome x) : Step s (s.emit i)
  | name {x : OperandRef} {key : Operand} {r : Nat} (range : W.InRange r) (abstract : key.isAbstract = true)
      (absent : s.keys.lookup x = none) (is : s.pool.get x = key) :
      Step s { s with keys := (x, key) :: s.keys, pool := s.pool.set x (.reg (.physical r)) }
  | split {x : OperandRef} {key : Operand} {r : Nat} (range : W.InRange r)
      (found : s.keys.lookup x = some key) :
      Step s { (s.physical r).2 with
        keys := ((s.physical r).1, key) :: s.keys
        retarget := (x, (s.physical r).1) :: s.retarget }
  | note {journal : Journal} {pinned : RegisterSet} : Step s { s with journal, pinned }

/-- A chain of steps. -/
abbrev Steps : State → State → Prop := Relation.ReflTransGen W.Step

/-- What holds in every state of the allocator: residents are in registers that are allocated, and free registers
are such; dirty words are words of memory that the block refers to, and in registers; operands that were
changed name registers; and only abstract registers that may have a value have one. -/
structure Regular (s : State) : Prop where
  bound : ∀ {key r}, s.register? key = some r → W.InRange r
  free : ∀ {r}, s.residents.free.contains r = true → W.InRange r
  dirty : ∀ {key}, key ∈ s.dirty → key.isMemory = true ∧ (∃ r, s.register? key = some r) ∧
    ∃ x, W.Refers x ∧ s.pool.get x = key
  keyed : ∀ {x key}, s.keys.lookup x = some key → key.isAbstract = true ∧ x < s.pool.operands.size ∧
    ∃ r, W.InRange r ∧ s.pool.get x = .reg (.physical r)
  retarget : ∀ {x y}, s.retarget.lookup x = some y →
    ∃ key, s.keys.lookup x = some key ∧ s.keys.lookup y = some key
  known : ∀ {key}, key.isAbstract = true → Kept s key → W.defined key

variable {W} {s s' s'' : State} {c : Context} {x y : OperandRef} {key o : Operand} {r index : Nat}

/-! ## Operands through a step -/

theorem not_abstract_of_memory (memory : o.isMemory = true) : o.isAbstract = false := by
  cases o with
  | mem base offset => rfl
  | _ => cases memory

theorem Place.concrete (h : W.Place s o) : o.isAbstract = false := by
  cases h with
  | register range is => rw [is]; rfl
  | slot has is => rw [is]; rfl
  | word refers memory is => exact not_abstract_of_memory memory

theorem inside_of_memory {p : Pool} (memory : (p.get x).isMemory = true) : x < p.operands.size := by
  refine Nat.lt_of_not_le fun outside => ?_
  rw [Pool.get, Array.getD_eq_getD_getElem?, Array.getElem?_eq_none outside] at memory
  cases memory

/-- What steps leave: operands that name no abstract register stay, an operand that does may come to name a
physical one and is remembered, slots stay, and instructions are only added. -/
structure Grown (s s' : State) : Prop where
  size : s.pool.operands.size ≤ s'.pool.operands.size
  keyed : ∀ {x key}, s.keys.lookup x = some key → s'.keys.lookup x = some key
  settled : ∀ {x}, x < s.pool.operands.size → (s.pool.get x).isAbstract = false →
    s'.pool.get x = s.pool.get x
  concrete : ∀ {x}, (s.pool.get x).isAbstract = false → (s'.pool.get x).isAbstract = false
  unkeyed : ∀ {x}, x < s.pool.operands.size → s.keys.lookup x = none →
    s'.keys.lookup x = none ∧ s'.pool.get x = s.pool.get x ∨ s'.keys.lookup x = some (s.pool.get x)
  slots : ∀ {key offset}, s.slots.lookup key = some offset → s'.slots.lookup key = some offset
  out : s.out.toList <+: s'.out.toList

namespace Grown

theorem refl (s : State) : Grown s s :=
  ⟨Nat.le_refl _, id, fun _ _ => rfl, id, fun _ absent => .inl ⟨absent, rfl⟩, id, List.prefix_refl _⟩

theorem trans (h : Grown s s') (h' : Grown s' s'') : Grown s s'' where
  size := Nat.le_trans h.size h'.size
  keyed := h'.keyed ∘ h.keyed
  settled inside concrete := by
    have same := h.settled inside concrete
    rw [h'.settled (Nat.lt_of_lt_of_le inside h.size) (by rw [same]; exact concrete), same]
  concrete := h'.concrete ∘ h.concrete
  unkeyed inside absent := by
    rcases h.unkeyed inside absent with ⟨absent', same⟩ | found
    · rw [← same]
      exact h'.unkeyed (Nat.lt_of_lt_of_le inside h.size) absent'
    · exact .inr (h'.keyed found)
  slots := h'.slots ∘ h.slots
  out := h.out.trans h'.out

/-- A state with the same operands. -/
theorem of_eq (pool : s'.pool = s.pool) (keys : s'.keys = s.keys)
    (slots : ∀ {key offset}, s.slots.lookup key = some offset → s'.slots.lookup key = some offset)
    (out : s.out.toList <+: s'.out.toList) : Grown s s' where
  size := Nat.le_of_eq (by rw [pool])
  keyed found := by rw [keys]; exact found
  settled _ _ := by rw [pool]
  concrete concrete := by rw [pool]; exact concrete
  unkeyed _ absent := .inl ⟨by rw [keys]; exact absent, by rw [pool]⟩
  slots := slots
  out := out

/-- An operand is added that names no abstract register. -/
theorem addOperand (concrete : o.isAbstract = false) : Grown s (s.addOperand o).2 where
  size := by simp [State.addOperand, Pool.add]
  keyed := id
  settled inside _ := Pool.get_add_of_lt _ _ inside
  concrete {x} before := by
    rcases Nat.lt_trichotomy x s.pool.operands.size with inside | rfl | outside
    · rw [show (s.addOperand o).2.pool.get x = s.pool.get x from Pool.get_add_of_lt _ _ inside]
      exact before
    · rw [show (s.addOperand o).2.pool.get s.pool.operands.size = o from Pool.get_size_add _ _]
      exact concrete
    · refine Bool.eq_false_iff.mpr fun abstract => ?_
      have inside := Pool.inside_of_abstract abstract
      rw [show (s.addOperand o).2.pool.operands.size = s.pool.operands.size + 1 from Pool.size_add _ _] at inside
      exact Nat.not_lt_of_le outside inside
  unkeyed inside absent := .inl ⟨absent, Pool.get_add_of_lt _ _ inside⟩
  slots := id
  out := List.prefix_refl _

theorem place (h : Grown s s') (place : W.Place s o) : W.Place s' o := by
  cases place with
  | register range is => exact .register range is
  | slot has is => exact .slot (h.slots has) is
  | word refers memory is =>
    subst is
    refine .word refers memory (h.settled (inside_of_memory memory) ?_)
    exact (Place.word (W := W) refers memory rfl).concrete

theorem fits (h : Grown s s') {transfers : Bool} (fits : W.Fits s transfers x) : W.Fits s' transfers x := by
  cases fits with
  | place inside is =>
    refine .place (Nat.lt_of_lt_of_le inside h.size) ?_
    rw [h.settled inside is.concrete]
    exact h.place is
  | same refers concrete => exact .same refers (concrete.imp_right h.concrete)

end Grown

/-! ## What an operand is to the allocator -/

theorem role_abstract : s.role x = .abstract key ↔
    s.keys.lookup x = some key ∨
      s.keys.lookup x = none ∧ s.pool.get x = key ∧ key.isAbstract = true := by
  unfold State.role
  cases found : s.keys.lookup x with
  | some k => simp
  | none =>
    dsimp only
    by_cases abstract : (s.pool.get x).isAbstract = true
    · rw [if_pos abstract]
      constructor
      · intro same
        cases same
        exact .inr ⟨rfl, rfl, abstract⟩
      · rintro (wrong | ⟨-, rfl, -⟩)
        · cases wrong
        · rfl
    · rw [if_neg abstract]
      constructor
      · intro same
        split at same <;> cases same
      · rintro (wrong | ⟨-, rfl, abstract'⟩)
        · cases wrong
        · exact absurd abstract' abstract

theorem role_memory (h : s.role x = .memory key) :
    s.keys.lookup x = none ∧ s.pool.get x = key ∧ key.isMemory = true ∧ key.isAbstract = false := by
  unfold State.role at h
  split at h
  · cases h
  · rename_i absent
    dsimp only at h
    split at h
    · cases h
    · rename_i concrete
      split at h
      · rename_i memory
        cases h
        exact ⟨absent, rfl, memory, by simpa using concrete⟩
      · cases h

theorem role_other (h : s.role x = .other) :
    s.keys.lookup x = none ∧ (s.pool.get x).isAbstract = false := by
  unfold State.role at h
  split at h
  · cases h
  · rename_i absent
    dsimp only at h
    split at h
    · cases h
    · rename_i concrete
      exact ⟨absent, by simpa using concrete⟩

/-- An operand goes on being an instance of its abstract register. -/
theorem Grown.role (h : Grown s s') (role : s.role x = .abstract key) :
    s'.role x = .abstract key := by
  rcases role_abstract.mp role with found | ⟨absent, rfl, abstract⟩
  · exact role_abstract.mpr (.inl (h.keyed found))
  · rcases h.unkeyed (Pool.inside_of_abstract abstract) absent with ⟨absent', same⟩ | found
    · exact role_abstract.mpr (.inr ⟨absent', same, abstract⟩)
    · exact role_abstract.mpr (.inl found)

namespace Regular

/-- What stands for an operand now is the same to the allocator. -/
theorem role_current (h : W.Regular s) (x : OperandRef) : s.role (s.current x) = s.role x := by
  rcases State.current_keyed h.retarget x with same | ⟨key, here, there⟩
  · rw [same]
  · rw [role_abstract.mpr (.inl here), role_abstract.mpr (.inl there)]

/-- Something else stands for an operand only if it is an instance of an abstract register. -/
theorem current_eq (h : W.Regular s) (other : ∀ key, s.role (s.current x) ≠ .abstract key) :
    s.current x = x := by
  rcases State.current_keyed h.retarget x with same | ⟨key, here, there⟩
  · exact same
  · exact absurd (role_abstract.mpr (.inl there)) (other key)

theorem inside_current (h : W.Regular s) (inside : x < s.pool.operands.size) :
    s.current x < s.pool.operands.size := by
  rcases State.current_keyed h.retarget x with same | ⟨key, -, found⟩
  · rwa [same]
  · exact (h.keyed found).2.1

/-- An operand goes on being what it is to the allocator. -/
theorem role_grown (h : W.Regular s') (grown : Grown s s') (inside : x < s.pool.operands.size) :
    s'.role x = s.role x := by
  cases known : s.keys.lookup x with
  | some key => simp only [State.role, known, grown.keyed known]
  | none =>
    rcases grown.unkeyed inside known with ⟨absent, same⟩ | found
    · simp only [State.role, known, absent, same]
    · simp only [State.role, known, found, (h.keyed found).1, if_true]

theorem abstract (h : W.Regular s) (role : s.role x = .abstract key) : key.isAbstract = true := by
  rcases role_abstract.mp role with found | ⟨-, -, abstract⟩
  · exact (h.keyed found).1
  · exact abstract

/-- Abstract registers are never dirty. -/
theorem clean (h : W.Regular s) (other : key.isMemory = false) : key ∉ s.dirty := fun mem => by
  have := (h.dirty mem).1
  rw [other] at this
  cases this

end Regular

/-! ## What one step keeps -/

theorem kept_of_eq (residents : s'.residents = s.residents)
    (slots : s'.slots = s.slots) : Kept s' key ↔ Kept s key := by
  unfold Kept State.register?
  rw [residents, slots]

theorem kept_bind {other : Operand} : Kept (s.bind key r) other ↔ other = key ∨ Kept s other := by
  unfold Kept
  rw [register?_bind]
  by_cases same : other = key
  · simp [same]
  · simp [same, State.bind]

theorem kept_unbind {other : Operand} (h : Kept (s.unbind key) other) : Kept s other := by
  unfold Kept at h ⊢
  rw [register?_unbind] at h
  refine h.imp_left fun held => ?_
  split at held
  · simp at held
  · exact held

theorem kept_unbind_of_saved {other : Operand}
    (saved : other = key → ∃ offset, s.slots.lookup key = some offset) (h : Kept s key) :
    Kept (s.unbind other) key := by
  unfold Kept
  rw [register?_unbind]
  by_cases same : other = key
  · exact .inr (saved same)
  · rw [if_neg (Ne.symm same)]
    exact h

/-- The registers that are free after a register was given up were free before, or are that one. -/
theorem free_bind {residents : Residents} {free : Nat}
    (h : (residents.bind key r).free.contains free = true) :
    residents.free.contains free = true ∨ residents.register? key = some free := by
  unfold Residents.bind at h
  dsimp only at h
  split at h
  · rw [Residents.occupy, RegisterSet.contains_remove, Bool.and_eq_true] at h
    exact .inl h.1
  · rename_i old held
    split at h
    · exact .inl h
    · rw [Residents.occupy, RegisterSet.contains_remove, Bool.and_eq_true,
        Residents.Consistent.contains_free_release] at h
      rcases h.1 with free | ⟨rfl, -⟩
      · exact .inl free
      · exact .inr held

theorem free_unbind {residents : Residents} {free : Nat}
    (h : (residents.unbind key).free.contains free = true) :
    residents.free.contains free = true ∨ residents.register? key = some free := by
  unfold Residents.unbind at h
  split at h
  · exact .inl h
  · rename_i old held
    rcases (Residents.Consistent.contains_free_release _ _ _).mp h with free | ⟨rfl, -⟩
    · exact .inl free
    · exact .inr held

theorem Regular.bind (h : W.Regular s) (range : W.InRange r)
    (known : key.isAbstract = true → W.defined key) : W.Regular (s.bind key r) where
  bound held := by
    rw [register?_bind] at held
    split at held
    · cases held
      exact range
    · exact h.bound held
  free free := (free_bind free).elim h.free h.bound
  dirty mem := by
    obtain ⟨memory, held, refers⟩ := h.dirty mem
    refine ⟨memory, ?_, refers⟩
    rw [register?_bind]
    split
    · exact ⟨r, rfl⟩
    · exact held
  keyed := h.keyed
  retarget := h.retarget
  known abstract kept := (kept_bind.mp kept).elim (fun same => same ▸ known (same ▸ abstract)) (h.known abstract)

theorem Regular.unbind (h : W.Regular s) (clean : key ∉ s.dirty) : W.Regular (s.unbind key) where
  bound held := by
    rw [register?_unbind] at held
    split at held
    · cases held
    · exact h.bound held
  free free := (free_unbind free).elim h.free h.bound
  dirty mem := by
    obtain ⟨memory, held, refers⟩ := h.dirty mem
    refine ⟨memory, ?_, refers⟩
    rw [register?_unbind, if_neg]
    · exact held
    · rintro rfl
      exact clean mem
  keyed := h.keyed
  retarget := h.retarget
  known abstract kept := h.known abstract (kept_unbind kept)

theorem Regular.start (pool : Pool) (frame : Frame) (journal : Journal) :
    W.Regular (.start W.context pool frame journal) where
  bound held := by cases held
  free free :=
    have bounds := (RegisterSet.contains_range _ _ _).mp free
    ⟨bounds.1, bounds.2.1⟩
  dirty mem := by cases mem
  keyed found := by cases found
  retarget found := by cases found
  known _ kept := by rcases kept with ⟨_, held⟩ | ⟨_, found⟩ <;> contradiction

/-- Dirty words stay words that the block refers to. -/
theorem Regular.dirty_grown (h : W.Regular s) (grown : Grown s s') (mem : key ∈ s.dirty) :
    ∃ x, W.Refers x ∧ s'.pool.get x = key := by
  obtain ⟨memory, -, x, refers, is⟩ := h.dirty mem
  have concrete := (Place.word (W := W) refers memory is).concrete
  exact ⟨x, refers, (grown.settled (inside_of_memory (is ▸ memory)) (is ▸ concrete)).trans is⟩

/-- Operands that were changed go on naming registers. -/
theorem Regular.keyed_grown (h : W.Regular s) (grown : Grown s s') (found : s.keys.lookup x = some key) :
    key.isAbstract = true ∧ x < s'.pool.operands.size ∧
      ∃ r, W.InRange r ∧ s'.pool.get x = .reg (.physical r) := by
  obtain ⟨abstract, inside, r, range, is⟩ := h.keyed found
  exact ⟨abstract, Nat.lt_of_lt_of_le inside grown.size, r, range,
    (grown.settled inside (by rw [is]; rfl)).trans is⟩

/-- The operands and bindings of a regular state stay, and others may be added. -/
theorem Regular.grow (h : W.Regular s) (grown : Grown s s') (residents : s'.residents = s.residents)
    (dirty : ∀ {key}, key ∈ s'.dirty → key ∈ s.dirty) (keys : s'.keys = s.keys)
    (retarget : s'.retarget = s.retarget)
    (known : ∀ {key}, key.isAbstract = true → Kept s' key → W.defined key) : W.Regular s' where
  bound {key r} held := by
    rw [State.register?, residents] at held
    exact h.bound held
  free free := h.free (residents ▸ free)
  dirty mem := by
    obtain ⟨memory, held, -⟩ := h.dirty (dirty mem)
    refine ⟨memory, ?_, h.dirty_grown grown (dirty mem)⟩
    rw [State.register?, residents]
    exact held
  keyed found := h.keyed_grown grown (keys ▸ found)
  retarget found := by
    rw [keys]
    exact h.retarget (retarget ▸ found)
  known := known

namespace Step

theorem grown (h : W.Regular s) (step : W.Step s s') : Grown s s' := by
  cases step with
  | bind | unbind | move | soil | store | note =>
    exact .of_eq rfl rfl id (List.prefix_refl _)
  | emit => exact .of_eq rfl rfl id (by simp [State.emit])
  | reserve known new =>
    refine .of_eq rfl rfl (fun {key offset} found => ?_) (List.prefix_refl _)
    dsimp only
    rw [List.lookup_cons]
    split
    · rename_i same
      rw [eq_of_beq same, new] at found
      cases found
    · exact found
  | operand place => exact .addOperand place.concrete
  | @name x key r range abstract absent is =>
    -- the operand is an abstract register before and has a key behind, so no other clause speaks of it
    have inside : x < s.pool.operands.size := Pool.inside_of_abstract (is ▸ abstract)
    have get : ∀ y, (s.pool.set x (.reg (.physical r))).get y =
        if y = x then .reg (.physical r) else s.pool.get y := fun y => s.pool.get_set y _ inside
    refine ⟨by simp [Pool.set], fun {y key'} found => ?_, fun {y} _ concrete => ?_, fun {y} concrete => ?_,
      fun {y} _ absent' => ?_, id, List.prefix_refl _⟩
    · dsimp only
      rw [lookup_cons_ite, if_neg]
      · exact found
      · rintro rfl
        rw [absent] at found
        cases found
    · dsimp only
      rw [get, if_neg]
      rintro rfl
      rw [is, abstract] at concrete
      cases concrete
    · dsimp only
      rw [get]
      split
      · rfl
      · exact concrete
    · dsimp only
      rw [get, lookup_cons_ite]
      by_cases here : y = x
      · rw [if_pos here, here, is]
        exact .inr rfl
      · rw [if_neg here, if_neg here]
        exact .inl ⟨absent', rfl⟩
  | @split x key r range found =>
    have added : Grown s (s.physical r).2 := .addOperand rfl
    have fresh : ∀ {y}, y < s.pool.operands.size → y ≠ (s.physical r).1 := fun inside =>
      Nat.ne_of_lt inside
    refine ⟨added.size, fun {y key'} found' => ?_, added.settled, added.concrete,
      fun {y} inside absent => ?_, id, List.prefix_refl _⟩
    · dsimp only
      rw [lookup_cons_ite, if_neg (fresh (h.keyed found').2.1)]
      exact found'
    · dsimp only
      rw [lookup_cons_ite, if_neg (fresh inside)]
      exact added.unkeyed inside absent

theorem regular (h : W.Regular s) (step : W.Step s s') : W.Regular s' := by
  have grown := step.grown h
  cases step with
  | bind range known => exact h.bind range known
  | unbind clean => exact h.unbind clean
  | move range clean known => exact (h.unbind clean).bind range known
  | @soil x word memory held refers is =>
    refine ⟨h.bound, h.free, fun {key} mem => ?_, h.keyed, h.retarget, h.known⟩
    rcases List.mem_insert_iff.mp mem with rfl | mem
    · exact ⟨memory, held, x, refers, is⟩
    · exact h.dirty mem
  | store fewer => exact h.grow grown rfl (fewer _) rfl rfl h.known
  | @reserve key known new =>
    refine h.grow grown rfl id rfl rfl fun {other} abstract kept => ?_
    rcases kept with held | ⟨offset, found⟩
    · exact h.known abstract (.inl held)
    · dsimp only at found
      rw [lookup_cons_ite] at found
      split at found
      · rename_i same
        exact same ▸ known (same ▸ abstract)
      · exact h.known abstract (.inr ⟨offset, found⟩)
  | operand place => exact h.grow grown rfl id rfl rfl h.known
  | emit fits => exact h.grow grown rfl id rfl rfl h.known
  | note => exact h.grow grown rfl id rfl rfl h.known
  | @name x key r range abstract absent is =>
    have inside : x < s.pool.operands.size := Pool.inside_of_abstract (is ▸ abstract)
    refine ⟨h.bound, h.free, fun {word} mem => ?_, fun {y key'} found => ?_, fun {y z} found => ?_, h.known⟩
    · obtain ⟨memory, held, -⟩ := h.dirty mem
      exact ⟨memory, held, h.dirty_grown grown mem⟩
    · dsimp only at found
      rw [lookup_cons_ite] at found
      split at found
      · rename_i here
        cases found
        subst here
        exact ⟨abstract, by simpa [Pool.set] using inside, r, range, by
          dsimp only
          rw [Pool.get_set _ _ _ inside, if_pos rfl]⟩
      · exact h.keyed_grown grown found
    · obtain ⟨key', here, there⟩ := h.retarget found
      exact ⟨key', grown.keyed here, grown.keyed there⟩
  | @split x key r range found =>
    refine ⟨h.bound, h.free, fun {word} mem => ?_, fun {y key'} found' => ?_, fun {y z} found' => ?_, h.known⟩
    · obtain ⟨memory, held, -⟩ := h.dirty mem
      exact ⟨memory, held, h.dirty_grown grown mem⟩
    · dsimp only at found'
      rw [lookup_cons_ite] at found'
      split at found'
      · rename_i here
        cases found'
        subst here
        exact ⟨(h.keyed found).1, by simp [State.physical, State.addOperand], r, range, Pool.get_size_add _ _⟩
      · exact h.keyed_grown grown found'
    · dsimp only at found'
      rw [lookup_cons_ite] at found'
      split at found'
      · rename_i here
        cases found'
        subst here
        exact ⟨key, grown.keyed found, by dsimp only; rw [lookup_cons_ite, if_pos rfl]⟩
      · obtain ⟨key', here, there⟩ := h.retarget found'
        exact ⟨key', grown.keyed here, grown.keyed there⟩

/-- A needed value that is in a register or has a slot goes on being so. -/
theorem kept (step : W.Step s s') (abstract : key.isAbstract = true) (needed : W.needed key)
    (kept : Kept s key) : Kept s' key := by
  cases step with
  | bind => exact kept_bind.mpr (.inr kept)
  | unbind clean saved =>
    refine kept_unbind_of_saved (fun same => ?_) kept
    subst same
    exact saved abstract needed
  | @move other r =>
    rw [kept_bind]
    by_cases same : key = other
    · exact .inl same
    · exact .inr (kept_unbind_of_saved (fun same' => absurd same'.symm same) kept)
  | soil | store | operand | emit | name | split | note => exact (kept_of_eq rfl rfl).mpr kept
  | @reserve other known new =>
    refine kept.imp_right fun ⟨offset, found⟩ => ?_
    exact ⟨offset, lookup_cons_of_some new found⟩

end Step

/-- What holds behind a chain of steps. -/
theorem Steps.keep (steps : W.Steps s s') (h : W.Regular s) : W.Regular s' ∧ Grown s s' := by
  induction steps with
  | refl => exact ⟨h, .refl _⟩
  | tail _ step ih => exact ⟨step.regular ih.1, ih.2.trans (step.grown ih.1)⟩

theorem Steps.regular (steps : W.Steps s s') (h : W.Regular s) : W.Regular s' := (steps.keep h).1

theorem Steps.grown (steps : W.Steps s s') (h : W.Regular s) : Grown s s' := (steps.keep h).2

theorem Steps.kept (steps : W.Steps s s') (abstract : key.isAbstract = true) (needed : W.needed key)
    (kept : Kept s key) : Kept s' key := by
  induction steps with
  | refl => exact kept
  | tail _ step ih => exact step.kept abstract needed ih

end Work

end Codegen86.Allocation
