import Codegen86.Proofs.Allocation.Spilling
/-!
# Bringing operands into registers

An instruction reads its operands where they are: an abstract register's value in a physical register, a
word of memory in the register that holds it or else in memory.  `use_spec` is the specification of the
search for that place; its result is a `Ready` operand, and it stays ready while the instruction's other
operand is brought in, because the registers an instruction uses are pinned (`Keeps`).
-/

set_option autoImplicit false

namespace Codegen86.Allocation

open Target Symbolic

variable {E : Setting} {L : Operand → Prop} {s s' : State} {u t : View}

/-- The operands of admissible code: abstract registers, words of the frame, the result register, the
stack and base pointer, immediates and labels. -/
def Allowed (base : Nat) : Operand → Prop
  | .mem b off => b = .basePointer ∧ -(base : Int) ≤ off.toInt
  | .reg (.physical r) => r = 0
  | _ => True

theorem Allowed.isKey {base : Nat} {o : Operand} (h : Allowed base o)
    (tracked : o.isAbstract = true ∨ o.isMemory = true) : IsKey base o := by
  match o, h, tracked with
  | .reg (.abstract k), _, _ => exact .inl ⟨k, rfl⟩
  | .mem _ off, ⟨rfl, inFrame⟩, _ => exact .inr ⟨off, rfl, inFrame⟩
  | .reg (.physical _), _, wrong => simp [Operand.isAbstract, Operand.isMemory, Register.isAbstract] at wrong
  | .reg .stackPointer, _, wrong => simp [Operand.isAbstract, Operand.isMemory, Register.isAbstract] at wrong
  | .reg .basePointer, _, wrong => simp [Operand.isAbstract, Operand.isMemory, Register.isAbstract] at wrong
  | .imm _, _, wrong => simp [Operand.isAbstract, Operand.isMemory] at wrong
  | .label _, _, wrong => simp [Operand.isAbstract, Operand.isMemory] at wrong

/-! ## Naming a register -/

/-- States that differ in their operands only. -/
structure SameStore (s s' : State) : Prop where
  residents : s'.residents = s.residents
  dirty : s'.dirty = s.dirty
  slots : s'.slots = s.slots
  pinned : s'.pinned = s.pinned
  out : s'.out = s.out

theorem SameStore.register? (h : SameStore s s') (key : Operand) :
    s'.register? key = s.register? key := by
  rw [State.register?, h.residents, State.register?]

theorem SameStore.does (h : SameStore s s') (shape : Shape E s') (evolves : Evolves s s') :
    Does E L s s' :=
  ⟨shape, evolves, fun mem => h.dirty ▸ mem, fun covered => covered.of_eq h.residents h.slots,
    fun _ _ holds => ⟨_, .nothing h.out, holds.of_eq h.residents h.dirty h.slots⟩⟩

theorem sameStore_attach (s : State) (x : OperandRef) (key : Operand) (reg : Nat) :
    SameStore s (s.attach x key reg).2 := by
  simp only [State.attach]
  split
  · exact ⟨rfl, rfl, rfl, rfl, rfl⟩
  · split <;> exact ⟨rfl, rfl, rfl, rfl, rfl⟩

/-- The first instance of an abstract register is changed in place. -/
theorem attach_first (h : Shape E s) {x : OperandRef} {key : Operand} {reg : Nat}
    (stands : Stands s x key) (abstract : key.isAbstract = true)
    (first : (s.pool.get x).isAbstract = true) (bounds : 1 ≤ reg ∧ reg ≤ E.context.registers) :
    let s' := { s with
      keys := (x, key) :: s.keys
      pool := s.pool.set x (.reg (.physical reg)) }
    Shape E s' ∧ Evolves s s' := by
  have absent : s.keys.lookup x = none := by
    cases found : s.keys.lookup x with
    | none => rfl
    | some k =>
      obtain ⟨-, -, r, there, -⟩ := h.keyed found
      rw [there] at first
      cases first
  have here : s.pool.get x = key := by
    rcases stands.2 with found | ⟨-, eq⟩
    · rw [absent] at found
      cases found
    · exact eq
  have get : ∀ y, (s.pool.set x (.reg (.physical reg))).get y =
      if y = x then .reg (.physical reg) else s.pool.get y :=
    fun y => Pool.get_set _ _ _ stands.1
  have size : (s.pool.set x (.reg (.physical reg))).operands.size = s.pool.operands.size := by
    simp [Pool.set]
  have lookup : ∀ y, List.lookup y ((x, key) :: s.keys) = if y = x then some key else s.keys.lookup y := by
    intro y
    rw [List.lookup_cons]
    by_cases same : y = x
    · simp [same]
    · simp [beq_false_of_ne same, same]
  refine ⟨⟨h.residents, h.isKey, h.dirty, h.slots, h.frame, ?_, ?_, ?_, ?_, ?_⟩,
    ⟨?_, ?_, ?_, ?_, List.suffix_refl _, List.prefix_refl _, .inl⟩⟩
  · exact size ▸ h.poolSize
  · intro y k found
    rw [lookup] at found
    dsimp only
    rw [size, get]
    split at found
    · rename_i same
      cases found
      subst same
      exact ⟨abstract, stands.1, reg, if_pos rfl, bounds⟩
    · rename_i apart
      rw [if_neg apart]
      exact h.keyed found
  · intro y inside none
    rw [lookup] at none
    split at none
    · cases none
    · rename_i apart
      dsimp only
      rw [get, if_neg apart]
      exact h.unkeyed inside none
  · intro y k inside found
    rw [lookup] at found
    split at found
    · rename_i same
      cases found
      subst same
      rw [← h.unkeyed inside absent, here]
    · exact h.original inside found
  · intro y z found
    obtain ⟨k, source, target⟩ := h.retarget found
    refine ⟨k, ?_, ?_⟩
    · rw [lookup, if_neg]
      · exact source
      · rintro rfl
        rw [absent] at source
        cases source
    · rw [lookup, if_neg]
      · exact target
      · rintro rfl
        rw [absent] at target
        cases target
  · exact Nat.le_of_eq size.symm
  · intro y k found
    rw [lookup, if_neg]
    · exact found
    · rintro rfl
      rw [absent] at found
      cases found
  · intro y inside concrete
    dsimp only
    rw [get, if_neg]
    rintro rfl
    rw [first] at concrete
    cases concrete
  · intro y inside none
    dsimp only
    rw [lookup, get]
    by_cases same : y = x
    · subst same
      rw [if_pos rfl, here]
      exact .inr rfl
    · rw [if_neg same, if_neg same]
      exact .inl ⟨none, rfl⟩

/-- A later instance in another register gets an operand of its own. -/
theorem attach_split (h : Shape E s) {x : OperandRef} {key : Operand} (reg : Nat)
    (found : s.keys.lookup x = some key) (bounds : 1 ≤ reg ∧ reg ≤ E.context.registers) :
    let s' := (s.physical reg).2
    let s'' := { s' with
      keys := ((s.physical reg).1, key) :: s'.keys
      retarget := (x, (s.physical reg).1) :: s'.retarget }
    Shape E s'' ∧ Evolves s s'' := by
  have grown := h.addOperand (.reg (.physical reg))
  have added := evolves_addOperand s (.reg (.physical reg))
  have fresh : ∀ {y}, y < s.pool.operands.size → y ≠ s.pool.operands.size := fun less => Nat.ne_of_lt less
  have keyed : ∀ {y k}, s.keys.lookup y = some k →
      List.lookup y ((s.pool.operands.size, key) :: s.keys) = some k := by
    intro y k there
    rw [List.lookup_cons, beq_false_of_ne (fresh (h.keyed there).2.1)]
    exact there
  refine ⟨⟨h.residents, h.isKey, h.dirty, h.slots, h.frame, grown.poolSize, ?_, ?_, ?_, ?_⟩,
    ⟨added.size, keyed, added.settled, ?_, added.slots, added.out, .inl⟩⟩
  · intro y k there
    dsimp only [State.physical] at there ⊢
    rw [List.lookup_cons] at there
    split at there
    · rename_i same
      cases there
      rw [eq_of_beq same]
      refine ⟨(h.keyed found).1, ?_, reg, Pool.get_add_self _ _, bounds⟩
      simp [State.addOperand, Pool.add]
    · exact grown.keyed there
  · intro y inside none
    dsimp only [State.physical] at none
    rw [List.lookup_cons] at none
    split at none
    · cases none
    · exact grown.unkeyed inside none
  · intro y k inside there
    dsimp only [State.physical] at there
    rw [List.lookup_cons] at there
    split at there
    · rename_i same
      exact absurd (eq_of_beq same) (fresh (Nat.lt_of_lt_of_le inside h.poolSize))
    · exact h.original inside there
  · intro y z there
    dsimp only [State.physical] at there ⊢
    rw [List.lookup_cons] at there
    split at there
    · rename_i same
      cases there
      refine ⟨key, keyed (eq_of_beq same ▸ found), ?_⟩
      exact List.lookup_cons_self
    · obtain ⟨k, source, target⟩ := h.retarget there
      exact ⟨k, keyed source, keyed target⟩
  · intro y inside none
    refine .inl ⟨?_, Pool.get_add_of_lt _ _ inside⟩
    show List.lookup y ((s.pool.operands.size, key) :: s.keys) = Option.none
    rw [List.lookup_cons, beq_false_of_ne (fresh inside)]
    exact none

/-- After `attach` the operand to use names the register. -/
theorem attach_spec (h : Shape E s) {x : OperandRef} {key : Operand} {reg : Nat}
    (stands : Stands s x key) (abstract : key.isAbstract = true)
    (bounds : 1 ≤ reg ∧ reg ≤ E.context.registers) :
    Does E L s (s.attach x key reg).2 ∧ Settled (s.attach x key reg).2 (s.attach x key reg).1 ∧
      (s.attach x key reg).2.pool.get (s.attach x key reg).1 = .reg (.physical reg) := by
  have store := sameStore_attach s x key reg
  suffices Shape E (s.attach x key reg).2 ∧ Evolves s (s.attach x key reg).2 ∧
      (s.attach x key reg).1 < (s.attach x key reg).2.pool.operands.size ∧
      (s.attach x key reg).2.pool.get (s.attach x key reg).1 = .reg (.physical reg) by
    obtain ⟨shape, evolves, inside, get⟩ := this
    exact ⟨store.does shape evolves, ⟨inside, by rw [get]; rfl⟩, get⟩
  have stands := h.current stands
  simp only [State.attach]
  split
  · rename_i first
    obtain ⟨shape, evolves⟩ := attach_first h stands abstract first bounds
    refine ⟨shape, evolves, ?_, ?_⟩
    · simpa [Pool.set] using stands.1
    · exact (Pool.get_set _ _ _ stands.1).trans (if_pos rfl)
  · rename_i later
    split
    · rename_i same
      exact ⟨h, .refl s, stands.1, same⟩
    · have found : s.keys.lookup (s.current x) = some key := by
        rcases stands.2 with found | ⟨-, here⟩
        · exact found
        · rw [here] at later
          exact absurd abstract later
      obtain ⟨shape, evolves⟩ := attach_split h reg found bounds
      refine ⟨shape, evolves, ?_, Pool.get_add_self _ _⟩
      simp [State.physical, State.addOperand, Pool.add]

/-! ## Loading a value -/

/-- While an instruction's operands are brought in, registers in use keep what they hold, and no word of
memory comes into a register. -/
structure Keeps (s s' : State) : Prop where
  kept : ∀ {key reg}, s.register? key = some reg → s.pinned.contains reg = true →
    s'.register? key = some reg
  pinned : ∀ {reg}, s.pinned.contains reg = true → s'.pinned.contains reg = true
  memory : ∀ {key reg}, key.isMemory = true → s'.register? key = some reg →
    s.register? key = some reg

theorem Keeps.refl (s : State) : Keeps s s := ⟨fun held _ => held, fun used => used, fun _ held => held⟩

theorem Keeps.trans {s'' : State} (h : Keeps s s') (h' : Keeps s' s'') : Keeps s s'' where
  kept held used := h'.kept (h.kept held used) (h.pinned used)
  pinned used := h'.pinned (h.pinned used)
  memory memory held := h.memory memory (h'.memory memory held)

theorem SameStore.keeps (h : SameStore s s') : Keeps s s' where
  kept held _ := (h.register? _).trans held
  pinned used := by rw [h.pinned]; exact used
  memory _ held := (h.register? _).symm.trans held

theorem Covered.bind {L' : Operand → Prop} (h : Covered L s) {key : Operand} (reg : Nat)
    (others : ∀ o, L' o → o ≠ key → L o) : Covered L' (s.bind key reg) := by
  intro other abstract wanted absent
  rw [register?_bind] at absent
  split at absent
  · cases absent
  · rename_i apart
    exact h abstract (others _ wanted apart) absent

/-- A resident can be bound to a register that holds its value, and then counts. -/
theorem Holds.bind {L' : Operand → Prop} (h : Holds E L s u t) {key : Operand} {reg : Nat}
    (others : ∀ o, L' o → o ≠ key → L o)
    (right : key.isMemory = true ∨ L' key → t.general reg = value u key) :
    Holds E L' (s.bind key reg) u t where
  result := h.result
  stackPointer := h.stackPointer
  basePointer := h.basePointer
  flags := h.flags
  pushed := h.pushed
  held found wanted := by
    rw [register?_bind] at found
    split at found
    · rename_i same
      cases found
      rw [same] at wanted ⊢
      exact right wanted
    · rename_i other
      exact h.held found (wanted.imp_right fun wanted => others _ wanted other)
  saved abstract wanted absent := by
    rw [register?_bind] at absent
    split at absent
    · cases absent
    · rename_i other
      exact h.saved abstract (others _ wanted other) absent
  memory := h.memory
  dirtyValid := h.dirtyValid

/-- A register that holds nothing can be overwritten. -/
theorem Holds.setGeneral (h : Holds E L s u t) {reg : Nat} (positive : 1 ≤ reg)
    (empty : ∀ key, s.register? key ≠ some reg) (w : Word) :
    Holds E L s u { t with general := put t.general reg w } where
  result := (put_of_ne _ _ (by omega)).trans h.result
  stackPointer := h.stackPointer
  basePointer := h.basePointer
  flags := h.flags
  pushed := h.pushed
  held {key other} found wanted := by
    have apart : other ≠ reg := by
      rintro rfl
      exact empty key found
    exact (put_of_ne _ _ apart).trans (h.held found wanted)
  saved := h.saved
  memory := h.memory
  dirtyValid := h.dirtyValid

theorem isKey_of_abstract (base : Nat) {key : Operand} (abstract : key.isAbstract = true) :
    IsKey base key := by
  match key, abstract with
  | .reg (.abstract k), _ => exact .inl ⟨k, rfl⟩

/-- A live value is in a register after `load`. -/
theorem load_spec {index : Nat}
    (read : ∀ key, L key → (E.context.liveness.nextRead key index).isSome = true)
    (h : Shape E s) (covered : Covered L s) (spare : Spare E.context s) {key : Operand}
    (abstract : key.isAbstract = true) (wanted : L key) :
    ∃ reg s', s.load E.context index key = .ok (reg, s') ∧ Does E L s s' ∧ Keeps s s' ∧
      s'.pinned = s.pinned ∧ s'.register? key = some reg := by
  unfold State.load
  cases held : s.register? key with
  | some reg => exact ⟨reg, s, rfl, .refl h, .refl s, rfl, held⟩
  | none =>
    obtain ⟨off, slot⟩ := covered abstract wanted held
    obtain ⟨reg, s₁, acquired, does, facts⟩ := acquire_spec (L := L) read h spare
    let s₂ := s₁.emitMove (.reg (.physical reg)) (.frameSlot off)
    let s₃ : State := { s₂ with journal := s₂.journal.recordReload }
    have isKey := isKey_of_abstract E.base abstract
    have slot₁ := does.shape.slots.lookup_suffix does.evolves.slots slot
    have absent : s₁.register? key = none := by
      cases there : s₁.register? key with
      | none => rfl
      | some r => rw [facts.still there] at held; cases held
    have loads : Does E L s₁ (s₃.bind key reg) := by
      refine ⟨((does.shape.emitMove _ _).withJournal _).bind isKey facts.bounds,
        (evolves_emitMove _ ⟨rfl, rfl⟩).trans (evolves_of_eq rfl rfl rfl rfl), fun mem => mem,
        fun covered => Covered.bind (s := s₃) (covered.of_eq rfl rfl) reg fun _ wanted _ => wanted,
        ?_⟩
      intro u t fits room holds
      have fits : E.base + s₁.slots.length ≤ E.cap := fits
      have few := E.few
      have most := facts.bounds.2
      obtain ⟨j, above, below, place⟩ := does.shape.slot_place fits slot₁
      obtain ⟨off', found, saved⟩ := holds.saved abstract wanted absent
      obtain rfl : off = off' := Option.some.inj (slot₁.symm.trans found)
      refine ⟨{ t with general := put t.general reg (t.memory (u.basePointer + off)) }, ?_, ?_⟩
      · exact emits_emitMove (E := E) s₁ ⟨rfl, rfl⟩
          (read_frame holds.basePointer (by rw [place]; exact room.slots above below))
          (write_general (by omega) _)
      · refine Holds.bind ?_ (fun _ wanted _ => wanted) fun _ => (put_self _ _ _).trans saved
        exact (holds.setGeneral facts.bounds.1 facts.empty _).of_eq (r := s₃) rfl rfl rfl
    refine ⟨reg, s₃.bind key reg, ?_, does.trans loads, ⟨?_, ?_, ?_⟩, facts.pinned, ?_⟩
    · simp [slot, acquired, bind, Except.bind, pure, Except.pure, s₃, s₂]
    · intro other r there used
      rw [register?_bind, if_neg]
      · exact facts.kept there used
      · rintro rfl
        rw [there] at held
        cases held
    · intro r used
      exact facts.pinned ▸ used
    · intro other r memory there
      rw [register?_bind, if_neg] at there
      · exact facts.still there
      · rintro rfl
        rcases isKey.mem_or_abstract with ⟨-, concrete⟩ | ⟨concrete, -⟩
        · rw [abstract] at concrete
          cases concrete
        · rw [memory] at concrete
          cases concrete
    · rw [register?_bind, if_pos rfl]

/-! ## Operands in their places -/

theorem does_pin (h : Shape E s) (reg : Nat) : Does E L s (s.pin reg) :=
  ⟨h.pin reg, evolves_of_eq rfl rfl rfl rfl, fun mem => mem, fun covered => covered.of_eq rfl rfl,
    fun _ _ holds => ⟨_, .nothing rfl, holds.of_eq rfl rfl rfl⟩⟩

theorem contains_pin (s : State) {reg : Nat} (few : reg ≤ RegisterSet.largest) (other : Nat) :
    (s.pin reg).pinned.contains other = true ↔ s.pinned.contains other = true ∨ other = reg := by
  simp only [State.pin, RegisterSet.contains_insert, Bool.or_eq_true, Bool.and_eq_true, beq_iff_eq,
    decide_eq_true_eq]
  constructor
  · rintro (before | ⟨same, -⟩)
    · exact .inl before
    · exact .inr same
  · rintro (before | rfl)
    · exact .inl before
    · exact .inr ⟨rfl, few⟩

theorem keeps_pin (s : State) {reg : Nat} (few : reg ≤ RegisterSet.largest) : Keeps s (s.pin reg) :=
  ⟨fun held _ => held, fun used => (contains_pin s few _).mpr (.inl used), fun _ held => held⟩

/-- `x` is where the operand `o` is read: in a register that the instruction uses, or as it is. -/
def Ready (s : State) (x : OperandRef) (o : Operand) : Prop :=
  Settled s x ∧
    ((∃ reg, s.pool.get x = .reg (.physical reg) ∧ s.register? o = some reg ∧
        s.pinned.contains reg = true) ∨
      s.pool.get x = o ∧ o.isAbstract = false ∧ (o.isMemory = true → s.register? o = none))

theorem Ready.keep {x : OperandRef} {o : Operand} (h : Ready s x o) (evolves : Evolves s s')
    (keeps : Keeps s s') : Ready s' x o := by
  obtain ⟨settled, place⟩ := h
  obtain ⟨settled', same⟩ := evolves.settledAt settled
  refine ⟨settled', ?_⟩
  rw [same]
  rcases place with ⟨reg, get, held, used⟩ | ⟨get, concrete, absent⟩
  · exact .inl ⟨reg, get, keeps.kept held used, keeps.pinned used⟩
  · refine .inr ⟨get, concrete, fun memory => ?_⟩
    cases there : s'.register? o with
    | none => rfl
    | some reg =>
      have := absent memory
      rw [keeps.memory memory there] at this
      cases this

/-- An abstract register is brought into a physical one and named there. -/
theorem resolve_spec {index : Nat}
    (read : ∀ key, L key → (E.context.liveness.nextRead key index).isSome = true)
    (h : Shape E s) (covered : Covered L s) (spare : Spare E.context s) {x : OperandRef} {key : Operand}
    (stands : Stands s x key) (abstract : key.isAbstract = true) (wanted : L key) :
    ∃ reg x' s', s.resolve E.context index x key = .ok (reg, x', s') ∧ Does E L s s' ∧
      Keeps s s' ∧ Settled s' x' ∧ s'.pool.get x' = .reg (.physical reg) ∧
      s'.register? key = some reg ∧
      (∀ r, s'.pinned.contains r = true ↔ s.pinned.contains r = true ∨ r = reg) := by
  obtain ⟨reg, s₁, loaded, does, keeps, pinned, held⟩ := load_spec read h covered spare abstract wanted
  have bounds := does.shape.residents.bounds held
  have few : reg ≤ RegisterSet.largest := Nat.le_trans bounds.2 E.few_largest
  have pins := does_pin (L := L) does.shape reg
  obtain ⟨attaches, settled, get⟩ :=
    attach_spec (L := L) pins.shape (pins.evolves.stands (does.evolves.stands stands)) abstract bounds
  have store := sameStore_attach (s₁.pin reg) x key reg
  refine ⟨reg, ((s₁.pin reg).attach x key reg).1, ((s₁.pin reg).attach x key reg).2, ?_,
    does.trans (pins.trans attaches), keeps.trans ((keeps_pin s₁ few).trans store.keeps), settled, get,
    ?_, fun r => ?_⟩
  · simp [State.resolve, loaded, bind, Except.bind, pure, Except.pure]
  · rw [store.register?]
    exact held
  · rw [store.pinned, contains_pin s₁ few, pinned]

/-- An operand is brought to where it can be read. -/
theorem use_spec {index : Nat}
    (read : ∀ key, L key → (E.context.liveness.nextRead key index).isSome = true)
    (h : Shape E s) (covered : Covered L s) (spare : Spare E.context s) {x : OperandRef} {o : Operand}
    (stands : Stands s x o) (wanted : o.isAbstract = true → L o) :
    ∃ x' s', s.use E.context index x = .ok (x', s') ∧ Does E L s s' ∧ Keeps s s' ∧ Ready s' x' o ∧
      ∃ reg, ∀ r, s'.pinned.contains r = true → s.pinned.contains r = true ∨ r = reg := by
  unfold State.use
  rw [h.role stands, roleOf]
  have concrete : o.isAbstract = false → s.keys.lookup x = none ∧ s.pool.get x = o := by
    intro concrete
    rcases stands.2 with found | here
    · rw [(h.keyed found).1] at concrete
      cases concrete
    · exact here
  by_cases abstract : o.isAbstract = true
  · obtain ⟨reg, x', s', resolved, does, keeps, settled, get, held, pinned⟩ :=
      resolve_spec read h covered spare stands abstract (wanted abstract)
    rw [if_pos abstract]
    refine ⟨x', s', by simp [resolved, bind, Except.bind, pure, Except.pure], does, keeps,
      ⟨settled, .inl ⟨reg, get, held, (pinned reg).mpr (.inr rfl)⟩⟩, reg, fun r => (pinned r).mp⟩
  · rw [if_neg abstract]
    rw [Bool.not_eq_true] at abstract
    obtain ⟨-, get⟩ := concrete abstract
    have settled : Settled s x := ⟨stands.1, by rw [get]; exact abstract⟩
    by_cases memory : o.isMemory = true
    · rw [if_pos memory]
      dsimp only
      cases held : s.register? o with
      | none =>
        exact ⟨x, s, rfl, .refl h, .refl s, ⟨settled, .inr ⟨get, abstract, fun _ => held⟩⟩, 0,
          fun r used => .inl used⟩
      | some reg =>
        have few : reg ≤ RegisterSet.largest :=
          Nat.le_trans (h.residents.bounds held).2 E.few_largest
        have pins := does_pin (L := L) h reg
        have store : SameStore (s.pin reg) ((s.pin reg).physical reg).2 := ⟨rfl, rfl, rfl, rfl, rfl⟩
        have added := store.does (L := L) (pins.shape.addOperand _) (evolves_addOperand _ _)
        refine ⟨((s.pin reg).physical reg).1, ((s.pin reg).physical reg).2, rfl, pins.trans added,
          (keeps_pin s few).trans store.keeps, ⟨settled_addOperand _ rfl, .inl ⟨reg, ?_, held, ?_⟩⟩, reg,
          fun r => (contains_pin s few r).mp⟩
        · exact Pool.get_add_self _ _
        · exact (contains_pin s few reg).mpr (.inr rfl)
    · rw [if_neg memory]
      exact ⟨x, s, rfl, .refl h, .refl s, ⟨settled, .inr ⟨get, abstract, fun m => absurd m memory⟩⟩, 0,
        fun r used => .inl used⟩

/-- Reading a resident in the original run gives its value. -/
theorem value_of_read {o : Operand} (isKey : IsKey E.base o) {w : Word}
    (read : u.read E.original o = .ok w) : value u o = w := by
  rcases isKey with ⟨k, rfl⟩ | ⟨off, rfl, -⟩
  · simpa [View.read, View.register, Setting.original, value] using read
  · simp only [View.read, View.address, View.register, bind, Except.bind] at read
    split at read
    · cases read
    · rename_i a found
      split at found
      · cases found
        exact Except.ok.inj read
      · cases found

/-- A ready operand reads as the operand it stands for. -/
theorem Ready.read (shape : Shape E s) (room : Room E u.basePointer) {x : OperandRef} {o : Operand}
    (h : Ready s x o) (holds : Holds E L s u t) (allowed : Allowed E.base o)
    (wanted : o.isAbstract = true → L o) {w : Word}
    (read : u.read E.original o = .ok w) :
    t.read E.model (s.pool.get x) = .ok w := by
  obtain ⟨-, ⟨reg, get, held, -⟩ | ⟨get, concrete, absent⟩⟩ := h
  · have isKey := shape.isKey held
    rw [get, read_general (shape.reg_le held).2, holds.held held, value_of_read isKey read]
    rcases isKey.mem_or_abstract with ⟨memory, -⟩ | ⟨-, abstract⟩
    · exact .inl memory
    · exact .inr (wanted abstract)
  · rw [get]
    match o, allowed, concrete, absent with
    | .mem b off, ⟨base, inFrame⟩, _, absent =>
      subst base
      have unbound := absent rfl
      have valid : E.valid (u.basePointer + off) = true := by
        cases valid : E.valid (u.basePointer + off) with
        | true => rfl
        | false =>
          simp [View.read, View.address, View.register, bind, Except.bind, Setting.original, valid] at read
      rw [read_frame (M := E.original) rfl valid] at read
      rw [read_frame holds.basePointer valid, ← read]
      congr 1
      refine holds.memory (room.frame inFrame valid) ?_ ?_
      · exact fun spill => ne_spill inFrame spill rfl
      · intro other dirty same
        rw [← Word.add_left_cancel same] at dirty
        obtain ⟨-, reg, held⟩ := shape.dirty dirty
        rw [unbound] at held
        cases held
    | .reg (.physical r), allowed, _, _ =>
      obtain rfl : r = 0 := allowed
      simp only [View.read, View.register] at read ⊢
      rw [holds.result]
      exact read
    | .reg .stackPointer, _, _, _ =>
      simp only [View.read, View.register] at read ⊢
      rw [holds.stackPointer]
      exact read
    | .reg .basePointer, _, _, _ =>
      simp only [View.read, View.register] at read ⊢
      rw [holds.basePointer]
      exact read
    | .imm _, _, _, _ => exact read
    | .label _, _, _, _ => exact read

end Codegen86.Allocation
