import Codegen86.Proofs.Allocation.Moves
/-!
# Storing back, spilling, evicting

Emptying a register: a dirty word is stored to its place, a live value to the slot of its register, and
then nothing is lost when the binding is dropped.  A register that was emptied is free.
-/

set_option autoImplicit false

namespace Codegen86.Allocation

open Target Symbolic

variable {E : Setting} {L : Operand → Prop} {s : State} {u t : View}

theorem IsKey.mem_or_abstract {base : Nat} {key : Operand} (h : IsKey base key) :
    key.isMemory = true ∧ key.isAbstract = false ∨
      key.isMemory = false ∧ key.isAbstract = true := by
  rcases h with ⟨k, rfl⟩ | ⟨off, rfl, -⟩
  · exact .inr ⟨rfl, rfl⟩
  · exact .inl ⟨rfl, rfl⟩

theorem IsKey.eq_mem {base : Nat} {key : Operand} (h : IsKey base key) (memory : key.isMemory = true) :
    ∃ off, key = .mem .basePointer off ∧ -(base : Int) ≤ off.toInt := by
  rcases h with ⟨k, rfl⟩ | found
  · cases memory
  · exact found

/-- Dirty words are words of the frame. -/
theorem Shape.dirty_isKey (h : Shape E s) {key : Operand} (dirty : key ∈ s.dirty) :
    IsKey E.base key := by
  obtain ⟨-, reg, held⟩ := h.dirty dirty
  exact h.isKey held

/-- A slot is one of the words set aside for spilling. -/
theorem Shape.slot_place (h : Shape E s) (fits : E.base + s.slots.length ≤ E.cap) {key : Operand}
    {off : Word} (found : s.slots.lookup key = some off) :
    ∃ j, E.base < j ∧ j ≤ E.cap ∧ off = -Word.ofNat j := by
  have := E.small
  obtain ⟨j, above, below, eq⟩ := h.slots.place (by omega) found
  exact ⟨j, above, by omega, eq⟩

theorem ne_spill {bp off a : Word} (above : -(E.base : Int) ≤ off.toInt) (spill : IsSpill E bp a) :
    bp + off ≠ a := by
  obtain ⟨j, lower, upper, rfl⟩ := spill
  have := E.small
  exact Word.ne_below (by omega) above lower

/-! ## Changes of the residents -/

theorem Shape.unbind (h : Shape E s) {key : Operand} (clean : key ∉ s.dirty) :
    Shape E (s.unbind key) where
  residents := h.residents.unbind E.few_largest key
  isKey held := by
    rw [State.register?, State.unbind, Residents.register?_unbind] at held
    split at held
    · cases held
    · exact h.isKey held
  dirty mem := by
    obtain ⟨memory, reg, held⟩ := h.dirty mem
    refine ⟨memory, reg, ?_⟩
    rw [State.register?, State.unbind, Residents.register?_unbind, if_neg]
    · exact held
    · rintro rfl
      exact clean mem
  slots := h.slots
  frame := h.frame
  poolSize := h.poolSize
  keyed := h.keyed
  unkeyed := h.unkeyed
  original := h.original
  retarget := h.retarget

theorem Shape.bind (h : Shape E s) {key : Operand} {reg : Nat} (isKey : IsKey E.base key)
    (bounds : 1 ≤ reg ∧ reg ≤ E.context.registers) : Shape E (s.bind key reg) where
  residents := h.residents.bind E.few_largest key bounds
  isKey held := by
    rw [State.register?, State.bind, Residents.register?_bind] at held
    split at held
    · rename_i same
      rw [same]
      exact isKey
    · exact h.isKey held
  dirty mem := by
    obtain ⟨memory, old, held⟩ := h.dirty mem
    refine ⟨memory, ?_⟩
    rw [State.register?, State.bind, Residents.register?_bind]
    split
    · exact ⟨reg, rfl⟩
    · exact ⟨old, held⟩
  slots := h.slots
  frame := h.frame
  poolSize := h.poolSize
  keyed := h.keyed
  unkeyed := h.unkeyed
  original := h.original
  retarget := h.retarget

theorem Shape.markClean (h : Shape E s) (key : Operand) : Shape E (s.markClean key) :=
  ⟨h.residents, h.isKey, fun mem => h.dirty (List.mem_filter.mp mem).1, h.slots, h.frame, h.poolSize,
    h.keyed, h.unkeyed, h.original, h.retarget⟩

theorem Shape.withJournal (h : Shape E s) (journal : Journal) : Shape E { s with journal } :=
  ⟨h.residents, h.isKey, h.dirty, h.slots, h.frame, h.poolSize, h.keyed, h.unkeyed, h.original,
    h.retarget⟩

theorem Shape.pin (h : Shape E s) (reg : Nat) : Shape E (s.pin reg) :=
  ⟨h.residents, h.isKey, h.dirty, h.slots, h.frame, h.poolSize, h.keyed, h.unkeyed, h.original,
    h.retarget⟩

theorem register?_unbind (s : State) (key other : Operand) :
    (s.unbind key).register? other = if other = key then none else s.register? other :=
  Residents.register?_unbind _ _ _

theorem register?_bind (s : State) (key other : Operand) (reg : Nat) :
    (s.bind key reg).register? other = if other = key then some reg else s.register? other :=
  Residents.register?_bind _ _ _ _

/-- States that differ only in what says nothing about operands and slots. -/
theorem evolves_of_eq {s r : State} (pool : r.pool = s.pool) (keys : r.keys = s.keys)
    (slots : r.slots = s.slots) (out : r.out = s.out) : Evolves s r where
  size := Nat.le_of_eq (by rw [pool])
  keyed found := by rw [keys]; exact found
  settled _ _ := by rw [pool]
  unkeyed _ absent := .inl ⟨by rw [keys]; exact absent, by rw [pool]⟩
  slots := by simp only [slots, List.suffix_refl]
  out := by simp only [out, List.prefix_refl]
  given mem := .inl (out ▸ mem)

/-- A binding can be dropped once its value is safe elsewhere. -/
theorem Holds.unbind (h : Holds E L s u t) {key : Operand}
    (safe : key.isAbstract = true → L key →
      ∃ off, s.slots.lookup key = some off ∧ t.memory (u.basePointer + off) = value u key) :
    Holds E L (s.unbind key) u t where
  result := h.result
  stackPointer := h.stackPointer
  basePointer := h.basePointer
  flags := h.flags
  pushed := h.pushed
  held found wanted := by
    rw [register?_unbind] at found
    split at found
    · cases found
    · exact h.held found wanted
  saved := by
    intro other abstract wanted absent
    rw [register?_unbind] at absent
    split at absent
    · rename_i same
      subst same
      exact safe abstract wanted
    · exact h.saved abstract wanted absent
  memory := h.memory
  dirtyValid := h.dirtyValid

/-! ## Storing dirty words -/

/-- A dirty word is stored, and is dirty no more. -/
theorem Holds.writeBack (shape : Shape E s) (fits : E.base + s.slots.length ≤ E.cap)
    (h : Holds E L s u t) {off : Word} {reg : Nat} (dirty : .mem .basePointer off ∈ s.dirty)
    (held : s.register? (.mem .basePointer off) = some reg) :
    Holds E L (s.markClean (.mem .basePointer off)) u
      { t with memory := put t.memory (u.basePointer + off) (t.general reg) } where
  result := h.result
  stackPointer := h.stackPointer
  basePointer := h.basePointer
  flags := h.flags
  pushed := h.pushed
  held := h.held
  saved := by
    intro key abstract wanted absent
    obtain ⟨slot, found, safe⟩ := h.saved abstract wanted absent
    refine ⟨slot, found, ?_⟩
    obtain ⟨j, above, below, rfl⟩ := shape.slot_place fits found
    obtain ⟨off', same, inFrame⟩ := (shape.dirty_isKey dirty).eq_mem rfl
    cases same
    dsimp only
    rw [put_of_ne]
    · exact safe
    · exact (ne_spill inFrame ⟨j, above, below, rfl⟩).symm
  memory := by
    intro a tracked outside clean
    dsimp only
    by_cases here : a = u.basePointer + off
    · rw [here, put_self, h.held held (.inl rfl)]
      rfl
    · rw [put_of_ne _ _ here]
      refine h.memory tracked outside fun off' dirty' => ?_
      by_cases same : off' = off
      · rw [same]
        exact here
      · exact clean off' (List.mem_filter.mpr ⟨dirty', by simpa using same⟩)
  dirtyValid mem := h.dirtyValid (List.mem_filter.mp mem).1

theorem Holds.of_eq {s r : State} (h : Holds E L s u t) (residents : r.residents = s.residents)
    (dirty : r.dirty = s.dirty) (slots : r.slots = s.slots) : Holds E L r u t := by
  have same : ∀ key, r.register? key = s.register? key := fun key => by
    rw [State.register?, residents, State.register?]
  refine ⟨h.result, h.stackPointer, h.basePointer, h.flags, h.pushed, ?_, ?_, ?_, ?_⟩
  · intro key reg found wanted
    exact h.held (same key ▸ found) wanted
  · intro key abstract wanted absent
    rw [slots]
    exact h.saved abstract wanted (same key ▸ absent)
  · rw [dirty]
    exact h.memory
  · rw [dirty]
    exact h.dirtyValid

theorem residents_attach (s : State) (x : OperandRef) (key : Operand) (r : Nat) :
    (s.attach x key r).2.residents = s.residents := by
  unfold State.attach
  dsimp only
  split
  · rfl
  · split <;> rfl

/-- What `clean` leaves alone. -/
theorem clean_residents (s : State) (key : Operand) (reg : Nat) :
    (s.clean key reg).residents = s.residents ∧ (s.clean key reg).slots = s.slots ∧
      (s.clean key reg).pinned = s.pinned := by
  unfold State.clean
  split <;> exact ⟨rfl, rfl, rfl⟩

theorem not_dirty_clean (s : State) (key : Operand) (reg : Nat) : key ∉ (s.clean key reg).dirty := by
  unfold State.clean
  split
  · exact fun mem => by simpa using (List.mem_filter.mp mem).2
  · rename_i clean
    simpa [State.isDirty] using clean

theorem dirty_clean (s : State) (key : Operand) (reg : Nat) :
    ∀ {k}, k ∈ (s.clean key reg).dirty → k ∈ s.dirty := by
  intro k mem
  unfold State.clean at mem
  split at mem
  · exact (List.mem_filter.mp mem).1
  · exact mem

theorem write_frame {M : Model} {bp off : Word} (base : t.basePointer = bp)
    (valid : M.valid (bp + off) = true) (w : Word) :
    t.write M (.mem .basePointer off) w =
      .ok { t with memory := put t.memory (bp + off) w } := by
  subst base
  simp [View.write, View.address, View.register, valid, bind, Except.bind, pure, Except.pure]

theorem read_frame {M : Model} {bp off : Word} (base : t.basePointer = bp)
    (valid : M.valid (bp + off) = true) :
    t.read M (.mem .basePointer off) = .ok (t.memory (bp + off)) := by
  subst base
  simp [View.read, View.address, View.register, valid, bind, Except.bind, pure, Except.pure]

theorem read_general {M : Model} {reg : Nat} (bound : reg ≤ 64) :
    t.read M (.reg (.physical reg)) = .ok (t.general reg) := by
  have : reg < Machine.generalRegisters := by
    unfold Machine.generalRegisters
    omega
  simp [View.read, View.register, this]

theorem write_general {M : Model} {reg : Nat} (bound : reg ≤ 64) (w : Word) :
    t.write M (.reg (.physical reg)) w = .ok { t with general := put t.general reg w } := by
  have : reg < Machine.generalRegisters := by
    unfold Machine.generalRegisters
    omega
  simp [View.write, View.setRegister, this]

theorem Shape.reg_le (h : Shape E s) {key : Operand} {reg : Nat} (held : s.register? key = some reg) :
    1 ≤ reg ∧ reg ≤ 64 := by
  have bounds := h.residents.bounds held
  have := E.few
  exact ⟨bounds.1, by omega⟩

/-- A bound word of memory is stored if it is dirty. -/
theorem does_clean (h : Shape E s) {key : Operand} {reg : Nat}
    (held : s.register? key = some reg) : Does E L s (s.clean key reg) := by
  unfold State.clean
  split
  · rename_i isDirty
    have dirty : key ∈ s.dirty := by simpa [State.isDirty] using isDirty
    obtain ⟨off, rfl, inFrame⟩ := (h.isKey held).eq_mem (h.dirty dirty).1
    have cleaned := evolves_of_eq (s := s) (r := s.markClean (.mem .basePointer off)) rfl rfl rfl rfl
    refine ⟨(h.markClean _).emitMove _ _, cleaned.trans (evolves_emitMove _ ⟨rfl, rfl⟩),
      fun mem => (List.mem_filter.mp mem).1, fun covered => covered.of_eq rfl rfl, ?_⟩
    intro u t fits room holds
    have fits : E.base + s.slots.length ≤ E.cap := fits
    refine ⟨_, ?_, (holds.writeBack h fits dirty held).of_eq rfl rfl rfl⟩
    exact emits_emitMove (s.markClean (.mem .basePointer off)) ⟨rfl, rfl⟩
      (read_general (h.reg_le held).2)
      (write_frame holds.basePointer (holds.dirtyValid dirty) (t.general reg))
  · exact .refl h

/-! ## Spilling -/

/-- The slot of a value: the state it is asked in, the state after, and its place. -/
theorem slot_spec (h : Shape E s) {key : Operand} (abstract : key.isAbstract = true) :
    Shape E (s.slot key).2 ∧ Evolves s (s.slot key).2 ∧
      (s.slot key).2.slots.lookup key = some (s.slot key).1 := by
  unfold State.slot
  split
  · rename_i off found
    exact ⟨h, .refl s, found⟩
  · rename_i absent
    have words : (s.frame.words + 1).toNat = (E.base + s.slots.length + 1) % 2 ^ 32 := by
      rw [UInt32.toNat_add, h.frame]
      simp
    refine ⟨⟨h.residents, h.isKey, h.dirty, ⟨abstract, absent, ?_, h.slots⟩, ?_, h.poolSize,
      h.keyed, h.unkeyed, h.original, h.retarget⟩, ?_, ?_⟩
    · simp only [words]
    · simpa [Frame.reserve, Nat.add_assoc] using words
    · exact ⟨Nat.le_refl _, fun found => found, fun _ _ => rfl, fun _ none => .inl ⟨none, rfl⟩,
        List.suffix_cons _ _, List.prefix_refl _, .inl⟩
    · simp

theorem slot_frame (s : State) (key : Operand) :
    (s.slot key).2.residents = s.residents ∧ (s.slot key).2.dirty = s.dirty ∧
      (s.slot key).2.pinned = s.pinned ∧ (s.slot key).2.out = s.out := by
  unfold State.slot
  split <;> exact ⟨rfl, rfl, rfl, rfl⟩

/-- A live value is stored to its slot. -/
theorem Holds.spill (shape : Shape E s) (h : Holds E L s u t) {key : Operand} {reg : Nat}
    (held : s.register? key = some reg) (abstract : key.isAbstract = true)
    (fits : E.base + (s.slot key).2.slots.length ≤ E.cap) :
    Holds E L (s.slot key).2 u
        { t with memory := put t.memory (u.basePointer + (s.slot key).1) (t.general reg) } ∧
      (L key → put t.memory (u.basePointer + (s.slot key).1) (t.general reg)
        (u.basePointer + (s.slot key).1) = value u key) := by
  obtain ⟨shape', evolves, found⟩ := slot_spec shape abstract
  obtain ⟨residents, dirty, -, -⟩ := slot_frame s key
  have same : ∀ k, (s.slot key).2.register? k = s.register? k := fun k => by
    rw [State.register?, residents, State.register?]
  have small := E.small
  obtain ⟨j, above, below, place⟩ := shape'.slot_place fits found
  refine ⟨⟨h.result, h.stackPointer, h.basePointer, h.flags, h.pushed, ?_, ?_, ?_, ?_⟩, ?_⟩
  · intro k r held' wanted
    exact h.held (same k ▸ held') wanted
  · intro k abstract' wanted absent
    obtain ⟨off, old, safe⟩ := h.saved abstract' wanted (same k ▸ absent)
    have kept := shape'.slots.lookup_suffix evolves.slots old
    refine ⟨off, kept, ?_⟩
    dsimp only
    rw [put_of_ne]
    · exact safe
    · intro clash
      have := shape'.slots.inj (by omega) kept (Word.add_left_cancel clash ▸ found)
      subst this
      rw [same, held] at absent
      cases absent
  · intro a tracked outside clean
    dsimp only
    rw [put_of_ne]
    · exact h.memory tracked outside (by rwa [dirty] at clean)
    · rintro rfl
      exact outside ⟨j, above, below, by rw [place]⟩
  · intro off mem
    exact h.dirtyValid (dirty ▸ mem)
  · intro wanted
    rw [put_self, h.held held (.inr wanted)]

/-- Spilling a value takes it out of its register. -/
theorem does_spill (h : Shape E s) {key : Operand} {reg : Nat} (held : s.register? key = some reg)
    (abstract : key.isAbstract = true) : Does E L s ((s.spill key reg).unbind key) := by
  obtain ⟨shape', evolves, found⟩ := slot_spec h abstract
  obtain ⟨residents, dirty, -, out⟩ := slot_frame s key
  have moved : Shape E (s.spill key reg) := (shape'.emitMove _ _).withJournal _
  have clean : key ∉ (s.spill key reg).dirty := by
    intro mem
    have := (h.dirty (dirty ▸ mem)).1
    cases key <;> simp_all [Operand.isAbstract, Operand.isMemory]
  refine ⟨moved.unbind clean,
    evolves.trans ((evolves_emitMove _ ⟨rfl, rfl⟩).trans (evolves_of_eq rfl rfl rfl rfl)),
    fun mem => dirty ▸ mem, ?_, ?_⟩
  · intro covered other abstract' wanted absent
    rw [register?_unbind] at absent
    split at absent
    · rename_i same
      subst same
      exact ⟨_, found⟩
    · rw [State.register?, show (s.spill key reg).residents = s.residents from residents] at absent
      obtain ⟨off, old⟩ := covered abstract' wanted absent
      exact ⟨off, shape'.slots.lookup_suffix evolves.slots old⟩
  intro u t fits room holds
  have fits : E.base + (s.slot key).2.slots.length ≤ E.cap := fits
  obtain ⟨holds', safe⟩ := holds.spill h held abstract fits
  obtain ⟨j, above, below, place⟩ := shape'.slot_place fits found
  have stored := holds'.of_eq (r := s.spill key reg) rfl rfl rfl
  refine ⟨_, ?_, stored.unbind fun _ wanted => ⟨_, found, safe wanted⟩⟩
  have emits := emits_emitMove (E := E) (s.slot key).2 (o := .frameSlot (s.slot key).1) ⟨rfl, rfl⟩
    (read_general (h.reg_le held).2)
    (write_frame holds.basePointer (by rw [place]; exact room.slots above below) (t.general reg))
  obtain ⟨code, given, clean, run⟩ := emits
  exact ⟨code, by rw [← out]; exact given, clean, run⟩

/-! ## Emptying registers -/

/-- From `s` to `s'` the bindings of `keys` are dropped and the others stay. -/
structure Clears (keys : List Operand) (s s' : State) : Prop where
  registers : ∀ key, s'.register? key = if key ∈ keys then none else s.register? key
  pinned : s'.pinned = s.pinned
  dirty : ∀ {key}, key ∈ s'.dirty → key ∈ s.dirty

theorem Clears.refl (s : State) : Clears [] s s := ⟨fun _ => by simp, rfl, fun mem => mem⟩

theorem Clears.trans {keys more : List Operand} {s' s'' : State} (h : Clears keys s s')
    (h' : Clears more s' s'') : Clears (keys ++ more) s s'' where
  registers key := by
    rw [h'.registers, h.registers]
    by_cases first : key ∈ keys <;> by_cases second : key ∈ more <;> simp [first, second]
  pinned := h'.pinned.trans h.pinned
  dirty mem := h.dirty (h'.dirty mem)

theorem clears_unbind (s : State) (key : Operand) : Clears [key] s (s.unbind key) where
  registers other := by simp [register?_unbind]
  pinned := rfl
  dirty mem := mem

/-- An operation on one resident after another. -/
theorem does_foldl {f : State → Operand → State} {P : Option Nat → Prop} (drops : Operand → Bool)
    (step : ∀ {s : State} {key : Operand}, Shape E s → P (s.register? key) →
      Does E L s (f s key) ∧ Clears ([key].filter drops) s (f s key))
    {keys : List Operand} (nodup : keys.Nodup) (h : Shape E s)
    (there : ∀ key ∈ keys, P (s.register? key)) :
    Does E L s (keys.foldl f s) ∧ Clears (keys.filter drops) s (keys.foldl f s) := by
  induction keys generalizing s with
  | nil => exact ⟨.refl h, .refl s⟩
  | cons key rest ih =>
    obtain ⟨fresh, nodup⟩ := List.nodup_cons.mp nodup
    obtain ⟨does, clears⟩ := step h (there key List.mem_cons_self)
    have there' : ∀ other ∈ rest, P ((f s key).register? other) := by
      intro other mem
      rw [clears.registers, if_neg]
      · exact there other (List.mem_cons_of_mem _ mem)
      · intro mem'
        have := List.mem_singleton.mp (List.mem_filter.mp mem').1
        exact fresh (this ▸ mem)
    obtain ⟨does', clears'⟩ := ih nodup does.shape there'
    have split : (key :: rest).filter drops = [key].filter drops ++ rest.filter drops := by
      rw [← List.filter_append, List.singleton_append]
    rw [split]
    exact ⟨does.trans does', clears.trans clears'⟩

theorem nodup_sorted {keys : List Operand} (nodup : keys.Nodup) : (Residents.sorted keys).Nodup :=
  (List.mergeSort_perm keys _).nodup_iff.mpr nodup

theorem Shape.nodup_all (h : Shape E s) : s.residents.all.Nodup := nodup_sorted h.residents.nodup

theorem Residents.Consistent.nodup_of {n : Nat} {residents : Residents} (h : residents.Consistent n) (reg : Nat) :
    (residents.of reg).Nodup :=
  nodup_sorted (h.nodup.sublist (List.filter_sublist.map _))

theorem Covered.unbind (h : Covered L s) {key : Operand}
    (dead : key.isAbstract = true → ¬ L key) : Covered L (s.unbind key) := by
  intro other abstract wanted absent
  rw [register?_unbind] at absent
  split at absent
  · rename_i same
    exact absurd (same ▸ wanted) (dead (same ▸ abstract))
  · exact h abstract wanted absent

theorem does_unbind (h : Shape E s) {key : Operand} (clean : key ∉ s.dirty)
    (dead : key.isAbstract = true → ¬ L key) : Does E L s (s.unbind key) :=
  ⟨h.unbind clean, evolves_of_eq rfl rfl rfl rfl, fun mem => mem, fun covered => covered.unbind dead,
    fun _ _ holds =>
      ⟨_, .nothing rfl, holds.unbind fun abstract wanted => absurd wanted (dead abstract)⟩⟩

/-- Storing a word if it is dirty, and dropping its binding. -/
theorem does_clean_unbind (h : Shape E s) {key : Operand} {reg : Nat}
    (held : s.register? key = some reg) (dead : key.isAbstract = true → ¬ L key) :
    Does E L s ((s.clean key reg).unbind key) ∧ Clears [key] s ((s.clean key reg).unbind key) := by
  have cleaned := does_clean (L := L) h held
  refine ⟨cleaned.trans (does_unbind cleaned.shape (not_dirty_clean s key reg) dead), ?_⟩
  obtain ⟨residents, -, pinned⟩ := clean_residents s key reg
  refine ⟨fun other => ?_, pinned, dirty_clean s key reg⟩
  rw [register?_unbind, State.register?, residents]
  simp [State.register?]

theorem does_vacateOne {index reg : Nat} {key : Operand}
    (read : ∀ key, L key → (E.context.liveness.nextRead key index).isSome = true)
    (h : Shape E s) (held : s.register? key = some reg) :
    Does E L s (s.vacateOne E.context index reg key) ∧
      Clears [key] s (s.vacateOne E.context index reg key) := by
  unfold State.vacateOne
  rcases (h.isKey held).mem_or_abstract with ⟨memory, concrete⟩ | ⟨register, abstract⟩
  · simp only [memory, if_true]
    exact does_clean_unbind h held fun abstract => by simp [concrete] at abstract
  · simp only [register, Bool.false_eq_true, if_false]
    split
    · obtain ⟨residents, dirty, pinned, -⟩ := slot_frame s key
      refine ⟨does_spill h held abstract, fun other => ?_, pinned, fun mem => dirty ▸ mem⟩
      have same : (s.spill key reg).register? other = s.register? other := by
        have : (s.spill key reg).residents = (s.slot key).2.residents := rfl
        rw [State.register?, this, residents, State.register?]
      rw [register?_unbind, same]
      simp
    · rename_i never
      have clean : key ∉ s.dirty := fun mem => by
        have := (h.dirty mem).1
        simp [register] at this
      exact ⟨does_unbind h clean fun _ wanted => never (read key wanted), clears_unbind s key⟩

/-- Emptying a register saves what is live, and leaves nothing in it. -/
theorem does_vacate (reg : Nat) {index : Nat}
    (read : ∀ key, L key → (E.context.liveness.nextRead key index).isSome = true)
    (h : Shape E s) : Does E L s (s.vacate E.context reg index) ∧
      Clears (s.residents.of reg) s (s.vacate E.context reg index) := by
  have := does_foldl (s := s) (P := fun found => found = some reg) (fun _ => true)
    (fun h held => by simpa using does_vacateOne read h held)
    (h.residents.nodup_of reg) h fun key mem => h.residents.mem_of_iff.mp mem
  rwa [List.filter_eq_self.mpr fun _ _ => rfl] at this

theorem Clears.of_register {index reg : Nat} (h : Shape E s)
    (clears : Clears (s.residents.of reg) s (s.vacate E.context reg index)) (key : Operand) :
    (s.vacate E.context reg index).register? key =
      if s.register? key = some reg then none else s.register? key := by
  rw [clears.registers]
  by_cases held : s.register? key = some reg
  · rw [if_pos held, if_pos (h.residents.mem_of_iff.mpr held)]
  · rw [if_neg held, if_neg (mt h.residents.mem_of_iff.mp held)]

/-- Before a call all registers are emptied. -/
theorem does_vacateAll {index : Nat}
    (read : ∀ key, L key → (E.context.liveness.nextRead key index).isSome = true)
    (h : Shape E s) : Does E L s (s.vacateAll E.context index) ∧
      (∀ key, (s.vacateAll E.context index).register? key = none) := by
  let empty := fun (s : State) (reg : Nat) =>
    if s.residents.occupants reg = 0 then s else s.vacate E.context reg index
  have each : ∀ (regs : List Nat) {s : State}, Shape E s → Does E L s (regs.foldl empty s) ∧
      ∀ {key reg}, (regs.foldl empty s).register? key = some reg →
        s.register? key = some reg ∧ reg ∉ regs := by
    intro regs
    induction regs with
    | nil => exact fun h => ⟨.refl h, fun held => ⟨held, List.not_mem_nil⟩⟩
    | cons reg rest ih =>
      intro s h
      have first : Does E L s (empty s reg) ∧ ∀ key, (empty s reg).register? key =
          if s.register? key = some reg then none else s.register? key := by
        dsimp only [empty]
        split
        · rename_i free
          exact ⟨.refl h, fun key => (if_neg (h.residents.occupants_eq_zero_iff.mp free key)).symm⟩
        · obtain ⟨does, clears⟩ := does_vacate reg read h
          exact ⟨does, clears.of_register h⟩
      obtain ⟨does, registers⟩ := ih first.1.shape
      refine ⟨first.1.trans does, fun {key r} held => ?_⟩
      obtain ⟨there, other⟩ := registers held
      rw [first.2] at there
      split at there
      · cases there
      · rename_i apart
        refine ⟨there, fun mem => ?_⟩
        rcases List.mem_cons.mp mem with rfl | mem
        · exact apart there
        · exact other mem
  obtain ⟨does, registers⟩ := each (List.range' 1 E.context.registers) h
  refine ⟨does, fun key => ?_⟩
  cases held : (s.vacateAll E.context index).register? key with
  | none => rfl
  | some reg =>
    obtain ⟨there, outside⟩ := registers held
    have bounds := h.residents.bounds there
    exact absurd (List.mem_range'_1.mpr ⟨bounds.1, by omega⟩) outside

/-! ## Finding a register -/

theorem mem_evictable {c : Context} {reg : Nat} : reg ∈ State.evictable c s ↔
    (1 ≤ reg ∧ reg ≤ c.registers) ∧ s.pinned.contains reg = false ∧
      s.residents.occupants reg ≠ 0 := by
  simp only [State.evictable, List.mem_filter, List.mem_range'_1, Bool.and_eq_true,
    Bool.not_eq_eq_eq_not, Bool.not_true, bne_iff_ne]
  refine and_congr_left fun _ => ?_
  omega

/-- Of a register and those above it, a fold that goes on only to what is further comes to the first of the
furthest ones. -/
theorem foldl_furthest (distance : Nat → Nat) (choose : Option (Nat × Nat) → Nat → Option (Nat × Nat))
    (next : ∀ best reg, choose (some (best, distance best)) reg =
      if distance best < distance reg then some (reg, distance reg) else some (best, distance best))
    (regs : List Nat) (best : Nat) (sorted : (best :: regs).Pairwise (· < ·)) :
    ∃ reg ∈ best :: regs, (regs.foldl choose (some (best, distance best))).map (·.1) = some reg ∧
      ∀ r ∈ best :: regs, distance r ≤ distance reg ∧ (r < reg → distance r < distance reg) := by
  induction regs generalizing best with
  | nil =>
    refine ⟨best, List.mem_cons_self, rfl, fun r mem => ?_⟩
    cases List.mem_singleton.mp mem
    exact ⟨Nat.le_refl _, fun less => absurd less (Nat.lt_irrefl _)⟩
  | cons r rest ih =>
    obtain ⟨above, sorted'⟩ := List.pairwise_cons.mp sorted
    have below : best < r := above r List.mem_cons_self
    rw [List.foldl_cons, next]
    split
    · rename_i further
      obtain ⟨reg, mem, found, most⟩ := ih r sorted'
      refine ⟨reg, List.mem_cons_of_mem _ mem, found, List.forall_mem_cons.mpr ⟨?_, most⟩⟩
      have := (most r List.mem_cons_self).1
      exact ⟨by omega, fun _ => by omega⟩
    · rename_i nearer
      have sorted'' : (best :: rest).Pairwise (· < ·) :=
        List.pairwise_cons.mpr ⟨fun x mem => above x (List.mem_cons_of_mem _ mem), (List.pairwise_cons.mp sorted').2⟩
      obtain ⟨reg, mem, found, most⟩ := ih best sorted''
      obtain ⟨here, others⟩ := List.forall_mem_cons.mp most
      refine ⟨reg, ?_, found, List.forall_mem_cons.mpr ⟨here, List.forall_mem_cons.mpr ⟨?_, others⟩⟩⟩
      · rcases List.mem_cons.mp mem with rfl | mem
        · exact List.mem_cons_self
        · exact List.mem_cons_of_mem _ (List.mem_cons_of_mem _ mem)
      · -- a register that is not further than the one before it can only be chosen over by one further still
        refine ⟨by omega, fun less => ?_⟩
        have := here.2 (by omega)
        omega

theorem sorted_evictable (c : Context) (s : State) : (State.evictable c s).Pairwise (· < ·) :=
  (List.pairwise_lt_range' (s := 1) (n := c.registers)).filter _

/-- There is a register to evict if anything can be evicted: of those that can be, the first of the ones whose
values are read furthest ahead. -/
theorem victim?_spec {c : Context} (index : Nat) (some_there : State.evictable c s ≠ []) :
    ∃ reg ∈ State.evictable c s, s.victim? c index = some reg ∧ ∀ r ∈ State.evictable c s,
      s.firstRead c r index ≤ s.firstRead c reg index ∧
        (r < reg → s.firstRead c r index < s.firstRead c reg index) := by
  have sorted := sorted_evictable c s
  unfold State.victim?
  cases registers : State.evictable c s with
  | nil => exact absurd registers some_there
  | cons first rest =>
    rw [registers] at sorted
    exact foldl_furthest (fun r => s.firstRead c r index) _ (fun _ _ => rfl) rest first sorted

/-- What a register that was found is like: nothing is in it, and nothing was taken out of the registers
that the current instruction uses. -/
structure Acquired (E : Setting) (s : State) (reg : Nat) (s' : State) : Prop where
  bounds : 1 ≤ reg ∧ reg ≤ E.context.registers
  empty : ∀ key, s'.register? key ≠ some reg
  pinned : s'.pinned = s.pinned
  kept : ∀ {key r}, s.register? key = some r → s.pinned.contains r = true →
    s'.register? key = some r
  still : ∀ {key r}, s'.register? key = some r → s.register? key = some r

/-- Some register is not in use by the current instruction. -/
def Spare (c : Context) (s : State) : Prop :=
  ∃ reg, (1 ≤ reg ∧ reg ≤ c.registers) ∧ s.pinned.contains reg = false

/-- One register in use leaves another. -/
theorem spare_of_one {c : Context} (two : 2 ≤ c.registers) (used : Nat)
    (one : ∀ reg, s.pinned.contains reg = true → reg = used) : Spare c s := by
  have free : ∀ reg, reg ≠ used → s.pinned.contains reg = false := by
    intro reg other
    cases busy : s.pinned.contains reg with
    | false => rfl
    | true => exact absurd (one reg busy) other
  by_cases first : used = 1
  · exact ⟨2, by omega, free 2 (by omega)⟩
  · exact ⟨1, by omega, free 1 (by omega)⟩

theorem spare_of_unused {c : Context} (two : 2 ≤ c.registers)
    (unused : ∀ reg, s.pinned.contains reg = false) : Spare c s :=
  ⟨1, by omega, unused 1⟩

/-- When no register is free, one that is not in use is given up. -/
theorem victim?_of_spare {c : Context} (index : Nat) (h : s.residents.Consistent c.registers)
    (full : s.residents.free.isEmpty = true) (spare : Spare c s) :
    ∃ victim, (1 ≤ victim ∧ victim ≤ c.registers) ∧ s.pinned.contains victim = false ∧
      s.victim? c index = some victim := by
  obtain ⟨r, bounds, unused⟩ := spare
  have occupied : s.residents.occupants r ≠ 0 := fun zero => by
    have := (h.free r).mpr ⟨bounds.1, bounds.2, zero⟩
    rw [RegisterSet.contains_of_isEmpty full] at this
    cases this
  obtain ⟨victim, evictable, chosen, -⟩ := victim?_spec index
    (List.ne_nil_of_mem (mem_evictable.mpr ⟨bounds, unused, occupied⟩))
  obtain ⟨bounds, unused, -⟩ := mem_evictable.mp evictable
  exact ⟨victim, bounds, unused, chosen⟩

/-- As long as some register is not in use by the current instruction, one can be found. -/
theorem acquire_spec {index : Nat}
    (read : ∀ key, L key → (E.context.liveness.nextRead key index).isSome = true)
    (h : Shape E s) (spare : Spare E.context s) :
    ∃ reg s', s.acquire E.context index = .ok (reg, s') ∧ Does E L s s' ∧ Acquired E s reg s' := by
  cases none : s.residents.free.isEmpty with
  | false =>
    obtain ⟨r, there⟩ := RegisterSet.exists_of_not_isEmpty none
    obtain ⟨reg, first⟩ := Option.isSome_iff_exists.mp (RegisterSet.first?_isSome there)
    obtain ⟨least, most, empty⟩ := h.residents.free_iff.mp (RegisterSet.first?_eq_some first)
    refine ⟨reg, s, ?_, .refl h, ⟨least, most⟩, empty, rfl, fun held _ => held, fun held => held⟩
    simp [State.acquire, none, first, bind, Except.bind, pure, Except.pure]
  | true =>
    obtain ⟨victim, bounds, unused, chosen⟩ := victim?_of_spare index h.residents none spare
    obtain ⟨does, clears⟩ := does_vacate victim read h
    have registers := clears.of_register h
    have free : (s.vacate E.context victim index).residents.free.contains victim = true := by
      refine does.shape.residents.free_iff.mpr ⟨bounds.1, bounds.2, fun key held => ?_⟩
      have := registers key
      rw [State.register?, held] at this
      split at this
      · cases this
      · rename_i apart
        exact apart this.symm
    obtain ⟨reg, first⟩ := Option.isSome_iff_exists.mp (RegisterSet.first?_isSome free)
    obtain ⟨least, most, empty⟩ := does.shape.residents.free_iff.mp (RegisterSet.first?_eq_some first)
    refine ⟨reg, _, ?_, does, ⟨least, most⟩, empty, clears.pinned, ?_, ?_⟩
    · simp [State.acquire, none, State.evict, chosen, first, bind, Except.bind]
    · intro key r held used
      rw [registers, if_neg]
      · exact held
      · intro held'
        rw [held] at held'
        cases held'
        rw [unused] at used
        cases used
    · intro key r held
      rw [registers] at held
      split at held
      · cases held
      · exact held

/-- After an instruction what is dead is taken out. -/
theorem does_releaseDead {index : Nat}
    (after : ∀ key, E.context.liveness.isLiveAfter index key = true ↔ L key) (h : Shape E s) :
    Does E L s (s.releaseDead E.context index) ∧
      (∀ {key reg}, (s.releaseDead E.context index).register? key = some reg → L key) ∧
      (∀ {key}, key ∈ (s.releaseDead E.context index).dirty → L key) := by
  have released := does_foldl (s := s) (P := fun found => found.isSome = true)
    (f := State.releaseOne E.context index) (L := L)
    (fun key => !E.context.liveness.isLiveAfter index key)
    (by
      intro s key h there
      obtain ⟨reg, held⟩ := Option.isSome_iff_exists.mp there
      unfold State.releaseOne
      by_cases wanted : E.context.liveness.isLiveAfter index key = true
      · simp only [wanted, if_true]
        exact ⟨.refl h, by simpa [wanted] using Clears.refl s⟩
      · have dead : key.isAbstract = true → ¬ L key := fun _ => mt (after key).mpr wanted
        rw [if_neg wanted, held]
        simpa [wanted] using does_clean_unbind h held dead)
    h.nodup_all h (fun key mem => by
      obtain ⟨reg, held⟩ := h.residents.mem_all_iff.mp mem
      simp [State.register?, held])
  obtain ⟨does, clears⟩ := released
  have left : ∀ {key reg}, (s.releaseDead E.context index).register? key = some reg → L key := by
    intro key reg held
    have := clears.registers key
    rw [State.releaseDead] at held
    rw [held] at this
    split at this
    · cases this
    · rename_i kept
      have there : key ∈ s.residents.all := h.residents.mem_all_iff.mpr ⟨reg, this.symm⟩
      have wanted : E.context.liveness.isLiveAfter index key = true := by
        simpa [there] using kept
      exact (after key).mp wanted
  refine ⟨does, left, fun mem => ?_⟩
  obtain ⟨-, reg, held⟩ := does.shape.dirty mem
  exact left held

end Codegen86.Allocation
