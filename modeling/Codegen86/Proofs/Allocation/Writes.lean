import Codegen86.Proofs.Allocation.Operands
/-!
# Writing in both runs

One lemma for each kind of place an instruction writes: what it takes for the two runs to go on holding
the same after both have written the same word.  An abstract register may also be given a physical one
that has its value, and a word of memory may be left to be stored later.
-/

set_option autoImplicit false

namespace Codegen86.Allocation

open Target Symbolic

variable {E : Setting} {L L' : Operand → Prop} {s s' : State} {u t : View}

/-! ## Values -/

theorem value_setLocal {u : View} {k : Nat} (w : Word) {key : Operand}
    (other : key ≠ .reg (.abstract k)) :
    value { u with locals := put u.locals k w } key = value u key := by
  match key with
  | .reg (.abstract j) =>
    have apart : j ≠ k := by
      rintro rfl
      exact other rfl
    exact put_of_ne _ _ apart
  | .mem _ _ => rfl
  | .reg (.physical _) => rfl
  | .reg .stackPointer => rfl
  | .reg .basePointer => rfl
  | .imm _ => rfl
  | .label _ => rfl

/-- Writing a word that is none of the frame's other words changes no other resident. -/
theorem value_setMemory {u : View} {base : Nat} {a w : Word} {key : Operand} (isKey : IsKey base key)
    (other : ∀ off : Word, -(base : Int) ≤ off.toInt → key = .mem .basePointer off →
      u.basePointer + off ≠ a) :
    value { u with memory := put u.memory a w } key = value u key := by
  rcases isKey with ⟨k, rfl⟩ | ⟨off, rfl, inFrame⟩
  · rfl
  · exact put_of_ne _ _ (other off inFrame rfl)

theorem word_ne {bp off off' : Word} (other : Operand.mem .basePointer off ≠ .mem .basePointer off') :
    bp + off ≠ bp + off' := fun same => other (by rw [Word.add_left_cancel same])

/-! ## Abstract registers -/

/-- An abstract register is written and does not count afterwards. -/
theorem Holds.dropLocal (h : Holds E L s u t) {k : Nat} (w : Word)
    (others : ∀ o, L' o → o ≠ .reg (.abstract k) ∧ L o) :
    Holds E L' s { u with locals := put u.locals k w } t where
  result := h.result
  stackPointer := h.stackPointer
  basePointer := h.basePointer
  flags := h.flags
  pushed := h.pushed
  held {key reg} found wanted := by
    have other : key ≠ .reg (.abstract k) := by
      rintro rfl
      rcases wanted with memory | wanted
      · cases memory
      · exact (others _ wanted).1 rfl
    rw [value_setLocal w other]
    exact h.held found (wanted.imp_right fun wanted => (others _ wanted).2)
  saved {key} abstract wanted absent := by
    obtain ⟨other, wanted⟩ := others _ wanted
    rw [value_setLocal w other]
    exact h.saved abstract wanted absent
  memory := h.memory
  dirtyValid := h.dirtyValid

/-- An abstract register is written in the register that holds it alone. -/
theorem Holds.setLocal (h : Holds E L s u t) {k reg : Nat} (w : Word)
    (bound : s.register? (.reg (.abstract k)) = some reg) (positive : 1 ≤ reg)
    (alone : ∀ o, s.register? o = some reg → o = .reg (.abstract k))
    (others : ∀ o, L' o → o ≠ .reg (.abstract k) → L o) :
    Holds E L' s { u with locals := put u.locals k w }
      { t with general := put t.general reg w } where
  result := (put_of_ne _ _ (by omega)).trans h.result
  stackPointer := h.stackPointer
  basePointer := h.basePointer
  flags := h.flags
  pushed := h.pushed
  held {key r} found wanted := by
    by_cases same : key = .reg (.abstract k)
    · rw [same, bound] at found
      cases found
      rw [same]
      exact (put_self _ _ _).trans (put_self _ _ _).symm
    · have apart : r ≠ reg := by
        rintro rfl
        exact same (alone key found)
      rw [value_setLocal w same]
      exact (put_of_ne _ _ apart).trans
        (h.held found (wanted.imp_right fun wanted => others _ wanted same))
  saved {key} abstract wanted absent := by
    have other : key ≠ .reg (.abstract k) := by
      rintro rfl
      rw [bound] at absent
      cases absent
    rw [value_setLocal w other]
    exact h.saved abstract (others _ wanted other) absent
  memory := h.memory
  dirtyValid := h.dirtyValid

/-! ## Words of memory -/

/-- A word of the frame is written in both runs; a register that held it does so no more. -/
theorem Holds.overwrite (shape : Shape E s) (fits : E.base + s.slots.length ≤ E.cap)
    (h : Holds E L s u t) {off : Word} (inFrame : -(E.base : Int) ≤ off.toInt) (w : Word)
    (registers : ∀ {key reg}, s'.register? key = some reg →
      key ≠ .mem .basePointer off ∧ s.register? key = some reg)
    (absent : ∀ {key}, key.isAbstract = true → s'.register? key = none → s.register? key = none)
    (dirty : ∀ {key}, key ∈ s'.dirty ↔ key ∈ s.dirty ∧ key ≠ .mem .basePointer off)
    (slots : s'.slots = s.slots) :
    Holds E L s' { u with memory := put u.memory (u.basePointer + off) w }
      { t with memory := put t.memory (u.basePointer + off) w } where
  result := h.result
  stackPointer := h.stackPointer
  basePointer := h.basePointer
  flags := h.flags
  pushed := h.pushed
  held {key reg} found wanted := by
    obtain ⟨other, before⟩ := registers found
    rw [value_setMemory (shape.isKey before) fun off' _ eq => word_ne (eq ▸ other)]
    exact h.held before wanted
  saved {key} abstract wanted unbound := by
    obtain ⟨slot, found, safe⟩ := h.saved abstract wanted (absent abstract unbound)
    refine ⟨slot, slots ▸ found, ?_⟩
    obtain ⟨j, above, below, rfl⟩ := shape.slot_place fits found
    have elsewhere : u.basePointer + -Word.ofNat j ≠ u.basePointer + off :=
      (ne_spill inFrame ⟨j, above, below, rfl⟩).symm
    rw [value_setMemory (isKey_of_abstract E.base abstract) (by
      rintro off' - rfl
      cases abstract)]
    exact (put_of_ne _ _ elsewhere).trans safe
  memory {a} tracked outside clean := by
    by_cases here : a = u.basePointer + off
    · rw [here]
      exact (put_self _ _ _).trans (put_self _ _ _).symm
    · refine (put_of_ne _ _ here).trans (.trans ?_ (put_of_ne _ _ here).symm)
      refine h.memory tracked outside fun off' isDirty => ?_
      by_cases same : off' = off
      · rw [same]
        exact here
      · exact clean off' (dirty.mpr ⟨isDirty, by simpa using same⟩)
  dirtyValid mem := h.dirtyValid (dirty.mp mem).1

theorem register?_markDirty (s : State) (key other : Operand) :
    (s.markDirty key).register? other = s.register? other := rfl

/-- A word of the frame is written in the original run, and a register holds it from now on. -/
theorem Holds.deferStore (shape : Shape E s) (h : Holds E L s u t) {off : Word} {reg : Nat}
    (valid : E.valid (u.basePointer + off) = true) :
    Holds E L ((s.bind (.mem .basePointer off) reg).markDirty (.mem .basePointer off))
      { u with memory := put u.memory (u.basePointer + off) (t.general reg) } t where
  result := h.result
  stackPointer := h.stackPointer
  basePointer := h.basePointer
  flags := h.flags
  pushed := h.pushed
  held {key r} found wanted := by
    rw [register?_markDirty, register?_bind] at found
    split at found
    · rename_i same
      cases found
      rw [same]
      exact (put_self _ _ _).symm
    · rename_i other
      rw [value_setMemory (shape.isKey found) fun off' _ eq => word_ne (eq ▸ other)]
      exact h.held found wanted
  saved {key} abstract wanted absent := by
    rw [register?_markDirty, register?_bind] at absent
    split at absent
    · cases absent
    · rw [value_setMemory (isKey_of_abstract E.base abstract) (by
        rintro off' - rfl
        cases abstract)]
      exact h.saved abstract wanted absent
  memory {a} tracked outside clean := by
    have elsewhere : a ≠ u.basePointer + off :=
      clean off (List.mem_insert_iff.mpr (.inl rfl))
    refine .trans ?_ (put_of_ne _ _ elsewhere).symm
    exact h.memory tracked outside fun off' isDirty =>
      clean off' (List.mem_insert_iff.mpr (.inr isDirty))
  dirtyValid {off'} mem := by
    rcases List.mem_insert_iff.mp mem with same | mem
    · cases same
      exact valid
    · exact h.dirtyValid mem

/-! ## The other places -/

/-- What holds no resident may change, as long as it changes alike. -/
theorem Holds.withSpecials (shape : Shape E s) (h : Holds E L s u t) {u' t' : View}
    (residents : u'.locals = u.locals ∧ u'.memory = u.memory ∧ u'.basePointer = u.basePointer ∧
      t'.memory = t.memory ∧ t'.basePointer = t.basePointer ∧ ∀ r, 1 ≤ r → t'.general r = t.general r)
    (specials : t'.general 0 = u'.general 0 ∧ t'.stackPointer = u'.stackPointer ∧
      t'.flags = u'.flags ∧ t'.pushed = u'.pushed) : Holds E L s u' t' := by
  obtain ⟨locals, memory, base, memory', base', general⟩ := residents
  obtain ⟨result, stack, flags, pushed⟩ := specials
  have same : ∀ {key}, IsKey E.base key → value u' key = value u key := by
    rintro key (⟨k, rfl⟩ | ⟨off, rfl, -⟩)
    · simp only [value, locals]
    · simp only [value, memory, base]
  refine ⟨result, stack, ?_, flags, pushed, ?_, ?_, ?_, ?_⟩
  · rw [base', base]
    exact h.basePointer
  · intro key reg found wanted
    rw [general reg (shape.residents.bounds found).1, same (shape.isKey found)]
    exact h.held found wanted
  · intro key abstract wanted absent
    rw [memory', base, same (isKey_of_abstract _ abstract)]
    exact h.saved abstract wanted absent
  · rw [memory', memory, base]
    exact h.memory
  · rw [base]
    exact h.dirtyValid

theorem Holds.setResult (shape : Shape E s) (h : Holds E L s u t) (w : Word) :
    Holds E L s { u with general := put u.general 0 w } { t with general := put t.general 0 w } :=
  h.withSpecials shape
    ⟨rfl, rfl, rfl, rfl, rfl, fun r positive => put_of_ne _ _ (by omega)⟩
    ⟨(put_self t.general 0 w).trans (put_self u.general 0 w).symm, h.stackPointer, h.flags, h.pushed⟩

theorem Holds.setStackPointer (shape : Shape E s) (h : Holds E L s u t) (w : Word) :
    Holds E L s { u with stackPointer := w } { t with stackPointer := w } :=
  h.withSpecials shape ⟨rfl, rfl, rfl, rfl, rfl, fun _ _ => rfl⟩ ⟨h.result, rfl, h.flags, h.pushed⟩

theorem Holds.setFlags (shape : Shape E s) (h : Holds E L s u t) (o : Ordering) :
    Holds E L s { u with flags := o } { t with flags := o } :=
  h.withSpecials shape ⟨rfl, rfl, rfl, rfl, rfl, fun _ _ => rfl⟩ ⟨h.result, h.stackPointer, rfl, h.pushed⟩

/-- A word is pushed in both runs, below everything that the frame may come to. -/
theorem Holds.push (shape : Shape E s) (fits : E.base + s.slots.length ≤ E.cap)
    (h : Holds E L s u t) (positive : 0 < u.stackPointer)
    (apart : u.stackPointer.toInt + E.cap ≤ u.basePointer.toInt) (w : Word) :
    Holds E L s
      (View.note { u with
        stackPointer := u.stackPointer - 1
        memory := put u.memory (u.stackPointer - 1) w } w)
      (View.note { t with
        stackPointer := u.stackPointer - 1
        memory := put t.memory (u.stackPointer - 1) w } w) where
  result := h.result
  stackPointer := rfl
  basePointer := h.basePointer
  flags := h.flags
  pushed := congrArg (List.cons _) h.pushed
  held {key reg} found wanted := by
    refine (h.held found wanted).trans ?_
    rcases shape.isKey found with ⟨k, rfl⟩ | ⟨off, rfl, inFrame⟩
    · rfl
    · have elsewhere : u.basePointer + off ≠ u.stackPointer - 1 :=
        (Word.ne_top positive (by omega) inFrame).symm
      exact (put_of_ne u.memory w elsewhere).symm
  saved {key} abstract wanted absent := by
    obtain ⟨slot, found, safe⟩ := h.saved abstract wanted absent
    refine ⟨slot, found, ?_⟩
    have small := E.small
    obtain ⟨j, above, below, rfl⟩ := shape.slot_place fits found
    have elsewhere : u.basePointer + -Word.ofNat j ≠ u.stackPointer - 1 :=
      (Word.ne_top positive apart (by rw [Word.toInt_neg_ofNat (by omega)]; omega)).symm
    refine (put_of_ne _ _ elsewhere).trans (safe.trans ?_)
    obtain ⟨k, rfl⟩ | ⟨off, rfl, -⟩ := isKey_of_abstract E.base abstract
    · rfl
    · cases abstract
  memory {a} tracked outside clean := by
    by_cases here : a = u.stackPointer - 1
    · rw [here]
      exact (put_self _ _ _).trans (put_self _ _ _).symm
    · exact (put_of_ne _ _ here).trans ((h.memory tracked outside clean).trans (put_of_ne _ _ here).symm)
  dirtyValid := h.dirtyValid

end Codegen86.Allocation
