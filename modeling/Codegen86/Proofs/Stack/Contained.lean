import Codegen86.Proofs.Stack.Selected
/-!
# Words of memory that code uses

The code of a function reads and writes words of its frame and reads its arguments, which are above the base
pointer.  It uses no other words of memory by name, and it does not write the base pointer (`Contained`).
Selected code is like this (`Remains.contained`), and so is what the allocator makes of it, in a frame that
has grown by the slots of spilled values (`contained_of_renders`).
-/

set_option autoImplicit false

namespace Codegen86

namespace Target.Instruction

/-- The operand that an instruction writes. -/
def written? : Instruction → Option OperandRef
  | mov x _ | arith _ x _ | pop x => some x
  | _ => none

theorem mem_of_written {i : Instruction} {x : OperandRef} (h : i.written? = some x) : x ∈ i.operands := by
  cases i <;> simp_all [written?, operands]

end Target.Instruction

namespace Stack

open Target Selection Allocation

/-- The offset of a word of a frame. -/
def InFrame (words : Nat) (offset : Word) : Prop :=
  ∃ j, 1 ≤ j ∧ j ≤ words ∧ offset = -Word.ofNat (j % 2 ^ 32)

/-- The offset of an argument. -/
def IsArgument (params : Nat → Prop) (offset : Word) : Prop :=
  ∃ i, params i ∧ offset = Word.ofNat (Calling.argBase + i)

/-- An operand that may be written: of memory a word of the frame only, and not the base pointer. -/
def Owned (words : Nat) : Operand → Prop
  | .mem base offset => base = .basePointer ∧ InFrame words offset
  | .reg r => r ≠ .basePointer
  | .imm _ | .label _ => True

/-- An operand that may be read: of memory words of the frame and arguments only. -/
def Visible (params : Nat → Prop) (words : Nat) : Operand → Prop
  | .mem base offset => base = .basePointer ∧ (InFrame words offset ∨ IsArgument params offset)
  | .reg _ | .imm _ | .label _ => True

/-- An instruction that reads and writes what it may. -/
structure Contained (get : OperandRef → Operand) (params : Nat → Prop) (words : Nat) (i : Instruction) :
    Prop where
  reads : ∀ x ∈ i.operands, Visible params words (get x)
  writes : ∀ x, i.written? = some x → Owned words (get x)

variable {params : Nat → Prop} {words words' : Nat} {o : Operand} {get get' : OperandRef → Operand}
  {i : Instruction} {x : OperandRef}

theorem InFrame.mono (more : words ≤ words') {offset : Word} (h : InFrame words offset) :
    InFrame words' offset := by
  obtain ⟨j, least, most, eq⟩ := h
  exact ⟨j, least, Nat.le_trans most more, eq⟩

theorem Owned.mono (more : words ≤ words') (h : Owned words o) : Owned words' o := by
  cases o with
  | mem base offset => exact ⟨h.1, h.2.mono more⟩
  | _ => exact h

theorem Visible.mono (more : words ≤ words') (h : Visible params words o) : Visible params words' o := by
  cases o with
  | mem base offset => exact ⟨h.1, h.2.imp_left (·.mono more)⟩
  | _ => trivial

theorem Owned.visible (h : Owned words o) : Visible params words o := by
  cases o with
  | mem base offset => exact ⟨h.1, .inl h.2⟩
  | _ => trivial

theorem Contained.mono (more : words ≤ words') (h : Contained get params words i) :
    Contained get params words' i :=
  ⟨fun x use => (h.reads x use).mono more, fun x written => (h.writes x written).mono more⟩

theorem Contained.congr (h : Contained get params words i) (same : ∀ x ∈ i.operands, get' x = get x) :
    Contained get' params words i := by
  refine ⟨fun x use => ?_, fun x written => ?_⟩
  · rw [same x use]
    exact h.reads x use
  · rw [same x (Instruction.mem_of_written written)]
    exact h.writes x written

/-! ## Selected code -/

section

variable {E : Site} {first next pushed next' pushed' : Nat} {targets : List String} {code : List Instruction}

theorem visible_of_is (is : E.Is x o) (h : Visible params words o) : Visible params words (E.pool.get x) := by
  rw [is.2]
  exact h

theorem owned_of_is (is : E.Is x o) (h : Owned words o) : Owned words (E.pool.get x) := by
  rw [is.2]
  exact h

theorem owned_of_held (held : E.Held first next x) : Owned words (E.pool.get x) := by
  obtain ⟨k, -, -, is⟩ := held
  exact owned_of_is is nofun

theorem visible_of_storable (h : E.Storable first next x) : Visible params words (E.pool.get x) := by
  cases h with
  | held is => exact (owned_of_held is).visible
  | imm is => exact visible_of_is is trivial

theorem visible_of_loadable (h : E.Loadable first next x) : Visible E.params E.words (E.pool.get x) := by
  cases h with
  | held is => exact (owned_of_held is).visible
  | imm is | result is => exact visible_of_is is trivial
  | slot reserved is => exact visible_of_is is ⟨rfl, .inl reserved⟩
  | arg param is => exact visible_of_is is ⟨rfl, .inr ⟨_, param, rfl⟩⟩

/-- An instruction that writes its first operand and reads its second. -/
theorem contained_pair {y : OperandRef} (written : i.written? = some x) (operands : i.operands = [x, y])
    (target : Owned words (get x)) (source : Visible params words (get y)) : Contained get params words i := by
  refine ⟨fun z use => ?_, fun z writes => ?_⟩
  · rw [operands] at use
    rcases List.mem_pair.mp use with rfl | rfl
    · exact target.visible
    · exact source
  · rw [written] at writes
    cases writes
    exact target

/-- An instruction that writes none of its operands. -/
theorem contained_quiet (written : i.written? = none) (source : ∀ x ∈ i.operands, Visible params words (get x)) :
    Contained get params words i :=
  ⟨source, fun x writes => by rw [written] at writes; cases writes⟩

theorem contained_of_emission (h : E.Emission first next pushed i next' pushed') :
    Contained E.pool.get E.params E.words i := by
  cases h with
  | load target source => exact contained_pair rfl rfl (owned_of_is target nofun) (visible_of_loadable source)
  | store reserved target source =>
    exact contained_pair rfl rfl (owned_of_is target ⟨rfl, reserved⟩) (visible_of_storable source)
  | result target source =>
    exact contained_pair rfl rfl (owned_of_is target nofun) (owned_of_held source).visible
  | arith target source => exact contained_pair rfl rfl (owned_of_held target) (owned_of_held source).visible
  | push source =>
    refine contained_quiet rfl fun z use => ?_
    obtain rfl := List.mem_singleton.mp use
    exact (owned_of_held source).visible
  | call target known =>
    refine contained_quiet rfl fun z use => ?_
    obtain rfl := List.mem_singleton.mp use
    exact visible_of_is target trivial
  | drop stack words => exact contained_pair rfl rfl (owned_of_is stack nofun) (visible_of_is words trivial)

theorem contained_of_closes (h : E.Closes targets first next code) (mem : i ∈ code) :
    Contained E.pool.get E.params E.words i := by
  have label : ∀ {z : OperandRef} {name : String}, E.Is z (.symbol name) →
      ∀ x ∈ [z], Visible E.params E.words (E.pool.get x) := by
    intro z name is x use
    obtain rfl := List.mem_singleton.mp use
    exact visible_of_is is trivial
  cases h with
  | jump target known =>
    obtain rfl := List.mem_singleton.mp mem
    exact contained_quiet rfl (label target)
  | test left right target known target' known' =>
    simp only [List.mem_cons, List.not_mem_nil, or_false] at mem
    rcases mem with rfl | rfl | rfl
    · refine contained_quiet rfl fun z use => ?_
      rcases List.mem_pair.mp use with rfl | rfl
      · exact (owned_of_held left).visible
      · exact visible_of_storable right
    · exact contained_quiet rfl (label target)
    · exact contained_quiet rfl (label target')

theorem Remains.contained (h : Remains E targets first next code) (mem : i ∈ code) :
    Contained E.pool.get E.params E.words i := by
  cases h with
  | nothing => cases mem
  | code made closes =>
    rcases List.mem_append.mp mem with mem | mem
    · obtain ⟨n, p, n', p', -, -, emission⟩ := made.emission mem
      exact contained_of_emission emission
    · exact contained_of_closes closes mem

end

/-! ## Allocated code -/

section

variable {J : Job} {q : Pool} {n : Nat} {code out : List Instruction} {x' : OperandRef}

theorem owned_of_isRegister (is : J.IsRegister o) : Owned words o := by
  obtain ⟨r, -, -, rfl⟩ := is
  exact nofun

theorem owned_of_replaces (h : J.Replaces q x x') (owned : Owned words (J.pool.get x)) :
    Owned words (q.get x') := by
  cases h with
  | same eq concrete get =>
    rw [eq, get]
    exact owned
  | register resident inside is => exact owned_of_isRegister is

theorem visible_of_replaces (h : J.Replaces q x x') (visible : Visible params words (J.pool.get x)) :
    Visible params words (q.get x') := by
  cases h with
  | same eq concrete get =>
    rw [eq, get]
    exact visible
  | register resident inside is => exact (owned_of_isRegister is).visible

theorem contained_of_image {i' : Instruction} (h : J.Image q i i')
    (contained : Contained J.pool.get params words i) : Contained q.get params words i' := by
  have reads := contained.reads
  have writes := contained.writes
  have first : ∀ {y y' : OperandRef}, J.Replaces q y y' → y ∈ i.operands →
      ∀ x ∈ [y'], Visible params words (q.get x) := by
    intro y y' replaces mem x use
    obtain rfl := List.mem_singleton.mp use
    exact visible_of_replaces replaces (reads y mem)
  cases h with
  | ret | halt | nop | dropped => exact contained_quiet rfl (by simp [Instruction.operands])
  | push h | jump h | jumpIf h | call h => exact contained_quiet rfl (first h List.mem_cons_self)
  | pop h =>
    refine ⟨first h List.mem_cons_self, fun x writes' => ?_⟩
    cases writes'
    exact owned_of_replaces h (writes _ rfl)
  | mov h h' | arith h h' =>
    exact contained_pair rfl rfl (owned_of_replaces h (writes _ rfl))
      (visible_of_replaces h' (reads _ (List.mem_cons_of_mem _ List.mem_cons_self)))
  | cmp h h' =>
    refine contained_quiet rfl fun z use => ?_
    rcases List.mem_pair.mp use with rfl | rfl
    · exact visible_of_replaces h (reads _ List.mem_cons_self)
    · exact visible_of_replaces h' (reads _ (List.mem_cons_of_mem _ List.mem_cons_self))

/-- What renders contained code is contained, in a frame that has the slots of spilled values. -/
theorem contained_of_renders (h : J.Renders q n code out) (room : J.words + n ≤ words)
    (stored : ∀ {o}, J.Stored o → Owned words o)
    (original : ∀ i ∈ code, Contained J.pool.get params words i) :
    ∀ i ∈ out, Contained q.get params words i := by
  have place : ∀ {o}, J.Place n o → Owned words o := by
    intro o place
    cases place with
    | register is => exact owned_of_isRegister is
    | slot is slot =>
      obtain ⟨w, least, most, eq⟩ := slot
      rw [is]
      exact ⟨rfl, w, by omega, by omega, eq⟩
    | stored is => exact stored is
  induction h with
  | nil => simp
  | spare move _ ih =>
    intro i mem
    rcases List.mem_cons.mp mem with rfl | mem
    · obtain ⟨x, y, rfl, -, -, target, source⟩ := move
      exact contained_pair rfl rfl (place target) (place source).visible
    · exact ih original i mem
  | image head _ ih =>
    intro i mem
    rcases List.mem_cons.mp mem with rfl | mem
    · exact contained_of_image head (original _ List.mem_cons_self)
    · exact ih (fun i mem => original i (List.mem_cons_of_mem _ mem)) i mem

end

end Stack

end Codegen86
