import Codegen86.Proofs.Linking.Program
import Codegen86.Proofs.Peephole.Deletion
/-!
# The place of an instruction in a program

A `Place` is an instruction with everything around it.  Taking the instruction out shifts the addresses of
the layout (`functionLabels_without`), so the linked program without it is the linked program with the
instruction at its address deleted (`Place.In.deletes`).
-/

set_option autoImplicit false

namespace Codegen86.Peephole

open Target Symbolic

/-- An instruction, and the instructions of its block, the blocks of its function and the functions around
it. -/
structure Place where
  before : List Function
  function : Function
  after : List Function
  above : List Block
  block : Block
  below : List Block
  ahead : List Instruction
  instruction : Instruction
  behind : List Instruction

namespace Place

/-- The address of the block. -/
def start (s : Place) : Nat := (s.before.flatMap (·.code)).length + (s.above.flatMap (·.code)).length

/-- The address of the instruction. -/
def address (s : Place) : Nat := s.start + s.ahead.length

/-- The block without the instruction. -/
def shorter (s : Place) : Block := { s.block with code := s.ahead ++ s.behind }

/-- The function without the instruction. -/
def smaller (s : Place) : Function := { s.function with blocks := s.above ++ s.shorter :: s.below }

/-- The functions without the instruction. -/
def without (s : Place) : List Function := s.before ++ s.smaller :: s.after

/-- The place is one in these functions. -/
structure In (s : Place) (functions : List Function) : Prop where
  functions : functions = s.before ++ s.function :: s.after
  blocks : s.function.blocks = s.above ++ s.block :: s.below
  code : s.block.code = s.ahead ++ s.instruction :: s.behind

end Place

/-! ## Labels, shifted -/

/-- A label of the layout, with its address shifted. -/
def shiftLabel (d : Nat) (entry : String × Nat) : String × Nat := (entry.1, shift d entry.2)

theorem lookup_shiftLabel (d : Nat) (name : String) (labels : List (String × Nat)) :
    (labels.map (shiftLabel d)).lookup name = (labels.lookup name).map (shift d) := by
  induction labels with
  | nil => rfl
  | cons entry rest ih =>
    obtain ⟨first, a⟩ := entry
    rw [List.map_cons, shiftLabel, List.lookup_cons, List.lookup_cons]
    by_cases same : name = first
    · simp [same]
    · rw [beq_false_of_ne same]
      exact ih

theorem map_shiftLabel_of_le {d : Nat} {labels : List (String × Nat)}
    (low : ∀ entry ∈ labels, entry.2 ≤ d) : labels.map (shiftLabel d) = labels := by
  refine (List.map_congr_left fun entry mem => ?_).trans (List.map_id labels)
  simp [shiftLabel, shift, low entry mem]

theorem blockLabels_le {a : Nat} {blocks : List Block} {entry : String × Nat}
    (mem : entry ∈ blockLabels a blocks) :
    a ≤ entry.2 ∧ entry.2 ≤ a + (blocks.flatMap (·.code)).length := by
  induction blocks generalizing a with
  | nil => cases mem
  | cons b rest ih =>
    rw [List.flatMap_cons, List.length_append]
    rcases List.mem_cons.mp mem with rfl | mem
    · dsimp only
      omega
    · have := ih mem
      omega

theorem functionLabels_le {a : Nat} {functions : List Function} {entry : String × Nat}
    (mem : entry ∈ functionLabels a functions) :
    a ≤ entry.2 ∧ entry.2 ≤ a + (functions.flatMap (·.code)).length := by
  induction functions generalizing a with
  | nil => cases mem
  | cons f rest ih =>
    rw [List.flatMap_cons, List.length_append]
    rcases List.mem_append.mp mem with mem | mem
    · rcases List.mem_cons.mp mem with rfl | mem
      · dsimp only
        omega
      · have := blockLabels_le mem
        rw [Function.code]
        omega
    · have := ih mem
      rw [Function.size] at this
      omega

theorem blockLabels_shift {d a : Nat} (above : d ≤ a) (blocks : List Block) :
    (blockLabels (a + 1) blocks).map (shiftLabel d) = blockLabels a blocks := by
  induction blocks generalizing a with
  | nil => rfl
  | cons b rest ih =>
    have next : a + 1 + b.code.length = a + b.code.length + 1 := by omega
    have here : shift d (a + 1) = a := by
      unfold shift
      rw [if_neg (by omega)]
      rfl
    rw [blockLabels, List.map_cons, blockLabels, next, ih (by omega), shiftLabel, here]

theorem functionLabels_shift {d a : Nat} (above : d ≤ a) (functions : List Function) :
    (functionLabels (a + 1) functions).map (shiftLabel d) = functionLabels a functions := by
  induction functions generalizing a with
  | nil => rfl
  | cons f rest ih =>
    have next : a + 1 + f.size = a + f.size + 1 := by omega
    have here : shift d (a + 1) = a := by
      unfold shift
      rw [if_neg (by omega)]
      rfl
    rw [functionLabels, List.map_append, List.map_cons, functionLabels, next, ih (by omega),
      blockLabels_shift above, shiftLabel, here]

namespace Place

variable {s : Place} {functions : List Function}

namespace In

/-- The code before and behind the instruction. -/
theorem code_eq (h : s.In functions) : ∃ before behind, before.length = s.address ∧
    functions.flatMap (·.code) = before ++ s.instruction :: behind ∧
    s.without.flatMap (·.code) = before ++ behind := by
  refine ⟨s.before.flatMap (·.code) ++ s.above.flatMap (·.code) ++ s.ahead,
    s.behind ++ s.below.flatMap (·.code) ++ s.after.flatMap (·.code), ?_, ?_, ?_⟩
  · simp [address, start, Nat.add_assoc]
  · simp [h.functions, Function.code, h.blocks, h.code]
  · simp [without, smaller, shorter, Function.code]

theorem smaller_size (h : s.In functions) : s.smaller.size + 1 = s.function.size := by
  simp only [Function.size, Function.code, smaller, shorter, h.blocks, h.code, List.flatMap_append,
    List.flatMap_cons, List.length_append, List.length_cons]
  omega

theorem start_le (h : s.In functions) :
    (s.before.flatMap (·.code)).length + s.function.size =
      s.start + s.block.code.length + (s.below.flatMap (·.code)).length := by
  simp only [Function.size, Function.code, start, h.blocks, List.flatMap_append, List.flatMap_cons,
    List.length_append]
  omega

theorem address_lt (h : s.In functions) : s.address < s.start + s.block.code.length := by
  simp only [address, h.code, List.length_append, List.length_cons]
  omega

/-- Taking out the instruction shifts the layout. -/
theorem functionLabels_without (h : s.In functions) :
    functionLabels 0 s.without = (functionLabels 0 functions).map (shiftLabel s.address) := by
  have size := h.smaller_size
  have start := h.start_le
  have inside := h.address_lt
  have below : s.start + s.block.code.length = s.start + s.shorter.code.length + 1 := by
    simp only [h.code, shorter, List.length_append, List.length_cons]
    omega
  have address : s.address = s.start + s.ahead.length := rfl
  have begin_ : s.start = (s.before.flatMap (·.code)).length + (s.above.flatMap (·.code)).length := rfl
  have before : (functionLabels 0 s.before).map (shiftLabel s.address) = functionLabels 0 s.before :=
    map_shiftLabel_of_le fun entry mem => by
      have := functionLabels_le mem
      omega
  have above : (blockLabels (s.before.flatMap (·.code)).length s.above).map (shiftLabel s.address) =
      blockLabels (s.before.flatMap (·.code)).length s.above :=
    map_shiftLabel_of_le fun entry mem => by
      have := blockLabels_le mem
      omega
  have rest : (s.before.flatMap (·.code)).length + s.function.size =
      (s.before.flatMap (·.code)).length + s.smaller.size + 1 := by omega
  have low : ∀ name a, a ≤ s.address → shiftLabel s.address (name, a) = (name, a) := by
    intro name a le
    simp [shiftLabel, shift, le]
  rw [h.functions, without, functionLabels_append, functionLabels_append, List.map_append, before]
  simp only [Nat.zero_add, functionLabels, List.map_append, List.map_cons]
  rw [rest, functionLabels_shift (by omega), h.blocks, smaller, blockLabels_append, blockLabels_append,
    List.map_append, above, blockLabels, blockLabels, List.map_cons, ← begin_, below,
    blockLabels_shift (by omega), low _ _ (by omega), low _ _ (by omega)]
  rfl

/-- No label leads into the middle of the block. -/
theorem apart (h : s.In functions) {entry : String × Nat} (mem : entry ∈ functionLabels 0 functions) :
    entry.2 ≤ s.start ∨ s.start + s.block.code.length ≤ entry.2 := by
  have size := h.start_le
  have begin_ : s.start = (s.before.flatMap (·.code)).length + (s.above.flatMap (·.code)).length := rfl
  rw [h.functions, functionLabels_append] at mem
  simp only [Nat.zero_add, functionLabels, h.blocks, blockLabels_append, blockLabels] at mem
  rcases List.mem_append.mp mem with mem | mem
  · have := functionLabels_le mem
    omega
  · rcases List.mem_append.mp mem with mem | mem
    · rcases List.mem_cons.mp mem with rfl | mem
      · dsimp only
        omega
      · rcases List.mem_append.mp mem with mem | mem
        · have := blockLabels_le mem
          omega
        · rcases List.mem_cons.mp mem with rfl | mem
          · dsimp only
            omega
          · have := blockLabels_le mem
            omega
    · have := functionLabels_le mem
      omega

/-- The address of the block that follows. -/
theorem next_label (h : s.In functions) {b : Block} {rest : List Block} (below : s.below = b :: rest) :
    (b.name, s.start + s.block.code.length) ∈ functionLabels 0 functions := by
  have begin_ : s.start = (s.before.flatMap (·.code)).length + (s.above.flatMap (·.code)).length := rfl
  rw [h.functions, functionLabels_append]
  simp only [Nat.zero_add, functionLabels, h.blocks, blockLabels_append, blockLabels, below, ← begin_]
  simp

/-- The linked program without the instruction.  Calls have to store for an address what they store for
the shifted one. -/
theorem deletes {p : Program} (h : s.In p.functions) (more : s.address + 1 < p.code.length)
    (model : Model) (policy : Policy) (word : Nat → Word) :
    Deletes s.address (p.linked model policy fun k => word (shift s.address k))
      (Program.linked { p with functions := s.without } model policy word) := by
  have labels : ∀ name, Program.address? { p with functions := s.without } name =
      (p.address? name).map (shift s.address) := by
    intro name
    rw [Program.address?, h.functionLabels_without, lookup_shiftLabel, Program.address?]
  obtain ⟨before, behind, size, code, code'⟩ := h.code_eq
  constructor
  · show s.without.flatMap (·.code) = p.code.eraseIdx s.address
    rw [code', Program.code, code, ← size, List.eraseIdx_append_of_length_le (Nat.le_refl _),
      Nat.sub_self, List.eraseIdx_cons_zero]
  · exact more
  · rfl
  · rfl
  · rfl
  · intro k
    rfl
  · intro pc l
    exact labels l.name
  · intro l
    exact labels l.name

/-- The code of the block begins at its address. -/
theorem getElem? {p : Program} (h : s.In p.functions) {j : Nat} (inside : j < s.block.code.length) :
    p.code[s.start + j]? = s.block.code[j]? := by
  have code : p.code = (s.before.flatMap (·.code) ++ s.above.flatMap (·.code)) ++
      (s.block.code ++ (s.below.flatMap (·.code) ++ s.after.flatMap (·.code))) := by
    simp [Program.code, h.functions, Function.code, h.blocks]
  have size : (s.before.flatMap (·.code) ++ s.above.flatMap (·.code)).length = s.start :=
    List.length_append
  rw [code, List.getElem?_append_right (by omega), List.getElem?_append_left (by omega)]
  congr 1
  omega

/-! ## What is left is linkable -/

theorem mem_code {p : Program} (h : s.In p.functions) {i : Instruction}
    (mem : i ∈ s.without.flatMap (·.code)) : i ∈ p.code := by
  obtain ⟨before, behind, -, code, code'⟩ := h.code_eq
  rw [code'] at mem
  rw [Program.code, code]
  rcases List.mem_append.mp mem with mem | mem
  · exact List.mem_append_left _ mem
  · exact List.mem_append_right _ (List.mem_cons_of_mem _ mem)

theorem smaller_names (h : s.In functions) : s.smaller.names = s.function.names := by
  simp [Function.names, smaller, shorter, h.blocks]

theorem mem_functions {p : Program} (h : s.In p.functions) : s.function ∈ p.functions := by
  rw [h.functions]
  simp

theorem mem_without {p : Program} (h : s.In p.functions) {f : Function} (mem : f ∈ s.without) :
    f = s.smaller ∨ f ∈ p.functions := by
  rw [h.functions]
  rcases List.mem_append.mp mem with mem | mem
  · exact .inr (List.mem_append_left _ mem)
  · rcases List.mem_cons.mp mem with mem | mem
    · exact .inl mem
    · exact .inr (List.mem_append_right _ (List.mem_cons_of_mem _ mem))

theorem mem_smaller_code (h : s.In functions) {i : Instruction} (mem : i ∈ s.smaller.code) :
    i ∈ s.function.code := by
  simp only [Function.code, smaller, shorter, h.blocks, h.code, List.flatMap_append, List.flatMap_cons,
    List.mem_append, List.mem_cons] at mem ⊢
  grind

/-- Something follows the instruction in its function. -/
def Followed (s : Place) : Prop := s.behind ≠ [] ∨ s.below ≠ []

/-- The last instruction of a function is no other than it should be. -/
theorem followed {p : Program} (h : s.In p.functions) (linkable : p.Linkable)
    (other : s.instruction.isPlain = true) : Followed s := by
  refine Classical.byContradiction fun last => ?_
  obtain ⟨behind, below⟩ := not_or.mp last
  rw [Decidable.not_not] at behind below
  obtain ⟨b, i, block, code, kind⟩ := linkable.closed s.function h.mem_functions
  rw [h.blocks, below, List.getLast?_concat] at block
  cases block
  rw [h.code, behind, List.getLast?_concat] at code
  cases code
  rcases kind with e | e | ⟨x, e⟩ <;> rw [e] at other <;> cases other

theorem last_block (h : s.In functions) (followed : Followed s) {b : Block} {i : Instruction}
    (block : s.function.blocks.getLast? = some b) (code : b.code.getLast? = some i) :
    ∃ b', s.smaller.blocks.getLast? = some b' ∧ b'.code.getLast? = some i := by
  rw [h.blocks] at block
  cases below : s.below with
  | cons c rest =>
    rw [below, getLast?_append_cons, List.getLast?_cons_cons] at block
    exact ⟨b, by rw [smaller, below, getLast?_append_cons, List.getLast?_cons_cons, block], code⟩
  | nil =>
    have behind : s.behind ≠ [] := by
      rcases followed with behind | other
      · exact behind
      · exact absurd below other
    rw [below, List.getLast?_concat] at block
    cases block
    refine ⟨s.shorter, by rw [smaller, below, List.getLast?_concat], ?_⟩
    obtain ⟨j, others, eq⟩ := List.exists_cons_of_ne_nil behind
    rw [h.code, eq, getLast?_append_cons, List.getLast?_cons_cons] at code
    rw [shorter, eq, getLast?_append_cons, code]

theorem linkable {p : Program} (h : s.In p.functions) (linkable : p.Linkable) (followed : Followed s) :
    Program.Linkable { p with functions := s.without } where
  names := by
    have same : Program.names { p with functions := s.without } = p.names := by
      simp [Program.names, without, h.functions, h.smaller_names]
    rw [same]
    exact linkable.names
  jumps f mem i code jump x use := by
    rcases h.mem_without mem with rfl | mem
    · obtain ⟨l, label, fresh, b, block, name⟩ :=
        linkable.jumps s.function h.mem_functions i (h.mem_smaller_code code) jump x use
      refine ⟨l, label, fresh, ?_⟩
      have same : s.smaller.blocks.map (·.name) = s.function.blocks.map (·.name) := by
        simp [smaller, shorter, h.blocks]
      have : l.name ∈ s.smaller.blocks.map (·.name) := by
        rw [same, ← name]
        exact List.mem_map_of_mem block
      exact List.mem_map.mp this
    · exact linkable.jumps f mem i code jump x use
  calls x mem := by
    obtain ⟨l, label, f, function, name⟩ := linkable.calls x (h.mem_code mem)
    refine ⟨l, label, ?_⟩
    have same : s.without.map (·.name) = p.functions.map (·.name) := by
      simp [without, smaller, h.functions]
    have : l.name ∈ s.without.map (·.name) := by
      rw [same, ← name]
      exact List.mem_map_of_mem function
    exact List.mem_map.mp this
  labels i mem := linkable.labels i (h.mem_code mem)
  base i mem := linkable.base i (h.mem_code mem)
  closed f mem := by
    rcases h.mem_without mem with rfl | mem
    · obtain ⟨b, i, block, code, kind⟩ := linkable.closed s.function h.mem_functions
      obtain ⟨b', block', code'⟩ := h.last_block followed block code
      exact ⟨b', i, block', code', kind⟩
    · exact linkable.closed f mem

/-- There is more code behind the instruction. -/
theorem more {p : Program} (h : s.In p.functions) (linkable : p.Linkable) (followed : Followed s) :
    s.address + 1 < p.code.length := by
  have total : s.start + s.block.code.length + (s.below.flatMap (·.code)).length ≤ p.code.length := by
    simp only [Program.code, h.functions, Function.code, h.blocks, start, List.flatMap_append,
      List.flatMap_cons, List.length_append]
    omega
  have size : s.block.code.length = s.ahead.length + 1 + s.behind.length := by
    rw [h.code, List.length_append, List.length_cons]
    omega
  have address : s.address = s.start + s.ahead.length := rfl
  rcases followed with behind | below
  · have := List.length_pos_iff.mpr behind
    omega
  · obtain ⟨b, i, block, code, -⟩ := linkable.closed s.function h.mem_functions
    obtain ⟨c, rest, eq⟩ := List.exists_cons_of_ne_nil below
    have mem : b ∈ s.below := by
      rw [h.blocks, eq, getLast?_append_cons, List.getLast?_cons_cons] at block
      rw [eq]
      exact List.mem_of_getLast? block
    have : i ∈ s.below.flatMap (·.code) := List.mem_flatMap.mpr ⟨b, mem, List.mem_of_getLast? code⟩
    have := List.length_pos_of_mem this
    omega

end In

end Place

end Codegen86.Peephole
