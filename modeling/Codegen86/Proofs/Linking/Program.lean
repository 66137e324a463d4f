import Codegen86.Proofs.Linking.Layout
import Codegen86.Proofs.Machine.Loaded
/-!
# Linking programs

A program whose labels are used as the machine asks (`Program.Linkable`) is laid out and patched, and a
machine that loads the result holds the linked program (`Program.Linkable.assemble`).
-/

set_option autoImplicit false

namespace Codegen86.Target

open Symbolic Machine

/-- What linking asks of a program: no name occurs twice; a jump has a label without an address that names
a block of its function, a call a label that names a function, and other operands are no labels; memory is
accessed relative to the base pointer; and a function ends with an instruction that does not go on. -/
structure Program.Linkable (p : Program) : Prop where
  names : p.names.Nodup
  jumps : ∀ f ∈ p.functions, ∀ i ∈ f.code, i.isJump = true → ∀ x ∈ i.operands,
    ∃ l, p.pool.get x = .label l ∧ l.address = none ∧ ∃ b ∈ f.blocks, b.name = l.name
  calls : ∀ x, .call x ∈ p.code → ∃ l, p.pool.get x = .label l ∧ ∃ f ∈ p.functions, f.name = l.name
  labels : ∀ i ∈ p.code, i.isPlain = true → ∀ x ∈ i.operands, ∀ l, p.pool.get x ≠ .label l
  base : ∀ i ∈ p.code, ∀ x ∈ i.operands, ∀ base offset, p.pool.get x = .mem base offset →
    base = .basePointer
  closed : ∀ f ∈ p.functions, ∃ b i, f.blocks.getLast? = some b ∧ b.code.getLast? = some i ∧
    (i = .ret ∨ i = .halt ∨ ∃ x, i = .jump x)

/-- The address of a name. -/
def Program.address? (p : Program) (name : String) : Option Nat :=
  (functionLabels 0 p.functions).lookup name

/-- The layout of a program whose names are distinct. -/
def Program.layout (p : Program) : Layout := { labels := functionLabels 0 p.functions, size := p.size }

/-- The linked program, with functions in the order in which they are. -/
def Program.linked (p : Program) (model : Model) (policy : Policy) (word : Nat → Word) : Linked :=
  { code := p.code
    pool := p.pool
    jumps := fun _ l => p.address? l.name
    calls := fun l => p.address? l.name
    model
    policy
    word }

theorem getLast?_append_cons {α : Type} (before : List α) (a : α) (rest : List α) :
    (before ++ a :: rest).getLast? = (a :: rest).getLast? := by
  rw [List.getLast?_append, List.getLast?_cons]
  rfl

/-! ## Addresses lie in the code -/

/-- The last instruction of a function is that of its last block. -/
theorem getLast?_code {f : Function} {b : Block} {i : Instruction} (last : f.blocks.getLast? = some b)
    (code : b.code.getLast? = some i) : f.code.getLast? = some i := by
  obtain ⟨above, blocks⟩ := List.getLast?_eq_some_iff.mp last
  rw [Function.code, blocks, List.flatMap_append, List.flatMap_singleton, List.getLast?_append, code]
  rfl

/-- The code of a linked program at a place of a function. -/
theorem getElem?_code {p : Program} {before after : List Function} {f : Function} {ahead behind : List Instruction} {i : Instruction}
    (functions : p.functions = before ++ f :: after)
    (code : f.code = ahead ++ i :: behind) :
    p.code[(before.flatMap (·.code)).length + ahead.length]? = some i := by
  have split : p.code = (before.flatMap (·.code) ++ ahead) ++
      i :: (behind ++ after.flatMap (·.code)) := by
    simp [Program.code, functions, code]
  rw [split, ← List.length_append, List.getElem?_append_right (Nat.le_refl _), Nat.sub_self]
  rfl

theorem blockLabels_bounds {a : Nat} {blocks : List Block} {b : Block}
    (last : blocks.getLast? = some b) (full : b.code ≠ []) {entry : String × Nat}
    (mem : entry ∈ blockLabels a blocks) :
    a ≤ entry.2 ∧ entry.2 < a + (blocks.flatMap (·.code)).length := by
  induction blocks generalizing a entry with
  | nil => cases mem
  | cons c rest ih =>
    cases rest with
    | nil =>
      obtain rfl : c = b := Option.some.inj last
      obtain rfl : entry = (c.name, a) := by simpa [blockLabels] using mem
      have := List.length_pos_iff.mpr full
      simp only [List.flatMap_cons, List.flatMap_nil, List.append_nil]
      omega
    | cons d rest =>
      have last : (d :: rest).getLast? = some b := by simpa using last
      rw [List.flatMap_cons, List.length_append]
      rcases List.mem_cons.mp mem with rfl | mem
      · have next : (d.name, a + c.code.length) ∈ blockLabels (a + c.code.length) (d :: rest) :=
          List.mem_cons_self
        have := (ih last next).2
        dsimp only at this ⊢
        omega
      · have := ih last mem
        omega

/-- A function with instructions at its end takes up the addresses of its names. -/
theorem functionLabels_bounds {a : Nat} {functions : List Function}
    (closed : ∀ f ∈ functions, ∃ b, f.blocks.getLast? = some b ∧ b.code ≠ [])
    {entry : String × Nat} (mem : entry ∈ functionLabels a functions) :
    a ≤ entry.2 ∧ entry.2 < a + (functions.flatMap (·.code)).length := by
  induction functions generalizing a with
  | nil => cases mem
  | cons f rest ih =>
    obtain ⟨b, last, full⟩ := closed f List.mem_cons_self
    have size : f.size = (f.blocks.flatMap (·.code)).length := rfl
    rw [List.flatMap_cons, List.length_append]
    rcases List.mem_append.mp mem with mem | mem
    · rcases List.mem_cons.mp mem with rfl | mem
      · have first : ∃ c others, f.blocks = c :: others := by
          cases same : f.blocks with
          | nil => simp [same] at last
          | cons c others => exact ⟨c, others, rfl⟩
        obtain ⟨c, others, same⟩ := first
        have : (c.name, a) ∈ blockLabels a f.blocks := by rw [same]; exact List.mem_cons_self
        have := (blockLabels_bounds last full this).2
        dsimp only [Function.code] at this ⊢
        omega
      · have := blockLabels_bounds last full mem
        dsimp only [Function.code]
        omega
    · have := ih (fun g mem => closed g (List.mem_cons_of_mem _ mem)) mem
      dsimp only [Function.code, Function.size] at this ⊢
      omega

/-- The entry function comes first. -/
theorem Program.placeEntryFirst_head {p q : Program} (h : q.placeEntryFirst = .ok p) :
    p.entry = q.entry ∧
      ∀ name, p.entry = some name → ∃ f rest, p.functions = f :: rest ∧ f.name = name := by
  unfold placeEntryFirst at h
  split at h
  · rename_i none
    cases h
    exact ⟨rfl, fun name some => by rw [none] at some; cases some⟩
  · rename_i name entry
    split at h
    · cases h
    · rename_i f found
      cases h
      refine ⟨rfl, fun name' same => ?_⟩
      obtain rfl : name = name' := Option.some.inj (entry.symm.trans same)
      exact ⟨f, _, rfl, by simpa using List.find?_some found⟩

namespace Program.Linkable

variable {p : Program}

theorem full (h : p.Linkable) {f : Function} (mem : f ∈ p.functions) :
    ∃ b, f.blocks.getLast? = some b ∧ b.code ≠ [] := by
  obtain ⟨b, i, last, code, -⟩ := h.closed f mem
  refine ⟨b, last, fun empty => ?_⟩
  rw [empty] at code
  cases code

/-- A name of the program has an address in its code. -/
theorem address (h : p.Linkable) {name : String} (mem : name ∈ p.names) :
    ∃ a, p.address? name = some a ∧ a < p.code.length := by
  have known : (p.address? name).isSome = true := by
    rw [Program.address?, lookup_isSome, functionLabels_names]
    exact mem
  obtain ⟨a, found⟩ := Option.isSome_iff_exists.mp known
  have bounds := functionLabels_bounds (fun f => h.full) (mem_of_lookup found)
  exact ⟨a, found, by simpa [Program.code] using bounds.2⟩

theorem block_name {f : Function} (mem : f ∈ p.functions) {b : Block} (block : b ∈ f.blocks) :
    b.name ∈ p.names :=
  List.mem_flatMap.mpr ⟨f, mem, List.mem_cons_of_mem _ (List.mem_map_of_mem block)⟩

theorem function_name {f : Function} (mem : f ∈ p.functions) : f.name ∈ p.names :=
  List.mem_flatMap.mpr ⟨f, mem, List.mem_cons_self⟩

/-- The label of a jump or call names something in the program. -/
theorem destination (h : p.Linkable) {i : Instruction} (mem : i ∈ p.code) {x : OperandRef}
    (dest : i.destination? = some x) : ∃ l, p.pool.get x = .label l ∧ l.name ∈ p.names := by
  obtain ⟨f, function, code⟩ := List.mem_flatMap.mp mem
  have jump : i.isJump = true → ∃ l, p.pool.get x = .label l ∧ l.name ∈ p.names := by
    intro jump
    have use : x ∈ i.operands := by
      cases i <;> simp_all [Instruction.destination?, Instruction.operands]
    obtain ⟨l, found, -, b, block, same⟩ := h.jumps f function i code jump x use
    exact ⟨l, found, same ▸ block_name function block⟩
  cases i with
  | jump y => exact jump rfl
  | jumpIf condition y => exact jump rfl
  | call y =>
    cases dest
    obtain ⟨l, found, g, function, same⟩ := h.calls x mem
    exact ⟨l, found, same ▸ function_name function⟩
  | _ => cases dest

/-- A linkable program is assembled: its jumps and calls get their addresses, and nothing else changes. -/
theorem assembles (h : p.Linkable) {q : Program} (placed : q.placeEntryFirst = .ok p) :
    ∃ pool, q.assemble = .ok ({ p with pool }, layout p) ∧ ∀ x, pool.get x =
      if x ∈ p.code.filterMap Instruction.destination? then p.layout.resolve (p.pool.get x)
      else p.pool.get x := by
  have laid : Layout.ofProgram p = .ok p.layout := Layout.ofProgram_iff.mpr ⟨h.names, rfl⟩
  have known : ∀ name ∈ (p.code.filterMap Instruction.destination?).filterMap (Layout.target? p.pool),
      (p.layout.address? name).isSome = true := by
    intro name mem
    obtain ⟨x, listed, target⟩ := List.mem_filterMap.mp mem
    obtain ⟨l, found, rfl⟩ := Layout.target?_eq_some.mp target
    obtain ⟨i, code, dest⟩ := List.mem_filterMap.mp listed
    obtain ⟨l', found', inside⟩ := h.destination code dest
    obtain rfl : l = l' := Operand.label.inj (found.symm.trans found')
    obtain ⟨a, address, -⟩ := h.address inside
    rw [show p.layout.address? l.name = some a from address]
    rfl
  obtain ⟨pool, patched, -, get⟩ := p.layout.patch_ok _ known
  refine ⟨pool, ?_, get⟩
  simp [Program.assemble, placed, laid, Layout.patch, patched, bind, Except.bind, pure, Except.pure]

/-- A machine that has loaded a program holds the linked program, and starts at its beginning. -/
theorem assemble (h : p.Linkable) (small : p.size < 2 ^ 63) {q : Program}
    (placed : q.placeEntryFirst = .ok p) :
    ∃ p' layout, q.assemble = .ok (p', layout) ∧ (load p' layout).entry = 0 ∧
      ∀ words limit policy word,
        Loaded (p.linked (.machine words false) policy word) { load p' layout with words, limit } := by
  obtain ⟨pool, assembled, get⟩ := h.assembles placed
  refine ⟨{ p with pool }, p.layout, assembled, ?_, fun words limit policy word => ?_⟩
  · obtain ⟨-, first⟩ := Program.placeEntryFirst_head placed
    cases entry : p.entry with
    | none => simp [load]
    | some name =>
      obtain ⟨f, rest, functions, same⟩ := first name entry
      have : p.layout.address? name = some 0 := by
        simp [layout, Layout.address?, functions, functionLabels, same]
      simp [load, this]
  · -- the patched operand of a jump or call holds the address that the linked program looks up
    have resolved : ∀ i ∈ p.code, ∀ x, i.destination? = some x → ∃ l a, p.pool.get x = .label l ∧
        pool.get x = .label { l with address := some a } ∧ p.address? l.name = some a ∧
        a < p.code.length := by
      intro i mem x dest
      obtain ⟨l, found, name⟩ := h.destination mem dest
      obtain ⟨a, address, inside⟩ := h.address name
      refine ⟨l, a, found, ?_, address, inside⟩
      rw [get, if_pos (List.mem_filterMap.mpr ⟨i, mem, dest⟩), found, Layout.resolve,
        show p.layout.address? l.name = some a from address]
    constructor
    · rfl
    · exact small
    · rfl
    · intro i mem plain x use
      dsimp only [load, linked]
      rw [get]
      split
      · cases found : p.pool.get x with
        | label l => exact absurd found (h.labels i mem plain x use l)
        | _ => rfl
      · rfl
    · intro pc x i here jump
      have mem : i ∈ p.code := List.mem_of_getElem? here
      obtain ⟨l, a, found, shown, address, inside⟩ := resolved i mem x (by
        rcases jump with rfl | ⟨condition, rfl⟩ <;> rfl)
      refine ⟨_, a, shown, rfl, ?_⟩
      simp [Linked.jumpTarget, Linked.inside, linked, found, Operand.label?, address, inside]
    · intro x mem
      obtain ⟨l, a, found, shown, address, inside⟩ := resolved _ mem x rfl
      refine ⟨_, a, shown, rfl, ?_⟩
      simp [Linked.callTarget, Linked.inside, linked, found, Operand.label?, address, inside]

end Program.Linkable

end Codegen86.Target
