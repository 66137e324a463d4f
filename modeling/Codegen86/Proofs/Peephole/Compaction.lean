import Codegen86.Peephole.Optimize
import Codegen86.Proofs.Linking.Program
import Codegen86.Proofs.Peephole.Applied
/-!
# Removing empty blocks

Empty blocks have no instructions, so removing them moves nothing, and the block that stands in for a
removed one has its address.  With labels renamed, the linked program stays the same
(`Compacts.same`).
-/

set_option autoImplicit false

namespace Codegen86.Peephole

open Target Symbolic

theorem compact_code (blocks : List Block) :
    (compact blocks).1.flatMap (·.code) = blocks.flatMap (·.code) := by
  induction blocks with
  | nil => rfl
  | cons b rest ih =>
    unfold compact
    split
    · rename_i renamed eq
      simp only [eq, List.flatMap_nil] at ih
      simp [← ih]
    · rename_i next kept renamed eq
      simp only [eq] at ih
      split
      · rename_i empty
        simp [List.isEmpty_iff.mp empty, ← ih]
      · simp [← ih]

theorem compact_last (blocks : List Block) : (compact blocks).1.getLast? = blocks.getLast? := by
  induction blocks with
  | nil => rfl
  | cons b rest ih =>
    unfold compact
    split
    · rename_i renamed eq
      rw [eq] at ih
      cases rest with
      | nil => rfl
      | cons c others =>
        rw [List.getLast?_cons] at ih
        cases ih
    · rename_i next kept renamed eq
      rw [eq] at ih
      cases rest with
      | nil => simp [compact] at eq
      | cons c others =>
        rw [List.getLast?_cons_cons, ← ih]
        split
        · rfl
        · rw [List.getLast?_cons_cons]

/-- Blocks that are kept stay where they are. -/
theorem compact_labels (a : Nat) (blocks : List Block) :
    (blockLabels a (compact blocks).1).Sublist (blockLabels a blocks) := by
  induction blocks generalizing a with
  | nil => exact .slnil
  | cons b rest ih =>
    have below := ih (a + b.code.length)
    rw [blockLabels]
    unfold compact
    split
    · rename_i renamed eq
      exact .cons_cons _ (List.nil_sublist _)
    · rename_i next kept renamed eq
      rw [eq] at below
      split
      · rename_i empty
        rw [List.isEmpty_iff.mp empty] at below ⊢
        exact .cons _ below
      · exact .cons_cons _ below

/-- A block that is removed and the one that stands in for it are at the same address. -/
theorem compact_renamed {a : Nat} {blocks : List Block} {name new : String}
    (mem : (name, new) ∈ (compact blocks).2) :
    ∃ at_, (name, at_) ∈ blockLabels a blocks ∧ (new, at_) ∈ blockLabels a (compact blocks).1 := by
  induction blocks generalizing a with
  | nil => cases mem
  | cons b rest ih =>
    unfold compact at mem ⊢
    split at mem
    · rename_i renamed eq
      cases rest with
      | nil =>
        cases eq
        cases mem
      | cons c others =>
        have last := compact_last (c :: others)
        rw [eq, List.getLast?_cons] at last
        cases last
    · rename_i next kept renamed eq
      simp only [eq] at ih mem ⊢
      split
      · rename_i empty
        rw [if_pos empty] at mem
        rcases List.mem_cons.mp mem with e | mem
        · cases e
          exact ⟨a, List.mem_cons_self, List.mem_cons_self⟩
        · obtain ⟨at_, old, new⟩ := ih (a := a) mem
          refine ⟨at_, List.mem_cons_of_mem _ ?_, new⟩
          rw [List.isEmpty_iff.mp empty]
          exact old
      · rename_i full
        rw [if_neg full] at mem
        obtain ⟨at_, old, new⟩ := ih (a := a + b.code.length) mem
        exact ⟨at_, List.mem_cons_of_mem _ old, List.mem_cons_of_mem _ new⟩

/-- Every block is kept or removed. -/
theorem compact_names (blocks : List Block) :
    ((compact blocks).1.map (·.name) ++ (compact blocks).2.map (·.1)).Perm (blocks.map (·.name)) := by
  induction blocks with
  | nil => exact .nil
  | cons b rest ih =>
    unfold compact
    split
    · rename_i renamed eq
      rw [eq] at ih
      exact ih.cons b.name
    · rename_i next kept renamed eq
      rw [eq] at ih
      split
      · exact List.perm_middle.trans (ih.cons b.name)
      · exact ih.cons b.name

/-! ## Labels of removed blocks -/

/-- The operand with the label renamed. -/
def renameOperand (renamed : List (String × String)) : Operand → Operand
  | .label l =>
    match renamed.lookup l.name with
    | some name => .symbol name
    | none => .label l
  | o => o

theorem get_renameRef (renamed : List (String × String)) (pool : Pool) (x y : OperandRef) :
    (renameRef renamed pool x).get y =
      if y = x then renameOperand renamed (pool.get y) else pool.get y := by
  unfold renameRef
  cases found : pool.get x with
  | label l =>
    dsimp only
    cases look : renamed.lookup l.name with
    | none =>
      by_cases same : y = x
      · rw [if_pos same, same, found]
        simp only [renameOperand, look]
      · rw [if_neg same]
    | some name =>
      dsimp only
      rw [Pool.get_set _ _ _ (Layout.inPool_of_label found)]
      by_cases same : y = x
      · rw [if_pos same, if_pos same, same, found]
        simp only [renameOperand, look]
      · rw [if_neg same, if_neg same]
  | _ =>
    by_cases same : y = x
    · rw [if_pos same, same, found]
      rfl
    · rw [if_neg same]

/-- Renaming all labels renames each once, if no block that stands in is removed itself. -/
theorem get_renameAll {renamed : List (String × String)} (refs : List OperandRef) (pool : Pool)
    (stays : ∀ name new, renamed.lookup name = some new → renamed.lookup new = none) (y : OperandRef) :
    (refs.foldl (renameRef renamed) pool).get y =
      if y ∈ refs then renameOperand renamed (pool.get y) else pool.get y := by
  have once : ∀ o, renameOperand renamed (renameOperand renamed o) = renameOperand renamed o := by
    intro o
    cases o with
    | label l =>
      cases found : renamed.lookup l.name with
      | none => simp only [renameOperand, found]
      | some name => simp only [renameOperand, found, Operand.symbol, stays l.name name found]
    | _ => rfl
  induction refs generalizing pool with
  | nil => rfl
  | cons x rest ih =>
    rw [List.foldl_cons, ih, get_renameRef]
    by_cases same : y = x
    · subst same
      by_cases again : y ∈ rest <;> simp [again, once]
    · simp [same]

/-! ## Removing the empty blocks of a function -/

/-- The function without empty blocks. -/
def compacted (f : Function) : Function := { f with blocks := (compact f.blocks).1 }

/-- `p'` is `p` with the empty blocks of one function removed. -/
inductive Compacts (p : Program) : Program → Prop
  | intro {before after : List Function} {f : Function} (functions : p.functions = before ++ f :: after) :
      Compacts p { p with
        functions := before ++ compacted f :: after
        pool := renameLabels (compact f.blocks).2 p.pool (compact f.blocks).1 }

section

variable {p : Program} {before after : List Function} {f : Function}

theorem compacted_code (f : Function) : (compacted f).code = f.code := compact_code f.blocks

/-- Two functions that share a name are the same. -/
theorem eq_of_shared (linkable : p.Linkable) (functions : p.functions = before ++ f :: after)
    {g : Function} (mem : g ∈ p.functions) {name : String} (one : name ∈ g.names)
    (two : name ∈ f.names) : g = f := by
  have distinct := linkable.names
  rw [Program.names, functions, List.flatMap_append, List.flatMap_cons] at distinct
  obtain ⟨-, rest, apart⟩ := List.nodup_append.mp distinct
  obtain ⟨-, -, apart'⟩ := List.nodup_append.mp rest
  rw [functions] at mem
  rcases List.mem_append.mp mem with mem | mem
  · exact absurd rfl (apart name (List.mem_flatMap.mpr ⟨g, mem, one⟩) name (List.mem_append_left _ two))
  · rcases List.mem_cons.mp mem with same | mem
    · exact same
    · exact absurd rfl (apart' name two name (List.mem_flatMap.mpr ⟨g, mem, one⟩))

theorem function_distinct (linkable : p.Linkable) (mem : f ∈ p.functions) : f.names.Nodup := by
  obtain ⟨before, after, functions⟩ := List.append_of_mem mem
  have distinct := linkable.names
  rw [Program.names, functions, List.flatMap_append, List.flatMap_cons] at distinct
  exact (List.nodup_append.mp (List.nodup_append.mp distinct).2.1).1

/-- Kept blocks are not removed. -/
theorem kept_or_removed (distinct : (f.blocks.map (·.name)).Nodup) {name : String}
    (kept : name ∈ (compact f.blocks).1.map (·.name)) : name ∉ (compact f.blocks).2.map (·.1) := by
  intro removed
  have both := (compact_names f.blocks).nodup_iff.mpr distinct
  exact (List.nodup_append.mp both).2.2 name kept name removed rfl

/-- Blocks that stand in are kept. -/
theorem stands_in {name new : String} (h : (compact f.blocks).2.lookup name = some new) :
    name ∈ f.blocks.map (·.name) ∧ new ∈ (compact f.blocks).1.map (·.name) := by
  obtain ⟨a, old, at_⟩ := compact_renamed (a := 0) (mem_of_lookup h)
  have old := List.mem_map_of_mem (f := (·.1)) old
  have at_ := List.mem_map_of_mem (f := (·.1)) at_
  rw [blockLabels_names] at old at_
  exact ⟨old, at_⟩

/-- The operands after renaming. -/
theorem get_renameLabels (distinct : (f.blocks.map (·.name)).Nodup) (pool : Pool) (x : OperandRef) :
    (renameLabels (compact f.blocks).2 pool (compact f.blocks).1).get x =
      if x ∈ f.code.filterMap Instruction.destination? then
        renameOperand (compact f.blocks).2 (pool.get x)
      else pool.get x := by
  rw [renameLabels, compact_code]
  refine get_renameAll _ pool (fun name new found => ?_) x
  exact lookup_eq_none.mpr (kept_or_removed distinct (stands_in found).2)

/-- The program without the empty blocks of `f`. -/
def compactedProgram (p : Program) (before after : List Function) (f : Function) : Program :=
  { p with
    functions := before ++ compacted f :: after
    pool := renameLabels (compact f.blocks).2 p.pool (compact f.blocks).1 }

theorem compactedProgram_code (functions : p.functions = before ++ f :: after) :
    (compactedProgram p before after f).code = p.code := by
  simp [Program.code, compactedProgram, functions, compacted_code]

theorem compactedProgram_labels (functions : p.functions = before ++ f :: after) :
    (functionLabels 0 (compactedProgram p before after f).functions).Sublist
      (functionLabels 0 p.functions) := by
  rw [functions, compactedProgram, functionLabels_append, functionLabels_append, functionLabels,
    functionLabels, Function.size, compacted_code]
  exact (List.Sublist.refl _).append ((.cons_cons _ ((compact_labels _ f.blocks).append (.refl _))))

theorem compactedProgram_names (functions : p.functions = before ++ f :: after) :
    (compactedProgram p before after f).names.Sublist p.names := by
  have labels := (compactedProgram_labels functions).map (·.1)
  rwa [functionLabels_names, functionLabels_names] at labels

/-- Names that are left keep their addresses. -/
theorem compactedProgram_address (distinct : p.names.Nodup)
    (functions : p.functions = before ++ f :: after) {name : String} {a : Nat}
    (mem : (name, a) ∈ functionLabels 0 (compactedProgram p before after f).functions) :
    (compactedProgram p before after f).address? name = some a ∧ p.address? name = some a := by
  refine ⟨lookup_of_mem ?_ mem, lookup_of_mem ?_ ((compactedProgram_labels functions).subset mem)⟩
  · rw [functionLabels_names]
    exact (compactedProgram_names functions).nodup distinct
  · rw [functionLabels_names]
    exact distinct

theorem compactedProgram_address_of_name (distinct : p.names.Nodup)
    (functions : p.functions = before ++ f :: after) {name : String}
    (mem : name ∈ (compactedProgram p before after f).names) :
    (compactedProgram p before after f).address? name = p.address? name := by
  rw [Program.names, ← functionLabels_names 0] at mem
  obtain ⟨⟨same, a⟩, entry, rfl⟩ := List.mem_map.mp mem
  obtain ⟨new, old⟩ := compactedProgram_address distinct functions entry
  rw [new, old]

/-- The block that stands in for a removed one has its address. -/
theorem compactedProgram_stand_in (distinct : p.names.Nodup)
    (functions : p.functions = before ++ f :: after) {name new : String}
    (renamed : (compact f.blocks).2.lookup name = some new) :
    (compactedProgram p before after f).address? new = p.address? name := by
  obtain ⟨a, old, at_⟩ :=
    compact_renamed (a := 0 + (before.flatMap (·.code)).length) (mem_of_lookup renamed)
  have mem : (new, a) ∈ functionLabels 0 (compactedProgram p before after f).functions := by
    rw [compactedProgram, functionLabels_append, functionLabels, compacted]
    exact List.mem_append_right _ (List.mem_append_left _ (List.mem_cons_of_mem _ at_))
  have mem' : (name, a) ∈ functionLabels 0 p.functions := by
    rw [functions, functionLabels_append, functionLabels]
    exact List.mem_append_right _ (List.mem_append_left _ (List.mem_cons_of_mem _ old))
  rw [(compactedProgram_address distinct functions mem).1]
  refine (lookup_of_mem ?_ mem').symm
  rw [functionLabels_names]
  exact distinct

/-- A name that is not removed is left. -/
theorem left_of_not_removed (functions : p.functions = before ++ f :: after) {name : String}
    (mem : name ∈ p.names) (kept : (compact f.blocks).2.lookup name = none) :
    name ∈ (compactedProgram p before after f).names := by
  rw [Program.names, functions, List.flatMap_append, List.flatMap_cons] at mem
  rw [Program.names, compactedProgram, List.flatMap_append, List.flatMap_cons]
  rcases List.mem_append.mp mem with mem | mem
  · exact List.mem_append_left _ mem
  · rcases List.mem_append.mp mem with mem | mem
    · refine List.mem_append_right _ (List.mem_append_left _ ?_)
      rcases List.mem_cons.mp mem with rfl | mem
      · exact List.mem_cons_self
      · refine List.mem_cons_of_mem _ ?_
        rcases List.mem_append.mp ((compact_names f.blocks).mem_iff.mpr mem) with here | removed
        · exact here
        · rw [← lookup_isSome, kept] at removed
          cases removed
    · exact List.mem_append_right _ (List.mem_append_right _ mem)

/-- A label of a jump or call after renaming: it is as it was and names something that is left, or it is
the one of a jump of `f` and names the block that stands in. -/
theorem compactedProgram_label (linkable : p.Linkable) (functions : p.functions = before ++ f :: after)
    {g : Function} (mem : g ∈ p.functions) {i : Instruction} (code : i ∈ g.code) {x : OperandRef}
    (dest : i.destination? = some x) {l : Label} (label : p.pool.get x = .label l) :
    ((compact f.blocks).2.lookup l.name = none ∧
      (compactedProgram p before after f).pool.get x = .label l) ∨
    (i.isJump = true ∧ g = f ∧ ∃ new, (compact f.blocks).2.lookup l.name = some new ∧
      (compactedProgram p before after f).pool.get x = .symbol new) := by
  have here : f ∈ p.functions := by simp [functions]
  have distinct := function_distinct linkable here
  have get := get_renameLabels (List.nodup_cons.mp distinct).2 p.pool x
  cases look : (compact f.blocks).2.lookup l.name with
  | none =>
    refine .inl ⟨rfl, get.trans ?_⟩
    rw [label]
    simp only [renameOperand, look, ite_self]
  | some new =>
    have removed := (stands_in look).1
    have block : l.name ∈ f.names := List.mem_cons_of_mem _ removed
    have jump : i.isJump = true := by
      cases i with
      | jump y => rfl
      | jumpIf condition y => rfl
      | call y =>
        cases dest
        obtain ⟨l', label', h, function, name⟩ :=
          linkable.calls x (List.mem_flatMap.mpr ⟨g, mem, code⟩)
        cases label.symm.trans label'
        have same : h = f :=
          eq_of_shared linkable functions function (name ▸ List.mem_cons_self) block
        subst same
        rw [← name] at removed
        exact absurd removed (List.nodup_cons.mp distinct).1
      | _ => cases dest
    have use : x ∈ i.operands := by
      cases i <;> simp_all [Instruction.destination?, Instruction.operands]
    obtain ⟨l', label', -, b, inside, name⟩ := linkable.jumps g mem i code jump x use
    cases label.symm.trans label'
    have same : g = f :=
      eq_of_shared linkable functions mem
        (List.mem_cons_of_mem _ (name ▸ List.mem_map_of_mem inside)) block
    subst same
    refine .inr ⟨jump, rfl, new, rfl, get.trans ?_⟩
    rw [if_pos (List.mem_filterMap.mpr ⟨i, code, dest⟩), label]
    simp only [renameOperand, look]

/-- Labels lead where they led. -/
theorem compactedProgram_target (linkable : p.Linkable) (functions : p.functions = before ++ f :: after)
    {i : Instruction} (code : i ∈ p.code) {x : OperandRef} (dest : i.destination? = some x) :
    ((compactedProgram p before after f).pool.get x).label?.bind
        (fun l => (compactedProgram p before after f).address? l.name) =
      (p.pool.get x).label?.bind fun l => p.address? l.name := by
  obtain ⟨g, mem, code'⟩ := List.mem_flatMap.mp code
  obtain ⟨l, label, name⟩ := linkable.destination code dest
  rcases compactedProgram_label linkable functions mem code' dest label with
    ⟨kept, same⟩ | ⟨-, -, new, renamed, same⟩
  · rw [same, label]
    exact compactedProgram_address_of_name linkable.names functions (left_of_not_removed functions name kept)
  · rw [same, label]
    exact compactedProgram_stand_in linkable.names functions renamed

/-- The linked program is the same. -/
theorem compactedProgram_same (linkable : p.Linkable) (functions : p.functions = before ++ f :: after)
    (model : Model) (policy : Policy) (word : Nat → Word) :
    Linked.Same (p.linked model policy word)
      ((compactedProgram p before after f).linked model policy word) where
  code := compactedProgram_code functions
  model := rfl
  policy := rfl
  word := rfl
  operands i mem plain x use := by
    have distinct := function_distinct (f := f) linkable (by simp [functions])
    refine (get_renameLabels (List.nodup_cons.mp distinct).2 p.pool x).trans ?_
    split
    · show renameOperand (compact f.blocks).2 (p.pool.get x) = p.pool.get x
      cases found : p.pool.get x with
      | label l => exact absurd found (linkable.labels i mem plain x use l)
      | _ => rfl
    · rfl
  jumps pc x i here jump := by
    have mem : i ∈ p.code := List.mem_of_getElem? here
    have dest : i.destination? = some x := by rcases jump with rfl | ⟨condition, rfl⟩ <;> rfl
    have target := compactedProgram_target linkable functions mem dest
    show Linked.inside _ _ = Linked.inside _ _
    simp only [Linked.inside, Program.linked, compactedProgram_code functions]
    exact congrArg _ target
  calls x mem := by
    have target := compactedProgram_target linkable functions mem rfl
    show Linked.inside _ _ = Linked.inside _ _
    simp only [Linked.inside, Program.linked, compactedProgram_code functions]
    exact congrArg _ target

/-! ## What is left is linkable -/

theorem not_beside (linkable : p.Linkable) (functions : p.functions = before ++ f :: after) :
    f ∉ before ∧ f ∉ after := by
  have distinct := linkable.names
  have self : f.name ∈ f.names := List.mem_cons_self
  rw [Program.names, functions, List.flatMap_append, List.flatMap_cons] at distinct
  obtain ⟨-, rest, apart⟩ := List.nodup_append.mp distinct
  obtain ⟨-, -, apart'⟩ := List.nodup_append.mp rest
  refine ⟨fun mem => ?_, fun mem => ?_⟩
  · exact apart f.name (List.mem_flatMap.mpr ⟨f, mem, self⟩) f.name (List.mem_append_left _ self) rfl
  · exact apart' f.name self f.name (List.mem_flatMap.mpr ⟨f, mem, self⟩) rfl

/-- A function is the one without empty blocks, or another one as it was. -/
theorem mem_compactedProgram (linkable : p.Linkable) (functions : p.functions = before ++ f :: after)
    {g : Function} (mem : g ∈ (compactedProgram p before after f).functions) :
    g = compacted f ∨ g ∈ p.functions ∧ g ≠ f := by
  obtain ⟨notBefore, notAfter⟩ := not_beside linkable functions
  rw [functions]
  rcases List.mem_append.mp mem with mem | mem
  · exact .inr ⟨List.mem_append_left _ mem, fun e => notBefore (e ▸ mem)⟩
  · rcases List.mem_cons.mp mem with same | mem
    · exact .inl same
    · exact .inr ⟨List.mem_append_right _ (List.mem_cons_of_mem _ mem), fun e => notAfter (e ▸ mem)⟩

theorem renameOperand_other {renamed : List (String × String)} {o : Operand}
    (other : ∀ l, o ≠ .label l) : renameOperand renamed o = o := by
  cases o with
  | label l => exact absurd rfl (other l)
  | _ => rfl

theorem compactedProgram_linkable (linkable : p.Linkable)
    (functions : p.functions = before ++ f :: after) :
    (compactedProgram p before after f).Linkable := by
  have here : f ∈ p.functions := by simp [functions]
  have distinct := function_distinct linkable here
  have get := get_renameLabels (List.nodup_cons.mp distinct).2 p.pool
  have kept : ∀ {name}, name ∈ f.blocks.map (·.name) → (compact f.blocks).2.lookup name = none →
      ∃ b ∈ (compacted f).blocks, b.name = name := by
    intro name block notRemoved
    rcases List.mem_append.mp ((compact_names f.blocks).mem_iff.mpr block) with left | removed
    · exact List.mem_map.mp left
    · rw [← lookup_isSome, notRemoved] at removed
      cases removed
  have used : ∀ {i}, i ∈ (compactedProgram p before after f).code → i ∈ p.code := by
    intro i mem
    rwa [compactedProgram_code functions] at mem
  constructor
  · exact (compactedProgram_names functions).nodup linkable.names
  · intro g mem i code jump x use
    have dest : i.destination? = some x := by
      cases i <;> simp_all [Instruction.isJump, Instruction.destination?, Instruction.operands]
    rcases mem_compactedProgram linkable functions mem with rfl | ⟨mem, other⟩
    · rw [compacted_code] at code
      obtain ⟨l, label, fresh, b, block, name⟩ := linkable.jumps f here i code jump x use
      rcases compactedProgram_label linkable functions here code dest label with
        ⟨notRemoved, same⟩ | ⟨-, -, new, renamed, same⟩
      · exact ⟨l, same, fresh, kept (name ▸ List.mem_map_of_mem block) notRemoved⟩
      · exact ⟨_, same, rfl, List.mem_map.mp (stands_in renamed).2⟩
    · obtain ⟨l, label, fresh, block⟩ := linkable.jumps g mem i code jump x use
      rcases compactedProgram_label linkable functions mem code dest label with
        ⟨-, same⟩ | ⟨-, is, -⟩
      · exact ⟨l, same, fresh, block⟩
      · exact absurd is other
  · intro x mem
    obtain ⟨g, function, code⟩ := List.mem_flatMap.mp (used mem)
    obtain ⟨l, label, h, function', name⟩ := linkable.calls x (used mem)
    rcases compactedProgram_label linkable functions function code rfl label with
      ⟨-, same⟩ | ⟨jump, -⟩
    · have names : (compactedProgram p before after f).functions.map (·.name) =
          p.functions.map (·.name) := by
        simp [compactedProgram, compacted, functions]
      have : l.name ∈ (compactedProgram p before after f).functions.map (·.name) := by
        rw [names, ← name]
        exact List.mem_map_of_mem function'
      exact ⟨l, same, List.mem_map.mp this⟩
    · cases jump
  · intro i mem plain x use l label
    have old := linkable.labels i (used mem) plain x use
    refine old l ?_
    rw [← label]
    refine ((get x).trans ?_).symm
    split
    · exact renameOperand_other old
    · rfl
  · intro i mem x use base offset operand
    refine linkable.base i (used mem) x use base offset ?_
    rw [← operand]
    refine ((get x).trans ?_).symm
    split
    · refine renameOperand_other fun l label => ?_
      have renamed := (get x).symm.trans operand
      rw [if_pos ‹_›, label, renameOperand] at renamed
      split at renamed <;> cases renamed
    · rfl
  · intro g mem
    rcases mem_compactedProgram linkable functions mem with rfl | ⟨mem, -⟩
    · obtain ⟨b, i, block, rest⟩ := linkable.closed f here
      exact ⟨b, i, (compact_last f.blocks).trans block, rest⟩
    · exact linkable.closed g mem

end

end Codegen86.Peephole
