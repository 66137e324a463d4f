import Codegen86.Proofs.Peephole.Compaction
/-!
# Where jumps lead once empty blocks are gone

Of the blocks of a function those with instructions are left, and the last.  A label that names a removed
block comes to name the next block that is left, whether one jump refers to it or several; both have the
same number of instructions before them, and so the same address in the layout of the program
(`destinations_kept`).
-/

set_option autoImplicit false

namespace Codegen86.Peephole

open Target

/-- The blocks that are left: those with instructions, and the last. -/
theorem compact_blocks (blocks : List Block) : (compact blocks).1 =
    blocks.dropLast.filter (fun b => !b.code.isEmpty) ++ blocks.getLast?.toList := by
  induction blocks with
  | nil => rfl
  | cons b rest ih =>
    cases rest with
    | nil => rfl
    | cons c others =>
      have some_left : (compact (c :: others)).1 ≠ [] := fun none => by
        have last := compact_last (c :: others)
        rw [none, List.getLast?_cons] at last
        cases last
      rw [List.dropLast_cons_cons, List.filter_cons, List.getLast?_cons_cons]
      unfold compact
      split
      · rename_i renamed eq
        exact absurd (congrArg (·.1) eq) some_left
      · rename_i next kept renamed eq
        rw [eq] at ih
        by_cases empty : b.code.isEmpty = true
        · rw [if_pos empty, if_neg (by simp [empty])]
          exact ih
        · rw [if_neg empty, if_pos (by simp [empty]), List.cons_append, ← ih]

section

variable {p : Program} {before after : List Function} {f : Function}

/-- A name of a block is left or removed. -/
theorem left_of_lookup_none {name : String} (block : name ∈ f.blocks.map (·.name))
    (look : (compact f.blocks).2.lookup name = none) : name ∈ (compacted f).blocks.map (·.name) := by
  refine (List.mem_append.mp ((compact_names f.blocks).mem_iff.mpr block)).resolve_right ?_
  exact lookup_eq_none.mp look

/-- The block that a name of a block leads to is as far into the function as the block was. -/
theorem same_offset {name new : String} (distinct : (f.blocks.map (·.name)).Nodup)
    (leads : (compact f.blocks).2.lookup name = some new ∨
      name ∈ (compacted f).blocks.map (·.name) ∧ new = name) :
    ∃ a, (blockLabels 0 f.blocks).lookup name = some a ∧
      (blockLabels 0 (compacted f).blocks).lookup new = some a := by
  have sublist := compact_labels 0 f.blocks
  have old : ((blockLabels 0 f.blocks).map (·.1)).Nodup := by rwa [blockLabels_names]
  have left : ((blockLabels 0 (compacted f).blocks).map (·.1)).Nodup := (sublist.map _).nodup old
  obtain ⟨a, here, there⟩ : ∃ a, (name, a) ∈ blockLabels 0 f.blocks ∧
      (new, a) ∈ blockLabels 0 (compacted f).blocks := by
    rcases leads with renamed | ⟨kept, rfl⟩
    · exact compact_renamed (mem_of_lookup renamed)
    · rw [← blockLabels_names 0] at kept
      obtain ⟨⟨same, a⟩, entry, rfl⟩ := List.mem_map.mp kept
      exact ⟨a, sublist.subset entry, entry⟩
  exact ⟨a, lookup_of_mem old here, lookup_of_mem left there⟩

/-- In the layout of the program too it has the block's address. -/
theorem same_address {name new : String} (functions : p.functions = before ++ f :: after)
    (leads : (compact f.blocks).2.lookup name = some new ∨
      name ∈ (compacted f).blocks.map (·.name) ∧ new = name)
    (block : name ∈ f.blocks.map (·.name)) {old : Layout} (laid : Layout.ofProgram p = .ok old) :
    ∃ layout a, Layout.ofProgram (compactedProgram p before after f) = .ok layout ∧
      old.address? name = some a ∧ layout.address? new = some a := by
  obtain ⟨distinct, rfl⟩ := Layout.ofProgram_iff.mp laid
  have known : name ∈ p.names := by
    rw [Program.names, functions, List.flatMap_append, List.flatMap_cons]
    exact List.mem_append_right _ (List.mem_append_left _ (List.mem_cons_of_mem _ block))
  obtain ⟨a, here⟩ : ∃ a, p.address? name = some a := by
    refine Option.isSome_iff_exists.mp (lookup_isSome.mpr ?_)
    rwa [functionLabels_names]
  have there : (compactedProgram p before after f).address? new = p.address? name := by
    rcases leads with renamed | ⟨kept, rfl⟩
    · exact compactedProgram_stand_in distinct functions renamed
    · refine compactedProgram_address_of_name distinct functions ?_
      rw [Program.names, compactedProgram, List.flatMap_append, List.flatMap_cons]
      exact List.mem_append_right _ (List.mem_append_left _ (List.mem_cons_of_mem _ kept))
  exact ⟨_, a, Layout.ofProgram_iff.mpr ⟨(compactedProgram_names functions).nodup distinct, rfl⟩, here,
    there.trans here⟩

/-- Removing the empty blocks of a function leaves the blocks with instructions and the last one.  Operands stay,
but for labels of jumps to removed blocks, and a jump to a block of the function leads where it led: as far into
the function, and to the same address once the program is laid out. -/
theorem destinations_kept (functions : p.functions = before ++ f :: after)
    (distinct : (f.blocks.map (·.name)).Nodup) :
    let p' := compactedProgram p before after f
    (compacted f).blocks =
        f.blocks.dropLast.filter (fun b => !b.code.isEmpty) ++ f.blocks.getLast?.toList ∧
    (∀ x, (∀ l, p.pool.get x = .label l → l.name ∈ f.blocks.map (·.name) →
        l.name ∈ (compacted f).blocks.map (·.name)) → p'.pool.get x = p.pool.get x) ∧
    ∀ i ∈ f.code, ∀ x, i.destination? = some x → ∀ l, p.pool.get x = .label l →
      l.name ∈ f.blocks.map (·.name) →
      ∃ l', p'.pool.get x = .label l' ∧ l'.name ∈ (compacted f).blocks.map (·.name) ∧
        (∃ a, (blockLabels 0 f.blocks).lookup l.name = some a ∧
          (blockLabels 0 (compacted f).blocks).lookup l'.name = some a) ∧
        ∀ old, Layout.ofProgram p = .ok old → ∃ new a, Layout.ofProgram p' = .ok new ∧
          old.address? l.name = some a ∧ new.address? l'.name = some a := by
  intro p'
  have get : ∀ x, p'.pool.get x = if x ∈ f.code.filterMap Instruction.destination? then
      renameOperand (compact f.blocks).2 (p.pool.get x) else p.pool.get x :=
    get_renameLabels distinct p.pool
  refine ⟨compact_blocks f.blocks, fun x other => ?_, fun i code x dest l label block => ?_⟩
  · rw [get]
    split
    · cases is : p.pool.get x with
      | label l =>
        have stays : (compact f.blocks).2.lookup l.name = none := by
          cases look : (compact f.blocks).2.lookup l.name with
          | none => rfl
          | some new =>
            have removed := lookup_isSome.mp (by rw [look]; rfl)
            exact absurd removed (kept_or_removed distinct (other l is (stands_in look).1))
        simp only [renameOperand, stays]
      | _ => rfl
    · rfl
  · have renamed : p'.pool.get x = renameOperand (compact f.blocks).2 (.label l) := by
      rw [get, if_pos (List.mem_filterMap.mpr ⟨i, code, dest⟩), label]
    cases look : (compact f.blocks).2.lookup l.name with
    | none =>
      have kept := left_of_lookup_none block look
      refine ⟨l, by rw [renamed, renameOperand, look], kept, same_offset distinct (.inr ⟨kept, rfl⟩), ?_⟩
      exact fun old laid => same_address functions (.inr ⟨kept, rfl⟩) block laid
    | some new =>
      refine ⟨⟨new, none⟩, by rw [renamed, renameOperand, look]; rfl, (stands_in look).2,
        same_offset distinct (.inl look), fun old laid => ?_⟩
      exact same_address functions (.inl look) block laid

end

/-- A function with two empty blocks in a row, and two jumps that share the label of the first. -/
def passingThrough : Function where
  name := "main"
  blocks := [
    { name := "entry", code := [.cmp 1 1, .jumpIf .zero 0, .jump 0] },
    { name := "first" },
    { name := "second" },
    { name := "exit", code := [.ret] }]

theorem destinations_kept_passingThrough :
    let p : Program :=
      { functions := [passingThrough], pool := { operands := #[.symbol "first", .reg (.physical 1)] } }
    ∃ l', (compactedProgram p [] [] passingThrough).pool.get 0 = .label l' ∧ l'.name = "exit" ∧
      ∃ new a, Layout.ofProgram (compactedProgram p [] [] passingThrough) = .ok new ∧
        new.address? "exit" = some a ∧ p.layout.address? "first" = some a := by
  intro p
  obtain ⟨-, -, jumps⟩ := @destinations_kept p [] [] passingThrough rfl (by decide)
  obtain ⟨l', is, -, -, address⟩ := jumps (.jump 0) (by decide) 0 rfl { name := "first" } rfl (by decide)
  have exit : l' = { name := "exit" } := by
    have here : (compactedProgram p [] [] passingThrough).pool.get 0 = .symbol "exit" := by decide
    exact Operand.label.inj (is.symm.trans here)
  subst exit
  obtain ⟨new, a, laid, old, there⟩ := address p.layout (Layout.ofProgram_iff.mpr ⟨by decide, rfl⟩)
  exact ⟨_, is, rfl, new, a, laid, there, old⟩

end Codegen86.Peephole
