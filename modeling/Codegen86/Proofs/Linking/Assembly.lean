import Codegen86.Proofs.Linking.Program
/-!
# Assembly, exactly

Assembly puts the functions in layout order (`InLayoutOrder`), lays them out and patches the labels of jumps and
calls.  `assemble_exact` says when it fails and with which error, and what it makes when it does not: every name
has the number of instructions before it as its address, labels of jumps and calls have the addresses of their
names, and nothing else changes (`Resolved`).
-/

set_option autoImplicit false

namespace Codegen86.Target

namespace Program

/-- `q` is `p` with its functions in the order in which they are laid out: the entry function first, if there is
one, and the others in the order in which they were. -/
inductive InLayoutOrder (p : Program) : Program → Prop
  | kept (entry : p.entry = none) : InLayoutOrder p p
  | moved {name : String} {before after : List Function} {f : Function} (entry : p.entry = some name)
      (functions : p.functions = before ++ f :: after) (named : f.name = name)
      (others : ∀ g ∈ before, g.name ≠ name) :
      InLayoutOrder p { p with functions := f :: before ++ after }

/-- The places of the labels of jumps and calls. -/
def destinations (p : Program) : List OperandRef := p.code.filterMap Instruction.destination?

/-- The names that jumps and calls refer to. -/
def targets (p : Program) : List String := p.destinations.filterMap (Layout.target? p.pool)

/-- `r` is `q` with the addresses of a layout in the labels of its jumps and calls.  A name leads to the first
instruction of its function or block, or to the next one behind it. -/
structure Resolved (q r : Program) (layout : Layout) : Prop where
  unchanged : r = { q with pool := r.pool }
  patched : layout.Patches q.destinations q.pool r.pool
  size : layout.size = q.size
  names : ∀ name, (layout.address? name).isSome = true ↔ name ∈ q.names
  functions : ∀ before f after, q.functions = before ++ f :: after →
    layout.address? f.name = some (before.flatMap (·.code)).length ∧
      r.code.drop (before.flatMap (·.code)).length = (f :: after).flatMap (·.code)
  blocks : ∀ before f after above b below, q.functions = before ++ f :: after →
    f.blocks = above ++ b :: below → ∃ a,
      layout.address? b.name = some a ∧ a = (before.flatMap (·.code)).length + (above.flatMap (·.code)).length ∧
      r.code.drop a = (b :: below).flatMap (·.code) ++ after.flatMap (·.code)

variable {p q r : Program} {layout : Layout} {e : Error}

/-! ## Layout order -/

theorem placeEntryFirst_iff : p.placeEntryFirst = .ok q ↔ p.InLayoutOrder q := by
  constructor
  · intro placed
    unfold placeEntryFirst at placed
    split at placed
    · rename_i entry
      cases placed
      exact .kept entry
    · rename_i name entry
      split at placed
      · cases placed
      · rename_i f found
        cases placed
        obtain ⟨named, before, after, split, off⟩ := List.find?_eq_some_iff_append.mp found
        have off : ∀ g ∈ before, ¬ (g.name == name) = true := by simpa using off
        have erased : p.functions.eraseP (·.name == name) = before ++ after := by
          rw [split, List.eraseP_append_right _ off, List.eraseP_cons, named]
          rfl
        rw [erased]
        refine .moved entry split (by simpa using named) fun g mem => ?_
        simpa using off g mem
  · rintro (entry | ⟨entry, functions, rfl, others⟩)
    · simp [placeEntryFirst, entry]
    · rename_i before after f
      have off : ∀ g ∈ before, ¬ (g.name == f.name) = true := by simpa using others
      have found : p.function? f.name = some f := by
        refine List.find?_eq_some_iff_append.mpr ⟨by simp, before, after, functions, ?_⟩
        simpa using others
      have erased : p.functions.eraseP (·.name == f.name) = before ++ after := by
        rw [functions, List.eraseP_append_right _ off, List.eraseP_cons]
        simp
      simp [placeEntryFirst, entry, found, erased]

theorem placeEntryFirst_error : p.placeEntryFirst = .error e ↔
    ∃ name, p.entry = some name ∧ name ∉ p.functions.map (·.name) ∧ e = .missingEntry name := by
  have absent : ∀ name, p.function? name = none ↔ name ∉ p.functions.map (·.name) := by
    intro name
    simp [function?, List.find?_eq_none]
  unfold placeEntryFirst
  cases entry : p.entry with
  | none => simp
  | some name =>
    dsimp only
    cases found : p.function? name with
    | none =>
      have absent := (absent name).mp found
      constructor
      · intro failed
        cases failed
        exact ⟨name, rfl, absent, rfl⟩
      · rintro ⟨name', same, -, rfl⟩
        cases same
        rfl
    | some f =>
      constructor
      · intro failed
        cases failed
      · rintro ⟨name', same, missing, -⟩
        cases same
        rw [← absent, found] at missing
        cases missing

/-- Functions in layout order stay where they are. -/
theorem InLayoutOrder.again (h : p.InLayoutOrder q) (pool : Pool) :
    InLayoutOrder { q with pool } { q with pool } := by
  cases h with
  | kept entry => exact .kept entry
  | @moved name before after f entry functions named others =>
    exact @InLayoutOrder.moved { p with functions := f :: before ++ after, pool } name [] (before ++ after) f entry rfl
      named nofun

/-! ## Addresses -/

/-- A layout without repeated names has the addresses of all of them. -/
theorem layout_resolves (distinct : q.names.Nodup) {pool : Pool}
    (patched : q.layout.Patches q.destinations q.pool pool) : Resolved q { q with pool } q.layout where
  unchanged := rfl
  patched := patched
  size := rfl
  names name := by rw [Layout.address?_isSome, layout, functionLabels_names, names]
  functions before f after functions := by
    constructor
    · refine lookup_of_mem ?_ ?_
      · rwa [layout, functionLabels_names]
      · simp [layout, functions, functionLabels_append, functionLabels]
    · simp [code, functions]
  blocks before f after above b below functions blocks := by
    refine ⟨_, ?_, rfl, ?_⟩
    · refine lookup_of_mem ?_ ?_
      · rwa [layout, functionLabels_names]
      · simp [layout, functions, functionLabels_append, functionLabels, blocks, blockLabels_append, blockLabels]
    · simp [code, functions, Function.code, blocks, ← List.drop_drop]

/-- Labels that have their addresses already are left as they are. -/
theorem patched_again {refs : List OperandRef} {pool : Pool}
    (patched : ∀ x ∈ refs, layout.resolve (pool.get x) = pool.get x)
    (known : ∀ name ∈ refs.filterMap (Layout.target? pool), (layout.address? name).isSome = true) :
    refs.foldlM layout.patchRef pool = .ok pool := by
  have alone : ∀ x ∈ refs, layout.patchRef pool x = .ok pool := by
    intro x mem
    unfold Layout.patchRef
    split
    · rename_i label found
      have target : Layout.target? pool x = some label.name := by simp [Layout.target?, found, Operand.label?]
      obtain ⟨a, address⟩ := Option.isSome_iff_exists.mp (known _ (List.mem_filterMap.mpr ⟨x, mem, target⟩))
      have inside := Layout.inPool_of_label found
      have same := patched x mem
      rw [found, Layout.resolve, address] at same
      rw [address]
      dsimp only
      rw [same, ← found, Pool.get, Pool.set, Array.getD_eq_getD_getElem?, Array.getElem?_eq_getElem inside]
      simp [Array.setIfInBounds, inside]
    · rfl
  clear patched known
  induction refs with
  | nil => rfl
  | cons x rest ih =>
    rw [List.foldlM_cons, alone x List.mem_cons_self]
    exact ih fun y mem => alone y (List.mem_cons_of_mem _ mem)

/-! ## Outcomes -/

theorem assemble_of_order (order : p.InLayoutOrder q) :
    p.assemble = (do
      let layout ← Layout.ofProgram q
      let r ← layout.patch q
      return (r, layout)) := by
  rw [assemble, placeEntryFirst_iff.mpr order]
  rfl

theorem address?_layout {name : String} : (q.layout.address? name).isNone = decide (name ∉ q.names) := by
  have known : (q.layout.address? name).isSome = true ↔ name ∈ q.names := by
    rw [Layout.address?_isSome, layout, functionLabels_names, names]
  cases found : q.layout.address? name with
  | none => simpa [found] using known
  | some a => simpa [found] using known

theorem assemble_duplicate (order : p.InLayoutOrder q) {name : String} (repeated : FirstRepeated q.names name) :
    p.assemble = .error (.duplicateLabel name) := by
  rw [assemble_of_order order, Layout.ofProgram_error.mpr ⟨name, repeated, rfl⟩]
  rfl

theorem assemble_unresolved (order : p.InLayoutOrder q) (distinct : q.names.Nodup) {name : String}
    (first : q.targets.find? (fun name => decide (name ∉ q.names)) = some name) :
    p.assemble = .error (.unresolvedLabel name) := by
  have laid : Layout.ofProgram q = .ok q.layout := Layout.ofProgram_iff.mpr ⟨distinct, rfl⟩
  have unknown : (fun name => decide (name ∉ q.names)) = fun name => (q.layout.address? name).isNone :=
    funext fun name => address?_layout.symm
  rw [unknown] at first
  have failed := q.layout.patch_error q.destinations first
  rw [assemble_of_order order, laid]
  show (q.layout.patch q >>= _) = _
  rw [Layout.patch, ← destinations, failed]
  rfl

theorem assemble_resolved (order : p.InLayoutOrder q) (distinct : q.names.Nodup)
    (known : ∀ name ∈ q.targets, name ∈ q.names) :
    ∃ pool, p.assemble = .ok ({ q with pool }, q.layout) ∧ Resolved q { q with pool } q.layout ∧
      assemble { q with pool } = .ok ({ q with pool }, q.layout) := by
  have laid : ∀ pool, Layout.ofProgram { q with pool } = .ok q.layout := fun pool =>
    Layout.ofProgram_iff.mpr ⟨distinct, rfl⟩
  have known : ∀ name ∈ q.targets, (q.layout.address? name).isSome = true := by
    intro name mem
    rw [Layout.address?_isSome, layout, functionLabels_names]
    exact known name mem
  obtain ⟨pool, done, patched⟩ := q.layout.patch_ok q.destinations known
  refine ⟨pool, ?_, layout_resolves distinct patched, ?_⟩
  · rw [assemble_of_order order, laid q.pool]
    show (q.layout.patch q >>= _) = _
    rw [Layout.patch, ← destinations, done]
    rfl
  · have again : q.destinations.foldlM q.layout.patchRef pool = .ok pool := by
      refine patched_again (fun x mem => ?_) fun name mem => ?_
      · rw [patched.get, if_pos mem, Layout.resolve_resolve]
      · rw [show Layout.target? pool = Layout.target? q.pool from funext patched.target?] at mem
        exact known name mem
    rw [assemble_of_order (order.again pool), laid pool]
    show (q.layout.patch { q with pool } >>= _) = _
    rw [Layout.patch]
    show (q.destinations.foldlM q.layout.patchRef pool >>= _) >>= _ = _
    rw [again]
    rfl

/-- What assembly comes to. -/
inductive Outcome (p : Program) : Except Error (Program × Layout) → Prop
  | missing {name : String} (entry : p.entry = some name) (absent : name ∉ p.functions.map (·.name)) :
      Outcome p (.error (.missingEntry name))
  | duplicate {q : Program} {name : String} (order : p.InLayoutOrder q) (repeated : FirstRepeated q.names name) :
      Outcome p (.error (.duplicateLabel name))
  | unresolved {q : Program} {name : String} (order : p.InLayoutOrder q) (distinct : q.names.Nodup)
      (first : q.targets.find? (fun name => decide (name ∉ q.names)) = some name) :
      Outcome p (.error (.unresolvedLabel name))
  | done {q r : Program} {layout : Layout} (order : p.InLayoutOrder q) (distinct : q.names.Nodup)
      (known : ∀ name ∈ q.targets, name ∈ q.names) (resolved : Resolved q r layout)
      (again : r.assemble = .ok (r, layout)) : Outcome p (.ok (r, layout))

theorem assemble_outcome (p : Program) : p.Outcome p.assemble := by
  cases placed : p.placeEntryFirst with
  | error e =>
    obtain ⟨name, entry, absent, rfl⟩ := placeEntryFirst_error.mp placed
    have failed : p.assemble = .error (.missingEntry name) := by
      rw [assemble, placed]
      rfl
    rw [failed]
    exact .missing entry absent
  | ok q =>
    have order := placeEntryFirst_iff.mp placed
    cases laid : Layout.ofProgram q with
    | error e =>
      obtain ⟨name, repeated, -⟩ := Layout.ofProgram_error.mp laid
      rw [assemble_duplicate order repeated]
      exact .duplicate order repeated
    | ok layout =>
      obtain ⟨distinct, -⟩ := Layout.ofProgram_iff.mp laid
      cases first : q.targets.find? (fun name => decide (name ∉ q.names)) with
      | some name =>
        rw [assemble_unresolved order distinct first]
        exact .unresolved order distinct first
      | none =>
        have known : ∀ name ∈ q.targets, name ∈ q.names := by simpa using first
        obtain ⟨pool, done, resolved, again⟩ := assemble_resolved order distinct known
        rw [done]
        exact .done order distinct known resolved again

/-- Assembly fails if the entry is no function, or else if a name occurs twice, or else if a jump or call refers
to no name, each time with the first one that is at fault, and else it does not fail.  What it makes is in layout
order and resolved, and is assembled to itself. -/
theorem assemble_exact (p : Program) :
    (∀ name, p.assemble = .error (.missingEntry name) ↔
      p.entry = some name ∧ name ∉ p.functions.map (·.name)) ∧
    (∀ name, p.assemble = .error (.duplicateLabel name) ↔
      ∃ q, p.InLayoutOrder q ∧ FirstRepeated q.names name) ∧
    (∀ name, p.assemble = .error (.unresolvedLabel name) ↔
      ∃ q, p.InLayoutOrder q ∧ q.names.Nodup ∧
        q.targets.find? (fun name => decide (name ∉ q.names)) = some name) ∧
    ((∃ result, p.assemble = .ok result) ↔
      ∃ q, p.InLayoutOrder q ∧ q.names.Nodup ∧ ∀ name ∈ q.targets, name ∈ q.names) ∧
    ∀ r layout, p.assemble = .ok (r, layout) →
      ∃ q, p.InLayoutOrder q ∧ Resolved q r layout ∧ r.assemble = .ok (r, layout) := by
  have outcome := p.assemble_outcome
  refine ⟨fun name => ?_, fun name => ?_, fun name => ?_, ?_, ?_⟩
  · constructor
    · intro failed
      rw [failed] at outcome
      cases outcome with
      | missing entry absent => exact ⟨entry, absent⟩
    · rintro ⟨entry, absent⟩
      rw [assemble, placeEntryFirst_error.mpr ⟨name, entry, absent, rfl⟩]
      rfl
  · constructor
    · intro failed
      rw [failed] at outcome
      cases outcome with
      | duplicate order repeated => exact ⟨_, order, repeated⟩
    · rintro ⟨q, order, repeated⟩
      exact assemble_duplicate order repeated
  · constructor
    · intro failed
      rw [failed] at outcome
      cases outcome with
      | unresolved order distinct first => exact ⟨_, order, distinct, first⟩
    · rintro ⟨q, order, distinct, first⟩
      exact assemble_unresolved order distinct first
  · constructor
    · rintro ⟨result, done⟩
      rw [done] at outcome
      cases outcome with
      | done order distinct known => exact ⟨_, order, distinct, known⟩
    · rintro ⟨q, order, distinct, known⟩
      obtain ⟨pool, done, -⟩ := assemble_resolved order distinct known
      exact ⟨_, done⟩
  · intro r layout done
    rw [done] at outcome
    cases outcome with
    | done order distinct known resolved again => exact ⟨_, order, resolved, again⟩

end Program

end Codegen86.Target
