import Codegen86.Proofs.Selection.Programs
/-!
# Discovery

The blocks that control can reach in a function (`Reached`) and the functions that are called in such blocks
(`Called`) are all lowered (`Lowers.reached`, `select_lowers`): an operation that is lowered has found the blocks and
the function that it refers to, and whatever is found is lowered in the end.
-/

set_option autoImplicit false

namespace Codegen86.Selection

open Target IR

variable {c : Context} {least : OperandRef} {start first : Nat} {s s' s'' : Lowering} {v : ValueId}

/-- The blocks that control can reach from the entry block on. -/
inductive Reached (f : IR.Function) : BlockId → Prop
  | entry : Reached f 0
  | edge {id next : BlockId} {v : ValueId} {op : Op} (reached : Reached f id) (listed : v ∈ listed f id)
      (found : f.op? v = some op) (leads : next ∈ op.successors) : Reached f next

/-- The functions that are called, directly, from the entry function on. -/
inductive Called (source : IR.Program) (entry : String) : IR.Function → Prop
  | entry {f : IR.Function} (found : source.function? entry = some f) : Called source entry f
  | call {f g : IR.Function} {id : BlockId} {v : ValueId} {name : String} {args : List ValueId}
      (caller : Called source entry f) (reached : Reached f id) (listed : v ∈ listed f id)
      (calls : f.op? v = some (.call (.direct name) args)) (found : source.function? name = some g) :
      Called source entry g

/-! ## What a block refers to -/

/-- The blocks and the function that the operation of `v` refers to are found. -/
structure Finds (f : IR.Function) (s : Lowering) (v : ValueId) : Prop where
  blocks : ∀ op, f.op? v = some op → ∀ id ∈ op.successors, id ∈ s.labels.map (·.1)
  functions : ∀ name args, f.op? v = some (.call (.direct name) args) → name ∈ s.found

theorem Finds.mono {f : IR.Function} (h : Finds f s v) (labels : s.labels <+: s'.labels)
    (found : s.found <+: s'.found) : Finds f s' v := by
  constructor
  · intro op here id mem
    exact List.map_subset _ labels.subset (h.blocks op here id mem)
  · intro name args here
    exact found.subset (h.functions name args here)

theorem operation_finds (h : Sound c least start first s) (ok : s.operation c v = .ok s') :
    Finds c.function s' v := by
  unfold Lowering.operation at ok
  split at ok
  · cases ok
  · rename_i op here
    constructor
    · intro op' same id leads
      rw [here] at same
      cases same
      cases op with
      | branch cond onTrue onFalse =>
        obtain ⟨-, -, taken, other⟩ := branch_spec h ok
        rcases List.mem_pair.mp leads with rfl | rfl
        · exact taken
        · exact other
      | jump target =>
        obtain ⟨⟨label, t⟩, labels, ok⟩ := bind_ok.mp ok
        cases ok
        obtain ⟨-, -, mem⟩ := (labelOf_cases labels).spec h
        obtain rfl := List.mem_singleton.mp leads
        exact List.mem_map_of_mem (f := (·.1)) mem
      | _ => cases leads
    · intro name args same
      rw [here] at same
      cases same
      exact (call_spec h ok).2 name rfl

theorem operations_finds {body : List ValueId} (h : Sound c least start first s)
    (well : WellListed c.function body) (ok : s.operations c body = .ok s') :
    ∀ v ∈ body, Finds c.function s' v := by
  induction body generalizing s first with
  | nil => nofun
  | cons v rest ih =>
    obtain ⟨t, one, more⟩ := bind_ok.mp ok
    have here := operation_finds h one
    intro u mem
    by_cases last : rest = []
    · subst last
      cases more
      obtain rfl := List.mem_singleton.mp mem
      exact here
    · obtain ⟨op, listed⟩ := well [] v rest rfl
      obtain ⟨first', sound, -⟩ :=
        operation_spec h listed.found (by rw [listed.terminator]; simpa using last) one
      obtain ⟨-, -, advances⟩ := operations_spec sound well.tail last more
      rcases List.mem_cons.mp mem with rfl | mem
      · exact here.mono advances.labels advances.found
      · exact ih sound well.tail more u mem

variable {position : Nat} {id : BlockId} {label : String}

theorem block_finds (placed : ∀ b ∈ c.function.blocks, b.body ≠ [] ∧ WellListed c.function b.body)
    (h : Between c least start position s) (here : s.labels[position]? = some (id, label))
    (ok : s.block c id label = .ok s') : ∀ v ∈ listed c.function id, Finds c.function s' v := by
  obtain ⟨t, all, ok⟩ := bind_ok.mp ok
  cases ok
  have block := List.getElem?_eq_getElem (h.labelled.known _ (List.mem_of_getElem? here))
  rw [block] at all
  obtain ⟨-, well⟩ := placed _ (List.mem_of_getElem? block)
  intro v mem
  rw [listed, block] at mem
  exact (operations_finds (h.begin label) well all v mem).mono (List.prefix_refl _) (List.prefix_refl _)

/-! ## Blocks -/

theorem getElem?_of_isPrefix {α : Type} {l l' : List α} {a : α} {k : Nat} (h : l <+: l') (here : l[k]? = some a) :
    l'[k]? = some a := by
  obtain ⟨more, rfl⟩ := h
  rw [List.getElem?_append_left (List.getElem?_eq_some_iff.mp here).1, here]

/-- A block is lowered at its position among the blocks found, on the way to `s'`. -/
def Made (c : Context) (least : OperandRef) (start : Nat) (id : BlockId) (s' : Lowering) : Prop :=
  ∃ position label u u', Between c least start position u ∧ u.labels[position]? = some (id, label) ∧
    u.block c id label = .ok u' ∧ Passes c u' (position + 1) s' s'.labels.length

/-- Whatever is found is lowered in the end. -/
theorem blocks_made (placed : ∀ b ∈ c.function.blocks, b.body ≠ [] ∧ WellListed c.function b.body)
    {fuel : Nat} (enough : position + fuel = c.function.blocks.length) (h : Between c least start position s)
    (ok : s.blocks c fuel position = .ok s') {k : Nat} (later : position ≤ k)
    (here : s'.labels[k]? = some (id, label)) : Made c least start id s' := by
  induction fuel generalizing position s with
  | zero =>
    obtain rfl := Except.ok.inj ok
    have most := h.labelled.length_le
    have inside := (List.getElem?_eq_some_iff.mp here).1
    omega
  | succ fuel ih =>
    unfold Lowering.blocks at ok
    split at ok
    · rename_i none
      cases ok
      have most := List.getElem?_eq_none_iff.mp none
      have inside := (List.getElem?_eq_some_iff.mp here).1
      omega
    · rename_i id' label' this
      obtain ⟨t, one, ok⟩ := bind_ok.mp ok
      obtain ⟨between, passes⟩ := block_spec placed h this one
      obtain ⟨-, passes'⟩ := blocks_spec placed (by omega) between ok
      by_cases now : k = position
      · subst now
        have same := getElem?_of_isPrefix (passes.labels.trans passes'.labels) this
        rw [here] at same
        cases same
        exact ⟨k, label, s, t, h, this, one, passes'⟩
      · exact ih (by omega) between ok (by omega)

section

variable {source : IR.Program} {selector selector' : Selector} {f : IR.Function} {frame : OperandRef}
  {t : Target.Function}

theorem Lowers.placed (h : Lowers source selector f c frame s s' t selector') :
    ∀ b ∈ c.function.blocks, b.body ≠ [] ∧ WellListed c.function b.body := by
  obtain ⟨pl, planned⟩ := Plan.ofFunction_ok h.plan
  rw [h.function]
  exact fun b mem => ⟨planned.placed.full b mem, planned.placed.listed b mem⟩

/-- What holds when all blocks of a function are lowered. -/
theorem Lowers.finished (h : Lowers source selector f c frame s s' t selector') :
    Between c (frame + 1) s.registers s'.labels.length s' ∧ Passes c s 0 s' s'.labels.length :=
  blocks_spec h.placed (by rw [h.function, Nat.zero_add]) h.between h.blocks

/-- The blocks found in a function are lowered. -/
theorem Lowers.made (h : Lowers source selector f c frame s s' t selector')
    (found : id ∈ s'.labels.map (·.1)) : Made c (frame + 1) s.registers id s' := by
  obtain ⟨entry, listed, rfl⟩ := List.mem_map.mp found
  obtain ⟨k, here⟩ := List.getElem?_of_mem listed
  exact blocks_made h.placed (by rw [h.function, Nat.zero_add]) h.between h.blocks (Nat.zero_le k) here

/-- The blocks of a function that control can reach are lowered. -/
theorem Lowers.reached (h : Lowers source selector f c frame s s' t selector') (reached : Reached f id) :
    Made c (frame + 1) s.registers id s' := by
  refine h.made ?_
  induction reached with
  | entry =>
    obtain ⟨name, code, body, -, labels, -⟩ := h.prologue
    have first : (0, body) ∈ s'.labels :=
      h.finished.2.labels.subset (by rw [labels]; exact List.mem_singleton_self _)
    exact List.mem_map_of_mem (f := (·.1)) first
  | edge _ listed op leads found =>
    obtain ⟨position, label, u, u', between, here, ok, passes⟩ := h.made found
    have finds := block_finds h.placed between here ok _ (h.function ▸ listed)
    exact List.map_subset _ passes.labels.subset (finds.blocks _ (h.function ▸ op) _ leads)

end

/-- The functions that are called from the blocks that control can reach are found. -/
theorem Lowers.calls {source : IR.Program} {selector selector' : Selector} {f : IR.Function}
    {frame : OperandRef} {t : Target.Function} (h : Lowers source selector f c frame s s' t selector')
    (reached : Reached f id) (listed : v ∈ listed f id) {name : String} {args : List ValueId}
    (call : f.op? v = some (.call (.direct name) args)) : name ∈ selector'.found := by
  obtain ⟨position, label, u, u', between, here, ok, passes⟩ := h.reached reached
  obtain ⟨code, pool, journal, -, -, -, last⟩ := h.epilogue
  have finds := block_finds h.placed between here ok _ (h.function ▸ listed)
  rw [last]
  exact passes.found.subset (finds.functions name args (h.function ▸ call))

/-! ## Functions -/

variable {source : IR.Program}

/-- A function that is found is part of the program: it is lowered, and what was made then stays. -/
structure Includes (source : IR.Program) (s' : Selector) (f : IR.Function) (c : Context) (frame : OperandRef)
    (u : Selector) (v v' : Lowering) (t : Target.Function) (u' : Selector) : Prop where
  lowers : Lowers source u f c frame v v' t u'
  found : u'.found <+: s'.found
  pool : u'.program.pool.Grows s'.program.pool
  function : t ∈ s'.program.functions

/-- What is lowered later leaves what was lowered before. -/
theorem lowerFound_grows {fuel position : Nat} {s s' : Selector} (ok : lowerFound source fuel position s = .ok s') :
    s.program.pool.Grows s'.program.pool ∧ s.program.functions <+: s'.program.functions := by
  induction fuel generalizing position s with
  | zero =>
    obtain rfl := Except.ok.inj ok
    exact ⟨.refl _, List.prefix_refl _⟩
  | succ fuel ih =>
    unfold lowerFound at ok
    split at ok
    · obtain rfl := Except.ok.inj ok
      exact ⟨.refl _, List.prefix_refl _⟩
    · split at ok
      · cases ok
      · obtain ⟨⟨t, u⟩, one, ok⟩ := bind_ok.mp ok
        obtain ⟨p, added, ok⟩ := bind_ok.mp ok
        obtain ⟨-, rfl⟩ := add_iff.mp added
        obtain ⟨c, frame, v, v', lowers⟩ := lowerFunction_cases one
        obtain ⟨-, -, -, -, -, grows⟩ := lowers.lowered
        obtain ⟨pool, functions⟩ := ih ok
        refine ⟨grows.pool.trans pool, List.IsPrefix.trans ?_ functions⟩
        rw [← grows.functions]
        exact List.prefix_append _ _

/-- Whatever function is found is lowered in the end. -/
theorem lowerFound_lowers {fuel position : Nat} {s s' : Selector} {slots : List Slots}
    (enough : position + fuel = source.functions.length) (h : Selecting source position s slots)
    (ok : lowerFound source fuel position s = .ok s') {k : Nat} (later : position ≤ k) {name : String}
    (here : s'.found[k]? = some name) :
    ∃ f c frame u v v' t u', source.function? name = some f ∧ Includes source s' f c frame u v v' t u' := by
  induction fuel generalizing position s slots with
  | zero =>
    obtain rfl := Except.ok.inj ok
    have most := h.known.length_le
    have inside := (List.getElem?_eq_some_iff.mp here).1
    omega
  | succ fuel ih =>
    unfold lowerFound at ok
    split at ok
    · rename_i none
      obtain rfl := Except.ok.inj ok
      have most := List.getElem?_eq_none_iff.mp none
      have inside := (List.getElem?_eq_some_iff.mp here).1
      omega
    · rename_i name' this
      split at ok
      · cases ok
      · rename_i f origin
        obtain ⟨⟨t, u⟩, one, ok⟩ := bind_ok.mp ok
        obtain ⟨p, added, ok⟩ := bind_ok.mp ok
        obtain ⟨-, rfl⟩ := add_iff.mp added
        obtain ⟨c, frame, v, v', lowers⟩ := lowerFunction_cases one
        obtain ⟨-, -, -, -, -, grows⟩ := lowers.lowered
        have next := (selecting_next h this origin lowers).2
        obtain ⟨prefixes, -⟩ := lowerFound_spec (by omega) next ok
        by_cases now : k = position
        · subst now
          have same := getElem?_of_isPrefix (grows.found.trans prefixes) this
          rw [here] at same
          cases same
          obtain ⟨pool, functions⟩ := lowerFound_grows ok
          exact ⟨f, c, frame, s, v, v', t, u, origin, lowers, prefixes, pool, functions.subset (by simp)⟩
        · exact ih (by omega) next ok (by omega)

/-- Every function that is found is part of the selected program. -/
theorem select_includes {entry : String} {journal journal' : Journal} {p : Target.Program}
    (ok : select source entry journal = .ok (p, journal')) :
    ∃ last : Selector, last.program = p ∧ last.found = p.functions.map (·.name) ∧ entry ∈ last.found ∧
      ∀ name ∈ last.found, ∃ f c frame u s s' t u', source.function? name = some f ∧
        Includes source last f c frame u s s' t u' := by
  unfold select at ok
  split at ok
  · cases ok
  · rename_i there
    have there : (source.function? entry).isSome = true := by simpa [Option.isSome_iff_ne_none] using there
    obtain ⟨last, all, ok⟩ := bind_ok.mp ok
    obtain ⟨rfl, -⟩ := Prod.mk.inj (Except.ok.inj ok)
    obtain ⟨prefixes, -, _, -, selecting⟩ := lowerFound_spec (Nat.zero_add _) (selecting_start there) all
    have names := selecting.names
    rw [List.take_length] at names
    refine ⟨last, rfl, names.symm, prefixes.subset (List.mem_singleton_self entry), fun name mem => ?_⟩
    obtain ⟨k, here⟩ := List.getElem?_of_mem mem
    exact lowerFound_lowers (Nat.zero_add _) (selecting_start there) all (Nat.zero_le k) here

/-- The functions that are called are lowered. -/
theorem select_lowers {entry : String} {journal journal' : Journal} {p : Target.Program}
    (ok : select source entry journal = .ok (p, journal')) {f : IR.Function} (called : Called source entry f) :
    ∃ c frame u s s' t u', Lowers source u f c frame s s' t u' := by
  obtain ⟨last, -, -, found, includes⟩ := select_includes ok
  have lowered : ∀ {name : String} {g : IR.Function}, name ∈ last.found → source.function? name = some g →
      ∃ c frame u s s' t u', Includes source last g c frame u s s' t u' := by
    intro name g mem origin
    obtain ⟨g', c, frame, u, s, s', t, u', origin', included⟩ := includes name mem
    rw [origin] at origin'
    cases origin'
    exact ⟨c, frame, u, s, s', t, u', included⟩
  suffices found : ∃ name, name ∈ last.found ∧ source.function? name = some f by
    obtain ⟨name, mem, origin⟩ := found
    obtain ⟨c, frame, u, s, s', t, u', included⟩ := lowered mem origin
    exact ⟨c, frame, u, s, s', t, u', included.lowers⟩
  induction called with
  | entry origin => exact ⟨entry, found, origin⟩
  | @call f g id v name args _ reached listed calls origin ih =>
    obtain ⟨caller, mem, here⟩ := ih
    obtain ⟨c, frame, u, s, s', t, u', included⟩ := lowered mem here
    exact ⟨name, included.found.subset (included.lowers.calls reached listed calls), origin⟩

end Codegen86.Selection
