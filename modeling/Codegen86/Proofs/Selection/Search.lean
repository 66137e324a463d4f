import Codegen86.Proofs.Selection.Discovery
import Codegen86.Proofs.Selection.Steps
import Codegen86.Proofs.Worklists
import Mathlib.Data.List.Pairwise
/-!
# What lowering finds

Lowering searches two graphs while it makes code: the blocks of a function, from the entry block along branches and
jumps, and the functions of the program, from the entry function along direct calls.  Whatever an operation is, all it
does to the blocks and functions found is to add the ones that it refers to, and it begins two blocks if it is a
comparison whose value is kept (`Discovers`, `operation_discovers`).  So the blocks found in a function are those of a
search (`blocks_labels`), and the code of every block found stands in one place (`blocks_lay`).

Nothing here relies on what holds in the states that selection comes to.
-/

set_option autoImplicit false

namespace Codegen86

open IR (ValueId BlockId Op BinaryOp)

namespace Selection

open Target

/-! ## The graphs -/

/-- The blocks that the operation of a value leads to. -/
def successorsAt (f : IR.Function) (v : ValueId) : List BlockId := ((f.op? v).map Op.successors).getD []

/-- The function that the operation of a value calls. -/
def calleesAt (f : IR.Function) (v : ValueId) : List String := ((f.op? v).map Op.callees).getD []

/-- The blocks that control goes to from a block, in the order in which they are named. -/
def successors (f : IR.Function) (id : BlockId) : List BlockId := (listed f id).flatMap (successorsAt f)

/-- The functions called in a block, in the order of the calls. -/
def callees (f : IR.Function) (id : BlockId) : List String := (listed f id).flatMap (calleesAt f)

/-- The blocks found in a function from its entry block on. -/
def blockOrder (f : IR.Function) : List BlockId := search (successors f) f.blocks.length 0 [0]

/-- The functions called in a function of the source. -/
def calledBy (source : IR.Program) (name : String) : List String :=
  match source.function? name with
  | none => []
  | some f => (blockOrder f).flatMap (callees f)

section

variable {f : IR.Function} {id next : BlockId} {name : String}

theorem mem_successors :
    next ∈ successors f id ↔ ∃ v ∈ listed f id, ∃ op, f.op? v = some op ∧ next ∈ op.successors := by
  refine List.mem_flatMap.trans (exists_congr fun v => and_congr_right fun _ => ?_)
  unfold successorsAt
  cases f.op? v with
  | none => simp
  | some op => simp

theorem mem_callees :
    name ∈ callees f id ↔ ∃ v ∈ listed f id, ∃ args, f.op? v = some (.call (.direct name) args) := by
  refine List.mem_flatMap.trans (exists_congr fun v => and_congr_right fun _ => ?_)
  unfold calleesAt
  cases f.op? v with
  | none => simp
  | some op =>
    match op with
    | .call (.direct other) args => simp [Op.callees, eq_comm]
    | .call (.indirect _) _ | .arg _ | .imm _ | .float _ | .alloca _ | .load _ | .store _ _ | .binary _ _ _
    | .symbol _ | .branch _ _ _ | .jump _ | .ret | .retValue _ => simp [Op.callees]

/-- Control reaches the blocks that a search from the entry block finds. -/
theorem reached_iff : Reached f id ↔ Relation.ReflTransGen (fun a b => b ∈ successors f a) 0 id := by
  constructor
  · intro reached
    induction reached with
    | entry => exact .refl
    | edge _ listed found leads ih => exact ih.tail (mem_successors.mpr ⟨_, listed, _, found, leads⟩)
  · intro steps
    induction steps with
    | refl => exact .entry
    | tail _ step ih =>
      obtain ⟨v, listed, op, found, leads⟩ := mem_successors.mp step
      exact .edge ih listed found leads

end

variable {c : Context} {s s' s'' : Lowering} {v : ValueId}

/-! ## What steps find -/

/-- The names of the blocks begun so far. -/
def Lowering.begun (s : Lowering) : List String := s.done.toList.map (·.name) ++ [s.name]

/-- The blocks `ids` and the functions `names` are found, and as many blocks as `begins` says are begun. -/
structure Discovers (c : Context) (ids : List BlockId) (names : List String) (begins : Nat) (s s' : Lowering) :
    Prop where
  ids : s'.labels.map (·.1) = extend (s.labels.map (·.1)) ids
  names : s'.found = extend s.found names
  begun : ∃ more, s'.begun = s.begun ++ more ∧ more.length = begins
  labels : s.labels <+: s'.labels
  done : s.done.toList <+: s'.done.toList
  pool : s.program.pool.Grows s'.program.pool
  labelled : Labelled c s → Labelled c s'
  known : Known c.source s.found → Known c.source s'.found

theorem Labelled.of_labels (h : Labelled c s) (labels : s'.labels = s.labels) : Labelled c s' :=
  ⟨labels ▸ h.distinct, labels ▸ h.known⟩

theorem Discovers.refl (s : Lowering) : Discovers c [] [] 0 s s where
  ids := by rw [extend]
  names := by rw [extend]
  begun := ⟨[], (List.append_nil _).symm, rfl⟩
  labels := List.prefix_refl _
  done := List.prefix_refl _
  pool := .refl _
  labelled := id
  known := id

theorem Discovers.trans {ids ids' : List BlockId} {names names' : List String} {begins begins' : Nat}
    (h : Discovers c ids names begins s s') (h' : Discovers c ids' names' begins' s' s'') :
    Discovers c (ids ++ ids') (names ++ names') (begins + begins') s s'' where
  ids := by rw [h'.ids, h.ids, extend_append]
  names := by rw [h'.names, h.names, extend_append]
  begun := by
    obtain ⟨more, eq, length⟩ := h.begun
    obtain ⟨more', eq', length'⟩ := h'.begun
    exact ⟨more ++ more', by rw [eq', eq, List.append_assoc], by rw [List.length_append, length, length']⟩
  labels := h.labels.trans h'.labels
  done := h.done.trans h'.done
  pool := h.pool.trans h'.pool
  labelled := h'.labelled ∘ h.labelled
  known := h'.known ∘ h.known

theorem Adds.discovers (h : Adds s s') : Discovers c [] [] 0 s s' := by
  have same : ∀ {t : Lowering}, t.labels = s.labels → t.found = s.found → t.begun = s.begun → t.done = s.done →
      s.program.pool.Grows t.program.pool → Discovers c [] [] 0 s t := by
    intro t labels found begun done pool
    have nothing : Discovers c [] [] 0 s s := .refl s
    exact ⟨labels ▸ nothing.ids, found ▸ nothing.names, begun ▸ nothing.begun, labels ▸ nothing.labels,
      done ▸ nothing.done, pool, fun labelled => labelled.of_labels labels, found ▸ id⟩
  cases h with
  | operands grows => exact same rfl rfl rfl rfl grows
  | label base => exact same rfl rfl rfl rfl (.refl _)
  | emit i => exact same rfl rfl rfl rfl (.refl _)

theorem Labels.discovers {id : BlockId} {label : String} (h : Labels c s id label s') :
    Discovers c [id] [] 0 s s' := by
  cases h with
  | known found same =>
    have mem : id ∈ s.labels.map (·.1) := List.mem_map_of_mem (f := (·.1)) (mem_of_lookup found)
    subst same
    have nothing : Discovers c [] [] 0 s' s' := .refl s'
    exact { nothing with ids := by rw [extend, if_pos mem, extend] }
  | new absent block name same =>
    have new : id ∉ s.labels.map (·.1) := lookup_eq_none.mp absent
    have inside : id < c.function.blocks.length := (List.getElem?_eq_some_iff.mp block).1
    have ids : s'.labels.map (·.1) = extend (s.labels.map (·.1)) [id] := by
      rw [extend, if_neg new, extend, same, List.map_append]
      rfl
    refine ⟨ids, ?_, ?_, ?_, ?_, ?_, fun h => ⟨ids ▸ nodup_extend h.distinct, fun entry mem => ?_⟩, ?_⟩
    all_goals subst same
    · rfl
    · exact ⟨[], (List.append_nil _).symm, rfl⟩
    · exact List.prefix_append _ _
    · exact List.prefix_refl _
    · exact .refl _
    · rcases List.mem_append.mp mem with mem | mem
      · exact h.known entry mem
      · obtain rfl := List.mem_singleton.mp mem
        exact inside
    · exact fun known => known

theorem find_discovers (c : Context) (s : Lowering) {name : String}
    (there : (c.source.function? name).isSome = true) :
    Discovers c [] [name] 0 s { s with toSelector := s.toSelector.find name } := by
  have same : s.toSelector.find name = { s.toSelector with found := extend s.found [name] } := by
    unfold Selector.find extend extend
    simp only [List.contains_iff_mem]
    split <;> rfl
  refine ⟨rfl, by rw [same], ⟨[], (List.append_nil _).symm, rfl⟩, List.prefix_refl _, List.prefix_refl _, ?_,
    fun labelled => labelled.of_labels rfl, fun known => known.find there⟩
  rw [same]
  exact .refl _

/-- A block ends and another begins. -/
theorem begin_discovers (c : Context) (s : Lowering) (name : String) :
    Discovers c [] [] 1 s (s.endBlock.beginBlock name) where
  ids := rfl
  names := rfl
  begun := by
    refine ⟨[name], ?_, rfl⟩
    show (s.done.push _).toList.map (·.name) ++ [name] = _
    rw [Array.toList_push, List.map_append]
    rfl
  labels := List.prefix_refl _
  done := by
    show s.done.toList <+: (s.done.push _).toList
    rw [Array.toList_push]
    exact List.prefix_append _ _
  pool := .refl _
  labelled := fun labelled => labelled.of_labels rfl
  known := fun known => known

theorem Step.discovers {e : Event} (h : Step c s e s') :
    Discovers c e.blocks e.functions ([e].count .begins) s s' := by
  have nothing : Discovers c [] [] 0 s s := .refl s
  cases h with
  | lead labels => exact labels.discovers
  | call there => exact find_discovers c s there
  | next name => exact begin_discovers c s name
  | held | slot => exact nothing
  | loaded | define | reserve => exact { nothing with labelled := fun labelled => labelled.of_labels rfl }

theorem Steps.discovers {events : List Event} (h : Steps c s events s') :
    Discovers c (events.flatMap Event.blocks) (events.flatMap Event.functions) (events.count .begins) s s' := by
  induction h with
  | refl => exact .refl _
  | adds first _ ih =>
    have all := first.discovers.trans ih
    rwa [Nat.zero_add] at all
  | @event _ _ _ e events first _ ih =>
    have all := first.discovers.trans ih
    rwa [← List.count_append] at all

/-! ## What operations find -/

/-- What an operation refers to; two blocks begin if it is a comparison whose value is kept. -/
theorem eventsOf_refers (c : Context) (v : ValueId) (op : Op) :
    (eventsOf c v op).flatMap Event.blocks = op.successors ∧
      (eventsOf c v op).flatMap Event.functions = op.callees ∧
      (eventsOf c v op).count .begins = if op.isComparison && !c.plan.fused.contains v then 2 else 0 := by
  have blocks := flatMap_reads (f := Event.blocks) fun _ => rfl
  have functions := flatMap_reads (f := Event.functions) fun _ => rfl
  have begins : ∀ values : List ValueId, (values.map Event.reads).count .begins = 0 := fun values =>
    List.count_eq_zero_of_not_mem fun mem => by simp at mem
  match op with
  | .binary (.compare _) _ _ =>
    simp only [eventsOf, Op.isComparison, BinaryOp.isComparison]
    cases c.plan.fused.contains v <;> exact ⟨rfl, rfl, rfl⟩
  | .call (.direct _) _ | .call (.indirect _) _ =>
    simp only [eventsOf, List.flatMap_append, List.count_append, blocks, functions, begins]
    split <;> exact ⟨rfl, rfl, rfl⟩
  | .branch _ _ _ =>
    simp only [eventsOf, List.flatMap_append, List.count_append, blocks, functions, begins]
    exact ⟨rfl, rfl, rfl⟩
  | .arg _ | .imm _ | .float _ | .alloca _ | .load _ | .store _ _ | .binary (.arith _) _ _ | .symbol _ | .jump _
  | .ret | .retValue _ => exact ⟨rfl, rfl, rfl⟩

/-- An operation finds what it refers to, and begins two blocks if it is a comparison whose value is kept. -/
theorem operation_discovers (ok : s.operation c v = .ok s') :
    Discovers c (successorsAt c.function v) (calleesAt c.function v)
      (if isMaterialized c.function c.plan.fused v then 2 else 0) s s' := by
  obtain ⟨op, found, steps⟩ := operation_steps ok
  obtain ⟨blocks, functions, begins⟩ := eventsOf_refers c v op
  have discovers := steps.discovers
  rw [blocks, functions, begins] at discovers
  have successors : successorsAt c.function v = op.successors := by rw [successorsAt, found]; rfl
  have callees : calleesAt c.function v = op.callees := by rw [calleesAt, found]; rfl
  have comparison : c.function.isComparison v = op.isComparison := by rw [IR.Function.isComparison, found]; rfl
  rwa [successors, callees, isMaterialized, comparison]

theorem operations_discover {body : List ValueId} (ok : s.operations c body = .ok s') :
    Discovers c (body.flatMap (successorsAt c.function)) (body.flatMap (calleesAt c.function))
      (2 * body.countP (isMaterialized c.function c.plan.fused)) s s' := by
  induction body generalizing s with
  | nil =>
    cases ok
    exact .refl _
  | cons v rest ih =>
    obtain ⟨t, one, more⟩ := bind_ok.mp ok
    have both := (operation_discovers one).trans (ih more)
    have count : 2 * (v :: rest).countP (isMaterialized c.function c.plan.fused) =
        (if isMaterialized c.function c.plan.fused v then 2 else 0) +
          2 * rest.countP (isMaterialized c.function c.plan.fused) := by
      rw [List.countP_cons]
      split <;> omega
    rw [count]
    exact both

/-! ## Blocks -/

/-- From `s` to `s'` a block of the source is lowered to the blocks `group`: one under its label, and two more for
every comparison in it whose value is kept. -/
structure Appends (c : Context) (id : BlockId) (label : String) (group : List Target.Block) (s s' : Lowering) :
    Prop where
  done : s'.done.toList = s.done.toList ++ group
  named : ∃ others, group.map (·.name) = label :: others ∧
    others.length = 2 * (listed c.function id).countP (isMaterialized c.function c.plan.fused)
  ids : s'.labels.map (·.1) = extend (s.labels.map (·.1)) (successors c.function id)
  names : s'.found = extend s.found (callees c.function id)
  labels : s.labels <+: s'.labels
  pool : s.program.pool.Grows s'.program.pool
  labelled : Labelled c s → Labelled c s'
  known : Known c.source s.found → Known c.source s'.found

theorem block_appends {id : BlockId} {label : String} (ok : s.block c id label = .ok s') :
    ∃ group, Appends c id label group s s' := by
  obtain ⟨t, all, ok⟩ := bind_ok.mp ok
  cases ok
  have discovers := operations_discover all
  obtain ⟨more, begun, length⟩ := discovers.begun
  obtain ⟨blocks, done⟩ := discovers.done
  have done : s.done.toList ++ blocks = t.done.toList := done
  refine ⟨blocks ++ [{ name := t.name, code := t.code.toList }], ?_, ⟨more, ?_, length⟩, discovers.ids,
    discovers.names, discovers.labels, discovers.pool,
    fun labelled => (discovers.labelled (labelled.of_labels rfl)).of_labels rfl, discovers.known⟩
  · rw [← List.append_assoc, done]
    exact Array.toList_push ..
  · rw [Lowering.begun, ← done, List.map_append, List.append_assoc, Lowering.begun, List.append_assoc] at begun
    rw [List.map_append]
    exact List.append_cancel_left begun

/-! ## Comparisons that are not fused -/

/-- Whether the branch that ends a block is all that uses a value. -/
def isFused (f : IR.Function) (id : BlockId) (v : ValueId) : Bool :=
  match (listed f id).getLast?.bind f.op? with
  | some (.branch cond _ _) => cond == v && (uses f).count v == 1
  | _ => false

/-- The comparisons in a block that are not fused with the branch that ends it. -/
def unfused (f : IR.Function) (id : BlockId) : List ValueId :=
  (listed f id).filter fun v => f.isComparison v && !isFused f id v

theorem lt_of_mem_listed {f : IR.Function} {id : BlockId} (mem : v ∈ listed f id) : id < f.blocks.length := by
  refine Nat.lt_of_not_le fun outside => ?_
  rw [listed, List.getElem?_eq_none_iff.mpr outside] at mem
  cases mem

/-- A value is listed in one block. -/
theorem listed_unique {f : IR.Function} (distinct : f.placed.Nodup) {id id' : BlockId} (mem : v ∈ listed f id)
    (mem' : v ∈ listed f id') : id = id' := by
  refine Decidable.byContradiction fun ne => ?_
  rw [placed_eq] at distinct
  have apart := (List.nodup_flatMap.mp distinct).2
  have : Std.Symm (Function.onFun List.Disjoint (listed f)) :=
    ⟨fun _ _ disjoint _ left right => disjoint right left⟩
  have inside := List.mem_range.mpr (lt_of_mem_listed mem)
  have inside' := List.mem_range.mpr (lt_of_mem_listed mem')
  exact apart.forall inside inside' ne mem mem'

/-- A value that is listed in a block is placed there. -/
theorem lookup_placed {f : IR.Function} {pl : Placement} (placed : Placed f pl) {id : BlockId}
    (mem : v ∈ listed f id) : pl.lookup v = some id := by
  have inside : v ∈ f.placed := by
    rw [placed_eq]
    exact List.mem_flatMap.mpr ⟨id, List.mem_range.mpr (lt_of_mem_listed mem), mem⟩
  obtain ⟨id', place⟩ := Option.isSome_iff_exists.mp (lookup_isSome.mpr (placed.mem.mpr inside))
  obtain ⟨b, here, within⟩ := placed.place place
  have mem' : v ∈ listed f id' := by
    rw [listed, here]
    exact within
  rw [place, listed_unique placed.distinct mem mem']

/-- A comparison that is listed in a block is fused where the branch that ends the block is its only use. -/
theorem mem_fusedComparisons {f : IR.Function} {pl : Placement} (placed : Placed f pl) {id : BlockId}
    (mem : v ∈ listed f id) (comparison : f.isComparison v = true) :
    v ∈ fusedComparisons f pl ↔ isFused f id v = true := by
  have place := lookup_placed placed mem
  unfold fusedComparisons isFused
  rw [List.mem_filterMap]
  constructor
  · rintro ⟨⟨b, id'⟩, numbered, found⟩
    have body : listed f id' = b.body := by
      rw [listed, show f.blocks[id']? = some b from List.mem_zipIdx_iff_getElem?.mp numbered]
      rfl
    unfold fusedIn? at found
    split at found
    · rename_i cond onTrue onFalse branch
      split at found
      · rename_i test
        cases found
        simp only [Bool.and_eq_true, beq_iff_eq, place, Option.some.injEq] at test
        obtain ⟨⟨-, rfl⟩, once⟩ := test
        simp [body, branch, once]
      · cases found
    · cases found
  · intro fused
    have inside := lt_of_mem_listed mem
    have body : listed f id = f.blocks[id].body := by
      rw [listed, List.getElem?_eq_getElem inside]
      rfl
    refine ⟨(f.blocks[id], id), List.mem_zipIdx_iff_getElem?.mpr (List.getElem?_eq_getElem inside), ?_⟩
    rw [body] at fused
    unfold fusedIn?
    split at fused
    · rename_i cond onTrue onFalse branch
      simp only [Bool.and_eq_true, beq_iff_eq] at fused
      obtain ⟨rfl, once⟩ := fused
      simp [branch, comparison, place, once]
    · cases fused

/-- The comparisons in a block whose values are kept are those that are not fused with its branch. -/
theorem countP_isMaterialized {f : IR.Function} {plan : Plan} {pl : Placement} (planned : Planned f plan pl)
    (id : BlockId) : (listed f id).countP (isMaterialized f plan.fused) = (unfused f id).length := by
  rw [unfused, ← List.countP_eq_length_filter]
  refine List.countP_congr fun v mem => ?_
  unfold isMaterialized
  cases comparison : f.isComparison v with
  | false => rfl
  | true =>
    have fused := mem_fusedComparisons planned.placed mem comparison
    simp only [planned.fused, Bool.true_and, Bool.not_eq_true', List.contains_eq_mem, decide_eq_false_iff_not]
    rw [fused, Bool.not_eq_true]

/-! ## The code of blocks -/

/-- A pool has the operands of another, but for the one at `frame`, which may be set. -/
structure GrowsBut (frame : OperandRef) (p q : Pool) : Prop where
  size : p.operands.size ≤ q.operands.size
  get : ∀ x < p.operands.size, x ≠ frame → q.get x = p.get x

namespace GrowsBut

variable {frame : OperandRef} {p q r : Pool}

theorem of_grows (h : p.Grows q) (frame : OperandRef) : GrowsBut frame p q :=
  ⟨h.size, fun _ inside _ => h.get inside⟩

theorem trans (h : GrowsBut frame p q) (h' : GrowsBut frame q r) : GrowsBut frame p r :=
  ⟨Nat.le_trans h.size h'.size, fun x inside other =>
    (h'.get x (Nat.lt_of_lt_of_le inside h.size) other).trans (h.get x inside other)⟩

theorem set (p : Pool) {frame : OperandRef} (inside : frame < p.operands.size) (o : Operand) :
    GrowsBut frame p (p.set frame o) := by
  refine ⟨by simp [Pool.set], fun x _ other => ?_⟩
  rw [Pool.get_set p x o inside, if_neg other]

end GrowsBut

/-- The blocks `group` are the code of the block of the source that `entry` gives a label: lowering made them, with
labels and operands that are among those of the function, and they are one under the label and two more for every
comparison that is not fused with the branch of the block. -/
structure CodeOf (c : Context) (frame : OperandRef) (labels : List (BlockId × String)) (pool : Pool)
    (entry : BlockId × String) (group : List Target.Block) : Prop where
  made : ∃ before after : Lowering, before.block c entry.1 entry.2 = .ok after ∧
    after.done.toList = before.done.toList ++ group ∧ after.labels <+: labels ∧
    frame < before.program.pool.operands.size ∧ GrowsBut frame after.program.pool pool
  named : ∃ others, group.map (·.name) = entry.2 :: others ∧
    others.length = 2 * (unfused c.function entry.1).length

theorem CodeOf.grow {frame : OperandRef} {labels : List (BlockId × String)} {pool pool' : Pool}
    {entry : BlockId × String} {group : List Target.Block} (h : CodeOf c frame labels pool entry group)
    (grows : GrowsBut frame pool pool') : CodeOf c frame labels pool' entry group := by
  obtain ⟨before, after, lowered, done, labels, inside, kept⟩ := h.made
  exact ⟨⟨before, after, lowered, done, labels, inside, kept.trans grows⟩, h.named⟩

/-- From `s` to `s'` the blocks found from the one at `position` on are lowered, with those found on the way. -/
structure Lays (c : Context) (frame : OperandRef) (position : Nat) (s s' : Lowering) : Prop where
  groups : ∃ groups, s'.done.toList = s.done.toList ++ groups.flatten ∧
    List.Forall₂ (CodeOf c frame s'.labels s'.program.pool) (s'.labels.drop position) groups
  names : s'.found = extend s.found (((s'.labels.drop position).map (·.1)).flatMap (callees c.function))
  labels : s.labels <+: s'.labels
  pool : s.program.pool.Grows s'.program.pool
  known : Known c.source s.found → Known c.source s'.found

variable {fuel position : Nat}

theorem blocks_labels (ok : s.blocks c fuel position = .ok s') :
    s'.labels.map (·.1) = search (successors c.function) fuel position (s.labels.map (·.1)) := by
  induction fuel generalizing position s with
  | zero =>
    obtain rfl := Except.ok.inj ok
    rfl
  | succ fuel ih =>
    unfold Lowering.blocks at ok
    unfold search
    rw [List.getElem?_map]
    split at ok
    · rename_i none
      obtain rfl := Except.ok.inj ok
      rw [none]
      rfl
    · rename_i id label here
      obtain ⟨t, one, ok⟩ := bind_ok.mp ok
      obtain ⟨group, appends⟩ := block_appends one
      rw [here, ih ok, appends.ids]
      rfl

/-- Nothing is left to lower. -/
theorem Lays.refl (c : Context) (frame : OperandRef) (all : s.labels.length ≤ position) :
    Lays c frame position s s := by
  have rest : s.labels.drop position = [] := List.drop_eq_nil_iff.mpr all
  constructor
  · refine ⟨[], (List.append_nil _).symm, ?_⟩
    rw [rest]
    exact .nil
  · rw [rest, List.map_nil, List.flatMap_nil, extend]
  · exact List.prefix_refl _
  · exact .refl _
  · exact fun known => known

/-- One more block is lowered first. -/
theorem Lays.cons {frame : OperandRef} {t : Lowering} {id : BlockId} {label : String} {group : List Target.Block}
    {pl : Placement} (planned : Planned c.function c.plan pl) (inside : frame < s.program.pool.operands.size)
    (here : s.labels[position]? = some (id, label)) (one : s.block c id label = .ok t)
    (appends : Appends c id label group s t) (h : Lays c frame (position + 1) t s') : Lays c frame position s s' := by
  obtain ⟨groups, done, code⟩ := h.groups
  have labels := appends.labels.trans h.labels
  have there : s'.labels[position]? = some (id, label) := getElem?_of_isPrefix labels here
  obtain ⟨later, entry⟩ := List.getElem?_eq_some_iff.mp there
  have split : s'.labels.drop position = (id, label) :: s'.labels.drop (position + 1) := by
    rw [List.drop_eq_getElem_cons later, entry]
  have named := appends.named
  rw [countP_isMaterialized planned] at named
  constructor
  · refine ⟨group :: groups, ?_, ?_⟩
    · rw [done, appends.done, List.flatten_cons, List.append_assoc]
    · rw [split]
      exact .cons ⟨⟨s, t, one, appends.done, h.labels, inside, .of_grows h.pool frame⟩, named⟩ code
  · rw [split, List.map_cons, List.flatMap_cons, extend_append, ← appends.names, h.names]
  · exact labels
  · exact appends.pool.trans h.pool
  · exact h.known ∘ appends.known

theorem blocks_lay {frame : OperandRef} {pl : Placement} (planned : Planned c.function c.plan pl)
    (inside : frame < s.program.pool.operands.size) (enough : s'.labels.length ≤ position + fuel)
    (ok : s.blocks c fuel position = .ok s') : Lays c frame position s s' := by
  induction fuel generalizing position s with
  | zero =>
    obtain rfl := Except.ok.inj ok
    exact .refl c frame enough
  | succ fuel ih =>
    unfold Lowering.blocks at ok
    split at ok
    · rename_i none
      obtain rfl := Except.ok.inj ok
      exact .refl c frame (List.getElem?_eq_none_iff.mp none)
    · rename_i id label here
      obtain ⟨t, one, ok⟩ := bind_ok.mp ok
      obtain ⟨group, appends⟩ := block_appends one
      exact .cons planned inside here one appends (ih (Nat.lt_of_lt_of_le inside appends.pool.size) (by omega) ok)

theorem blocks_labelled (ok : s.blocks c fuel position = .ok s') (h : Labelled c s) : Labelled c s' := by
  induction fuel generalizing position s with
  | zero =>
    obtain rfl := Except.ok.inj ok
    exact h
  | succ fuel ih =>
    unfold Lowering.blocks at ok
    split at ok
    · obtain rfl := Except.ok.inj ok
      exact h
    · obtain ⟨t, one, ok⟩ := bind_ok.mp ok
      obtain ⟨group, appends⟩ := block_appends one
      exact ih ok (appends.labelled h)

/-- The blocks of a function are found by a worklist that needs no bound. -/
theorem blocks_drain (h : Labelled c s) :
    Drains (·.labels) (fun entry s => s.block c entry.1 entry.2) 0 s (s.blocks c c.function.blocks.length 0) := by
  refine drains_of_bound (fun _ _ => rfl) (fun fuel position s none => ?_) (fun fuel position s entry here => ?_)
    (fun s h => h.length_le) (fun entry s t h one => ?_) h (by omega)
  · rw [Lowering.blocks, none]
  · rw [Lowering.blocks, here]
  · obtain ⟨group, appends⟩ := block_appends one
    exact appends.labelled h

end Selection

end Codegen86
