import Codegen86.Proofs.Selection.Meaning
import Codegen86.Proofs.Selection.Search
/-!
# What is selected

Selection lowers the blocks and the functions that can be reached, each once and in breadth-first order
(`select_discovers`).  Both of its loops have a bound on their steps, and neither bound is ever met: they end as
worklists without a bound do (`Selects`, `LowersBody`).
-/

set_option autoImplicit false

namespace Codegen86.Selection

open Target
open IR (ValueId BlockId)

variable {source : IR.Program} {selector selector' : Selector} {f : IR.Function} {c : Context} {frame : OperandRef}
  {args : List OperandRef} {s s' : Lowering} {t : Target.Function}

/-! ## Lowering without bounds -/

/-- Lower the prologue of a function. -/
def openBody (source : IR.Program) (selector : Selector) (f : IR.Function) :
    Except Error (Context × OperandRef × List OperandRef × Lowering) := do
  let selector := { selector with journal := selector.journal.enter f.name }
  let plan ←
    match Plan.ofFunction f with
    | .ok plan => pure plan
    | .error defect => throw (.malformed f.name defect)
  let (epilogue, selector) := selector.freshLabel (labelBase f.name "epilogue")
  let (frame, selector) := selector.addOperand (.imm 0)
  let (prologue, selector) := selector.freshLabel (labelBase f.name "prologue")
  let c : Context := { source, function := f, plan, epilogue }
  let s : Lowering := { toSelector := selector, frame := plan.frame }
  let (body, s) ← s.labelOf c 0
  let (args, selector) := s.toSelector.freshRegisters f.arity
  let s := ({ s with toSelector := selector }.beginBlock prologue).emitSequence fun pool =>
    Calling.prologue pool frame args body
  return (c, frame, args, s.endBlock)

theorem lowerBody_eq (source : IR.Program) (selector : Selector) (f : IR.Function) :
    lowerBody source selector f = (do
      let (c, frame, args, s) ← openBody source selector f
      return (c, frame, args, ← s.blocks c f.blocks.length 0)) := by
  unfold lowerBody openBody
  cases Plan.ofFunction f with
  | error defect => rfl
  | ok plan => simp only [bind_assoc, pure_bind]

/-- What stands when the prologue of a function is made: it leads to the entry block, which is the only block found. -/
structure Opens (source : IR.Program) (selector : Selector) (f : IR.Function) (c : Context) (frame : OperandRef)
    (args : List OperandRef) (s : Lowering) : Prop where
  source : c.source = source
  function : c.function = f
  plan : Plan.ofFunction f = .ok c.plan
  found : s.found = selector.found
  labelled : Labelled c s
  prologue : ∃ name label before, s.labels = [(0, label)] ∧ frame < before.operands.size ∧
    s.done.toList = [{ name, code := (Calling.prologue before frame args label).1 }] ∧
    s.program.pool = (Calling.prologue before frame args label).2

theorem done_grow (s : Lowering) (name : String) (pool : Pool) (registers : Nat) (code : List Instruction)
    (journal : Journal) :
    ((s.beginBlock name).grow pool registers code journal).endBlock.done.toList =
      s.done.toList ++ [{ name := name, code := code }] := by
  simp [Lowering.endBlock, Lowering.grow, Lowering.beginBlock]

theorem openBody_ok (ok : openBody source selector f = .ok (c, frame, args, s)) :
    Opens source selector f c frame args s := by
  unfold openBody at ok
  cases planned : Plan.ofFunction f with
  | error defect =>
    rw [planned] at ok
    cases ok
  | ok plan =>
    rw [planned] at ok
    obtain ⟨_, same, ok⟩ := bind_ok.mp ok
    cases same
    obtain ⟨⟨body, u⟩, labelled, ok⟩ := bind_ok.mp ok
    obtain ⟨refs, pool, registers, grows, -⟩ := freshRegisters_spec u.toSelector f.arity
    dsimp only at ok
    rw [registers] at ok
    let frame' := selector.program.pool.operands.size
    let context : Context := { source, function := f, plan,
                               epilogue := labelBase f.name "epilogue" ++ toString selector.program.labels }
    let w : Lowering := { u with program := { u.program with pool }, registers := u.registers + f.arity }
    let begun := w.beginBlock (labelBase f.name "prologue" ++ toString (selector.program.labels + 1))
    have result : (context, frame', refs,
        (begun.emitSequence fun pool => Calling.prologue pool frame' refs body).endBlock) = (c, frame, args, s) :=
      Except.ok.inj ok
    obtain ⟨journal, emits⟩ :=
      Lowering.emitSequence_eq begun (fun pool => Calling.prologue pool frame' refs body) rfl
    rw [emits] at result
    simp only [Prod.mk.injEq] at result
    obtain ⟨rfl, rfl, rfl, rfl⟩ := result
    have labelled : (Lowering.opened selector f plan).labelOf context 0 = .ok (body, u) := labelled
    have grown : selector.program.pool.operands.size < (selector.program.pool.add (.imm 0)).2.operands.size := by simp
    cases labelOf_cases labelled with
    | known found _ => cases found
    | @new b _ block _ same =>
      subst same
      refine ⟨rfl, rfl, planned, rfl, ⟨List.nodup_singleton 0, fun entry mem => ?_⟩, _, body, pool, rfl,
        Nat.lt_of_lt_of_le grown grows.size, done_grow w _ _ _ _ _, rfl⟩
      obtain rfl := List.mem_singleton.mp mem
      exact (List.getElem?_eq_some_iff.mp block).1

/-- A function is lowered up to its epilogue by a worklist of blocks without a bound. -/
inductive LowersBody (source : IR.Program) (selector : Selector) (f : IR.Function) :
    Except Error (Context × OperandRef × List OperandRef × Lowering) → Prop
  | fails {e : Error} (fault : openBody source selector f = .error e) : LowersBody source selector f (.error e)
  | drains {c : Context} {frame : OperandRef} {args : List OperandRef} {s : Lowering} {result : Except Error Lowering}
      (opened : openBody source selector f = .ok (c, frame, args, s))
      (drains : Drains (·.labels) (fun entry s => s.block c entry.1 entry.2) 0 s result) :
      LowersBody source selector f (result.map fun s => (c, frame, args, s))

theorem lowerBody_lowers (source : IR.Program) (selector : Selector) (f : IR.Function) :
    LowersBody source selector f (lowerBody source selector f) := by
  rw [lowerBody_eq]
  cases opened : openBody source selector f with
  | error e => exact .fails opened
  | ok result =>
    obtain ⟨c, frame, args, s⟩ := result
    have opens := openBody_ok opened
    have drains := blocks_drain opens.labelled
    rw [opens.function] at drains
    have whole : (s.blocks c f.blocks.length 0 >>= fun last => .ok (c, frame, args, last)) =
        (s.blocks c f.blocks.length 0).map fun last => (c, frame, args, last) := by
      cases s.blocks c f.blocks.length 0 <;> rfl
    show LowersBody source selector f (s.blocks c f.blocks.length 0 >>= fun last => .ok (c, frame, args, last))
    rw [whole]
    exact .drains opened drains

/-- Lower a function found. -/
def lowerNamed (source : IR.Program) (name : String) (s : Selector) : Except Error Selector :=
  match source.function? name with
  | none => .error (.undefinedFunction name)
  | some f => do
    let (target, s) ← lowerFunction source s f
    let program ← s.program.add target
    return { s with program }

/-- What is there before the entry function is lowered. -/
def Selector.start (entry : String) (journal : Journal) : Selector :=
  ({ journal, program := ({} : Program).setEntry entry } : Selector).find entry

/-- A program is selected by a worklist of functions without a bound. -/
inductive Selects (source : IR.Program) (entry : String) (journal : Journal) :
    Except Error (Program × Journal) → Prop
  | missing (none : source.function? entry = none) : Selects source entry journal (.error (.missingEntry entry))
  | drains {f : IR.Function} {result : Except Error Selector} (found : source.function? entry = some f)
      (drains : Drains (·.found) (lowerNamed source) 0 (Selector.start entry journal) result) :
      Selects source entry journal (result.map fun s => (s.program, s.journal))

/-! ## Lowering a function -/

/-- How the target function is put together. -/
structure Composes (source : IR.Program) (selector : Selector) (f : IR.Function) (c : Context) (frame : OperandRef)
    (s s' : Lowering) (t : Target.Function) (selector' : Selector) : Prop where
  opens : Opens source selector f c frame t.args s
  blocks : s.blocks c f.blocks.length 0 = .ok s'
  named : t.name = f.name
  framed : t.frame = some frame
  all : t.blocks = s'.done.toList ++ [{ name := c.epilogue, code := (Calling.epilogue s'.program.pool frame).1 }]
  distinct : (t.blocks.map (·.name)).Nodup
  found : selector'.found = s'.found
  pool : ∃ size, selector'.program.pool = (Calling.epilogue s'.program.pool frame).2.set frame size

theorem lowerFunction_composes (ok : lowerFunction source selector f = .ok (t, selector')) :
    ∃ c frame s s', Composes source selector f c frame s s' t selector' := by
  obtain ⟨⟨c, frame, args, s'⟩, body, ok⟩ := bind_ok.mp ok
  rw [lowerBody_eq] at body
  obtain ⟨⟨c, frame, args, s⟩, opened, body⟩ := bind_ok.mp body
  obtain ⟨last, blocks, body⟩ := bind_ok.mp body
  cases body
  obtain ⟨t', added, ok⟩ := bind_ok.mp ok
  obtain ⟨journal, emits⟩ :=
    Lowering.emitSequence_eq (s'.beginBlock c.epilogue) (fun pool => Calling.epilogue pool frame) rfl
  let w := ((s'.beginBlock c.epilogue).emitSequence fun pool => Calling.epilogue pool frame).endBlock
  let empty : Target.Function := { name := f.name, args, frameSize := w.frame.words, frame := some frame }
  have added : w.done.toList.foldlM Target.Function.addBlock empty = .ok t' := added
  have result : (t', { w.toSelector with
    program := { w.program with pool := w.program.pool.set frame (.imm w.frame.size) }
    journal := w.journal.recordFunction f.name t'.size }) = (t, selector') := Except.ok.inj ok
  obtain ⟨same, distinct⟩ := (addBlocks_iff (t := empty) List.nodup_nil).mp added
  have final : w = ((s'.beginBlock c.epilogue).grow (Calling.epilogue s'.program.pool frame).2 s'.registers
      (Calling.epilogue s'.program.pool frame).1 journal).endBlock := congrArg Lowering.endBlock emits
  rw [final, done_grow] at same distinct
  rw [final] at result
  simp only [Prod.mk.injEq] at result
  obtain ⟨rfl, rfl⟩ := result
  refine ⟨c, frame, s, s', ?_⟩
  subst same
  exact ⟨openBody_ok opened, blocks, rfl, rfl, rfl, distinct, rfl, _, rfl⟩

theorem prologue_grows (p : Pool) (frame : OperandRef) (args : List OperandRef) (body : String) :
    p.Grows (Calling.prologue p frame args body).2 := by
  obtain ⟨code, q, eq, grows, -⟩ := prologue_spec p frame args (List.mem_singleton_self body)
  rw [eq]
  exact grows

theorem epilogue_grows (p : Pool) (frame : OperandRef) : p.Grows (Calling.epilogue p frame).2 := by
  obtain ⟨code, q, eq, grows, -⟩ := epilogue_spec p frame
  rw [eq]
  exact grows

namespace Composes

theorem labelled (h : Composes source selector f c frame s s' t selector') : Labelled c s' :=
  blocks_labelled h.blocks h.opens.labelled

theorem few (h : Composes source selector f c frame s s' t selector') : s'.labels.length ≤ f.blocks.length :=
  h.opens.function ▸ h.labelled.length_le

/-- The frame immediate was there before the first block. -/
theorem inside (h : Composes source selector f c frame s s' t selector') : frame < s.program.pool.operands.size := by
  obtain ⟨name, label, before, -, inside, -, pool⟩ := h.opens.prologue
  rw [pool]
  exact Nat.lt_of_lt_of_le inside (prologue_grows before frame t.args label).size

theorem lays (h : Composes source selector f c frame s s' t selector') : Lays c frame 0 s s' := by
  obtain ⟨pl, planned⟩ := Plan.ofFunction_ok h.opens.plan
  rw [← h.opens.function] at planned
  exact blocks_lay planned h.inside (by rw [Nat.zero_add]; exact h.few) h.blocks

/-- The blocks found are those of the search from the entry block. -/
theorem order (h : Composes source selector f c frame s s' t selector') : s'.labels.map (·.1) = blockOrder f := by
  obtain ⟨name, label, before, labels, -⟩ := h.opens.prologue
  have found := blocks_labels h.blocks
  rwa [labels, h.opens.function] at found

/-- The blocks that control can reach are lowered, in breadth-first order. -/
theorem breadthFirst (h : Composes source selector f c frame s s' t selector') :
    BreadthFirst (Reached f) (successors f) 0 (blockOrder f) := by
  have few := h.few
  rw [← List.length_map (·.1), h.order] at few
  have order := ((Searching.start (successors f) 0).run (by rw [Nat.zero_add]; exact few)).breadthFirst
  exact ⟨fun id => (order.mem id).trans reached_iff.symm, order.once, order.order⟩

/-- The functions found are those called in the blocks, in this order. -/
theorem names (h : Composes source selector f c frame s s' t selector') :
    selector'.found = extend selector.found ((blockOrder f).flatMap (callees f)) := by
  have names := h.lays.names
  rwa [List.drop_zero, h.order, h.opens.function, h.opens.found, ← h.found] at names

theorem known (h : Composes source selector f c frame s s' t selector') (before : Known source selector.found) :
    Known source selector'.found := by
  have known := h.lays.known
  rw [h.opens.source, h.opens.found, ← h.found] at known
  exact known before

end Composes

/-- The code is a sequence whose operands are in the pool. -/
def Laid (frame : OperandRef) (pool : Pool) (sequence : Pool → List Instruction × Pool) (code : List Instruction) :
    Prop :=
  ∃ before, code = (sequence before).1 ∧ frame < before.operands.size ∧ GrowsBut frame (sequence before).2 pool

/-- The blocks of a target function: the prologue, which leads to the entry block; the code of every block found, in
the order in which they are found; and the epilogue. -/
structure Arrangement (source : IR.Program) (pool : Pool) (f : IR.Function) (t : Target.Function) where
  context : Context
  frame : OperandRef
  labels : List (BlockId × String)
  prologue : Block
  groups : List (List Block)
  epilogue : Block
  all : t.blocks = prologue :: groups.flatten ++ [epilogue]
  distinct : (t.blocks.map (·.name)).Nodup
  framed : t.frame = some frame
  enters : ∃ label, labels.head? = some (0, label) ∧
    Laid frame pool (fun p => Calling.prologue p frame t.args label) prologue.code
  leaves : context.epilogue = epilogue.name ∧ Laid frame pool (fun p => Calling.epilogue p frame) epilogue.code
  program : context.source = source
  function : context.function = f
  plan : Plan.ofFunction f = .ok context.plan
  found : labels.map (·.1) = blockOrder f
  code : List.Forall₂ (CodeOf context frame labels pool) labels groups

theorem Composes.arrangement (h : Composes source selector f c frame s s' t selector') {pool : Pool}
    (grows : selector'.program.pool.Grows pool) : Nonempty (Arrangement source pool f t) := by
  obtain ⟨name, label, before, labels, first, done, opened⟩ := h.opens.prologue
  have lays := h.lays
  obtain ⟨groups, blocks, code⟩ := lays.groups
  obtain ⟨size, last⟩ := h.pool
  have inside : frame < s'.program.pool.operands.size := Nat.lt_of_lt_of_le h.inside lays.pool.size
  have closes := epilogue_grows s'.program.pool frame
  have later : GrowsBut frame (Calling.epilogue s'.program.pool frame).2 pool :=
    (GrowsBut.set _ (Nat.lt_of_lt_of_le inside closes.size) size).trans (.of_grows (last ▸ grows) frame)
  have after : GrowsBut frame s'.program.pool pool := (GrowsBut.of_grows closes frame).trans later
  have head : s'.labels.head? = some (0, label) := by
    obtain ⟨more, eq⟩ := lays.labels
    rw [← eq, labels]
    rfl
  exact ⟨{
    context := c
    frame
    labels := s'.labels
    prologue := _
    groups
    epilogue := _
    all := by
      rw [h.all, blocks, done]
      rfl
    distinct := h.distinct
    framed := h.framed
    enters := ⟨label, head, before, rfl, first, opened ▸ (GrowsBut.of_grows lays.pool frame).trans after⟩
    leaves := ⟨rfl, _, rfl, inside, later⟩
    program := h.opens.source
    function := h.opens.function
    plan := h.opens.plan
    found := h.order
    code := code.imp fun _ _ one => CodeOf.grow one after }⟩

/-! ## Lowering the functions found -/

variable {name entry : String} {fuel position : Nat} {u u' last : Selector}

theorem lowerFound_none (none : u.found[position]? = none) : lowerFound source (fuel + 1) position u = .ok u := by
  rw [lowerFound, none]

theorem lowerFound_some (here : u.found[position]? = some name) :
    lowerFound source (fuel + 1) position u = lowerNamed source name u >>= lowerFound source fuel (position + 1) := by
  rw [lowerFound, here, lowerNamed]
  dsimp only
  cases source.function? name with
  | none => rfl
  | some f => simp only [bind_assoc, pure_bind]

/-- A function found is lowered and added to the program. -/
theorem lowerNamed_ok (ok : lowerNamed source name u = .ok u') :
    ∃ f t v, source.function? name = some f ∧ lowerFunction source u f = .ok (t, v) ∧
      u' = { v with program := { v.program with functions := v.program.functions ++ [t] } } := by
  unfold lowerNamed at ok
  split at ok
  · cases ok
  · rename_i f found
    obtain ⟨⟨t, v⟩, one, ok⟩ := bind_ok.mp ok
    obtain ⟨p, added, ok⟩ := bind_ok.mp ok
    obtain ⟨-, rfl⟩ := add_iff.mp added
    exact ⟨f, t, v, found, one, (Except.ok.inj ok).symm⟩

theorem lowerNamed_found (ok : lowerNamed source name u = .ok u') :
    u'.found = extend u.found (calledBy source name) := by
  obtain ⟨f, t, v, found, one, rfl⟩ := lowerNamed_ok ok
  obtain ⟨c, frame, s, s', composes⟩ := lowerFunction_composes one
  rw [calledBy, found]
  exact composes.names

theorem lowerNamed_known (ok : lowerNamed source name u = .ok u') (known : Known source u.found) :
    Known source u'.found := by
  obtain ⟨f, t, v, found, one, rfl⟩ := lowerNamed_ok ok
  obtain ⟨c, frame, s, s', composes⟩ := lowerFunction_composes one
  exact composes.known known

/-- The functions are found by a worklist that needs no bound. -/
theorem lowerFound_drains (known : Known source u.found) :
    Drains (·.found) (lowerNamed source) 0 u (lowerFound source source.functions.length 0 u) :=
  drains_of_bound (fun _ _ => rfl) (fun _ _ _ none => lowerFound_none none) (fun _ _ _ _ here => lowerFound_some here)
    (fun _ known => known.length_le) (fun _ _ _ known one => lowerNamed_known one known) known (by omega)

theorem start_known {f : IR.Function} (found : source.function? entry = some f) (journal : Journal) :
    Known source (Selector.start entry journal).found :=
  (selecting_start (by rw [found]; rfl)).known

theorem select_selects (source : IR.Program) (entry : String) (journal : Journal) :
    Selects source entry journal (select source entry journal) := by
  unfold select
  cases found : source.function? entry with
  | none => exact .missing found
  | some f =>
    have drains := lowerFound_drains (start_known found journal)
    have whole : ((lowerFound source source.functions.length 0 (Selector.start entry journal)) >>=
        fun s => .ok (s.program, s.journal)) =
        (lowerFound source source.functions.length 0 (Selector.start entry journal)).map
          fun s => (s.program, s.journal) := by
      cases lowerFound source source.functions.length 0 (Selector.start entry journal) <;> rfl
    show Selects source entry journal (lowerFound source source.functions.length 0 (Selector.start entry journal) >>=
      fun s => .ok (s.program, s.journal))
    rw [whole]
    exact .drains found drains

theorem lowerFound_found (ok : lowerFound source fuel position u = .ok last) :
    last.found = search (calledBy source) fuel position u.found := by
  induction fuel generalizing position u with
  | zero =>
    obtain rfl := Except.ok.inj ok
    rfl
  | succ fuel ih =>
    unfold search
    cases here : u.found[position]? with
    | none =>
      rw [lowerFound_none here] at ok
      exact congrArg Selector.found (Except.ok.inj ok).symm
    | some name =>
      rw [lowerFound_some here] at ok
      obtain ⟨v, one, ok⟩ := bind_ok.mp ok
      rw [ih ok, lowerNamed_found one]

/-- Whatever function is added was lowered, and its operands stay. -/
theorem lowerFound_composes (ok : lowerFound source fuel position u = .ok last) (mem : t ∈ last.program.functions) :
    t ∈ u.program.functions ∨ ∃ f v v', source.function? t.name = some f ∧
      lowerFunction source v f = .ok (t, v') ∧ v'.program.pool.Grows last.program.pool := by
  induction fuel generalizing position u with
  | zero =>
    obtain rfl := Except.ok.inj ok
    exact .inl mem
  | succ fuel ih =>
    cases here : u.found[position]? with
    | none =>
      rw [lowerFound_none here] at ok
      obtain rfl := Except.ok.inj ok
      exact .inl mem
    | some name =>
      rw [lowerFound_some here] at ok
      obtain ⟨w, one, ok⟩ := bind_ok.mp ok
      rcases ih ok with old | lowered
      · obtain ⟨f, t', v, found, lowered, rfl⟩ := lowerNamed_ok one
        obtain ⟨c, frame, s, s', composes⟩ := lowerFunction_composes lowered
        obtain ⟨_, _, _, _, lowers⟩ := lowerFunction_cases lowered
        obtain ⟨-, -, -, -, -, grows⟩ := lowers.lowered
        rcases List.mem_append.mp old with old | new
        · exact .inl (grows.functions ▸ old)
        · obtain rfl := List.mem_singleton.mp new
          refine .inr ⟨f, u, v, ?_, lowered, (lowerFound_grows ok).1⟩
          rwa [composes.named, IR.Program.name_of_function? found]
      · exact .inr lowered

/-- A function called from the entry on is the one with its name. -/
theorem Called.function (called : Called source entry f) : source.function? f.name = some f := by
  cases called with
  | entry found => rwa [IR.Program.name_of_function? found]
  | call _ _ _ _ found => rwa [IR.Program.name_of_function? found]

/-- The functions found are those that are called, where the blocks found in each are those that control can reach. -/
theorem called_iff {found : List String}
    (order : BreadthFirst (Relation.ReflTransGen (fun a b => b ∈ calledBy source a) entry) (calledBy source) entry
      found)
    (known : Known source found)
    (blocks : ∀ f, source.function? f.name = some f → f.name ∈ found →
      BreadthFirst (Reached f) (successors f) 0 (blockOrder f)) :
    name ∈ found ↔ ∃ f, Called source entry f ∧ f.name = name := by
  constructor
  · intro mem
    have steps := (order.mem name).mp mem
    clear mem
    induction steps with
    | refl =>
      have mem : entry ∈ found := (order.mem entry).mpr .refl
      obtain ⟨f, function⟩ := Option.isSome_iff_exists.mp (known.known entry mem)
      exact ⟨f, .entry function, IR.Program.name_of_function? function⟩
    | @tail caller callee steps step ih =>
      obtain ⟨f, called, rfl⟩ := ih
      have function := called.function
      have there := known.known callee ((order.mem callee).mpr (steps.tail step))
      obtain ⟨g, target⟩ := Option.isSome_iff_exists.mp there
      simp only [calledBy, function] at step
      obtain ⟨id, found, calls⟩ := List.mem_flatMap.mp step
      obtain ⟨v, listed, args, op⟩ := mem_callees.mp calls
      have reached := ((blocks f function ((order.mem _).mpr steps)).mem id).mp found
      exact ⟨g, .call called reached listed op target, IR.Program.name_of_function? target⟩
  · rintro ⟨f, called, rfl⟩
    induction called with
    | entry function =>
      rw [IR.Program.name_of_function? function]
      exact (order.mem entry).mpr .refl
    | @call f g id v callee args called reached listed op target ih =>
      have function := called.function
      have inside := ((blocks f function ih).mem id).mpr reached
      have step : callee ∈ calledBy source f.name := by
        simp only [calledBy, function]
        exact List.mem_flatMap.mpr ⟨id, inside, mem_callees.mpr ⟨v, listed, args, op⟩⟩
      rw [IR.Program.name_of_function? target]
      exact (order.mem callee).mpr (((order.mem _).mp ih).tail step)

/-! ## Labels -/

section

variable {E : Site} {first next pushed next' pushed' : Nat} {x : OperandRef} {code : List Instruction}
  {slots : Slots}

theorem Site.Code.calls (made : E.Code first next pushed code next' pushed') (mem : .call x ∈ code) :
    ∃ name, E.Is x (.symbol name) ∧ name ∈ E.found := by
  obtain ⟨_, _, _, _, -, -, emission⟩ := made.emission mem
  cases emission with
  | call target known => exact ⟨_, target, known⟩

/-- A call in a lowered function is of a function that is found. -/
theorem Lowered.calls (h : Lowered E f frame first next t slots) (mem : .call x ∈ t.code) :
    ∃ name, E.Is x (.symbol name) ∧ name ∈ E.found := by
  obtain ⟨prologue, bodies, epilogue, middle, split, entry, blocks, leaves⟩ := h.blocks
  obtain ⟨b, block, mem⟩ := List.mem_flatMap.mp mem
  rw [split, List.mem_append, List.mem_singleton, List.mem_cons] at block
  rcases block with (rfl | block) | rfl
  · obtain ⟨saved, base, top, stack, loads, label, name, code, -, -, -, -, arguments, -⟩ := entry.split
    rw [code] at mem
    simp only [List.mem_append, List.mem_cons, List.not_mem_nil, or_false, reduceCtorEq, false_or] at mem
    exact (arguments.made first).calls mem
  · obtain ⟨_, _, -, -, emitted⟩ := blocks.mem block
    obtain ⟨body, closing, code, made, closes⟩ := emitted.split
    rw [code] at mem
    rcases List.mem_append.mp mem with mem | mem
    · exact made.calls mem
    · cases closes <;> simp at mem
  · obtain ⟨stack, saved, code, -⟩ := leaves.split
    rw [code] at mem
    simp at mem

theorem Functions.calls {pool : Pool} {found : List String} {low high : OperandRef} {functions : List Target.Function}
    {reserved : List Slots} (h : Functions source pool found low high first next functions reserved)
    (mem : t ∈ functions) (call : .call x ∈ t.code) : ∃ name, pool.get x = .symbol name ∧ name ∈ found := by
  induction h with
  | nil => cases mem
  | cons head _ _ grows known _ ih =>
    rcases List.mem_cons.mp mem with rfl | mem
    · obtain ⟨name, target, found⟩ := head.calls call
      exact ⟨name, (grows.get target.1.2).trans target.2, known found⟩
    · exact ih mem

end

/-- A jump leads to a block of its function, a call to a function of the program, and no other operand is a label. -/
theorem select_labels {journal journal' : Journal} {p : Program}
    (ok : select source entry journal = .ok (p, journal')) (mem : t ∈ p.functions) {i : Instruction}
    (code : i ∈ t.code) {x : OperandRef} (use : x ∈ i.operands) {l : Label} (label : p.pool.get x = .label l) :
    i.isJump = true ∧ l.name ∈ t.blocks.map (·.name) ∨ i = .call x ∧ l.name ∈ p.functions.map (·.name) := by
  obtain ⟨slots, -, selected⟩ := select_spec ok
  have target := (select_contract ok).labels i (List.mem_flatMap.mpr ⟨t, mem, code⟩) x use (by rw [label]; rfl)
  cases jump : i.isJump with
  | true =>
    obtain ⟨l', label', b, block, named⟩ := selected.named.jumps t mem i code jump x use
    cases label.symm.trans label'
    exact .inl ⟨rfl, List.mem_map.mpr ⟨b, block, named⟩⟩
  | false =>
    match i with
    | .call y =>
      obtain rfl : y = x := Option.some.inj target
      obtain ⟨next, functions⟩ := selected.functions
      obtain ⟨name, label', found⟩ := functions.calls mem code
      cases label.symm.trans label'
      exact .inr ⟨rfl, found⟩
    | .jump _ | .jumpIf _ _ => cases jump
    | .mov _ _ | .arith _ _ _ | .cmp _ _ | .push _ | .pop _ | .ret | .halt | .nop => cases target

/-! ## The selected program -/

/-- What is found and made of it: the functions that are called from the entry on, in the order of the first calls;
for each the blocks that control can reach; and labels of what is there only. -/
structure Discovered (source : IR.Program) (entry : String) (p : Program) : Prop where
  functions : BreadthFirst (fun name => ∃ f, Called source entry f ∧ f.name = name) (calledBy source) entry
    (p.functions.map (·.name))
  blocks : ∀ t ∈ p.functions, ∃ f, Called source entry f ∧ f.name = t.name ∧
    BreadthFirst (Reached f) (successors f) 0 (blockOrder f) ∧ Nonempty (Arrangement source p.pool f t)
  labels : ∀ t ∈ p.functions, ∀ i ∈ t.code, ∀ x ∈ i.operands, ∀ l, p.pool.get x = .label l →
    i.isJump = true ∧ l.name ∈ t.blocks.map (·.name) ∨ i = .call x ∧ l.name ∈ p.functions.map (·.name)

theorem select_found {journal journal' : Journal} {p : Program}
    (ok : select source entry journal = .ok (p, journal')) : Discovered source entry p := by
  have selected := ok
  unfold select at ok
  split at ok
  · cases ok
  · rename_i there
    have there : (source.function? entry).isSome = true := by simpa [Option.isSome_iff_ne_none] using there
    obtain ⟨last, all, ok⟩ := bind_ok.mp ok
    obtain ⟨rfl, -⟩ := Prod.mk.inj (Except.ok.inj ok)
    obtain ⟨-, -, _, -, selecting⟩ := lowerFound_spec (Nat.zero_add _) (selecting_start there) all
    have names := selecting.names
    rw [List.take_length] at names
    have found : last.found = search (calledBy source) source.functions.length 0 [entry] := lowerFound_found all
    have few := selecting.known.length_le
    have enough : (search (calledBy source) source.functions.length 0 [entry]).length ≤
        0 + source.functions.length := by
      rwa [← found, Nat.zero_add]
    have order := (Searching.start (calledBy source) entry).run enough
    rw [← found] at order
    have composed : ∀ t ∈ last.program.functions, ∃ f, source.function? f.name = some f ∧ f.name = t.name ∧
        BreadthFirst (Reached f) (successors f) 0 (blockOrder f) ∧
        Nonempty (Arrangement source last.program.pool f t) := by
      intro t mem
      obtain ⟨f, v, v', function, lowered, grows⟩ := (lowerFound_composes all mem).resolve_left nofun
      obtain ⟨c, frame, s, s', composes⟩ := lowerFunction_composes lowered
      have named := IR.Program.name_of_function? function
      exact ⟨f, named ▸ function, named, composes.breadthFirst, composes.arrangement grows⟩
    have blocks : ∀ f, source.function? f.name = some f → f.name ∈ last.found →
        BreadthFirst (Reached f) (successors f) 0 (blockOrder f) := by
      intro f function mem
      rw [← names] at mem
      obtain ⟨t, mem, named⟩ := List.mem_map.mp mem
      obtain ⟨g, function', named', blocks, -⟩ := composed t mem
      rw [named', named, function] at function'
      cases function'
      exact blocks
    have called : ∀ name, name ∈ last.found ↔ ∃ f, Called source entry f ∧ f.name = name := fun name =>
      called_iff order.breadthFirst selecting.known blocks
    refine ⟨?_, fun t mem => ?_, fun t mem i code x use l label => select_labels selected mem code use label⟩
    · rw [names]
      exact ⟨called, order.once, order.breadthFirst.order⟩
    · obtain ⟨f, function, named, blocks, arranged⟩ := composed t mem
      obtain ⟨g, called, same⟩ := (called t.name).mp (by rw [← names]; exact List.mem_map_of_mem mem)
      have function' := called.function
      rw [same, ← named, function] at function'
      cases function'
      exact ⟨f, called, named, blocks, arranged⟩

/-- **Selection lowers what can be reached, once.**  Its loops end where no function and no block is left, so that no
bound on their steps shows.  A selected program has the functions that are called from the entry on, each with the
blocks that control can reach, once and in breadth-first order; and every label in it names one of these. -/
theorem select_discovers (source : IR.Program) (entry : String) (journal : Journal) :
    Selects source entry journal (select source entry journal) ∧
      (∀ selector f, LowersBody source selector f (lowerBody source selector f)) ∧
      ∀ p journal', select source entry journal = .ok (p, journal') → Discovered source entry p :=
  ⟨select_selects source entry journal, lowerBody_lowers source, fun _ _ ok => select_found ok⟩

/-- A loop, a block and a function that nothing leads to, calls in a circle, and a comparison that is passed on. -/
def circle : IR.Program where
  functions := [{
    name := "main"
    arity := 0
    blocks := [{ name := "entry", body := [1, 2, 3, 4] }, { name := "idle", body := [5, 6] },
      { name := "loop", body := [7, 8] }, { name := "done", body := [9, 10] }]
    values := #[{ op := .arg 0 }, { op := .imm 1 }, { op := .binary (.compare .lt) 1 1 },
      { op := .call (.direct "first") [2] }, { op := .jump 2 }, { op := .call (.direct "skipped") [] },
      { op := .jump 3 }, { op := .binary (.compare .eq) 1 1 }, { op := .branch 7 2 3 },
      { op := .call (.direct "second") [] }, { op := .ret }] }, {
    name := "skipped"
    arity := 0
    blocks := [{ name := "entry", body := [0] }]
    values := #[{ op := .ret }] }, {
    name := "second"
    arity := 0
    blocks := [{ name := "entry", body := [0, 1] }]
    values := #[{ op := .call (.direct "main") [] }, { op := .ret }] }, {
    name := "first"
    arity := 1
    blocks := [{ name := "entry", body := [1, 2] }]
    values := #[{ op := .arg 0 }, { op := .call (.direct "second") [] }, { op := .retValue 0 }] }]

/-- The functions come in the order of the calls, and the comparison that is passed on takes two more blocks. -/
theorem circle_discovered :
    ∃ p journal, select circle "main" {} = .ok (p, journal) ∧ Discovered circle "main" p ∧
      p.functions.map (fun t => (t.name, t.blocks.length)) = [("main", 7), ("first", 3), ("second", 3)] := by
  have made : (select circle "main" {}).toOption.map (fun r => r.1.functions.map fun t => (t.name, t.blocks.length)) =
      some [("main", 7), ("first", 3), ("second", 3)] := by decide +kernel
  cases selected : select circle "main" {} with
  | error e =>
    rw [selected] at made
    cases made
  | ok result =>
    rw [selected] at made
    obtain ⟨-, -, discovered⟩ := select_discovers circle "main" {}
    exact ⟨result.1, result.2, rfl, discovered result.1 result.2 selected, Option.some.inj made⟩

end Codegen86.Selection
