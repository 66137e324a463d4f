import Codegen86.Proofs.Selection.BlockRuns
import Codegen86.Proofs.Selection.Discovery
/-!
# Running lowered functions

A function that is lowered and entered goes on block by block as its activation does, and its epilogue returns
(`Includes.enters`).
-/

set_option autoImplicit false

namespace Codegen86.Selection

open Target IR Symbolic

variable {A : Scene} {source : IR.Program} {selector selector' : Selector} {f : IR.Function} {c : Context}
  {frame : OperandRef} {s s' : Lowering} {t : Target.Function} {calls : Calls} {r : IR.Result}
  {within : String → View → Prop} {R : Except Trap View → Prop}

/-! ## Blocks -/

/-- The code of a block is found under its name. -/
theorem codeOf?_of_mem {b : Target.Block} (distinct : (t.blocks.map (·.name)).Nodup) (mem : b ∈ t.blocks) :
    t.codeOf? b.name = some b.code := by
  have found : t.block? b.name = some b := by
    unfold Target.Function.block?
    cases looked : t.blocks.find? (·.name == b.name) with
    | none =>
      have := List.find?_eq_none.mp looked b mem
      simp at this
    | some b' =>
      have named : b'.name = b.name := by simpa using List.find?_some looked
      exact congrArg some (List.inj_on_of_nodup_map distinct (List.mem_of_find?_eq_some looked) mem named)
  rw [Target.Function.codeOf?, found]
  rfl

/-- The blocks that were made are blocks of the function. -/
theorem Lowers.codeOf? (h : Lowers source selector f c frame s s' t selector') {b : Target.Block}
    (made : b ∈ s'.done.toList) : t.codeOf? b.name = some b.code := by
  obtain ⟨code, pool, journal, -, -, blocks, -⟩ := h.epilogue
  exact codeOf?_of_mem h.distinct (by rw [blocks]; exact List.mem_append_left _ made)

/-- A block found has one label. -/
theorem Labelled.unique (h : Labelled c s) {id : BlockId} {label label' : String} (listed : (id, label) ∈ s.labels)
    (listed' : (id, label') ∈ s.labels) : label = label' :=
  congrArg Prod.snd (List.inj_on_of_nodup_map h.distinct listed listed' rfl)

/-- The blocks of a lowered function go on as the activation does. -/
theorem Lowers.goes (h : Lowers source selector f A.context frame s s' t selector') (least : A.site.least = frame + 1)
    (covers : A.Covers s') (course : Course A t within R r) (knows : A.Knows calls) (fuel : Nat) :
    A.Goes t within R calls r fuel s'.labels := by
  induction fuel with
  | zero =>
    intro target label a v _ _ _ outcome
    cases outcome
  | succ fuel ih =>
    intro target label a v listed stored settled outcome
    obtain ⟨b, o, found, evaluated, finishes⟩ := blocks_succ_iff.mp outcome
    obtain ⟨position, label', u, u', between, here, ok, passes⟩ :=
      h.made (List.mem_map_of_mem (f := (·.1)) listed)
    obtain ⟨-, passes'⟩ := block_spec h.placed between here ok
    obtain rfl : label' = label :=
      h.finished.1.labelled.unique ((passes'.trans passes).labels.subset (List.mem_of_getElem? here)) listed
    have sound := between.begin label'
    rw [← least] at sound
    obtain ⟨w, all, ok⟩ := bind_ok.mp ok
    obtain rfl := Except.ok.inj ok
    rw [found] at all
    have mem := List.mem_of_getElem? found
    have covered : A.Covers w := by
      have le : (w.endBlock.site A.context A.site.least).Le (s'.site A.context A.site.least) := passes.le
      exact ⟨Site.Le.trans le covers.le, passes.slots.trans covers.slots⟩
    obtain ⟨code, is, runs⟩ := operations_runs course knows sound mem (show b.body = [] ++ b.body from rfl)
      (h.placed b mem).1 all covered (fun b made => h.codeOf? (passes.done.subset made)) passes.labels.subset ih
    refine course.ends is stored fun p stored => ?_
    exact runs (.of_stored stored rfl) settled evaluated finishes

/-! ## Entering -/

/-- A state behind the push with which a function begins: the base pointer of the caller is on top of the stack,
above it are the return address and the arguments, and there is room for `n` words. -/
structure Opened (m : Symbolic.Memory) (n : Nat) (args : List Word) (v : View) : Prop where
  spare : m.Spare n v.stackPointer
  least : 0 ≤ v.stackPointer.toInt
  most : v.stackPointer.toInt + 2 + args.length ≤ m.top
  stacked : ∃ saved back, v.Stacked (saved :: back :: args)

variable {m : Symbolic.Memory} {n k i : Nat} {args : List Word} {u v : View} {a : Activation} {w : Word}
  {code : List Instruction} {E : Site}

theorem Opened.passed (h : Opened m n args v) (param : args[i]? = some w) :
    v.memory (v.stackPointer + Word.ofNat (Calling.argBase + i)) = w := by
  obtain ⟨saved, back, stacked⟩ := h.stacked
  refine stacked (Calling.argBase + i) w ?_
  rw [Calling.argBase, Nat.add_comm]
  exact param

/-- A function begins with a push, where the stack may overflow. -/
theorem opened_of_entered (bounded : m.top < 2 ^ 63) (entered : Entered m (n + 1) args v) (abstracts : Bool) :
    (∃ u, v.push (m.model abstracts) v.basePointer = .ok u ∧ Opened m n args (u.note v.basePointer) ∧
        u = { v with
          stackPointer := v.stackPointer - 1
          memory := put v.memory (v.stackPointer - 1) v.basePointer } ∧
        (v.stackPointer - 1).toInt = v.stackPointer.toInt - 1) ∨
      m = .unbounded ∧ v.push (m.model abstracts) v.basePointer = .error .stackOverflow := by
  obtain ⟨back, stacked⟩ := entered.stacked
  have most := entered.most
  rcases entered.spare.push abstracts (by omega) v.basePointer with ⟨pushed, positive, low, spare⟩ | overflow
  · refine .inl ⟨_, pushed, ⟨spare, ?_, ?_, v.basePointer, back, ?_⟩, rfl, low⟩
    · show 0 ≤ (v.stackPointer - 1).toInt
      omega
    · show (v.stackPointer - 1).toInt + 2 + args.length ≤ m.top
      omega
    · exact stacked.push bounded (by simp only [List.length_cons]; omega) positive rfl low rfl
  · exact .inr overflow

/-- A function that was entered in state `v` returns when what its first push changed is undone. -/
theorem returns_of_saved {w : View} (low : (v.stackPointer - 1).toInt = v.stackPointer.toInt - 1)
    (defined : r ≠ .divisionByZero) (result : ∀ x, r = .value x → w.general 0 = x)
    (stack : w.stackPointer = v.stackPointer - 1 + 1)
    (base : w.basePointer = put v.memory (v.stackPointer - 1) v.basePointer (v.stackPointer - 1))
    (above : ∀ address, (v.stackPointer - 1).toInt ≤ address.toInt →
      w.memory address = put v.memory (v.stackPointer - 1) v.basePointer address) : Returns r v w where
  defined := defined
  result := result
  stackPointer := stack.trans (by grind)
  basePointer := base.trans (put_self _ _ _)
  memory address high := by
    refine (above address (by omega)).trans (put_of_ne _ _ ?_)
    rintro rfl
    omega

theorem Site.Arguments.next_eq {k n : Nat} (loads : E.Arguments i k code n) : n = k + code.length := by
  induction loads with
  | nil => rfl
  | cons _ _ _ _ ih =>
    rw [ih, List.length_cons]
    omega

namespace Scene

/-- At first only parameters have values, and nothing was computed. -/
theorem stored_start (A : Scene) (base : v.basePointer = A.base) (stack : v.stackPointer = A.bottom)
    (same : ∀ address, A.base.toInt ≤ address.toInt → v.memory address = A.above address) :
    Stored A (.start A.context.function A.args) v where
  basePointer := base
  stackPointer := stack
  above := same
  params x i w param known := by
    rw [Activation.start] at known
    simpa only [param] using known
  homes x offset w home wanted known := by
    obtain ⟨pl, planned⟩ := A.planned
    have placed := planned.owned x (List.mem_map_of_mem (f := (·.1)) (mem_of_lookup home))
    rw [Activation.start] at known
    dsimp only at known
    split at known
    · rename_i i param
      exact absurd param (planned.placed.noArg placed i)
    · cases known
  cells x offset w slot known := by cases known

/-- Arguments are loaded into registers. -/
theorem arguments_performs {T : Trap → Prop} (loads : A.site.Arguments i k code n)
    (few : i + code.length ≤ A.args.length) (stored : Stored A a v) :
    Performs A.surroundings T code v (Stored A a) := by
  induction loads generalizing v with
  | nil => exact .nil stored
  | @cons i k n x y rest param target source _ ih =>
    rw [List.length_cons] at few
    have passed : A.args[i]? = some A.args[i] := List.getElem?_eq_getElem (by omega)
    show Performs A.surroundings T ([.mov x y] ++ rest) v (Stored A a)
    refine Performs.append (P := Stored A a) ?_ fun u stored => ih (by omega) stored
    refine stored.load_performs target.2 (w := A.args[i]) ?_ (stored.congr rfl rfl fun _ _ => rfl)
    rw [source.2]
    exact stored.read_arg passed

/-- Behind the push the prologue makes the frame, and then it leads to the entry block. -/
theorem opens {first next : Nat} {targets : List String} (entry : Entry A.site frame targets first next code)
    (reserves : A.site.pool.get frame = .imm (Word.ofNat A.size)) (few : next ≤ first + A.args.length)
    (stack : v.stackPointer = A.base)
    (same : ∀ address, A.base.toInt ≤ address.toInt → v.memory address = A.above address)
    (goes : ∀ name ∈ targets, ∀ u, Stored A (.start A.context.function A.args) u → A.Ends t within R name u) :
    ∃ saved base top pointer rest, code = [.push saved, .mov base top, .arith .sub pointer frame] ++ rest ∧
      A.site.pool.get saved = .reg .basePointer ∧
      v.executeAll (A.memory.model true) A.site.pool [.mov base top, .arith .sub pointer frame] =
        .ok { v with basePointer := A.base, stackPointer := A.bottom } ∧
      Runs A.surroundings k rest { v with basePointer := A.base, stackPointer := A.bottom }
        (A.Continues t within R) := by
  obtain ⟨saved, base, top, pointer, loads, label, name, rfl, isSaved, isBase, isTop, isStack, arguments, target,
    known⟩ := entry.split
  have length := arguments.next_eq
  refine ⟨saved, base, top, pointer, loads ++ [.jump label], List.append_assoc .., isSaved.2, ?_, ?_⟩
  · have moved : v.execute (A.memory.model true) A.site.pool (.mov base top) =
        .ok { v with basePointer := A.base } := by
      refine (execute_mov (w := v.stackPointer) ?_).trans ?_
      · rw [isTop.2]
        rfl
      · rw [isBase.2, ← stack]
        rfl
    have reserved : View.execute (A.memory.model true) A.site.pool { v with basePointer := A.base }
        (.arith .sub pointer frame) = .ok { v with basePointer := A.base, stackPointer := A.bottom } := by
      refine (execute_arith (a := A.base) (b := Word.ofNat A.size) (w := A.bottom) ?_ ?_ rfl).trans ?_
      · rw [isStack.2, ← stack]
        rfl
      · rw [reserves]
        rfl
      · rw [isStack.2]
        rfl
    simp only [View.executeAll, moved, reserved, bind, Except.bind]
  · have stored := A.stored_start (v := { v with basePointer := A.base, stackPointer := A.bottom }) rfl rfl same
    have performs := arguments_performs (T := fun _ => False) arguments (by omega) stored
    refine performs.runs (fun _ _ none => none.elim) fun k u stored => ?_
    exact Runs.jump_iff.mpr ⟨stored.within, _, target.2, goes name known u stored⟩

/-- The epilogue returns. -/
theorem closes (leaves : Exit A.site frame code)
    (reserves : A.site.pool.get frame = .imm (Word.ofNat A.size))
    (found : t.codeOf? A.context.epilogue = some code) (outside : ∀ u, within A.context.epilogue u)
    (returns : ∀ u, u.general 0 = v.general 0 → u.stackPointer = A.base + 1 → u.basePointer = A.above A.base →
      (∀ address, A.base.toInt ≤ address.toInt → u.memory address = A.above address) → R (.ok u))
    (stored : Stored A a v) : A.Ends t within R A.context.epilogue v := by
  obtain ⟨pointer, saved, rfl, isStack, isSaved⟩ := leaves.split
  refine .of_runs found fun u alike => ?_
  have kept := stored.alike alike
  have back : Arith.add.eval A.bottom (Word.ofNat A.size) = some A.base :=
    congrArg some (Word.add_ofNat (by rw [A.toInt_bottom]; omega))
  have most := A.most
  have valid : (A.memory.model true).valid A.base = true := A.valid (by omega) (by omega)
  refine .plain rfl (outside u) (w := { u with stackPointer := A.base }) ?_
    (.plain rfl (outside _) (w := { u with stackPointer := A.base + 1, basePointer := A.above A.base }) ?_
      (Runs.ret_iff.mpr ⟨outside _, returns _ alike.result rfl rfl kept.above⟩))
  · refine (execute_arith (a := A.bottom) (b := Word.ofNat A.size) (w := A.base) ?_ ?_ back).trans ?_
    · show View.read _ _ (A.site.pool.get pointer) = _
      rw [isStack.2, ← kept.stackPointer]
      rfl
    · show View.read _ _ (A.site.pool.get frame) = _
      rw [reserves]
      rfl
    · show View.write _ _ (A.site.pool.get pointer) _ = _
      rw [isStack.2]
      rfl
  · have popped : View.pop (A.memory.model true) { u with stackPointer := A.base } =
        .ok (A.above A.base, { u with stackPointer := A.base + 1 }) := by
      rw [View.pop, if_pos valid, ← kept.above A.base (Int.le_refl _)]
    show View.execute (A.memory.model true) A.site.pool _ (.pop saved) = _
    simp only [View.execute, popped, bind, Except.bind, isSaved.2]
    rfl

end Scene

/-! ## Whole activations -/

/-- The pool with a frame of `size` words reserved by an immediate; the other operands stay. -/
structure Resized (p : Pool) (frame : OperandRef) (size : Nat) (pool : Pool) : Prop where
  grows : p.operands.size ≤ pool.operands.size
  amount : pool.get frame = .imm (Word.ofNat size)
  others : ∀ x, x ≠ frame → pool.get x = p.get x

/-- What the scene of an activation is made of: `words` of the frame are in use, and it is at `base`. -/
structure Activates (A : Scene) (m : Symbolic.Memory) (pool : Pool) (source : IR.Program) (known : Calls)
    (room words size : Nat) (base : Word) : Prop where
  memory : A.memory = m
  pool : A.site.pool = pool
  source : A.context.source = source
  known : A.known = known
  room : A.room = room
  size : A.size = size
  words : A.site.words = words
  base : A.base = base

namespace Includes

variable {last : Selector} {room widest fuel size : Nat} {pool : Pool}

/-- Where the code of a function was made, in the end. -/
def made (last : Selector) (pool : Pool) (c : Context) (frame : OperandRef) (s' : Lowering) : Site :=
  { s'.site c (frame + 1) with pool, found := last.found }

/-- A frame has a word for every home and every local variable, value numbers having 32 bits. -/
theorem frameSize (h : Includes source last f c frame selector s s' t selector')
    (numbers : ∀ x ∈ f.placed, x < 2 ^ 32) :
    t.frameSize.toNat = c.plan.homes.length + s'.slots.length := by
  obtain ⟨between, -⟩ := h.lowers.finished
  obtain ⟨pl, planned⟩ := Plan.ofFunction_ok h.lowers.plan
  rw [← h.lowers.function] at planned numbers
  rw [h.lowers.size, between.framed.words]
  exact Nat.mod_eq_of_lt
    (between.slotted.words_lt planned between.labelled.distinct between.labelled.known numbers)

/-- The frame immediate is the size of the frame. -/
theorem resized (h : Includes source last f c frame selector s s' t selector') :
    Resized last.program.pool frame t.frameSize.toNat last.program.pool := by
  obtain ⟨between, -⟩ := h.lowers.finished
  obtain ⟨code, pool, journal, grows, -, -, same⟩ := h.lowers.epilogue
  have inside : frame < pool.operands.size := Nat.lt_of_lt_of_le between.pool grows.size
  have set : selector'.program.pool = pool.set frame (.imm s'.frame.size) := by rw [same]
  refine ⟨Nat.le_refl _, ?_, fun _ _ => rfl⟩
  rw [h.pool.get, set, Pool.get_set pool _ _ inside, if_pos rfl, h.lowers.size]
  · rfl
  · rw [set]
    simpa [Pool.set] using inside

/-- What the function was made with is still there, with a frame of any size. -/
theorem kept (h : Includes source last f c frame selector s s' t selector')
    (resizes : Resized last.program.pool frame size pool) :
    (s'.site c (frame + 1)).Le (made last pool c frame s') ∧
      ∃ code, t.blocks = s'.done.toList ++ [{ name := c.epilogue, code }] ∧
        Exit (made last pool c frame s') frame code := by
  obtain ⟨between, -⟩ := h.lowers.finished
  obtain ⟨code, q, journal, grows, leaves, blocks, same⟩ := h.lowers.epilogue
  have enough := between.pool
  have inside : frame < q.operands.size := Nat.lt_of_lt_of_le enough grows.size
  have set : selector'.program.pool = q.set frame (.imm s'.frame.size) := by rw [same]
  have found : s'.found ⊆ last.found := by
    have := h.found.subset
    rwa [same] at this
  have resized : (made last last.program.pool c frame s').Le (made last pool c frame s') :=
    ⟨resizes.grows, rfl, fun {x} within => resizes.others x (Nat.ne_of_gt within.1), Nat.le_refl _, fun _ => id, id⟩
  have later : ({ s'.site c (frame + 1) with pool := q } : Site).Le (made last pool c frame s') :=
    Site.Le.trans ((Site.Le.of_set (Nat.lt_succ_self frame) inside (.imm s'.frame.size)).trans
      (.of_grows (set ▸ h.pool) found)) resized
  exact ⟨Site.Le.trans (.of_grows grows fun _ mem => mem) later, code, blocks,
    (leaves { s'.site c (frame + 1) with pool := q } (.refl _) enough).mono later⟩

/-- The activation of an entered function, in a pool that reserves at least its frame. -/
def scene (h : Includes source last f c frame selector s s' t selector') (numbers : ∀ x ∈ f.placed, x < 2 ^ 32)
    (pool : Pool) (enough : t.frameSize.toNat ≤ size) (small : size < 2 ^ 32)
    (known : Calls) (arities : ∀ name g, source.function? name = some g → g.arity ≤ widest)
    (bounded : m.top < 2 ^ 63) (opened : Opened m (room + 1 + widest + size) args v) : Scene where
  context := c
  site := made last pool c frame s'
  slots := s'.slots
  memory := m
  known := known
  room := room
  widest := widest
  args := args
  base := v.stackPointer
  size := size
  above := v.memory
  words := rfl
  reserved := h.lowers.finished.1.framed.reserved
  owners := by
    obtain ⟨between, -⟩ := h.lowers.finished
    obtain ⟨pl, planned⟩ := Plan.ofFunction_ok h.lowers.plan
    rw [← h.lowers.function] at planned
    exact between.slotted.distinct planned between.labelled.distinct between.labelled.known
  fits := Nat.le_trans (Nat.le_of_eq (h.frameSize numbers).symm) enough
  small := small
  least := opened.least
  most := opened.most
  bounded := bounded
  spare := by
    have most := opened.most
    have least := opened.least
    have place : (Word.ofNat size).toInt = size := Word.toInt_ofNat (by omega)
    refine opened.spare.down (Int.le_of_eq ?_)
    rw [Word.toInt_sub_of_bounds] <;> omega
  passed _ _ param := opened.passed param
  planned := by
    obtain ⟨pl, planned⟩ := Plan.ofFunction_ok h.lowers.plan
    exact ⟨pl, h.lowers.function.symm ▸ planned⟩
  arities name g function := arities name g (h.lowers.source ▸ function)

/-- A function that is entered comes to what its activation comes to: its first instructions make the frame, unless
the stack overflows, and from there on it runs in the scene of the activation. -/
theorem enters (h : Includes source last f c frame selector s s' t selector') (within : String → View → Prop)
    (resizes : Resized last.program.pool frame size pool) (enough : t.frameSize.toNat ≤ size)
    (small : size < 2 ^ 32) (known : Calls) (numbers : ∀ x ∈ f.placed, x < 2 ^ 32)
    (arities : ∀ name g, source.function? name = some g → g.arity ≤ widest)
    (bounded : m.top < 2 ^ 63) (knows : ∀ name ∈ last.found, ∀ words, known name words = calls name words)
    (arity : args.length = f.arity) (outcome : Activation.blocks calls f fuel 0 (.start f args) = some r)
    (entered : Entered m (room + 1 + widest + size + 1) args v)
    (inside : ∀ name (u : View), u.basePointer = v.stackPointer - 1 →
      u.stackPointer.toInt + size ≤ u.basePointer.toInt → within name u)
    (outside : ∀ b ∈ t.blocks.getLast?, ∀ u, within b.name u) :
    ∃ prologue others saved base top pointer rest, t.blocks = prologue :: others ∧
      prologue.code = [.push saved, .mov base top, .arith .sub pointer frame] ++ rest ∧
      ((∃ A u, Activates A m pool source known room t.frameSize.toNat size (v.stackPointer - 1) ∧
          v.executeAll (m.model true) pool [.push saved, .mov base top, .arith .sub pointer frame] = .ok u ∧
          Runs A.surroundings 0 rest u (A.Continues t within (m.Ended r v))) ∨
        m = .unbounded ∧ v.executeAll (m.model true) pool
          [.push saved, .mov base top, .arith .sub pointer frame] = .error .stackOverflow) := by
  obtain ⟨name, code, body, done, labels, -, entry⟩ := h.lowers.prologue
  obtain ⟨le, code', blocks, leaves⟩ := h.kept resizes
  obtain ⟨between, passes⟩ := h.lowers.finished
  obtain ⟨more, eq⟩ := passes.done
  rw [← eq, done, List.singleton_append, List.cons_append] at blocks
  have entry := entry.mono (passes.le.trans le) (List.Subset.refl _)
  have registers := h.lowers.registers
  rcases opened_of_entered bounded entered true with ⟨u, pushed, opened, rfl, low⟩ | ⟨rfl, fails⟩
  · obtain rfl := h.lowers.source
    obtain rfl := h.lowers.function
    let A := h.scene numbers pool enough small known arities bounded opened
    have covers : A.Covers s' := ⟨le, List.suffix_refl _⟩
    have found : t.codeOf? c.epilogue = some code' :=
      codeOf?_of_mem h.lowers.distinct (b := { name := c.epilogue, code := code' }) (by simp [blocks])
    have final : { name := c.epilogue, code := code' } ∈ t.blocks.getLast? := by
      rw [blocks, ← List.cons_append, List.getLast?_concat]
      rfl
    have course : Course A t within (m.Ended r v) r := by
      refine ⟨fun name u ⟨base, room⟩ => inside name u base (base ▸ room), fun _ fails => fails,
        fun a u stored defined result => ?_⟩
      exact A.closes leaves resizes.amount found (outside { name := c.epilogue, code := code' } final)
        (fun w general stack base above =>
          returns_of_saved low defined (fun x same => general.trans (result x same)) stack base above) stored
    have first : (0, body) ∈ s'.labels := passes.labels.subset (by rw [labels]; exact List.mem_singleton_self _)
    have goes : ∀ label ∈ [body], ∀ u, Stored A (.start c.function args) u →
        A.Ends t within (m.Ended r v) label u := by
      intro label known u stored
      obtain rfl := List.mem_singleton.mp known
      obtain ⟨pl, planned⟩ := A.planned
      exact h.lowers.goes (A := A) rfl covers course knows fuel 0 label _ u first stored
        (.start _ fun x placed => planned.placed.noArg placed) outcome
    obtain ⟨saved, base, top, pointer, rest, rfl, isSaved, frames, runs⟩ := A.opens (k := 0) entry resizes.amount
      (show s.registers ≤ selector.registers + args.length by omega) rfl (fun _ _ => rfl) goes
    refine ⟨_, _, saved, base, top, pointer, rest, blocks, rfl, .inl ⟨A, _, ?_, ?_, runs⟩⟩
    · exact ⟨rfl, rfl, rfl, rfl, rfl, rfl, (h.frameSize numbers).symm, rfl⟩
    · have source : v.read (m.model true) (pool.get saved) = .ok v.basePointer := by
        rw [show pool.get saved = .reg .basePointer from isSaved]
        rfl
      rw [View.executeAll, execute_push source pushed]
      exact frames
  · obtain ⟨saved, base, top, stack, loads, label, target, split, isSaved, -⟩ := entry.split
    refine ⟨_, _, saved, base, top, stack, loads ++ [.jump label], blocks, split.trans (List.append_assoc ..),
      .inr ⟨rfl, ?_⟩⟩
    have source : v.read (Symbolic.Memory.unbounded.model true) (pool.get saved) = .ok v.basePointer := by
      rw [show pool.get saved = .reg .basePointer from isSaved.2]
      rfl
    rw [View.executeAll, execute_push_error source fails]
    rfl

end Includes

end Codegen86.Selection
