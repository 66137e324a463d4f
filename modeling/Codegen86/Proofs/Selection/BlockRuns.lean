import Codegen86.Proofs.IR.Comparisons
import Codegen86.Proofs.Selection.CallSites
/-!
# Running lowered blocks

A block that is lowered from a state of an activation leads to where the evaluation of the block leads
(`block_ends`).
-/

set_option autoImplicit false

namespace Codegen86.Selection

open Target IR Symbolic

variable {A : Scene} {start first : Nat} {s s' : Lowering} {a : Activation} {u v : View} {x : ValueId}
  {calls : Calls} {r : IR.Result} {o : Outcome}

/-- What the activation knows of calls is known of the functions found. -/
def Scene.Knows (A : Scene) (calls : Calls) : Prop :=
  ∀ name ∈ A.site.found, ∀ words, A.known name words = calls name words

/-! ## Straight operations -/

/-- What an operation leads to, where the activation ends with `r`. -/
def Evaluates (A : Scene) (s' : Lowering) (o : Outcome) (u : View) : Prop := ∃ a', o = .next a' ∧ Tracks A s' a' u

/-- An operation that transfers no control, other than a comparison whose value is kept. -/
theorem operation_performs (knows : A.Knows calls) (h : Sound A.context A.site.least start first s)
    (placed : x ∈ A.context.function.placed) {op : Op} (listed : Listed A.context.function x false op)
    (straight : ∀ cmp l r, op = .binary (.compare cmp) l r → x ∈ A.context.plan.fused)
    (ok : s.operation A.context x = .ok s') (covers : A.Covers s') :
    ∃ code, s'.name = s.name ∧ s'.code.toList = s.code.toList ++ code ∧ ∀ {a v o r}, Tracks A s a v →
      a.operation calls A.context.function x = some o → (∀ r', o = .ended r' → r' = r) →
      Performs A.surroundings (A.memory.Fails r) code v (Evaluates A s' o) := by
  have found := listed.found
  have noArg : ∀ i, A.context.function.op? x ≠ some (.arg i) := fun i same => by
    rw [found] at same
    exact listed.noArg i (Option.some.inj same)
  have wanted : ∀ y ∈ op.operands, A.Wanted y := by
    intro y read
    refine A.wanted_of_operand placed (by simpa [Function.operandsOf, found] using read) fun onTrue onFalse same => ?_
    rw [found] at same
    cases same
    cases listed.terminator
  unfold Lowering.operation at ok
  rw [found] at ok
  unfold Activation.operation
  simp only [found, Option.bind_eq_bind, Option.bind_some]
  cases op with
  | arg i => exact absurd rfl (listed.noArg i)
  | imm value =>
    cases ok
    obtain ⟨code, emits, performs⟩ := defineByMove_performs h (.imm value) noArg covers
    refine ⟨code, emits.name, emits.added, fun {a v o r} tracks evaluated ends => ?_⟩
    cases evaluated
    exact (performs (w := value) (some value) tracks rfl fun w same => (Option.some.inj same).symm).mono
      fun u tracks => ⟨_, rfl, tracks⟩
  | float value => cases ok
  | symbol name => cases ok
  | alloca bytes =>
    obtain ⟨code, name, added, performs⟩ := alloca_performs h ok covers
    refine ⟨code, name, added, fun {a v o r} tracks evaluated ends => ?_⟩
    cases evaluated
    exact (performs tracks).mono fun u tracks => ⟨_, rfl, tracks⟩
  | load addr =>
    obtain ⟨offset, slot, ok⟩ := bind_ok.mp ok
    cases ok
    obtain ⟨code, emits, performs⟩ := load_performs h slot noArg covers
    refine ⟨code, emits.name, emits.added, fun {a v o r} tracks evaluated ends => ?_⟩
    obtain ⟨w, cell, evaluated⟩ := Option.bind_eq_some_iff.mp evaluated
    cases evaluated
    exact (performs tracks cell).mono fun u tracks => ⟨_, rfl, tracks⟩
  | store addr value =>
    obtain ⟨code, emits, performs⟩ := store_performs h ok covers
    refine ⟨code, emits.name, emits.added, fun {a v o r} tracks evaluated ends => ?_⟩
    obtain ⟨w, known, evaluated⟩ := Option.bind_eq_some_iff.mp evaluated
    cases evaluated
    exact (performs tracks (wanted value (by simp [Op.operands])) known).mono fun u tracks => ⟨_, rfl, tracks⟩
  | binary op lhs rhs =>
    have wantedLeft := wanted lhs (by simp [Op.operands])
    have wantedRight := wanted rhs (by simp [Op.operands])
    cases op with
    | arith op =>
      obtain ⟨code, emits, performs⟩ := arith_performs h ok noArg covers
      refine ⟨code, emits.name, emits.added, fun {a v o r} tracks evaluated ends => ?_⟩
      obtain ⟨wl, left, evaluated⟩ := Option.bind_eq_some_iff.mp evaluated
      obtain ⟨wr, right, evaluated⟩ := Option.bind_eq_some_iff.mp evaluated
      refine (performs tracks wantedLeft wantedRight left right fun none => ?_).mono fun u reached => ?_
      · rw [none] at evaluated
        cases evaluated
        exact .inr ⟨rfl, (ends _ rfl).symm⟩
      · obtain ⟨w, value, tracks⟩ := reached
        rw [value] at evaluated
        cases evaluated
        exact ⟨_, rfl, tracks⟩
    | compare op =>
      have fused := straight op lhs rhs rfl
      dsimp only at ok
      rw [if_pos (List.contains_iff_mem.mpr fused)] at ok
      cases ok
      refine ⟨[], rfl, (List.append_nil _).symm, fun {a v o r} tracks evaluated ends => .nil ?_⟩
      obtain ⟨wl, left, evaluated⟩ := Option.bind_eq_some_iff.mp evaluated
      obtain ⟨wr, right, evaluated⟩ := Option.bind_eq_some_iff.mp evaluated
      cases evaluated
      exact ⟨_, rfl, tracks.define_unwanted noArg (fun wanted => wanted.2 fused) _⟩
  | call callee args =>
    cases callee with
    | indirect target => cases ok
    | direct name =>
      obtain ⟨code, emits, performs⟩ := call_performs h ok noArg covers
      refine ⟨code, emits.name, emits.added, fun {a v o r} tracks evaluated ends => ?_⟩
      obtain ⟨words, values, evaluated⟩ := Option.bind_eq_some_iff.mp evaluated
      obtain ⟨r', outcome, evaluated⟩ := Option.bind_eq_some_iff.mp evaluated
      obtain rfl := Option.some.inj evaluated
      have called := covers.le.found ((call_spec h ok).2 name rfl)
      refine (performs tracks (fun y mem => wanted y (by simpa [Op.operands] using mem)) values
        ((knows name called words).trans outcome) fun t fails => ?_).mono fun u reached =>
          ⟨_, returned_eq a x reached.1, reached.2⟩
      rcases fails with overflow | ⟨rfl, rfl⟩
      · exact .inl overflow
      · exact .inr ⟨rfl, (ends _ rfl).symm⟩
  | branch cond onTrue onFalse => cases listed.terminator
  | jump target => cases listed.terminator
  | ret => cases listed.terminator
  | retValue value => cases listed.terminator

/-! ## What follows a block -/

/-- States in which a block goes on alike. -/
structure Scene.Alike (A : Scene) (v u : View) : Prop where
  basePointer : u.basePointer = v.basePointer
  stackPointer : u.stackPointer = v.stackPointer
  result : u.general 0 = v.general 0
  memory : ∀ address, A.base.toInt - A.site.words ≤ address.toInt → u.memory address = v.memory address

theorem Scene.Alike.refl (A : Scene) (v : View) : A.Alike v v := ⟨rfl, rfl, rfl, fun _ _ => rfl⟩

theorem Stored.alike (h : Stored A a v) (alike : A.Alike v u) : Stored A a u :=
  h.congr alike.basePointer alike.stackPointer alike.memory

/-- What a whole activation runs in; its prologue and its epilogue are outside the body. -/
def Scene.outer (A : Scene) : Surroundings := { A.surroundings with within := fun _ => True }

/-- The activation goes on with a block, of a function that is lowered to `t`, and comes to an end that `R`
allows. -/
def Scene.Ends (A : Scene) (t : Target.Function) (within : String → View → Prop) (R : Except Trap View → Prop) :
    String → View → Prop :=
  Symbolic.Ends t.codeOf? A.outer within A.Alike R

/-- How the code of a block is left. -/
def Scene.Continues (A : Scene) (t : Target.Function) (within : String → View → Prop)
    (R : Except Trap View → Prop) : Symbolic.Exit → View → Prop :=
  Symbolic.Continues t.codeOf? A.outer within A.Alike R

/-- An activation that ends with `r`: what it may come to, and that its epilogue leads there. -/
structure Course (A : Scene) (t : Target.Function) (within : String → View → Prop) (R : Except Trap View → Prop)
    (r : IR.Result) : Prop where
  inside : ∀ name v, A.Within v → within name v
  traps : ∀ cause, A.memory.Fails r cause → R (.error cause)
  leaves : ∀ a v, Stored A a v → r ≠ .divisionByZero → (∀ w, r = .value w → v.general 0 = w) →
    A.Ends t within R A.context.epilogue v

variable {t : Target.Function} {within : String → View → Prop} {R : Except Trap View → Prop} {name name' : String}
  {k : Nat} {code : List Instruction} {i j m n : OperandRef} {wl wr : Word} {condition : Condition}

/-- A block that runs right from all states that hold the same of the activation. -/
theorem Course.ends (course : Course A t within R r) (found : t.codeOf? name = some code) (stored : Stored A a v)
    (runs : ∀ u, Stored A a u → Runs A.surroundings 0 code u (A.Continues t within R)) : A.Ends t within R name v :=
  .of_runs found fun u alike => Runs.relax (S := A.surroundings) (course.inside name) (runs u (stored.alike alike))

/-- A comparison and two jumps lead where the comparison says. -/
theorem test_runs {Q : Symbolic.Exit → View → Prop} (inside : A.Within v)
    (left : v.read (A.memory.model true) (A.site.pool.get i) = .ok wl)
    (right : v.read (A.memory.model true) (A.site.pool.get j) = .ok wr)
    (target : A.site.pool.get m = .symbol name) (target' : A.site.pool.get n = .symbol name')
    (goes : Q (.jump { name := if condition.holds (compare wl wr) then name else name' })
      { v with flags := compare wl wr }) :
    Runs A.surroundings k [.cmp i j, .jumpIf condition m, .jump n] v Q := by
  refine .plain rfl inside (execute_cmp left right) (Runs.jumpIf_iff.mpr ⟨inside, _, target, ?_⟩)
  split
  · rename_i holds
    rwa [if_pos holds] at goes
  · rename_i fails
    rw [if_neg fails] at goes
    exact Runs.jump_iff.mpr ⟨inside, _, target', goes⟩

/-! ## Comparisons whose values are kept -/

theorem define_define (a : Activation) (x : ValueId) (value value' : Option Word) :
    (a.define x value).define x value' = a.define x value' := by
  refine congrArg (Activation.mk · a.cells) (funext fun y => ?_)
  by_cases same : y = x
  · rw [same, if_pos rfl, if_pos rfl]
  · rw [if_neg same, if_neg same]
    exact if_neg same

variable {op : Comparison} {l r' : ValueId} {offset : Word} {otherwise join : String} {w : Lowering}

/-- Both operands are read, and the home is set to one. -/
theorem Compares.prepares (h : Sound A.context A.site.least start first s)
    (compares : Compares A.context A.site.least first s x op l r' w i j offset otherwise join s')
    (noArg : ∀ i, A.context.function.op? x ≠ some (.arg i)) (covers : A.Covers w) :
    ∃ code, Emits A.context A.site.least first s w code ∧ ∀ {T a v wl wr}, Tracks A s a v →
      A.Wanted l → A.Wanted r' → a.values l = some wl → a.values r' = some wr →
      Performs A.surroundings T code v fun u =>
        (∀ value, (∀ w, value = some w → w = 1) → Stored A (a.define x value) u) ∧
          A.Has w.registers u i wl ∧ A.Has w.registers u j wr := by
  obtain ⟨t, t', one, two, slot, unit, stores, place, value⟩ := compares.resolved
  obtain ⟨_, emits₁, -⟩ := resolve_spec h one
  have kept := h.emits emits₁
  have covers₂ : A.Covers t' := covers.of_grown stores.grown
  obtain ⟨code₂, emits₂, performs₂⟩ := resolve_performs kept two covers₂
  obtain ⟨code₁, emits₁, performs₁⟩ := resolve_performs h one (covers₂.of_grown emits₂.grown)
  refine ⟨_, (emits₁.trans emits₂).trans stores,
    fun {T a v wl wr} tracks wantedLeft wantedRight valueLeft valueRight => ?_⟩
  rw [List.append_assoc]
  refine (performs₁ tracks wantedLeft valueLeft).append fun u₁ reached => ?_
  obtain ⟨follows₁, has₁⟩ := reached
  refine (performs₂ follows₁.tracks wantedRight valueRight).append fun u₂ reached => ?_
  obtain ⟨follows₂, has₂⟩ := reached
  have has₁ := follows₂.kept i wl has₁
  have stored := follows₂.tracks.toStored
  refine stored.store_performs (Scene.local_of_entry (Scene.home_mem compares.home)) (place.mono covers.le).2
    (by rw [(value.mono covers.le).2]; rfl) ⟨fun value agrees => stored.keep noArg compares.home agrees, ?_, ?_⟩
  · exact (has₁.mono stores.made.next_le).congr rfl
  · exact (has₂.mono stores.made.next_le).congr rfl

/-- The block ends with the comparison, and the rest goes on where its value is in its home. -/
theorem Compares.runs (course : Course A t within R r) (h : Sound A.context A.site.least start first s)
    (compares : Compares A.context A.site.least first s x op l r' w i j offset otherwise join s')
    (noArg : ∀ i, A.context.function.op? x ≠ some (.arg i)) (covers : A.Covers s')
    (made : ∀ b ∈ s'.done.toList, t.codeOf? b.name = some b.code) :
    ∃ code, t.codeOf? s.name = some (s.code.toList ++ code) ∧ ∀ {a v wl wr k}, Tracks A s a v →
      A.Wanted l → A.Wanted r' → a.values l = some wl → a.values r' = some wr →
      (∀ u, Stored A (a.define x (some (truth (op.holds (compare wl wr))))) u → A.Ends t within R join u) →
      Runs A.surroundings k code v (A.Continues t within R) := by
  obtain ⟨m, n, slot, cleared, q, done, target, target', place, value, target''⟩ := compares.splits.blocks
  have covered : A.Covers w := covers.of_grown compares.splits.grown
  obtain ⟨code, emits, performs⟩ := compares.prepares h noArg covered
  have first := made _ (done ▸ List.mem_append_right _ List.mem_cons_self)
  have second := made _ (done ▸ List.mem_append_right _ (List.mem_cons_of_mem _ List.mem_cons_self))
  rw [emits.name, emits.added, List.append_assoc] at first
  refine ⟨_, first, fun {a v wl wr k} tracks wantedLeft wantedRight valueLeft valueRight joins => ?_⟩
  refine (performs (T := fun _ => False) tracks wantedLeft wantedRight valueLeft valueRight).runs (fun _ _ => False.elim)
    fun k u reached => ?_
  obtain ⟨stored, left, right⟩ := reached
  refine test_runs (stored none nofun).within left.read right.read (target.mono covers.le).2
    (target'.mono covers.le).2 ?_
  rw [Condition.holds_ofComparison]
  cases holds : op.holds (compare wl wr) with
  | true =>
    rw [holds] at joins
    refine joins _ ((stored (some (truth true)) fun w same => (Option.some.inj same).symm).congr rfl rfl ?_)
    exact fun _ _ => rfl
  | false =>
    rw [holds] at joins
    have before : Stored A (a.define x none) { u with flags := compare wl wr } :=
      (stored none nofun).congr rfl rfl fun _ _ => rfl
    refine course.ends second before fun p kept => ?_
    refine (kept.store_performs (T := fun _ => False) (w := 0) (P := Stored A (a.define x (some 0)))
      (Scene.local_of_entry (Scene.home_mem compares.home)) (place.mono covers.le).2
      (by rw [(value.mono covers.le).2]; rfl) ?_).runs_cons (fun _ _ => False.elim) fun k p' zero => ?_
    · rw [← define_define a x none]
      exact kept.keep noArg compares.home fun w same => (Option.some.inj same).symm
    · exact Runs.jump_iff.mpr ⟨zero.within, _, (target''.mono covers.le).2, joins p' zero⟩

/-! ## Transfers of control -/

/-- What the activation does next comes to the end `r`. -/
def Finishes (calls : Calls) (f : IR.Function) (fuel : Nat) (r : IR.Result) : Outcome → Prop
  | .next _ => False
  | .goto target a => Activation.blocks calls f fuel target a = some r
  | .ended r' => r' = r

theorem blocks_succ_iff {f : IR.Function} {fuel : Nat} {id : BlockId} :
    Activation.blocks calls f (fuel + 1) id a = some r ↔
      ∃ b o, f.blocks[id]? = some b ∧ a.operations calls f b.body = some o ∧ Finishes calls f fuel r o := by
  rw [Activation.blocks]
  constructor
  · intro h
    obtain ⟨b, found, h⟩ := Option.bind_eq_some_iff.mp h
    obtain ⟨o, evaluated, h⟩ := Option.bind_eq_some_iff.mp h
    refine ⟨b, o, found, evaluated, ?_⟩
    cases o with
    | next a => cases h
    | goto target a => exact h
    | ended r' => exact Option.some.inj h
  · rintro ⟨b, o, found, evaluated, finishes⟩
    refine Option.bind_eq_some_iff.mpr ⟨b, found, Option.bind_eq_some_iff.mpr ⟨o, evaluated, ?_⟩⟩
    cases o with
    | next a => exact finishes.elim
    | goto target a => exact finishes
    | ended r' => exact congrArg some finishes

/-- The blocks with labels go on as the activation does. -/
def Scene.Goes (A : Scene) (t : Target.Function) (within : String → View → Prop) (R : Except Trap View → Prop)
    (calls : Calls) (r : IR.Result) (fuel : Nat) (labels : List (BlockId × String)) : Prop :=
  ∀ target label a v, (target, label) ∈ labels → Stored A a v → Settled A.context.function [] a →
    Activation.blocks calls A.context.function fuel target a = some r → A.Ends t within R label v

variable {cond : ValueId} {b : IR.Block} {past : List ValueId} {wc : Word}

theorem truth_eq_zero {holds : Bool} : truth holds = 0 ↔ holds = false := by
  cases holds <;> decide

/-- The test in front of a branch says whether the condition is zero. -/
theorem Tests.performs (h : Sound A.context A.site.least start first s)
    (tests : Tests A.context s cond condition i j s') (covers : A.Covers s') (mem : b ∈ A.context.function.blocks)
    (split : b.body = past ++ [x]) {onTrue onFalse : BlockId}
    (branch : A.context.function.op? x = some (.branch cond onTrue onFalse)) :
    ∃ code, Emits A.context A.site.least first s s' code ∧ ∀ {T a v wc}, Tracks A s a v →
      Settled A.context.function past a → a.values cond = some wc →
      Performs A.surroundings T code v fun u => Stored A a u ∧ ∃ wl wr,
        u.read (A.memory.model true) (A.site.pool.get i) = .ok wl ∧
        u.read (A.memory.model true) (A.site.pool.get j) = .ok wr ∧
        (condition.holds (compare wl wr) = true ↔ wc = 0) := by
  obtain ⟨pl, planned⟩ := A.planned
  have placed : x ∈ A.context.function.placed := mem_placed mem (by simp [split])
  have read : cond ∈ A.context.function.operandsOf x := by simp [Function.operandsOf, branch, Op.operands]
  cases tests with
  | @fused op l r t found fused left right negated =>
    subst negated
    obtain ⟨comparison, operands⟩ := Function.operands_compare found
    -- the comparison stands before its branch
    obtain ⟨-, -, b', mem', inside, inside'⟩ := planned.placed.fused_read (planned.fused ▸ fused) placed read
    obtain rfl := Function.block_unique planned.placed.distinct mem mem' (by simp [split]) inside
    have before : cond ∈ past := by
      rw [split, List.mem_append, List.mem_singleton] at inside'
      refine inside'.resolve_right fun same => ?_
      rw [same, branch] at found
      cases found
    have wanted : ∀ y ∈ A.context.function.operandsOf cond, A.Wanted y := fun y reads =>
      A.wanted_of_operand (mem_placed mem inside') reads fun onTrue onFalse same => by
        rw [found] at same
        cases same
    obtain ⟨_, emits₁, -⟩ := resolve_spec h left
    obtain ⟨code₂, emits₂, performs₂⟩ := resolve_performs (h.emits emits₁) right covers
    obtain ⟨code₁, emits₁, performs₁⟩ := resolve_performs h left (covers.of_grown emits₂.grown)
    refine ⟨_, emits₁.trans emits₂, fun {T a v wc} tracks settled known => ?_⟩
    obtain ⟨-, -, wl, wr, valueLeft, valueRight, value⟩ := settled.compared cond before op l r found
    refine (performs₁ tracks (wanted l (by simp [operands])) valueLeft).append fun u₁ reached => ?_
    obtain ⟨follows₁, has₁⟩ := reached
    refine (performs₂ follows₁.tracks (wanted r (by simp [operands])) valueRight).mono fun u₂ reached => ?_
    obtain ⟨follows₂, has₂⟩ := reached
    refine ⟨follows₂.tracks.toStored, wl, wr, (follows₂.kept i wl has₁).read, has₂.read, ?_⟩
    rw [known] at value
    rw [Condition.holds_negate, Condition.holds_ofComparison, Option.some.inj value, truth_eq_zero,
      Bool.not_eq_true']
  | @value t other resolved constant same zero =>
    subst zero
    have wanted : A.Wanted cond := by
      refine ⟨List.mem_flatMap.mpr ⟨x, placed, read⟩, fun fused => ?_⟩
      obtain ⟨-, comparison, -⟩ := planned.placed.fused_read (planned.fused ▸ fused) placed read
      obtain ⟨op, l, r, found⟩ := Function.compare_of_isComparison comparison
      exact other op l r found fused
    obtain ⟨_, emits, -⟩ := resolve_spec h resolved
    obtain ⟨adds, is⟩ := addOperand_spec A.context first (h.emits emits).holding.pool (.imm 0)
    subst same constant
    obtain ⟨code, emits, performs⟩ := resolve_performs h resolved (covers.of_grown adds.grown)
    refine ⟨_, emits.trans adds, fun {T a v wc} tracks settled known => ?_⟩
    rw [List.append_nil]
    refine (performs tracks wanted known).mono fun u reached => ?_
    obtain ⟨follows, has⟩ := reached
    refine ⟨follows.tracks.toStored, wc, 0, has.read, ?_, ?_⟩
    · rw [(is.mono covers.le).2]
      rfl
    · show (compare wc 0 == .eq) = true ↔ _
      rw [beq_iff_eq, Std.compare_eq_iff_eq]

/-- The code behind what was made, up to the end of the block. -/
structure Closing (s s' : Lowering) (code : List Instruction) : Prop where
  name : s'.name = s.name
  added : s'.code.toList = s.code.toList ++ code

theorem Closing.of_emits {c : Context} {least : OperandRef} (h : Emits c least first s w code)
    {more : List Instruction} (closing : Closing w s' more) : Closing s s' (code ++ more) where
  name := closing.name.trans h.name
  added := by rw [closing.added, h.added, List.append_assoc]

theorem Closing.grow (s : Lowering) (pool : Pool) (registers : Nat) (code : List Instruction) (journal : Journal) :
    Closing s (s.grow pool registers code journal) code where
  name := rfl
  added := by simp [Lowering.grow]

theorem Scene.Covers.of_grow {pool : Pool} {registers : Nat} {journal : Journal}
    (covers : A.Covers (s.grow pool registers code journal)) (grows : s.program.pool.Grows pool) : A.Covers s where
  le := by
    have le : (s.site A.context A.site.least).Le
        ((s.grow pool registers code journal).site A.context A.site.least) :=
      ⟨grows.size, rfl, fun inside => grows.get inside.2, Nat.le_refl _, fun _ mem => mem, id⟩
    exact le.trans covers.le
  slots := covers.slots

/-- The label of a block takes no code. -/
theorem Labels.closing {c : Context} {id : BlockId} {label : String} (labels : Labels c s id label w)
    (closing : Closing w s' code) : Closing s s' code := by
  cases labels with
  | known found same =>
    subst same
    exact closing
  | new absent block name same =>
    subst same
    exact ⟨closing.name, closing.added⟩

/-- Nor does it change what registers hold. -/
theorem Labels.tracks {c : Context} {id : BlockId} {label : String} (labels : Labels c s id label w)
    (tracks : Tracks A s a v) : Tracks A w a v := by
  cases labels with
  | known found same =>
    subst same
    exact tracks
  | new absent block name same =>
    subst same
    exact tracks.congr rfl (Nat.le_refl _)

/-- A jump out of the block. -/
theorem jump_runs (h : Sound A.context A.site.least start first s) {label : String}
    (covers : A.Covers (s.emitJump label)) :
    A.Covers s ∧ ∃ code, Closing s (s.emitJump label) code ∧ ∀ {v k} {Q : Symbolic.Exit → View → Prop}, A.Within v →
      Q (.jump { name := label }) v → Runs A.surroundings k code v Q := by
  obtain ⟨n, pool, journal, eq, grows, is⟩ := emitJump_spec A.context h.holding.pool label
  rw [eq] at covers ⊢
  exact ⟨covers.of_grow grows, _, .grow ..,
    fun inside goes => Runs.jump_iff.mpr ⟨inside, _, (is.mono covers.le).2, goes⟩⟩

variable {fuel : Nat} {labels : List (BlockId × String)}

/-- A block leads to the blocks that its branch names. -/
theorem branch_runs (h : Sound A.context A.site.least start first s) (mem : b ∈ A.context.function.blocks)
    (split : b.body = past ++ [x]) {onTrue onFalse : BlockId}
    (branch : A.context.function.op? x = some (.branch cond onTrue onFalse))
    (ok : s.branch A.context cond onTrue onFalse = .ok s') (covers : A.Covers s') (later : s'.labels ⊆ labels)
    (goes : A.Goes t within R calls r fuel labels) :
    ∃ code, Closing s s' code ∧ ∀ {a v wc k}, Tracks A s a v → Settled A.context.function past a →
      a.values cond = some wc →
      Activation.blocks calls A.context.function fuel (if wc = 0 then onFalse else onTrue) a = some r →
      Runs A.surroundings k code v (A.Continues t within R) := by
  obtain ⟨⟨trueLabel, t₁⟩, one, ok⟩ := bind_ok.mp ok
  obtain ⟨⟨falseLabel, t₂⟩, two, ok⟩ := bind_ok.mp ok
  obtain ⟨⟨condition, w'⟩, test, ok⟩ := bind_ok.mp ok
  obtain rfl := Except.ok.inj ok
  have labels₁ := labelOf_cases one
  have labels₂ := labelOf_cases two
  obtain ⟨h, -, mem₁⟩ := labels₁.spec h
  obtain ⟨h, advances, mem₂⟩ := labels₂.spec h
  obtain ⟨i, j, w, tests, rfl⟩ := branchTest_cases test
  obtain ⟨_, emits, -⟩ := tests.spec h
  obtain ⟨m, n, pool, journal, eq, grows, is, is'⟩ :=
    test_spec A.context (h.emits emits).holding.pool i j condition falseLabel trueLabel
  rw [eq] at covers later ⊢
  have covered : A.Covers w := covers.of_grow grows
  have found : w.labels = t₂.labels := emits.labels
  have known₁ : (onTrue, trueLabel) ∈ labels := later (found ▸ advances.toGrown.labelled mem₁)
  have known₂ : (onFalse, falseLabel) ∈ labels := later (found ▸ mem₂)
  obtain ⟨code, emits, performs⟩ := tests.performs h covered mem split branch
  refine ⟨_, labels₁.closing (labels₂.closing (.of_emits emits (.grow ..))),
    fun {a v wc k} tracks settled known follows => ?_⟩
  refine (performs (T := fun _ => False) (labels₂.tracks (labels₁.tracks tracks)) settled known).runs (fun _ _ => False.elim)
    fun k u reached => ?_
  obtain ⟨stored, wl, wr, left, right, test⟩ := reached
  refine test_runs stored.within left right (is.mono covers.le).2 (is'.mono covers.le).2 ?_
  have compared : Stored A a { u with flags := compare wl wr } := stored.congr rfl rfl fun _ _ => rfl
  by_cases zero : wc = 0
  · rw [if_pos (test.mpr zero)]
    rw [if_pos zero] at follows
    exact goes onFalse falseLabel a _ known₂ compared settled.restart follows
  · rw [if_neg (mt test.mp zero)]
    rw [if_neg zero] at follows
    exact goes onTrue trueLabel a _ known₁ compared settled.restart follows

/-- A transfer of control leads where the activation goes on. -/
theorem terminator_runs (course : Course A t within R r) (h : Sound A.context A.site.least start first s)
    (mem : b ∈ A.context.function.blocks) (split : b.body = past ++ [x]) {op : Op}
    (listed : Listed A.context.function x true op) (ok : s.operation A.context x = .ok s') (covers : A.Covers s')
    (later : s'.labels ⊆ labels) (goes : A.Goes t within R calls r fuel labels) :
    ∃ code, Closing s s' code ∧ ∀ {a v o k}, Tracks A s a v → Settled A.context.function past a →
      a.operation calls A.context.function x = some o → Finishes calls A.context.function fuel r o →
      Runs A.surroundings k code v (A.Continues t within R) := by
  have found := listed.found
  unfold Lowering.operation at ok
  rw [found] at ok
  unfold Activation.operation
  simp only [found, Option.bind_eq_bind, Option.bind_some]
  cases op with
  | branch cond onTrue onFalse =>
    obtain ⟨code, closing, runs⟩ := branch_runs h mem split found ok covers later goes
    refine ⟨code, closing, fun {a v o k} tracks settled evaluated finishes => ?_⟩
    obtain ⟨wc, known, evaluated⟩ := Option.bind_eq_some_iff.mp evaluated
    cases evaluated
    exact runs tracks settled known finishes
  | jump target =>
    obtain ⟨⟨label, w⟩, labelled, ok⟩ := bind_ok.mp ok
    obtain rfl := Except.ok.inj ok
    have labels := labelOf_cases labelled
    obtain ⟨h, -, known⟩ := labels.spec h
    obtain ⟨-, code, closing, runs⟩ := jump_runs h covers
    refine ⟨code, labels.closing closing, fun {a v o k} tracks settled evaluated finishes => ?_⟩
    cases evaluated
    exact runs tracks.within (goes target label a v (later known) tracks.toStored settled.restart finishes)
  | ret =>
    obtain rfl := Except.ok.inj ok
    obtain ⟨-, code, closing, runs⟩ := jump_runs h covers
    refine ⟨code, closing, fun {a v o k} tracks settled evaluated finishes => ?_⟩
    cases evaluated
    subst finishes
    exact runs tracks.within (course.leaves a v tracks.toStored (fun same => by cases same)
      fun w same => by cases same)
  | retValue value =>
    obtain ⟨⟨ref, w⟩, read, ok⟩ := bind_ok.mp ok
    obtain ⟨_, emits, held⟩ := resolve_spec h read
    have kept := h.emits emits
    obtain ⟨u, n, same, moves, target, -⟩ := returnValue_spec kept.holding held
    dsimp only at ok
    rw [same] at ok
    obtain rfl := Except.ok.inj ok
    obtain ⟨covered, _, closing, runs⟩ := jump_runs (kept.emits moves) covers
    obtain ⟨_, emits, performs⟩ := resolve_performs h read (covered.of_grown moves.grown)
    refine ⟨_, .of_emits emits (.of_emits moves closing), fun {a v o k} tracks settled evaluated finishes => ?_⟩
    obtain ⟨w', known, evaluated⟩ := Option.bind_eq_some_iff.mp evaluated
    cases evaluated
    subst finishes
    have wanted : A.Wanted value := by
      refine A.wanted_of_operand (mem_placed mem (by simp [split] : x ∈ b.body))
        (by simp [Function.operandsOf, found, Op.operands]) fun onTrue onFalse other => ?_
      rw [found] at other
      cases other
    refine (performs (T := fun _ => False) tracks wanted known).runs (fun _ _ => False.elim) fun k p reached => ?_
    obtain ⟨follows, has⟩ := reached
    have stored : Stored A a { p with general := put p.general 0 w' } :=
      follows.tracks.toStored.congr rfl rfl fun _ _ => rfl
    refine .plain rfl follows.tracks.within (w := { p with general := put p.general 0 w' }) ?_ ?_
    · refine (execute_mov has.read).trans ?_
      show p.write _ (A.site.pool.get n) w' = _
      rw [(target.mono covered.le).2]
      exact write_result
    · refine runs stored.within (course.leaves a _ stored (fun same => by cases same) fun w same => ?_)
      exact (put_self p.general 0 w').trans (Result.value.inj same)
  | arg _ => cases listed.terminator
  | imm _ => cases listed.terminator
  | float _ => cases listed.terminator
  | alloca _ => cases listed.terminator
  | load _ => cases listed.terminator
  | store _ _ => cases listed.terminator
  | binary _ _ _ => cases listed.terminator
  | symbol _ => cases listed.terminator
  | call _ _ => cases listed.terminator

/-! ## Whole blocks -/

/-- A comparison whose value is kept, and what is lowered behind it. -/
theorem compare_runs (calls : Calls) (course : Course A t within R r) (h : Sound A.context A.site.least start first s)
    (placed : x ∈ A.context.function.placed) {op : Comparison} {lhs rhs : ValueId}
    (found : A.context.function.op? x = some (.binary (.compare op) lhs rhs))
    (kept : x ∉ A.context.plan.fused) (ok : s.operation A.context x = .ok s') (covers : A.Covers s')
    (made : ∀ b ∈ s'.done.toList, t.codeOf? b.name = some b.code) :
    s'.held = [] ∧ s'.code.toList = [] ∧ ∃ code, t.codeOf? s.name = some (s.code.toList ++ code) ∧
      ∀ {a v o k}, Tracks A s a v → a.operation calls A.context.function x = some o →
        (∀ a', o = .next a' → ∀ u, Stored A a' u → A.Ends t within R s'.name u) →
        Runs A.surroundings k code v (A.Continues t within R) := by
  have noArg : ∀ i, A.context.function.op? x ≠ some (.arg i) := fun i same => by
    rw [found] at same
    cases same
  have wanted : ∀ y ∈ [lhs, rhs], A.Wanted y := fun y reads =>
    A.wanted_of_operand placed ((Function.operands_compare found).2 ▸ reads) fun onTrue onFalse same => by
      rw [found] at same
      cases same
  unfold Lowering.operation at ok
  rw [found] at ok
  dsimp only at ok
  rw [if_neg (mt List.contains_iff_mem.mp kept)] at ok
  obtain ⟨w, i, j, offset, otherwise, join, compares⟩ := compare_cases h ok
  obtain ⟨code, first, runs⟩ := compares.runs course h noArg covers made
  refine ⟨compares.splits.held, by rw [compares.splits.code], code, first, fun {a v o k} tracks evaluated joins => ?_⟩
  unfold Activation.operation at evaluated
  simp only [found, Option.bind_eq_bind, Option.bind_some] at evaluated
  obtain ⟨wl, left, evaluated⟩ := Option.bind_eq_some_iff.mp evaluated
  obtain ⟨wr, right, evaluated⟩ := Option.bind_eq_some_iff.mp evaluated
  cases evaluated
  rw [compares.splits.name] at joins
  exact runs tracks (wanted lhs (by simp)) (wanted rhs (by simp)) left right (joins _ rfl)

/-- The rest of a block leads where the evaluation of the rest leads. -/
theorem operations_runs (course : Course A t within R r) (knows : A.Knows calls)
    (h : Sound A.context A.site.least start first s) (mem : b ∈ A.context.function.blocks) {rest : List ValueId}
    (split : b.body = past ++ rest) (full : rest ≠ []) (ok : s.operations A.context rest = .ok s')
    (covers : A.Covers s') (made : ∀ b ∈ s'.endBlock.done.toList, t.codeOf? b.name = some b.code)
    (later : s'.labels ⊆ labels) (goes : A.Goes t within R calls r fuel labels) :
    ∃ code, t.codeOf? s.name = some (s.code.toList ++ code) ∧ ∀ {a v o k}, Tracks A s a v →
      Settled A.context.function past a → a.operations calls A.context.function rest = some o →
      Finishes calls A.context.function fuel r o → Runs A.surroundings k code v (A.Continues t within R) := by
  obtain ⟨pl, planned⟩ := A.planned
  induction rest generalizing s first past with
  | nil => exact absurd rfl full
  | cons x rest ih =>
    obtain ⟨w, one, more⟩ := bind_ok.mp ok
    have placed : x ∈ A.context.function.placed := mem_placed mem (by simp [split])
    have well := planned.placed.listed b mem
    obtain ⟨op, listed⟩ := well past x rest split
    by_cases last : rest = []
    · subst last
      cases more
      obtain ⟨code, closing, runs⟩ := terminator_runs course h mem split listed one covers later goes
      refine ⟨code, ?_, fun {a v o k} tracks settled evaluated finishes => ?_⟩
      · rw [← closing.name, ← closing.added]
        exact made { name := s'.name, code := s'.code.toList } (by simp [Lowering.endBlock])
      · obtain ⟨o', evaluated, same⟩ := Option.bind_eq_some_iff.mp evaluated
        refine runs tracks settled evaluated ?_
        cases o' <;> cases same <;> exact finishes
    · have goesOn : op.isTerminator = false := by
        rw [listed.terminator]
        simpa using last
      rw [show rest.isEmpty = false by simpa using last] at listed
      have split' : b.body = (past ++ [x]) ++ rest := by simp [split]
      obtain ⟨first', sound, -⟩ := operation_spec h listed.found goesOn one
      have well' : WellListed A.context.function rest := fun before u after eq =>
        well (past ++ x :: before) u after (by simp [split, eq])
      obtain ⟨-, -, advances⟩ := operations_spec sound well' last more
      have covered : A.Covers w := covers.of_grown advances.toGrown
      obtain ⟨code', found', runs'⟩ := ih sound split' last more
      by_cases materialized : (∃ cmp l r, op = .binary (.compare cmp) l r) ∧ x ∉ A.context.plan.fused
      · obtain ⟨⟨cmp, l, r', rfl⟩, kept⟩ := materialized
        have made' : ∀ b ∈ w.done.toList, t.codeOf? b.name = some b.code := fun b before =>
          made b (by
            have := advances.done.subset before
            simp only [Lowering.endBlock, Array.toList_push]
            exact List.mem_append_left _ this)
        obtain ⟨none, empty, code, found, runs⟩ := compare_runs calls course h placed listed.found kept
          one covered made'
        rw [empty, List.nil_append] at found'
        refine ⟨code, found, fun {a v o k} tracks settled evaluated finishes => ?_⟩
        obtain ⟨o', evaluated, rest_evaluated⟩ := Option.bind_eq_some_iff.mp evaluated
        refine runs tracks evaluated fun a' same u stored => ?_
        subst same
        refine course.ends found' stored fun p stored => ?_
        exact runs' (Tracks.of_stored stored none) (settled.step planned.placed.distinct mem split evaluated)
          rest_evaluated finishes
      · have straight : ∀ cmp l r, op = .binary (.compare cmp) l r → x ∈ A.context.plan.fused := fun cmp l r same =>
          Decidable.byContradiction fun unfused => materialized ⟨⟨cmp, l, r, same⟩, unfused⟩
        obtain ⟨code, name, added, performs⟩ := operation_performs knows h placed listed straight one covered
        refine ⟨code ++ code', ?_, fun {a v o k} tracks settled evaluated finishes => ?_⟩
        · rw [← List.append_assoc, ← added, ← name]
          exact found'
        · obtain ⟨o', evaluated, rest_evaluated⟩ := Option.bind_eq_some_iff.mp evaluated
          refine (performs (r := r) tracks evaluated fun r' same => ?_).runs (fun cause u => course.traps cause)
            fun k u reached => ?_
          · subst same
            cases rest_evaluated
            exact finishes
          · obtain ⟨a', same, tracks⟩ := reached
            subst same
            exact runs' tracks (settled.step planned.placed.distinct mem split evaluated) rest_evaluated finishes

end Codegen86.Selection
