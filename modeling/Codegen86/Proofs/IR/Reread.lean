import Codegen86.Proofs.IR.Printed
import Codegen86.Proofs.IR.Resolved
import Codegen86.Proofs.Lookup
import Mathlib.Data.List.Nodup
/-!
# Printed programs are read again

The outline of a printed function resolves to the function as print shows it: values have their printed
names, and doubles their printed digits (`Function.reread`, `Function.Readable.resolve`).  So a program of
functions that can be read again is read as these functions (`parse_text`).
-/

set_option autoImplicit false

namespace Codegen86.IR

open Text

/-- An operation as it is read from its print; only a double can change. -/
def Op.reread : Op → Op
  | .float value => .float ((Binary64.read? value.text.toList).getD value)
  | op => op

namespace Function

/-- A value as it is read from its print. -/
def rereadValue (f : Function) (v : ValueId) : Value :=
  let op := (f.op? v).getD .ret
  { op := op.reread, name := if op.hasResult then some (f.label v) else none }

/-- A function as it is read from its print. -/
def reread (f : Function) : Function := { f with values := (Array.range f.values.size).map f.rereadValue }

end Function

/-! ## Tables of names -/

section

variable {α : Type} (name : α → Option String) (complaint : α → String → ParseError)

/-- Declare an item that has a name. -/
def declareNamed (table : NameTable) (item : α × Nat) : Except ParseError NameTable :=
  match name item.1 with
  | none => .ok table
  | some n => table.declare n item.2 (complaint item.1 n)

/-- Items with different names are declared one after another. -/
theorem declareAll {items : List (α × Nat)} {table : NameTable}
    (distinct : (table.map (·.1) ++ items.filterMap fun item => name item.1).Nodup) :
    ∃ table', items.foldlM (declareNamed name complaint) table = .ok table' ∧
      (table'.map (·.1)).Perm (table.map (·.1) ++ items.filterMap fun item => name item.1) ∧
      (∀ n id, table.lookup n = some id → table'.lookup n = some id) ∧
      ∀ item ∈ items, ∀ n, name item.1 = some n → table'.lookup n = some item.2 := by
  induction items generalizing table with
  | nil => exact ⟨table, rfl, by simp, fun n id found => found, fun item mem => by cases mem⟩
  | cons item items ih =>
    rw [List.foldlM_cons, declareNamed]
    cases named : name item.1 with
    | none =>
      have skipped : ((item :: items).filterMap fun item => name item.1) = items.filterMap fun item => name item.1 := by
        simp [named]
      rw [skipped] at distinct ⊢
      obtain ⟨table', done, names, kept, new⟩ := ih distinct
      refine ⟨table', done, names, kept, fun other mem n same => ?_⟩
      rcases List.mem_cons.mp mem with rfl | mem
      · rw [named] at same
        cases same
      · exact new other mem n same
    | some n =>
      have kept : ((item :: items).filterMap fun item => name item.1) = n :: items.filterMap fun item => name item.1 := by
        simp [named]
      rw [kept] at distinct ⊢
      have fresh : n ∉ table.map (·.1) := fun mem =>
        (List.nodup_append.mp distinct).2.2 n mem n List.mem_cons_self rfl
      have moved : (((n, item.2) :: table).map (·.1) ++ items.filterMap fun item => name item.1).Perm
          (table.map (·.1) ++ n :: items.filterMap fun item => name item.1) := List.perm_middle.symm
      obtain ⟨table', done, names, kept, new⟩ := ih (moved.nodup_iff.mpr distinct)
      have declared : table.declare n item.2 (complaint item.1 n) = .ok ((n, item.2) :: table) := by
        rw [NameTable.declare, lookup_eq_none.mpr fresh]
        rfl
      refine ⟨table', ?_, names.trans moved, fun m id found => kept m id ?_, fun other mem m same => ?_⟩
      · simp only [declared]
        exact done
      · have ne : m ≠ n := fun same => by
          rw [same, lookup_eq_none.mpr fresh] at found
          cases found
        rw [List.lookup_cons, beq_false_of_ne ne]
        exact found
      · rcases List.mem_cons.mp mem with rfl | mem
        · obtain rfl := Option.some.inj (named.symm.trans same)
          exact kept n _ (by simp)
        · exact new other mem m same

end

theorem filterMap_zipIdx {α β : Type} (value : α → Option β) (items : List α) (k : Nat) :
    ((items.zipIdx k).filterMap fun item => value item.1) = items.filterMap value := by
  induction items generalizing k with
  | nil => rfl
  | cons a items ih => rw [List.zipIdx_cons, List.filterMap_cons, List.filterMap_cons, ih]

/-! ## Names of a printed function -/

section

variable {f : Function} {line : Nat}

theorem valueNames_eq (o : FunctionOutline) : o.valueNames = o.paramNames >>= fun names =>
    ((o.blocks.flatMap (·.body)).zipIdx o.params.length).foldlM
      (declareNamed Statement.result fun s result => ⟨s.line, .duplicateValue result⟩) names := rfl

/-- The name that a value has in print, if it has a result. -/
def Function.resultName (f : Function) (v : ValueId) : Option String :=
  if ((f.op? v).getD .ret).hasResult then some (f.label v) else none

theorem resultName_eq_some {v : ValueId} {name : String} :
    f.resultName v = some name ↔ f.Results v ∧ name = f.label v := by
  unfold Function.resultName Function.Results
  cases f.op? v with
  | none => simp [Op.hasResult]
  | some op =>
    rw [Option.getD_some]
    constructor
    · intro named
      split at named
      · rename_i result
        exact ⟨⟨op, rfl, result⟩, (Option.some.inj named).symm⟩
      · cases named
    · rintro ⟨⟨op', same, result⟩, rfl⟩
      cases same
      exact if_pos result

theorem statements_result (values : List ValueId) :
    (f.statements line values).map (·.result) = values.map f.resultName := by
  induction values generalizing line with
  | nil => rfl
  | cons v values ih =>
    rw [Function.statements, List.map_cons, List.map_cons, ih]
    rfl

theorem outlinedBlocks_result (blocks : List Block) :
    ((f.outlinedBlocks line blocks).flatMap (·.body)).map (·.result) = (blocks.flatMap (·.body)).map f.resultName := by
  induction blocks generalizing line with
  | nil => rfl
  | cons block blocks ih =>
    rw [Function.outlinedBlocks, List.flatMap_cons, List.flatMap_cons, List.map_append, List.map_append, ih,
      statements_result]

theorem outlinedBlocks_name (blocks : List Block) :
    (f.outlinedBlocks line blocks).map (·.name) = blocks.map (·.name) := by
  induction blocks generalizing line with
  | nil => rfl
  | cons block blocks ih => rw [Function.outlinedBlocks, List.map_cons, List.map_cons, ih]

namespace Function.Readable

variable (h : f.Readable)

include h

/-- Parameters and listed values are all values, in order. -/
theorem numbered : f.args ++ f.placed = List.range f.values.size := by
  rw [h.consecutive, Function.args, List.range_eq_range', List.range_eq_range']
  have joined := @List.range'_append 0 f.arity (f.values.size - f.arity) 1
  rw [Nat.one_mul, Nat.zero_add, Nat.add_sub_cancel' h.arity] at joined
  exact joined

theorem mem_of_results {v : ValueId} (results : f.Results v) : v ∈ f.args ∨ v ∈ f.placed := by
  obtain ⟨op, found, -⟩ := results
  obtain ⟨value, inside, -⟩ := Option.map_eq_some_iff.mp found
  have mem : v ∈ f.args ++ f.placed := by
    rw [h.numbered, List.mem_range]
    exact (Array.getElem?_eq_some_iff.mp inside).1
  exact List.mem_append.mp mem

/-- Print gives every result a name of its own. -/
theorem names_nodup : (f.args.map f.label ++ f.placed.filterMap f.resultName).Nodup := by
  have args : f.args.map f.label = f.args.filterMap f.resultName := by
    rw [← List.filterMap_eq_map]
    refine List.filterMap_congr fun v mem => ?_
    exact (resultName_eq_some.mpr ⟨h.results_arg mem, rfl⟩).symm
  rw [args, ← List.filterMap_append, h.numbered]
  refine List.nodup_range.filterMap fun v w name is is' => ?_
  obtain ⟨results, same⟩ := resultName_eq_some.mp is
  obtain ⟨results', same'⟩ := resultName_eq_some.mp is'
  exact h.injective v w results results' (same.symm.trans same')

/-- Names of parameters in print stand for the parameters. -/
theorem paramNames : ∃ table, (f.outlined line).paramNames = .ok table ∧
    (table.map (·.1)).Perm (f.args.map f.label) ∧ ∀ v ∈ f.args, table.lookup (f.label v) = some v := by
  have names : (((f.args.map f.label).zipIdx.filterMap fun item => some item.1) : List String) = f.args.map f.label :=
    (filterMap_zipIdx some _ 0).trans List.filterMap_some
  have distinct : ((([] : NameTable).map (·.1)) ++
      ((f.args.map f.label).zipIdx.filterMap fun item => some item.1 : List String)).Nodup := by
    rw [names]
    exact (List.nodup_append.mp h.names_nodup).1
  obtain ⟨table, declared, keys, -, found⟩ :=
    declareAll some (fun param _ => ⟨line, .duplicateArgument param⟩) distinct
  rw [names] at keys
  refine ⟨table, declared, keys, fun v mem => found (f.label v, v) ?_ (f.label v) rfl⟩
  rw [List.mk_mem_zipIdx_iff_getElem?]
  simp [Function.args, List.mem_range.mp mem]

/-- Names of values in print stand for their values. -/
theorem valueNames : ∃ table, (f.outlined line).valueNames = .ok table ∧
    ∀ v, f.Results v → table.lookup (f.label v) = some v := by
  obtain ⟨params, declared, keys, param⟩ := @paramNames f line h
  let statements := (f.outlined line).blocks.flatMap (·.body)
  have results : statements.map (·.result) = f.placed.map f.resultName := outlinedBlocks_result f.blocks
  have arity : (f.outlined line).params.length = f.arity := by simp [Function.outlined, Function.args]
  have names : ((statements.zipIdx f.arity).filterMap fun item => item.1.result) =
      f.placed.filterMap f.resultName := by
    have same := congrArg (List.filterMap id) results
    rw [List.filterMap_map, List.filterMap_map] at same
    exact (filterMap_zipIdx _ _ _).trans same
  have distinct : (params.map (·.1) ++ (statements.zipIdx f.arity).filterMap fun item => item.1.result).Nodup := by
    rw [names]
    exact (keys.append_right _).nodup_iff.mpr h.names_nodup
  obtain ⟨table, all, -, kept, found⟩ :=
    declareAll Statement.result (fun s result => ⟨s.line, .duplicateValue result⟩) distinct
  refine ⟨table, ?_, fun v is => ?_⟩
  · rw [valueNames_eq, declared, arity]
    exact all
  · rcases h.mem_of_results is with mem | mem
    · exact kept _ v (param v mem)
    · -- the value at place `k` of the listed values is the value `arity + k`, and the statement there names it
      obtain ⟨k, here⟩ := List.mem_iff_getElem?.mp mem
      have number : v = f.arity + k := by
        rw [h.consecutive] at here
        obtain ⟨inside, same⟩ := List.getElem?_eq_some_iff.mp here
        simpa using same.symm
      have result := congrArg (·[k]?) results
      simp only [List.getElem?_map, here, Option.map_some] at result
      obtain ⟨s, at_, named⟩ := Option.map_eq_some_iff.mp result
      have item : (s, f.arity + k) ∈ statements.zipIdx f.arity := List.mk_add_mem_zipIdx_iff_getElem?.mpr at_
      rw [number] at is ⊢
      exact found _ item _ (by rw [named, number]; exact resultName_eq_some.mpr ⟨is, rfl⟩)

/-- Names of blocks in print stand for the blocks. -/
theorem blockNames : ∃ table, (f.outlined line).blockNames = .ok table ∧
    ∀ id < f.blocks.length, table.lookup (f.displayBlock id) = some id := by
  have same : (f.outlined line).blocks.map (·.name) = f.blocks.map (·.name) := outlinedBlocks_name f.blocks
  have distinct : ((([] : NameTable).map (·.1)) ++
      (f.outlined line).blocks.zipIdx.filterMap fun item => some item.1.name).Nodup := by
    rw [filterMap_zipIdx fun block : BlockOutline => some block.name, List.filterMap_eq_map', same]
    exact h.distinct
  obtain ⟨table, all, -, -, found⟩ := declareAll (fun block : BlockOutline => some block.name)
    (fun block _ => ⟨block.line, .duplicateBlock block.name⟩) distinct
  refine ⟨table, all, fun id inside => ?_⟩
  have here := congrArg (·[id]?) same
  simp only [List.getElem?_map, List.getElem?_eq_getElem inside, Option.map_some] at here
  obtain ⟨block, at_, named⟩ := Option.map_eq_some_iff.mp here
  have shown : f.displayBlock id = f.blocks[id].name := by
    rw [Function.displayBlock, List.getElem?_eq_getElem inside]
  exact found (block, id) (List.mk_mem_zipIdx_iff_getElem?.mpr at_) _ (by rw [shown, named])

end Function.Readable

/-! ## Operations of a printed function -/

/-- A scope in which the names of a function in print stand for its values and blocks. -/
structure Scope.Shows (scope : Scope) (f : Function) : Prop where
  values : ∀ v, f.Results v → scope.values.lookup (f.label v) = some v
  blocks : ∀ id < f.blocks.length, scope.blocks.lookup (f.displayBlock id) = some id

variable {scope : Scope} {v : ValueId} {op : Op}

theorem Scope.Shows.value (shows_ : scope.Shows f) (h : f.Readable) (results : f.Results v) :
    scope.value line (f.display v).toList = .ok v := by
  rw [Scope.value, toList_display, valueName_of (h.label v results)]
  simp [bind, Except.bind, shows_.values v results]

theorem Scope.Shows.all (shows_ : scope.Shows f) (h : f.Readable) {values : List ValueId}
    (results : ∀ v ∈ values, f.Results v) :
    (values.map fun v => (f.display v).toList).mapM (scope.value line) = .ok values := by
  induction values with
  | nil => rfl
  | cons v values ih =>
    rw [List.map_cons, List.mapM_cons, shows_.value h (results v List.mem_cons_self),
      ih fun v mem => results v (List.mem_cons_of_mem _ mem)]
    rfl

theorem Scope.Shows.block (shows_ : scope.Shows f) {id : BlockId} (inside : id < f.blocks.length) :
    scope.block line (f.displayBlock id).toList = .ok id := by
  simp [Scope.block, shows_.blocks id inside]

section

variable {s : Statement} {a b c : List Char}

theorem one_of (operands : s.operands = [a]) : s.one = .ok a := by rw [Statement.one, operands]

theorem two_of (operands : s.operands = [a, b]) : s.two = .ok (a, b) := by rw [Statement.two, operands]

theorem three_of (operands : s.operands = [a, b, c]) : s.three = .ok (a, b, c) := by
  rw [Statement.three, operands]

theorem number_of {α : Type} {read : List Char → Option α} {n : α} (operands : s.operands = [a])
    (is : read a = some n) : s.number read = .ok n := by
  simp [Statement.number, one_of operands, is, bind, Except.bind]

end

/-- A printed call denotes itself. -/
theorem Scope.Shows.called (shows_ : scope.Shows f) (h : f.Readable) {s : Statement} {callee : Callee}
    {args : List ValueId} {target : List Char} (mnemonic : s.mnemonic = "call")
    (operands : s.operands = target :: (args.map f.display).map String.toList)
    (found : scope.callee s.line target = .ok callee) (results : ∀ v ∈ args, f.Results v) :
    s.op scope = .ok (.call callee args) := by
  have all := @Scope.Shows.all f s.line scope shows_ h args results
  have texts : (args.map f.display).map String.toList = args.map fun v => (f.display v).toList := List.map_map
  unfold Statement.op
  rw [mnemonic]
  simp [operands, texts, found, all, bind, Except.bind, pure, Except.pure]

/-- A printed operation denotes itself. -/
theorem Scope.Shows.denotes (shows_ : scope.Shows f) (h : f.Readable) (prints : f.Prints op) {s : Statement}
    (mnemonic : s.mnemonic = op.mnemonic) (operands : s.operands = (f.wordsOf op).map String.toList) :
    s.op scope = .ok op.reread := by
  have value : ∀ v ∈ op.operands, scope.value s.line (f.display v).toList = .ok v := fun v mem =>
    shows_.value h (prints.operands v mem)
  have block : ∀ b ∈ op.successors, scope.block s.line (f.displayBlock b).toList = .ok b := fun b mem =>
    shows_.block (prints.successors b mem)
  have spellable := prints.spellable
  cases op with
  | arg index => cases spellable
  | imm w =>
    have read := number_of operands (word?_text w)
    simp [Statement.op, mnemonic, Op.mnemonic, read, Op.reread, bind, Except.bind, pure, Except.pure]
  | float x =>
    obtain ⟨y, read⟩ := Option.isSome_iff_exists.mp spellable
    simp [Statement.op, mnemonic, Op.mnemonic, number_of operands read, Op.reread, read, bind, Except.bind, pure, Except.pure]
  | alloca bytes =>
    have read := number_of operands (unsigned64?_toString spellable)
    simp [Statement.op, mnemonic, Op.mnemonic, read, Op.reread, bind, Except.bind, pure, Except.pure]
  | load addr =>
    simp [Statement.op, mnemonic, Op.mnemonic, one_of operands, value addr List.mem_cons_self, Op.reread, bind, Except.bind, pure, Except.pure]
  | store addr v =>
    simp [Statement.op, mnemonic, Op.mnemonic, two_of operands, value addr List.mem_cons_self, value v (by simp [Op.operands]), Op.reread,
      bind, Except.bind, pure, Except.pure]
  | symbol name =>
    have word : ("@" ++ name).toList = '@' :: name.toList := by rw [String.toList_append]; rfl
    have sign : dropFirst? '@' ('@' :: name.toList) = some name.toList := dropFirst?_eq.mpr rfl
    simp [Statement.op, mnemonic, Op.mnemonic, one_of operands, word, sign, Op.reread, bind, Except.bind, pure, Except.pure]
  | branch cond onTrue onFalse =>
    simp [Statement.op, mnemonic, Op.mnemonic, three_of operands, value cond List.mem_cons_self, block onTrue List.mem_cons_self,
      block onFalse (by simp [Op.successors]), Op.reread, bind, Except.bind, pure, Except.pure]
  | jump b =>
    simp [Statement.op, mnemonic, Op.mnemonic, one_of operands, block b List.mem_cons_self, Op.reread, bind, Except.bind, pure, Except.pure]
  | ret =>
    have none : s.operands = [] := operands
    simp [Statement.op, mnemonic, Op.mnemonic, none, Op.reread]
  | retValue v =>
    simp [Statement.op, mnemonic, Op.mnemonic, one_of operands, value v List.mem_cons_self, Op.reread, bind, Except.bind, pure, Except.pure]
  | binary op lhs rhs =>
    have denoted := BinaryOp.ofMnemonic?_mnemonic op
    have left := value lhs List.mem_cons_self
    have right := value rhs (by simp [Op.operands])
    have words := two_of operands
    rcases op with op | op
    · cases op <;> (
        simp only [BinaryOp.mnemonic] at denoted
        simp [Statement.op, mnemonic, Op.mnemonic, BinaryOp.mnemonic, denoted, words, left, right, Op.reread, bind, Except.bind, pure,
          Except.pure])
    · cases op <;> (
        simp only [BinaryOp.mnemonic] at denoted
        simp [Statement.op, mnemonic, Op.mnemonic, BinaryOp.mnemonic, denoted, words, left, right, Op.reread, bind, Except.bind, pure,
          Except.pure])
  | call callee args =>
    cases callee with
    | direct name =>
      have word : ("@" ++ name).toList = '@' :: name.toList := by rw [String.toList_append]; rfl
      have sign : (dropFirst? '@' ('@' :: name.toList)).filter isName = some name.toList :=
        Option.filter_eq_some_iff.mpr ⟨dropFirst?_eq.mpr rfl, spellable⟩
      have found : scope.callee s.line ("@" ++ name).toList = .ok (.direct name) := by
        simp [word, Scope.callee, sign]
      exact shows_.called h mnemonic operands found prints.operands
    | indirect target =>
      have sign : dropFirst? '@' (f.display target).toList = none := by simp [toList_display, dropFirst?]
      have found : scope.callee s.line (f.display target).toList = .ok (.indirect target) := by
        rw [Scope.callee, sign, Option.filter_none]
        simp [value target List.mem_cons_self, bind, Except.bind, pure, Except.pure]
      exact shows_.called h mnemonic operands found fun v mem => prints.operands v (List.mem_cons_of_mem target mem)

theorem hasResult_reread (op : Op) : op.reread.hasResult = op.hasResult := by cases op <;> rfl

theorem Scope.Shows.statement (shows_ : scope.Shows f) (h : f.Readable) (found : f.op? v = some op)
    (prints : f.Prints op) : (f.statement line v).value scope = .ok (f.rereadValue v) := by
  have denoted : (f.statement line v).op scope = .ok op.reread :=
    shows_.denotes h prints (by simp [Function.statement, found]) (by simp [Function.statement, found])
  rw [Statement.value, denoted]
  cases result : op.hasResult <;>
    simp [Function.statement, Function.rereadValue, found, result, hasResult_reread, bind, Except.bind, pure,
      Except.pure]

theorem Scope.Shows.statements (shows_ : scope.Shows f) (h : f.Readable) {values : List ValueId}
    (listed : ∀ v ∈ values, v ∈ f.placed) :
    (f.statements line values).mapM (·.value scope) = .ok (values.map f.rereadValue) := by
  induction values generalizing line with
  | nil => rfl
  | cons v values ih =>
    obtain ⟨op, found, prints⟩ := h.prints v (listed v List.mem_cons_self)
    rw [Function.statements, List.mapM_cons, shows_.statement h found prints,
      ih fun v mem => listed v (List.mem_cons_of_mem _ mem)]
    rfl

theorem Scope.Shows.bodies (shows_ : scope.Shows f) (h : f.Readable) {blocks : List Block}
    (sub : ∀ b ∈ blocks, b ∈ f.blocks) :
    (f.outlinedBlocks line blocks).mapM (·.values scope) =
      .ok (blocks.map fun b => (b.name, b.body.map f.rereadValue)) := by
  induction blocks generalizing line with
  | nil => rfl
  | cons block blocks ih =>
    have mem := sub block List.mem_cons_self
    have listed : ∀ v ∈ block.body, v ∈ f.placed := fun v body => List.mem_flatMap.mpr ⟨block, mem, body⟩
    rw [Function.outlinedBlocks, List.mapM_cons, BlockOutline.values, shows_.statements h listed,
      ih fun b mem => sub b (List.mem_cons_of_mem _ mem)]
    rfl

/-- Blocks that list values in order are the blocks that numbering in order makes. -/
theorem numberFrom_map (value : ValueId → Value) {blocks : List Block} {next count : Nat}
    (consecutive : blocks.flatMap (·.body) = List.range' next count) :
    numberFrom next (blocks.map fun b => (b.name, b.body.map value)) = blocks := by
  induction blocks generalizing next count with
  | nil => rfl
  | cons block blocks ih =>
    have size := congrArg List.length consecutive
    rw [List.flatMap_cons, List.length_append, List.length_range'] at size
    rw [List.flatMap_cons, ← size, ← List.range'_append, Nat.one_mul] at consecutive
    obtain ⟨body, rest⟩ := List.append_inj consecutive (by simp)
    rw [List.map_cons, numberFrom, List.length_map, ih rest, ← body]

theorem Function.Readable.ofBodies (h : f.Readable) :
    Function.ofBodies f.name (f.args.map f.label) (f.blocks.map fun b => (b.name, b.body.map f.rereadValue)) =
      f.reread := by
  have arity : (f.args.map f.label).length = f.arity := by simp [Function.args]
  have params : paramValues (f.args.map f.label) = f.args.map f.rereadValue := by
    refine List.ext_getElem (by simp [paramValues]) fun i inside _ => ?_
    have small : i < f.arity := by simpa [paramValues, Function.args] using inside
    simp [paramValues, Function.args, Function.rereadValue, h.args i small, Op.reread, Op.hasResult]
  have bodies : (f.blocks.map fun b => (b.name, b.body.map f.rereadValue)).flatMap (·.2) = f.placed.map f.rereadValue := by
    rw [Function.placed, List.flatMap_map, List.map_flatMap]
  have values : paramValues (f.args.map f.label) ++
      (f.blocks.map fun b => (b.name, b.body.map f.rereadValue)).flatMap (·.2) =
        (List.range f.values.size).map f.rereadValue := by
    rw [params, bodies, ← List.map_append, h.numbered]
  have array : ((List.range f.values.size).map f.rereadValue).toArray = (Array.range f.values.size).map f.rereadValue :=
    Array.toList_inj.mp (by simp)
  rw [Function.ofBodies, values, arity, numberFrom_map _ h.consecutive, Function.reread, array]

/-- The outline of a printed function resolves to the function as print shows it. -/
theorem Function.Readable.resolve (h : f.Readable) : (f.outlined line).resolve = .ok f.reread := by
  obtain ⟨values, named, value⟩ := @Function.Readable.valueNames f line h
  obtain ⟨blocks, named', block⟩ := @Function.Readable.blockNames f line h
  have shows_ : Scope.Shows { values, blocks } f := ⟨value, block⟩
  have bodies := @Scope.Shows.bodies f (line + 1) _ shows_ h f.blocks fun b mem => mem
  rw [FunctionOutline.resolve_eq, named, named']
  refine bind_ok.mpr ⟨values, rfl, bind_ok.mpr ⟨blocks, rfl, bind_ok.mpr ⟨_, bodies, ?_⟩⟩⟩
  exact congrArg Except.ok h.ofBodies

end

/-! ## Programs -/

/-- The outlines of functions printed one after another, with an empty line between them. -/
def outlinedAll (line : Nat) : List Function → List FunctionOutline
  | [] => []
  | f :: rest => f.outlined line :: outlinedAll (line + f.lines.length + 1) rest

theorem lines_cons (f g : Function) (functions : List Function) :
    [""].intercalate ((f :: g :: functions).map Function.lines) =
      f.lines ++ "" :: [""].intercalate ((g :: functions).map Function.lines) := by
  simp [List.intercalate]

theorem feed_functions {functions : List Function} (readable : ∀ f ∈ functions, f.Readable) (line : Nat)
    (closed : List FunctionOutline) :
    ({ closed } : Reader).feedAll line (([""].intercalate (functions.map Function.lines)).map String.toList) =
      .ok { closed := closed ++ outlinedAll line functions } := by
  induction functions generalizing line closed with
  | nil => simp [Reader.feedAll, outlinedAll]
  | cons f functions ih =>
    have first := @Function.Readable.feed f line closed (readable f List.mem_cons_self)
    cases functions with
    | nil => simpa [outlinedAll] using first
    | cons g functions =>
      have rest := ih (fun f mem => readable f (List.mem_cons_of_mem _ mem)) (line + f.lines.length + 1)
        (closed ++ [f.outlined line])
      have blank : Line.of "".toList = .blank := by decide
      rw [lines_cons, List.map_append, Reader.feedAll_append, first, List.map_cons, List.length_map]
      rw [List.append_assoc] at rest
      simp only [bind, Except.bind, Reader.feedAll, blank, Reader.feed]
      exact rest

theorem lines_clean {functions : List Function} (readable : ∀ f ∈ functions, f.Readable) :
    ∀ text ∈ [""].intercalate (functions.map Function.lines), '\n' ∉ text.toList := by
  induction functions with
  | nil => exact fun text mem => by cases mem
  | cons f functions ih =>
    have own := (readable f List.mem_cons_self).lines_clean
    cases functions with
    | nil => simpa using own
    | cons g functions =>
      intro text mem
      rw [lines_cons, List.mem_append, List.mem_cons] at mem
      rcases mem with mem | rfl | mem
      · exact own text mem
      · decide
      · exact ih (fun f mem => readable f (List.mem_cons_of_mem _ mem)) text mem

namespace Program

/-- A program as it is read from its print. -/
def reread (p : Program) : Program := { functions := p.functions.map Function.reread }

/-- Programs that can be read again. -/
structure Readable (p : Program) : Prop where
  functions : ∀ f ∈ p.functions, f.Readable
  distinct : (p.functions.map (·.name)).Nodup

theorem Readable.outline {p : Program} (h : p.Readable) :
    outline p.text.toList = .ok (outlinedAll 1 p.functions) := by
  have all : Text.lines p.text.toList = p.lines.map String.toList := by
    have text : p.text.toList = (p.lines.map String.toList).flatMap (· ++ ['\n']) := by
      rw [Program.text, String.toList_join, List.flatMap_map, List.flatMap_map]
      simp
    rw [text]
    refine lines_unlines fun line mem => ?_
    obtain ⟨text, mem', rfl⟩ := List.mem_map.mp mem
    exact lines_clean h.functions text mem'
  have fed := feed_functions h.functions 1 []
  exact bind_ok.mpr ⟨_, all ▸ fed, rfl⟩

/-- A printed program is read as print shows it. -/
theorem Readable.parse {p : Program} (h : p.Readable) : parse p.text = .ok p.reread := by
  have resolved : ∀ {functions : List Function}, (∀ f ∈ functions, f.Readable) → ∀ line,
      (outlinedAll line functions).mapM (·.resolve) = .ok (functions.map Function.reread) := by
    intro functions readable
    induction functions with
    | nil => exact fun line => rfl
    | cons f functions ih =>
      intro line
      rw [outlinedAll, List.mapM_cons, (readable f List.mem_cons_self).resolve,
        ih (fun f mem => readable f (List.mem_cons_of_mem _ mem)) _]
      rfl
  have names : (p.reread.functions.map (·.name)).Nodup := by
    rw [reread, List.map_map]
    exact h.distinct
  exact bind_ok.mpr ⟨_, h.outline, ofOutlines_iff.mpr ⟨resolved h.functions 1, names⟩⟩

end Program

end Codegen86.IR
