import Codegen86.Proofs.IR.Canonical
import Codegen86.Proofs.IR.References
import Mathlib.Data.List.Forall2
/-!
# Parsed programs are closed

Names are resolved in two passes that number values apart from each other: one makes the tables of names, the other
builds the function.  Both come to the same numbers, so that every name leads to the value or block that has it
(`FunctionOutline.Describes`), and nothing refers outside its function (`Function.Closed`).
-/

set_option autoImplicit false

namespace Codegen86.IR

/-- What a statement says of the value that it becomes: its name, the names of the values that it reads, and the names
of the blocks that it goes to. -/
structure Statement.Describes (s : Statement) (f : Function) (v : ValueId) : Prop where
  result : f.nameOf? v = s.result
  references : (f.operandsOf v).map f.nameOf? = s.references.map some
  targets : ∀ op, f.op? v = some op →
    (op.successors.map fun id => (f.blocks[id]?).map (·.name)) = s.targets.map some

/-- What an outline says of the function that it becomes: the parameters and blocks have their names, and blocks list
their statements in order.  The tables of names have for every name the value or block with that name, and for no
other. -/
structure FunctionOutline.Describes (o : FunctionOutline) (f : Function) : Prop where
  name : f.name = o.name
  params : f.args.map f.nameOf? = o.params.map some
  blocks : List.Forall₂ (fun (b : BlockOutline) (block : Block) =>
    block.name = b.name ∧ List.Forall₂ (fun s v => s.Describes f v) b.body block.body) o.blocks f.blocks
  valueNames :
    ∃ table, o.valueNames = .ok table ∧ ∀ name v, table.lookup name = some v ↔ f.nameOf? v = some name
  blockNames : ∃ table, o.blockNames = .ok table ∧
    ∀ name id, table.lookup name = some id ↔ (f.blocks[id]?).map (·.name) = some name

/-- A function that refers to nothing outside it.  Names of blocks and names of values are distinct.  The first values
are the arguments, and the blocks list all other values, in order and once each.  Operands are arguments or listed
results, and successors are blocks of the function. -/
structure Function.Closed (f : Function) : Prop where
  blockNames : (f.blocks.map (·.name)).Nodup
  valueNames : (f.values.toList.filterMap (·.name)).Nodup
  args : ∀ i < f.arity, f.op? i = some (.arg i)
  placed : f.placed = List.range' f.arity (f.values.size - f.arity)
  noArg : ∀ v ∈ f.placed, ∀ i, f.op? v ≠ some (.arg i)
  operands : ∀ v, ∀ u ∈ f.operandsOf v, u < f.arity ∨ u ∈ f.placed ∧ (f.op? u).any Op.hasResult = true
  successors : ∀ v op, f.op? v = some op → ∀ id ∈ op.successors, id < f.blocks.length

/-! ## Tables of names -/

/-- A table of names, numbered from `first` on. -/
def nameTable (first : Nat) (names : List (Option String)) : NameTable :=
  (names.zipIdx first).filterMap fun item => item.1.map fun name => (name, item.2)

theorem nameTable_append (first : Nat) (names names' : List (Option String)) :
    nameTable first (names ++ names') = nameTable first names ++ nameTable (first + names.length) names' := by
  rw [nameTable, List.zipIdx_append, List.filterMap_append, nameTable, nameTable]

theorem nameTable_keys (first : Nat) (names : List (Option String)) :
    (nameTable first names).map (·.1) = names.filterMap id := by
  induction names generalizing first with
  | nil => rfl
  | cons name names ih =>
    have rest := ih (first + 1)
    cases name <;> simpa [nameTable] using rest

section

variable {names : List (Option String)} {table table' : NameTable} {x : String} {v : Nat}

theorem mem_nameTable : (x, v) ∈ nameTable 0 names ↔ names[v]? = some (some x) := by
  simp only [nameTable, List.mem_filterMap, Option.map_eq_some_iff, Prod.mk.injEq]
  constructor
  · rintro ⟨⟨n, id⟩, mem, y, rfl, rfl, rfl⟩
    exact List.mk_mem_zipIdx_iff_getElem?.mp mem
  · intro here
    exact ⟨(some x, v), List.mk_mem_zipIdx_iff_getElem?.mpr here, x, rfl, rfl, rfl⟩

/-- Declaring items one after another gives the table of their names, and no name comes up twice. -/
theorem declared {α : Type} (name : α → Option String) (complaint : α → String → ParseError) {items : List α}
    {first : Nat} (distinct : (table.map (·.1)).Nodup)
    (done : (items.zipIdx first).foldlM (declareNamed name complaint) table = .ok table') :
    table'.reverse = table.reverse ++ nameTable first (items.map name) ∧ (table'.map (·.1)).Nodup := by
  induction items generalizing first table with
  | nil =>
    cases done
    exact ⟨by simp [nameTable], distinct⟩
  | cons item items ih =>
    rw [List.zipIdx_cons, List.foldlM_cons, declareNamed] at done
    obtain ⟨next, here, done⟩ := bind_ok.mp done
    cases named : name item with
    | none =>
      simp only [named] at here
      cases here
      obtain ⟨same, distinct⟩ := ih distinct done
      exact ⟨by simp [same, nameTable, named], distinct⟩
    | some n =>
      simp only [named, NameTable.declare] at here
      split at here
      · cases here
      · rename_i fresh
        cases here
        have new : n ∉ table.map (·.1) := fun mem => fresh (lookup_isSome.mpr mem)
        have distinct : (((n, first) :: table).map (·.1)).Nodup := List.nodup_cons.mpr ⟨new, distinct⟩
        obtain ⟨same, distinct⟩ := ih distinct done
        exact ⟨by simp [same, nameTable, named], distinct⟩

/-- A table in which no name comes up twice is looked up as it was numbered. -/
theorem lookup_iff (same : table.reverse = nameTable 0 names) (distinct : (table.map (·.1)).Nodup) :
    table.lookup x = some v ↔ names[v]? = some (some x) := by
  rw [← mem_nameTable, ← same, List.mem_reverse]
  exact ⟨mem_of_lookup, lookup_of_mem distinct⟩

theorem nodup_of_table (same : table.reverse = nameTable 0 names) (distinct : (table.map (·.1)).Nodup) :
    (names.filterMap id).Nodup := by
  rw [← nameTable_keys 0, ← same, List.map_reverse]
  exact List.nodup_reverse.mpr distinct

end

namespace FunctionOutline

variable {o : FunctionOutline} {table : NameTable}

/-- The names of parameters and statements, in order. -/
def names (o : FunctionOutline) : List (Option String) :=
  o.params.map some ++ (o.blocks.flatMap (·.body)).map (·.result)

theorem none_twice : (([] : NameTable).map (·.1)).Nodup := List.nodup_nil

theorem valueNames_ok (ok : o.valueNames = .ok table) :
    table.reverse = nameTable 0 o.names ∧ (table.map (·.1)).Nodup := by
  rw [valueNames_eq] at ok
  obtain ⟨params, first, rest⟩ := bind_ok.mp ok
  obtain ⟨same, distinct⟩ := declared some (fun param _ => ⟨o.line, .duplicateArgument param⟩) none_twice first
  obtain ⟨same', distinct'⟩ := declared _ _ distinct rest
  refine ⟨?_, distinct'⟩
  rw [same', same, names, nameTable_append, List.length_map, Nat.zero_add]
  rfl

theorem blockNames_ok (ok : o.blockNames = .ok table) :
    table.reverse = nameTable 0 (o.blocks.map fun b => some b.name) ∧ (table.map (·.1)).Nodup :=
  declared (fun b : BlockOutline => some b.name) (fun b _ => ⟨b.line, .duplicateBlock b.name⟩)
    none_twice ok

end FunctionOutline

/-! ## What an outline resolves to -/

/-- Items that agree one by one. -/
theorem map_eq_of_forall₂ {α β γ : Type} {items : List α} {results : List β} {g : α → γ} {g' : β → γ}
    (agree : List.Forall₂ (fun a b => g a = g' b) items results) : items.map g = results.map g' := by
  rw [← List.forall₂_eq_eq_eq, List.forall₂_map_left_iff, List.forall₂_map_right_iff]
  exact agree

/-- The values of a block come of its statements. -/
def BlockOutline.Reads (scope : Scope) (b : BlockOutline) (body : String × List Value) : Prop :=
  body.1 = b.name ∧ List.Forall₂ (fun s x => s.value scope = .ok x) b.body body.2

/-- How a function comes of an outline: the tables of names, and the values of every block. -/
structure FunctionOutline.Resolves (o : FunctionOutline) (f : Function) (scope : Scope)
    (bodies : List (String × List Value)) : Prop where
  values : o.valueNames = .ok scope.values
  blocks : o.blockNames = .ok scope.blocks
  reads : List.Forall₂ (BlockOutline.Reads scope) o.blocks bodies
  function : f = Function.ofBodies o.name o.params bodies

theorem FunctionOutline.resolve_ok {o : FunctionOutline} {f : Function} (ok : o.resolve = .ok f) :
    ∃ scope bodies, o.Resolves f scope bodies := by
  rw [resolve_eq] at ok
  obtain ⟨values, named, ok⟩ := bind_ok.mp ok
  obtain ⟨blocks, named', ok⟩ := bind_ok.mp ok
  obtain ⟨bodies, read, ok⟩ := bind_ok.mp ok
  cases ok
  refine ⟨{ values, blocks }, bodies, named, named', (forall₂_mapM read).imp fun b body one => ?_, rfl⟩
  obtain ⟨listed, all, one⟩ := bind_ok.mp one
  cases one
  exact ⟨rfl, forall₂_mapM all⟩

section

variable {s : Statement} {scope : Scope} {x : Value}

/-- What a statement becomes. -/
theorem Statement.value_ok (ok : s.value scope = .ok x) :
    s.op scope = .ok x.op ∧ x.name = s.result ∧ (x.name ≠ none → x.op.hasResult = true) := by
  obtain ⟨op, denoted, ok⟩ := bind_ok.mp ok
  split at ok
  · rename_i unnamed
    cases ok
    exact ⟨denoted, unnamed.symm, fun some => absurd rfl some⟩
  · rename_i name named
    split at ok
    · rename_i result
      cases ok
      exact ⟨denoted, named.symm, fun _ => result⟩
    · cases ok

/-- Items that stand one after another have their numbers in order. -/
theorem forall₂_range' {α β : Type} {R : α → β → Prop} {items : List α} {results all rest : List β} {next : Nat}
    (related : List.Forall₂ R items results) (here : all.drop next = results ++ rest) :
    List.Forall₂ (fun a v => ∃ b, R a b ∧ all[v]? = some b) items (List.range' next results.length) := by
  induction related generalizing next with
  | nil => exact .nil
  | @cons a b items results first _ ih =>
    have head : all[next]? = some b := by
      rw [← List.head?_drop, here]
      rfl
    have tail : all.drop (next + 1) = results ++ rest := by
      have tails := congrArg List.tail here
      rwa [List.tail_drop] at tails
    rw [List.length_cons, List.range'_succ]
    exact .cons ⟨b, first, head⟩ (ih tail)

theorem getElem?_paramValues (params : List String) (i : Nat) :
    (paramValues params)[i]? = params[i]?.map fun param => { op := .arg i, name := some param } := by
  rw [paramValues, List.getElem?_map, List.getElem?_zipIdx, Option.map_map]
  simp [Function.comp_def]

/-- The blocks list the numbers of their values. -/
theorem numberFrom_reads {blocks : List BlockOutline} {bodies : List (String × List Value)} {all : List Value}
    {next : Nat} (reads : List.Forall₂ (BlockOutline.Reads scope) blocks bodies)
    (here : all.drop next = bodies.flatMap (·.2)) :
    List.Forall₂ (fun (b : BlockOutline) (block : Block) => block.name = b.name ∧
      List.Forall₂ (fun s v => ∃ x, s.value scope = .ok x ∧ all[v]? = some x) b.body block.body) blocks
      (numberFrom next bodies) := by
  induction reads generalizing next with
  | nil => exact .nil
  | @cons b body blocks bodies first _ ih =>
    obtain ⟨name, values⟩ := first
    rw [List.flatMap_cons] at here
    have tail : all.drop (next + body.2.length) = bodies.flatMap (·.2) := by
      rw [← List.drop_drop, here, List.drop_left]
    exact .cons ⟨name, forall₂_range' values here⟩ (ih tail)

theorem numberFrom_placed (next : Nat) (bodies : List (String × List Value)) :
    (numberFrom next bodies).flatMap (·.body) = List.range' next (bodies.flatMap (·.2)).length := by
  induction bodies generalizing next with
  | nil => rfl
  | cons body bodies ih =>
    have joined := @List.range'_append next body.2.length (bodies.flatMap (·.2)).length 1
    rw [Nat.one_mul] at joined
    rw [numberFrom, List.flatMap_cons, ih, List.flatMap_cons, List.length_append, joined]

/-- Names that a table has lead to the items that have the names. -/
theorem map_of_lookup {names : List String} {ids : List Nat} {table : NameTable} {name? : Nat → Option String}
    (found : (names.map fun name => table.lookup name) = ids.map some)
    (known : ∀ name id, table.lookup name = some id → name? id = some name) :
    ids.map name? = names.map some := by
  induction names generalizing ids with
  | nil =>
    have none := List.map_eq_nil_iff.mp found.symm
    subst none
    rfl
  | cons name names ih =>
    obtain ⟨id, rest, rfl, here, others⟩ := List.map_eq_cons_iff.mp found.symm
    rw [List.map_cons, List.map_cons, known name id here.symm, ih others.symm]

end

namespace FunctionOutline.Resolves

variable {o : FunctionOutline} {f : Function} {scope : Scope} {bodies : List (String × List Value)}
  {name : String} {v id : Nat}

theorem results (reads : List.Forall₂ (BlockOutline.Reads scope) o.blocks bodies) :
    (bodies.flatMap (·.2)).map (·.name) = (o.blocks.flatMap (·.body)).map (·.result) := by
  generalize o.blocks = blocks at reads
  induction reads with
  | nil => rfl
  | cons first _ ih =>
    have here := map_eq_of_forall₂ (first.2.imp fun s x ok => (Statement.value_ok ok).2.1.symm)
    rw [List.flatMap_cons, List.flatMap_cons, List.map_append, List.map_append, ih, ← here]

variable (h : o.Resolves f scope bodies)

include h

theorem values_eq : f.values.toList = paramValues o.params ++ bodies.flatMap (·.2) := by
  rw [h.function]
  rfl

theorem names : f.values.toList.map (·.name) = o.names := by
  have params : (paramValues o.params).map (·.name) = o.params.map some := by
    refine List.ext_getElem? fun i => ?_
    rw [List.getElem?_map, List.getElem?_map, getElem?_paramValues, Option.map_map]
    rfl
  rw [h.values_eq, List.map_append, params, results h.reads, FunctionOutline.names]

theorem nameOf? : f.nameOf? v = some name ↔ o.names[v]? = some (some name) := by
  rw [← h.names, List.getElem?_map, Array.getElem?_toList, Function.nameOf?, Option.bind_eq_some_iff,
    Option.map_eq_some_iff]

theorem lookup_value : scope.values.lookup name = some v ↔ f.nameOf? v = some name := by
  obtain ⟨same, distinct⟩ := valueNames_ok h.values
  rw [h.nameOf?, lookup_iff same distinct]

/-- Every block lists what its statements become. -/
theorem blocks_read : List.Forall₂ (fun (b : BlockOutline) (block : Block) => block.name = b.name ∧
    List.Forall₂ (fun s v => ∃ x, s.value scope = .ok x ∧ f.values[v]? = some x) b.body block.body)
    o.blocks f.blocks := by
  have here : f.values.toList.drop o.params.length = bodies.flatMap (·.2) := by
    rw [h.values_eq, ← length_paramValues o.params, List.drop_left]
  have blocks : f.blocks = numberFrom o.params.length bodies := by
    rw [h.function]
    rfl
  rw [blocks]
  simpa using numberFrom_reads h.reads here

theorem block_names : f.blocks.map (·.name) = o.blocks.map (·.name) :=
  (map_eq_of_forall₂ (h.blocks_read.imp fun _ _ block => block.1.symm)).symm

theorem lookup_block : scope.blocks.lookup name = some id ↔ (f.blocks[id]?).map (·.name) = some name := by
  obtain ⟨same, distinct⟩ := blockNames_ok h.blocks
  rw [lookup_iff same distinct, ← List.getElem?_map, h.block_names]
  simp

theorem tidy (names : o.Tidy) : scope.Tidy := by
  intro name id found
  obtain ⟨same, distinct⟩ := blockNames_ok h.blocks
  have here := (lookup_iff same distinct).mp found
  rw [List.getElem?_map] at here
  obtain ⟨b, at_, same⟩ := Option.map_eq_some_iff.mp here
  exact Option.some.inj same ▸ (names.blocks b (List.mem_of_getElem? at_)).1

/-- A statement says of its value what it reads as. -/
theorem statement (names : o.Tidy) {s : Statement} {x : Value} (read : s.value scope = .ok x)
    (here : f.values[v]? = some x) : s.Describes f v := by
  obtain ⟨denoted, result, -⟩ := Statement.value_ok read
  have refers := Statement.op_refers (h.tidy names) denoted
  have op : f.op? v = some x.op := by rw [Function.op?, here]; rfl
  refine ⟨?_, ?_, fun op' same => ?_⟩
  · rw [← result, Function.nameOf?, here]
    rfl
  · rw [Function.operandsOf, op]
    exact map_of_lookup refers.values fun name id found => h.lookup_value.mp found
  · obtain rfl := Option.some.inj (op.symm.trans same)
    exact map_of_lookup refers.blocks fun name id found => h.lookup_block.mp found

theorem arity : f.arity = o.params.length := by
  rw [h.function]
  rfl

theorem describes (names : o.Tidy) : o.Describes f where
  name := by
    rw [h.function]
    rfl
  params := by
    refine List.ext_getElem (by simp [Function.args, h.arity]) fun i _ inside => ?_
    rw [List.length_map] at inside
    have named : f.nameOf? i = some o.params[i] := by
      apply h.nameOf?.mpr
      rw [FunctionOutline.names, List.getElem?_append_left (by simpa using inside)]
      simp [inside]
    simpa [Function.args] using named
  blocks := h.blocks_read.imp fun b block ⟨name, body⟩ =>
    ⟨name, body.imp fun s v ⟨x, read, here⟩ => h.statement names read here⟩
  valueNames := ⟨scope.values, h.values, fun name v => h.lookup_value⟩
  blockNames := ⟨scope.blocks, h.blocks, fun name id => h.lookup_block⟩

theorem placed : f.placed = List.range' f.arity (f.values.size - f.arity) := by
  have size : f.values.size = f.arity + (bodies.flatMap (·.2)).length := by
    rw [← Array.length_toList, h.values_eq, List.length_append, length_paramValues, h.arity]
  have blocks : f.blocks = numberFrom f.arity bodies := by
    rw [h.function]
    rfl
  rw [Function.placed, blocks, numberFrom_placed, size, Nat.add_sub_cancel_left]

/-- What a listed value comes from. -/
theorem of_placed (mem : v ∈ f.placed) :
    ∃ (s : Statement) (x : Value), s.value scope = .ok x ∧ f.values[v]? = some x := by
  obtain ⟨block, listed, mem⟩ := List.mem_flatMap.mp mem
  obtain ⟨b, -, -, body⟩ := exists_of_forall₂ h.blocks_read listed
  obtain ⟨s, -, x, read, here⟩ := exists_of_forall₂ body mem
  exact ⟨s, x, read, here⟩

theorem arg (inside : v < f.arity) : f.op? v = some (.arg v) := by
  rw [h.arity] at inside
  rw [Function.op?, ← Array.getElem?_toList, h.values_eq,
    List.getElem?_append_left (by rwa [length_paramValues]), getElem?_paramValues, List.getElem?_eq_getElem inside]
  rfl

/-- An operation is an argument, or comes from a statement. -/
theorem of_op (names : o.Tidy) {op : Op} (here : f.op? v = some op) :
    (v < f.arity ∧ op = .arg v) ∨ ∃ s : Statement, s.Refers scope op := by
  by_cases inside : v < f.arity
  · exact .inl ⟨inside, Option.some.inj (here.symm.trans (h.arg inside))⟩
  · obtain ⟨x, found, rfl⟩ := Option.map_eq_some_iff.mp here
    obtain ⟨less, -⟩ := Array.getElem?_eq_some_iff.mp found
    have mem : v ∈ f.placed := by
      rw [h.placed, List.mem_range'_1]
      omega
    obtain ⟨s, y, read, same⟩ := h.of_placed mem
    obtain rfl := Option.some.inj (found.symm.trans same)
    exact .inr ⟨s, Statement.op_refers (h.tidy names) (Statement.value_ok read).1⟩

/-- A named value is an argument, or a result that a block lists. -/
theorem of_name (named : f.nameOf? v = some name) :
    v < f.arity ∨ v ∈ f.placed ∧ (f.op? v).any Op.hasResult = true := by
  by_cases inside : v < f.arity
  · exact .inl inside
  · obtain ⟨x, found, named⟩ := Option.bind_eq_some_iff.mp named
    obtain ⟨less, -⟩ := Array.getElem?_eq_some_iff.mp found
    have mem : v ∈ f.placed := by
      rw [h.placed, List.mem_range'_1]
      omega
    obtain ⟨s, y, read, same⟩ := h.of_placed mem
    obtain rfl := Option.some.inj (found.symm.trans same)
    have result := (Statement.value_ok read).2.2 (by simp [named])
    exact .inr ⟨mem, by simp [Function.op?, found, result]⟩

theorem closed (names : o.Tidy) : f.Closed where
  blockNames := by
    obtain ⟨same, distinct⟩ := blockNames_ok h.blocks
    have nodup := nodup_of_table same distinct
    rw [List.filterMap_map] at nodup
    rw [h.block_names]
    simpa using nodup
  valueNames := by
    obtain ⟨same, distinct⟩ := valueNames_ok h.values
    have nodup := nodup_of_table same distinct
    rwa [← h.names, List.filterMap_map] at nodup
  args := fun i inside => h.arg inside
  placed := h.placed
  noArg := by
    intro v mem i arg
    rcases h.of_op names arg with ⟨inside, -⟩ | ⟨s, refers⟩
    · rw [h.placed, List.mem_range'_1] at mem
      omega
    · exact refers.noArg i rfl
  operands := by
    intro v u reads
    cases here : f.op? v with
    | none => simp [Function.operandsOf, here] at reads
    | some op =>
      rw [Function.operandsOf, here] at reads
      rcases h.of_op names here with ⟨-, rfl⟩ | ⟨s, refers⟩
      · cases reads
      · have mem : some u ∈ op.operands.map some := List.mem_map_of_mem reads
        rw [← refers.values] at mem
        obtain ⟨name, -, found⟩ := List.mem_map.mp mem
        exact h.of_name (h.lookup_value.mp found)
  successors := by
    intro v op here id goes
    rcases h.of_op names here with ⟨-, rfl⟩ | ⟨s, refers⟩
    · cases goes
    · have mem : some id ∈ op.successors.map some := List.mem_map_of_mem goes
      rw [← refers.blocks] at mem
      obtain ⟨name, -, found⟩ := List.mem_map.mp mem
      obtain ⟨block, found, -⟩ := Option.map_eq_some_iff.mp (h.lookup_block.mp found)
      exact (List.getElem?_eq_some_iff.mp found).1

end FunctionOutline.Resolves

/-- **Parsed programs are closed.**  Functions have distinct names.  Every function is what its outline in the text says,
with every name leading to the value or block of that name; and it refers to nothing outside it. -/
theorem parse_closed {text : String} {p : Program} (parsed : parse text = .ok p) :
    (p.functions.map (·.name)).Nodup ∧ (∀ f ∈ p.functions, f.Closed) ∧
      ∃ outlines, outline text.toList = .ok outlines ∧
        List.Forall₂ (fun (o : FunctionOutline) f => o.Describes f) outlines p.functions := by
  obtain ⟨outlines, outlined, resolved⟩ := bind_ok.mp parsed
  obtain ⟨resolved, distinct⟩ := Program.ofOutlines_iff.mp resolved
  refine ⟨distinct, fun f mem => ?_, outlines, outlined, ?_⟩
  · obtain ⟨o, mem, one⟩ := mem_mapM resolved mem
    obtain ⟨scope, bodies, resolves⟩ := FunctionOutline.resolve_ok one
    exact resolves.closed (outline_tidy outlined mem)
  · have tidy : ∀ o ∈ outlines, o.Tidy := fun o mem => outline_tidy outlined mem
    refine ((List.forall₂_and_left _ _).mpr ⟨tidy, forall₂_mapM resolved⟩).imp fun o f ⟨tidy, one⟩ => ?_
    obtain ⟨scope, bodies, resolves⟩ := FunctionOutline.resolve_ok one
    exact resolves.describes tidy

/-- A function that reads `%y` and goes to `last` before their lines. -/
def readsAhead : Function where
  name := "f"
  arity := 1
  blocks := [{ name := "entry", body := [1] }, { name := "last", body := [2, 3] }, { name := "body", body := [4, 5] }]
  values := #[{ op := .arg 0, name := some "a" }, { op := .jump 2 },
    { op := .binary (.arith .add) 4 0, name := some "z" }, { op := .retValue 2 }, { op := .imm 2, name := some "y" },
    { op := .jump 1 }]

def readsAheadText : String :=
  "fn f(%a) \x7b\nentry:\n jmp body\nlast:\n %z = add %y, %a\n retr %z\nbody:\n %y = ldi 2\n jmp last\n\x7d"

/-- What is read ahead is the value with that name. -/
theorem readsAhead_closed :
    parse readsAheadText = .ok { functions := [readsAhead] } ∧ readsAhead.Closed ∧
      (readsAhead.operandsOf 2).map readsAhead.nameOf? = [some "y", some "a"] := by
  have parsed : parse readsAheadText = .ok { functions := [readsAhead] } := by decide +kernel
  obtain ⟨-, closed, -⟩ := parse_closed parsed
  exact ⟨parsed, closed readsAhead (List.mem_singleton.mpr rfl), by decide⟩

end Codegen86.IR
