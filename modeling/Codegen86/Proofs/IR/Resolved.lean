import Codegen86.IR.Resolve
import Codegen86.Proofs.Except
/-!
# Functions whose values are numbered in order

Resolving an outline gives every operation the next number.  The function that comes out is known without
the builder: its parameters, and for each block the values that its statements denote
(`Function.ofBodies`, `FunctionOutline.resolve_eq`).
-/

set_option autoImplicit false

namespace Codegen86.IR

/-- Blocks whose values are numbered in order from `next` on. -/
def numberFrom (next : Nat) : List (String × List Value) → List Block
  | [] => []
  | (name, body) :: rest =>
    { name, body := List.range' next body.length } :: numberFrom (next + body.length) rest

/-- Named parameters as values. -/
def paramValues (params : List String) : List Value :=
  params.zipIdx.map fun (param, i) => { op := .arg i, name := some param }

/-- The function with these parameters and these values in its blocks, numbered in order. -/
def Function.ofBodies (name : String) (params : List String) (bodies : List (String × List Value)) :
    Function where
  name
  arity := params.length
  blocks := numberFrom params.length bodies
  values := (paramValues params ++ bodies.flatMap (·.2)).toArray

/-- The value that a statement defines. -/
def Statement.value (s : Statement) (scope : Scope) : Except ParseError Value := do
  let op ← s.op scope
  match s.result with
  | none => return { op }
  | some name => if op.hasResult then return { op, name := some name } else .error ⟨s.line, .noResult s.mnemonic⟩

/-- The values of a block under its name. -/
def BlockOutline.values (b : BlockOutline) (scope : Scope) : Except ParseError (String × List Value) := do
  return (b.name, ← b.body.mapM (·.value scope))

/-! ## Numbering -/

theorem numberFrom_append (next : Nat) (before after : List (String × List Value)) :
    numberFrom next (before ++ after) =
      numberFrom next before ++ numberFrom (next + (before.flatMap (·.2)).length) after := by
  induction before generalizing next with
  | nil => rfl
  | cons b before ih =>
    rw [List.cons_append, numberFrom, numberFrom, ih, List.flatMap_cons, List.length_append, Nat.add_assoc]
    rfl

theorem numberFrom_empty (next : Nat) (names : List String) :
    numberFrom next (names.map fun name => (name, [])) = names.map fun name => { name } := by
  induction names generalizing next with
  | nil => rfl
  | cons name names ih => rw [List.map_cons, List.map_cons, numberFrom, ih]; rfl

@[simp] theorem length_numberFrom (next : Nat) (bodies : List (String × List Value)) :
    (numberFrom next bodies).length = bodies.length := by
  induction bodies generalizing next with
  | nil => rfl
  | cons b bodies ih => rw [numberFrom, List.length_cons, List.length_cons, ih]

theorem length_paramValues (params : List String) : (paramValues params).length = params.length := by
  simp [paramValues]

theorem modify_append_cons {α : Type} (before : List α) (a : α) (after : List α) (f : α → α) :
    (before ++ a :: after).modify before.length f = before ++ f a :: after := by
  induction before with
  | nil => rfl
  | cons b before ih => simpa [List.modify_cons] using ih

/-! ## Building -/

namespace Builder

/-- Append a value to the current block. -/
def append (b : Builder) (v : Value) : Builder :=
  let (id, b) := b.target
  { b with function := { b.function with
      values := b.function.values.push v
      blocks := b.function.blocks.modify id fun block =>
        { block with body := block.body ++ [b.function.values.size] } } }

theorem nameValue_push (b : Builder) (op : Op) (name : String) :
    (b.push op).2.nameValue (b.push op).1 name = b.append { op, name := some name } := by
  have named (values : Array Value) :
      (values.push { op }).modify values.size (fun value => { value with name := some name }) =
        values.push { op, name := some name } := by
    apply Array.toList_inj.mp
    have := modify_append_cons values.toList ({ op } : Value) [] fun value => { value with name := some name }
    simpa using this
  simp only [nameValue, push, append]
  rw [named]

end Builder

theorem Statement.pushTo_eq (s : Statement) (scope : Scope) (b : Builder) :
    s.pushTo scope b = (s.value scope).map b.append := by
  unfold pushTo value
  cases s.op scope with
  | error e => rfl
  | ok op =>
    cases s.result with
    | none => rfl
    | some name =>
      show (if op.hasResult then _ else _) = Except.map _ (if op.hasResult then _ else _)
      split
      · exact congrArg Except.ok (b.nameValue_push op name)
      · rfl

namespace Function.ofBodies

variable {name : String} {params : List String} {done : List (String × List Value)}

/-- A value appended to the last block that is not empty takes the next number. -/
theorem append {block : String} {body : List Value} {rest : List String} {b : Builder}
    (function : b.function = ofBodies name params
      (done ++ (block, body) :: rest.map fun block => (block, [])))
    (current : b.current = some done.length) (v : Value) :
    (b.append v).function = ofBodies name params
        (done ++ (block, body ++ [v]) :: rest.map fun block => (block, [])) ∧
      (b.append v).current = some done.length := by
  have target : b.target = (done.length, b) := by rw [Builder.target, current]
  have silent : (rest.map fun block => (block, ([] : List Value))).flatMap (·.2) = [] := by simp
  have size : b.function.values.size = params.length + (done.flatMap (·.2)).length + body.length := by
    rw [function]
    simp only [ofBodies, List.size_toArray, List.length_append, length_paramValues, List.flatMap_append,
      List.flatMap_cons, silent, List.length_nil]
    omega
  refine ⟨?_, by rw [Builder.append, target]; exact current⟩
  have eq : (b.append v).function = { b.function with
      values := b.function.values.push v
      blocks := b.function.blocks.modify done.length fun block =>
        { block with body := block.body ++ [b.function.values.size] } } := by
    rw [Builder.append, target]
  rw [eq, size, function]
  simp only [ofBodies, mk.injEq, true_and]
  refine ⟨?_, ?_⟩
  · have place := length_numberFrom params.length done
    rw [numberFrom_append, numberFrom_append, numberFrom, numberFrom, numberFrom_empty, numberFrom_empty]
    have modified := modify_append_cons (numberFrom params.length done)
      { name := block, body := List.range' (params.length + (done.flatMap (·.2)).length) body.length }
      (rest.map fun name => { name }) fun block => { block with
        body := block.body ++ [params.length + (done.flatMap (·.2)).length + body.length] }
    rw [place] at modified
    rw [modified]
    simp [List.range'_concat]
  · apply Array.toList_inj.mp
    simp [List.flatMap_append, silent]

theorem appendAll {block : String} {body : List Value} {rest : List String} {b : Builder}
    (function : b.function = ofBodies name params
      (done ++ (block, body) :: rest.map fun block => (block, [])))
    (current : b.current = some done.length) (values : List Value) :
    (values.foldl Builder.append b).function = ofBodies name params
        (done ++ (block, body ++ values) :: rest.map fun block => (block, [])) := by
  induction values generalizing b body with
  | nil => simpa using function
  | cons v values ih =>
    obtain ⟨function, current⟩ := append function current v
    have := ih function current
    rwa [List.append_assoc] at this

end Function.ofBodies

namespace FunctionOutline

/-- Fill a block with what its statements define. -/
def fill (scope : Scope) (b : Builder) (block : BlockOutline × BlockId) : Except ParseError Builder :=
  block.1.body.foldlM (fun b s => s.pushTo scope b) (b.switchTo block.2)

theorem fill_values (scope : Scope) (b : Builder) (block : BlockOutline × BlockId) :
    fill scope b block = (block.1.values scope).map fun values =>
      values.2.foldl Builder.append (b.switchTo block.2) := by
  unfold fill BlockOutline.values
  simp only [Statement.pushTo_eq, foldlM_map]
  cases block.1.body.mapM (·.value scope) <;> rfl

/-- Blocks are filled one after another. -/
theorem fill_eq {name : String} {params : List String} (scope : Scope) (blocks : List BlockOutline)
    {done : List (String × List Value)} {b : Builder}
    (function : b.function = Function.ofBodies name params (done ++ (blocks.map (·.name)).map fun block => (block, []))) :
    ((blocks.zipIdx done.length).foldlM (fill scope) b).map (·.function) =
      (blocks.mapM fun block : BlockOutline => block.values scope).map fun bodies =>
        Function.ofBodies name params (done ++ bodies) := by
  induction blocks generalizing done b with
  | nil =>
    rw [List.map_nil, List.map_nil] at function
    rw [List.zipIdx_nil, List.foldlM_nil, List.mapM_nil]
    exact congrArg Except.ok function
  | cons block blocks ih =>
    rw [List.zipIdx_cons, List.foldlM_cons, List.mapM_cons, fill_values]
    cases read : block.values scope with
    | error e => rfl
    | ok values =>
      obtain ⟨body, -, same⟩ := bind_ok.mp read
      obtain rfl : (block.name, body) = values := Except.ok.inj same
      have switched : (b.switchTo done.length).function = b.function := rfl
      have filled := Function.ofBodies.appendAll (switched.trans function) rfl body
      have next := @ih (done ++ [(block.name, body)]) _ (by simpa using filled)
      rw [List.length_append, List.length_singleton] at next
      refine next.trans ?_
      cases blocks.mapM fun block : BlockOutline => block.values scope with
      | error e => rfl
      | ok bodies => simp [Except.map, bind, Except.bind, pure, Except.pure]

/-- Parameters are named one after another. -/
theorem nameParams_eq (params : List String) {named : List Value} {b : Builder}
    (values : b.function.values.toList =
      named ++ (List.range' named.length params.length).map fun i => ({ op := .arg i } : Value)) :
    ((params.zipIdx named.length).foldl (fun b param => b.nameValue param.2 param.1) b).function =
      { b.function with values := (named ++ (params.zipIdx named.length).map fun param =>
          ({ op := .arg param.2, name := some param.1 } : Value)).toArray } := by
  induction params generalizing named b with
  | nil =>
    have same : b.function.values = named.toArray := Array.toList_inj.mp (by simpa using values)
    simp [← same]
  | cons param params ih =>
    rw [List.length_cons, List.range'_succ, List.map_cons] at values
    have modified : (b.nameValue named.length param).function.values.toList =
        (named ++ [{ op := .arg named.length, name := some param }]) ++
          (List.range' (named.length + 1) params.length).map fun i => ({ op := .arg i } : Value) := by
      rw [Builder.nameValue, Array.toList_modify, values, modify_append_cons, List.append_assoc]
      rfl
    have next := @ih (named ++ [{ op := .arg named.length, name := some param }])
      (b.nameValue named.length param) (by simpa using modified)
    rw [List.length_append, List.length_singleton] at next
    rw [List.zipIdx_cons, List.foldl_cons, List.map_cons]
    refine next.trans ?_
    rw [List.append_assoc]
    rfl

/-- Blocks are added one after another. -/
theorem addBlocks_eq (blocks : List BlockOutline) (b : Builder) :
    (blocks.foldl (fun b block => (b.block block.name).2) b).function =
      { b.function with blocks := b.function.blocks ++ blocks.map fun block => { name := block.name } } := by
  induction blocks generalizing b with
  | nil => simp
  | cons block blocks ih =>
    rw [List.foldl_cons, ih]
    simp [Builder.block]

/-- The empty function has its parameters and blocks. -/
theorem frame_eq (f : FunctionOutline) :
    f.frame.function = Function.ofBodies f.name f.params ((f.blocks.map (·.name)).map fun block => (block, [])) := by
  unfold frame
  rw [addBlocks_eq]
  have named := @nameParams_eq f.params [] (Builder.start f.name f.params.length) (by
    simp [Builder.start, List.range_eq_range'])
  refine (congrArg (fun g : Function => { g with
    blocks := g.blocks ++ f.blocks.map fun block : BlockOutline => ({ name := block.name } : Block) })
      named).trans ?_
  simp only [Function.ofBodies, Builder.start, numberFrom_empty, paramValues, Function.mk.injEq, true_and]
  simp

/-- What an outline resolves to. -/
theorem resolve_eq (f : FunctionOutline) : f.resolve = do
    let values ← f.valueNames
    let blocks ← f.blockNames
    let bodies ← f.blocks.mapM (·.values { values, blocks })
    return Function.ofBodies f.name f.params bodies := by
  unfold resolve
  cases f.valueNames with
  | error e => rfl
  | ok values =>
    cases f.blockNames with
    | error e => rfl
    | ok blocks =>
      have filled := @fill_eq f.name f.params { values, blocks } f.blocks [] f.frame f.frame_eq
      show (f.blocks.zipIdx.foldlM (fill { values, blocks }) f.frame >>= fun b => pure b.function) = _
      refine Eq.trans ?_ (filled.trans ?_)
      · cases (f.blocks.zipIdx 0).foldlM (fill { values, blocks }) f.frame <;> rfl
      · show Except.map _ _ = (f.blocks.mapM fun block : BlockOutline => block.values { values, blocks }) >>= _
        cases f.blocks.mapM (fun block : BlockOutline => block.values { values, blocks }) <;> rfl

end FunctionOutline

/-! ## Programs -/

namespace Program

variable {p p' : Program} {f : Function}

theorem add_iff : p.add f = .ok p' ↔ f.name ∉ p.functions.map (·.name) ∧ p' = { functions := p.functions ++ [f] } := by
  unfold add
  have known : (p.function? f.name).isSome = true ↔ f.name ∈ p.functions.map (·.name) := by
    simp [function?]
  split
  · rename_i is
    simp [known.mp is]
  · rename_i is
    rw [known] at is
    simp [is, eq_comm]

theorem nodup_add : ((p.functions ++ [f]).map (·.name)).Nodup ↔
    (p.functions.map (·.name)).Nodup ∧ f.name ∉ p.functions.map (·.name) := by
  rw [List.map_append, List.map_singleton, List.nodup_append]
  simp only [List.nodup_cons, List.not_mem_nil, not_false_eq_true, List.nodup_nil, and_true, true_and,
    List.mem_singleton, forall_eq]
  exact and_congr_right fun _ => ⟨fun h mem => h _ mem rfl, fun h name mem same => h (same ▸ mem)⟩

/-- Resolve an outline, and add it to the functions before it. -/
def addOutline (p : Program) (f : FunctionOutline) : Except ParseError Program := do
  let function ← f.resolve
  match p.add function with
  | .ok p => .ok p
  | .error e => .error ⟨f.line, .rejected e⟩

theorem addOutlines_iff {outlines : List FunctionOutline} (distinct : (p.functions.map (·.name)).Nodup) :
    outlines.foldlM addOutline p = .ok p' ↔ ∃ functions, outlines.mapM (·.resolve) = .ok functions ∧
      p' = { functions := p.functions ++ functions } ∧ (p'.functions.map (·.name)).Nodup := by
  induction outlines generalizing p with
  | nil =>
    constructor
    · intro ok
      cases ok
      exact ⟨[], rfl, by simp, distinct⟩
    · rintro ⟨functions, none, rfl, -⟩
      cases none
      simp [pure, Except.pure]
  | cons f outlines ih =>
    rw [List.foldlM_cons, List.mapM_cons, bind_ok]
    constructor
    · rintro ⟨q, added, rest⟩
      obtain ⟨g, resolved, added⟩ := bind_ok.mp added
      cases kept : p.add g with
      | error e => simp [kept] at added
      | ok q' =>
        obtain rfl : q' = q := by simpa [kept] using added
        obtain ⟨new, rfl⟩ := add_iff.mp kept
        obtain ⟨functions, all, rfl, distinct⟩ := (ih (nodup_add.mpr ⟨distinct, new⟩)).mp rest
        refine ⟨g :: functions, ?_, by simp, distinct⟩
        rw [resolved, all]
        rfl
    · rintro ⟨functions, all, rfl, distinct'⟩
      obtain ⟨g, resolved, all⟩ := bind_ok.mp all
      obtain ⟨others, tail, same⟩ := bind_ok.mp all
      cases same
      have first : (({ functions := p.functions ++ [g] } : Program).functions.map (·.name)).Nodup := by
        rw [List.append_cons, List.map_append] at distinct'
        exact (List.nodup_append.mp distinct').1
      have new := (nodup_add.mp first).2
      refine ⟨{ functions := p.functions ++ [g] }, ?_, (ih first).mpr ⟨others, tail, by simp, distinct'⟩⟩
      rw [addOutline, resolved]
      simp [bind, Except.bind, add_iff.mpr ⟨new, rfl⟩]

/-- The programs that outlines describe. -/
theorem ofOutlines_iff {outlines : List FunctionOutline} : ofOutlines outlines = .ok p ↔
    outlines.mapM (·.resolve) = .ok p.functions ∧ (p.functions.map (·.name)).Nodup := by
  have from_nothing := @addOutlines_iff {} p outlines List.nodup_nil
  refine from_nothing.trans ⟨?_, fun h => ?_⟩
  · rintro ⟨functions, all, rfl, distinct⟩
    exact ⟨all, distinct⟩
  · exact ⟨p.functions, h.1, rfl, h.2⟩

end Program

end Codegen86.IR
