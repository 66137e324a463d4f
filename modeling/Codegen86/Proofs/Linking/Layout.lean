import Codegen86.Proofs.Except
import Codegen86.Proofs.Lookup
import Codegen86.Target.Layout
/-!
# Layouts as tables

The layout of a program is the table of its functions' and blocks' names, each with the number of
instructions before it (`functionLabels`).  Laying out succeeds exactly if no name occurs twice
(`ofProgram_iff`), and else reports the first that does (`ofProgram_error`).  Patching gives the labels of jumps
and calls the addresses of that table and leaves other operands alone (`patch_ok`), unless a label has no name of
the table; the first one is reported (`patch_error`).
-/

set_option autoImplicit false

namespace Codegen86.Target

/-- The names of blocks, laid out from an address on. -/
def blockLabels : Nat → List Block → List (String × Nat)
  | _, [] => []
  | a, b :: rest => (b.name, a) :: blockLabels (a + b.code.length) rest

/-- The names of functions and their blocks, laid out from an address on. -/
def functionLabels : Nat → List Function → List (String × Nat)
  | _, [] => []
  | a, f :: rest => (f.name, a) :: blockLabels a f.blocks ++ functionLabels (a + f.size) rest

/-- The name of a function and the names of its blocks. -/
def Function.names (f : Function) : List String := f.name :: f.blocks.map (·.name)

/-- All names that labels may refer to. -/
def Program.names (p : Program) : List String := p.functions.flatMap (·.names)

theorem blockLabels_append (a : Nat) (before after : List Block) :
    blockLabels a (before ++ after) =
      blockLabels a before ++ blockLabels (a + (before.flatMap (·.code)).length) after := by
  induction before generalizing a with
  | nil => simp [blockLabels]
  | cons b rest ih => simp [blockLabels, ih, Nat.add_assoc]

theorem functionLabels_append (a : Nat) (before after : List Function) :
    functionLabels a (before ++ after) =
      functionLabels a before ++
        functionLabels (a + (before.flatMap (·.code)).length) after := by
  induction before generalizing a with
  | nil => simp [functionLabels]
  | cons f rest ih =>
    simp [functionLabels, ih, Nat.add_assoc, Function.size, List.append_assoc]

theorem blockLabels_names (a : Nat) (blocks : List Block) :
    (blockLabels a blocks).map (·.1) = blocks.map (·.name) := by
  induction blocks generalizing a with
  | nil => rfl
  | cons b rest ih => simp [blockLabels, ih]

theorem functionLabels_names (a : Nat) (functions : List Function) :
    (functionLabels a functions).map (·.1) = functions.flatMap (·.names) := by
  induction functions generalizing a with
  | nil => rfl
  | cons f rest ih =>
    simp only [functionLabels, List.map_append, List.map_cons, blockLabels_names, ih,
      List.flatMap_cons, Function.names]

/-- The first element of a list that occurred before. -/
def FirstRepeated {α : Type} (l : List α) (x : α) : Prop :=
  ∃ before after, l = before ++ x :: after ∧ before.Nodup ∧ x ∈ before

theorem FirstRepeated.not_nodup {α : Type} {l : List α} {x : α} (h : FirstRepeated l x) : ¬ l.Nodup := by
  obtain ⟨before, after, rfl, -, mem⟩ := h
  intro nodup
  exact (List.nodup_append.mp nodup).2.2 x mem x List.mem_cons_self rfl

/-- There is only one such element. -/
theorem FirstRepeated.unique {α : Type} {l : List α} {x y : α} (h : FirstRepeated l x) (h' : FirstRepeated l y) :
    x = y := by
  obtain ⟨before, after, split, distinct, mem⟩ := h
  obtain ⟨before', after', split', distinct', mem'⟩ := h'
  -- a longer beginning would hold the element that was repeated in the shorter one
  have early : ∀ {b b' a' : List α} {z : α}, b ++ z :: a' = b' → z ∈ b → ¬ b'.Nodup := by
    rintro b b' a' z rfl mem nodup
    exact (List.nodup_append.mp nodup).2.2 z mem z List.mem_cons_self rfl
  rcases List.append_eq_append_iff.mp (split.symm.trans split') with ⟨more, longer, rest⟩ | ⟨more, longer, rest⟩
  · cases more with
    | nil => exact (List.cons.inj rest).1
    | cons z more =>
      obtain ⟨rfl, -⟩ := List.cons.inj rest
      exact absurd distinct' (early longer.symm mem)
  · cases more with
    | nil => exact (List.cons.inj rest).1.symm
    | cons z more =>
      obtain ⟨rfl, -⟩ := List.cons.inj rest
      exact absurd distinct (early longer.symm mem')

namespace Layout

theorem address?_isSome {l : Layout} {name : String} :
    (l.address? name).isSome = true ↔ name ∈ l.labels.map (·.1) := lookup_isSome

theorem define_of_new {l : Layout} {name : String} (new : name ∉ l.labels.map (·.1)) :
    l.define name = .ok { l with labels := l.labels ++ [(name, l.size)] } := by
  rw [define, if_neg (mt address?_isSome.mp new)]

theorem define_ok {l l' : Layout} {name : String} (h : l.define name = .ok l') :
    name ∉ l.labels.map (·.1) ∧ l' = { l with labels := l.labels ++ [(name, l.size)] } := by
  unfold define at h
  split at h
  · cases h
  · rename_i new
    cases h
    exact ⟨mt address?_isSome.mpr new, rfl⟩

/-- The layout with more labels and more instructions. -/
def extend (l : Layout) (labels : List (String × Nat)) (size : Nat) : Layout :=
  { labels := l.labels ++ labels, size := l.size + size }

theorem addBlocks_iff {l l' : Layout} (distinct : (l.labels.map (·.1)).Nodup) (blocks : List Block) :
    blocks.foldlM addBlock l = .ok l' ↔
      (l.labels.map (·.1) ++ blocks.map (·.name)).Nodup ∧
        l' = l.extend (blockLabels l.size blocks) (blocks.flatMap (·.code)).length := by
  induction blocks generalizing l with
  | nil => simp [extend, blockLabels, distinct, pure, Except.pure, eq_comm]
  | cons b rest ih =>
    rw [List.foldlM_cons]
    by_cases new : b.name ∈ l.labels.map (·.1)
    · have fails : l.addBlock b = .error (.duplicateLabel b.name) := by
        simp [addBlock, define, address?_isSome.mpr new, bind, Except.bind]
      rw [fails]
      simp only [bind, Except.bind, reduceCtorEq, false_iff, not_and]
      intro nodup
      exact absurd rfl ((List.nodup_append.mp nodup).2.2 _ new _ (by simp))
    · have adds : l.addBlock b = .ok (l.extend [(b.name, l.size)] b.code.length) := by
        simp [addBlock, define_of_new new, bind, Except.bind, pure, Except.pure, extend]
      have distinct' : ((l.extend [(b.name, l.size)] b.code.length).labels.map (·.1)).Nodup := by
        simp only [extend, List.map_append, List.map_cons, List.map_nil, List.nodup_append]
        refine ⟨distinct, by simp, ?_⟩
        intro x mem y mem' same
        rw [List.mem_singleton] at mem'
        exact new (mem' ▸ same ▸ mem)
      rw [adds]
      simp only [bind, Except.bind]
      rw [ih distinct']
      simp [extend, blockLabels, Nat.add_assoc]

theorem addFunction_iff {l l' : Layout} (distinct : (l.labels.map (·.1)).Nodup) (f : Function) :
    l.addFunction f = .ok l' ↔
      (l.labels.map (·.1) ++ f.names).Nodup ∧
        l' = l.extend ((f.name, l.size) :: blockLabels l.size f.blocks) f.size := by
  by_cases new : f.name ∈ l.labels.map (·.1)
  · have fails : l.addFunction f = .error (.duplicateLabel f.name) := by
      simp [addFunction, define, address?_isSome.mpr new, bind, Except.bind]
    rw [fails]
    simp only [reduceCtorEq, false_iff, not_and]
    intro nodup
    exact absurd rfl ((List.nodup_append.mp nodup).2.2 _ new _ (by simp [Function.names]))
  · have distinct' : ((l.extend [(f.name, l.size)] 0).labels.map (·.1)).Nodup := by
      simp only [extend, List.map_append, List.map_cons, List.map_nil, List.nodup_append]
      refine ⟨distinct, by simp, ?_⟩
      intro x mem y mem' same
      rw [List.mem_singleton] at mem'
      exact new (mem' ▸ same ▸ mem)
    have adds : l.addFunction f = f.blocks.foldlM addBlock (l.extend [(f.name, l.size)] 0) := by
      simp [addFunction, define_of_new new, bind, Except.bind, extend]
    rw [adds, addBlocks_iff distinct']
    simp [extend, Function.names, Function.size, Function.code]

theorem nodup_extend {l : Layout} {labels : List (String × Nat)} {size : Nat} :
    ((l.extend labels size).labels.map (·.1)).Nodup ↔
      (l.labels.map (·.1) ++ labels.map (·.1)).Nodup := by
  rw [extend, List.map_append]

theorem addFunctions_iff {l l' : Layout} (distinct : (l.labels.map (·.1)).Nodup)
    (functions : List Function) :
    functions.foldlM addFunction l = .ok l' ↔
      (l.labels.map (·.1) ++ functions.flatMap (·.names)).Nodup ∧
        l' = l.extend (functionLabels l.size functions) (functions.flatMap (·.code)).length := by
  induction functions generalizing l with
  | nil => simp [extend, functionLabels, distinct, pure, Except.pure, eq_comm]
  | cons f rest ih =>
    rw [List.foldlM_cons]
    have names : ((f.name, l.size) :: blockLabels l.size f.blocks).map (·.1) = f.names := by
      rw [List.map_cons, blockLabels_names, Function.names]
    cases added : l.addFunction f with
    | error e =>
      simp only [bind, Except.bind, reduceCtorEq, false_iff, not_and]
      intro nodup
      rw [List.flatMap_cons, ← List.append_assoc] at nodup
      have ok := (addFunction_iff distinct f).mpr ⟨(List.nodup_append.mp nodup).1, rfl⟩
      rw [added] at ok
      cases ok
    | ok next =>
      obtain ⟨nodup, rfl⟩ := (addFunction_iff distinct f).mp added
      simp only [bind, Except.bind]
      rw [ih (nodup_extend.mpr (by rw [names]; exact nodup))]
      simp only [extend, List.map_append, names, List.flatMap_cons, List.append_assoc,
        functionLabels, List.length_append, Nat.add_assoc, Function.size, Function.code]

/-- A program is laid out if and only if no name occurs twice. -/
theorem ofProgram_iff {p : Program} {l : Layout} :
    ofProgram p = .ok l ↔
      p.names.Nodup ∧ l = { labels := functionLabels 0 p.functions, size := p.size } := by
  rw [ofProgram, addFunctions_iff (by simp)]
  simp [extend, Program.names, Program.size, Program.code]

/-! ## Names that occur twice -/

theorem define_error {l : Layout} {name : String} {e : Error} (failed : l.define name = .error e) :
    name ∈ l.labels.map (·.1) ∧ e = .duplicateLabel name := by
  unfold define at failed
  split at failed
  · rename_i old
    cases failed
    exact ⟨address?_isSome.mp old, rfl⟩
  · cases failed

theorem addBlock_error {l : Layout} {b : Block} {e : Error} (failed : l.addBlock b = .error e) :
    b.name ∈ l.labels.map (·.1) ∧ e = .duplicateLabel b.name := by
  unfold addBlock at failed
  cases defined : l.define b.name with
  | error e' =>
    rw [defined] at failed
    cases failed
    exact define_error defined
  | ok next =>
    rw [defined] at failed
    cases failed

/-- A function is not laid out if one of its names is taken, and the first of them is reported. -/
theorem addFunction_error {l : Layout} (distinct : (l.labels.map (·.1)).Nodup) {f : Function} {e : Error}
    (failed : l.addFunction f = .error e) :
    ∃ before name after, f.names = before ++ name :: after ∧ (l.labels.map (·.1) ++ before).Nodup ∧
      name ∈ l.labels.map (·.1) ++ before ∧ e = .duplicateLabel name := by
  unfold addFunction at failed
  cases defined : l.define f.name with
  | error e' =>
    rw [defined] at failed
    cases failed
    obtain ⟨old, rfl⟩ := define_error defined
    exact ⟨[], f.name, _, rfl, by simpa using distinct, by simpa using old, rfl⟩
  | ok next =>
    rw [defined] at failed
    obtain ⟨new, rfl⟩ := define_ok defined
    obtain ⟨above, b, below, l', split, earlier, here⟩ := foldlM_error failed
    have names : (l.labels ++ [(f.name, l.size)]).map (·.1) = l.labels.map (·.1) ++ [f.name] := by simp
    have distinct' : ((l.labels ++ [(f.name, l.size)]).map (·.1)).Nodup := by
      rw [names, List.nodup_append]
      refine ⟨distinct, by simp, fun x mem y mem' same => ?_⟩
      obtain rfl := List.mem_singleton.mp mem'
      exact new (same ▸ mem)
    obtain ⟨nodup, rfl⟩ := (addBlocks_iff distinct' above).mp earlier
    obtain ⟨old, rfl⟩ := addBlock_error here
    rw [names, List.append_assoc, List.singleton_append] at nodup
    refine ⟨f.name :: above.map (·.name), b.name, below.map (·.name), ?_, nodup, ?_, rfl⟩
    · simp [Function.names, split]
    · simpa [extend, blockLabels_names] using old

/-- A program is not laid out exactly if a name occurs twice, and the first that does is reported. -/
theorem ofProgram_error {p : Program} {e : Error} :
    ofProgram p = .error e ↔ ∃ name, FirstRepeated p.names name ∧ e = .duplicateLabel name := by
  have reported : ∀ {e}, ofProgram p = .error e →
      ∃ name, FirstRepeated p.names name ∧ e = .duplicateLabel name := by
    intro e failed
    obtain ⟨before, f, after, l, split, earlier, here⟩ := foldlM_error failed
    obtain ⟨nodup, rfl⟩ := (addFunctions_iff (by simp) before).mp earlier
    have known : ((({} : Layout).extend (functionLabels 0 before)
        (before.flatMap (·.code)).length).labels.map (·.1)) = before.flatMap (·.names) := by
      simp [extend, functionLabels_names]
    obtain ⟨first, name, last, names, distinct, mem, rfl⟩ := addFunction_error (by
      rw [known]
      simpa using nodup) here
    rw [known] at distinct mem
    refine ⟨name, ⟨before.flatMap (·.names) ++ first, last ++ after.flatMap (·.names), ?_, distinct, mem⟩, rfl⟩
    simp [Program.names, split, names]
  constructor
  · exact reported
  · rintro ⟨name, first, rfl⟩
    cases laid : ofProgram p with
    | ok l => exact absurd (ofProgram_iff.mp laid).1 first.not_nodup
    | error e =>
      obtain ⟨name', first', rfl⟩ := reported laid
      rw [first.unique first']

/-! ## Patching -/

/-- The operand with the address of its label, if it is one. -/
def resolve (l : Layout) : Operand → Operand
  | .label label => .label { label with address := l.address? label.name }
  | o => o

theorem resolve_resolve (l : Layout) (o : Operand) : l.resolve (l.resolve o) = l.resolve o := by
  cases o <;> rfl

theorem inPool_of_label {pool : Pool} {x : OperandRef} {label : Label}
    (h : pool.get x = .label label) : x < pool.operands.size := by
  apply Decidable.byContradiction
  intro outside
  rw [Pool.get, Array.getD_eq_getD_getElem?,
    Array.getElem?_eq_none (Nat.le_of_not_lt outside)] at h
  cases h

/-- The name that the label at a place refers to. -/
def target? (pool : Pool) (x : OperandRef) : Option String := (pool.get x).label?.map (·.name)

theorem target?_eq_some {pool : Pool} {x : OperandRef} {name : String} :
    target? pool x = some name ↔ ∃ label, pool.get x = .label label ∧ label.name = name := by
  unfold target?
  cases pool.get x <;> simp [Operand.label?]

/-- The labels at some places have their addresses, and other operands are as they were. -/
structure Patches (l : Layout) (refs : List OperandRef) (pool pool' : Pool) : Prop where
  size : pool'.operands.size = pool.operands.size
  get : ∀ x, pool'.get x = if x ∈ refs then l.resolve (pool.get x) else pool.get x

theorem Patches.target? {l : Layout} {refs : List OperandRef} {pool pool' : Pool}
    (h : l.Patches refs pool pool') (x : OperandRef) : Layout.target? pool' x = Layout.target? pool x := by
  unfold Layout.target?
  rw [h.get]
  split
  · cases pool.get x <;> rfl
  · rfl

theorem patchRef_ok (l : Layout) {pool : Pool} {x : OperandRef}
    (known : ∀ name, target? pool x = some name → (l.address? name).isSome = true) :
    ∃ pool', l.patchRef pool x = .ok pool' ∧ l.Patches [x] pool pool' := by
  unfold patchRef
  split
  · rename_i label found
    obtain ⟨a, address⟩ := Option.isSome_iff_exists.mp (known label.name (by simp [target?, found, Operand.label?]))
    rw [address]
    refine ⟨_, rfl, by simp [Pool.set], fun y => ?_⟩
    simp only [Pool.get_set _ _ _ (inPool_of_label found), List.mem_singleton]
    by_cases same : y = x
    · rw [if_pos same, if_pos same, same, found, resolve, address]
    · rw [if_neg same, if_neg same]
  · rename_i other
    refine ⟨pool, rfl, rfl, fun y => ?_⟩
    simp only [List.mem_singleton]
    split
    · rename_i same
      subst same
      cases found : pool.get y with
      | label label => exact absurd found (other label)
      | _ => rfl
    · rfl

theorem patchRef_error (l : Layout) {pool : Pool} {x : OperandRef} {name : String}
    (found : target? pool x = some name) (unknown : l.address? name = none) :
    l.patchRef pool x = .error (.unresolvedLabel name) := by
  obtain ⟨label, here, rfl⟩ := target?_eq_some.mp found
  simp only [patchRef, here, unknown]

/-- Labels with known names are all patched, and other operands stay as they are. -/
theorem patch_ok (l : Layout) (refs : List OperandRef) {pool : Pool}
    (known : ∀ name ∈ refs.filterMap (target? pool), (l.address? name).isSome = true) :
    ∃ pool', refs.foldlM l.patchRef pool = .ok pool' ∧ l.Patches refs pool pool' := by
  induction refs generalizing pool with
  | nil => exact ⟨pool, rfl, rfl, fun y => by simp⟩
  | cons x rest ih =>
    have here : ∀ name, target? pool x = some name → (l.address? name).isSome = true := fun name found =>
      known name (List.mem_filterMap.mpr ⟨x, List.mem_cons_self, found⟩)
    obtain ⟨first, done, patches⟩ := l.patchRef_ok here
    have others : ∀ name ∈ rest.filterMap (target? first), (l.address? name).isSome = true := by
      intro name mem
      obtain ⟨y, mem, found⟩ := List.mem_filterMap.mp mem
      rw [patches.target?] at found
      exact known name (List.mem_filterMap.mpr ⟨y, List.mem_cons_of_mem _ mem, found⟩)
    obtain ⟨last, all, others⟩ := ih others
    refine ⟨last, by rw [List.foldlM_cons, done]; exact all, others.size.trans patches.size, fun y => ?_⟩
    simp only [others.get, patches.get, List.mem_singleton]
    by_cases same : y = x
    · subst same
      by_cases again : y ∈ rest <;> simp [again, resolve_resolve]
    · simp [same]

/-- The first label whose name is not known is reported. -/
theorem patch_error (l : Layout) (refs : List OperandRef) {pool : Pool} {name : String}
    (first : (refs.filterMap (target? pool)).find? (fun name => (l.address? name).isNone) = some name) :
    refs.foldlM l.patchRef pool = .error (.unresolvedLabel name) := by
  induction refs generalizing pool with
  | nil => cases first
  | cons x rest ih =>
    rw [List.foldlM_cons]
    by_cases known : ∀ name, target? pool x = some name → (l.address? name).isSome = true
    · obtain ⟨next, done, patches⟩ := l.patchRef_ok known
      rw [done]
      refine ih ?_
      rw [show target? next = target? pool from funext patches.target?]
      cases found : target? pool x with
      | none => rwa [List.filterMap_cons, found] at first
      | some other =>
        have there := known other found
        rw [List.filterMap_cons, found] at first
        simpa [List.find?_cons, Option.isNone_iff_eq_none, Option.isSome_iff_ne_none.mp there] using first
    · obtain ⟨other, found, unknown⟩ : ∃ other, target? pool x = some other ∧ l.address? other = none := by
        simpa using known
      rw [l.patchRef_error found unknown]
      rw [List.filterMap_cons, found] at first
      simp [unknown] at first
      rw [← first]
      rfl

end Layout

end Codegen86.Target
