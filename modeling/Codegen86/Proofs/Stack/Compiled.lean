import Codegen86.Compile
import Codegen86.Proofs.Peephole.Correct
import Codegen86.Proofs.Stack.Finished
import Codegen86.Proofs.Stack.Optimized
import Codegen86.Proofs.Stack.Programs
import Codegen86.Proofs.Stack.Runs
import Mathlib.Data.List.Nodup
import Mathlib.Data.List.TakeWhile
/-!
# Compiled programs never go wrong structurally

A compiled program comes to a result, or it stops for want of memory, of steps or of a quotient; and every
return is the answer to a call (`compiled_runs_properly`).
-/

set_option autoImplicit false

namespace Codegen86.Stack

open Target Selection Symbolic

/-! ## Names -/

theorem takeWhile_append_sign {name rest : String} (plain : '$' ∉ name.toList) :
    (name ++ "$" ++ rest).toList.takeWhile (· != '$') = name.toList := by
  have all : ∀ c ∈ name.toList, (c != '$') = true := fun c mem => by
    simp only [bne_iff_ne]
    exact fun same => plain (same ▸ mem)
  rw [String.toList_append, String.toList_append, List.append_assoc, List.takeWhile_append_of_pos all]
  simp

/-- Functions with names of their own, whose blocks are named after them. -/
theorem names_nodup {functions : List Function} (distinct : (functions.map (·.name)).Nodup)
    (named : ∀ t ∈ functions, '$' ∉ t.name.toList ∧ (t.blocks.map (·.name)).Nodup ∧
      ∀ b ∈ t.blocks, ∃ rest, b.name = t.name ++ "$" ++ rest) :
    (functions.flatMap (·.names)).Nodup := by
  -- the name of the function is what comes before the sign
  have stem : ∀ t ∈ functions, ∀ name ∈ t.names, name.toList.takeWhile (· != '$') = t.name.toList := by
    intro t mem name known
    obtain ⟨plain, -, blocks⟩ := named t mem
    rcases List.mem_cons.mp known with rfl | known
    · refine List.takeWhile_eq_self_iff.mpr fun c inside => ?_
      simp only [bne_iff_ne]
      exact fun same => plain (same ▸ inside)
    · obtain ⟨b, block, rfl⟩ := List.mem_map.mp known
      obtain ⟨rest, eq⟩ := blocks b block
      rw [eq]
      exact takeWhile_append_sign plain
  refine List.nodup_flatMap.mpr ⟨fun t mem => ?_, ?_⟩
  · obtain ⟨plain, blocks, after⟩ := named t mem
    refine List.nodup_cons.mpr ⟨fun known => ?_, blocks⟩
    obtain ⟨b, block, same⟩ := List.mem_map.mp known
    obtain ⟨rest, eq⟩ := after b block
    refine plain ?_
    rw [← same, eq]
    simp
  · refine List.Pairwise.imp_of_mem ?_ (List.pairwise_map.mp distinct)
    intro s t mem mem' apart name one two
    exact apart (String.toList_injective ((stem s mem name one).symm.trans (stem t mem' name two)))

theorem lowered_named {source : IR.Program} {pool : Pool} {found : List String} {low high : OperandRef}
    {first next : Nat} {functions : List Function} {reserved : List Slots}
    (made : Functions source pool found low high first next functions reserved)
    (plain : ∀ f ∈ source.functions, '$' ∉ f.name.toList) :
    ∀ t ∈ functions, '$' ∉ t.name.toList ∧ (t.blocks.map (·.name)).Nodup ∧
      ∀ b ∈ t.blocks, ∃ rest, b.name = t.name ++ "$" ++ rest := by
  induction made with
  | nil => exact nofun
  | @cons low high first middle next E f frame t rest _ _ head origin _ _ _ _ ih =>
    intro s mem
    rcases List.mem_cons.mp mem with rfl | mem
    · refine ⟨head.name ▸ plain f (IR.Program.mem_of_function? origin), head.distinct, fun b block => ?_⟩
      obtain ⟨n, m, made, fresh, perm⟩ := head.named
      obtain ⟨part, -, k, -, -, eq⟩ := fresh.of_mem (perm.mem_iff.mp (List.mem_map_of_mem block))
      exact ⟨part ++ toString k, by rw [eq, head.name, labelBase, String.append_assoc]⟩
    · exact ih s mem

/-! ## Pools and functions through the last stages -/

theorem size_renameLabels (renamed : List (String × String)) (pool : Pool) (blocks : List Block) :
    (Peephole.renameLabels renamed pool blocks).operands.size = pool.operands.size := by
  have one : ∀ (pool : Pool) (x : OperandRef),
      (Peephole.renameRef renamed pool x).operands.size = pool.operands.size := by
    intro pool x
    unfold Peephole.renameRef
    split
    · split
      · simp [Pool.set]
      · rfl
    · rfl
  unfold Peephole.renameLabels
  induction (blocks.flatMap (·.code)).filterMap Instruction.destination? generalizing pool with
  | nil => rfl
  | cons x rest ih => rw [List.foldl_cons, ih, one]

theorem optimizeIf_size (enabled : Bool) (p : Program) (journal : Journal) :
    (optimizeIf enabled p journal).1.pool.operands.size = p.pool.operands.size := by
  cases enabled with
  | false => rfl
  | true =>
    show (Peephole.optimize Peephole.Rule.all p journal).1.pool.operands.size = _
    refine Peephole.optimize_induction (I := fun q => q.pool.operands.size = p.pool.operands.size)
      (fun q q' applies now => ?_) (fun q q' compacts now => ?_) Peephole.Rule.all p journal rfl
    · cases applies
      exact now
    · cases compacts
      exact (size_renameLabels _ _ _).trans now

/-- The pool with other labels. -/
structure Relabelled (pool pool' : Pool) : Prop where
  size : pool'.operands.size = pool.operands.size
  get : ∀ x, Relabels (pool.get x) (pool'.get x)

theorem patch_relabelled {l : Layout} {p p' : Program} (ok : l.patch p = .ok p') :
    p'.functions = p.functions ∧ Relabelled p.pool p'.pool := by
  obtain ⟨pool, patched, eq⟩ := bind_ok.mp ok
  cases eq
  refine ⟨rfl, ?_⟩
  show Relabelled p.pool pool
  have one : ∀ {pool pool' : Pool} {x : OperandRef}, l.patchRef pool x = .ok pool' → Relabelled pool pool' := by
    intro pool pool' x ok
    unfold Layout.patchRef at ok
    split at ok
    · rename_i is
      split at ok
      · cases ok
        exact ⟨by simp [Pool.set], relabels_set is _⟩
      · cases ok
    · cases ok
      exact ⟨rfl, fun _ => .same⟩
  generalize p.pool = before at patched ⊢
  generalize p.code.filterMap Instruction.destination? = refs at patched
  induction refs generalizing before with
  | nil =>
    cases patched
    exact ⟨rfl, fun _ => .same⟩
  | cons x rest ih =>
    rw [List.foldlM_cons] at patched
    obtain ⟨middle, first, rest⟩ := bind_ok.mp patched
    have first := one first
    have others := ih _ rest
    exact ⟨others.size.trans first.size, fun y => (first.get y).trans (others.get y)⟩

/-- What is assembled has the functions of the program, with the entry function first, and the pool with other
labels. -/
theorem assemble_relabelled {p p' : Program} {layout : Layout} (ok : p.assemble = .ok (p', layout)) :
    ∃ q, p.placeEntryFirst = .ok q ∧ p'.functions = q.functions ∧ Relabelled p.pool p'.pool := by
  obtain ⟨q, placed, ok⟩ := bind_ok.mp ok
  obtain ⟨l, laid, ok⟩ := bind_ok.mp ok
  obtain ⟨p'', patched, ok⟩ := bind_ok.mp ok
  cases ok
  obtain ⟨functions, relabelled⟩ := patch_relabelled patched
  exact ⟨q, placed, functions, Peephole.pool_of_placed placed ▸ relabelled⟩

/-! ## Compiled programs -/

theorem allocateFunctions_names {registers : Nat} {pool pool' : Pool} {journal journal' : Journal}
    {functions functions' : List Function}
    (ok : Program.allocateFunctions registers pool journal functions = .ok (functions', pool', journal')) :
    functions'.map (·.name) = functions.map (·.name) := by
  induction functions generalizing functions' pool journal with
  | nil =>
    cases ok
    rfl
  | cons f rest ih =>
    obtain ⟨⟨f', middle, log⟩, one, ok⟩ := bind_ok.mp ok
    obtain ⟨⟨rest', last, log'⟩, tail, ok⟩ := bind_ok.mp ok
    cases ok
    obtain ⟨⟨blocks, pool, frame, log⟩, -, one⟩ := bind_ok.mp one
    cases one
    rw [List.map_cons, List.map_cons, ih tail]

section

variable {source : IR.Program} {entry : String} {p p' : Program} {reserved : List Slots} {registers : Nat}
  {journal journal' : Journal} (selected : Selected source entry p reserved) (few : registers ≤ 64)
  (ok : p.allocate registers journal = .ok (p', journal'))
include selected few ok

/-- A selected program is allocated so that every function has a frame, with slots of its own for all that
needs one. -/
theorem allocated_housed :
    ∃ all, Program.allocatedSlots (registerCount registers) p.pool journal (p.functions.zip reserved) = .ok all ∧
      ∀ t ∈ p'.functions, ∃ f slots, source.function? t.name = some f ∧ all.lookup t.name = some slots ∧
        (∃ pl, Placed f pl) ∧ Housed f p'.pool t slots := by
  obtain ⟨next, made⟩ := selected.functions
  obtain ⟨⟨functions, pool, log⟩, done, eq⟩ := bind_ok.mp ok
  cases eq
  have most : registerCount registers ≤ 64 := Nat.le_trans (Nat.mod_le _ _) few
  obtain ⟨-, -, -, all, listed, names, housed⟩ :=
    functions_finished most made ⟨Nat.le_refl _, fun _ _ => .inl rfl⟩ done
  have distinct : (all.map (·.1)).Nodup := by
    rw [names, allocateFunctions_names done]
    exact selected.distinct
  refine ⟨all, listed, fun t mem => ?_⟩
  obtain ⟨f, slots, origin, found, rest⟩ := housed t mem
  exact ⟨f, slots, origin, lookup_of_mem distinct found, rest⟩

/-- Its functions leave the stack as they found it as long as frames do not outgrow 32 bits. -/
theorem allocated_balanced (small : ∀ f ∈ source.functions, f.values.size + p'.pool.operands.size < 2 ^ 32) :
    AllBalanced p' := by
  obtain ⟨all, -, housed⟩ := allocated_housed selected few ok
  intro t mem
  obtain ⟨f, slots, origin, -, -, housed⟩ := housed t mem
  exact housed.balanced (Nat.lt_of_le_of_lt housed.bound (small f (IR.Program.mem_of_function? origin)))

/-- It is allocated so that it can be linked. -/
theorem allocated_linkable (plain : ∀ f ∈ source.functions, '$' ∉ f.name.toList) :
    p'.Linkable ∧ p'.functions ≠ [] := by
  obtain ⟨next, made⟩ := selected.functions
  obtain ⟨⟨functions, pool, log⟩, all, eq⟩ := bind_ok.mp ok
  cases eq
  have most : registerCount registers ≤ 64 := Nat.le_trans (Nat.mod_le _ _) few
  obtain ⟨-, same, finished, -⟩ :=
    functions_finished most made ⟨Nat.le_refl _, fun _ _ => .inl rfl⟩ all
  have names : functions.map (·.name) = p.functions.map (·.name) := allocateFunctions_names all
  refine ⟨linkable_of_finished ?_ fun t mem => ?_, fun none => ?_⟩
  · have distinct := names_nodup selected.distinct (lowered_named made plain)
    rw [Program.names, List.flatMap_def, same, ← List.flatMap_def]
    exact distinct
  · rw [names]
    exact finished t mem
  · have starts := selected.starts
    have none : functions = [] := none
    rw [← names, none] at starts
    cases starts

end

theorem optimizeIf_linkable (enabled : Bool) {p : Program} (journal : Journal) (linkable : p.Linkable) :
    (optimizeIf enabled p journal).1.Linkable := by
  cases enabled with
  | false => exact linkable
  | true => exact Peephole.optimize_linkable linkable Peephole.Rule.all journal

/-- The optimizer, where it runs, leaves functions that leave the stack as they found it. -/
theorem optimizeIf_balanced (enabled : Bool) {p : Program} (journal : Journal) (linkable : p.Linkable)
    (balanced : AllBalanced p) (some : p.functions ≠ []) :
    AllBalanced (optimizeIf enabled p journal).1 ∧ (optimizeIf enabled p journal).1.functions ≠ [] := by
  cases enabled with
  | false => exact ⟨balanced, some⟩
  | true =>
    refine ⟨balanced.optimize linkable Peephole.Rule.all journal, ?_⟩
    refine Peephole.optimize_induction (I := fun q => q.functions ≠ []) (fun q q' applies _ => ?_)
      (fun q q' compacts _ => ?_) Peephole.Rule.all p journal some
    · cases applies
      simp
    · cases compacts
      simp

/-- A linkable program of balanced functions runs properly when it is assembled. -/
theorem AllBalanced.runs_properly {p p' : Program} {layout : Layout} (h : AllBalanced p) (linkable : p.Linkable)
    (some : p.functions ≠ []) (ok : p.assemble = .ok (p', layout)) (short : p'.size < 2 ^ 63)
    (args : List Word) (words limit : Nat) :
    Proper (Machine.run { Machine.load p' layout with words, limit } args).outcome ∧
      MatchedRun { Machine.load p' layout with words, limit } args := by
  obtain ⟨q, placed, functions, -⟩ := assemble_relabelled ok
  have size : p'.size = q.size := by rw [Program.size, Program.size, Program.code, Program.code, functions]
  have perm := Program.placeEntryFirst_perm placed
  have pool := Peephole.pool_of_placed placed
  have linkable' := Peephole.linkable_of_perm linkable pool perm
  have balanced : AllBalanced q := fun f mem => by
    rw [pool]
    exact h f (perm.mem_iff.mp mem)
  have full : q.functions ≠ [] := fun none => some (by
    have := perm.length_eq
    rw [none] at this
    exact List.length_eq_zero_iff.mp this.symm)
  obtain ⟨p'', layout', assembled, entry, loaded⟩ := linkable'.assemble (by omega) placed
  rw [ok] at assembled
  cases assembled
  exact (balanced.staged linkable' full (.machine words false) .innermost Word.ofNat).run
    (loaded words limit .innermost Word.ofNat) rfl (fun _ => rfl) entry args

/-- The stages of a compilation that succeeds. -/
theorem compile_stages {config : Config} {source : IR.Program} {a : Assembled}
    (ok : compile config source = .ok a) :
    ∃ p log p' log', config.validate = .ok () ∧ select source config.entry {} = .ok (p, log) ∧
      p.allocate config.registers log = .ok (p', log') ∧
      (optimizeIf config.optimize p' log').1.assemble = .ok (a.program, a.layout) := by
  obtain ⟨⟨a', log⟩, compiled, eq⟩ := bind_ok.mp ok
  obtain rfl : a' = a := Except.ok.inj eq
  obtain ⟨⟨⟩, valid, compiled⟩ := bind_ok.mp compiled
  obtain ⟨⟨p₁, log₁⟩, selected, compiled⟩ := bind_ok.mp compiled
  obtain ⟨⟨p₂, log₂⟩, allocated, compiled⟩ := bind_ok.mp compiled
  refine ⟨p₁, log₁, p₂, log₂, valid, selected, allocated, ?_⟩
  revert compiled
  dsimp only
  generalize optimizeIf config.optimize p₂ log₂ = optimized
  intro compiled
  obtain ⟨⟨p₄, layout⟩, assembled, eq⟩ := bind_ok.mp compiled
  obtain rfl : { program := p₄, layout := layout } = a' := congrArg Prod.fst (Except.ok.inj eq)
  exact assembled

/-- **Compiled programs never go wrong structurally.**  For any arguments, memory and step limit, a compiled
program comes to a result or stops for want of memory, of steps or of a quotient; and every return that is
executed pops the address that the call it answers has pushed, or the sentinel, with the base pointer as it
was at that call.  Sizes of frames have 32 bits, which is enough for the words of a function and the operands
of the program. -/
theorem compiled_runs_properly {config : Config} {source : IR.Program} {a : Assembled}
    (plain : ∀ f ∈ source.functions, '$' ∉ f.name.toList) (ok : compile config source = .ok a)
    (small : ∀ f ∈ source.functions, f.values.size + a.program.pool.operands.size < 2 ^ 32)
    (short : a.program.size < 2 ^ 63) (args : List Word) (words limit : Nat) :
    Proper (Machine.run { Machine.load a.program a.layout with words, limit } args).outcome ∧
      MatchedRun { Machine.load a.program a.layout with words, limit } args := by
  obtain ⟨p, log, p', log', valid, selected, allocated, assembled⟩ := compile_stages ok
  obtain ⟨-, few, -⟩ := config.validate_eq_ok_iff.mp valid
  obtain ⟨-, -, -, relabelled⟩ := assemble_relabelled assembled
  have size := relabelled.size
  rw [optimizeIf_size] at size
  obtain ⟨slots, -, selected⟩ := select_spec selected
  obtain ⟨linkable, some⟩ := allocated_linkable selected few allocated plain
  have balanced := allocated_balanced selected few allocated (size ▸ small)
  obtain ⟨balanced, some⟩ := optimizeIf_balanced config.optimize log' linkable balanced some
  exact balanced.runs_properly (optimizeIf_linkable config.optimize log' linkable) some assembled short args words limit

/-- A function that calls itself with its argument, for ever. -/
def descent : IR.Program where
  functions := [{
    name := "main"
    arity := 1
    blocks := [{ name := "entry", body := [1, 2] }]
    values := #[{ op := .arg 0 }, { op := .call (.direct "main") [0] }, { op := .retValue 1 }] }]

/-- It fills any memory, or runs out of steps, but does not go wrong otherwise. -/
theorem descent_runs_properly : ∃ a, compile { registers := 2, optimize := false } descent = .ok a ∧
    ∀ args words limit,
      Proper (Machine.run { Machine.load a.program a.layout with words, limit } args).outcome ∧
        MatchedRun { Machine.load a.program a.layout with words, limit } args := by
  have sizes : (compile { registers := 2, optimize := false } descent).toOption.map
      (fun a => (a.program.pool.operands.size, a.program.size)) = some (19, 15) := by decide +kernel
  cases compiled : compile { registers := 2, optimize := false } descent with
  | error e => simp [compiled, Except.toOption] at sizes
  | ok a =>
    rw [compiled] at sizes
    have sizes : (a.program.pool.operands.size, a.program.size) = (19, 15) := Option.some.inj sizes
    obtain ⟨pool, size⟩ := Prod.mk.inj sizes
    refine ⟨a, rfl, fun args words limit =>
      compiled_runs_properly (by decide) compiled (fun f mem => ?_) (by rw [size]; decide) args words limit⟩
    obtain rfl := List.mem_singleton.mp mem
    rw [pool]
    decide

end Codegen86.Stack
