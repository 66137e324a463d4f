import Codegen86.Proofs.Stack.Activations
import Codegen86.Proofs.Stack.Consistent
import Codegen86.Proofs.Symbolic.Bounded
/-!
# Compiled programs compute what their sources compute

An allocated program, in a memory without bounds, comes to the value of the call of its source or the stack
overflows (`allocated_yields`).  The optimizer keeps that, and a memory with bounds can only make the program stop
earlier, so that a compiled program has the result of its source unless memory or steps run out
(`compile_preserves_results`).
-/

set_option autoImplicit false

namespace Codegen86.Stack

open Target Selection Symbolic Peephole

/-- The value `v`, or a full stack. -/
def Reaches (v : Word) (_ : Nat) : Progress → Prop
  | .done w => w.general 0 = v
  | .failed t => t = .stackOverflow
  | _ => False

theorem reaches_of_completes {v : Word} {r : Progress} (n : Nat)
    (completes : Linked.Completes .unbounded (.value v) r) : Reaches v n r := by
  cases completes with
  | done _ result => exact result v rfl
  | failed fails =>
    rcases fails with ⟨overflow, -⟩ | ⟨-, divides⟩
    · exact overflow
    · cases divides

variable {source : IR.Program} {entry : String} {journal journal' log log' : Journal} {p p' : Program}
  {registers : Nat}

/-- Without bounds on memory an allocated program comes to the value of the call of its source, unless the stack
overflows. -/
theorem allocated_yields (selected : select source entry journal = .ok (p, journal'))
    (allocated : p.allocate registers log = .ok (p', log')) (enough : 2 ≤ registers) (few : registers ≤ 64)
    (plain : ∀ f ∈ source.functions, '$' ∉ f.name.toList) (built : ∀ f ∈ source.functions, f.Built)
    (small : ∀ f ∈ source.functions, f.values.size + p'.pool.operands.size < 2 ^ 32) {f : IR.Function}
    (function : source.function? entry = some f) {args : List Word} (arity : args.length = f.arity)
    {fuel depth : Nat} {v : Word} (outcome : source.call fuel depth entry args = some (.value v)) (words : Nat) :
    Yields (.ideal false) .innermost words args (Reaches v) p' := by
  obtain ⟨slots, -, chosen⟩ := select_spec selected
  obtain ⟨linkable, -⟩ := allocated_linkable chosen few allocated plain
  have rooted : Rooted entry p' := Rooted.allocate ⟨chosen.designated, chosen.starts⟩ allocated
  obtain ⟨q, placed⟩ := rooted.placed
  have pool := pool_of_placed placed
  have perm := Program.placeEntryFirst_perm placed
  have linkable := linkable_of_perm linkable pool perm
  refine ⟨q, placed, linkable, fun word => ?_⟩
  have params : ∀ g ∈ source.functions, (∃ pl, Placed g pl) → ∀ i, g.Reads i → i < 2 ^ 32 := by
    rintro g mem ⟨_, listed⟩ i reads
    exact Nat.lt_of_lt_of_le (lt_arity_of_reads (built g mem) listed reads) (built g mem).arity_le
  have enters := allocated_enters selected allocated enough few params small linkable pool perm word fuel depth 0
  have known : (callsOf source (p.functions.map (·.name)) fuel depth).whole entry args = some (.value v) :=
    IR.Calls.whole_eq_some.mpr ⟨(if_pos chosen.starts).trans outcome, nofun⟩
  have top : (Word.ofNat words).toInt ≤ Symbolic.Memory.unbounded.top :=
    Int.le_sub_one_of_lt (Word.ofNat words).toInt_lt
  obtain ⟨a, inside, count, completes⟩ := Linked.run_of_enters rfl rfl (by decide) enters (l := { name := entry })
    function arity known top trivial
  -- the entry function is at the beginning
  obtain ⟨entry', first⟩ := Program.placeEntryFirst_head placed
  obtain ⟨t, rest, functions, named⟩ := first entry (entry'.trans rooted.designated)
  have functions : q.functions = [] ++ t :: rest := functions
  have start := linkable.function_address functions
  rw [named] at start
  obtain rfl : a = 0 := Option.some.inj ((Linked.inside_eq_some.mp inside).1.symm.trans start)
  exact ⟨count, reaches_of_completes count completes⟩

/-- The result `v`, or a fault for want of memory. -/
def Computes (v : Word) : Except Machine.Fault Word → Prop
  | .ok w => w = v
  | .error (.stackOverflow _) | .error (.invalidAddress _ _) => True
  | _ => False

/-- Of a run that comes to `v` without bounds on memory, a machine computes `v` if it has enough steps. -/
theorem computes_of_reaches {P : Linked} {m : Machine} {v : Word} {n : Nat} {args : List Word}
    (ideal : P.model = .ideal false) (words : ∀ pc, P.word pc = Word.ofNat pc) (start : m.entry = 0)
    (loaded : Loaded { P with model := .machine m.words false } m) (reaches : Reaches v n (P.run m.words args 0 n)) :
    m.limit < n ∧ (m.run args).outcome = .error (.stepLimit m.limit) ∨ Computes v (m.run args).outcome := by
  have less : (Model.machine m.words false).Less P.model := ideal ▸ Model.machine_less m.words false
  have stops := Linked.run_stops less m.words args 0 n
  have comes : (∀ d, ({ P with model := .machine m.words false } : Linked).run m.words args m.entry n ≠ .running d) → _ :=
    loaded.machine_of_run words
  rw [start] at comes
  generalize P.run m.words args 0 n = r at reaches stops
  generalize ({ P with model := .machine m.words false } : Linked).run m.words args 0 n = r' at stops comes
  rcases stops with rfl | ⟨t, rfl, exhausted⟩
  · cases r' with
    | done w =>
      refine (comes nofun).imp_right fun outcome => ?_
      rw [outcome.1]
      exact reaches
    | failed t =>
      obtain rfl : t = .stackOverflow := reaches
      refine (comes nofun).imp_right fun outcome => ?_
      obtain ⟨pc, outcome⟩ := outcome
      rw [outcome]
      trivial
    | running => cases reaches
    | stuck => cases reaches
  · refine (comes nofun).imp_right fun outcome => ?_
    obtain ⟨pc, outcome⟩ := outcome
    rw [outcome]
    cases t <;> trivial

/-- **Compiled programs compute what their sources compute.**  If a call of the entry function comes to a value, then
in a memory of any size the compiled program has that result, or it stops for want of memory, if it is given enough
steps; with fewer it may also run out of steps. -/
theorem compile_preserves_results {config : Config} {a : Assembled} (built : ∀ f ∈ source.functions, f.Built)
    (plain : ∀ f ∈ source.functions, '$' ∉ f.name.toList) (ok : compile config source = .ok a)
    (small : ∀ f ∈ source.functions, f.values.size + a.program.pool.operands.size < 2 ^ 32)
    (short : a.program.size < 2 ^ 63) {f : IR.Function} (function : source.function? config.entry = some f)
    {args : List Word} (arity : args.length = f.arity) {fuel depth : Nat} {v : Word}
    (outcome : source.call fuel depth config.entry args = some (.value v)) (words : Nat) :
    ∃ enough, ∀ limit,
      limit < enough ∧ (Machine.run { Machine.load a.program a.layout with words, limit } args).outcome =
        .error (.stepLimit limit) ∨
      Computes v (Machine.run { Machine.load a.program a.layout with words, limit } args).outcome := by
  obtain ⟨p, log, p', log', valid, selected, allocated, assembled⟩ := compile_stages ok
  obtain ⟨enough, few, -⟩ := config.validate_eq_ok_iff.mp valid
  obtain ⟨q, placed, functions, relabelled⟩ := assemble_relabelled assembled
  have size := relabelled.size
  rw [optimizeIf_size] at size
  have yields : Yields (.ideal false) .innermost words args (Reaches v) (optimizeIf config.optimize p' log').1 := by
    have yields := allocated_yields selected allocated enough few plain built (size ▸ small) function arity outcome words
    cases config.optimize with
    | false => exact yields
    | true =>
      refine yields.optimize (fun n r reaches => ?_) (fun m n r _ => id) Rule.all log'
      cases r with
      | done => trivial
      | failed t =>
        obtain rfl : t = .stackOverflow := reaches
        trivial
      | running => cases reaches
      | stuck => cases reaches
  obtain ⟨_, placed', linkable, runs⟩ := yields.linked
  obtain rfl := Except.ok.inj (placed.symm.trans placed')
  have length : a.program.size = q.size := by rw [Program.size, Program.size, Program.code, Program.code, functions]
  obtain ⟨_, _, assembled', start, loaded⟩ := linkable.assemble (by omega) placed
  rw [assembled] at assembled'
  cases assembled'
  obtain ⟨n, reached⟩ := runs Word.ofNat
  refine ⟨n, fun limit => ?_⟩
  exact computes_of_reaches (m := { Machine.load a.program a.layout with words, limit }) rfl (fun _ => rfl) start
    (loaded words limit .innermost Word.ofNat) reached

/-- A function that doubles its argument. -/
def doubling : IR.Program where
  functions := [{
    name := "main"
    arity := 1
    blocks := [{ name := "entry", body := [1, 2] }]
    values := #[{ op := .arg 0 }, { op := .binary (.arith .add) 0 0 }, { op := .retValue 1 }] }]

theorem doubling_built : ∀ f ∈ doubling.functions, f.Built := by
  have start : ((IR.Builder.start "main" 1).block "entry").2.Filling 1 0 :=
    ⟨(IR.Builder.Made.start (by decide)).block _, rfl, rfl⟩
  have entry := (start.push (by decide) (.binary (.arith .add) 0 0)).push (by decide) (.retValue 1)
  intro f mem
  obtain rfl := List.mem_singleton.mp mem
  exact ⟨_, entry.made, by decide +kernel⟩

/-- It is compiled with two registers, and comes to nothing without steps. -/
theorem doubling_compiled : (compile { registers := 2, optimize := false } doubling).toOption.map (fun a =>
    (a.program.pool.operands.size, a.program.size,
      (Machine.run { Machine.load a.program a.layout with words := 8, limit := 0 } [21]).outcome)) =
    some (15, 13, .error (.stepLimit 0)) := by cbv

/-- The double of 21 is computed in any memory that is large enough, given enough steps. -/
theorem doubling_computes : ∃ a, compile { registers := 2, optimize := false } doubling = .ok a ∧
    ∀ words, ∃ enough, ∀ limit,
      limit < enough ∧ (Machine.run { Machine.load a.program a.layout with words, limit } [21]).outcome =
        .error (.stepLimit limit) ∨
      Computes 42 (Machine.run { Machine.load a.program a.layout with words, limit } [21]).outcome := by
  have sizes := doubling_compiled
  cases compiled : compile { registers := 2, optimize := false } doubling with
  | error e => simp [compiled, Except.toOption] at sizes
  | ok a =>
    rw [compiled] at sizes
    obtain ⟨pool, sizes⟩ := Prod.mk.inj (Option.some.inj sizes)
    obtain ⟨size, -⟩ := Prod.mk.inj sizes
    have outcome : doubling.call 1 1 "main" [21] = some (.value 42) := by decide +kernel
    refine ⟨a, rfl, compile_preserves_results doubling_built (by decide) compiled (fun f mem => ?_)
      (by rw [size]; decide) rfl rfl outcome⟩
    obtain rfl := List.mem_singleton.mp mem
    rw [pool]
    decide

/-- Without steps it is not, although there is memory for it. -/
theorem doubling_needs_steps : (∀ f ∈ doubling.functions, f.Built) ∧ (∀ f ∈ doubling.functions, '$' ∉ f.name.toList) ∧
    doubling.call 1 1 "main" [21] = some (.value 42) ∧
    ∃ a, compile { registers := 2, optimize := false } doubling = .ok a ∧
      (Machine.run { Machine.load a.program a.layout with words := 8, limit := 0 } [21]).outcome =
        .error (.stepLimit 0) ∧
      ¬ Computes 42 (Machine.run { Machine.load a.program a.layout with words := 8, limit := 0 } [21]).outcome := by
  refine ⟨doubling_built, by decide, by decide +kernel, ?_⟩
  have stopped := doubling_compiled
  cases compiled : compile { registers := 2, optimize := false } doubling with
  | error e => simp [compiled, Except.toOption] at stopped
  | ok a =>
    rw [compiled] at stopped
    obtain ⟨-, stopped⟩ := Prod.mk.inj (Option.some.inj stopped)
    obtain ⟨-, outcome⟩ := Prod.mk.inj stopped
    refine ⟨a, rfl, outcome, ?_⟩
    rw [outcome]
    exact id

end Codegen86.Stack
