import Codegen86.Proofs.Linking.Resolved
import Codegen86.Proofs.Selection.ActivationRuns
import Codegen86.Proofs.Selection.Contract
/-!
# Selection preserves meaning

A selected program, with its labels resolved by name (`Program.resolved`) and with abstract registers that are
private to each activation, computes what its source computes, in a memory with room for the calls that are nested
(`select_preserves_meaning`).
-/

set_option autoImplicit false

namespace Codegen86.Selection

open Target Symbolic
open IR (Calls)

/-! ## Jumps and returns -/

/-- The jumps in the code lead to blocks among `targets`. -/
def Leading (pool : Pool) (targets : List String) (code : List Instruction) : Prop :=
  ∀ i ∈ code, i.isJump = true → ∀ x ∈ i.operands, ∃ name, pool.get x = .symbol name ∧ name ∈ targets

variable {E : Site} {targets : List String} {first next : Nat} {pool : Pool} {code : List Instruction}

theorem Leading.of_noJump (noJump : ∀ i ∈ code, i.isJump = false) : Leading pool targets code := by
  intro i mem jump
  rw [noJump i mem] at jump
  cases jump

theorem Leading.append {more : List Instruction} (h : Leading pool targets code) (h' : Leading pool targets more) :
    Leading pool targets (code ++ more) :=
  fun i mem => (List.mem_append.mp mem).elim (h i) (h' i)

theorem Site.Code.noJump {pushed next' pushed' : Nat} (made : E.Code first next pushed code next' pushed') :
    ∀ i ∈ code, i.isJump = false := by
  intro i mem
  obtain ⟨_, _, _, _, -, -, emission⟩ := made.emission mem
  cases emission <;> rfl

theorem Emitted.leading {b : Block} (h : Emitted E targets first next b) : Leading E.pool targets b.code := by
  obtain ⟨body, closing, split, made, closes⟩ := h.split
  rw [split]
  refine .append (.of_noJump made.noJump) ?_
  cases closes with
  | jump target known =>
    intro i mem jump x use
    obtain rfl := List.mem_singleton.mp mem
    obtain rfl := List.mem_singleton.mp use
    exact ⟨_, target.2, known⟩
  | test left right target known target' known' =>
    intro i mem jump x use
    simp only [List.mem_cons, List.not_mem_nil, or_false] at mem
    rcases mem with rfl | rfl | rfl
    · cases jump
    · obtain rfl := List.mem_singleton.mp use
      exact ⟨_, target.2, known⟩
    · obtain rfl := List.mem_singleton.mp use
      exact ⟨_, target'.2, known'⟩

theorem Entry.leading {frame : OperandRef} (h : Entry E frame targets first next code) :
    Leading E.pool targets code := by
  obtain ⟨saved, base, top, stack, loads, label, name, split, -, -, -, -, arguments, target, known⟩ := h.split
  rw [split]
  refine .append (.append (.of_noJump fun i mem => ?_) (.of_noJump (arguments.made first).noJump))
    fun i mem jump x use => ?_
  · simp only [List.mem_cons, List.not_mem_nil, or_false] at mem
    rcases mem with rfl | rfl | rfl <;> rfl
  · obtain rfl := List.mem_singleton.mp mem
    obtain rfl := List.mem_singleton.mp use
    exact ⟨_, target.2, known⟩

theorem Lowered.leading {f : IR.Function} {frame : OperandRef} {t : Function} {slots : Slots}
    (h : Lowered E f frame first next t slots) (grows : E.pool.Grows pool) :
    Leading pool (inner t) t.code ∧ ∃ b, t.blocks.getLast? = some b ∧ b.code.getLast? = some .ret := by
  obtain ⟨prologue, bodies, epilogue, middle, split, entry, blocks, leaves⟩ := h.blocks
  have le : E.Le { E with pool } := .of_grows grows fun _ mem => mem
  have entry := entry.mono le (List.Subset.refl _)
  have blocks := blocks.mono le (List.Subset.refl _)
  obtain ⟨stack, saved, last, -⟩ := leaves.split
  refine ⟨fun i mem => ?_, epilogue, by rw [split, List.getLast?_concat], by rw [last]; rfl⟩
  obtain ⟨b, block, mem⟩ := List.mem_flatMap.mp mem
  rw [split, List.mem_append, List.mem_singleton, List.mem_cons] at block
  rcases block with (rfl | block) | rfl
  · exact entry.leading i mem
  · obtain ⟨_, _, -, -, emitted⟩ := blocks.mem block
    exact emitted.leading i mem
  · have returns : ∀ j ∈ b.code, j.isJump = false := by
      intro j mem
      rw [last] at mem
      simp only [List.mem_cons, List.not_mem_nil, or_false] at mem
      rcases mem with rfl | rfl | rfl <;> rfl
    exact Leading.of_noJump returns i mem

theorem Functions.leading {source : IR.Program} {found : List String} {low high : OperandRef}
    {functions : List Function} {reserved : List Slots}
    (h : Functions source pool found low high first next functions reserved) {t : Function} (mem : t ∈ functions) :
    (t.blocks.map (·.name)).Nodup ∧ Leading pool (inner t) t.code ∧
      ∃ b, t.blocks.getLast? = some b ∧ b.code.getLast? = some .ret := by
  induction h with
  | nil => cases mem
  | cons head _ _ grows _ _ ih =>
    rcases List.mem_cons.mp mem with rfl | mem
    · exact ⟨head.distinct, head.leading grows⟩
    · exact ih mem

/-- Labels of selected programs can be resolved by name. -/
theorem Selected.named {source : IR.Program} {entry : String} {p : Program} {reserved : List Slots}
    (h : Selected source entry p reserved) : p.Named := by
  obtain ⟨next, functions⟩ := h.functions
  refine ⟨h.distinct, fun t mem => (functions.leading mem).1, fun t mem i code jump x use => ?_,
    fun t mem => (functions.leading mem).2.2⟩
  obtain ⟨name, label, known⟩ := (functions.leading mem).2.1 i code jump x use
  obtain ⟨b, block, named⟩ := List.mem_map.mp known
  exact ⟨_, label, b, List.mem_of_mem_tail block, named⟩

/-! ## Room on the stack -/

/-- The largest of some numbers. -/
def largest (numbers : List Nat) : Nat := numbers.foldr max 0

theorem le_largest {numbers : List Nat} {n : Nat} (mem : n ∈ numbers) : n ≤ largest numbers := by
  induction numbers with
  | nil => cases mem
  | cons m rest ih =>
    rcases List.mem_cons.mp mem with rfl | mem
    · exact Nat.le_max_left _ _
    · exact Nat.le_trans (ih mem) (Nat.le_max_right _ _)

/-- Words that an activation takes up at most: its arguments, the return address, the base pointer of its caller, and
its frame. -/
def activationWords (source : IR.Program) (p : Program) : Nat :=
  largest (source.functions.map (·.arity)) + 2 + largest (p.functions.map (·.frameSize.toNat))

/-! ## Calls -/

/-- What calls of the functions found come to if they are nested less than `depth` deep. -/
def callsOf (source : IR.Program) (found : List String) (fuel depth : Nat) : Calls :=
  fun name args => if name ∈ found then source.call fuel depth name args else none

variable {source : IR.Program} {entry : String} {journal journal' : Journal} {p : Program} {m : Symbolic.Memory}

/-- A call that is known is one of a function found, and comes to what its activation comes to. -/
theorem activation_of_callsOf {found : List String} {fuel depth : Nat} {name : String} {args : List Word}
    {r : IR.Result} {f : IR.Function} (function : source.function? name = some f)
    (outcome : callsOf source found fuel (depth + 1) name args = some r) :
    name ∈ found ∧ IR.Activation.blocks (source.call fuel depth) f fuel 0 (.start f args) = some r := by
  unfold callsOf at outcome
  split at outcome
  · obtain ⟨g, same, outcome⟩ := Option.bind_eq_some_iff.mp outcome
    obtain rfl : g = f := Option.some.inj (same.symm.trans function)
    exact ⟨‹_›, outcome⟩
  · cases outcome

/-- The functions of a selected program run as the calls of their sources do. -/
theorem select_enters (ok : select source entry journal = .ok (p, journal')) (bounded : m.top < 2 ^ 63)
    (numbers : ∀ f ∈ source.functions, ∀ x ∈ f.placed, x < 2 ^ 32) (word : Nat → Word) (fuel depth : Nat) :
    (p.resolved (m.model true) .innermost word).Enters m source
      (callsOf source (p.functions.map (·.name)) fuel depth) (depth * activationWords source p) := by
  obtain ⟨slots, -, selected⟩ := select_spec ok
  obtain ⟨last, program, found, -, includes⟩ := select_includes ok
  have named := selected.named
  rw [← found]
  induction depth with
  | zero =>
    intro l f r args _ _ outcome
    simp [callsOf, IR.Program.call] at outcome
  | succ depth ih =>
    intro l f r args function arity outcome
    obtain ⟨mem, outcome⟩ := activation_of_callsOf function outcome
    obtain ⟨f', c, frame, u, s, s', t, u', origin, included⟩ := includes l.name mem
    obtain rfl : f' = f := Option.some.inj (origin.symm.trans function)
    have there : t ∈ p.functions := program ▸ included.function
    obtain ⟨before, after, split⟩ := List.append_of_mem there
    have name : l.name = t.name := (included.lowers.named.trans (IR.Program.name_of_function? origin)).symm
    refine ⟨_, named.call (m.model true) .innermost word split name, fun v points entered => ?_⟩
    have frames : t.frameSize.toNat ≤ largest (p.functions.map (·.frameSize.toNat)) :=
      le_largest (List.mem_map_of_mem there)
    have enough : depth * activationWords source p + 1 + largest (source.functions.map (·.arity)) +
        t.frameSize.toNat + 1 ≤ (depth + 1) * activationWords source p := by
      rw [Nat.succ_mul]
      simp only [activationWords] at frames ⊢
      omega
    have size : t.frameSize.toNat < 2 ^ 32 := t.frameSize.toNat_lt
    obtain ⟨prologue, others, saved, base, top, pointer, rest, blocks, code, runs⟩ :=
      included.enters (fun _ _ => True) included.resized (Nat.le_refl _) size (callsOf source last.found fuel depth)
        (numbers _ (IR.Program.mem_of_function? origin))
        (fun name g function => le_largest (List.mem_map_of_mem (IR.Program.mem_of_function? function))) bounded
        (fun name mem words => if_pos mem) arity outcome (entered.le enough) (fun _ _ _ _ => trivial)
        fun _ _ _ => trivial
    have closed := named.closed_resolved (m.model true) .innermost word
    have has := named.function (m.model true) .innermost word split
    have plain : ∀ i ∈ ([.push saved, .mov base top, .arith .sub pointer frame] : List Instruction),
        i.isPlain = true := by
      simp [Instruction.isPlain]
    subst program
    rcases runs with ⟨A, w, of, made, runs⟩ | ⟨rfl, overflow⟩
    · obtain rfl := of.memory
      have answered : (last.program.resolved (A.memory.model true) .innermost word).Answered A.surroundings.calls := by
        rw [Scene.surroundings, of.source, of.known, of.room]
        exact (Linked.answered rfl rfl bounded ih).below
      rw [← of.pool] at made
      have opened : Runs A.outer 0 prologue.code v (A.Continues t (fun _ _ => True) (A.memory.Ended r v)) := by
        rw [code]
        exact Runs.executeAll (fun _ => trivial) plain made (Runs.relax (S := A.surroundings) (fun _ _ => trivial) runs)
      exact Runs.enters (S := A.outer) closed rfl of.pool.symm answered has (Scene.Alike.refl A) blocks opened points
    · exact has.fails closed blocks code plain overflow (.inl ⟨rfl, rfl⟩) points

/-- Instruction selection preserves meaning.  If a call of the entry function, with as many arguments as it has
parameters, comes to a value, then so does the selected program, in `R0`; if the call divides by zero, so does the
program.  The memory has room for the calls that are nested. -/
theorem select_preserves_meaning (ok : select source entry journal = .ok (p, journal'))
    (numbers : ∀ f ∈ source.functions, ∀ x ∈ f.placed, x < 2 ^ 32) {f : IR.Function}
    (function : source.function? entry = some f) {args : List Word} (arity : args.length = f.arity)
    {fuel depth words : Nat} (room : depth * activationWords source p + args.length + 1 ≤ words)
    (small : words < 2 ^ 63) (word : Nat → Word) {r : IR.Result} (outcome : source.call fuel depth entry args = some r) :
    ∃ start count, (p.resolved (.machine words true) .innermost word).calls { name := entry } = some start ∧
      (∀ x, r = .value x → ∃ v,
        (p.resolved (.machine words true) .innermost word).run words args start count = .done v ∧ v.general 0 = x) ∧
      (r = .divisionByZero →
        (p.resolved (.machine words true) .innermost word).run words args start count = .failed .divisionByZero) := by
  obtain ⟨slots, -, selected⟩ := select_spec ok
  have enters := select_enters ok (m := .bounded words) small numbers word fuel depth
  have known : callsOf source (p.functions.map (·.name)) fuel depth entry args = some r :=
    (if_pos selected.starts).trans outcome
  have top : (Word.ofNat words).toInt = words := Word.toInt_ofNat small
  obtain ⟨start, inside, count, completes⟩ := Linked.run_of_enters (m := .bounded words) rfl rfl small enters
    (l := { name := entry }) function arity known (show (Word.ofNat words).toInt ≤ (words : Int) by omega)
    (show ((_ : Nat) : Int) ≤ _ by rw [top]; omega)
  exact ⟨start, count, (Linked.inside_eq_some.mp inside).1, completes.of_bounded⟩

/-- The absolute value of -5 is computed in a memory of 16 words. -/
theorem absolute_computed :
    ∃ p journal, select absolute "main" {} = .ok (p, journal) ∧ ∀ word, ∃ start count v,
      (p.resolved (.machine 16 true) .innermost word).calls { name := "main" } = some start ∧
      (p.resolved (.machine 16 true) .innermost word).run 16 [-5] start count = .done v ∧ v.general 0 = 5 := by
  have small : (select absolute "main" {}).toOption.any (activationWords absolute ·.1 ≤ 14) = true := by
    decide +kernel
  cases selected : select absolute "main" {} with
  | error e =>
    rw [selected] at small
    cases small
  | ok result =>
    rw [selected] at small
    have small : activationWords absolute result.1 ≤ 14 := of_decide_eq_true small
    have room : 1 * activationWords absolute result.1 + [(-5 : Word)].length + 1 ≤ 16 := by
      rw [Nat.one_mul, List.length_singleton]
      omega
    have outcome : absolute.call 2 1 "main" [-5] = some (.value 5) := by decide +kernel
    refine ⟨result.1, result.2, rfl, fun word => ?_⟩
    obtain ⟨start, count, called, value, -⟩ :=
      select_preserves_meaning selected (by decide +kernel) rfl rfl room (by decide) word outcome
    obtain ⟨v, ran, shown⟩ := value 5 rfl
    exact ⟨start, count, v, called, ran, shown⟩

end Codegen86.Selection
