import Codegen86.Proofs.Machine.Limits
import Codegen86.Proofs.Peephole.FixedPoint
import Codegen86.Proofs.Peephole.Passes
/-!
# The optimizer preserves results

A run that ends with a result, or out of stack, whatever words calls store, still does so after the
optimizer (`Yields.optimize`).  A disciplined run of an assembled program is of that kind, so the optimized
program is assembled too, and has the same result in no more steps (`optimize_preserves_results`).
-/

set_option autoImplicit false

namespace Codegen86.Peephole

open Target Symbolic Machine

/-- Whatever words calls store, executing some number of instructions comes to what `Q` allows. -/
structure Yields (model : Model) (policy : Policy) (words : Nat) (args : List Word)
    (Q : Nat → Progress → Prop) (p : Program) : Prop where
  linked : ∃ q, p.placeEntryFirst = .ok q ∧ q.Linkable ∧
    ∀ word, ∃ n, Q n ((q.linked model policy word).run words args 0 n)

section

variable {model : Model} {policy : Policy} {words : Nat} {args : List Word} {Q : Nat → Progress → Prop}
  {p p' : Program}

theorem Yields.applies (final : ∀ n r, Q n r → Final r) (earlier : ∀ m n r, m ≤ n → Q n r → Q m r)
    (applies : Applies p p') (h : Yields model policy words args Q p) :
    Yields model policy words args Q p' := by
  obtain ⟨q, placed, linkable, runs⟩ := h.linked
  obtain ⟨q', placed', applies'⟩ := applies.placed placed
  obtain ⟨s, removes⟩ := applies'.removes linkable
  have result := removes.result
  refine ⟨q', placed', ?_, fun word => ?_⟩
  · rw [result]
    exact removes.inside.linkable linkable removes.followed
  · -- what calls store in the program before is chosen by what they store after
    obtain ⟨n, allowed⟩ := runs fun k => word (shift s.address k)
    obtain ⟨b, m, redundant⟩ := removes.redundant model policy word
    have deletes := removes.inside.deletes (removes.inside.more linkable removes.followed) model policy word
    rw [← result] at deletes
    obtain ⟨n', less, reached⟩ := Redundant.run_of_deletes deletes redundant rfl (final n _ allowed)
    exact ⟨n', earlier n' n _ less (reached ▸ allowed)⟩

theorem Yields.compacts (compacts : Compacts p p') (h : Yields model policy words args Q p) :
    Yields model policy words args Q p' := by
  obtain ⟨q, placed, linkable, runs⟩ := h.linked
  obtain ⟨q', placed', compacts'⟩ := compacts.placed placed
  obtain ⟨functions⟩ := compacts'
  refine ⟨_, placed', compactedProgram_linkable linkable functions, fun word => ?_⟩
  obtain ⟨n, allowed⟩ := runs word
  refine ⟨n, ?_⟩
  rw [← (compactedProgram_same linkable functions model policy word).run] at allowed
  exact allowed

/-- The optimizer keeps results. -/
theorem Yields.optimize (final : ∀ n r, Q n r → Final r) (earlier : ∀ m n r, m ≤ n → Q n r → Q m r)
    (h : Yields model policy words args Q p) (rules : List Rule) (journal : Journal) :
    Yields model policy words args Q (optimize rules p journal).1 :=
  optimize_induction (fun _ _ applies => Yields.applies final earlier applies)
    (fun _ _ compacts => Yields.compacts compacts) rules p journal h

end

/-! ## The entry function first -/

theorem linkable_of_perm {p q : Program} (linkable : p.Linkable) (pool : q.pool = p.pool)
    (perm : q.functions.Perm p.functions) : q.Linkable := by
  have names : q.names.Perm p.names := perm.flatMap_right _
  have code : ∀ {i}, i ∈ q.code → i ∈ p.code := (perm.flatMap_right _).mem_iff.mp
  constructor
  · exact names.nodup_iff.mpr linkable.names
  · intro f mem
    rw [pool]
    exact linkable.jumps f (perm.mem_iff.mp mem)
  · intro x mem
    rw [pool]
    obtain ⟨l, label, f, function, name⟩ := linkable.calls x (code mem)
    exact ⟨l, label, f, perm.mem_iff.mpr function, name⟩
  · intro i mem
    rw [pool]
    exact linkable.labels i (code mem)
  · intro i mem
    rw [pool]
    exact linkable.base i (code mem)
  · exact fun f mem => linkable.closed f (perm.mem_iff.mp mem)

theorem pool_of_placed {p q : Program} (placed : p.placeEntryFirst = .ok q) : q.pool = p.pool := by
  unfold Program.placeEntryFirst at placed
  split at placed
  · cases placed
    rfl
  · split at placed
    · cases placed
    · cases placed
      rfl

/-- The optimizer preserves results: if a program runs to a result, and returns use the words that calls
stored and nothing else does, then the optimized program is assembled too and has the same result in no
more steps. -/
theorem optimize_preserves_results {p p₁ : Program} {layout : Layout} (linkable : p.Linkable)
    (small : p.size < 2 ^ 63) (assembled : p.assemble = .ok (p₁, layout)) (journal : Journal)
    (args : List Word) (words limit : Nat) {v : Word} {steps : Nat}
    (ran : Machine.run { load p₁ layout with words, limit } args = ⟨.ok v, steps⟩)
    (disciplined : DisciplinedRun { load p₁ layout with words, limit } args) :
    ∃ p₂ layout', (optimize Rule.all p journal).1.assemble = .ok (p₂, layout') ∧
      ∃ fewer ≤ steps, Machine.run { load p₂ layout' with words, limit } args = ⟨.ok v, fewer⟩ := by
  have limited : steps ≤ limit := by
    have := run_steps_le { load p₁ layout with words, limit } args
    rwa [ran] at this
  let Q : Nat → Progress → Prop := fun n r => n ≤ steps ∧ ∃ w, r = .done w ∧ w.general 0 = v
  -- the run does not depend on the words that calls store
  have yields : Yields (.machine words false) .stored words args Q p := by
    cases placed : p.placeEntryFirst with
    | error e => simp [Program.assemble, placed, bind, Except.bind] at assembled
    | ok q =>
      have perm := Program.placeEntryFirst_perm placed
      have linkable' := linkable_of_perm linkable (pool_of_placed placed) perm
      have size : q.size = p.size := (perm.flatMap_right _).length_eq
      obtain ⟨p', layout', assembled', entry, holds⟩ := linkable'.assemble (by omega) placed
      rw [assembled] at assembled'
      cases assembled'
      refine ⟨q, placed, linkable', fun word => ⟨steps, Nat.le_refl steps, ?_⟩⟩
      obtain ⟨w, reached, result⟩ := (holds words limit .stored word).run_of_machine rfl disciplined
        (congrArg Run.outcome ran) (congrArg Run.steps ran)
      dsimp only at reached
      rw [entry] at reached
      exact ⟨w, reached, result⟩
  -- so the optimized program has it too, with addresses stored
  have after := yields.optimize
    (fun n r allowed => by obtain ⟨-, w, rfl, -⟩ := allowed; trivial)
    (fun m n r less allowed => ⟨Nat.le_trans less allowed.1, allowed.2⟩) Rule.all journal
  obtain ⟨q, placed, linkable', runs⟩ := after.linked
  have size : q.size = (optimize Rule.all p journal).1.size :=
    ((Program.placeEntryFirst_perm placed).flatMap_right _).length_eq
  have smaller := size_optimize_le Rule.all p journal
  obtain ⟨p₂, layout', assembled', entry, holds⟩ := linkable'.assemble (by omega) placed
  obtain ⟨n, less, w, reached, result⟩ := runs Word.ofNat
  refine ⟨p₂, layout', assembled', ?_⟩
  have holds := holds words limit .stored Word.ofNat
  have reached : (q.linked (.machine words false) .stored Word.ofNat).run words args
      (load p₂ layout').entry n = .done w := by
    rw [entry]
    exact reached
  rcases holds.machine_of_run (fun _ => rfl) (by rw [reached]; simp) with
    ⟨short, -⟩ | same
  · have short : limit < n := short
    omega
  · rw [reached] at same
    obtain ⟨outcome, count⟩ := same
    refine ⟨_, Nat.le_trans count less, ?_⟩
    rw [← result, ← outcome]

/-- A call, with an instruction without effect before it and a jump to the next block behind it. -/
def callAndReturn : Program :=
  { functions := [
      { name := "main"
        blocks := [
          { name := "call", code := [.nop, .call 0, .jump 1] }, { name := "return", code := [.ret] }] },
      { name := "seven", blocks := [{ name := "value", code := [.mov 2 3, .ret] }] }]
    entry := some "main"
    pool := { operands := #[.symbol "seven", .symbol "return", .reg .result, .imm 7] } }

theorem callAndReturn_linkable : callAndReturn.Linkable := by
  have code : callAndReturn.code = [.nop, .call 0, .jump 1, .ret, .mov 2 3, .ret] := rfl
  constructor
  · decide
  · intro f mem i code jump x use
    simp only [callAndReturn, List.mem_cons, List.not_mem_nil, or_false] at mem
    rcases mem with rfl | rfl
    · simp only [Function.code, List.flatMap_cons, List.flatMap_nil, List.mem_cons, List.mem_append,
        List.not_mem_nil, or_false] at code
      obtain rfl : i = .jump 1 := by grind [Instruction.isJump]
      obtain rfl := List.mem_singleton.mp use
      exact ⟨{ name := "return" }, rfl, rfl, _, List.mem_cons_of_mem _ List.mem_cons_self, rfl⟩
    · simp only [Function.code, List.flatMap_cons, List.flatMap_nil, List.mem_cons, List.mem_append,
        List.not_mem_nil, or_false] at code
      grind [Instruction.isJump]
  · intro x mem
    rw [code] at mem
    obtain rfl : x = 0 := by simpa using mem
    exact ⟨{ name := "seven" }, rfl, by simp [callAndReturn]⟩
  · rw [code]
    simp [callAndReturn, Instruction.isPlain, Instruction.operands, Pool.get]
  · rw [code]
    simp [callAndReturn, Instruction.operands, Pool.get, Operand.symbol]
  · simp [callAndReturn]

/-- Its result is 7 in 6 steps, and in no more after the optimizer. -/
theorem callAndReturn_preserved :
    ∃ p layout, (optimize Rule.all callAndReturn {}).1.assemble = .ok (p, layout) ∧
      ∃ fewer ≤ 6, Machine.run { load p layout with words := 4, limit := 9 } [] = ⟨.ok 7, fewer⟩ := by
  obtain ⟨⟨p, layout⟩, assembled, ran, disciplined⟩ : ∃ r, callAndReturn.assemble = .ok r ∧
      Machine.run { load r.1 r.2 with words := 4, limit := 9 } [] = ⟨.ok 7, 6⟩ ∧
      DisciplinedRun { load r.1 r.2 with words := 4, limit := 9 } [] :=
    ⟨_, rfl, rfl, by decide +kernel⟩
  exact optimize_preserves_results callAndReturn_linkable (by decide) assembled {} [] 4 9 ran disciplined

end Codegen86.Peephole
