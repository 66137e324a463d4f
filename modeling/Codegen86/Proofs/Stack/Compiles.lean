import Codegen86.Proofs.IR.Parsed
import Codegen86.Proofs.Selection.Failures
import Codegen86.Proofs.Stack.Allocates
import Codegen86.Proofs.Stack.Compiled
/-!
# Compilation fails in selection only

Whatever is selected is allocated, optimized and assembled: each stage accepts all that the one before it
makes (`compiles_of_selected`).  So a program that was parsed never fails in allocation or assembly
(`compile_error_early`).
-/

set_option autoImplicit false

namespace Codegen86.Stack

open Target Selection

/-! ## Where execution starts -/

/-- The entry of a program names one of its functions. -/
structure Rooted (entry : String) (p : Program) : Prop where
  designated : p.entry = some entry
  starts : entry ∈ p.functions.map (·.name)

namespace Rooted

variable {entry : String} {p p' : Program}

theorem congr (h : Rooted entry p) (same : p'.entry = p.entry)
    (names : p'.functions.map (·.name) = p.functions.map (·.name)) : Rooted entry p' :=
  ⟨same.trans h.designated, by rw [names]; exact h.starts⟩

theorem allocate (h : Rooted entry p) {registers : Nat} {journal journal' : Journal}
    (ok : p.allocate registers journal = .ok (p', journal')) : Rooted entry p' := by
  obtain ⟨⟨functions, pool, log⟩, all, eq⟩ := bind_ok.mp ok
  cases eq
  exact h.congr rfl (allocateFunctions_names all)

/-- The optimizer, where it runs, keeps the names of functions. -/
theorem optimizeIf (h : Rooted entry p) (enabled : Bool) (journal : Journal) :
    Rooted entry (optimizeIf enabled p journal).1 := by
  cases enabled with
  | false => exact h
  | true =>
    refine Peephole.optimize_induction (fun q q' applies now => ?_) (fun q q' compacts now => ?_)
      Peephole.Rule.all p journal h
    · cases applies with
      | intro functions => exact now.congr rfl (by simp [functions])
    · cases compacts with
      | intro functions => exact now.congr rfl (by simp [functions, Peephole.compacted])

theorem placed (h : Rooted entry p) : ∃ q, p.placeEntryFirst = .ok q := by
  unfold Program.placeEntryFirst
  rw [h.designated]
  dsimp only
  split
  · rename_i missing
    obtain ⟨f, mem, same⟩ := List.mem_map.mp h.starts
    exact absurd same (by simpa using List.find?_eq_none.mp missing f mem)
  · exact ⟨_, rfl⟩

end Rooted

/-! ## Stages accept what the stages before them make -/

theorem assembles {entry : String} {p : Program} (linkable : p.Linkable) (rooted : Rooted entry p) :
    ∃ p' layout, p.assemble = .ok (p', layout) := by
  obtain ⟨q, placed⟩ := rooted.placed
  have linkable' := Peephole.linkable_of_perm linkable (Peephole.pool_of_placed placed)
    (Program.placeEntryFirst_perm placed)
  obtain ⟨pool, assembled, -⟩ := linkable'.assembles placed
  exact ⟨_, _, assembled⟩

/-- With a valid configuration, a program that is selected is compiled. -/
theorem compiles_of_selected {config : Config} {source : IR.Program} {p : Program} {journal : Journal}
    (plain : ∀ f ∈ source.functions, '$' ∉ f.name.toList) (valid : config.validate = .ok ())
    (ok : select source config.entry {} = .ok (p, journal)) : ∃ a, compile config source = .ok a := by
  obtain ⟨enough, few, -⟩ := config.validate_eq_ok_iff.mp valid
  obtain ⟨slots, -, selected⟩ := select_spec ok
  obtain ⟨p', journal', allocated⟩ := selected_allocates enough few selected journal
  obtain ⟨linkable, -⟩ := allocated_linkable selected few allocated plain
  have rooted : Rooted config.entry p := ⟨selected.designated, selected.starts⟩
  obtain ⟨q, layout, assembled⟩ := assembles (optimizeIf_linkable config.optimize journal' linkable)
    ((rooted.allocate allocated).optimizeIf config.optimize journal')
  refine ⟨{ program := q, layout }, bind_ok.mpr ⟨(_, (optimizeIf config.optimize p' journal').2), ?_, rfl⟩⟩
  refine bind_ok.mpr ⟨(), valid, bind_ok.mpr ⟨(p, journal), ok, bind_ok.mpr ⟨(p', journal'), allocated, ?_⟩⟩⟩
  exact bind_ok.mpr ⟨(q, layout), assembled, rfl⟩

/-- **Only selection rejects a parsed program.**  With a valid configuration, whether the optimizer runs or
not, no compilation of a program that was parsed fails in allocation or in assembly. -/
theorem compile_error_early {text : String} {source : IR.Program} {config : Config} {e : Error}
    (parsed : IR.parse text = .ok source) (valid : config.validate = .ok ())
    (failed : compile config source = .error e) : e.stage ≠ .allocation ∧ e.stage ≠ .assembly := by
  have plain : ∀ f ∈ source.functions, '$' ∉ f.name.toList := fun f mem =>
    IR.not_mem_of_isName (IR.parse_names parsed mem) (by decide)
  cases selected : select source config.entry {} with
  | ok r =>
    obtain ⟨a, compiled⟩ := compiles_of_selected plain valid selected
    rw [compiled] at failed
    cases failed
  | error e' =>
    have same : compile config source = .error e' := by
      simp [compile, compileWith, valid, selected, bind, Except.bind]
    obtain rfl : e' = e := Except.error.inj (same.symm.trans failed)
    rcases select_early source config.entry {} e' selected with stage | stage
    · simp [stage]
    · simp [stage]

/-- A program that takes the address of a symbol, which selection does not support. -/
def addressTaken : IR.Program where
  functions := [{
    name := "main"
    arity := 0
    blocks := [{ name := "entry", body := [0, 1] }]
    values := #[{ op := .symbol "x", name := some "a" }, { op := .ret }] }]

theorem addressTaken_error_early :
    IR.parse "fn main() \x7b\nentry:\n  %a = sym @x\n  ret\n\x7d\n" = .ok addressTaken ∧
      compile {} addressTaken = .error (.unimplemented "sym" "main") ∧
      (Error.unimplemented "sym" "main").stage ≠ .allocation ∧
      (Error.unimplemented "sym" "main").stage ≠ .assembly := by
  have parsed : IR.parse "fn main() \x7b\nentry:\n  %a = sym @x\n  ret\n\x7d\n" = .ok addressTaken := by decide +kernel
  have failed : compile {} addressTaken = .error (.unimplemented "sym" "main") := by decide +kernel
  exact ⟨parsed, failed, compile_error_early parsed rfl failed⟩

end Codegen86.Stack
