import Codegen86.Proofs.IR.Resolved
import Codegen86.Proofs.IR.Spelling
/-!
# What parsed programs are made of

Parsed programs have identifiers for names.
-/

set_option autoImplicit false

namespace Codegen86.IR

theorem Function.name_of_resolve {o : FunctionOutline} {f : Function} (resolved : o.resolve = .ok f) :
    f.name = o.name := by
  rw [FunctionOutline.resolve_eq] at resolved
  obtain ⟨values, -, resolved⟩ := bind_ok.mp resolved
  obtain ⟨blocks, -, resolved⟩ := bind_ok.mp resolved
  obtain ⟨bodies, -, resolved⟩ := bind_ok.mp resolved
  cases resolved
  rfl

/-- Functions in program text have identifiers for names. -/
theorem parse_names {text : String} {p : Program} (parsed : parse text = .ok p) {f : Function}
    (mem : f ∈ p.functions) : isName f.name.toList = true := by
  obtain ⟨outlines, outlined, resolved⟩ := bind_ok.mp parsed
  obtain ⟨o, mem, resolved⟩ := mem_mapM (Program.ofOutlines_iff.mp resolved).1 mem
  rw [Function.name_of_resolve resolved]
  exact (outline_tidy outlined mem).name

end Codegen86.IR
