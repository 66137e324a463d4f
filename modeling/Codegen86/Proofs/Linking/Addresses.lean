import Codegen86.Proofs.Linking.Resolved
/-!
# Functions of linked programs

In a program that can be linked no name occurs twice, so that functions and blocks are found under their names
where they are laid out.
-/

set_option autoImplicit false

namespace Codegen86.Target.Program.Linkable

open Symbolic

variable {p : Program} (h : p.Linkable) {before after : List Function} {f : Function}
include h

/-- The address of a function. -/
theorem function_address (split : p.functions = before ++ f :: after) :
    p.address? f.name = some (before.flatMap (·.code)).length := by
  refine lookup_of_mem ?_ ?_
  · rw [functionLabels_names]
    exact h.names
  · rw [split, functionLabels_append, functionLabels]
    simp

/-- The addresses of its blocks. -/
theorem label_address (split : p.functions = before ++ f :: after) {name : String} {address : Nat}
    (label : (name, address) ∈ blockLabels (before.flatMap (·.code)).length f.blocks) :
    p.address? name = some address := by
  refine lookup_of_mem ?_ ?_
  · rw [functionLabels_names]
    exact h.names
  · rw [split, functionLabels_append, functionLabels, Nat.zero_add]
    exact List.mem_append_right _ (List.mem_append_left _ (List.mem_cons_of_mem _ label))

variable (model : Model) (policy : Policy) (word : Nat → Word)

/-- The code of a function is at its address. -/
theorem function (split : p.functions = before ++ f :: after) :
    (p.linked model policy word).HasFunction f (before.flatMap (·.code)).length where
  code := by
    refine ⟨after.flatMap (·.code), ?_⟩
    show _ = p.code.drop _
    rw [Program.code, split, List.flatMap_append, List.drop_left, List.flatMap_cons]
  names := by
    have names := h.names
    rw [Program.names, split, List.flatMap_append, List.flatMap_cons] at names
    exact (List.nodup_cons.mp (List.nodup_append.mp (List.nodup_append.mp names).2.1).1).2
  jumps _ _ _ _ _ label := h.label_address split label

/-- A call leads to its function. -/
theorem call (split : p.functions = before ++ f :: after) {l : Label} (name : l.name = f.name) :
    (p.linked model policy word).inside ((p.linked model policy word).calls l) =
      some (before.flatMap (·.code)).length := by
  have mem : f ∈ p.functions := by simp [split]
  obtain ⟨a, address, inside⟩ := h.address (function_name mem)
  have place := h.function_address split
  rw [address] at place
  cases place
  rw [← name] at address
  exact Linked.inside_eq_some.mpr ⟨address, inside⟩

/-- Jumps and calls lead where there is code. -/
theorem closed_linked : (p.linked model policy word).Closed where
  jumps pc i x here jump := by
    have mem : i ∈ p.code := List.mem_of_getElem? here
    obtain ⟨l, label, name⟩ := h.destination mem (x := x) (by rcases jump with rfl | ⟨condition, rfl⟩ <;> rfl)
    obtain ⟨a, address, inside⟩ := h.address name
    refine ⟨a, Linked.inside_eq_some.mpr ⟨?_, inside⟩⟩
    show (p.pool.get x).label?.bind _ = _
    rw [label]
    exact address
  calls pc x here := by
    obtain ⟨before, f, after, k, split, rfl, inside⟩ := function_of_getElem? here
    obtain ⟨b, i, last, code, kind⟩ := h.closed f (by simp [split])
    have final := getLast?_code last code
    rw [List.getLast?_eq_getElem?] at final
    have short : k < f.size := (List.getElem?_eq_some_iff.mp inside).1
    have other : k ≠ f.size - 1 := by
      rintro rfl
      rw [Function.size, final] at inside
      cases inside
      simp at kind
    show _ < p.code.length
    rw [code_length split]
    omega

end Codegen86.Target.Program.Linkable
