import Codegen86.Proofs.Linking.Program
import Codegen86.Proofs.Symbolic.Activations
/-!
# Labels resolved by name

In a program as selection makes it, the names of different functions' blocks may be the same, and so may the names of
a function and of a block.  Jumps stay in their function and calls lead to functions, so that each label has one
meaning nevertheless (`Program.resolved`).
-/

set_option autoImplicit false

namespace Codegen86.Target

open Symbolic

/-- The function that the instruction at an address belongs to, with the address of the function. -/
def functionAt? : Nat → List Function → Nat → Option (Nat × Function)
  | _, [], _ => none
  | a, f :: rest, pc => if pc < a + f.size then some (a, f) else functionAt? (a + f.size) rest pc

/-- The names of functions, laid out from an address on. -/
def functionAddresses : Nat → List Function → List (String × Nat)
  | _, [] => []
  | a, f :: rest => (f.name, a) :: functionAddresses (a + f.size) rest

/-- The program with labels resolved by name: a jump leads to the block with that name in its own function, a call
to the function with that name. -/
def Program.resolved (p : Program) (model : Model) (policy : Policy) (word : Nat → Word) : Linked where
  code := p.code
  pool := p.pool
  jumps pc l := (functionAt? 0 p.functions pc).bind fun place => (blockLabels place.1 place.2.blocks).lookup l.name
  calls l := (functionAddresses 0 p.functions).lookup l.name
  model := model
  policy := policy
  word := word

/-- What resolving labels by name asks of a program: different functions have different names, and so have the
blocks of a function; a jump names a block of its function, and a function ends with a return. -/
structure Program.Named (p : Program) : Prop where
  functions : (p.functions.map (·.name)).Nodup
  blocks : ∀ f ∈ p.functions, (f.blocks.map (·.name)).Nodup
  jumps : ∀ f ∈ p.functions, ∀ i ∈ f.code, i.isJump = true → ∀ x ∈ i.operands,
    ∃ l, p.pool.get x = .label l ∧ ∃ b ∈ f.blocks, b.name = l.name
  closed : ∀ f ∈ p.functions, ∃ b, f.blocks.getLast? = some b ∧ b.code.getLast? = some .ret

/-! ## Places -/

variable {a pc : Nat} {before after functions : List Function} {f : Function} {i : Instruction}

theorem functionAt?_of_le (least : a + (before.flatMap (·.code)).length ≤ pc)
    (most : pc < a + (before.flatMap (·.code)).length + f.size) :
    functionAt? a (before ++ f :: after) pc = some (a + (before.flatMap (·.code)).length, f) := by
  induction before generalizing a with
  | nil => exact if_pos most
  | cons g rest ih =>
    rw [List.flatMap_cons, List.length_append, ← Nat.add_assoc] at least most ⊢
    have outside : ¬ pc < a + g.size := Nat.not_lt_of_le (Nat.le_trans (Nat.le_add_right _ _) least)
    rw [List.cons_append, functionAt?, if_neg outside]
    exact ih least most

theorem functionAddresses_names (a : Nat) (functions : List Function) :
    (functionAddresses a functions).map (·.1) = functions.map (·.name) := by
  induction functions generalizing a with
  | nil => rfl
  | cons f rest ih => simp [functionAddresses, ih]

theorem mem_functionAddresses (a : Nat) (before after : List Function) (f : Function) :
    (f.name, a + (before.flatMap (·.code)).length) ∈ functionAddresses a (before ++ f :: after) := by
  induction before generalizing a with
  | nil => exact List.mem_cons_self
  | cons g rest ih =>
    rw [List.flatMap_cons, List.length_append, ← Nat.add_assoc]
    exact List.mem_cons_of_mem _ (ih (a + g.size))

/-- An instruction belongs to a function. -/
theorem function_of_getElem? (here : (functions.flatMap (·.code))[pc]? = some i) :
    ∃ before f after k, functions = before ++ f :: after ∧ pc = (before.flatMap (·.code)).length + k ∧
      f.code[k]? = some i := by
  induction functions generalizing pc with
  | nil => cases here
  | cons f rest ih =>
    rw [List.flatMap_cons] at here
    by_cases inside : pc < f.code.length
    · rw [List.getElem?_append_left inside] at here
      exact ⟨[], f, rest, pc, rfl, by simp, here⟩
    · rw [List.getElem?_append_right (Nat.le_of_not_lt inside)] at here
      obtain ⟨before, g, after, k, rfl, place, here⟩ := ih here
      refine ⟨f :: before, g, after, k, rfl, ?_, here⟩
      rw [List.flatMap_cons, List.length_append]
      omega

/-- The code of a function lies in the code of its program. -/
theorem code_length {p : Program} (split : p.functions = before ++ f :: after) :
    p.code.length = (before.flatMap (·.code)).length + f.size + (after.flatMap (·.code)).length := by
  rw [Program.code, split, List.flatMap_append, List.flatMap_cons, List.length_append, List.length_append,
    ← Nat.add_assoc]
  rfl

/-! ## The resolved program -/

namespace Program.Named

variable {p : Program} (h : p.Named) (model : Model) (policy : Policy) (word : Nat → Word)

include h

/-- The code of a function is at its address. -/
theorem function (split : p.functions = before ++ f :: after) :
    (p.resolved model policy word).HasFunction f (before.flatMap (·.code)).length where
  code := by
    refine ⟨after.flatMap (·.code), ?_⟩
    show _ = p.code.drop _
    rw [Program.code, split, List.flatMap_append, List.drop_left, List.flatMap_cons]
  names := h.blocks f (by simp [split])
  jumps pc l address least most label := by
    have place : functionAt? 0 (before ++ f :: after) pc = some (0 + (before.flatMap (·.code)).length, f) :=
      functionAt?_of_le (by omega) (by omega)
    rw [Nat.zero_add, ← split] at place
    show (functionAt? 0 p.functions pc).bind _ = _
    rw [place]
    refine lookup_of_mem ?_ label
    rw [blockLabels_names]
    exact h.blocks f (by simp [split])

/-- A call leads to its function. -/
theorem call (split : p.functions = before ++ f :: after) {l : Label} (name : l.name = f.name) :
    (p.resolved model policy word).inside ((p.resolved model policy word).calls l) =
      some (before.flatMap (·.code)).length := by
  obtain ⟨b, last, code⟩ := h.closed f (by simp [split])
  refine Linked.inside_eq_some.mpr ⟨?_, ?_⟩
  · show (functionAddresses 0 p.functions).lookup l.name = _
    refine lookup_of_mem (by rw [functionAddresses_names]; exact h.functions) ?_
    have mem := mem_functionAddresses 0 before after f
    rwa [Nat.zero_add, ← split, ← name] at mem
  · have full : f.code ≠ [] := fun empty => by
      have := getLast?_code last code
      rw [empty] at this
      cases this
    have some : 0 < f.size := List.length_pos_iff.mpr full
    show _ < p.code.length
    rw [code_length split]
    omega

/-- Jumps and calls lead where there is code. -/
theorem closed_resolved : (p.resolved model policy word).Closed where
  jumps pc i x here jump := by
    obtain ⟨before, f, after, k, split, rfl, inside⟩ := function_of_getElem? here
    have mem : f ∈ p.functions := by simp [split]
    obtain ⟨l, label, b, block, named⟩ := h.jumps f mem i (List.mem_of_getElem? inside)
      (by rcases jump with rfl | ⟨condition, rfl⟩ <;> rfl) x
      (by rcases jump with rfl | ⟨condition, rfl⟩ <;> exact List.mem_singleton_self x)
    have has := h.function model policy word split
    obtain ⟨above, below, blocks, there⟩ := blockLabels_of_mem block (before.flatMap (·.code)).length
    obtain ⟨last, final, code⟩ := h.closed f mem
    have bounds := blockLabels_bounds final (fun empty => by rw [empty] at code; cases code) there
    have short : k < f.size := (List.getElem?_eq_some_iff.mp inside).1
    have leads := has.jumps _ l _ (Nat.le_add_right _ k) (by omega) (named ▸ there)
    refine ⟨(before.flatMap (·.code)).length + (above.flatMap (·.code)).length, Linked.inside_eq_some.mpr ⟨?_, ?_⟩⟩
    · show (p.pool.get x).label?.bind _ = _
      rw [label]
      exact leads
    · refine Nat.lt_of_lt_of_le bounds.2 ?_
      show _ ≤ p.code.length
      rw [code_length split]
      exact Nat.le_add_right _ _
  calls pc x here := by
    obtain ⟨before, f, after, k, split, rfl, inside⟩ := function_of_getElem? here
    obtain ⟨b, last, code⟩ := h.closed f (by simp [split])
    have final := getLast?_code last code
    rw [List.getLast?_eq_getElem?] at final
    have short : k < f.size := (List.getElem?_eq_some_iff.mp inside).1
    have other : k ≠ f.size - 1 := by
      rintro rfl
      rw [Function.size, final] at inside
      cases inside
    show _ < p.code.length
    rw [code_length split]
    omega

end Program.Named

end Codegen86.Target
