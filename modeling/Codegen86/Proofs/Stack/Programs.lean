import Codegen86.Proofs.Linking.Addresses
import Codegen86.Proofs.Stack.Execution
/-!
# Programs that leave the stack as they found it

If all functions of a program are balanced, the linked program leads from stage to stage
(`AllBalanced.staged`).
-/

set_option autoImplicit false

namespace Codegen86.Stack

open Target Symbolic

/-- The instruction at `pc` is executed at stage `k`: from there on, the code of its function leads to the
stage at which it jumps. -/
inductive At (p : Program) (pc : Nat) (k : Stage) : Prop
  | intro {before after : List Function} {f : Function} {w : Word} {first : Block} {rest : List Block}
      {ahead behind : List Instruction} (functions : p.functions = before ++ f :: after)
      (blocks : f.blocks = first :: rest) (framed : Framed p.pool.get w first rest)
      (code : f.code = ahead ++ behind) (more : behind ≠ [])
      (place : pc = (before.flatMap (·.code)).length + ahead.length)
      (flow : Flow p.pool.get (.framed w) k behind (.framed w))

variable {p : Program}

/-- A function ends with an instruction that does not go on. -/
theorem last_of_linkable (linkable : p.Linkable) {f : Function} (mem : f ∈ p.functions)
    {ahead : List Instruction} {i : Instruction} (code : f.code = ahead ++ [i]) :
    i = .ret ∨ i = .halt ∨ ∃ x, i = .jump x := by
  obtain ⟨b, j, block, last, kind⟩ := linkable.closed f mem
  have := getLast?_code block last
  rw [code, List.getLast?_concat] at this
  cases this
  exact kind

/-- The code of a function from one of its blocks on is not empty. -/
theorem code_of_block (linkable : p.Linkable) {f : Function} (mem : f ∈ p.functions) {above below : List Block}
    {b : Block} (blocks : f.blocks = above ++ b :: below) : (b :: below).flatMap (·.code) ≠ [] := by
  obtain ⟨last, block, full⟩ := linkable.full mem
  rw [blocks, getLast?_append_cons] at block
  intro empty
  exact full (List.flatMap_eq_nil_iff.mp empty last (List.mem_of_getLast? block))

section

variable {before after : List Function} {f : Function}

theorem AllBalanced.enter (h : AllBalanced p) (functions : p.functions = before ++ f :: after) :
    At p (before.flatMap (·.code)).length .entered := by
  obtain ⟨w, first, rest, blocks, framed⟩ := h f (by simp [functions])
  have code : f.code = first.code ++ rest.flatMap (·.code) := by simp [Function.code, blocks]
  refine .intro functions blocks framed (List.nil_append _).symm ?_ rfl ?_
  · rw [code]
    exact fun empty => framed.full (List.append_eq_nil_iff.mp empty).1
  · rw [code]
    exact framed.enters.append (Flow.blocks framed.stays)

end

/-- A linked program of balanced functions leads from stage to stage. -/
theorem AllBalanced.staged (h : AllBalanced p) (linkable : p.Linkable) (some : p.functions ≠ [])
    (model : Model) (policy : Policy) (word : Nat → Word) : Staged (p.linked model policy word) (At p) where
  start := by
    obtain ⟨f, after, functions⟩ := List.exists_cons_of_ne_nil some
    show At p (([] : List Function).flatMap (·.code)).length .entered
    exact h.enter functions
  next {pc k} at_ := by
    obtain ⟨functions, blocks, framed, code, more, rfl, flow⟩ := at_
    rename_i before after f w first rest ahead behind
    obtain ⟨i, behind, rfl⟩ := List.exists_cons_of_ne_nil more
    have here := getElem?_code functions code
    cases flow with
    | @cons _ k' _ _ _ head jumps tail =>
      refine ⟨i, k', here, head, ?_⟩
      by_cases last : behind = []
      · subst last
        rcases last_of_linkable linkable (by simp [functions]) code with ret | rfl | jump
        · exact .inl ret
        · cases head with
          | neutral neutral => cases neutral
        · exact .inr (.inl jump)
      · have code : f.code = (ahead ++ [i]) ++ behind := by simp [code]
        refine .inr (.inr (.intro functions blocks framed code last ?_ tail))
        simp [Nat.add_assoc]
  jumps {pc k x i} at_ here jump := by
    obtain ⟨functions, blocks, framed, code, more, rfl, flow⟩ := at_
    rename_i before after f w first rest ahead behind
    obtain ⟨j, behind, rfl⟩ := List.exists_cons_of_ne_nil more
    obtain rfl : j = i := by
      have same := getElem?_code functions code
      have here : p.code[(before.flatMap (·.code)).length + ahead.length]? = Option.some i := here
      rw [same] at here
      exact Option.some.inj here
    have kind : j.isJump = true ∧ x ∈ j.operands := by
      rcases jump with rfl | ⟨condition, rfl⟩ <;> simp [Instruction.isJump, Instruction.operands]
    obtain rfl : k = .framed w := by
      cases flow with
      | cons head jumps tail => exact jumps kind.1
    have mem : f ∈ p.functions := by simp [functions]
    have used : j ∈ f.code := by simp [code]
    -- the label names a block other than the first
    obtain ⟨l, label, -, b, block, name⟩ := linkable.jumps f mem j used kind.1 x kind.2
    have other : b ≠ first := by
      rintro rfl
      obtain ⟨c, there, use⟩ := List.mem_flatMap.mp used
      rw [blocks] at there
      exact framed.apart c there j use kind.1 x kind.2 l label name.symm
    rw [blocks] at block
    obtain ⟨above, below, split⟩ := List.append_of_mem ((List.mem_cons.mp block).resolve_left other)
    have blocks' : f.blocks = (first :: above) ++ b :: below := by rw [blocks, split]; rfl
    obtain ⟨a, address, inside⟩ := linkable.address (Program.Linkable.block_name mem
      (b := b) (by simp [blocks']))
    have label' : (b.name, (before.flatMap (·.code)).length + ((first :: above).flatMap (·.code)).length) ∈
        blockLabels (before.flatMap (·.code)).length f.blocks := by
      rw [blocks', blockLabels_append]
      exact List.mem_append_right _ List.mem_cons_self
    have place := linkable.label_address functions label'
    rw [address] at place
    cases place
    refine ⟨_, Linked.inside_eq_some.mpr ⟨?_, inside⟩, .intro functions blocks framed
      (by rw [Function.code, blocks', List.flatMap_append]) (code_of_block linkable mem blocks') rfl ?_⟩
    · show (p.pool.get x).label?.bind (fun l => p.address? l.name) = _
      rw [label, ← address, name]
      rfl
    · refine Flow.blocks fun c mem => framed.stays c ?_
      rw [split]
      exact List.mem_append_right _ mem
  calls {pc k x} at_ here := by
    have mem : .call x ∈ p.code := List.mem_of_getElem? here
    obtain ⟨l, label, g, function, name⟩ := linkable.calls x mem
    obtain ⟨before, after, functions⟩ := List.append_of_mem function
    obtain ⟨a, address, inside⟩ := linkable.address (Program.Linkable.function_name function)
    have place := linkable.function_address functions
    rw [address] at place
    cases place
    refine ⟨_, Linked.inside_eq_some.mpr ⟨?_, inside⟩, h.enter functions⟩
    show (p.pool.get x).label?.bind (fun l => p.address? l.name) = _
    rw [label, ← address, name]
    rfl

end Codegen86.Stack
