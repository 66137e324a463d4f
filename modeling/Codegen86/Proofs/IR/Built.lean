import Codegen86.IR.Builder
import Codegen86.Proofs.IR.Resolved
import Mathlib.Algebra.Group.Int.Defs
import Mathlib.Algebra.Group.Nat.Defs
/-!
# Functions that were built

Functions come from builders, whether they are written in a program or read from a text.  `Builder.Made` lists
what can be done to a builder, and `Function.Built` are the functions that come of it.  Of the values of such a
function, only its parameters and the values that its blocks list can be arguments (`Built.args`).
-/

set_option autoImplicit false

namespace Codegen86.IR

/-- What can become of a builder.  Parameters have 32-bit numbers; an operation is pushed to a block that there
is. -/
inductive Builder.Made : Builder → Prop
  | start {name : String} {arity : Nat} (small : arity ≤ 2 ^ 32) : Made (start name arity)
  | block {b : Builder} (made : Made b) (name : String) : Made (b.block name).2
  | switchTo {b : Builder} (made : Made b) (id : BlockId) : Made (b.switchTo id)
  | nameValue {b : Builder} (made : Made b) (v : ValueId) (name : String) : Made (b.nameValue v name)
  | push {b : Builder} (made : Made b) (op : Op) (there : b.target.1 < b.target.2.function.blocks.length) :
      Made (b.push op).2

/-- A function that comes of a builder. -/
def Function.Built (f : Function) : Prop := ∃ b : Builder, b.Made ∧ b.function = f

/-! ## What the values are -/

variable {f g : Function} {v : ValueId} {i : Nat}

theorem Function.mem_placed_iff : v ∈ f.placed ↔ ∃ id : Nat, ∃ b : Block, f.blocks[id]? = some b ∧ v ∈ b.body := by
  rw [placed, List.mem_flatMap]
  constructor
  · rintro ⟨b, mem, inside⟩
    obtain ⟨id, here⟩ := List.getElem?_of_mem mem
    exact ⟨id, b, here, inside⟩
  · rintro ⟨id, b, here, inside⟩
    exact ⟨b, List.mem_of_getElem? here, inside⟩

/-- A block that lists more. -/
theorem Function.mem_placed_modify {blocks : List Block} {id : BlockId} {u : ValueId}
    (eq : g.blocks = blocks.modify id fun block => { block with body := block.body ++ [u] }) :
    v ∈ g.placed ↔ (∃ b ∈ blocks, v ∈ b.body) ∨ v = u ∧ id < blocks.length := by
  rw [mem_placed_iff, eq]
  constructor
  · rintro ⟨k, b, here, inside⟩
    rw [List.getElem?_modify] at here
    obtain ⟨old, found, rfl⟩ := Option.map_eq_some_iff.mp here
    split at inside
    · rename_i same
      rcases List.mem_append.mp inside with inside | inside
      · exact .inl ⟨old, List.mem_of_getElem? found, inside⟩
      · exact .inr ⟨List.mem_singleton.mp inside, same ▸ (List.getElem?_eq_some_iff.mp found).1⟩
    · exact .inl ⟨old, List.mem_of_getElem? found, inside⟩
  · rintro (⟨b, mem, inside⟩ | ⟨rfl, less⟩)
    · obtain ⟨k, here⟩ := List.getElem?_of_mem mem
      refine ⟨k, if id = k then { b with body := b.body ++ [u] } else b, ?_, ?_⟩
      · rw [List.getElem?_modify, here]
        split <;> simp [*]
      split
      · exact List.mem_append_left _ inside
      · exact inside
    · refine ⟨id, _, by rw [List.getElem?_modify, List.getElem?_eq_getElem less]; rfl, ?_⟩
      simp

/-- Arguments are parameters, or values that a block lists. -/
def Function.ArgsKnown (f : Function) : Prop :=
  ∀ v i, f.op? v = some (.arg i) → i < f.arity ∨ v ∈ f.placed

theorem Function.ArgsKnown.mono (h : f.ArgsKnown) (arity : g.arity = f.arity) (ops : ∀ v, g.op? v = f.op? v)
    (placed : ∀ v ∈ f.placed, v ∈ g.placed) : g.ArgsKnown := by
  intro v i arg
  rw [ops] at arg
  rw [arity]
  exact (h v i arg).imp_right (placed v)

namespace Builder

theorem target_placed (b : Builder) {v : ValueId} (mem : v ∈ b.function.placed) :
    ∃ block ∈ b.target.2.function.blocks, v ∈ block.body := by
  obtain ⟨block, here, inside⟩ := List.mem_flatMap.mp mem
  unfold target
  split
  · exact ⟨block, here, inside⟩
  · exact ⟨block, List.mem_append_left _ here, inside⟩

theorem target_arity (b : Builder) : b.target.2.function.arity = b.function.arity := by
  unfold target
  split <;> rfl

theorem argsKnown_push {b : Builder} (h : b.function.ArgsKnown) (op : Op)
    (there : b.target.1 < b.target.2.function.blocks.length) : (b.push op).2.function.ArgsKnown := by
  have placed := fun v => @Function.mem_placed_modify (b.push op).2.function v _ _ _ rfl
  intro v i arg
  rw [Function.op?, push_values, Array.getElem?_push] at arg
  split at arg
  · rename_i last
    exact .inr ((placed v).mpr (.inr ⟨last.trans (congrArg Array.size b.target_values).symm, there⟩))
  · rcases h v i arg with less | mem
    · exact .inl (Nat.lt_of_lt_of_eq less b.target_arity.symm)
    · exact .inr ((placed v).mpr (.inl (b.target_placed mem)))

theorem Made.arity_le {b : Builder} (h : b.Made) : b.function.arity ≤ 2 ^ 32 := by
  induction h with
  | start small => exact small
  | block _ _ ih | switchTo _ _ ih | nameValue _ _ _ ih => exact ih
  | push _ _ _ ih => exact Nat.le_trans (Nat.le_of_eq (target_arity _)) ih

theorem Made.argsKnown {b : Builder} (h : b.Made) : b.function.ArgsKnown := by
  induction h with
  | @start name arity small =>
    intro v i arg
    left
    rw [Function.op?, Builder.start, Array.getElem?_map, Option.map_map, Option.map_eq_some_iff] at arg
    obtain ⟨k, found, same⟩ := arg
    obtain ⟨less, rfl⟩ := Array.getElem?_eq_some_iff.mp found
    cases same
    show (Array.range arity)[v] < arity
    simpa using less
  | @block b _ name ih =>
    refine ih.mono rfl (fun _ => rfl) fun v mem => ?_
    obtain ⟨block, here, inside⟩ := List.mem_flatMap.mp mem
    exact List.mem_flatMap.mpr ⟨block, List.mem_append_left _ here, inside⟩
  | switchTo _ _ ih => exact ih
  | @nameValue b _ v name ih =>
    refine ih.mono rfl (fun u => ?_) fun _ mem => mem
    rw [Function.op?, Function.op?, Builder.nameValue, Array.getElem?_modify]
    split <;> cases b.function.values[u]? <;> rfl
  | push _ op there ih => exact argsKnown_push ih op there

end Builder

theorem Function.Built.args (h : f.Built) (arg : f.op? v = some (.arg i)) : i < f.arity ∨ v ∈ f.placed := by
  obtain ⟨b, made, rfl⟩ := h
  exact made.argsKnown v i arg

theorem Function.Built.arity_le (h : f.Built) : f.arity ≤ 2 ^ 32 := by
  obtain ⟨b, made, rfl⟩ := h
  exact made.arity_le

/-! ## Functions that are read from a text -/

namespace Builder

/-- A builder of a function with `n` blocks, of which the one at `id` receives operations. -/
structure Filling (n : Nat) (id : BlockId) (b : Builder) : Prop where
  made : b.Made
  blocks : b.function.blocks.length = n
  current : b.current = some id

theorem Filling.target {n : Nat} {id : BlockId} {b : Builder} (h : b.Filling n id) : b.target = (id, b) := by
  rw [Builder.target, h.current]

theorem Filling.push {n : Nat} {id : BlockId} {b : Builder} (h : b.Filling n id) (inside : id < n) (op : Op) :
    (b.push op).2.Filling n id := by
  have length : (b.push op).2.function.blocks.length = b.target.2.function.blocks.length := List.length_modify ..
  refine ⟨h.made.push op ?_, ?_, ?_⟩
  · rw [h.target]
    exact Nat.lt_of_lt_of_eq inside h.blocks.symm
  · rw [length, h.target]
    exact h.blocks
  · show b.target.2.current = _
    rw [h.target]
    exact h.current

theorem Filling.switchTo {n : Nat} {id : BlockId} {b : Builder} (h : b.Filling n id) (next : BlockId) :
    (b.switchTo next).Filling n next := ⟨h.made.switchTo next, h.blocks, rfl⟩

end Builder

open Builder

variable {scope : Scope} {n : Nat} {id : BlockId} {b b' : Builder}

theorem Statement.pushTo_filling {s : Statement} (h : b.Filling n id) (inside : id < n)
    (ok : s.pushTo scope b = .ok b') : b'.Filling n id := by
  obtain ⟨op, -, ok⟩ := bind_ok.mp ok
  split at ok
  · cases ok
    exact h.push inside op
  · split at ok
    · cases ok
      have pushed := h.push inside op
      exact ⟨pushed.made.nameValue _ _, pushed.blocks, pushed.current⟩
    · cases ok

theorem Statement.pushAll_filling {body : List Statement} (h : b.Filling n id) (inside : id < n)
    (ok : body.foldlM (fun b s => s.pushTo scope b) b = .ok b') : b'.Filling n id := by
  induction body generalizing b with
  | nil =>
    cases ok
    exact h
  | cons s rest ih =>
    rw [List.foldlM_cons] at ok
    obtain ⟨c, one, ok⟩ := bind_ok.mp ok
    exact ih (s.pushTo_filling h inside one) ok

namespace FunctionOutline

theorem fill_made {blocks : List BlockOutline} {first : Nat} (made : b.Made)
    (length : b.function.blocks.length = n) (inside : first + blocks.length ≤ n)
    (ok : (blocks.zipIdx first).foldlM (fill scope) b = .ok b') : b'.Made := by
  induction blocks generalizing b first with
  | nil =>
    cases ok
    exact made
  | cons block rest ih =>
    rw [List.length_cons] at inside
    rw [List.zipIdx_cons, List.foldlM_cons] at ok
    obtain ⟨c, one, ok⟩ := bind_ok.mp ok
    have here : first < n := by omega
    have filling : c.Filling n first :=
      Statement.pushAll_filling ⟨made.switchTo first, length, rfl⟩ here one
    exact ih filling.made filling.blocks (by omega) ok

theorem frame_made (f : FunctionOutline) (small : f.params.length ≤ 2 ^ 32) :
    f.frame.Made ∧ f.frame.function.blocks.length = f.blocks.length := by
  have named : ∀ (params : List (String × Nat)) {b : Builder}, b.Made →
      (params.foldl (fun b param => b.nameValue param.2 param.1) b).Made := by
    intro params
    induction params with
    | nil => exact fun made => made
    | cons param rest ih => exact fun made => ih (made.nameValue _ _)
  have added : ∀ (blocks : List BlockOutline) {b : Builder}, b.Made →
      (blocks.foldl (fun b block => (b.block block.name).2) b).Made := by
    intro blocks
    induction blocks with
    | nil => exact fun made => made
    | cons block rest ih => exact fun made => ih (made.block _)
  refine ⟨added _ (named _ (.start small)), ?_⟩
  rw [f.frame_eq]
  simp [Function.ofBodies]

end FunctionOutline

/-- A function that was read from a text was built. -/
theorem parse_built {text : String} {p : Program} (ok : parse text = .ok p) {f : Function}
    (mem : f ∈ p.functions) (small : f.arity ≤ 2 ^ 32) : f.Built := by
  obtain ⟨outlines, -, ok⟩ := bind_ok.mp ok
  obtain ⟨resolved, -⟩ := Program.ofOutlines_iff.mp ok
  obtain ⟨outline, -, one⟩ := mem_mapM resolved mem
  have params : outline.params.length = f.arity := by
    rw [outline.resolve_eq] at one
    obtain ⟨values, -, one⟩ := bind_ok.mp one
    obtain ⟨blocks, -, one⟩ := bind_ok.mp one
    obtain ⟨bodies, -, one⟩ := bind_ok.mp one
    cases one
    rfl
  obtain ⟨made, length⟩ := outline.frame_made (params ▸ small)
  obtain ⟨values, -, one⟩ := bind_ok.mp one
  obtain ⟨blocks, -, one⟩ := bind_ok.mp one
  obtain ⟨b, filled, one⟩ := bind_ok.mp one
  cases one
  exact ⟨b, FunctionOutline.fill_made made length (Nat.le_of_eq (Nat.zero_add _)) filled, rfl⟩

end Codegen86.IR
