import Codegen86.Proofs.Linking.Layout
import Codegen86.Proofs.Symbolic.Linked
/-!
# Activations in linked programs

`Runs` is about code by itself, `Ends` about the blocks of one activation: from the start of a block they
are run one after another, along their jumps, until the activation returns or traps.

Both are carried over to linked programs that have the code in its place (`Runs.leads`, `Ends.leads`).
What is known of calls there is what their specification says (`Answered`).
-/

set_option autoImplicit false

namespace Codegen86.Symbolic

open Target

/-- The blocks of an activation, from the start of block `name` in state `v`, come to an end that `R`
allows.  Every block may also be started from a state that is `Alike`. -/
inductive Ends (code : String → Option (List Instruction)) (S : Surroundings)
    (within : String → View → Prop) (Alike : View → View → Prop) (R : Except Trap View → Prop) :
    String → View → Prop
  | block {name : String} {v : View} {body : List Instruction} {Q : Exit → View → Prop}
      (found : code name = some body)
      (runs : ∀ v', Alike v v' → Runs { S with within := within name } 0 body v' Q)
      (jumps : ∀ l w, Q (.jump l) w → Ends code S within Alike R l.name w)
      (returns : ∀ w, Q .ret w → R (.ok w))
      (traps : ∀ t w, Q (.trap t) w → R (.error t))
      (stays : ∀ w, ¬ Q .fallThrough w ∧ ¬ Q .halt w) : Ends code S within Alike R name v

/-- What a block of an activation may end in. -/
def Continues (code : String → Option (List Instruction)) (S : Surroundings)
    (within : String → View → Prop) (Alike : View → View → Prop) (R : Except Trap View → Prop) :
    Exit → View → Prop
  | .jump l, w => Ends code S within Alike R l.name w
  | .ret, w => R (.ok w)
  | .trap t, _ => R (.error t)
  | .fallThrough, _ | .halt, _ => False

theorem Ends.of_runs {code : String → Option (List Instruction)} {S : Surroundings}
    {within : String → View → Prop} {Alike : View → View → Prop} {R : Except Trap View → Prop}
    {name : String} {v : View} {body : List Instruction} (found : code name = some body)
    (runs : ∀ v', Alike v v' →
      Runs { S with within := within name } 0 body v' (Continues code S within Alike R)) :
    Ends code S within Alike R name v :=
  .block found runs (fun _ _ q => q) (fun _ q => q) (fun _ _ q => q) fun _ => ⟨id, id⟩

/-- There is code where an activation goes on. -/
theorem Ends.found {code : String → Option (List Instruction)} {S : Surroundings}
    {within : String → View → Prop} {Alike : View → View → Prop} {R : Except Trap View → Prop}
    {name : String} {v : View} (ends : Ends code S within Alike R name v) :
    ∃ body, code name = some body := by
  cases ends with
  | block found => exact ⟨_, found⟩

namespace Linked

/-- Jumps lead into the code, and there is an instruction behind every call. -/
structure Closed (P : Linked) : Prop where
  jumps : ∀ pc i x, P.code[pc]? = some i → (i = .jump x ∨ ∃ condition, i = .jumpIf condition x) →
    ∃ target, P.jumpTarget pc x = some target
  calls : ∀ pc x, P.code[pc]? = some (.call x) → pc + 1 < P.code.length

/-- Calls come to what is said of them. -/
def Answered (P : Linked) (calls : CallSpec) : Prop :=
  ∀ k l v post, calls k l v = some post →
    ∃ target, P.inside (P.calls l) = some target ∧
      ∀ pc points, pc + 1 < P.code.length →
        match v.push P.model (P.word (pc + 1)) with
        | .error t => post (.error t)
        | .ok w =>
          P.Leads
            { pc := target
              view := { w with locals := fun _ => 0 }
              points := (w.stackPointer, .back (pc + 1) v.locals) :: points }
            fun p => (∃ w, p = .running ⟨pc + 1, w, points⟩ ∧ post (.ok w)) ∨
              ∃ t, p = .failed t ∧ post (.error t)

/-- How code at an address is left. -/
inductive Left (P : Linked) (pc size : Nat) (points : List (Word × Point))
    (Q : Exit → View → Prop) : Progress → Prop
  | fallThrough {w : View} (q : Q .fallThrough w) :
      Left P pc size points Q (.running ⟨pc + size, w, points⟩)
  | jump {at_ target : Nat} {l : Label} {w : View} (least : pc ≤ at_) (most : at_ < pc + size)
      (leads : P.jumps at_ l = some target) (q : Q (.jump l) w) :
      Left P pc size points Q (.running ⟨target, w, points⟩)
  | ret {at_ : Nat} {w : View} (here : P.code[at_]? = some .ret) (q : Q .ret w) :
      Left P pc size points Q (.running ⟨at_, w, points⟩)
  | halt {w : View} (q : Q .halt w) : Left P pc size points Q (.done w)
  | trap {t : Trap} {w : View} (q : Q (.trap t) w) : Left P pc size points Q (.failed t)

variable {P : Linked} {points : List (Word × Point)}

theorem Left.later {pc size : Nat} {Q : Exit → View → Prop} {p : Progress}
    (h : P.Left (pc + 1) size points Q p) : P.Left pc (size + 1) points Q p := by
  cases h with
  | fallThrough q =>
    rw [show pc + 1 + size = pc + (size + 1) by omega]
    exact .fallThrough q
  | jump least most leads q => exact .jump (by omega) (by omega) leads q
  | ret here q => exact .ret here q
  | halt q => exact .halt q
  | trap q => exact .trap q

theorem getElem?_of_prefix {code : List Instruction} {pc : Nat} {i : Instruction}
    (placed : i :: code <+: P.code.drop pc) : P.code[pc]? = some i := by
  obtain ⟨rest, eq⟩ := placed
  have := congrArg (·[0]?) eq
  simpa using this.symm

theorem prefix_of_cons {code : List Instruction} {pc : Nat} {i : Instruction}
    (placed : i :: code <+: P.code.drop pc) : code <+: P.code.drop (pc + 1) := by
  obtain ⟨rest, eq⟩ := placed
  refine ⟨rest, ?_⟩
  rw [← List.drop_drop, ← eq]
  rfl

end Linked

/-- Code that is in its place runs there. -/
theorem Runs.leads {P : Linked} {S : Surroundings} (closed : P.Closed) (model : P.model = S.model)
    (pool : P.pool = S.pool) (answered : P.Answered S.calls) {code : List Instruction} {k pc : Nat}
    {v : View} {Q : Exit → View → Prop} (placed : code <+: P.code.drop pc) (runs : Runs S k code v Q)
    (points : List (Word × Point)) :
    P.Leads ⟨pc, v, points⟩ (P.Left pc code.length points Q) := by
  induction code generalizing k pc v with
  | nil => exact .here (.fallThrough (Runs.nil_iff.mp runs).2)
  | cons i rest ih =>
    have here := Linked.getElem?_of_prefix placed
    have rest_placed := Linked.prefix_of_cons placed
    by_cases plain : i.isPlain = true
    · have step := P.step_plain (c := ⟨pc, v, points⟩) here plain
      rw [Linked.stepPlain] at step
      dsimp only at step
      rw [model, pool] at step
      have next := ((Runs.plain_iff plain).mp runs).2
      split at next
      · rename_i w done
        rw [done] at step
        exact .step step ((ih rest_placed next).mono fun _ => Linked.Left.later)
      · rename_i t fails
        rw [fails] at step
        exact .ends step (by simp) (.trap next)
    · have target : ∀ {x l}, i = .jump x ∨ (∃ condition, i = .jumpIf condition x) →
          S.pool.get x = .label l → ∃ a, P.jumpTarget pc x = some a ∧ P.jumps pc l = some a := by
        intro x l jump label
        obtain ⟨a, leads⟩ := closed.jumps pc i x here jump
        have leads' := (Linked.inside_eq_some.mp leads).1
        rw [pool, label] at leads'
        exact ⟨a, leads, leads'⟩
      cases i with
      | ret => exact .here (.ret here (Runs.ret_iff.mp runs).2)
      | halt =>
        refine .ends (p := .done v) ?_ (by simp) (.halt (Runs.halt_iff.mp runs).2)
        rw [Linked.step, here]
      | jump x =>
        obtain ⟨-, l, label, q⟩ := Runs.jump_iff.mp runs
        obtain ⟨a, leads, found⟩ := target (.inl rfl) label
        refine .step (?_ : _ = Progress.running ⟨a, v, points⟩)
          (.here (.jump (Nat.le_refl pc) (by simp) found q))
        rw [Linked.step, here]
        simp only [Linked.stepJump, leads]
      | jumpIf condition x =>
        obtain ⟨-, l, label, q⟩ := Runs.jumpIf_iff.mp runs
        obtain ⟨a, leads, found⟩ := target (.inr ⟨condition, rfl⟩) label
        have step : P.step ⟨pc, v, points⟩ =
            .running ⟨if condition.holds v.flags then a else pc + 1, v, points⟩ := by
          rw [Linked.step, here]
          simp only [Linked.stepJumpIf, leads]
        by_cases taken : condition.holds v.flags = true
        · rw [if_pos taken] at q step
          exact .step step (.here (.jump (Nat.le_refl pc) (by simp) found q))
        · rw [if_neg taken] at q step
          exact .step step ((ih rest_placed q).mono fun _ => Linked.Left.later)
      | call x =>
        obtain ⟨-, l, post, label, spec, q⟩ := Runs.call_iff.mp runs
        obtain ⟨target, inside, answer⟩ := answered k l v post spec
        have found : P.callTarget x = some target := by
          rw [Linked.callTarget, pool, label]
          exact inside
        have answer := answer pc points (closed.calls pc x here)
        have step : P.step ⟨pc, v, points⟩ = P.stepCall ⟨pc, v, points⟩ x := by
          rw [Linked.step, here]
        simp only [Linked.stepCall, found] at step
        split at answer
        · rename_i t fails
          rw [fails] at step
          exact .ends step (by simp) (.trap (q _ answer))
        · rename_i w pushed
          rw [pushed] at step
          refine .step step (answer.trans fun p reached => ?_)
          rcases reached with ⟨w, rfl, ok⟩ | ⟨t, rfl, failed⟩
          · exact (ih rest_placed (q _ ok)).mono fun _ => Linked.Left.later
          · exact .trap (q _ failed)
      | _ => exact absurd rfl plain

namespace Linked

/-- The code of a function is at address `a`, and jumps in it lead to its blocks. -/
structure HasFunction (P : Linked) (f : Function) (a : Nat) : Prop where
  code : f.code <+: P.code.drop a
  names : (f.blocks.map (·.name)).Nodup
  jumps : ∀ pc l address, a ≤ pc → pc < a + f.size → (l.name, address) ∈ blockLabels a f.blocks →
    P.jumps pc l = some address

/-- How an activation ends: at a return, or with a trap. -/
inductive Finishes (P : Linked) (points : List (Word × Point)) (R : Except Trap View → Prop) :
    Progress → Prop
  | returns {pc : Nat} {w : View} (here : P.code[pc]? = some .ret) (r : R (.ok w)) :
      Finishes P points R (.running ⟨pc, w, points⟩)
  | traps {t : Trap} (r : R (.error t)) : Finishes P points R (.failed t)

end Linked

end Codegen86.Symbolic

namespace Codegen86.Target

/-- The code of a block of a function. -/
def Function.codeOf? (f : Function) (name : String) : Option (List Instruction) :=
  (f.block? name).map (·.code)

/-- Where a block is laid out. -/
theorem blockLabels_of_mem {blocks : List Block} {b : Block} (mem : b ∈ blocks) (a : Nat) :
    ∃ before after, blocks = before ++ b :: after ∧
      (b.name, a + (before.flatMap (·.code)).length) ∈ blockLabels a blocks := by
  obtain ⟨before, after, rfl⟩ := List.append_of_mem mem
  exact ⟨before, after, rfl, by simp [blockLabels_append, blockLabels]⟩

/-- A block has one address, where its code is. -/
theorem blockLabels_code {blocks : List Block} (distinct : (blocks.map (·.name)).Nodup) {b : Block}
    (mem : b ∈ blocks) {a address : Nat} (label : (b.name, address) ∈ blockLabels a blocks) :
    a ≤ address ∧ address + b.code.length ≤ a + (blocks.flatMap (·.code)).length ∧
      b.code <+: (blocks.flatMap (·.code)).drop (address - a) := by
  obtain ⟨before, after, rfl, here⟩ := blockLabels_of_mem mem a
  rw [← blockLabels_names a] at distinct
  have first := lookup_of_mem distinct label
  rw [lookup_of_mem distinct here] at first
  obtain rfl := Option.some.inj first
  refine ⟨by omega, by simp only [List.flatMap_append, List.flatMap_cons, List.length_append]; omega, ?_⟩
  rw [Nat.add_sub_cancel_left, List.flatMap_append, List.drop_left, List.flatMap_cons]
  exact List.prefix_append _ _

end Codegen86.Target

namespace Codegen86.Symbolic

open Target

namespace Linked.HasFunction

variable {P : Linked} {f : Function} {a : Nat}

/-- A block's code is at its address. -/
theorem block (has : P.HasFunction f a) {b : Block} (mem : b ∈ f.blocks) {address : Nat}
    (label : (b.name, address) ∈ blockLabels a f.blocks) :
    a ≤ address ∧ address + b.code.length ≤ a + f.size ∧ b.code <+: P.code.drop address := by
  obtain ⟨least, most, placed⟩ := blockLabels_code has.names mem label
  have most : address + b.code.length ≤ a + f.size := most
  refine ⟨least, most, ?_⟩
  obtain ⟨rest, eq⟩ := has.code
  obtain ⟨more, eq'⟩ := placed
  have : address = a + (address - a) := by omega
  rw [this, ← List.drop_drop, ← eq, List.drop_append_of_le_length]
  · exact ⟨more ++ rest, by rw [← List.append_assoc, eq']; rfl⟩
  · show address - a ≤ f.size
    omega

/-- A jump leads to the address of the block that it names. -/
theorem jump_address (has : P.HasFunction f a) {pc target : Nat} {l : Label} (least : a ≤ pc)
    (most : pc < a + f.size) (leads : P.jumps pc l = some target) {body : List Instruction}
    (found : f.codeOf? l.name = some body) : (l.name, target) ∈ blockLabels a f.blocks := by
  obtain ⟨b, known, -⟩ := Option.map_eq_some_iff.mp found
  have named : b.name = l.name := by simpa using List.find?_some known
  obtain ⟨before, after, -, there⟩ := blockLabels_of_mem (List.mem_of_find?_eq_some known) a
  rw [named] at there
  have same := has.jumps pc l _ least most there
  rw [leads] at same
  exact Option.some.inj same ▸ there

end Linked.HasFunction

section

variable {P : Linked} {S : Surroundings} (closed : P.Closed) (model : P.model = S.model)
  (pool : P.pool = S.pool) (answered : P.Answered S.calls) {f : Function} {a : Nat}
  (has : P.HasFunction f a) {within : String → View → Prop} {Alike : View → View → Prop}
  (same : ∀ v, Alike v v) {R : Except Trap View → Prop}

include closed model pool answered has same

/-- An activation ends in a linked program as its blocks do. -/
theorem Ends.leads {name : String} {v : View} (ends : Ends f.codeOf? S within Alike R name v)
    {address : Nat} (label : (name, address) ∈ blockLabels a f.blocks)
    (points : List (Word × Point)) : P.Leads ⟨address, v, points⟩ (P.Finishes points R) := by
  induction ends generalizing address with
  | @block name v body Q found runs jumps returns traps stays ih =>
    obtain ⟨b, known, rfl⟩ := Option.map_eq_some_iff.mp found
    obtain rfl : b.name = name := by simpa using List.find?_some known
    obtain ⟨least, most, placed⟩ := has.block (List.mem_of_find?_eq_some known) label
    refine (Runs.leads (S := { S with within := within b.name }) closed model pool answered placed
      (runs v (same v)) points).trans fun p left => ?_
    cases left with
    | fallThrough q => exact absurd q (stays _).1
    | @jump at_ target l w least' most' leads q =>
      obtain ⟨body, next⟩ := (jumps l w q).found
      exact ih l w q (has.jump_address (Nat.le_trans least least') (Nat.lt_of_lt_of_le most' most)
        leads next)
    | ret here q => exact .here (.returns here (returns _ q))
    | halt q => exact absurd q (stays _).2
    | trap q => exact .traps (traps _ _ q)

/-- An activation begins with the first block of its function. -/
theorem Runs.enters {b : Block} {rest : List Block} (first : f.blocks = b :: rest) {v : View}
    (runs : Runs S 0 b.code v (Continues f.codeOf? S within Alike R))
    (points : List (Word × Point)) : P.Leads ⟨a, v, points⟩ (P.Finishes points R) := by
  have mem : b ∈ f.blocks := by simp [first]
  have label : (b.name, a) ∈ blockLabels a f.blocks := by simp [first, blockLabels]
  obtain ⟨least, most, placed⟩ := has.block mem label
  refine (Runs.leads closed model pool answered placed runs points).trans fun p left => ?_
  cases left with
  | fallThrough q => exact q.elim
  | @jump at_ target l w least' most' leads q =>
    have next : Ends f.codeOf? S within Alike R l.name w := q
    obtain ⟨body, found⟩ := next.found
    exact next.leads closed model pool answered has same
      (has.jump_address least' (Nat.lt_of_lt_of_le most' most) leads found) points
  | ret here q => exact .here (.returns here q)
  | halt q => exact q.elim
  | trap q => exact .traps q

end

/-- An activation that traps in its first instructions. -/
theorem Linked.HasFunction.fails {P : Linked} {f : Function} {a : Nat} (has : P.HasFunction f a) (closed : P.Closed)
    {b : Block} {rest : List Block} (first : f.blocks = b :: rest) {before behind : List Instruction}
    (code : b.code = before ++ behind) (plain : ∀ i ∈ before, i.isPlain = true) {v : View} {t : Trap}
    (fails : v.executeAll P.model P.pool before = .error t) {R : Except Trap View → Prop} (allowed : R (.error t))
    (points : List (Word × Point)) : P.Leads ⟨a, v, points⟩ (P.Finishes points R) := by
  let S : Surroundings := ⟨P.model, P.pool, fun _ => True, fun _ _ _ => none⟩
  have none : P.Answered S.calls := by
    intro k l v post spec
    cases spec
  have runs : Runs S 0 b.code v (Continues f.codeOf? S (fun _ _ => True) Eq R) := by
    rw [code]
    exact Runs.executeAll_error (fun _ => trivial) plain fails fun _ => allowed
  exact Runs.enters (S := S) closed rfl rfl none has (fun _ => rfl) first runs points

end Codegen86.Symbolic
