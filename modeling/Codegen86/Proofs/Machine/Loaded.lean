import Codegen86.Proofs.Machine.Mirror
import Codegen86.Proofs.Machine.Steps
import Codegen86.Proofs.Symbolic.Linked
import Mathlib.Algebra.Group.Int.Defs
import Mathlib.Algebra.Group.Nat.Defs
/-!
# Machines that hold a linked program

A machine holds a linked program if it has its code, and its labels have the addresses that the linked
program says.  An instruction then does the same in both.

Two theorems about runs follow.  Whatever words calls store, a disciplined run of the machine is one of
the linked program (`after_of_loop`).  If calls store addresses, a run of the linked program is one of the
machine (`loop_of_after`).
-/

set_option autoImplicit false

namespace Codegen86.Symbolic

open Target Machine

/-- The machine holds the linked program. -/
structure Loaded (P : Linked) (m : Machine) : Prop where
  code : m.code = P.code.toArray
  small : P.code.length < 2 ^ 63
  model : P.model = .machine m.words false
  operands : ∀ i ∈ P.code, i.isPlain = true → ∀ x ∈ i.operands, P.pool.get x = m.pool.get x
  jumps : ∀ (pc : Nat) (x : OperandRef) (i : Instruction), P.code[pc]? = some i →
    i = .jump x ∨ (∃ condition, i = .jumpIf condition x) →
    ∃ l a, m.pool.get x = .label l ∧ l.address = some a ∧ P.jumpTarget pc x = some a
  calls : ∀ x : OperandRef, .call x ∈ P.code →
    ∃ l a, m.pool.get x = .label l ∧ l.address = some a ∧ P.callTarget x = some a

namespace Loaded

variable {P : Linked} {m : Machine} {R : Word → Word → Word → Prop} {marks : Marks} {s : State}
  {c : Position}

theorem code_get (h : Loaded P m) (pc : Nat) : m.code[pc]? = P.code[pc]? := by
  rw [h.code]
  exact List.getElem?_toArray

theorem step_eq (h : Loaded P m) {i : Instruction} (here : P.code[s.pc]? = some i) :
    m.step s = m.execute s.pc { s with pc := s.pc + 1 } i := by
  rw [Machine.step, h.code_get, here]

/-- An address inside the code is where a jump to its word leads. -/
theorem jumpAddress_eq (h : Loaded P m) {a : Nat} (inside : a < P.code.length) (pc : Nat) :
    m.jumpAddress pc (Word.ofNat a) = .ok a := by
  have small := h.small
  have place : (Word.ofNat a).index? m.code.size = some a := by
    rw [Word.index?_eq_some, Word.toInt_ofNat (by omega), h.code]
    exact ⟨rfl, by simpa using inside⟩
  rw [Machine.jumpAddress, place]

theorem inside_lt {target : Option Nat} {a : Nat} (h : P.inside target = some a) :
    a < P.code.length := by
  simp only [Linked.inside, Option.filter_eq_some_iff, decide_eq_true_eq] at h
  exact h.2

theorem destination_eq (h : Loaded P m) {x : OperandRef} {l : Label} {a : Nat} (pc : Nat)
    (label : m.pool.get x = .label l) (address : l.address = some a) (inside : a < P.code.length) :
    m.destination pc s x = .ok a := by
  simp only [Machine.destination, label, State.read, address, bind, Except.bind]
  exact h.jumpAddress_eq inside pc

/-- An instruction that transfers no control. -/
theorem step_plain (h : Loaded P m) (at_ : c.pc = s.pc) {i : Instruction}
    (here : P.code[s.pc]? = some i) (plain : i.isPlain = true) (respects : m.Respects s marks i)
    (shows : Mirrors m.words R marks s c.view) :
    (∃ next v, m.step s = .ok (.next next) ∧
      P.step c = .running { c with pc := c.pc + 1, view := v } ∧ next.pc = c.pc + 1 ∧
      Mirrors m.words R (m.marksAfter s marks i) next v) ∨
    ∃ t, m.step s = .error (t.at s.pc) ∧ P.step c = .failed t := by
  have mem : i ∈ P.code := List.mem_of_getElem? here
  have ahead : Mirrors m.words R marks { s with pc := s.pc + 1 } c.view := { shows with }
  have same := ahead.execute (m := m) s.pc plain respects
  rw [P.step_plain (at_ ▸ here) plain, Linked.stepPlain, h.step_eq here, h.model,
    View.execute_congr c.view (h.operands i mem plain)]
  cases real : m.execute s.pc { s with pc := s.pc + 1 } i with
  | error f =>
    cases shown : c.view.execute (.machine m.words false) m.pool i with
    | error t =>
      rw [real, shown] at same
      exact .inr ⟨t, congrArg _ same, rfl⟩
    | ok v =>
      rw [real, shown] at same
      exact same.elim
  | ok a =>
    cases shown : c.view.execute (.machine m.words false) m.pool i with
    | error t =>
      rw [real, shown] at same
      exact same.elim
    | ok v =>
      rw [real, shown] at same
      obtain ⟨next, rfl, now, pc⟩ := same
      exact .inl ⟨next, v, rfl, rfl, by rw [pc, at_], now⟩

/-- A jump, conditional or not. -/
theorem step_jump (h : Loaded P m) (at_ : c.pc = s.pc) {i : Instruction} {x : OperandRef}
    (here : P.code[s.pc]? = some i) (jump : i = .jump x ∨ ∃ condition, i = .jumpIf condition x)
    (shows : Mirrors m.words R marks s c.view) :
    ∃ a, m.step s = .ok (.next { s with pc := a }) ∧ P.step c = .running { c with pc := a } := by
  obtain ⟨l, a, label, address, target⟩ := h.jumps s.pc x i here jump
  have goes := h.destination_eq (s := { s with pc := s.pc + 1 }) s.pc label address (inside_lt target)
  rcases jump with rfl | ⟨condition, rfl⟩
  · refine ⟨a, ?_, ?_⟩
    · rw [h.step_eq here]
      simp [Machine.execute, goes, bind, Except.bind, pure, Except.pure]
    · rw [Linked.step, at_, here]
      simp only [Linked.stepJump, at_, target]
  · refine ⟨if condition.holds s.flags then a else s.pc + 1, ?_, ?_⟩
    · rw [h.step_eq here]
      simp only [Machine.execute, goes, bind, Except.bind, pure, Except.pure]
      by_cases holds : condition.holds s.flags = true <;> simp [holds]
    · rw [Linked.step, at_, here]
      simp only [Linked.stepJumpIf, at_, target, shows.flags]

/-- A call.  Afterwards its cell is marked or not, as `marks'` says. -/
theorem step_call (h : Loaded P m) (at_ : c.pc = s.pc) {x : OperandRef}
    (here : P.code[s.pc]? = some (.call x)) (shows : Mirrors m.words R marks s c.view)
    (R' : Word → Word → Word → Prop) (marks' : Marks)
    (wider : ∀ b w w', b ≠ s.stackPointer - 1 → R b w w' → R' b w w')
    (kept : ∀ j, s.next? ≠ some j → marks' j = marks j)
    (same : ∀ i, s.next? = some i → marks' i = false → P.word (s.pc + 1) = Word.ofNat (s.pc + 1))
    (related : ∀ i, s.next? = some i → marks' i = true →
      R' (s.stackPointer - 1) (Word.ofNat (s.pc + 1)) (P.word (s.pc + 1))) :
    (∃ next d, m.step s = .ok (.next next) ∧ P.step c = .running d ∧ d.pc = next.pc ∧
      d.points = (s.stackPointer - 1, .back (s.pc + 1) c.view.locals) :: c.points ∧
      Mirrors m.words R' marks' next d.view) ∨
    ∃ t, m.step s = .error (t.at s.pc) ∧ P.step c = .failed t := by
  have mem : Instruction.call x ∈ P.code := List.mem_of_getElem? here
  obtain ⟨l, a, label, address, target⟩ := h.calls x mem
  have goes := h.destination_eq (s := { s with pc := s.pc + 1 }) s.pc label address (inside_lt target)
  have ahead : Mirrors m.words R marks { s with pc := s.pc + 1 } c.view := { shows with }
  have pushed := ahead.push s.pc (Word.ofNat (s.pc + 1)) (P.word (s.pc + 1)) R' marks' wider kept same related
  rw [h.step_eq here, Linked.step, at_, here]
  simp only [Linked.stepCall, target, at_, h.model, Machine.execute, goes, bind, Except.bind]
  cases real : State.push { s with pc := s.pc + 1 } s.pc (Word.ofNat (s.pc + 1)) with
  | error f =>
    cases shown : c.view.push (.machine m.words false) (P.word (s.pc + 1)) with
    | error t =>
      rw [real, shown] at pushed
      exact .inr ⟨t, congrArg _ pushed, rfl⟩
    | ok v =>
      rw [real, shown] at pushed
      exact pushed.elim
  | ok next =>
    cases shown : c.view.push (.machine m.words false) (P.word (s.pc + 1)) with
    | error t =>
      rw [real, shown] at pushed
      exact pushed.elim
    | ok v =>
      rw [real, shown] at pushed
      have top : v.stackPointer = s.stackPointer - 1 := by
        unfold View.push at shown
        dsimp only at shown
        split at shown
        · cases shown
          exact congrArg (· - 1) shows.stackPointer
        · cases shown
      exact .inl ⟨_, _, rfl, rfl, rfl, by rw [top], { pushed.1 with }⟩

/-! ## Returns -/

/-- What a marked cell says in a disciplined run: the machine has the address of a point there, and the
view the word that stands for it. -/
def Stored (P : Linked) (points : List (Word × Point)) (a w shown : Word) : Prop :=
  ∃ point, points.lookup a = some point ∧ shown = P.wordOf point ∧
    match point with
    | .out => w = sentinel
    | .back pc _ => w = Word.ofNat pc ∧ pc ≤ P.code.length

/-- A return that pops a marked word. -/
theorem step_ret (h : Loaded P m) (policy : P.policy = .stored) (at_ : c.pc = s.pc)
    (here : P.code[s.pc]? = some .ret) (respects : m.Respects s marks .ret)
    (shows : Mirrors m.words (Stored P c.points) marks s c.view) :
    match m.step s with
    | .ok (.next next) => ∃ d, P.step c = .running d ∧ d.pc = next.pc ∧ d.points = c.points ∧
        Mirrors m.words (Stored P c.points) marks next d.view
    | .ok (.done last) => ∃ v, P.step c = .done v ∧ v.general 0 = last.result
    | .error _ => True := by
  have ahead : Mirrors m.words (Stored P c.points) marks { s with pc := s.pc + 1 } c.view :=
    { shows with }
  have small := h.small
  rw [h.step_eq here, Linked.step, at_, here]
  simp only [Linked.stepRet, policy, Policy.recall, h.model, Machine.execute, bind, Except.bind]
  have popped := ahead.pop s.pc
  cases real : State.pop { s with pc := s.pc + 1 } s.pc with
  | error f => trivial
  | ok a =>
    cases shown : c.view.pop (.machine m.words false) with
    | error t =>
      rw [real, shown] at popped
      exact popped.elim
    | ok b =>
      rw [real, shown] at popped
      obtain ⟨⟨cell, top, -, stored⟩, rest, now⟩ := popped
      obtain ⟨point, found, shown_eq, word⟩ := stored (respects cell top)
      obtain ⟨w, next⟩ := a
      obtain ⟨w', v⟩ := b
      dsimp only at now shown_eq word rest ⊢
      have found : c.points.lookup c.view.stackPointer = some point := by
        rw [shows.stackPointer]
        exact found
      simp only [found, Option.map_some, shown_eq, if_true]
      cases point with
      | out =>
        rw [if_pos word]
        exact ⟨v, rfl, now.1.general 0 (by decide)⟩
      | back pc locals =>
        obtain ⟨rfl, bound⟩ := word
        rw [if_neg (ofNat_ne_sentinel (by omega))]
        by_cases inside : pc < P.code.length
        · simp only [h.jumpAddress_eq inside, if_pos inside]
          exact ⟨_, rfl, rfl, rfl, { now.1 with }⟩
        · have outside : m.jumpAddress s.pc (Word.ofNat pc) = .error (.invalidJump s.pc (Word.ofNat pc)) := by
            have place : (Word.ofNat pc).index? m.code.size = none := by
              rw [← Option.not_isSome_iff_eq_none, Word.index?_isSome, Word.toInt_ofNat (by omega),
                h.code]
              simp only [List.size_toArray]
              omega
            rw [Machine.jumpAddress, place]
          rw [outside]
          trivial

theorem Stored.cons {points : List (Word × Point)} {top b w w' : Word} {point : Point} (ne : b ≠ top)
    (stored : Stored P points b w w') : Stored P ((top, point) :: points) b w w' := by
  obtain ⟨old, found, rest⟩ := stored
  refine ⟨old, ?_, rest⟩
  rw [List.lookup_cons, beq_false_of_ne ne]
  exact found

/-! ## Runs -/

/-- An instruction of a disciplined run. -/
theorem step_disciplined (h : Loaded P m) (policy : P.policy = .stored) (at_ : c.pc = s.pc)
    (respects : ∀ i, m.code[s.pc]? = some i → m.Respects s marks i)
    (shows : Mirrors m.words (Stored P c.points) marks s c.view) :
    match m.step s with
    | .ok (.next next) => ∃ i d, m.code[s.pc]? = some i ∧ P.step c = .running d ∧ d.pc = next.pc ∧
        Mirrors m.words (Stored P d.points) (m.marksAfter s marks i) next d.view
    | .ok (.done last) => ∃ v, P.step c = .done v ∧ v.general 0 = last.result
    | .error _ => True := by
  cases here : P.code[s.pc]? with
  | none =>
    rw [Machine.step, h.code_get, here]
    trivial
  | some i =>
    have found : m.code[s.pc]? = some i := (h.code_get _).trans here
    have respects := respects i found
    by_cases plain : i.isPlain = true
    · rcases h.step_plain at_ here plain respects shows with ⟨next, v, real, go, pc, now⟩ | ⟨t, real, -⟩
      · rw [real]
        exact ⟨i, _, found, go, pc.symm, now⟩
      · rw [real]
        trivial
    · cases i with
      | halt =>
        rw [h.step_eq here]
        refine ⟨c.view, ?_, shows.general 0 (by decide)⟩
        rw [Linked.step, at_, here]
      | ret =>
        have ret := h.step_ret policy at_ here respects shows
        revert ret
        cases m.step s with
        | error f => exact id
        | ok a =>
          cases a with
          | done last => exact id
          | next next =>
            rintro ⟨d, go, pc, points, now⟩
            exact ⟨.ret, d, found, go, pc, by rw [points]; exact now⟩
      | jump x =>
        obtain ⟨a, real, go⟩ := h.step_jump at_ here (.inl rfl) shows
        rw [real]
        exact ⟨.jump x, _, found, go, rfl, { shows with }⟩
      | jumpIf condition x =>
        obtain ⟨a, real, go⟩ := h.step_jump at_ here (.inr ⟨condition, rfl⟩) shows
        rw [real]
        exact ⟨.jumpIf condition x, _, found, go, rfl, { shows with }⟩
      | call x =>
        have bound : s.pc < P.code.length := (List.getElem?_eq_some_iff.mp here).1
        rcases h.step_call at_ here shows
            (Stored P ((s.stackPointer - 1, .back (s.pc + 1) c.view.locals) :: c.points))
            (marks.set s.next?) (fun b w w' ne => Stored.cons ne)
            (fun j ne => by simp [Marks.set, ne]) (fun j next unmarked => by simp [Marks.set, next] at unmarked)
            (fun j next _ => ⟨.back (s.pc + 1) c.view.locals, by simp, rfl, rfl, bound⟩)
          with ⟨next, d, real, go, pc, points, now⟩ | ⟨t, real, -⟩
        · rw [real]
          exact ⟨.call x, d, found, go, pc, by rw [points]; exact now⟩
        · rw [real]
          trivial
      | _ => exact absurd rfl plain

/-- A disciplined run of the machine is one of the linked program, whatever words calls store. -/
theorem after_of_loop (h : Loaded P m) (policy : P.policy = .stored) {fuel k : Nat} {r : Word}
    {steps : Nat} (at_ : c.pc = s.pc) (shows : Mirrors m.words (Stored P c.points) marks s c.view)
    (disciplined : m.Disciplined fuel s marks)
    (outcome : (m.loop fuel k s).outcome = .ok r) (count : (m.loop fuel k s).steps = steps) :
    ∃ n v, steps = k + n ∧ P.after n c = .done v ∧ v.general 0 = r := by
  induction fuel generalizing k s c marks with
  | zero => cases outcome
  | succ fuel ih =>
    have one := h.step_disciplined policy at_ (fun i here => (disciplined i here).1) shows
    rw [Machine.loop] at outcome count
    cases real : m.step s with
    | error f => simp [real] at outcome
    | ok a =>
      rw [real] at one
      cases a with
      | done last =>
        simp only [real, Except.ok.injEq] at outcome count
        obtain ⟨v, go, result⟩ := one
        refine ⟨1, v, count.symm, ?_, result.trans outcome⟩
        rw [Linked.after, go]
      | next next =>
        simp only [real] at outcome count
        obtain ⟨i, d, here, go, pc, now⟩ := one
        obtain ⟨n, v, total, reached, result⟩ :=
          ih pc now ((disciplined i here).2 next real) outcome count
        refine ⟨n + 1, v, by omega, ?_, result⟩
        rw [Linked.after_succ go, reached]

/-- A state whose memory is shown as it is. -/
abbrev Exact (m : Machine) (s : State) (v : View) : Prop :=
  Mirrors m.words (fun _ _ _ => False) (fun _ => false) s v

theorem clear_unmarked (cell : Option Nat) : Marks.clear (fun _ => false) cell = fun _ => false := by
  funext i
  simp [Marks.clear]

theorem marksAfter_unmarked {i : Instruction} (plain : i.isPlain = true) :
    m.marksAfter s (fun _ => false) i = fun _ => false := by
  cases i <;> first | exact clear_unmarked _ | rfl | cases plain

/-- An instruction of the linked program, if calls store addresses. -/
theorem step_linked (h : Loaded P m) (words : ∀ pc, P.word pc = Word.ofNat pc)
    (at_ : c.pc = s.pc) (shows : Exact m s c.view) :
    match P.step c with
    | .running d => ∃ next, m.step s = .ok (.next next) ∧ d.pc = next.pc ∧ Exact m next d.view
    | .done v => ∃ last, m.step s = .ok (.done last) ∧ v.general 0 = last.result
    | .failed t => m.step s = .error (t.at s.pc)
    | .stuck => True := by
  cases here : P.code[s.pc]? with
  | none =>
    rw [Linked.step, at_, here]
    trivial
  | some i =>
    by_cases plain : i.isPlain = true
    · have respects : m.Respects s (fun _ => false) i := by
        cases i <;> first | exact fun _ _ => rfl | cases plain
      rcases h.step_plain at_ here plain respects shows with ⟨next, v, real, go, pc, now⟩ | ⟨t, real, go⟩
      · rw [go]
        rw [marksAfter_unmarked plain] at now
        exact ⟨next, real, pc.symm, now⟩
      · rw [go]
        exact real
    · cases i with
      | halt =>
        rw [h.step_eq here, Linked.step, at_, here]
        exact ⟨_, rfl, shows.general 0 (by decide)⟩
      | jump x =>
        obtain ⟨a, real, go⟩ := h.step_jump at_ here (.inl rfl) shows
        rw [go]
        exact ⟨_, real, rfl, { shows with }⟩
      | jumpIf condition x =>
        obtain ⟨a, real, go⟩ := h.step_jump at_ here (.inr ⟨condition, rfl⟩) shows
        rw [go]
        exact ⟨_, real, rfl, { shows with }⟩
      | call x =>
        rcases h.step_call at_ here shows (fun _ _ _ => False) (fun _ => false)
            (fun _ _ _ _ => id) (fun _ _ => rfl) (fun _ _ _ => words _) (by simp)
          with ⟨next, d, real, go, pc, -, now⟩ | ⟨t, real, go⟩
        · rw [go]
          exact ⟨next, real, pc, now⟩
        · rw [go]
          exact real
      | ret =>
        have small := h.small
        have ahead : Exact m { s with pc := s.pc + 1 } c.view := { shows with }
        have popped := ahead.pop s.pc
        rw [h.step_eq here, Linked.step, at_, here]
        simp only [Linked.stepRet, h.model, Machine.execute, bind, Except.bind]
        cases real : State.pop { s with pc := s.pc + 1 } s.pc with
        | error f =>
          cases shown : c.view.pop (.machine m.words false) with
          | error t =>
            rw [real, shown] at popped
            exact congrArg _ popped
          | ok b =>
            rw [real, shown] at popped
            exact popped.elim
        | ok a =>
          cases shown : c.view.pop (.machine m.words false) with
          | error t =>
            rw [real, shown] at popped
            exact popped.elim
          | ok b =>
            rw [real, shown] at popped
            obtain ⟨⟨cell, -, same, -⟩, -, now⟩ := popped
            obtain ⟨w, next⟩ := a
            obtain ⟨w', v⟩ := b
            have same : w' = w := same rfl
            subst same
            dsimp only at now ⊢
            cases P.policy.recall c.view.stackPointer c.points with
            | none => trivial
            | some found =>
              obtain ⟨point, points⟩ := found
              dsimp only
              by_cases word : w' = P.wordOf point
              · rw [if_pos word]
                cases point with
                | out =>
                  have word : w' = sentinel := word
                  rw [if_pos word]
                  exact ⟨next, rfl, now.1.general 0 (by decide)⟩
                | back pc locals =>
                  have word : w' = Word.ofNat pc := word.trans (words pc)
                  dsimp only
                  by_cases bound : pc < P.code.length
                  · rw [if_pos bound, word, if_neg (ofNat_ne_sentinel (by omega))]
                    simp only [h.jumpAddress_eq bound]
                    exact ⟨_, rfl, rfl, { now.1 with }⟩
                  · rw [if_neg bound]
                    trivial
              · rw [if_neg word]
                trivial
      | _ => exact absurd rfl plain

/-- A run of the linked program that ends is one of the machine, if the machine is given enough steps. -/
theorem loop_of_after (h : Loaded P m) (words : ∀ pc, P.word pc = Word.ofNat pc) {n : Nat}
    (fuel k : Nat) (at_ : c.pc = s.pc) (shows : Exact m s c.view) (ended : ∀ d, P.after n c ≠ .running d) :
    (fuel < n ∧ (m.loop fuel k s).outcome = .error (.stepLimit m.limit)) ∨
    match P.after n c with
    | .done v => (m.loop fuel k s).outcome = .ok (v.general 0) ∧ (m.loop fuel k s).steps ≤ k + n
    | .failed t => ∃ pc, (m.loop fuel k s).outcome = .error (t.at pc)
    | _ => True := by
  induction n generalizing fuel k s c with
  | zero => exact absurd rfl (ended c)
  | succ n ih =>
    cases fuel with
    | zero => exact .inl ⟨Nat.succ_pos n, rfl⟩
    | succ fuel =>
      have one := h.step_linked words at_ shows
      rw [Linked.after] at ended ⊢
      rw [Machine.loop]
      cases go : P.step c with
      | running d =>
        simp only [go] at one ended ⊢
        obtain ⟨next, real, pc, now⟩ := one
        simp only [real]
        rcases ih fuel (k + 1) pc now ended with ⟨short, limit⟩ | rest
        · exact .inl ⟨by omega, limit⟩
        · refine .inr ?_
          cases reached : P.after n d with
          | done v =>
            rw [reached] at rest
            exact ⟨rest.1, by have := rest.2; omega⟩
          | failed t =>
            rw [reached] at rest
            exact rest
          | _ => trivial
      | done v =>
        rw [go] at one
        obtain ⟨last, real, result⟩ := one
        simp only [real]
        exact .inr ⟨congrArg _ result.symm, by omega⟩
      | failed t =>
        rw [go] at one
        simp only [one]
        exact .inr ⟨s.pc, rfl⟩
      | stuck => exact .inr trivial

/-! ## Whole runs -/

theorem emptyView_exact (m : Machine) :
    Exact m (State.initial m.words m.entry) (Linked.emptyView m.words) where
  size := Array.size_replicate
  general i inside := by simp [State.initial, Linked.emptyView]
  stackPointer := rfl
  basePointer := rfl
  flags := rfl
  memory a i found _ := by
    have inside := Word.index?_lt found
    simp [State.initial, Linked.emptyView, Array.getD_eq_getD_getElem?, inside]
  marked _ _ _ mark := by cases mark

/-- The arguments, as the machine and the linked program push them. -/
theorem pushAll {pc : Nat} (args : List Word) {v : View} (shows : Exact m s v) :
    Same pc (fun next w => next.pc = s.pc ∧ Exact m next w)
      (args.foldlM (fun s arg => s.push pc arg) s)
      (args.foldlM (fun v arg => v.push (.machine m.words false) arg) v) := by
  induction args generalizing s v with
  | nil => exact ⟨rfl, shows⟩
  | cons arg rest ih =>
    rw [List.foldlM_cons, List.foldlM_cons]
    have pushed := shows.push pc arg arg (fun _ _ _ => False) (fun _ => false)
      (fun _ _ _ _ => id) (fun _ _ => rfl) (fun _ _ _ => rfl) (by simp)
    refine pushed.bind fun next w now => ?_
    have later := ih now.1
    rw [now.2] at later
    exact later

theorem top_of_push {pc : Nat} {value : Word} {next : State} (pushed : s.push pc value = .ok next) :
    next.top? = s.next? ∧ next.stackPointer = s.stackPointer - 1 := by
  unfold State.push at pushed
  split at pushed
  · cases pushed
  · cases pushed
    simp [State.top?, State.next?]

/-- The states in which execution begins: the only word stored that is no argument is the sentinel. -/
theorem start_same (h : Loaded P m) (args : List Word) :
    Same (m.entry - 1)
      (fun s v => s.pc = m.entry ∧ Exact m s v ∧
        Mirrors m.words (Stored P [(v.stackPointer, .out)]) (fun cell => s.top? = some cell) s v)
      (m.start args) (P.startView m.words args) := by
  rw [Machine.start, Linked.startView, h.model]
  refine (pushAll args.reverse (emptyView_exact m)).bind fun s v pushed => ?_
  obtain ⟨pc, shows⟩ := pushed
  have exact_ := shows.push (m.entry - 1) sentinel sentinel (fun _ _ _ => False) (fun _ => false) (fun _ _ _ _ => id) (fun _ _ => rfl)
    (fun _ _ _ => rfl) (by simp)
  have marked := shows.push (m.entry - 1) sentinel sentinel
    (Stored P [(s.stackPointer - 1, .out)]) (fun cell => s.next? = some cell)
    (fun _ _ _ _ => False.elim) (fun j ne => by simp [ne])
    (fun _ _ _ => rfl) fun _ _ _ => ⟨.out, by simp, rfl, rfl⟩
  refine (Same.and_left (exact_.and marked) fun next => top_of_push).mono fun next w both => ?_
  obtain ⟨⟨⟨now, at_⟩, ⟨stored, -⟩⟩, top, pointer⟩ := both
  refine ⟨at_.trans pc, now, ?_⟩
  rw [top, now.stackPointer, pointer]
  exact stored

/-- A disciplined run of the machine is one of the linked program, whatever words calls store. -/
theorem run_of_machine (h : Loaded P m) (policy : P.policy = .stored) {args : List Word} {r : Word}
    {steps : Nat} (disciplined : m.DisciplinedRun args) (outcome : (m.run args).outcome = .ok r)
    (count : (m.run args).steps = steps) :
    ∃ v, P.run m.words args m.entry steps = .done v ∧ v.general 0 = r := by
  have start := h.start_same args
  unfold Machine.run at outcome count
  cases begun : m.start args with
  | error f => simp [begun] at outcome
  | ok s =>
    simp only [begun] at outcome count
    cases shown : P.startView m.words args with
    | error t =>
      rw [begun, shown] at start
      exact start.elim
    | ok v =>
      rw [begun, shown] at start
      obtain ⟨pc, -, stored⟩ := start
      obtain ⟨n, w, total, reached, result⟩ :=
        h.after_of_loop (c := { pc := m.entry, view := v, points := [(v.stackPointer, .out)] }) policy
          pc.symm stored (disciplined s begun) outcome count
      obtain rfl : n = steps := by omega
      exact ⟨w, by rw [Linked.run, shown]; exact reached, result⟩

/-- A run of the linked program that ends is one of the machine, unless the step limit is lower. -/
theorem machine_of_run (h : Loaded P m) (words : ∀ pc, P.word pc = Word.ofNat pc)
    {args : List Word} {n : Nat} (ended : ∀ d, P.run m.words args m.entry n ≠ .running d) :
    (m.limit < n ∧ (m.run args).outcome = .error (.stepLimit m.limit)) ∨
    match P.run m.words args m.entry n with
    | .done v => (m.run args).outcome = .ok (v.general 0) ∧ (m.run args).steps ≤ n
    | .failed t => ∃ pc, (m.run args).outcome = .error (t.at pc)
    | _ => True := by
  have start := h.start_same args
  unfold Linked.run at ended ⊢
  unfold Machine.run
  cases begun : m.start args with
  | error f =>
    cases shown : P.startView m.words args with
    | ok v =>
      rw [begun, shown] at start
      exact start.elim
    | error t =>
      rw [begun, shown] at start
      have start : f = t.at (m.entry - 1) := start
      exact .inr ⟨m.entry - 1, congrArg _ start⟩
  | ok s =>
    cases shown : P.startView m.words args with
    | error t =>
      rw [begun, shown] at start
      exact start.elim
    | ok v =>
      rw [begun, shown] at start
      obtain ⟨pc, exact_, -⟩ := start
      simp only [shown] at ended ⊢
      have same := h.loop_of_after (c := { pc := m.entry, view := v, points := [(v.stackPointer, .out)] })
        (n := n) words m.limit 0 pc.symm exact_ ended
      rwa [Nat.zero_add] at same

end Loaded

end Codegen86.Symbolic
