import Codegen86.Proofs.Symbolic.Linked
/-!
# Deleting an instruction

One instruction of a linked program is deleted, and every address behind it becomes smaller by one
(`shift`).  If calls store for an address in the old program what they store for the shifted one in the
new, both programs go through the same states, instruction by instruction, except in a window of one or
two instructions around the deleted one (`Redundant`); the window is left in the same state, and nothing
leads into its middle.  So a run that ends with a result, or out of stack, ends the same way in the new
program, and no later (`run_of_deletes`).
-/

set_option autoImplicit false

namespace Codegen86.Peephole

open Target Symbolic

/-- The address of the instruction at `k`, after the one at `d` is gone. -/
def shift (d k : Nat) : Nat := if k ≤ d then k else k - 1

theorem shift_succ {d k : Nat} (ne : k ≠ d) : shift d (k + 1) = shift d k + 1 := by
  unfold shift
  split <;> split <;> omega

/-- A point, with its address shifted. -/
def shiftPoint (d : Nat) : Point → Point
  | .out => .out
  | .back pc locals => .back (shift d pc) locals

/-- What calls have stored, with addresses shifted. -/
def shiftPoints (d : Nat) (points : List (Word × Point)) : List (Word × Point) :=
  points.map fun entry => (entry.1, shiftPoint d entry.2)

/-- A position of the new program. -/
def shiftPosition (d : Nat) (c : Position) : Position :=
  { pc := shift d c.pc, view := c.view, points := shiftPoints d c.points }

def shiftProgress (d : Nat) : Progress → Progress
  | .running c => .running (shiftPosition d c)
  | other => other

/-- `P'` is `P` without the instruction at `d`. -/
structure Deletes (d : Nat) (P P' : Linked) : Prop where
  code : P'.code = P.code.eraseIdx d
  inside : d + 1 < P.code.length
  pool : P'.pool = P.pool
  model : P'.model = P.model
  policy : P'.policy = P.policy
  word : ∀ k, P.word k = P'.word (shift d k)
  jumps : ∀ pc l, P'.jumps (shift d pc) l = (P.jumps pc l).map (shift d)
  calls : ∀ l, P'.calls l = (P.calls l).map (shift d)

theorem lookup_shiftPoints (d : Nat) (cell : Word) (points : List (Word × Point)) :
    (shiftPoints d points).lookup cell = (points.lookup cell).map (shiftPoint d) := by
  induction points with
  | nil => rfl
  | cons entry rest ih =>
    obtain ⟨a, point⟩ := entry
    rw [shiftPoints, List.map_cons, List.lookup_cons, List.lookup_cons]
    by_cases same : cell = a
    · simp [same]
    · rw [beq_false_of_ne same]
      exact ih

theorem recall_shiftPoints (d : Nat) (policy : Policy) (cell : Word) (points : List (Word × Point)) :
    policy.recall cell (shiftPoints d points) =
      (policy.recall cell points).map fun found => (shiftPoint d found.1, shiftPoints d found.2) := by
  cases policy with
  | innermost => cases points <;> rfl
  | stored =>
    simp only [Policy.recall, lookup_shiftPoints]
    cases points.lookup cell <;> rfl

namespace Deletes

variable {d : Nat} {P P' : Linked} {c : Position}

theorem length (D : Deletes d P P') : P'.code.length + 1 = P.code.length := by
  have inside := D.inside
  rw [D.code, List.length_eraseIdx_of_lt (by omega)]
  omega

theorem get (D : Deletes d P P') {k : Nat} (ne : k ≠ d) : P'.code[shift d k]? = P.code[k]? := by
  rw [D.code, List.getElem?_eraseIdx, shift]
  split
  · rw [if_pos (by omega)]
  · rw [if_neg (by omega), show k - 1 + 1 = k by omega]

theorem lt_iff (D : Deletes d P P') (k : Nat) : shift d k < P'.code.length ↔ k < P.code.length := by
  have length := D.length
  have inside := D.inside
  unfold shift
  split <;> omega

theorem inside_map (D : Deletes d P P') (target : Option Nat) :
    P'.inside (target.map (shift d)) = (P.inside target).map (shift d) := by
  cases target with
  | none => rfl
  | some a =>
    simp only [Linked.inside, Option.map_some, Option.filter_some, D.lt_iff]
    split <;> rfl

theorem jumpTarget (D : Deletes d P P') (pc : Nat) (x : OperandRef) :
    P'.jumpTarget (shift d pc) x = (P.jumpTarget pc x).map (shift d) := by
  rw [Linked.jumpTarget, Linked.jumpTarget, D.pool, ← D.inside_map]
  cases (P.pool.get x).label? with
  | none => rfl
  | some l => exact congrArg _ (D.jumps pc l)

theorem callTarget (D : Deletes d P P') (x : OperandRef) :
    P'.callTarget x = (P.callTarget x).map (shift d) := by
  rw [Linked.callTarget, Linked.callTarget, D.pool, ← D.inside_map]
  cases (P.pool.get x).label? with
  | none => rfl
  | some l => exact congrArg _ (D.calls l)

theorem wordOf (D : Deletes d P P') (point : Point) :
    P'.wordOf (shiftPoint d point) = P.wordOf point := by
  cases point with
  | out => rfl
  | back pc locals => exact (D.word pc).symm

/-- Every other instruction does the same in both programs. -/
theorem step (D : Deletes d P P') (ne : c.pc ≠ d) :
    P'.step (shiftPosition d c) = shiftProgress d (P.step c) := by
  have get := D.get ne
  cases here : P.code[c.pc]? with
  | none =>
    rw [here] at get
    rw [Linked.step, Linked.step, here, show (shiftPosition d c).pc = shift d c.pc from rfl, get]
    rfl
  | some i =>
    rw [here] at get
    by_cases plain : i.isPlain = true
    · rw [P.step_plain here plain, P'.step_plain (c := shiftPosition d c) get plain, Linked.stepPlain,
        Linked.stepPlain, D.pool, D.model]
      dsimp only [shiftPosition]
      cases c.view.execute P.model P.pool i with
      | error t => rfl
      | ok v => simp only [shiftProgress, shiftPosition, shift_succ ne]
    · rw [Linked.step, Linked.step, here, show (shiftPosition d c).pc = shift d c.pc from rfl, get]
      cases i with
      | halt => rfl
      | jump x =>
        simp only [Linked.stepJump, shiftPosition, D.jumpTarget]
        cases P.jumpTarget c.pc x <;> rfl
      | jumpIf condition x =>
        simp only [Linked.stepJumpIf, shiftPosition, D.jumpTarget]
        cases P.jumpTarget c.pc x with
        | none => rfl
        | some a =>
          simp only [Option.map_some, shiftProgress, shiftPosition]
          by_cases holds : condition.holds c.view.flags = true <;> simp [holds, shift_succ ne]
      | call x =>
        simp only [Linked.stepCall, shiftPosition, D.callTarget, D.model]
        cases P.callTarget x with
        | none => rfl
        | some a =>
          dsimp only [Option.map_some]
          rw [← shift_succ ne, ← D.word]
          cases c.view.push P.model (P.word (c.pc + 1)) <;> rfl
      | ret =>
        simp only [Linked.stepRet, shiftPosition, D.model, D.policy, recall_shiftPoints]
        cases c.view.pop P.model with
        | error t => rfl
        | ok popped =>
          obtain ⟨w, v⟩ := popped
          dsimp only
          cases P.policy.recall c.view.stackPointer c.points with
          | none => rfl
          | some found =>
            obtain ⟨point, points⟩ := found
            dsimp only [Option.map_some]
            rw [D.wordOf]
            by_cases word : w = P.wordOf point
            · rw [if_pos word, if_pos word]
              cases point with
              | out => rfl
              | back pc locals =>
                dsimp only [shiftPoint]
                by_cases bound : pc < P.code.length
                · rw [if_pos bound, if_pos ((D.lt_iff pc).mpr bound)]
                  rfl
                · rw [if_neg bound, if_neg (mt (D.lt_iff pc).mp bound)]
                  rfl
            · rw [if_neg word, if_neg word]
              rfl
      | _ => exact absurd rfl plain

end Deletes

/-- Ends that a deletion does not change: a result, and a stack that is full. -/
def Final : Progress → Prop
  | .done _ | .failed .stackOverflow => True
  | _ => False

/-- Executing the `n` instructions from `b`, of which the one at `d` is deleted, comes to the same in the
new program, or to an end that does not matter; and nothing leads into their middle. -/
structure Redundant (d b n : Nat) (P P' : Linked) : Prop where
  first : b ≤ d
  last : d < b + n
  same : ∀ c, c.pc = b →
    (∃ v, P.after n c = .running { c with pc := b + n, view := v } ∧
      P'.after (n - 1) (shiftPosition d c) = .running (shiftPosition d { c with pc := b + n, view := v })) ∨
    ∃ p, P.after n c = p ∧ (∀ e, p ≠ .running e) ∧ ¬ Final p
  jumps : ∀ pc l k, P.jumps pc l = some k → k ≤ b ∨ b + n ≤ k
  calls : ∀ l k, P.calls l = some k → k ≤ b ∨ b + n ≤ k

namespace Redundant

variable {d b n : Nat} {P P' : Linked} {c : Position}

/-- The position is outside the middle of the window, and so is every point. -/
def Outside (b n : Nat) (c : Position) : Prop :=
  (c.pc ≤ b ∨ b + n ≤ c.pc) ∧
    ∀ cell pc locals, (cell, Point.back pc locals) ∈ c.points → pc ≤ b ∨ b + n ≤ pc

theorem outside_step (W : Redundant d b n P P') {e : Position} (outside : Outside b n c)
    (ne : c.pc ≠ b) (go : P.step c = .running e) : Outside b n e := by
  obtain ⟨at_, points⟩ := outside
  have next : c.pc + 1 ≤ b ∨ b + n ≤ c.pc + 1 := by omega
  rcases P.step_cases go with ⟨same, pc⟩ | ⟨l, cell, locals, target, same⟩ | ⟨cell, locals, mem, rest⟩
  · refine ⟨?_, by rw [same]; exact points⟩
    rcases pc with pc | ⟨l, target⟩
    · rw [pc]
      exact next
    · exact W.jumps c.pc l e.pc target
  · refine ⟨W.calls l e.pc target, fun cell' pc locals' mem => ?_⟩
    rw [same] at mem
    rcases List.mem_cons.mp mem with new | old
    · cases new
      exact next
    · exact points cell' pc locals' old
  · exact ⟨points cell e.pc locals mem, fun cell' pc locals' mem => points cell' pc locals' (rest mem)⟩

/-- A run that comes to a final end does so in the new program, and no later. -/
theorem after_of_deletes (D : Deletes d P P') (W : Redundant d b n P P') {N : Nat} {p : Progress}
    (outside : Outside b n c) (reached : P.after N c = p) (final : Final p) :
    ∃ N' ≤ N, P'.after N' (shiftPosition d c) = p := by
  have ended : ∀ e, p ≠ .running e := by
    rintro e rfl
    exact final
  induction N using Nat.strongRecOn generalizing c with
  | ind N ih =>
    by_cases here : c.pc = b
    · rcases W.same c here with ⟨v, go, go'⟩ | ⟨q, go, stops, other⟩
      · -- the whole window is executed, for within it nothing ends
        have longer : n < N := by
          apply Decidable.byContradiction
          intro short
          obtain ⟨m, rfl⟩ : ∃ m, n = N + m := ⟨n - N, by omega⟩
          rw [Linked.after_ended (by rw [reached]; exact ended), reached] at go
          exact ended _ go
        obtain ⟨m, rfl⟩ : ∃ m, N = n + m := ⟨N - n, by omega⟩
        rw [Linked.after_running go] at reached
        have first := W.first
        have last := W.last
        obtain ⟨m', less, reached'⟩ := ih m (by omega) (c := { c with pc := b + n, view := v })
          ⟨.inr (Nat.le_refl (b + n)), outside.2⟩ reached
        exact ⟨n - 1 + m', by omega, by rw [Linked.after_running go', reached']⟩
      · -- otherwise the end would be the one of the window
        exfalso
        rcases Nat.le_total n N with le | le
        · obtain ⟨m, rfl⟩ : ∃ m, N = n + m := ⟨N - n, by omega⟩
          rw [Linked.after_ended (by rw [go]; exact stops), go] at reached
          exact other (reached ▸ final)
        · obtain ⟨m, rfl⟩ : ∃ m, n = N + m := ⟨n - N, by omega⟩
          rw [Linked.after_ended (by rw [reached]; exact ended), reached] at go
          exact other (go ▸ final)
    · have first := W.first
      have last := W.last
      have ne : c.pc ≠ d := by
        have := outside.1
        omega
      cases N with
      | zero => exact absurd reached.symm (ended c)
      | succ m =>
        have step := D.step ne
        cases go : P.step c with
        | running e =>
          rw [go] at step
          rw [Linked.after_succ go] at reached
          obtain ⟨m', less, reached'⟩ :=
            ih m (Nat.lt_succ_self m) (W.outside_step outside here go) reached
          exact ⟨m' + 1, by omega, by rw [Linked.after_succ step, reached']⟩
        | _ =>
          rw [Linked.after, go] at reached
          rw [go] at step
          refine ⟨1, by omega, ?_⟩
          rw [Linked.after, step]
          exact reached

/-- A call of the entry function that comes to a final end does so in the new program, and no later. -/
theorem run_of_deletes (D : Deletes d P P') (W : Redundant d b n P P') {words : Nat} {args : List Word}
    {N : Nat} {p : Progress} (reached : P.run words args 0 N = p) (final : Final p) :
    ∃ N' ≤ N, P'.run words args 0 N' = p := by
  have start : P'.startView words args = P.startView words args := by
    rw [Linked.startView, Linked.startView, D.model]
  unfold Linked.run at reached ⊢
  rw [start]
  cases begun : P.startView words args with
  | error t =>
    rw [begun] at reached
    exact ⟨N, Nat.le_refl N, reached⟩
  | ok v =>
    rw [begun] at reached
    have outside : Outside b n { pc := 0, view := v, points := [(v.stackPointer, .out)] } := by
      refine ⟨.inl (Nat.zero_le b), fun cell pc locals mem => ?_⟩
      cases List.mem_singleton.mp mem
    exact after_of_deletes D W outside reached final

end Redundant

end Codegen86.Peephole
