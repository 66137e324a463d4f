import Codegen86.Machine.Run
/-!
# Step limits

A step limit cuts a run short and does nothing else.  No instruction fails for want of steps (`step_unlimited`), so
that of two runs of the same machine the one with the higher limit goes on where the other was cut, and is the same
where it was not (`Extends`).  `limit_truncates` says so of whole runs.
-/

set_option autoImplicit false

namespace Codegen86.Machine

open Target

/-! ## Instructions need no limit -/

section

variable {α β : Type}

/-- The computation does not fail for want of steps. -/
def Unlimited (c : Except Fault α) : Prop := ∀ limit, c ≠ .error (.stepLimit limit)

theorem unlimited_ok (a : α) : Unlimited (.ok a) := by
  intro limit same
  cases same

theorem Unlimited.bind {c : Except Fault α} {k : α → Except Fault β} (h : Unlimited c)
    (next : ∀ a, Unlimited (k a)) : Unlimited (c >>= k) := by
  intro limit failed
  cases done : c with
  | error fault =>
    rw [done] at failed
    cases failed
    exact h limit done
  | ok a =>
    rw [done] at failed
    exact next a limit failed

end

namespace State

variable (s : State) (pc : Nat)

theorem register_unlimited (r : Register) : Unlimited (s.register pc r) := by
  intro limit
  unfold register
  split <;> (try split) <;> simp

theorem setRegister_unlimited (r : Register) (value : Word) : Unlimited (s.setRegister pc r value) := by
  intro limit
  unfold setRegister
  split <;> (try split) <;> simp

theorem address_unlimited (base : Register) (offset : Word) : Unlimited (s.address pc base offset) := by
  apply (s.register_unlimited pc base).bind
  intro b limit
  split <;> simp

theorem read_unlimited (o : Operand) : Unlimited (s.read pc o) := by
  cases o with
  | reg r => exact s.register_unlimited pc r
  | mem base offset => exact (s.address_unlimited pc base offset).bind fun _ => unlimited_ok _
  | imm value => exact unlimited_ok value
  | label l =>
    intro limit
    cases here : l.address <;> simp [read, here]

theorem write_unlimited (o : Operand) (value : Word) : Unlimited (s.write pc o value) := by
  cases o with
  | reg r => exact s.setRegister_unlimited pc r value
  | mem base offset => exact (s.address_unlimited pc base offset).bind fun _ => unlimited_ok _
  | imm _ | label _ =>
    intro limit
    simp [write]

theorem push_unlimited (value : Word) : Unlimited (s.push pc value) := by
  intro limit
  unfold push
  split <;> simp

theorem pop_unlimited : Unlimited (s.pop pc) := by
  intro limit
  unfold pop
  split <;> simp

end State

variable (m : Machine)

theorem jumpAddress_unlimited (pc : Nat) (address : Word) : Unlimited (m.jumpAddress pc address) := by
  intro limit
  unfold jumpAddress
  split <;> simp

theorem destination_unlimited (pc : Nat) (s : State) (target : OperandRef) : Unlimited (m.destination pc s target) :=
  (s.read_unlimited pc _).bind fun address => m.jumpAddress_unlimited pc address

theorem execute_unlimited (pc : Nat) (s : State) (i : Instruction) : Unlimited (m.execute pc s i) := by
  cases i with
  | nop | halt => exact unlimited_ok _
  | ret =>
    apply (s.pop_unlimited pc).bind
    rintro ⟨address, s⟩
    dsimp only
    split
    · exact unlimited_ok _
    · exact (m.jumpAddress_unlimited pc address).bind fun _ => unlimited_ok _
  | push x =>
    apply (s.read_unlimited pc _).bind
    intro value
    exact (s.push_unlimited pc value).bind fun _ => unlimited_ok _
  | pop x =>
    apply (s.pop_unlimited pc).bind
    rintro ⟨value, s⟩
    exact (s.write_unlimited pc _ value).bind fun _ => unlimited_ok _
  | mov x y =>
    apply (s.read_unlimited pc _).bind
    intro value
    exact (s.write_unlimited pc _ value).bind fun _ => unlimited_ok _
  | arith op x y =>
    apply (s.read_unlimited pc _).bind
    intro source
    apply (s.read_unlimited pc _).bind
    intro target
    split
    · exact (s.write_unlimited pc _ _).bind fun _ => unlimited_ok _
    · intro limit
      simp
  | cmp x y =>
    apply (s.read_unlimited pc _).bind
    intro right
    exact (s.read_unlimited pc _).bind fun _ => unlimited_ok _
  | jump x | jumpIf condition x => exact (m.destination_unlimited pc s x).bind fun _ => unlimited_ok _
  | call x =>
    apply (m.destination_unlimited pc s x).bind
    intro target
    exact (s.push_unlimited pc _).bind fun _ => unlimited_ok _

theorem step_unlimited (s : State) : Unlimited (m.step s) := by
  unfold step
  dsimp only
  split
  · intro limit
    simp
  · exact m.execute_unlimited _ _ _

theorem start_unlimited (args : List Word) : Unlimited (m.start args) := by
  have pushed : ∀ (words : List Word) (s : State),
      Unlimited (words.foldlM (fun s arg => s.push (m.entry - 1) arg) s) := by
    intro words
    induction words with
    | nil => exact fun s => unlimited_ok s
    | cons word rest ih =>
      intro s
      rw [List.foldlM_cons]
      exact (s.push_unlimited _ word).bind ih
  exact (pushed _ _).bind fun s => s.push_unlimited _ _

/-! ## Two limits -/

/-- The run `long` extends the run `short`, which may take `most` steps in all: it is the same if `short` comes to an
end, and goes on if `short` is cut. -/
inductive Extends (limit most : Nat) (short long : Run) : Prop
  | finished (unlimited : Unlimited short.outcome) (few : short.steps ≤ most) (same : long = short)
  | cut (outcome : short.outcome = .error (.stepLimit limit)) (all : short.steps = most) (more : most ≤ long.steps)
      (later : Unlimited long.outcome → most < long.steps)

/-- A run that comes to an end takes the step in which it does. -/
theorem loop_steps (n k : Nat) (s : State) :
    k ≤ (m.loop n k s).steps ∧ (Unlimited (m.loop n k s).outcome → k < (m.loop n k s).steps) := by
  induction n generalizing k s with
  | zero => exact ⟨Nat.le_refl k, fun unlimited => absurd rfl (unlimited m.limit)⟩
  | succ n ih =>
    rw [loop]
    cases m.step s with
    | error fault => simp
    | ok step =>
      cases step with
      | done last => simp
      | next next =>
        obtain ⟨least, -⟩ := ih (k + 1) next
        dsimp only
        exact ⟨by omega, fun _ => by omega⟩

/-- More steps extend a run. -/
theorem loop_extends (limit n more k : Nat) (s : State) :
    Extends m.limit (k + n) (m.loop n k s) (loop { m with limit } (n + more) k s) := by
  induction n generalizing k s with
  | zero =>
    obtain ⟨least, later⟩ := loop_steps { m with limit } (0 + more) k s
    exact .cut rfl rfl least later
  | succ n ih =>
    have alike : step { m with limit } s = m.step s := rfl
    rw [Nat.succ_add, loop, loop, alike]
    cases taken : m.step s with
    | error fault =>
      refine .finished (fun limit same => m.step_unlimited s limit ?_) (by dsimp only; omega) rfl
      rw [taken]
      exact congrArg Except.error (Except.error.inj same)
    | ok step =>
      cases step with
      | done last => exact .finished (unlimited_ok _) (by dsimp only; omega) rfl
      | next next =>
        have rest := ih (k + 1) next
        rwa [Nat.add_assoc, Nat.add_comm 1 n] at rest

/-- A higher limit extends a run. -/
theorem run_extends (args : List Word) {short long : Nat} (le : short ≤ long) :
    Extends short short (run { m with limit := short } args) (run { m with limit := long } args) := by
  obtain ⟨more, rfl⟩ := Nat.exists_eq_add_of_le le
  have began : start { m with limit := short + more } args = start { m with limit := short } args := rfl
  rw [run, run, began]
  cases started : start { m with limit := short } args with
  | error fault =>
    have unlimited := start_unlimited { m with limit := short } args
    rw [started] at unlimited
    refine .finished (fun limit same => ?_) (Nat.zero_le _) rfl
    exact unlimited limit (congrArg Except.error (Except.error.inj same))
  | ok s =>
    have extended := loop_extends { m with limit := short } (short + more) short more 0 s
    rwa [Nat.zero_add] at extended

/-- No run takes more steps than it may. -/
theorem run_steps_le (args : List Word) : (m.run args).steps ≤ m.limit := by
  cases m.run_extends args (Nat.le_refl m.limit) with
  | finished _ few _ => exact few
  | cut _ all _ _ => exact Nat.le_of_eq all

/-- A run that comes to a result does so under exactly the limits that allow for its steps. -/
theorem ok_iff_steps_le (args : List Word) {limit : Nat} {v : Word}
    (ok : (run { m with limit } args).outcome = .ok v) (other : Nat) :
    (∃ w, (run { m with limit := other } args).outcome = .ok w) ↔ (run { m with limit } args).steps ≤ other := by
  have most : (run { m with limit } args).steps ≤ limit := run_steps_le { m with limit } args
  have finite : Unlimited (run { m with limit } args).outcome := by
    rw [ok]
    exact unlimited_ok v
  rcases Nat.le_total other limit with less | more
  · cases m.run_extends args less with
    | finished _ few same =>
      rw [← same] at few
      exact ⟨fun _ => few, fun _ => ⟨v, same ▸ ok⟩⟩
    | cut outcome _ _ later =>
      have late := later finite
      constructor
      · rintro ⟨w, done⟩
        rw [outcome] at done
        cases done
      · intro few
        omega
  · cases m.run_extends args more with
    | finished _ _ same => exact ⟨fun _ => Nat.le_trans most more, fun _ => ⟨v, same ▸ ok⟩⟩
    | cut outcome _ _ _ =>
      rw [ok] at outcome
      cases outcome

/-- **A step limit only truncates.**  Where the run under the lower limit comes to an end, in a result or a fault, the
run under the higher one is the same; where it is cut, it has taken the steps of its limit, and the other run takes no
fewer.  A run that comes to a result does so under exactly the limits that allow for its steps. -/
theorem limit_truncates (p : Program) (layout : Layout) (words : Nat) (args : List Word) {short long : Nat}
    (le : short ≤ long) :
    let run (limit : Nat) : Run := Machine.run { load p layout with words, limit } args
    ((∀ limit, (run short).outcome ≠ .error (.stepLimit limit)) → run long = run short) ∧
      (∀ limit, (run short).outcome = .error (.stepLimit limit) →
        limit = short ∧ (run short).steps = short ∧ short ≤ (run long).steps) ∧
      ∀ v, (run short).outcome = .ok v →
        ∀ limit, (∃ w, (run limit).outcome = .ok w) ↔ (run short).steps ≤ limit := by
  intro run
  have extended : Extends short short (run short) (run long) :=
    run_extends { load p layout with words } args le
  refine ⟨fun unlimited => ?_, fun limit outcome => ?_, fun v ok limit => ?_⟩
  · cases extended with
    | finished _ _ same => exact same
    | cut outcome _ _ _ => exact absurd outcome (unlimited short)
  · cases extended with
    | finished unlimited _ _ => exact absurd outcome (unlimited limit)
    | cut here all more _ =>
      rw [here] at outcome
      cases outcome
      exact ⟨rfl, all, more⟩
  · exact ok_iff_steps_le { load p layout with words } args ok limit

/-- Three, counted down to nothing. -/
def countdown : Program where
  functions := [{
    name := "main"
    blocks := [{ name := "count", code := [.mov 0 1, .arith .sub 0 2, .cmp 0 3, .jumpIf .notEqual 4, .ret] }] }]
  entry := some "main"
  pool := { operands := #[.reg .result, .imm 3, .imm 1, .imm 0, .label { name := "loop", address := some 1 }] }

/-- It takes eleven steps: five are too few, and any limit from eleven on will do. -/
theorem countdown_truncated :
    let run (limit : Nat) : Run := Machine.run { load countdown {} with words := 4, limit } []
    (run 5).steps = 5 ∧ 5 ≤ (run 20).steps ∧ run 30 = run 20 ∧
      ∀ limit, (∃ w, (run limit).outcome = .ok w) ↔ 11 ≤ limit := by
  intro run
  have cut : (run 5).outcome = .error (.stepLimit 5) := rfl
  have whole : run 20 = ⟨.ok 0, 11⟩ := rfl
  obtain ⟨-, truncated, -⟩ := limit_truncates countdown {} 4 [] (show 5 ≤ 20 by decide)
  obtain ⟨finished, -, succeeds⟩ := limit_truncates countdown {} 4 [] (show 20 ≤ 30 by decide)
  obtain ⟨-, steps, more⟩ := truncated 5 cut
  have result : (run 20).outcome = .ok 0 := congrArg Run.outcome whole
  refine ⟨steps, more, finished fun limit same => ?_, fun limit => ?_⟩
  · cases result.symm.trans same
  · have exactly := succeeds 0 result limit
    rwa [show (run 20).steps = 11 from congrArg Run.steps whole] at exactly

end Codegen86.Machine
