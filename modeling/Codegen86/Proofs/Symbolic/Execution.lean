import Codegen86.Proofs.Symbolic.Code
/-!
# Executing a block by itself

`execute` runs the code of one block: it gives how the block is left, in which state, and the states on
the way.  The calls of a block are not executed; what the `k`th call comes to, if it is to label `l`, is
given from outside.  An execution and `Runs` say the same (`runs_of_execute`, `execute_of_runs`).
-/

set_option autoImplicit false

namespace Codegen86.Symbolic

open Target

/-- What a call leaves behind: `R0` and the flags, the other general registers, and the words below the
stack pointer. -/
structure Returned where
  result : Word
  flags : Ordering
  general : Nat → Word
  below : Word → Word

/-- The state after a call. -/
def View.afterCall (v : View) (r : Returned) : View :=
  { v with
    general := fun i => if i = 0 then r.result else r.general i
    flags := r.flags
    memory := fun a => if a < v.stackPointer then r.below a else v.memory a }

/-- How a block was executed; `visited` are the states at its instructions and at its end. -/
structure Execution where
  visited : List View
  exit : Exit
  final : View

namespace Execution

/-- Nothing is executed. -/
def stop (exit : Exit) (v : View) : Execution := { visited := [v], exit, final := v }

/-- The state at an instruction comes first. -/
def at_ (v : View) (e : Execution) : Execution := { e with visited := v :: e.visited }

end Execution

/-- Execute code from `v`, after `k` calls; `none` if something goes wrong. -/
def execute (M : Model) (pool : Pool) (calls : Nat → Label → Returned) (k : Nat) (v : View) :
    List Instruction → Option Execution
  | [] => some (.stop .fallThrough v)
  | .ret :: _ => some (.stop .ret v)
  | .halt :: _ => some (.stop .halt v)
  | .jump x :: _ => (pool.get x).label?.map fun l => .stop (.jump l) v
  | .jumpIf c x :: rest => do
    let l ← (pool.get x).label?
    if c.holds v.flags then return .stop (.jump l) v
    else return (← execute M pool calls k v rest).at_ v
  | .call x :: rest => do
    let l ← (pool.get x).label?
    return (← execute M pool calls (k + 1) (v.afterCall (calls k l)) rest).at_ v
  | i :: rest =>
    match v.execute M pool i with
    | .ok w => (execute M pool calls k w rest).map (·.at_ v)
    | .error _ => none

/-- The calls that come to what is given. -/
def callsTo (calls : Nat → Label → Returned) : CallSpec :=
  fun k l v => some fun r => r = .ok (v.afterCall (calls k l))

variable {M : Model} {pool : Pool} {calls : Nat → Label → Returned} {k : Nat} {v : View}

theorem label?_eq_some {o : Operand} {l : Label} : o.label? = some l ↔ o = .label l := by
  cases o <;> simp [Operand.label?]

theorem execute_plain {i : Instruction} {rest : List Instruction} (plain : i.isPlain = true) :
    execute M pool calls k v (i :: rest) =
      match v.execute M pool i with
      | .ok w => (execute M pool calls k w rest).map (·.at_ v)
      | .error _ => none := by
  cases i <;> first | rfl | cases plain

/-- An execution is a run that ends as it does, through the states that it visits. -/
theorem runs_of_execute {within : View → Prop} {code : List Instruction} {e : Execution}
    (done : execute M pool calls k v code = some e) (inside : ∀ w ∈ e.visited, within w) :
    Runs { model := M, pool, within, calls := callsTo calls } k code v
      fun exit w => exit = e.exit ∧ w = e.final ∧ ∀ t, exit ≠ .trap t := by
  induction code generalizing k v e with
  | nil =>
    cases done
    exact Runs.nil_iff.mpr ⟨inside v List.mem_cons_self, rfl, rfl, nofun⟩
  | cons i rest ih =>
    have later : ∀ {k w e'}, execute M pool calls k w rest = some e' → e = e'.at_ v →
        within v ∧ Runs { model := M, pool, within, calls := callsTo calls } k rest w
          fun exit w => exit = e.exit ∧ w = e.final ∧ ∀ t, exit ≠ .trap t := by
      rintro k w e' ran rfl
      have inside : ∀ w ∈ v :: e'.visited, within w := inside
      exact ⟨inside v List.mem_cons_self,
        ih (e := e') ran fun w mem => inside w (List.mem_cons_of_mem _ mem)⟩
    by_cases plain : i.isPlain = true
    · rw [execute_plain plain] at done
      rw [Runs.plain_iff plain]
      cases ran : v.execute M pool i with
      | error t => simp [ran] at done
      | ok w =>
        rw [ran] at done
        obtain ⟨e', done', eq⟩ := Option.map_eq_some_iff.mp done
        exact later done' eq.symm
    · cases i with
      | ret =>
        cases done
        exact Runs.ret_iff.mpr ⟨inside v List.mem_cons_self, rfl, rfl, nofun⟩
      | halt =>
        cases done
        exact Runs.halt_iff.mpr ⟨inside v List.mem_cons_self, rfl, rfl, nofun⟩
      | jump x =>
        obtain ⟨l, label, rfl⟩ := Option.map_eq_some_iff.mp done
        exact Runs.jump_iff.mpr
          ⟨inside v List.mem_cons_self, l, label?_eq_some.mp label, rfl, rfl, nofun⟩
      | jumpIf c x =>
        obtain ⟨l, label, done⟩ := Option.bind_eq_some_iff.mp done
        by_cases taken : c.holds v.flags = true
        · rw [if_pos taken] at done
          cases done
          refine Runs.jumpIf_iff.mpr
            ⟨inside v List.mem_cons_self, l, label?_eq_some.mp label, ?_⟩
          rw [if_pos taken]
          exact ⟨rfl, rfl, nofun⟩
        · rw [if_neg taken] at done
          obtain ⟨e', done', eq⟩ := Option.bind_eq_some_iff.mp done
          cases eq
          obtain ⟨here, next⟩ := later done' rfl
          refine Runs.jumpIf_iff.mpr ⟨here, l, label?_eq_some.mp label, ?_⟩
          rw [if_neg taken]
          exact next
      | call x =>
        obtain ⟨l, label, done⟩ := Option.bind_eq_some_iff.mp done
        obtain ⟨e', done', eq⟩ := Option.bind_eq_some_iff.mp done
        cases eq
        obtain ⟨here, next⟩ := later done' rfl
        refine Runs.call_iff.mpr ⟨here, l, _, label?_eq_some.mp label, rfl, ?_⟩
        rintro r rfl
        exact next
      | _ => exact absurd rfl plain

/-- A run that cannot end in a trap is an execution. -/
theorem execute_of_runs {within : View → Prop} {code : List Instruction} {Q : Exit → View → Prop}
    (runs : Runs { model := M, pool, within, calls := callsTo calls } k code v Q)
    (safe : ∀ t w, ¬ Q (.trap t) w) :
    ∃ e, execute M pool calls k v code = some e ∧ Q e.exit e.final := by
  induction code generalizing k v with
  | nil => exact ⟨_, rfl, (Runs.nil_iff.mp runs).2⟩
  | cons i rest ih =>
    by_cases plain : i.isPlain = true
    · obtain ⟨-, next⟩ := (Runs.plain_iff plain).mp runs
      rw [execute_plain plain]
      dsimp only at next
      cases ran : v.execute M pool i with
      | error t =>
        rw [ran] at next
        exact absurd next (safe t v)
      | ok w =>
        rw [ran] at next
        obtain ⟨e, done, q⟩ := ih next
        exact ⟨e.at_ v, by simp [done], q⟩
    · cases i with
      | ret => exact ⟨_, rfl, (Runs.ret_iff.mp runs).2⟩
      | halt => exact ⟨_, rfl, (Runs.halt_iff.mp runs).2⟩
      | jump x =>
        obtain ⟨-, l, label, q⟩ := Runs.jump_iff.mp runs
        dsimp only at label
        exact ⟨.stop (.jump l) v, by rw [execute, label]; rfl, q⟩
      | jumpIf c x =>
        obtain ⟨-, l, label, next⟩ := Runs.jumpIf_iff.mp runs
        dsimp only at label
        by_cases taken : c.holds v.flags = true
        · rw [if_pos taken] at next
          refine ⟨.stop (.jump l) v, ?_, next⟩
          simp [execute, label, Operand.label?, taken]
        · rw [if_neg taken] at next
          obtain ⟨e, done, q⟩ := ih next
          refine ⟨e.at_ v, ?_, q⟩
          simp [execute, label, Operand.label?, taken, done]
      | call x =>
        obtain ⟨-, l, post, label, spec, next⟩ := Runs.call_iff.mp runs
        dsimp only at label
        cases spec
        obtain ⟨e, done, q⟩ := ih (next _ rfl)
        refine ⟨e.at_ v, ?_, q⟩
        simp [execute, label, Operand.label?, done]
      | _ => exact absurd rfl plain

/-- What every step and every call keeps holds all the way. -/
theorem execute_invariant {P : View → Prop} {code : List Instruction} {e : Execution}
    (done : execute M pool calls k v code = some e) (start : P v)
    (step : ∀ i ∈ code, ∀ {v w : View}, P v → v.execute M pool i = .ok w → P w)
    (call : ∀ {v : View} (r : Returned), P v → P (v.afterCall r)) :
    (∀ w ∈ e.visited, P w) ∧ P e.final := by
  induction code generalizing k v e with
  | nil =>
    cases done
    exact ⟨by simpa [Execution.stop] using start, start⟩
  | cons i rest ih =>
    have stops : ∀ exit, e = .stop exit v → (∀ w ∈ e.visited, P w) ∧ P e.final := by
      rintro exit rfl
      exact ⟨by simpa [Execution.stop] using start, start⟩
    have goes : ∀ {k w e'}, execute M pool calls k w rest = some e' → P w → e = e'.at_ v →
        (∀ w ∈ e.visited, P w) ∧ P e.final := by
      rintro k w e' ran next rfl
      obtain ⟨visited, final⟩ := ih ran next fun j mem => step j (List.mem_cons_of_mem _ mem)
      refine ⟨fun x mem => ?_, final⟩
      rcases List.mem_cons.mp mem with rfl | mem
      · exact start
      · exact visited x mem
    by_cases plain : i.isPlain = true
    · rw [execute_plain plain] at done
      cases ran : v.execute M pool i with
      | error t => simp [ran] at done
      | ok w =>
        rw [ran] at done
        obtain ⟨e', done', eq⟩ := Option.map_eq_some_iff.mp done
        exact goes done' (step i List.mem_cons_self start ran) eq.symm
    · cases i with
      | ret => exact stops _ (Option.some.inj done).symm
      | halt => exact stops _ (Option.some.inj done).symm
      | jump x =>
        obtain ⟨l, -, eq⟩ := Option.map_eq_some_iff.mp done
        exact stops _ eq.symm
      | jumpIf c x =>
        obtain ⟨l, -, done⟩ := Option.bind_eq_some_iff.mp done
        by_cases taken : c.holds v.flags = true
        · rw [if_pos taken] at done
          exact stops _ (Option.some.inj done).symm
        · rw [if_neg taken] at done
          obtain ⟨e', done', eq⟩ := Option.bind_eq_some_iff.mp done
          exact goes done' start (Option.some.inj eq).symm
      | call x =>
        obtain ⟨l, -, done⟩ := Option.bind_eq_some_iff.mp done
        obtain ⟨e', done', eq⟩ := Option.bind_eq_some_iff.mp done
        exact goes done' (call _ start) (Option.some.inj eq).symm
      | _ => exact absurd rfl plain

end Codegen86.Symbolic
