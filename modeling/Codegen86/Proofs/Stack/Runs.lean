import Codegen86.Proofs.Machine.Loaded
import Codegen86.Proofs.Stack.Execution
/-!
# Runs that match returns with calls

A machine that holds a linked program whose instructions lead from stage to stage stops for want of memory,
of steps or of a quotient, if it does not come to a result; and every return is the answer to a call
(`Staged.run`).
-/

set_option autoImplicit false

namespace Codegen86.Stack

open Target Symbolic Machine

variable (m : Machine)

/-- The state before a return: it pops the address that the last call has put there, and the base pointer is
as it was at the call. -/
def Returns (s : State) (pending : List Pending) : Prop :=
  ∃ call ∈ pending.head?, s.stackPointer = call.cell ∧ s.basePointer = call.base ∧
    ∃ next, s.pop s.pc = .ok (call.address, next)

/-- Every return from `s` on, up to `fuel` instructions, that does not fault is the answer to a call. -/
def Matched : Nat → State → List Pending → Prop
  | 0, _, _ => True
  | fuel + 1, s, pending =>
    ∀ i, m.code[s.pc]? = some i →
      (i = .ret → ∀ r, m.step s = .ok r → Returns s pending) ∧
        ∀ next, m.step s = .ok (.next next) →
          Matched fuel next (pendingAfter s.pc s.stackPointer s.basePointer pending i)

/-- Every return of the run on `args` is the answer to a call, or pops the sentinel. -/
def MatchedRun (args : List Word) : Prop :=
  ∀ s, m.start args = .ok s → Matched m m.limit s [⟨s.stackPointer, sentinel, s.basePointer⟩]

/-- A result, or a fault for want of memory, of steps or of a quotient. -/
def Proper : Except Fault Word → Prop
  | .ok _ | .error (.divisionByZero _) | .error (.stackOverflow _) | .error (.invalidAddress _ _)
  | .error (.stepLimit _) => True
  | _ => False

theorem Harmless.proper {t : Trap} (h : Harmless t) (pc : Nat) : Proper (.error (t.at pc)) := by
  cases t <;> trivial

variable {m} {P : Linked} {At : Nat → Stage → Prop} {bottom : Word} {c : Position} {s : State}

/-- What is popped is what the view shows. -/
theorem Answers.returns {pending : List Pending} (h : Answers pending c.view) (shows : Loaded.Exact m s c.view)
    (low : (s.stackPointer.index? s.memory.size).isSome = true) : Returns s pending := by
  obtain ⟨call, head, top, word, base⟩ := h.matched
  obtain ⟨i, cell⟩ := Option.isSome_iff_exists.mp low
  have same : c.view.memory call.cell = s.memory.getD i 0 := by
    refine shows.memory _ i ?_ rfl
    rw [← shows.size, ← top, shows.stackPointer]
    exact cell
  refine ⟨call, head, shows.stackPointer.symm.trans top, shows.basePointer.symm.trans base, ?_⟩
  rw [State.pop, cell, ← word, same]
  exact ⟨_, rfl⟩

theorem top_of_ret {r : Step} (code : m.code[s.pc]? = some .ret) (done : m.step s = .ok r) :
    (s.stackPointer.index? s.memory.size).isSome = true := by
  rw [Machine.step, code] at done
  simp only [Machine.execute, State.pop] at done
  cases top : s.stackPointer.index? s.memory.size with
  | none => simp [top, bind, Except.bind] at done
  | some i => rfl

/-- A run from a sound position. -/
theorem Staged.loop (h : Staged P At) (loaded : Loaded P m) (policy : P.policy = .innermost)
    (address : ∀ pc, P.word pc = Word.ofNat pc) (sound : Sound P At bottom c) (at_ : c.pc = s.pc)
    (shows : Loaded.Exact m s c.view) (fuel k : Nat) :
    Proper (m.loop fuel k s).outcome ∧ Matched m fuel s (pendingOf P bottom c.points) := by
  induction fuel generalizing k s c with
  | zero => exact ⟨trivial, trivial⟩
  | succ fuel ih =>
    obtain ⟨i, here, answers, leads⟩ := h.step loaded.model policy address sound
    have one := loaded.step_linked address at_ shows
    have code : m.code[s.pc]? = some i := by rw [loaded.code_get, ← at_, here]
    have returns : i = .ret → ∀ r, m.step s = .ok r → Returns s (pendingOf P bottom c.points) := by
      rintro rfl r done
      exact (answers rfl).returns shows (top_of_ret code done)
    rw [Machine.loop]
    cases go : P.step c with
    | running d =>
      rw [go] at one leads
      obtain ⟨next, real, pc, now⟩ := one
      obtain ⟨outcome, matched⟩ := ih leads.1 pc now (k + 1)
      rw [leads.2, at_, shows.stackPointer, shows.basePointer] at matched
      simp only [real]
      refine ⟨outcome, fun j found => ?_⟩
      rw [code] at found
      cases found
      refine ⟨returns, fun next' done => ?_⟩
      rw [real] at done
      cases done
      exact matched
    | done v =>
      rw [go] at one
      obtain ⟨last, real, -⟩ := one
      simp only [real]
      refine ⟨trivial, fun j found => ?_⟩
      rw [code] at found
      cases found
      refine ⟨returns, fun next done => ?_⟩
      rw [real] at done
      cases done
    | failed t =>
      rw [go] at one leads
      simp only [one]
      refine ⟨leads.proper s.pc, fun j found => ?_⟩
      rw [code] at found
      cases found
      refine ⟨returns, fun next done => ?_⟩
      rw [one] at done
      cases done
    | stuck =>
      rw [go] at leads
      exact leads.elim

/-- Pushes fail only where the stack is full. -/
theorem pushAll_error {M : Model} {words : List Word} {v : View} {t : Trap}
    (failed : words.foldlM (fun v w => v.push M w) v = .error t) : t = .stackOverflow := by
  induction words generalizing v with
  | nil => cases failed
  | cons w rest ih =>
    rw [List.foldlM_cons] at failed
    rcases push_cases (M := M) v w with full | ⟨-, -, -, pushed⟩
    · rw [full] at failed
      cases failed
      rfl
    · rw [pushed] at failed
      exact ih failed

/-- A call of the entry function begins at a sound position, or finds the stack full. -/
theorem Staged.begins (h : Staged P At) (words : Nat) (args : List Word) :
    match P.startView words args with
    | .ok v => Sound P At v.basePointer { pc := 0, view := v, points := [(v.stackPointer, .out)] }
    | .error t => t = .stackOverflow := by
  unfold Linked.startView
  cases pushed : args.reverse.foldlM (fun v arg => v.push P.model arg) (Linked.emptyView words) with
  | error t => exact pushAll_error pushed
  | ok w =>
    simp only [bind, Except.bind]
    rcases push_cases (M := P.model) w sentinel with full | ⟨-, -, -, last⟩
    · rw [full]
    · rw [last]
      exact ⟨.entered, _, _, _, rfl, h.start, .out (put_self _ _ _), rfl, rfl⟩

/-- A call of the entry function comes to a result, or stops for want of memory, of steps or of a quotient;
and its returns match its calls. -/
theorem Staged.run (h : Staged P At) (loaded : Loaded P m) (policy : P.policy = .innermost)
    (address : ∀ pc, P.word pc = Word.ofNat pc) (entry : m.entry = 0) (args : List Word) :
    Proper (m.run args).outcome ∧ MatchedRun m args := by
  have begins := h.begins m.words args
  have start := loaded.start_same args
  unfold Machine.run MatchedRun
  cases begun : m.start args with
  | error f =>
    cases shown : P.startView m.words args with
    | ok v =>
      rw [begun, shown] at start
      exact start.elim
    | error t =>
      rw [begun, shown] at start
      rw [shown] at begins
      subst begins
      obtain rfl : f = .stackOverflow (m.entry - 1) := start
      exact ⟨trivial, nofun⟩
  | ok s =>
    cases shown : P.startView m.words args with
    | error t =>
      rw [begun, shown] at start
      exact start.elim
    | ok v =>
      rw [begun, shown] at start
      rw [shown] at begins
      obtain ⟨pc, exact_, -⟩ := start
      obtain ⟨outcome, matched⟩ := h.loop loaded policy address begins (by rw [pc, entry]) exact_ m.limit 0
      refine ⟨outcome, fun s' same => ?_⟩
      cases same
      rw [← exact_.stackPointer, ← exact_.basePointer]
      exact matched

end Codegen86.Stack
