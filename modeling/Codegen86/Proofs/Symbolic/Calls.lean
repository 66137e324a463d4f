import Codegen86.Proofs.IR.Semantics
import Codegen86.Proofs.Symbolic.Activations
import Codegen86.Proofs.Words
/-!
# Calls of compiled functions

What a call of a compiled function comes to, in terms of the outcome that the call has in the
intermediate language: the value is in `R0`, stack pointer and base pointer are back, and the words from
the stack pointer upwards are as they were (`Returns`).  In a bounded memory with enough room nothing
else happens but that a division by zero traps; without bounds the stack may overflow.

In a linked program calls are answered like that if the functions called are right from their entry to
their return (`Linked.answered`), and then so is the whole run (`Linked.run_of_entry`).
-/

set_option autoImplicit false

namespace Codegen86.Symbolic

open Target Machine

/-! ## Memory and room on the stack -/

/-- How much memory there is: so many words, or words without end. -/
inductive Memory where
  | bounded (words : Nat)
  | unbounded

namespace Memory

def model : Memory → Bool → Model
  | bounded words, abstracts => .machine words abstracts
  | unbounded, abstracts => .ideal abstracts

/-- No stack pointer is above it. -/
def top : Memory → Nat
  | bounded words => words
  | unbounded => 2 ^ 63 - 1

/-- There is room for `n` more words below a stack pointer. -/
def Spare (m : Memory) (n : Nat) (stackPointer : Word) : Prop :=
  match m with
  | bounded _ => (n : Int) ≤ stackPointer.toInt
  | unbounded => True

instance (m : Memory) (n : Nat) (stackPointer : Word) : Decidable (m.Spare n stackPointer) :=
  match m with
  | bounded _ => inferInstanceAs (Decidable (_ ≤ _))
  | unbounded => inferInstanceAs (Decidable True)

variable {m : Memory} {abstracts : Bool} {n k : Nat} {sp : Word}

theorem Spare.le (h : m.Spare n sp) (le : k ≤ n) : m.Spare k sp := by
  cases m with
  | bounded words =>
    have h : (n : Int) ≤ sp.toInt := h
    show (k : Int) ≤ sp.toInt
    omega
  | unbounded => trivial

/-- Room is left further down. -/
theorem Spare.down (h : m.Spare (n + k) sp) {low : Word} (below : sp.toInt ≤ low.toInt + k) :
    m.Spare n low := by
  cases m with
  | bounded words =>
    have h : ((n + k : Nat) : Int) ≤ sp.toInt := h
    show (n : Int) ≤ low.toInt
    omega
  | unbounded => trivial

/-- From a stack pointer with room below it upwards, there are addresses. -/
theorem Spare.valid (h : m.Spare n sp) {a : Word} (least : sp.toInt ≤ a.toInt)
    (most : a.toInt < m.top) : (m.model abstracts).valid a = true := by
  cases m with
  | bounded words =>
    have h : (n : Int) ≤ sp.toInt := h
    exact Model.machine_valid.mpr (Word.index?_isSome.mpr ⟨by omega, most⟩)
  | unbounded => rfl

theorem toInt_sub_one {a : Word} (positive : 0 < a) :
    (a - 1).toInt = a.toInt - 1 ∧ 0 < a.toInt := by
  have positive : 0 < a.toInt := by simpa [Int64.lt_iff_toInt_lt] using positive
  have := a.toInt_lt
  have one : (1 : Word).toInt = 1 := rfl
  refine ⟨?_, positive⟩
  rw [Word.toInt_sub_of_bounds, one] <;> omega

variable (abstracts) in
/-- With room for a word, a push succeeds, but that in a memory without bounds the stack may
overflow. -/
theorem Spare.push {v : View} (h : m.Spare (n + 1) v.stackPointer)
    (most : v.stackPointer.toInt ≤ m.top) (w : Word) :
    v.push (m.model abstracts) w = .ok { v with
        stackPointer := v.stackPointer - 1
        memory := put v.memory (v.stackPointer - 1) w } ∧ 0 < v.stackPointer.toInt ∧
        (v.stackPointer - 1).toInt = v.stackPointer.toInt - 1 ∧ m.Spare n (v.stackPointer - 1) ∨
      m = .unbounded ∧ v.push (m.model abstracts) w = .error .stackOverflow := by
  by_cases positive : 0 < v.stackPointer
  · obtain ⟨low, positive'⟩ := toInt_sub_one positive
    have spare : m.Spare n (v.stackPointer - 1) := h.down (by omega)
    have valid : (m.model abstracts).valid (v.stackPointer - 1) = true :=
      spare.valid (Int.le_refl _) (by omega)
    refine .inl ⟨?_, positive', low, spare⟩
    simp only [View.push]
    rw [if_pos ⟨positive, valid⟩]
  · cases m with
    | bounded words =>
      have h : ((n + 1 : Nat) : Int) ≤ v.stackPointer.toInt := h
      refine absurd ?_ positive
      rw [Int64.lt_iff_toInt_lt]
      show 0 < v.stackPointer.toInt
      omega
    | unbounded =>
      refine .inr ⟨rfl, ?_⟩
      simp only [View.push]
      rw [if_neg fun h => positive h.1]

end Memory

/-! ## Words on the stack -/

/-- The topmost words of the stack. -/
def View.Stacked (v : View) (words : List Word) : Prop :=
  ∀ i w, words[i]? = some w → v.memory (v.stackPointer + Word.ofNat i) = w

/-- The topmost `n` words of the stack. -/
def View.stackWords (v : View) (n : Nat) : List Word :=
  (List.range n).map fun i => v.memory (v.stackPointer + Word.ofNat i)

theorem View.stackWords_of_stacked {v : View} {words : List Word} (h : v.Stacked words) :
    v.stackWords words.length = words := by
  refine List.ext_getElem (by simp [stackWords]) fun i _ inside => ?_
  simpa [stackWords] using h i words[i] (List.getElem?_eq_getElem inside)

theorem View.stacked_stackWords (v : View) (n : Nat) : v.Stacked (v.stackWords n) := by
  intro i w found
  rw [stackWords, List.getElem?_map] at found
  obtain ⟨j, here, rfl⟩ := Option.map_eq_some_iff.mp found
  obtain ⟨inside, rfl⟩ := List.getElem?_eq_some_iff.mp here
  simp

/-- The place `i` words above the stack pointer. -/
theorem toInt_above {sp : Word} {i top : Nat} (least : 0 ≤ sp.toInt) (most : sp.toInt + i ≤ top)
    (small : top < 2 ^ 63) : (sp + Word.ofNat i).toInt = sp.toInt + i := by
  have place : (Word.ofNat i).toInt = i := Word.toInt_ofNat (by omega)
  rw [Word.toInt_add_of_bounds, place] <;> omega

/-- A word that was pushed is on top of the others. -/
theorem View.Stacked.push {v w : View} {words : List Word} (h : v.Stacked words) {value : Word}
    {top : Nat} (small : top < 2 ^ 63) (most : v.stackPointer.toInt + words.length ≤ top)
    (positive : 0 < v.stackPointer.toInt) (stack : w.stackPointer = v.stackPointer - 1)
    (low : (v.stackPointer - 1).toInt = v.stackPointer.toInt - 1)
    (memory : w.memory = put v.memory (v.stackPointer - 1) value) : w.Stacked (value :: words) := by
  intro i x found
  rw [stack, memory]
  cases i with
  | zero =>
    obtain rfl := Option.some.inj found
    rw [show v.stackPointer - 1 + Word.ofNat 0 = v.stackPointer - 1 from Int64.add_zero _, put_self]
  | succ i =>
    have found : words[i]? = some x := by simpa using found
    have inside := (List.getElem?_eq_some_iff.mp found).1
    have one : Word.ofNat (i + 1) = Word.ofNat i + 1 := Int64.ofNat_add i 1
    have same : v.stackPointer - 1 + Word.ofNat (i + 1) = v.stackPointer + Word.ofNat i := by
      rw [one]
      grind
    have above : (v.stackPointer + Word.ofNat i).toInt = v.stackPointer.toInt + i :=
      toInt_above (by omega) (by omega) small
    rw [same, put_of_ne _ _ fun eq => ?_]
    · exact h i x found
    · rw [eq, low] at above
      omega

/-! ## Entering and leaving a function -/

/-- A state at the entry of a function: the return address is on the stack, above it are the arguments,
and there is room for `n` words. -/
structure Entered (m : Memory) (n : Nat) (args : List Word) (v : View) : Prop where
  spare : m.Spare n v.stackPointer
  least : 0 ≤ v.stackPointer.toInt
  most : v.stackPointer.toInt + 1 + args.length ≤ m.top
  stacked : ∃ back, v.Stacked (back :: args)

theorem Entered.le {m : Memory} {n k : Nat} {args : List Word} {v : View} (h : Entered m n args v) (le : k ≤ n) :
    Entered m k args v := ⟨h.spare.le le, h.least, h.most, h.stacked⟩

/-- A function that was called in state `v` returns in state `w`. -/
structure Returns (r : IR.Result) (v w : View) : Prop where
  defined : r ≠ .divisionByZero
  result : ∀ x, r = .value x → w.general 0 = x
  stackPointer : w.stackPointer = v.stackPointer
  basePointer : w.basePointer = v.basePointer
  memory : ∀ a, v.stackPointer.toInt ≤ a.toInt → w.memory a = v.memory a

namespace Memory

variable (m : Memory)

/-- The traps of a call. -/
def Fails (r : IR.Result) (t : Trap) : Prop :=
  t = .stackOverflow ∧ m = .unbounded ∨ t = .divisionByZero ∧ r = .divisionByZero

/-- What an activation that was entered in state `v` comes to. -/
def Ended (r : IR.Result) (v : View) : Except Trap View → Prop
  | .ok w => Returns r v w
  | .error t => m.Fails r t

/-- What a call in state `v` comes to. -/
def Answers (r : IR.Result) (v : View) : Except Trap View → Prop
  | .ok w => Returns r v w ∧ w.locals = v.locals
  | .error t => m.Fails r t

/-- Calls of the functions of a program, where there is room for `n` words besides the arguments: they
come to what is `known` of them. -/
def calls (source : IR.Program) (known : IR.Calls) (n : Nat) : CallSpec := fun _ l v => do
  let f ← source.function? l.name
  let r ← known l.name (v.stackWords f.arity)
  if m.Spare n v.stackPointer ∧ v.stackPointer.toInt + f.arity ≤ m.top then some (m.Answers r v)
  else none

/-- Calls from an activation with a frame that ends at `bottom`: the arguments are below it. -/
def callsBelow (bottom : Word) (source : IR.Program) (known : IR.Calls) (n : Nat) : CallSpec := fun k l v => do
  let f ← source.function? l.name
  if v.stackPointer.toInt + f.arity ≤ bottom.toInt then m.calls source known n k l v else none

variable {m} {source : IR.Program} {known : IR.Calls} {n : Nat} {bottom : Word}

/-- A call whose arguments are on the stack. -/
theorem calls_eq_some {k : Nat} {l : Label} {v : View} {f : IR.Function} {args : List Word}
    {r : IR.Result} (function : source.function? l.name = some f) (arity : args.length = f.arity)
    (outcome : known l.name args = some r) (stacked : v.Stacked args)
    (spare : m.Spare n v.stackPointer)
    (most : v.stackPointer.toInt + args.length ≤ m.top) :
    m.calls source known n k l v = some (m.Answers r v) := by
  have words := View.stackWords_of_stacked stacked
  rw [arity] at words most
  simp only [calls, function, words, outcome, Option.bind_eq_bind, Option.bind_some]
  exact if_pos ⟨spare, most⟩

theorem of_calls_eq_some {k : Nat} {l : Label} {v : View} {post : Except Trap View → Prop}
    (h : m.calls source known n k l v = some post) :
    ∃ f r, source.function? l.name = some f ∧ known l.name (v.stackWords f.arity) = some r ∧
      m.Spare n v.stackPointer ∧ v.stackPointer.toInt + f.arity ≤ m.top ∧ post = m.Answers r v := by
  obtain ⟨f, function, h⟩ := Option.bind_eq_some_iff.mp h
  obtain ⟨r, outcome, h⟩ := Option.bind_eq_some_iff.mp h
  split at h
  · rename_i room
    exact ⟨f, r, function, outcome, room.1, room.2, (Option.some.inj h).symm⟩
  · cases h

theorem callsBelow_eq {k : Nat} {l : Label} {v : View} {f : IR.Function} (function : source.function? l.name = some f)
    (below : v.stackPointer.toInt + f.arity ≤ bottom.toInt) :
    m.callsBelow bottom source known n k l v = m.calls source known n k l v := by
  simp only [callsBelow, function, Option.bind_eq_bind, Option.bind_some]
  exact if_pos below

theorem of_callsBelow_eq_some {k : Nat} {l : Label} {v : View} {post : Except Trap View → Prop}
    (h : m.callsBelow bottom source known n k l v = some post) :
    m.calls source known n k l v = some post ∧
      ∃ f, source.function? l.name = some f ∧ v.stackPointer.toInt + f.arity ≤ bottom.toInt := by
  obtain ⟨f, function, h⟩ := Option.bind_eq_some_iff.mp h
  split at h
  · rename_i below
    exact ⟨h, f, function, below⟩
  · cases h

end Memory

namespace Linked

variable {P : Linked} {m : Memory} {abstracts : Bool} {source : IR.Program} {known : IR.Calls}
  {n : Nat}

/-- Functions run right from their entry to their return, with room for `n` words. -/
def Enters (P : Linked) (m : Memory) (source : IR.Program) (known : IR.Calls) (n : Nat) : Prop :=
  ∀ l f r args, source.function? l.name = some f → args.length = f.arity →
    known l.name args = some r →
    ∃ a, P.inside (P.calls l) = some a ∧
      ∀ v points, Entered m n args v → P.Leads ⟨a, v, points⟩ (P.Finishes points (m.Ended r v))

/-- A return goes to the last point that was recorded. -/
theorem step_returns (cell : Word) (point : Point) (points : List (Word × Point))
    (policy : P.policy = .innermost) (model : P.model = m.model abstracts) {pc : Nat} {w : View}
    (here : P.code[pc]? = some .ret) (spare : m.Spare n w.stackPointer)
    (inside : w.stackPointer.toInt < m.top) (back : w.memory w.stackPointer = P.wordOf point) :
    P.step ⟨pc, w, (cell, point) :: points⟩ =
      match point with
      | .out => .done { w with stackPointer := w.stackPointer + 1 }
      | .back pc locals =>
        if pc < P.code.length then
          .running ⟨pc, { w with stackPointer := w.stackPointer + 1, locals }, points⟩
        else .stuck := by
  have popped : w.pop P.model = .ok (P.wordOf point, { w with stackPointer := w.stackPointer + 1 }) := by
    simp only [View.pop, model]
    rw [if_pos (spare.valid (Int.le_refl _) inside), back]
  have step : P.step ⟨pc, w, (cell, point) :: points⟩ = P.stepRet ⟨pc, w, (cell, point) :: points⟩ := by
    rw [Linked.step, here]
  rw [step]
  simp only [stepRet, popped, policy, Policy.recall, if_true]
  cases point <;> rfl

/-- Calls are answered by functions that run right. -/
theorem answered (policy : P.policy = .innermost) (model : P.model = m.model abstracts)
    (small : m.top < 2 ^ 63) (enters : P.Enters m source known n) :
    P.Answered (m.calls source known (n + 1)) := by
  intro k l v post spec
  obtain ⟨f, r, function, outcome, spare, most, rfl⟩ := Memory.of_calls_eq_some spec
  have arity : (v.stackWords f.arity).length = f.arity := by simp [View.stackWords]
  obtain ⟨a, inside, runs⟩ := enters l f r _ function arity outcome
  refine ⟨a, inside, fun pc points behind => ?_⟩
  rcases spare.push abstracts (by omega) (P.word (pc + 1)) with
    ⟨pushed, positive, low, spare'⟩ | ⟨rfl, overflow⟩
  · rw [model, pushed]
    dsimp only
    let entry : View := { v with
      stackPointer := v.stackPointer - 1
      memory := put v.memory (v.stackPointer - 1) (P.word (pc + 1))
      locals := fun _ => 0 }
    have stacked : entry.Stacked (P.word (pc + 1) :: v.stackWords f.arity) :=
      (v.stacked_stackWords f.arity).push small (by omega) positive rfl low rfl
    have entered : Entered m n (v.stackWords f.arity) entry := by
      refine ⟨spare', ?_, ?_, _, stacked⟩
      · show 0 ≤ (v.stackPointer - 1).toInt
        omega
      · show (v.stackPointer - 1).toInt + 1 + (v.stackWords f.arity).length ≤ m.top
        omega
    refine (runs entry _ entered).trans fun p finished => ?_
    · cases finished with
      | @returns pc' w here returned =>
        have returned : Returns r entry w := returned
        have top : w.stackPointer = v.stackPointer - 1 := returned.stackPointer
        have back : w.memory w.stackPointer = P.word (pc + 1) := by
          rw [returned.memory w.stackPointer (Int.le_of_eq (by rw [top])), top]
          exact put_self _ _ _
        have step := step_returns (P := P) (n := n) (v.stackPointer - 1)
          (.back (pc + 1) v.locals) points policy model here
          (by rw [top]; exact spare') (by rw [top]; omega) back
        dsimp only at step
        rw [if_pos behind] at step
        refine .step step (.here (.inl ⟨_, rfl, ⟨returned.defined, returned.result, ?_,
          returned.basePointer, fun a above => ?_⟩, rfl⟩))
        · show w.stackPointer + 1 = v.stackPointer
          rw [top]
          grind
        · show w.memory a = v.memory a
          rw [returned.memory a (show (v.stackPointer - 1).toInt ≤ a.toInt by omega)]
          exact put_of_ne _ _ fun eq => by rw [eq] at above; omega
      | traps fails => exact .inr ⟨_, rfl, fails⟩
  · rw [model, overflow]
    exact .inl ⟨rfl, rfl⟩

/-- More is known of calls than of those with their arguments below some word. -/
theorem Answered.below {bottom : Word} (h : P.Answered (m.calls source known n)) :
    P.Answered (m.callsBelow bottom source known n) :=
  fun k l v post spec => h k l v post (Memory.of_callsBelow_eq_some spec).1

/-! ## Whole runs -/

/-- What a whole run comes to. -/
inductive Completes (m : Memory) (r : IR.Result) : Progress → Prop
  | done {w : View} (defined : r ≠ .divisionByZero) (result : ∀ x, r = .value x → w.general 0 = x) :
      Completes m r (.done w)
  | failed {t : Trap} (fails : m.Fails r t) : Completes m r (.failed t)

/-- In a bounded memory a run has the value of the call, or divides by zero as it does. -/
theorem Completes.of_bounded {words : Nat} {r : IR.Result} {progress : Progress}
    (h : Completes (.bounded words) r progress) :
    (∀ x, r = .value x → ∃ v, progress = .done v ∧ v.general 0 = x) ∧
      (r = .divisionByZero → progress = .failed .divisionByZero) := by
  cases h with
  | done defined result => exact ⟨fun x value => ⟨_, rfl, result x value⟩, fun same => absurd same defined⟩
  | failed fails =>
    rcases fails with ⟨-, unbounded⟩ | ⟨rfl, rfl⟩
    · cases unbounded
    · exact ⟨nofun, fun _ => rfl⟩

variable (abstracts) in
/-- Words that are pushed one after another. -/
theorem foldlM_push (small : m.top < 2 ^ 63) (words : List Word) {v : View} {others : List Word}
    (stacked : v.Stacked others) (spare : m.Spare (n + words.length) v.stackPointer)
    (least : words ≠ [] ∨ 0 ≤ v.stackPointer.toInt)
    (most : v.stackPointer.toInt + others.length ≤ m.top) :
    (∃ w, words.foldlM (fun (v : View) x => v.push (m.model abstracts) x) v = .ok w ∧
        w.Stacked (words.reverse ++ others) ∧ m.Spare n w.stackPointer ∧ 0 ≤ w.stackPointer.toInt ∧
        w.stackPointer.toInt + words.length = v.stackPointer.toInt) ∨
      m = .unbounded ∧
        words.foldlM (fun (v : View) x => v.push (m.model abstracts) x) v = .error .stackOverflow := by
  induction words generalizing v others with
  | nil => exact .inl ⟨v, rfl, stacked, spare, least.resolve_left (by simp), by simp⟩
  | cons x rest ih =>
    rw [List.length_cons, show n + (rest.length + 1) = n + rest.length + 1 by omega] at spare
    rcases spare.push abstracts (by omega) x with
      ⟨pushed, positive, low, spare'⟩ | ⟨rfl, overflow⟩
    · have stacked' := stacked.push (w := { v with
        stackPointer := v.stackPointer - 1
        memory := put v.memory (v.stackPointer - 1) x }) small most positive rfl low rfl
      rw [List.foldlM_cons, pushed]
      have size : (x :: others).length = others.length + 1 := rfl
      rcases ih stacked' spare' (.inr (show 0 ≤ (v.stackPointer - 1).toInt by omega))
        (show (v.stackPointer - 1).toInt + (x :: others).length ≤ m.top by omega) with
        ⟨w, all, stacked, spare, least, sum⟩ | ⟨unbounded, overflow⟩
      · refine .inl ⟨w, all, by simpa using stacked, spare, least, ?_⟩
        have sum : w.stackPointer.toInt + rest.length = (v.stackPointer - 1).toInt := sum
        rw [List.length_cons]
        omega
      · exact .inr ⟨unbounded, overflow⟩
    · refine .inr ⟨rfl, ?_⟩
      rw [List.foldlM_cons, overflow]
      rfl

/-- A run from the entry of a function. -/
theorem run_of_enters (policy : P.policy = .innermost) (model : P.model = m.model abstracts)
    (small : m.top < 2 ^ 63) (enters : P.Enters m source known n) {l : Label} {f : IR.Function}
    {args : List Word} {r : IR.Result} (function : source.function? l.name = some f)
    (arity : args.length = f.arity) (outcome : known l.name args = some r) {words : Nat}
    (start : (Word.ofNat words).toInt ≤ m.top)
    (spare : m.Spare (n + (args.length + 1)) (Word.ofNat words)) :
    ∃ a, P.inside (P.calls l) = some a ∧ ∃ count, Completes m r (P.run words args a count) := by
  obtain ⟨a, inside, runs⟩ := enters l f r args function arity outcome
  refine ⟨a, inside, ?_⟩
  have started : P.startView words args = (args.reverse ++ [sentinel]).foldlM
      (fun (v : View) x => v.push (m.model abstracts) x) (emptyView words) := by
    rw [startView, model, List.foldlM_append]
    cases args.reverse.foldlM (fun (v : View) x => v.push (m.model abstracts) x) (emptyView words) with
    | error t => rfl
    | ok v =>
      show v.push _ _ = (v.push _ _).bind pure
      cases v.push (m.model abstracts) sentinel <;> rfl
  have none : (emptyView words).Stacked [] := fun i w found => by simp at found
  rcases foldlM_push abstracts (n := n) (m := m) small (args.reverse ++ [sentinel]) none
    (by rw [List.length_append, List.length_reverse]; exact spare) (.inl (by simp))
    (by rw [List.length_nil, Int.natCast_zero, Int.add_zero]; exact start) with
    ⟨v, pushed, stacked, spare, least, sum⟩ | ⟨unbounded, overflow⟩
  · have stacked : v.Stacked (sentinel :: args) := by simpa using stacked
    have sum : v.stackPointer.toInt + (args.length + 1) = (Word.ofNat words).toInt := by
      simpa [emptyView] using sum
    obtain ⟨count, finished⟩ := runs v [(v.stackPointer, .out)]
      ⟨spare, least, by omega, sentinel, stacked⟩
    have run : ∀ count, P.run words args a count = P.after count ⟨a, v, [(v.stackPointer, .out)]⟩ := by
      intro count
      rw [Linked.run, started, pushed]
    cases reached : P.after count ⟨a, v, [(v.stackPointer, .out)]⟩ with
    | running c =>
      rw [reached] at finished
      cases finished with
      | @returns pc w here returned =>
        have returned : Returns r v w := returned
        have back : w.memory w.stackPointer = P.wordOf .out := by
          rw [returned.memory w.stackPointer (Int.le_of_eq (by rw [returned.stackPointer])),
            returned.stackPointer]
          have first := stacked 0 sentinel rfl
          rwa [show v.stackPointer + Word.ofNat 0 = v.stackPointer from Int64.add_zero _] at first
        have step := step_returns (P := P) (n := n) v.stackPointer .out [] policy model here
          (by rw [returned.stackPointer]; exact spare)
          (by rw [returned.stackPointer]; omega) back
        refine ⟨count + 1, ?_⟩
        rw [run, after_running reached, after, step]
        exact .done returned.defined returned.result
    | failed t =>
      rw [reached] at finished
      cases finished with
      | traps fails =>
        refine ⟨count, ?_⟩
        rw [run, reached]
        exact .failed fails
    | done v =>
      rw [reached] at finished
      cases finished
    | stuck =>
      rw [reached] at finished
      cases finished
  · refine ⟨0, ?_⟩
    rw [Linked.run, started, overflow]
    exact .failed (.inl ⟨rfl, unbounded⟩)

end Linked

end Codegen86.Symbolic
