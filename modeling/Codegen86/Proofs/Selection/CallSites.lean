import Codegen86.Proofs.Selection.Evaluation
/-!
# Calls in lowered functions

The arguments of a call are pushed one after another, last to first, and wait on the stack below the frame
(`Waits`).  The function called leaves the words from the stack pointer upwards alone, and the arguments are
dropped; a value that it returned is moved to a register if anything reads it (`call_performs`).
-/

set_option autoImplicit false

namespace Codegen86.Selection

open Target IR Symbolic

variable {A : Scene} {start first : Nat} {s s' : Lowering} {a : Activation} {u v : View} {x : ValueId}
  {ref : OperandRef} {refs : List OperandRef} {w : Word} {words others : List Word} {n k : Nat}
  {T : Trap → Prop} {r : IR.Result}

/-- The stack pointer is `k` words below the frame; apart from that `u` is as `v` was, as far as it matters. -/
structure Under (A : Scene) (k : Nat) (v u : View) : Prop where
  basePointer : u.basePointer = A.base
  locals : u.locals = v.locals
  top : u.stackPointer.toInt + k = A.bottom.toInt
  memory : ∀ address, A.bottom.toInt ≤ address.toInt → u.memory address = v.memory address

/-- The words wait on the stack. -/
structure Waits (A : Scene) (words : List Word) (v u : View) : Prop extends Under A words.length v u where
  stacked : u.Stacked words

namespace Under

theorem of_stored (h : Stored A a v) : Under A 0 v v where
  basePointer := h.basePointer
  locals := rfl
  top := by rw [h.stackPointer]; simp
  memory _ _ := rfl

theorem within (h : Under A k v u) : A.Within u := by
  have top := h.top
  have bottom := A.toInt_bottom
  exact ⟨h.basePointer, by omega⟩

/-- There is room left further down. -/
theorem spare (h : Under A k v u) {m : Nat} (few : k + m ≤ A.widest) :
    A.memory.Spare (A.room + 1 + m) u.stackPointer := by
  have top := h.top
  refine Memory.Spare.down (k := k) (A.spare.le ?_) ?_
  · omega
  · rw [← Scene.bottom]
    omega

theorem toInt_le (h : Under A k v u) : u.stackPointer.toInt + k ≤ A.memory.top := by
  have top := h.top
  have bottom := A.toInt_bottom
  have most := A.most
  omega

/-- When the stack pointer is back, the activation is as it was. -/
theorem tracks (h : Under A 0 v u) (tracks : Tracks A s a v) : Tracks A s a u := by
  have stack : u.stackPointer = A.bottom := Int64.toInt_inj.mp (by have := h.top; simpa using this)
  have bottom := A.toInt_bottom
  have fits := A.fits
  refine { tracks.toStored.congr (h.basePointer.trans tracks.basePointer.symm)
    (stack.trans tracks.stackPointer.symm) fun address high => h.memory address (by omega) with
    held := fun y ref w found wanted known => (tracks.held y ref w found wanted known).congr h.locals }

/-- Words are dropped. -/
theorem drop (h : Under A k v u) {code : List Instruction} {E : Site} (le : E.Le A.site) (drops : E.Drops k code) :
    Performs A.surroundings T code u fun p => Under A 0 v p ∧ p.general = u.general := by
  cases drops with
  | none empty =>
    subst empty
    exact .nil ⟨h, rfl⟩
  | @some x y full stack amount =>
    have back : u.stackPointer + Word.ofNat k = A.bottom := Word.add_ofNat h.top
    refine .plain rfl h.within (w := { u with stackPointer := A.bottom }) ?_
      ⟨⟨h.basePointer, h.locals, by simp, h.memory⟩, rfl⟩
    refine (execute_arith (a := u.stackPointer) (b := Word.ofNat k) (w := A.bottom) ?_ ?_ ?_).trans ?_
    · show u.read _ (A.site.pool.get x) = _
      rw [(stack.mono le).2]
      rfl
    · show u.read _ (A.site.pool.get y) = _
      rw [(amount.mono le).2]
      rfl
    · exact congrArg some back
    · show u.write _ (A.site.pool.get x) _ = _
      rw [(stack.mono le).2]
      rfl

end Under

namespace Waits

theorem of_stored (h : Stored A a v) : Waits A [] v v :=
  { Under.of_stored h with stacked := fun i w found => by simp at found }

/-- A word is pushed. -/
theorem push (h : Waits A words v u) (few : words.length < A.widest)
    (overflow : A.memory = .unbounded → T .stackOverflow)
    (source : u.read (A.memory.model true) (A.site.pool.get ref) = .ok w) :
    Performs A.surroundings T [.push ref] u (Waits A (w :: words) v) := by
  have top := h.top
  have most := h.toInt_le
  rcases (h.spare (m := 1) few).push true (by omega) w with ⟨pushed, positive, low, -⟩ | ⟨unbounded, fails⟩
  · refine .plain rfl h.within (execute_push source pushed)
      ⟨⟨h.basePointer, h.locals, ?_, fun address high => ?_⟩, h.stacked.push A.bounded most positive rfl low rfl⟩
    · show (u.stackPointer - 1).toInt + (words.length + 1 : Nat) = _
      omega
    · refine (put_of_ne _ _ ?_).trans (h.memory address high)
      rintro rfl
      omega
  · exact .trap rfl h.within (execute_push_error source fails) (overflow unbounded)

/-- Words in registers are pushed one after another. -/
theorem pushes (h : Waits A others v u) (has : List.Forall₂ (A.Has n v) refs words)
    (few : others.length + words.length ≤ A.widest) (overflow : A.memory = .unbounded → T .stackOverflow) :
    Performs A.surroundings T (refs.map .push) u (Waits A (words.reverse ++ others) v) := by
  induction has generalizing others u with
  | nil => exact .nil h
  | @cons ref w refs words one _ ih =>
    rw [List.length_cons] at few
    rw [List.map_cons, List.reverse_cons, List.append_assoc]
    refine (h.push (by omega) overflow (one.congr h.locals).read).cons fun p waits => ?_
    exact ih waits (by rw [List.singleton_append, List.length_cons]; omega)

/-- A function is called with the words as its arguments. -/
theorem call (h : Waits A words v u) {name : String} {f : IR.Function} {label : OperandRef}
    (function : A.context.source.function? name = some f) (arity : words.length = f.arity)
    (outcome : A.known name words = some r) (target : A.site.pool.get label = .symbol name)
    (traps : ∀ t, A.memory.Fails r t → T t) :
    Performs A.surroundings T [.call label] u fun p =>
      Under A words.length v p ∧ r ≠ .divisionByZero ∧ ∀ x, r = .value x → p.general 0 = x := by
  have top := h.top
  have few := A.arities name f function
  have spare : A.memory.Spare (A.room + 1) u.stackPointer := h.spare (m := 0) (by omega)
  refine .call h.within target
    (fun k => (Memory.callsBelow_eq (k := k) (l := { name }) function (arity ▸ Int.le_of_eq top)).trans
      (Memory.calls_eq_some function arity outcome h.stacked spare h.toInt_le))
    (fun p ⟨returned, locals⟩ => ⟨⟨?_, locals.trans h.locals, ?_, fun address high => ?_⟩,
      returned.defined, returned.result⟩) traps
  · exact returned.basePointer.trans h.basePointer
  · rw [returned.stackPointer]
    exact top
  · rw [returned.memory address (by omega)]
    exact h.memory address high

end Waits

/-! ## Whole calls -/

/-- What follows a call, by what it returned. -/
def word? : IR.Result → Option Word
  | .value w => some w
  | _ => none

theorem returned_eq (a : Activation) (x : ValueId) (defined : r ≠ .divisionByZero) :
    a.returned x r = .next (a.define x (word? r)) := by
  cases r with
  | divisionByZero => exact absurd rfl defined
  | _ => rfl

/-- Arguments are pushed and dropped around a call. -/
theorem callSequence_performs (h : Sound A.context A.site.least start first s) {name : String} {f : IR.Function}
    (known : name ∈ s.found) (held : ∀ ref ∈ refs, (s.site A.context A.site.least).Held first s.registers ref)
    (function : A.context.source.function? name = some f) (arity : refs.length = f.arity)
    (same : s.emitSequence (fun pool => Calling.callSequence pool name refs) = s') (covers : A.Covers s') :
    ∃ code, Emits A.context A.site.least first s s' code ∧ ∀ {T a v words r}, Tracks A s a v →
      List.Forall₂ (A.Has s.registers v) refs words → A.known name words = some r →
      (∀ t, A.memory.Fails r t → T t) →
      Performs A.surroundings T code v fun u =>
        Tracks A s' a u ∧ r ≠ .divisionByZero ∧ ∀ x, r = .value x → u.general 0 = x := by
  obtain ⟨s'', label, drop, same', emits, target, drops, kept⟩ := callSequence_spec h.holding known held
  obtain rfl := same.symm.trans same'
  refine ⟨_, emits, fun {T a v words r} tracks has outcome traps => ?_⟩
  have length := has.length_eq
  have few := A.arities name f function
  have pushed : List.Forall₂ (A.Has s.registers v) refs.reverse words.reverse := List.forall₂_reverse_iff.mpr has
  refine ((Waits.of_stored tracks.toStored).pushes pushed (by simp; omega) fun unbounded =>
    traps _ (.inl ⟨rfl, unbounded⟩)).append fun p waits => ?_
  rw [List.reverse_reverse, List.append_nil] at waits
  refine (waits.call function (length.symm.trans arity) outcome (target.mono covers.le).2 traps).cons
    fun q ⟨under, defined, result⟩ => ?_
  rw [← length] at under
  refine (under.drop covers.le drops).mono fun last ⟨under, general⟩ => ⟨?_, defined, fun x value => ?_⟩
  · exact (under.tracks tracks).congr kept emits.made.next_le
  · rw [general]
    exact result x value

theorem resolveAll_length {c : Context} {values : List ValueId} (ok : s.resolveAll c values = .ok (refs, s')) :
    refs.length = values.length := by
  induction values generalizing s refs with
  | nil =>
    cases ok
    rfl
  | cons x rest ih =>
    obtain ⟨⟨ref, t⟩, -, ok⟩ := bind_ok.mp ok
    obtain ⟨⟨others, t'⟩, more, ok⟩ := bind_ok.mp ok
    cases ok
    exact congrArg (· + 1) (ih more)

/-- What is lowered for a call up to its result: the arguments are read, pushed, and dropped behind the call. -/
theorem invocation_performs {name : String} {f : IR.Function} {args : List ValueId} {t : Lowering}
    (h : Sound A.context A.site.least start first s) (function : A.context.source.function? name = some f)
    (arity : args.length = f.arity)
    (all : Lowering.resolveAll A.context { s with toSelector := s.toSelector.find name } args = .ok (refs, t))
    (same : t.emitSequence (fun pool => Calling.callSequence pool name refs) = s') :
    Sound A.context A.site.least start first s' ∧ (A.Covers s' →
      ∃ code, Emits A.context A.site.least first s s' code ∧ ∀ {T a v words r}, Tracks A s a v →
        (∀ y ∈ args, A.Wanted y) → args.mapM a.values = some words → A.known name words = some r →
        (∀ t, A.memory.Fails r t → T t) →
        Performs A.surroundings T code v fun u =>
          Tracks A s' a u ∧ r ≠ .divisionByZero ∧ ∀ x, r = .value x → u.general 0 = x) := by
  obtain ⟨finds, known⟩ := find_spec A.context A.site.least first s
      (show (A.context.source.function? name).isSome = true by rw [function]; rfl)
  have kept := h.emits finds
  obtain ⟨_, emits, held⟩ := resolveAll_spec kept all
  have sound := kept.emits emits
  have called : name ∈ t.found := emits.found.subset known
  have length := (resolveAll_length all).trans arity
  constructor
  · obtain ⟨u, label, drop, same', emits', -⟩ := callSequence_spec sound.holding called held
    obtain rfl := same.symm.trans same'
    exact sound.emits emits'
  · intro covers
    obtain ⟨_, emits', performs'⟩ := callSequence_performs sound called held function length same covers
    obtain ⟨_, emits, performs⟩ := resolveAll_performs kept all (covers.of_grown emits'.grown)
    refine ⟨_, (finds.trans emits).trans emits', fun {T a v words r} tracks wanted values outcome traps => ?_⟩
    rw [List.nil_append]
    refine (performs (tracks.congr rfl finds.made.next_le) wanted values).append fun p ⟨follows, has⟩ => ?_
    exact performs' follows.tracks has outcome traps

/-- A call leads to what its function comes to. -/
theorem call_performs {name : String} {args : List ValueId} (h : Sound A.context A.site.least start first s)
    (ok : s.call A.context x (.direct name) args = .ok s') (noArg : ∀ i, A.context.function.op? x ≠ some (.arg i))
    (covers : A.Covers s') :
    ∃ code, Emits A.context A.site.least first s s' code ∧ ∀ {T a v words r}, Tracks A s a v →
      (∀ y ∈ args, A.Wanted y) → args.mapM a.values = some words → A.known name words = some r →
      (∀ t, A.memory.Fails r t → T t) →
      Performs A.surroundings T code v fun u => r ≠ .divisionByZero ∧ Tracks A s' (a.define x (word? r)) u := by
  unfold Lowering.call at ok
  dsimp only at ok
  split at ok
  · cases ok
  · rename_i f function
    split at ok
    · cases ok
    · rename_i arity
      have arity : args.length = f.arity := (Decidable.not_not.mp arity).symm
      obtain ⟨⟨refs, t⟩, all, ok⟩ := bind_ok.mp ok
      obtain ⟨u, same⟩ : ∃ u, t.emitSequence (fun pool => Calling.callSequence pool name refs) = u := ⟨_, rfl⟩
      obtain ⟨sound, invokes⟩ := invocation_performs h function arity all same
      dsimp only at ok
      rw [same] at ok
      split at ok
      · obtain rfl := Except.ok.inj ok
        obtain ⟨_, defines, moves⟩ := defineByMove_performs sound .result noArg covers
        obtain ⟨_, emits, performs⟩ := invokes (covers.of_grown defines.grown)
        refine ⟨_, emits.trans defines, fun {T a v words r} tracks wanted values outcome traps => ?_⟩
        refine (performs tracks wanted values outcome traps).append fun p ⟨tracks, defined, result⟩ => ?_
        refine (moves (word? r) tracks read_result fun w value => ?_).mono fun q tracks => ⟨defined, tracks⟩
        cases r <;> cases value
        exact (result _ rfl).symm
      · rename_i unread
        obtain rfl := Except.ok.inj ok
        obtain ⟨_, emits, performs⟩ := invokes covers
        refine ⟨_, emits, fun {T a v words r} tracks wanted values outcome traps => ?_⟩
        refine (performs tracks wanted values outcome traps).mono fun p ⟨tracks, defined, _⟩ => ⟨defined, ?_⟩
        exact tracks.define_unwanted noArg (fun wanted => unread (List.contains_iff_mem.mpr wanted.1)) _

end Codegen86.Selection
