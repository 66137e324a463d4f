import Codegen86.Proofs.Selection.Scenes
/-!
# Evaluating operations

The code that an operation is lowered to computes what the operation does.
-/

set_option autoImplicit false

namespace Codegen86.Selection

open Target IR Symbolic

variable {A : Scene} {start first : Nat} {s s' t : Lowering} {a : Activation} {u v : View} {x y : ValueId}
  {ref : OperandRef} {w : Word} {offset : Word} {n : Nat} {T : Trap → Prop} {o : Operand}

/-- An operand of an operation is wanted, unless it is a comparison and the operation a branch. -/
theorem Scene.wanted_of_operand (A : Scene) (placed : x ∈ A.context.function.placed)
    (read : y ∈ A.context.function.operandsOf x)
    (other : ∀ onTrue onFalse, A.context.function.op? x ≠ some (.branch y onTrue onFalse)) : A.Wanted y := by
  refine ⟨List.mem_flatMap.mpr ⟨x, placed, read⟩, fun fused => ?_⟩
  obtain ⟨pl, planned⟩ := A.planned
  rw [planned.fused] at fused
  obtain ⟨⟨onTrue, onFalse, branch⟩, -⟩ := planned.placed.fused_read fused placed read
  exact other onTrue onFalse branch

/-! ## Reading -/

/-- Arguments are read where they were pushed. -/
theorem Stored.read_arg (h : Stored A a v) {i : Nat} (param : A.args[i]? = some w) :
    v.read (A.memory.model true) (Calling.argSlot i) = .ok w := by
  have place := Scene.toInt_arg param
  rw [Calling.argSlot, read_slot, h.basePointer, h.above _ (by omega), A.passed i w param]
  rw [h.basePointer]
  exact Scene.valid_arg param

/-- Where a value is read from that no register holds. -/
theorem Stored.read (h : Stored A a v) (source : Lowering.sourceOf A.context x = .ok o) (wanted : A.Wanted x)
    (known : a.values x = some w) : v.read (A.memory.model true) o = .ok w := by
  unfold Lowering.sourceOf at source
  split at source
  · rename_i index param
    cases source
    exact h.read_arg (h.params x index w param known)
  · cases source
  · split at source
    · rename_i offset home
      cases source
      rw [read_slot, h.basePointer, h.homes x offset w home wanted known]
      rw [h.basePointer]
      exact Scene.valid_local (Scene.local_of_entry (Scene.home_mem home))
    · cases source

/-- Something is moved to an abstract register. -/
theorem Stored.load_performs (h : Stored A a v) {k : Nat} {P : View → Prop}
    (target : A.site.pool.get x = .reg (.abstract k))
    (source : v.read (A.memory.model true) (A.site.pool.get y) = .ok w) (p : P { v with locals := put v.locals k w }) :
    Performs A.surroundings T [.mov x y] v P := by
  refine .plain rfl h.within ?_ p
  exact (execute_mov source).trans (by rw [target]; exact write_abstract A.abstracts)

/-- Something is moved to a word of the frame. -/
theorem Stored.store_performs (h : Stored A a v) {P : View → Prop} (reserved : A.site.Local offset)
    (target : A.site.pool.get x = .frameSlot offset)
    (source : v.read (A.memory.model true) (A.site.pool.get y) = .ok w)
    (p : P { v with memory := put v.memory (A.base + offset) w }) :
    Performs A.surroundings T [.mov x y] v P := by
  have valid := Scene.valid_local reserved
  rw [← h.basePointer] at valid p
  refine .plain rfl h.within ?_ p
  exact (execute_mov source).trans (by rw [target]; exact write_slot valid)

theorem Follows.refl (tracks : Tracks A s a v) : Follows A s s a v v := ⟨tracks, fun _ _ has => has, rfl⟩

theorem Follows.trans {p : View} (h : Follows A s t a p u) (h' : Follows A t s' a u v) :
    Follows A s s' a p v :=
  ⟨h'.tracks, fun ref w has => h'.kept ref w (h.kept ref w has), h'.general.trans h.general⟩

/-- A word is moved to a new register. -/
theorem Loaded.performs {c : Context} {least : OperandRef} (h : Loaded c least first s o ref s')
    (le : (s'.site c least).Le A.site) :
    ∃ code, Emits c least first s s' code ∧ ∀ {T a v w}, Tracks A s a v →
      v.read (A.memory.model true) o = .ok w →
      Performs A.surroundings T code v fun u => Follows A s s' a v u ∧ A.Has s'.registers u ref w := by
  obtain ⟨from_, emits, is⟩ := h.emits
  have target := (h.target.mono le).2
  have source := (is.mono le).2
  have next := h.next
  refine ⟨_, emits, fun {T a v w} tracks read => ?_⟩
  refine tracks.toStored.load_performs target (by rw [source]; exact read)
    ⟨⟨tracks.load w h.same (by omega), fun ref' w' has => ?_, rfl⟩, ?_⟩
  · exact has.put w (by omega)
  · exact ⟨s.registers, by omega, target, put_self _ _ _⟩

/-- A register comes to hold the value. -/
theorem resolve_performs (h : Sound A.context A.site.least start first s)
    (ok : s.resolve A.context x = .ok (ref, s')) (covers : A.Covers s') :
    ∃ code, Emits A.context A.site.least first s s' code ∧ ∀ {T a v w}, Tracks A s a v → A.Wanted x →
      a.values x = some w →
      Performs A.surroundings T code v fun u => Follows A s s' a v u ∧ A.Has s'.registers u ref w := by
  cases h.resolved ok with
  | held found same =>
    subst same
    refine ⟨[], .refl _, fun tracks wanted known => .nil ⟨.refl tracks, ?_⟩⟩
    exact tracks.held x ref _ found wanted known
  | @loaded o absent source loads register same =>
    have loaded := load_spec h.holding loads
    rw [← register] at loaded
    have held := loaded.held h.holding.registers
    subst same
    obtain ⟨code, emits, performs⟩ := loaded.performs covers.le
    refine ⟨_, emits.trans (.hold held), fun {T a v w} tracks wanted known => ?_⟩
    rw [List.append_nil]
    refine (performs tracks (tracks.read source wanted known)).mono fun u ⟨follows, has⟩ =>
      ⟨⟨?_, follows.kept, follows.general⟩, has⟩
    refine follows.tracks.hold (x := x) rfl rfl fun w' _ known' => ?_
    rw [known] at known'
    cases known'
    exact has

/-- Registers come to hold values, one after another. -/
theorem resolveAll_performs {values : List ValueId} {refs : List OperandRef}
    (h : Sound A.context A.site.least start first s) (ok : s.resolveAll A.context values = .ok (refs, s'))
    (covers : A.Covers s') :
    ∃ code, Emits A.context A.site.least first s s' code ∧ ∀ {T a v words}, Tracks A s a v →
      (∀ x ∈ values, A.Wanted x) → values.mapM a.values = some words →
      Performs A.surroundings T code v fun u =>
        Follows A s s' a v u ∧ List.Forall₂ (A.Has s'.registers u) refs words := by
  induction values generalizing s refs with
  | nil =>
    cases ok
    refine ⟨[], .refl _, fun tracks _ known => .nil ⟨.refl tracks, ?_⟩⟩
    cases known
    exact .nil
  | cons x rest ih =>
    obtain ⟨⟨ref, t⟩, one, ok⟩ := bind_ok.mp ok
    obtain ⟨⟨others, t'⟩, more, ok⟩ := bind_ok.mp ok
    cases ok
    obtain ⟨code₀, emits₀, -⟩ := resolve_spec h one
    obtain ⟨code', emits', performs'⟩ := ih (h.emits emits₀) more
    obtain ⟨code, emits, performs⟩ := resolve_performs h one (covers.of_grown emits'.grown)
    refine ⟨_, emits.trans emits', fun {T a v words} tracks wanted known => ?_⟩
    rw [List.mapM_cons] at known
    obtain ⟨w, value, known⟩ := Option.bind_eq_some_iff.mp known
    obtain ⟨ws, values, known⟩ := Option.bind_eq_some_iff.mp known
    cases known
    refine (performs tracks (wanted x List.mem_cons_self) value).append fun u ⟨follows, has⟩ => ?_
    refine (performs' follows.tracks (fun y mem => wanted y (List.mem_cons_of_mem _ mem)) values).mono
      fun p ⟨follows', all⟩ => ⟨follows.trans follows', .cons (follows'.kept ref w has) all⟩

/-! ## Defining values -/

theorem define_self (a : Activation) (x : ValueId) (value : Option Word) : (a.define x value).values x = value :=
  if_pos rfl

theorem define_of_ne (a : Activation) (value : Option Word) (ne : y ≠ x) :
    (a.define x value).values y = a.values y := if_neg ne

/-- A value that has no home, or that nothing reads, is not in the frame. -/
theorem Stored.define (h : Stored A a v) (noArg : ∀ i, A.context.function.op? x ≠ some (.arg i))
    (homeless : A.context.plan.homes.lookup x = none ∨ ¬ A.Wanted x) (value : Option Word) :
    Stored A (a.define x value) v := by
  refine { h with params := fun y i w param known => ?_, homes := fun y offset w home wanted known => ?_ }
  · have ne : y ≠ x := fun same => noArg i (same ▸ param)
    exact h.params y i w param (define_of_ne a value ne ▸ known)
  · have ne : y ≠ x := by
      rintro rfl
      rcases homeless with none | unwanted
      · rw [home] at none
        cases none
      · exact unwanted wanted
    exact h.homes y offset w home wanted (define_of_ne a value ne ▸ known)

/-- The home of a value is written. -/
theorem Stored.keep (h : Stored A a v) (noArg : ∀ i, A.context.function.op? x ≠ some (.arg i))
    (home : A.context.plan.homes.lookup x = some offset) {value : Option Word} {word : Word}
    (agrees : ∀ w, value = some w → w = word) :
    Stored A (a.define x value) { v with memory := put v.memory (A.base + offset) word } := by
  have own := Scene.home_mem home
  refine h.written own word (fun y i w param known => ?_) (fun y offset' w home' wanted known => ?_)
    fun y offset' w slot known => .inr ⟨fun eq => Scene.home_ne_slot home slot (congrArg Prod.fst eq).symm, known⟩
  · have ne : y ≠ x := fun same => noArg i (same ▸ param)
    exact h.params y i w param (define_of_ne a value ne ▸ known)
  · by_cases same : y = x
    · subst same
      rw [home] at home'
      cases home'
      rw [define_self] at known
      exact .inl ⟨rfl, agrees w known⟩
    · exact .inr ⟨fun eq => same (congrArg Prod.fst eq), define_of_ne a value same ▸ known⟩

/-- A register holds the new value. -/
theorem Tracks.define (h : Tracks A s a v) {value : Option Word} (stored : Stored A (a.define x value) u)
    (locals : u.locals = v.locals) (held : s'.held = (x, ref) :: s.held)
    (has : ∀ w, value = some w → A.Has s.registers v ref w) (registers : s.registers ≤ s'.registers) :
    Tracks A s' (a.define x value) u := by
  refine { stored with held := fun y ref' w found wanted known => ?_ }
  rw [held, List.lookup_cons] at found
  refine Scene.Has.congr (Scene.Has.mono ?_ registers) locals
  by_cases same : y = x
  · subst same
    rw [beq_self_eq_true] at found
    cases found
    rw [define_self] at known
    exact has w known
  · rw [beq_false_of_ne same] at found
    rw [define_of_ne a value same] at known
    exact h.held y ref' w found wanted known

/-- Nothing reads the new value. -/
theorem Tracks.define_unwanted (h : Tracks A s a v) (noArg : ∀ i, A.context.function.op? x ≠ some (.arg i))
    (unwanted : ¬ A.Wanted x) (value : Option Word) : Tracks A s (a.define x value) v := by
  refine { h.toStored.define noArg (.inr unwanted) value with held := fun y ref' w found wanted known => ?_ }
  have ne : y ≠ x := fun same => unwanted (same ▸ wanted)
  exact h.held y ref' w found wanted (define_of_ne a value ne ▸ known)

/-- A register holds a new value, and so does its home if it has one. -/
theorem define_performs (h : Sound A.context A.site.least start first s)
    (held : (s.site A.context A.site.least).Held first s.registers ref)
    (noArg : ∀ i, A.context.function.op? x ≠ some (.arg i)) (covers : A.Covers (s.define A.context x ref)) :
    ∃ code, Emits A.context A.site.least first s (s.define A.context x ref) code ∧
      ∀ {T a v w} (value : Option Word), Tracks A s a v → A.Has s.registers v ref w →
        (∀ x, value = some x → x = w) →
        Performs A.surroundings T code v (Tracks A (s.define A.context x ref) (a.define x value)) := by
  have holds : Emits A.context A.site.least first s { s with held := (x, ref) :: s.held } [] := .hold held
  unfold Lowering.define at covers ⊢
  dsimp only at covers ⊢
  split
  · rename_i homeless
    refine ⟨_, holds, fun {T a v word} value tracks has agrees => .nil ?_⟩
    exact tracks.define (tracks.toStored.define noArg (.inl homeless) value) rfl rfl
      (fun w known => agrees w known ▸ has) (Nat.le_refl _)
  · rename_i offset home
    simp only [home] at covers
    have kept := h.emits holds
    have reserved : Site.Local (Lowering.site A.context A.site.least _) offset := kept.framed.local (.inl (mem_of_lookup home))
    obtain ⟨slot, stores, is⟩ := storeRegister_spec kept.holding reserved held
    refine ⟨_, holds.trans stores, fun {T a v word} value tracks has agrees => ?_⟩
    have target := (is.mono covers.le).2
    refine tracks.toStored.store_performs (Scene.local_of_entry (Scene.home_mem home)) target has.read ?_
    exact tracks.define (tracks.toStored.keep noArg home agrees) rfl rfl
      (fun w known => agrees w known ▸ has) (Nat.le_refl _)

/-- Something is moved to a new register, which then holds a new value. -/
theorem defineByMove_performs (h : Sound A.context A.site.least start first s)
    (loads : (s.site A.context A.site.least).Loads o) (noArg : ∀ i, A.context.function.op? x ≠ some (.arg i))
    (covers : A.Covers (s.defineByMove A.context x o)) :
    ∃ code, Emits A.context A.site.least first s (s.defineByMove A.context x o) code ∧
      ∀ {T a v w} (value : Option Word), Tracks A s a v → v.read (A.memory.model true) o = .ok w →
        (∀ x, value = some x → x = w) →
        Performs A.surroundings T code v (Tracks A (s.defineByMove A.context x o) (a.define x value)) := by
  have loaded := load_spec h.holding loads
  obtain ⟨from_, emits, -⟩ := loaded.emits
  obtain ⟨code', emits', performs'⟩ :=
    define_performs (h.emits emits) (loaded.held h.holding.registers) noArg covers
  obtain ⟨code, emits, performs⟩ := loaded.performs (covers.of_grown emits'.grown).le
  refine ⟨_, emits.trans emits', fun {T a v word} value tracks read agrees => ?_⟩
  exact (performs tracks read).append fun u ⟨follows, has⟩ => performs' value follows.tracks has agrees

/-! ## Arithmetic -/

/-- A register is copied to a new one, which another register then changes. -/
def combine (c : Context) (s : Lowering) (x : ValueId) (op : Arith) (left right : OperandRef) : Lowering :=
  ((s.freshRegister.2.emit (.mov s.freshRegister.1 left)).emit (.arith op s.freshRegister.1 right)).define c x
    s.freshRegister.1

theorem combine_performs {op : Arith} {left right : OperandRef} (h : Sound A.context A.site.least start first s)
    (held : (s.site A.context A.site.least).Held first s.registers left)
    (held' : (s.site A.context A.site.least).Held first s.registers right)
    (noArg : ∀ i, A.context.function.op? x ≠ some (.arg i)) (covers : A.Covers (combine A.context s x op left right)) :
    ∃ code, Emits A.context A.site.least first s (combine A.context s x op left right) code ∧
      ∀ {T a v wl wr}, Tracks A s a v → A.Has s.registers v left wl → A.Has s.registers v right wr →
        (op.eval wl wr = none → T .divisionByZero) →
        Performs A.surroundings T code v fun u => ∃ w, op.eval wl wr = some w ∧
          Tracks A (combine A.context s x op left right) (a.define x (some w)) u := by
  obtain ⟨copies, target, next, same⟩ := copy_spec h.holding held
  unfold combine at covers ⊢
  generalize s.freshRegister.2.emit (.mov s.freshRegister.1 left) = t at *
  generalize s.freshRegister.1 = register at *
  have kept := h.emits copies
  have result : (t.site A.context A.site.least).Held first t.registers register :=
    ⟨_, h.holding.registers, by omega, target⟩
  have computes : Emits A.context A.site.least first t (t.emit (.arith op register right))
      [.arith op register right] :=
    emit_spec (.arith result (held'.mono copies.le copies.made.next_le))
  obtain ⟨code, defines, performs⟩ :=
    define_performs (kept.emits computes) (result.mono computes.le computes.made.next_le) noArg covers
  have covered : A.Covers t := (covers.of_grown defines.grown).of_grown computes.grown
  refine ⟨_, (copies.trans computes).trans defines, fun {T a v wl wr} tracks hasLeft hasRight traps => ?_⟩
  have is := (target.mono covered.le).2
  rw [List.append_assoc]
  let u : View := { v with locals := put v.locals s.registers wl }
  refine (tracks.toStored.load_performs (P := (· = u)) is hasLeft.read rfl).append fun _ now => ?_
  subst now
  have copied : Tracks A t a u := tracks.load wl same (by omega)
  have value : A.Has t.registers u register wl := ⟨s.registers, by omega, is, put_self _ _ _⟩
  have other : A.Has t.registers u right wr := hasRight.put wl (by omega)
  cases computed : op.eval wl wr with
  | none => exact (Performs.trap rfl copied.within (execute_arith_error value.read other.read computed)
      (traps computed)).append (P := fun _ => False) fun _ => False.elim
  | some w =>
    let u' : View := { v with locals := put v.locals s.registers w }
    refine Performs.append (P := (· = u')) ?_ fun _ now => ?_
    · refine .plain rfl copied.within (w := u') ?_ rfl
      refine (execute_arith value.read other.read computed).trans ?_
      show u.write _ (A.site.pool.get register) w = _
      rw [is, write_abstract A.abstracts, show put u.locals s.registers w = _ from put_put _ _ _ _]
    · subst now
      have changed : Tracks A (t.emit (.arith op register right)) a u' := tracks.load w same (by exact next ▸ Nat.le_succ _)
      refine (performs (some w) changed (w := w) ⟨s.registers, ?_, is, put_self _ _ _⟩ fun _ same =>
        (Option.some.inj same).symm).mono fun p tracks => ⟨w, rfl, tracks⟩
      show s.registers < t.registers
      omega

theorem arith_performs {op : Arith} {l r : ValueId} (h : Sound A.context A.site.least start first s)
    (ok : s.arith A.context x op l r = .ok s') (noArg : ∀ i, A.context.function.op? x ≠ some (.arg i))
    (covers : A.Covers s') :
    ∃ code, Emits A.context A.site.least first s s' code ∧ ∀ {T a v wl wr}, Tracks A s a v →
      A.Wanted l → A.Wanted r → a.values l = some wl → a.values r = some wr →
      (op.eval wl wr = none → T .divisionByZero) →
      Performs A.surroundings T code v fun u => ∃ w, op.eval wl wr = some w ∧ Tracks A s' (a.define x (some w)) u := by
  obtain ⟨⟨left, t⟩, one, ok⟩ := bind_ok.mp ok
  obtain ⟨⟨right, t'⟩, two, ok⟩ := bind_ok.mp ok
  obtain rfl : s' = combine A.context t' x op left right := (Except.ok.inj ok).symm
  obtain ⟨_, emits₁, held⟩ := resolve_spec h one
  have kept := h.emits emits₁
  obtain ⟨_, emits₂, held'⟩ := resolve_spec kept two
  obtain ⟨code₃, emits₃, performs₃⟩ := combine_performs (kept.emits emits₂)
    (held.mono emits₂.le emits₂.made.next_le) held' noArg covers
  have covers₂ := covers.of_grown emits₃.grown
  obtain ⟨code₂, emits₂, performs₂⟩ := resolve_performs kept two covers₂
  obtain ⟨code₁, emits₁, performs₁⟩ := resolve_performs h one (covers₂.of_grown emits₂.grown)
  refine ⟨_, (emits₁.trans emits₂).trans emits₃,
    fun {T a v wl wr} tracks wantedLeft wantedRight valueLeft valueRight traps => ?_⟩
  rw [List.append_assoc]
  refine (performs₁ tracks wantedLeft valueLeft).append fun u₁ ⟨follows₁, has₁⟩ => ?_
  refine (performs₂ follows₁.tracks wantedRight valueRight).append fun u₂ ⟨follows₂, has₂⟩ => ?_
  exact performs₃ follows₂.tracks (follows₂.kept left wl has₁) has₂ traps

/-! ## Local variables -/

/-- A local variable is given contents, or none. -/
def assign (a : Activation) (x : ValueId) (cell : Option Word) : Activation :=
  { a with cells := fun y => if y = x then cell else a.cells y }

theorem assign_self (a : Activation) (x : ValueId) (cell : Option Word) : (assign a x cell).cells x = cell :=
  if_pos rfl

theorem assign_of_ne (a : Activation) (cell : Option Word) (ne : y ≠ x) : (assign a x cell).cells y = a.cells y :=
  if_neg ne

theorem store_eq_assign (a : Activation) (x : ValueId) (w : Word) :
    a.store x w = assign a x ((a.cells x).map fun _ => w) := by
  refine congrArg (Activation.mk a.values) (funext fun y => ?_)
  by_cases same : y = x
  · rw [same]
  · rw [if_neg same, if_neg same]

/-- The slot of a local variable is written. -/
theorem Stored.assign (h : Stored A a v) (slot : A.slots.lookup x = some offset) {cell : Option Word} {word : Word}
    (agrees : ∀ w, cell = some w → w = word) :
    Stored A (assign a x cell) { v with memory := put v.memory (A.base + offset) word } := by
  refine h.written (Scene.slot_mem slot) word h.params (fun y offset' w home wanted known =>
    .inr ⟨fun eq => Scene.home_ne_slot home slot (congrArg Prod.fst eq), known⟩) fun y offset' w slot' known => ?_
  by_cases same : y = x
  · subst same
    rw [slot] at slot'
    cases slot'
    exact .inl ⟨rfl, agrees w (assign_self a y cell ▸ known)⟩
  · exact .inr ⟨fun eq => same (congrArg Prod.fst eq), assign_of_ne a cell same ▸ known⟩

theorem Tracks.assign (h : Tracks A s a v) (slot : A.slots.lookup x = some offset) {cell : Option Word} {word : Word}
    (agrees : ∀ w, cell = some w → w = word) :
    Tracks A s (Selection.assign a x cell) { v with memory := put v.memory (A.base + offset) word } :=
  { h.toStored.assign slot agrees with held := h.held }

theorem alloca_performs {bytes : Nat} (h : Sound A.context A.site.least start first s)
    (ok : s.alloca A.context x bytes = .ok s') (covers : A.Covers s') :
    ∃ code, s'.name = s.name ∧ s'.code.toList = s.code.toList ++ code ∧ ∀ {T a v}, Tracks A s a v →
      Performs A.surroundings T code v (Tracks A s' (a.allocate x)) := by
  unfold Lowering.alloca at ok
  split at ok
  · cases ok
  · rename_i offset frame reserved
    unfold Frame.reserveBytes? at reserved
    split at reserved
    · cases reserved
    · obtain ⟨sound, -, place⟩ := reserve_sound (v := x) h
      obtain ⟨slot, source, stores, is, is'⟩ := emitStore_spec 0 sound.holding place
      obtain ⟨rfl, rfl⟩ := Prod.mk.inj (Option.some.inj reserved)
      obtain rfl := Except.ok.inj ok
      refine ⟨_, stores.name, stores.added, fun {T a v} tracks => ?_⟩
      have listed : A.slots.lookup x = some s.frame.reserve.1 :=
        covers.slot ((congrArg (List.lookup x) stores.slots).trans (List.lookup_cons_self))
      refine tracks.toStored.store_performs (w := 0) (Scene.local_of_entry (Scene.slot_mem listed))
        (is.mono covers.le).2 (by rw [(is'.mono covers.le).2]; rfl) ?_
      have zero : ∀ w, some (0 : Word) = some w → w = 0 := fun w known => (Option.some.inj known).symm
      exact (tracks.assign listed zero).congr rfl stores.made.next_le

theorem load_performs {addr : ValueId} (h : Sound A.context A.site.least start first s) {mnemonic : String}
    (slot : s.slotOf A.context addr mnemonic = .ok offset) (noArg : ∀ i, A.context.function.op? x ≠ some (.arg i))
    (covers : A.Covers (s.defineByMove A.context x (.frameSlot offset))) :
    ∃ code, Emits A.context A.site.least first s (s.defineByMove A.context x (.frameSlot offset)) code ∧
      ∀ {T a v w}, Tracks A s a v → a.cells addr = some w → Performs A.surroundings T code v
        (Tracks A (s.defineByMove A.context x (.frameSlot offset)) (a.define x (some w))) := by
  obtain ⟨slot, reserved⟩ := slotOf_spec h slot
  obtain ⟨code, emits, performs⟩ := defineByMove_performs h (.slot reserved) noArg covers
  refine ⟨code, emits, fun {T a v w} tracks known => ?_⟩
  have listed := (covers.of_grown emits.grown).slot slot
  refine performs (w := w) (some w) tracks ?_ fun _ same => (Option.some.inj same).symm
  have valid := Scene.valid_local (Scene.local_of_entry (Scene.slot_mem listed))
  rw [← tracks.basePointer] at valid
  rw [read_slot valid, tracks.basePointer, tracks.cells addr offset w listed known]

theorem store_performs {addr value : ValueId} (h : Sound A.context A.site.least start first s)
    (ok : s.store A.context addr value = .ok s') (covers : A.Covers s') :
    ∃ code, Emits A.context A.site.least first s s' code ∧ ∀ {T a v w}, Tracks A s a v → A.Wanted value →
      a.values value = some w → Performs A.surroundings T code v (Tracks A s' (a.store addr w)) := by
  obtain ⟨offset, slot, ok⟩ := bind_ok.mp ok
  obtain ⟨⟨source, t⟩, one, ok⟩ := bind_ok.mp ok
  cases ok
  obtain ⟨_, emits, held⟩ := resolve_spec h one
  obtain ⟨slot, reserved⟩ := slotOf_spec h slot
  obtain ⟨place, stores, is⟩ := storeRegister_spec (h.emits emits).holding (reserved.mono emits.le) held
  have covered : A.Covers t := covers.of_grown stores.grown
  obtain ⟨code, emits, performs⟩ := resolve_performs h one covered
  refine ⟨_, emits.trans stores, fun {T a v w} tracks wanted known => ?_⟩
  refine (performs tracks wanted known).append fun u ⟨follows, has⟩ => ?_
  have listed := (covered.of_grown emits.grown).slot slot
  refine follows.tracks.toStored.store_performs (Scene.local_of_entry (Scene.slot_mem listed))
    (is.mono covers.le).2 has.read ?_
  rw [store_eq_assign]
  refine (follows.tracks.assign listed fun w' kept => ?_).congr rfl stores.made.next_le
  obtain ⟨_, -, same⟩ := Option.map_eq_some_iff.mp kept
  exact same.symm

end Codegen86.Selection
