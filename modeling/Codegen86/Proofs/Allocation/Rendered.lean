import Codegen86.Proofs.Allocation.Given
import Codegen86.Proofs.Allocation.Idle
/-!
# Allocated code renders the original

Every instruction is given out as its counterpart, and a block as code that `Renders` it.
-/

set_option autoImplicit false

namespace Codegen86.Allocation

open Target

namespace Job

variable {J : Job} {s s' s'' : State} {c : Context} {index r : Nat} {key : Operand}
  {x x' y y' x₁ y₁ : OperandRef}

/-! ## Operands -/

variable (J) in
/-- Code is given out for `code`, and operands may be changed. -/
structure Gives (s s' : State) (code : List Instruction) : Prop where
  tame : J.Tame s'
  keyed : ∀ {x key}, s.keys.lookup x = some key → s'.keys.lookup x = some key
  pool : s.pool.Keeps s'.pool
  slots : s.slots.length ≤ s'.slots.length
  given : ∃ out, s'.out.toList = s.out.toList ++ out ∧ J.Renders s'.pool s'.slots.length code out

theorem Moves.gives (h : J.Moves s s') : J.Gives s s' [] := by
  obtain ⟨moves, out, spare⟩ := h.given
  exact ⟨h.tame, fun found => h.keys ▸ found, h.pool.keeps, h.slots, moves, out, .spares spare⟩

theorem Gives.trans {code code' : List Instruction} (inside : J.Tame s) (used : ∀ i ∈ code, i ∈ J.code)
    (h : J.Gives s s' code) (h' : J.Gives s' s'' code') : J.Gives s s'' (code ++ code') := by
  obtain ⟨out, given, renders⟩ := h.given
  obtain ⟨out', given', renders'⟩ := h'.given
  refine ⟨h'.tame, h'.keyed ∘ h.keyed, h.pool.trans h'.pool, Nat.le_trans h.slots h'.slots, out ++ out',
    by rw [given', given, List.append_assoc],
    (renders.mono h'.pool h'.slots fun i mem x use => ?_).append renders'⟩
  exact Nat.lt_of_lt_of_le (J.inside i (used i mem) x use) (Nat.le_trans inside.size h.pool.size)

/-- What is given out for nothing comes before. -/
theorem Gives.before {code : List Instruction} (inside : J.Tame s) (h : J.Gives s s' [])
    (h' : J.Gives s' s'' code) : J.Gives s s'' code :=
  h.trans inside (fun _ mem => absurd mem List.not_mem_nil) h'

/-- What is given out for nothing comes behind. -/
theorem Gives.behind {code : List Instruction} (inside : J.Tame s) (used : ∀ i ∈ code, i ∈ J.code)
    (h : J.Gives s s' code) (h' : J.Gives s' s'' []) : J.Gives s s'' code := by
  have := h.trans inside used h'
  rwa [List.append_nil] at this

variable (J) in
/-- `x₁` is used for the operand `x` of the block. -/
inductive Refers (s : State) (x x₁ : OperandRef) : Prop
  | same (absent : s.keys.lookup x = none) (eq : x₁ = x)
  | keyed {key : Operand} (found : s.keys.lookup x₁ = some key) (is : J.pool.get x = key)

/-- `x₁` names the abstract register `key`, or the register that took its place. -/
def Names (s : State) (x₁ : OperandRef) (key : Operand) : Prop :=
  s.keys.lookup x₁ = some key ∨ s.keys.lookup x₁ = none ∧ s.pool.get x₁ = key

theorem Tame.current (h : J.Tame s) (inside : x < J.pool.operands.size) : J.Refers s x (s.current x) := by
  rcases State.current_keyed h.retarget x with same | ⟨key, here, there⟩
  · cases found : s.keys.lookup x with
    | none => exact .same found same
    | some key => exact .keyed (by rw [same]; exact found) (h.original inside found)
  · exact .keyed there (h.original inside here)

theorem Tame.names_current (h : J.Tame s) (names : Names s x₁ key) : Names s (s.current x₁) key := by
  rcases State.current_keyed h.retarget x₁ with same | ⟨key', here, there⟩
  · rw [same]
    exact names
  · rcases names with found | ⟨absent, -⟩
    · rw [found] at here
      cases here
      exact .inl there
    · rw [absent] at here
      cases here

/-- An operand goes on being used for what it was. -/
theorem Refers.gives {code : List Instruction} (h : J.Refers s x x₁) (gives : J.Gives s s' code)
    (inside : x < J.pool.operands.size) : J.Refers s' x x₁ := by
  cases h with
  | same absent eq =>
    subst eq
    cases found : s'.keys.lookup x₁ with
    | none => exact .same found rfl
    | some key => exact .keyed found (gives.tame.original inside found)
  | keyed found is => exact .keyed (gives.keyed found) is

theorem Refers.names (h : J.Refers s x x₁) (tame : J.Tame s) (inside : x < J.pool.operands.size) :
    Names s x₁ (J.pool.get x) := by
  cases h with
  | same absent eq =>
    subst eq
    exact .inr ⟨absent, tame.unkeyed inside absent⟩
  | keyed found is => exact .inl (is ▸ found)

/-- An operand has the role that it had. -/
theorem Refers.role (h : J.Refers s x x₁) (tame : J.Tame s) (inside : x < J.pool.operands.size) :
    s.role x₁ = roleOf (J.pool.get x) := by
  rcases h.names tame inside with found | ⟨absent, get⟩
  · simp [State.role, roleOf, found, (tame.keyed found).1]
  · simp only [State.role, roleOf, absent, get]

/-- An operand that is no abstract register is used as it is. -/
theorem Refers.concrete (h : J.Refers s x x₁) (tame : J.Tame s) (inside : x < J.pool.operands.size)
    (concrete : (J.pool.get x).isAbstract = false) : x₁ = x ∧ s.pool.get x = J.pool.get x := by
  cases h with
  | same absent eq => exact ⟨eq, tame.unkeyed inside absent⟩
  | keyed found is =>
    rw [is, (tame.keyed found).1] at concrete
    cases concrete

/-- One more operand names a register in the place of an abstract one. -/
theorem Tame.rekey (h : J.Tame s) {pool : Pool} {retarget : List (OperandRef × OperandRef)}
    (absent : s.keys.lookup y = none) (original : y < J.pool.operands.size → J.pool.get y = key)
    (abstract : key.isAbstract = true) (used : J.Used key) (inside : y < pool.operands.size)
    (is : J.IsRegister (pool.get y)) (size : s.pool.operands.size ≤ pool.operands.size)
    (other : ∀ {z}, z < s.pool.operands.size → z ≠ y → pool.get z = s.pool.get z)
    (moved : ∀ {z w}, retarget.lookup z = some w →
      s.retarget.lookup z = some w ∨ s.keys.lookup z = some key ∧ w = y) :
    J.Tame { s with pool, keys := (y, key) :: s.keys, retarget } where
  residents := h.residents
  dirty := h.dirty
  stocked := h.stocked.grow rfl rfl size
  size := Nat.le_trans h.size size
  keyed {z key'} found := by
    dsimp only at found ⊢
    rw [lookup_cons_ite] at found
    split at found
    · rename_i same
      cases found
      subst same
      exact ⟨abstract, used, inside, is⟩
    · rename_i apart
      obtain ⟨abstract', used', inside', is'⟩ := h.keyed found
      refine ⟨abstract', used', Nat.lt_of_lt_of_le inside' size, ?_⟩
      rwa [other inside' apart]
  unkeyed {z} inside' absent' := by
    dsimp only at absent' ⊢
    rw [lookup_cons_ite] at absent'
    split at absent'
    · cases absent'
    · rename_i apart
      exact (other (Nat.lt_of_lt_of_le inside' h.size) apart).trans (h.unkeyed inside' absent')
  original {z key'} inside' found := by
    dsimp only at found
    rw [lookup_cons_ite] at found
    split at found
    · rename_i same
      cases found
      subst same
      exact original inside'
    · exact h.original inside' found
  retarget {z w} found := by
    dsimp only at found ⊢
    rcases moved found with old | ⟨here, rfl⟩
    · obtain ⟨key', here, there⟩ := h.retarget old
      exact ⟨key', lookup_cons_of_some absent here, lookup_cons_of_some absent there⟩
    · exact ⟨key, lookup_cons_of_some absent here, by rw [lookup_cons_ite, if_pos rfl]⟩

/-- An abstract register comes to stand in a register. -/
theorem attach_gives (h : J.Tame s) (refers : J.Refers s x x₁) (inside : x < J.pool.operands.size)
    (abstract : (J.pool.get x).isAbstract = true) (used : J.Used (J.pool.get x))
    (bounds : 1 ≤ r ∧ r ≤ J.registers) :
    J.Gives s (s.attach x₁ (J.pool.get x) r).2 [] ∧
      J.Replaces (s.attach x₁ (J.pool.get x) r).2.pool x (s.attach x₁ (J.pool.get x) r).1 := by
  have names := h.names_current (refers.names h inside)
  unfold State.attach
  dsimp only
  split
  · rename_i free
    -- the operand still names the abstract register: it is changed
    have absent : s.keys.lookup (s.current x₁) = none := by
      cases found : s.keys.lookup (s.current x₁) with
      | none => rfl
      | some key =>
        rw [((h.keyed found).2.2.2).concrete.1] at free
        cases free
    have there := Pool.inside_of_abstract free
    have get : s.pool.get (s.current x₁) = J.pool.get x :=
      (names.resolve_left fun found => by rw [absent] at found; cases found).2
    have other : ∀ {z}, (s.pool.set (s.current x₁) (.reg (.physical r))).get z =
        if z = s.current x₁ then .reg (.physical r) else s.pool.get z :=
      fun {z} => Pool.get_set _ _ _ there
    have size : (s.pool.set (s.current x₁) (.reg (.physical r))).operands.size =
        s.pool.operands.size := by simp [Pool.set]
    have is : J.IsRegister ((s.pool.set (s.current x₁) (.reg (.physical r))).get (s.current x₁)) := by
      rw [other, if_pos rfl]
      exact isRegister bounds
    have keeps : s.pool.Keeps (s.pool.set (s.current x₁) (.reg (.physical r))) := by
      refine ⟨Nat.le_of_eq size.symm, fun {z} inside concrete => ?_⟩
      rw [other, if_neg]
      rintro rfl
      rw [concrete] at free
      cases free
    refine ⟨⟨h.rekey absent (fun inside => (h.unkeyed inside absent).symm.trans get) abstract used
      (size ▸ there) is (Nat.le_of_eq size.symm) (fun _ apart => other.trans (if_neg apart)) .inl,
      lookup_cons_of_some absent, keeps, Nat.le_refl _, [], by simp, .nil⟩, .register (.inl abstract) (size ▸ there) is⟩
  · rename_i taken
    have found : s.keys.lookup (s.current x₁) = some (J.pool.get x) :=
      names.resolve_right fun free => taken (free.2 ▸ abstract)
    obtain ⟨-, -, there, -⟩ := h.keyed found
    split
    · rename_i same
      exact ⟨(Moves.refl h).gives, .register (.inl abstract) there ⟨r, bounds.1, bounds.2, same⟩⟩
    · -- it names another register: a new operand takes its place
      have grows : s.pool.Grows (s.pool.add (.reg (.physical r))).2 := .add _ _
      have absent : s.keys.lookup s.pool.operands.size = none := by
        cases known : s.keys.lookup s.pool.operands.size with
        | none => rfl
        | some key => exact absurd (h.keyed known).2.2.1 (Nat.lt_irrefl _)
      have is : J.IsRegister ((s.pool.add (.reg (.physical r))).2.get s.pool.operands.size) := by
        rw [Pool.get_size_add]
        exact isRegister bounds
      have inside : s.pool.operands.size < (s.pool.add (.reg (.physical r))).2.operands.size := by simp
      refine ⟨⟨h.rekey absent (fun less => absurd h.size (Nat.not_le_of_gt less)) abstract used inside is
        grows.size (fun less _ => grows.get less) fun {z w} target => ?_,
        lookup_cons_of_some absent, grows.keeps, Nat.le_refl _, [], by simp [State.physical, State.addOperand], .nil⟩,
        .register (.inl abstract) inside is⟩
      rw [List.lookup_cons] at target
      split at target
      · rename_i same
        cases target
        exact .inr ⟨eq_of_beq same ▸ found, rfl⟩
      · exact .inl target

theorem resolve_gives (h : J.Tame s) (refers : J.Refers s x x₁) (inside : x < J.pool.operands.size)
    (abstract : (J.pool.get x).isAbstract = true) (used : J.Used (J.pool.get x))
    (ok : s.resolve c index x₁ (J.pool.get x) = .ok (r, x', s')) :
    J.Gives s s' [] ∧ J.Replaces s'.pool x x' ∧ 1 ≤ r ∧ r ≤ J.registers := by
  obtain ⟨⟨r', t⟩, loaded, ok⟩ := bind_ok.mp ok
  cases ok
  obtain ⟨moves, bounds⟩ := load_moves h loaded
  have pinned : J.Gives s (t.pin r) [] :=
    (⟨moves.tame.unsaid _ _, moves.keys, moves.retarget, moves.pool, moves.slots, moves.given⟩ :
      J.Moves s (t.pin r)).gives
  obtain ⟨gives, replaces⟩ := attach_gives pinned.tame (refers.gives pinned inside) inside abstract used bounds
  exact ⟨pinned.before h gives, replaces, bounds⟩

theorem use_gives (h : J.Tame s) (refers : J.Refers s x x₁) (inside : x < J.pool.operands.size)
    (used : J.Used (J.pool.get x)) (ok : s.use c index x₁ = .ok (x', s')) :
    J.Gives s s' [] ∧ J.Replaces s'.pool x x' := by
  unfold State.use at ok
  rw [refers.role h inside, roleOf] at ok
  split at ok
  · rename_i key role
    split at role
    · rename_i abstract
      cases role
      obtain ⟨⟨r, y, t⟩, resolved, ok⟩ := bind_ok.mp ok
      cases ok
      obtain ⟨gives, replaces, -⟩ := resolve_gives h refers inside abstract used resolved
      exact ⟨gives, replaces⟩
    · split at role <;> cases role
  · rename_i key role
    split at role
    · cases role
    · rename_i concrete
      have concrete : (J.pool.get x).isAbstract = false := by simpa using concrete
      split at role
      · rename_i memory
        cases role
        split at ok
        · rename_i r held
          cases ok
          have bounds := h.register?_le held
          have grows : s.pool.Grows (s.pool.add (.reg (.physical r))).2 := .add _ _
          have tame : J.Tame ((s.pin r).physical r).2 :=
            (h.unsaid s.journal (s.pinned.insert r)).grow rfl id rfl rfl grows (h.stocked.grow rfl rfl grows.size)
          refine ⟨⟨tame, id, grows.keeps, Nat.le_refl _, [], by simp [State.pin], .nil⟩,
            .register (.inr memory) (by simp [State.pin]) ?_⟩
          show J.IsRegister ((s.pool.add (.reg (.physical r))).2.get s.pool.operands.size)
          rw [Pool.get_size_add]
          exact isRegister bounds
        · cases ok
          obtain ⟨same, get⟩ := refers.concrete h inside concrete
          exact ⟨(Moves.refl h).gives, .same same concrete get⟩
      · cases role
  · rename_i role
    split at role
    · cases role
    · rename_i concrete
      cases ok
      obtain ⟨same, get⟩ := refers.concrete h inside (by simpa using concrete)
      exact ⟨(Moves.refl h).gives, .same same (by simpa using concrete) get⟩

/-! ## Instructions -/

/-- An operand of an instruction of the block. -/
theorem used_of_mem {i : Instruction} (mem : i ∈ J.code) (use : x ∈ i.operands) :
    x < J.pool.operands.size ∧ J.Used (J.pool.get x) :=
  ⟨J.inside i mem x use, i, mem, x, use, rfl⟩

theorem emit_gives (h : J.Tame s) {i i' : Instruction} (image : J.Image s.pool i i') :
    J.Gives s (s.emit i') [i] :=
  ⟨⟨h.residents, h.dirty, h.stocked.grow rfl rfl (Nat.le_refl _), h.size, h.keyed, h.unkeyed, h.original,
    h.retarget⟩, id, .refl _, Nat.le_refl _, [i'], by simp [State.emit], .image image .nil⟩

theorem eliminate_gives (h : J.Tame s) (x y : OperandRef) : J.Gives s s.eliminate [.mov x y] := by
  have said := h.unsaid s.journal.recordEliminated s.pinned
  have gives : J.Gives _ s.eliminate [.mov x y] := emit_gives said .dropped
  exact ⟨gives.tame, gives.keyed, gives.pool, gives.slots, gives.given⟩

variable {op : Arith}

/-- An operand that is no abstract register. -/
theorem Refers.replaces (h : J.Refers s x x₁) (tame : J.Tame s) (inside : x < J.pool.operands.size)
    (concrete : (J.pool.get x).isAbstract = false) : J.Replaces s.pool x x₁ := by
  obtain ⟨same, get⟩ := h.concrete tame inside concrete
  exact .same same concrete get

theorem Replaces.later {code : List Instruction} (h : J.Replaces s.pool y y') (tame : J.Tame s)
    (inside : y < J.pool.operands.size) (gives : J.Gives s s' code) : J.Replaces s'.pool y y' :=
  h.mono gives.pool (Nat.lt_of_lt_of_le inside tame.size)

theorem alias_gives (h : J.Tame s) (refers : J.Refers s x x₁) (inside : x < J.pool.operands.size)
    (abstract : (J.pool.get x).isAbstract = true) (used : J.Used (J.pool.get x))
    (bounds : 1 ≤ r ∧ r ≤ J.registers) (y : OperandRef) :
    J.Gives s (s.defineByAlias x₁ (J.pool.get x) r) [.mov x y] := by
  have bound := ((Moves.refl h).then_bind (J.pool.get x) bounds).gives
  obtain ⟨attached, -⟩ := attach_gives bound.tame (refers.gives bound inside) inside abstract used bounds
  exact bound.before h (attached.before bound.tame (eliminate_gives attached.tame x y))

theorem defineByMove_gives (h : J.Tame s) (refers : J.Refers s x x₁) (inside : x < J.pool.operands.size)
    (abstract : (J.pool.get x).isAbstract = true) (used : J.Used (J.pool.get x))
    (insideY : y < J.pool.operands.size) (source : J.Replaces s.pool y y₁)
    (ok : s.defineByMove c index x₁ (J.pool.get x) y₁ = .ok (r, s')) :
    J.Gives s s' [.mov x y] ∧ 1 ≤ r ∧ r ≤ J.registers := by
  obtain ⟨⟨r', t⟩, acquired, ok⟩ := bind_ok.mp ok
  cases ok
  obtain ⟨moves, bounds⟩ := acquire_moves h acquired
  have ready : J.Gives s ((t.pin r).bind (J.pool.get x) r) [] :=
    (⟨(moves.tame.unsaid _ _).bind _ bounds, moves.keys, moves.retarget, moves.pool, moves.slots, moves.given⟩ :
      J.Moves s ((t.pin r).bind (J.pool.get x) r)).gives
  obtain ⟨attached, target⟩ :=
    attach_gives ready.tame (refers.gives ready inside) inside abstract used bounds
  have before := ready.before h attached
  exact ⟨before.before h (emit_gives attached.tame (.mov target (source.later h insideY before))), bounds⟩

theorem moveToRegister_gives (h : J.Tame s) (mem : .mov x y ∈ J.code) (target : J.Refers s x x₁)
    (source : J.Refers s y y₁) (abstract : (J.pool.get x).isAbstract = true)
    (ok : s.moveToRegister c index x₁ (J.pool.get x) y₁ = .ok s') : J.Gives s s' [.mov x y] := by
  obtain ⟨inside, used⟩ := used_of_mem mem (x := x) (by simp [Instruction.operands])
  obtain ⟨insideY, usedY⟩ := used_of_mem mem (x := y) (by simp [Instruction.operands])
  have only : ∀ i ∈ [Instruction.mov x y], i ∈ J.code := fun i one => List.mem_singleton.mp one ▸ mem
  unfold State.moveToRegister at ok
  split at ok
  · cases ok
    exact eliminate_gives h x y
  · rw [source.role h insideY, roleOf] at ok
    split at ok
    · rename_i key role
      split at role
      · rename_i abstractY
        cases role
        obtain ⟨⟨r, z, t⟩, resolved, ok⟩ := bind_ok.mp ok
        cases ok
        obtain ⟨gives, -, bounds⟩ := resolve_gives h source insideY abstractY usedY resolved
        exact gives.before h
          (alias_gives gives.tame (target.gives gives inside) inside abstract used bounds y)
      · split at role <;> cases role
    · rename_i word role
      split at role
      · cases role
      · rename_i concrete
        split at ok
        · rename_i r held
          cases ok
          exact alias_gives h target inside abstract used (h.register?_le held) y
        · obtain ⟨⟨r, t⟩, defined, ok⟩ := bind_ok.mp ok
          obtain ⟨gives, bounds⟩ := defineByMove_gives h target inside abstract used insideY
            (source.replaces h insideY (by simpa using concrete)) defined
          cases ok
          split
          · exact gives.behind h only ((Moves.refl gives.tame).then_bind word bounds).gives
          · exact gives
    · rename_i role
      split at role
      · cases role
      · rename_i concrete
        obtain ⟨⟨r, t⟩, defined, ok⟩ := bind_ok.mp ok
        cases ok
        exact (defineByMove_gives h target inside abstract used insideY
          (source.replaces h insideY (by simpa using concrete)) defined).1

theorem Tame.invalidate (h : J.Tame s) (word : Operand) : J.Gives s (s.invalidate word) [] :=
  (⟨(h.markClean word).unbind word, rfl, rfl, .refl _, Nat.le_refl _, [], by simp [State.invalidate, State.unbind, State.markClean],
    nofun⟩ : J.Moves s (s.invalidate word)).gives

theorem moveToMemory_gives (h : J.Tame s) (mem : .mov x y ∈ J.code) (target : J.Refers s x x₁)
    (source : J.Refers s y y₁) (memory : (J.pool.get x).isMemory = true)
    (ok : s.moveToMemory c index x₁ (J.pool.get x) y₁ = .ok s') : J.Gives s s' [.mov x y] := by
  obtain ⟨inside, -⟩ := used_of_mem mem (x := x) (by simp [Instruction.operands])
  obtain ⟨insideY, usedY⟩ := used_of_mem mem (x := y) (by simp [Instruction.operands])
  have concrete := concrete_of_memory memory
  have stores : ∀ {t : State} {z : OperandRef}, J.Gives s t [] → J.Replaces t.pool y z →
      J.Gives s ((t.invalidate (J.pool.get x)).emit (.mov x₁ z)) [.mov x y] := by
    intro t z gives replaces
    have invalid := gives.tame.invalidate (J.pool.get x)
    refine gives.before h (invalid.before gives.tame (emit_gives invalid.tame (.mov ?_ ?_)))
    · exact ((target.gives gives inside).replaces gives.tame inside concrete).later gives.tame inside invalid
    · exact replaces.later gives.tame insideY invalid
  unfold State.moveToMemory at ok
  rw [source.role h insideY, roleOf] at ok
  split at ok
  · rename_i key role
    split at role
    · rename_i abstractY
      cases role
      obtain ⟨⟨r, z, t⟩, resolved, ok⟩ := bind_ok.mp ok
      obtain ⟨gives, replaces, bounds⟩ := resolve_gives h source insideY abstractY usedY resolved
      cases ok
      split
      · have deferred : J.Tame ((t.bind (J.pool.get x) r).markDirty (J.pool.get x)) := by
          have bound := gives.tame.bind (J.pool.get x) bounds
          refine ⟨bound.residents, fun dirty => ?_, bound.stocked.grow rfl rfl (Nat.le_refl _), bound.size,
            bound.keyed, bound.unkeyed, bound.original, bound.retarget⟩
          rcases List.mem_insert_iff.mp dirty with rfl | old
          · exact ⟨memory, x, y, mem, rfl⟩
          · exact bound.dirty old
        have none : J.Gives t ((t.bind (J.pool.get x) r).markDirty (J.pool.get x)) [] :=
          ⟨deferred, id, .refl _, Nat.le_refl _, [], by simp [State.markDirty, State.bind], .nil⟩
        exact gives.before h (none.before gives.tame (eliminate_gives deferred x y))
      · exact stores gives replaces
    · split at role <;> cases role
  all_goals
    obtain ⟨⟨z, t⟩, used, ok⟩ := bind_ok.mp ok
    cases ok
    obtain ⟨gives, replaces⟩ := use_gives h source insideY usedY used
    exact stores gives replaces

theorem move_gives (h : J.Tame s) (mem : .mov x y ∈ J.code) (target : J.Refers s x x₁)
    (source : J.Refers s y y₁) (ok : s.move c index x₁ y₁ = .ok s') : J.Gives s s' [.mov x y] := by
  obtain ⟨inside, -⟩ := used_of_mem mem (x := x) (by simp [Instruction.operands])
  obtain ⟨insideY, usedY⟩ := used_of_mem mem (x := y) (by simp [Instruction.operands])
  unfold State.move at ok
  rw [target.role h inside, roleOf] at ok
  split at ok
  · rename_i key role
    split at role
    · rename_i abstract
      cases role
      exact moveToRegister_gives h mem target source abstract ok
    · split at role <;> cases role
  · rename_i key role
    split at role
    · cases role
    · split at role
      · rename_i memory
        cases role
        exact moveToMemory_gives h mem target source memory ok
      · cases role
  · rename_i role
    split at role
    · cases role
    · rename_i concrete
      obtain ⟨⟨z, t⟩, used, ok⟩ := bind_ok.mp ok
      cases ok
      obtain ⟨gives, replaces⟩ := use_gives h source insideY usedY used
      exact gives.before h (emit_gives gives.tame
        (.mov ((target.gives gives inside).replaces gives.tame inside (by simpa using concrete)) replaces))

theorem arith_gives (h : J.Tame s) (mem : .arith op x y ∈ J.code) (target : J.Refers s x x₁)
    (source : J.Refers s y y₁) (ok : s.arith c index op x₁ y₁ = .ok s') :
    J.Gives s s' [.arith op x y] := by
  obtain ⟨inside, usedX⟩ := used_of_mem mem (x := x) (by simp [Instruction.operands])
  obtain ⟨insideY, usedY⟩ := used_of_mem mem (x := y) (by simp [Instruction.operands])
  obtain ⟨⟨z, t⟩, used, ok⟩ := bind_ok.mp ok
  obtain ⟨gives, replaces⟩ := use_gives h source insideY usedY used
  have target' := target.gives gives inside
  -- what is done before the instruction is given out
  have last : ∀ {u : State} {w : OperandRef}, J.Gives t u [] → J.Replaces u.pool x w →
      J.Gives s (u.emit (.arith op w z)) [.arith op x y] := fun gives' replaces' =>
    gives.before h (gives'.before gives.tame
      (emit_gives gives'.tame (.arith replaces' (replaces.later gives.tame insideY gives'))))
  dsimp only at ok
  rw [target.role h inside, roleOf] at ok
  split at ok
  · rename_i key role
    split at role
    · rename_i abstract
      cases role
      obtain ⟨⟨r, w, u⟩, resolved, ok⟩ := bind_ok.mp ok
      cases ok
      obtain ⟨gives', replaces', bounds⟩ := resolve_gives gives.tame target' inside abstract usedX resolved
      have apart : J.Gives u (u.separate c index r (J.pool.get x)) [] := (separate_moves gives'.tame r _).gives
      exact last (gives'.before gives.tame apart) (replaces'.later gives'.tame inside apart)
    · split at role <;> cases role
  · rename_i word role
    split at role
    · cases role
    · rename_i concrete
      cases ok
      have concrete : (J.pool.get x).isAbstract = false := by simpa using concrete
      split
      · rename_i r held
        have cleans := ((clean_moves gives.tame word (gives.tame.register?_le held)).then_unbind word).gives
        exact last cleans ((target'.replaces gives.tame inside concrete).later gives.tame inside cleans)
      · exact last (Moves.refl gives.tame).gives (target'.replaces gives.tame inside concrete)
  · rename_i role
    split at role
    · cases role
    · rename_i concrete
      cases ok
      exact last (Moves.refl gives.tame).gives
        (target'.replaces gives.tame inside (by simpa using concrete))

theorem pop_gives (h : J.Tame s) (mem : .pop x ∈ J.code) (target : J.Refers s x x₁)
    (ok : s.pop c index x₁ = .ok s') : J.Gives s s' [.pop x] := by
  obtain ⟨inside, used⟩ := used_of_mem mem (x := x) (by simp [Instruction.operands])
  unfold State.pop at ok
  rw [target.role h inside, roleOf] at ok
  split at ok
  · rename_i key role
    split at role
    · rename_i abstract
      cases role
      obtain ⟨⟨r, t⟩, acquired, ok⟩ := bind_ok.mp ok
      cases ok
      obtain ⟨moves, bounds⟩ := acquire_moves h acquired
      have ready := (moves.then_bind (J.pool.get x) bounds).gives
      obtain ⟨attached, replaces⟩ :=
        attach_gives ready.tame (target.gives ready inside) inside abstract used bounds
      exact ready.before h (attached.before ready.tame (emit_gives attached.tame (.pop replaces)))
    · split at role <;> cases role
  · rename_i word role
    split at role
    · cases role
    · rename_i concrete
      cases ok
      have invalid := h.invalidate word
      refine invalid.before h (emit_gives invalid.tame (.pop ?_))
      exact (target.replaces h inside (by simpa using concrete)).later h inside invalid
  · rename_i role
    split at role
    · cases role
    · rename_i concrete
      cases ok
      exact emit_gives h (.pop (target.replaces h inside (by simpa using concrete)))

/-- An instruction is given out as its counterpart, with moves around it. -/
theorem instruction_gives (h : J.Tame s) {i : Instruction} (mem : i ∈ J.code)
    (ok : s.instruction c index i = .ok s') : J.Gives s s' [i] := by
  have unpinned : J.Tame { s with pinned := .empty } := h.unsaid s.journal .empty
  have unpins : J.Gives s { s with pinned := .empty } [] :=
    (⟨unpinned, rfl, rfl, .refl _, Nat.le_refl _, [], by simp, nofun⟩ : J.Moves s { s with pinned := .empty }).gives
  refine unpins.before h ?_
  unfold State.instruction at ok
  generalize ({ s with pinned := .empty } : State) = t at ok unpinned
  have refers : ∀ {x}, x ∈ i.operands → x < J.pool.operands.size ∧ J.Used (J.pool.get x) ∧
      J.Refers t x (t.current x) := fun use =>
    ⟨(used_of_mem mem use).1, (used_of_mem mem use).2, unpinned.current (used_of_mem mem use).1⟩
  have label : ∀ {x}, x ∈ i.operands → i.destination? = some x →
      J.Replaces t.pool x (t.current x) := fun use dest =>
    (refers use).2.2.replaces unpinned (refers use).1 (J.labels i mem _ dest)
  cases i with
  | ret =>
    cases ok
    exact emit_gives unpinned .ret
  | halt =>
    cases ok
    exact emit_gives unpinned .halt
  | nop =>
    cases ok
    exact emit_gives unpinned .nop
  | push x =>
    obtain ⟨inside, used, from_⟩ := refers (x := x) (by simp [Instruction.operands])
    obtain ⟨⟨z, t⟩, uses, ok⟩ := bind_ok.mp ok
    cases ok
    obtain ⟨gives, replaces⟩ := use_gives unpinned from_ inside used uses
    exact gives.before unpinned (emit_gives gives.tame (.push replaces))
  | pop x => exact pop_gives unpinned mem (refers (by simp [Instruction.operands])).2.2 ok
  | mov x y =>
    exact move_gives unpinned mem (refers (by simp [Instruction.operands])).2.2
      (refers (by simp [Instruction.operands])).2.2 ok
  | arith op x y =>
    exact arith_gives unpinned mem (refers (by simp [Instruction.operands])).2.2
      (refers (by simp [Instruction.operands])).2.2 ok
  | cmp x y =>
    obtain ⟨inside, used, from_⟩ := refers (x := x) (by simp [Instruction.operands])
    obtain ⟨insideY, usedY, fromY⟩ := refers (x := y) (by simp [Instruction.operands])
    obtain ⟨⟨z, t⟩, uses, ok⟩ := bind_ok.mp ok
    obtain ⟨⟨w, u⟩, uses', ok⟩ := bind_ok.mp ok
    cases ok
    obtain ⟨gives, replaces⟩ := use_gives unpinned from_ inside used uses
    obtain ⟨gives', replaces'⟩ := use_gives gives.tame (fromY.gives gives insideY) insideY usedY uses'
    exact gives.before unpinned (gives'.before gives.tame
      (emit_gives gives'.tame (.cmp (replaces.later gives.tame inside gives') replaces')))
  | jump x =>
    cases ok
    exact emit_gives unpinned (.jump (label (by simp [Instruction.operands]) rfl))
  | jumpIf condition x =>
    cases ok
    exact emit_gives unpinned (.jumpIf (label (by simp [Instruction.operands]) rfl))
  | call x =>
    cases ok
    have vacates : J.Gives t (t.vacateAll c index) [] := (vacateAll_moves unpinned).gives
    refine vacates.before unpinned (emit_gives vacates.tame (.call ?_))
    exact (label (by simp [Instruction.operands]) rfl).later unpinned
      (refers (by simp [Instruction.operands])).1 vacates

/-- The rest of a block is given out as code that renders it. -/
theorem instructions_gives {closing : Nat} {rest : List Instruction} (used : ∀ i ∈ rest, i ∈ J.code)
    (h : J.Tame s) (ok : s.instructions c closing index rest = .ok s') : J.Gives s s' rest := by
  have stores : ∀ {t : State}, J.Tame t →
      J.Gives t (if closing = index then t.writeBackAll else t) [] := by
    intro t h
    split
    · exact (writeBackAll_moves h).gives
    · exact (Moves.refl h).gives
  induction rest generalizing s index with
  | nil =>
    cases ok
    exact stores h
  | cons i rest ih =>
    obtain ⟨t, one, ok⟩ := bind_ok.mp ok
    have first := stores h
    have gives := instruction_gives first.tame (used i List.mem_cons_self) one
    have releases : J.Gives t (t.releaseDead c index) [] := (releaseDead_moves gives.tame).gives
    have rest_gives := ih (fun j mem => used j (List.mem_cons_of_mem _ mem)) releases.tame ok
      (fun h => by
        split
        · exact (writeBackAll_moves h).gives
        · exact (Moves.refl h).gives)
    have only : ∀ j ∈ [i], j ∈ J.code := fun j one => List.mem_singleton.mp one ▸ used i List.mem_cons_self
    exact first.before h ((gives.behind first.tame only releases).trans first.tame only rest_gives)

/-- Only operands that name abstract registers of the block are changed. -/
theorem Tame.changed (h : J.Tame s) (inside : x < J.pool.operands.size) :
    s.pool.get x = J.pool.get x ∨ (J.pool.get x).isAbstract = true ∧ J.Used (J.pool.get x) := by
  cases found : s.keys.lookup x with
  | none => exact .inl (h.unkeyed inside found)
  | some key =>
    right
    rw [h.original inside found]
    exact ⟨(h.keyed found).1, (h.keyed found).2.1⟩

theorem tame_start (J : Job) {frame : Frame} (words : frame.words.toNat = J.words % 2 ^ 32)
    (context : c.registers = J.registers) (journal : Journal) :
    J.Tame (.start c J.pool frame journal) where
  residents := by
    rw [State.start, context]
    exact .start J.few_largest
  dirty := nofun
  stocked :=
    { slots := trivial
      distinct := List.nodup_nil
      frame := words
      spills := Nat.le_of_eq (Nat.zero_add _) }
  size := Nat.le_refl _
  keyed := nofun
  unkeyed _ _ := rfl
  original _ := nofun
  retarget := nofun

end Job

/-! ## Code that needs no registers -/

/-- An instruction that neither reads nor writes what may be in a register. -/
def Bare (pool : Pool) (i : Instruction) : Prop :=
  ∀ x ∈ i.operands, (pool.get x).isAbstract = false ∧ (pool.get x).isMemory = false

theorem Bare.plain {pool : Pool} {i : Instruction} (bare : Bare pool i) : Plain pool i :=
  fun _ x use => (bare x use).1

/-! ## Blocks -/

namespace Job

/-- An allocated block begins with the code that needs no registers, and renders the rest. -/
theorem allocate_gives (J : Job) {b b' : Block} {s : State} {frame : Frame} {journal : Journal}
    (code : J.code = b.code) (words : frame.words.toNat = J.words % 2 ^ 32) {bare rest : List Instruction}
    (split : b.code = bare ++ rest) (needless : ∀ i ∈ bare, Bare J.pool i)
    (ok : b.allocate J.registers J.pool frame journal = .ok (b', s)) :
    b'.name = b.name ∧ J.Tame s ∧ J.pool.Keeps s.pool ∧
      ∃ out, b'.code = bare ++ out ∧ J.Renders s.pool s.slots.length rest out ∧
        (rest = [] → out = [] ∧ s.pool = J.pool ∧ s.frame = frame ∧ s.slots = []) := by
  obtain ⟨t, all, ok⟩ := bind_ok.mp ok
  obtain ⟨u, finished, ok⟩ := bind_ok.mp ok
  cases ok
  have same : t = s := by
    unfold State.finish at finished
    dsimp only at finished
    split at finished
    · cases finished
      rfl
    · cases finished
  subst same
  generalize contextEq :
    (⟨b.name, .compute J.pool b.code, J.registers⟩ : Context) = c at all
  have registers : c.registers = J.registers := by rw [← contextEq]
  have idle : Idle (.start c J.pool frame journal) := ⟨rfl, rfl, rfl, rfl, rfl⟩
  obtain ⟨v, idle', eq, out, rest_eq⟩ := @Idle.instructions _ c 0 idle b.closingStart bare
    (fun i mem => (needless i mem).plain) rest
  rw [← split, all] at rest_eq
  have start := tame_start J words registers journal
  have tame : J.Tame v := by
    rw [eq]
    exact ⟨start.residents, start.dirty, start.stocked.grow rfl rfl (Nat.le_refl _), start.size, start.keyed,
      start.unkeyed, start.original, start.retarget⟩
  have within : ∀ i ∈ rest, i ∈ J.code := fun i mem => by
    rw [code, split]
    exact List.mem_append_right _ mem
  have gives := instructions_gives within tame rest_eq.symm
  obtain ⟨more, given, renders⟩ := gives.given
  have pool : v.pool = J.pool := by rw [eq]; rfl
  have given : t.out.toList = bare ++ more := by
    rw [given, out]
    rfl
  refine ⟨rfl, gives.tame, pool ▸ gives.pool, more, given, renders, fun none => ?_⟩
  subst none
  -- nothing is dirty, and nothing is written back
  have ends : t = v := by
    have := rest_eq
    rw [State.instructions, idle'.writeBackAll, ite_self] at this
    exact Except.ok.inj this
  subst ends
  refine ⟨?_, pool, by rw [eq]; rfl, by rw [eq]; rfl⟩
  rw [out] at given
  exact List.self_eq_append_right.mp given

end Job

end Codegen86.Allocation
