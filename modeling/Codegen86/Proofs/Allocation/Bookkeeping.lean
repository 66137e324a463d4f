import Codegen86.Proofs.Allocation.Chains
/-!
# The books of the allocator

Who is in which register, how many a register holds, which registers are free and which words are dirty:
`Books.Sound` says that the four tell one story.  The allocator changes its books by entries only
(`Books.Entry`), which take out no more than there is, and every entry keeps them sound.  So they are sound
in every state that the allocation of a block passes through (`Passes`); behind an instruction nothing is
held that is not read any more, and at the end of the block nothing at all.
-/

set_option autoImplicit false

namespace Codegen86

open Target

namespace Allocation

/-! ## Books -/

/-- What the allocator writes down about registers and dirty words. -/
structure Books where
  residents : Residents
  dirty : List Operand

def State.books (s : State) : Books := ⟨s.residents, s.dirty⟩

namespace Books

/-- Every resident is in a register of `1` to `n`, registers count their residents, those without residents are
free, and a dirty word is a word of memory that a register holds. -/
structure Sound (n : Nat) (b : Books) : Prop where
  residents : b.residents.Consistent n
  dirty : ∀ {key}, key ∈ b.dirty → key.isMemory = true ∧ ∃ r, b.residents.register? key = some r

/-- One change of the books.  A register that gives up a resident has one. -/
inductive Entry (n : Nat) (b : Books) : Books → Prop
  | bind {key : Operand} {r : Nat} (bounds : 1 ≤ r ∧ r ≤ n)
      (counted : ∀ old, b.residents.register? key = some old → 0 < b.residents.occupants old) :
      Entry n b { b with residents := b.residents.bind key r }
  | unbind {key : Operand} (clean : key ∉ b.dirty)
      (counted : ∀ old, b.residents.register? key = some old → 0 < b.residents.occupants old) :
      Entry n b { b with residents := b.residents.unbind key }
  | soil {word : Operand} (memory : word.isMemory = true) (held : ∃ r, b.residents.register? word = some r) :
      Entry n b { b with dirty := b.dirty.insert word }
  | store {dirty : List Operand} (fewer : ∀ key ∈ dirty, key ∈ b.dirty) : Entry n b { b with dirty }

/-- Books with these entries, in their order. -/
abbrev Entries (n : Nat) : Books → Books → Prop := Relation.ReflTransGen (Entry n)

variable {n : Nat} {b b' : Books}

theorem Sound.start (few : n ≤ RegisterSet.largest) : Sound n ⟨.start n, []⟩ :=
  ⟨.start few, fun mem => by cases mem⟩

/-- A register that holds something counts it. -/
theorem Sound.counted (h : b.Sound n) {key : Operand} {r : Nat}
    (held : b.residents.register? key = some r) : 0 < b.residents.occupants r :=
  Nat.pos_of_ne_zero fun none => h.residents.occupants_eq_zero_iff.mp none key held

/-- One entry keeps the books sound. -/
theorem Sound.entry (few : n ≤ RegisterSet.largest) (h : b.Sound n) (entry : Entry n b b') :
    b'.Sound n := by
  cases entry with
  | @bind key r bounds =>
    refine ⟨h.residents.bind few key bounds, fun {word} mem => ?_⟩
    obtain ⟨memory, held⟩ := h.dirty mem
    refine ⟨memory, ?_⟩
    dsimp only
    rw [Residents.register?_bind]
    split
    · exact ⟨r, rfl⟩
    · exact held
  | @unbind key clean =>
    refine ⟨h.residents.unbind few key, fun {word} mem => ?_⟩
    obtain ⟨memory, held⟩ := h.dirty mem
    refine ⟨memory, ?_⟩
    dsimp only
    rw [Residents.register?_unbind, if_neg]
    · exact held
    · rintro rfl
      exact clean mem
  | soil memory held =>
    refine ⟨h.residents, fun mem => ?_⟩
    rcases List.mem_insert_iff.mp mem with rfl | mem
    · exact ⟨memory, held⟩
    · exact h.dirty mem
  | store fewer => exact ⟨h.residents, fun mem => h.dirty (fewer _ mem)⟩

theorem Sound.entries (few : n ≤ RegisterSet.largest) (h : b.Sound n) (entries : Entries n b b') :
    b'.Sound n := by
  induction entries with
  | refl => exact h
  | tail _ entry ih => exact ih.entry few entry

end Books

/-! ## Entries of a step -/

namespace Work

variable {W : Work} {s s' : State}

theorem Step.entries (few : W.context.registers ≤ RegisterSet.largest)
    (sound : s.books.Sound W.context.registers) (step : W.Step s s') :
    Books.Entries W.context.registers s.books s'.books := by
  cases step with
  | bind range => exact .single (.bind range fun _ => sound.counted)
  | unbind clean => exact .single (.unbind clean fun _ => sound.counted)
  | move range clean =>
    -- two entries, and the first has to be sound for the second to count
    have first : Books.Entry W.context.registers s.books (s.unbind _).books :=
      .unbind clean fun _ => sound.counted
    exact .head first (.single (.bind range fun _ => (sound.entry few first).counted))
  | soil memory held => exact .single (.soil memory held)
  | store fewer => exact .single (.store fewer)
  | reserve | operand | emit | name | split | note => exact .refl

/-- A chain of steps makes entries. -/
theorem Steps.entries (few : W.context.registers ≤ RegisterSet.largest)
    (sound : s.books.Sound W.context.registers) (steps : W.Steps s s') :
    Books.Entries W.context.registers s.books s'.books := by
  induction steps with
  | refl => exact .refl
  | tail _ step ih => exact ih.trans (step.entries few (sound.entries few ih))

/-- The work on a block, with nothing asked of the values. -/
def ofBlock (c : Context) (code : List Instruction) : Work where
  context := c
  code := code
  needed _ := False
  defined _ := True

theorem reads_ofBlock {c : Context} {code : List Instruction} (index : Nat) :
    (ofBlock c code).Reads index := fun _ needed => needed.elim

theorem readsAfter_ofBlock {c : Context} {code : List Instruction} (index : Nat) :
    (ofBlock c code).ReadsAfter index := fun _ needed => needed.elim

end Work

/-! ## The states between instructions -/

/-- Where the allocation of a block stands: before an instruction, before it with all dirty words stored,
behind it, or behind it with all dead residents taken out. -/
inductive Moment where
  | before (index : Nat)
  | stored (index : Nat)
  | allocated (index : Nat)
  | released (index : Nat)
  deriving DecidableEq, Repr

/-- The states that the allocation of code passes through from `start` on.  Dirty words are stored before the
closing group, and at the end of the code if there is none. -/
inductive Passes (c : Context) (closing : Nat) (code : List Instruction) (start : State) : Moment → State → Prop
  | start : Passes c closing code start (.before 0) start
  | store {s : State} (here : Passes c closing code start (.before closing) s) :
      Passes c closing code start (.stored closing) s.writeBackAll
  | instruction {s s' : State} {index : Nat} {i : Instruction}
      (here : Passes c closing code start (if closing = index then .stored index else .before index) s)
      (next : code[index]? = some i) (ok : s.instruction c index i = .ok s') :
      Passes c closing code start (.allocated index) s'
  | release {s : State} {index : Nat} (here : Passes c closing code start (.allocated index) s) :
      Passes c closing code start (.released index) (s.releaseDead c index)
  | next {s : State} {index : Nat} (here : Passes c closing code start (.released index) s) :
      Passes c closing code start (.before (index + 1)) s

/-- What is left of the allocation of code. -/
def Moment.rest (c : Context) (closing : Nat) (code : List Instruction) : Moment → State → Except Error State
  | .before index, s => s.instructions c closing index (code.drop index)
  | .stored index, s =>
    match code.drop index with
    | [] => .ok s
    | i :: rest => do
      let s ← s.instruction c index i
      (s.releaseDead c index).instructions c closing (index + 1) rest
  | .allocated index, s => (s.releaseDead c index).instructions c closing (index + 1) (code.drop (index + 1))
  | .released index, s => s.instructions c closing (index + 1) (code.drop (index + 1))

/-- The allocation of instructions is a chain of steps. -/
theorem Work.steps_instructions {W : Work} {s s' : State} {closing index : Nat} {code : List Instruction}
    (read : ∀ index, W.Reads index) (later : ∀ {index}, W.ReadsAfter index) (known : ∀ key, W.defined key)
    (within : ∀ i ∈ code, i ∈ W.code) (h : W.Regular s)
    (ok : s.instructions W.context closing index code = .ok s') : W.Steps s s' := by
  induction code generalizing s index with
  | nil =>
    cases ok
    split
    · exact steps_writeBackAll h
    · exact .refl
  | cons i rest ih =>
    obtain ⟨t, given, ok⟩ := bind_ok.mp ok
    have stored : W.Steps s (if closing = index then s.writeBackAll else s) := by
      split
      · exact steps_writeBackAll h
      · exact .refl
    have first := stored.trans (steps_instruction (read index) later (stored.regular h)
      (within i List.mem_cons_self) (fun _ key _ _ => known key) given)
    have second : W.Steps s (t.releaseDead W.context index) :=
      first.trans (steps_releaseDead later (Steps.regular first h))
    exact second.trans (ih (fun j mem => within j (List.mem_cons_of_mem _ mem)) (Steps.regular second h) ok)

namespace Passes

variable {c : Context} {closing index : Nat} {code : List Instruction} {start s s' : State} {moment : Moment}

/-- The state before an instruction, or with its dirty words stored. -/
theorem ready (here : Passes c closing code start (.before index) s) :
    Passes c closing code start (if closing = index then .stored index else .before index)
      (if closing = index then s.writeBackAll else s) := by
  split
  · rename_i same
    subst same
    exact here.store
  · exact here

/-- The allocation of code ends in a state that it passes through. -/
theorem instructions {first rest : List Instruction}
    (here : Passes c closing (first ++ rest) start (.before first.length) s)
    (ok : s.instructions c closing first.length rest = .ok s') :
    ∃ t, Passes c closing (first ++ rest) start (.before (first ++ rest).length) t ∧
      s' = if closing = (first ++ rest).length then t.writeBackAll else t := by
  induction rest generalizing first s with
  | nil =>
    cases ok
    refine ⟨s, ?_, ?_⟩
    · simpa using here
    · rw [List.append_nil]
  | cons i rest ih =>
    obtain ⟨t, given, ok⟩ := bind_ok.mp ok
    have split : first ++ i :: rest = (first ++ [i]) ++ rest := by simp
    have next : (first ++ i :: rest)[first.length]? = some i := by simp
    have after := (here.ready.instruction next given).release.next
    rw [split] at after ⊢
    have length : (first ++ [i]).length = first.length + 1 := by simp
    rw [← length] at after ok
    exact ih after ok

/-- What the allocator does from one instruction to another is a chain of steps. -/
theorem steps {pool : Pool} {frame : Frame} {journal : Journal}
    (passes : Passes c closing code (.start c pool frame journal) moment s) :
    (Work.ofBlock c code).Steps (.start c pool frame journal) s := by
  have regular : ∀ {s}, (Work.ofBlock c code).Steps (.start c pool frame journal) s →
      (Work.ofBlock c code).Regular s := fun steps => steps.regular (.start pool frame journal)
  induction passes with
  | start => exact .refl
  | store here ih => exact ih.trans (Work.steps_writeBackAll (regular ih))
  | instruction here next ok ih =>
    exact ih.trans (Work.steps_instruction (Work.reads_ofBlock _) (Work.readsAfter_ofBlock _) (regular ih)
      (List.mem_of_getElem? next) (fun _ _ _ _ => trivial) ok)
  | release here ih => exact ih.trans (Work.steps_releaseDead (Work.readsAfter_ofBlock _) (regular ih))
  | next here ih => exact ih

/-- What comes behind is the same from every state that the allocation passes through. -/
theorem rest (here : Passes c closing code start moment s) :
    moment.rest c closing code s = start.instructions c closing 0 code := by
  induction here with
  | start => rfl
  | @store s here ih =>
    rw [← ih, Moment.rest, Moment.rest]
    cases code.drop closing with
    | nil => rw [State.instructions, if_pos rfl]
    | cons i rest => rw [State.instructions, if_pos rfl]
  | @instruction s s' index i here next ok ih =>
    obtain ⟨inside, is⟩ := List.getElem?_eq_some_iff.mp next
    have split : code.drop index = i :: code.drop (index + 1) := by rw [List.drop_eq_getElem_cons inside, is]
    rw [← ih]
    by_cases same : closing = index
    · rw [if_pos same, Moment.rest, Moment.rest, split]
      dsimp only
      rw [ok]
      rfl
    · rw [if_neg same, Moment.rest, Moment.rest, split, State.instructions, if_neg same, ok]
      rfl
  | release here ih => exact ih
  | next here ih => exact ih

/-- From every state that the allocation passes through, steps lead to where it ends. -/
theorem leads {pool : Pool} {frame : Frame} {journal : Journal}
    (passes : Passes c closing code (.start c pool frame journal) moment s)
    (ok : (State.start c pool frame journal).instructions c closing 0 code = .ok s') :
    (Work.ofBlock c code).Steps s s' := by
  have regular : (Work.ofBlock c code).Regular s := passes.steps.regular (.start pool frame journal)
  have later : ∀ {index}, (Work.ofBlock c code).ReadsAfter index := Work.readsAfter_ofBlock _
  have known : ∀ key, (Work.ofBlock c code).defined key := fun _ => trivial
  have within : ∀ index, ∀ i ∈ code.drop index, i ∈ (Work.ofBlock c code).code := fun _ _ => List.mem_of_mem_drop
  rw [← passes.rest] at ok
  cases moment with
  | before index => exact Work.steps_instructions Work.reads_ofBlock later known (within _) regular ok
  | stored index =>
    rw [Moment.rest] at ok
    split at ok
    · cases ok
      exact .refl
    · rename_i i rest split
      obtain ⟨t, given, ok⟩ := bind_ok.mp ok
      have first := Work.steps_instruction (Work.reads_ofBlock _) later regular
        (within index i (split ▸ List.mem_cons_self)) (fun _ _ _ _ => trivial) given
      have both : (Work.ofBlock c code).Steps s (t.releaseDead c index) :=
        first.trans (Work.steps_releaseDead later (first.regular regular))
      refine both.trans (Work.steps_instructions Work.reads_ofBlock later known (fun j mem => ?_)
        (both.regular regular) ok)
      exact within index j (split ▸ List.mem_cons_of_mem _ mem)
  | allocated index =>
    have first : (Work.ofBlock c code).Steps s (s.releaseDead c index) := Work.steps_releaseDead later regular
    exact first.trans (Work.steps_instructions Work.reads_ofBlock later known (within _) (first.regular regular) ok)
  | released index => exact Work.steps_instructions Work.reads_ofBlock later known (within _) regular ok

end Passes

/-! ## Dead residents -/

theorem mem_all {r : Residents} {key : Operand} : key ∈ r.all ↔ (r.register? key).isSome = true := by
  rw [Residents.register?, lookup_isSome]
  exact (List.mergeSort_perm _ _).mem_iff

theorem register?_of_eq {s t : State} (same : t.residents = s.residents) (key : Operand) :
    t.register? key = s.register? key := by
  rw [State.register?, same, State.register?]

theorem register?_releaseOne (c : Context) (index : Nat) (s : State) (key other : Operand) :
    (s.releaseOne c index key).register? other =
      if other = key ∧ (!c.liveness.isLiveAfter index key) = true then none else s.register? other := by
  unfold State.releaseOne
  split
  · rename_i live
    rw [if_neg (by simp [live])]
  · rename_i dead
    simp only [register?_unbind, Bool.eq_false_iff.mpr dead, Bool.not_false, and_true]
    split
    · rfl
    · split
      · exact register?_of_eq (clean_residents s key _).1 other
      · exact register?_of_eq rfl other

/-- Taking out residents one after another. -/
theorem register?_foldl {f : State → Operand → State} {drops : Operand → Bool}
    (each : ∀ s key other, (f s key).register? other =
      if other = key ∧ drops key = true then none else s.register? other)
    (keys : List Operand) (s : State) (key : Operand) :
    (keys.foldl f s).register? key = if key ∈ keys ∧ drops key = true then none else s.register? key := by
  induction keys generalizing s with
  | nil => simp
  | cons first rest ih =>
    rw [List.foldl_cons, ih, each]
    by_cases here : key = first
    · subst here
      by_cases drop : drops key = true <;> simp [drop]
    · simp [here]

/-- Behind an instruction, once the dead residents are out, all residents are live. -/
theorem live_of_releaseDead {c : Context} {index : Nat} {s : State} {key : Operand} {r : Nat}
    (held : (s.releaseDead c index).register? key = some r) : c.liveness.isLiveAfter index key = true := by
  rw [State.releaseDead, register?_foldl (register?_releaseOne c index)] at held
  split at held
  · cases held
  · rename_i kept
    have there : key ∈ s.residents.all := mem_all.mpr (Option.isSome_iff_exists.mpr ⟨r, held⟩)
    simpa [there] using kept

theorem Passes.live {c : Context} {closing index : Nat} {code : List Instruction} {start s : State}
    {key : Operand} {r : Nat} (here : Passes c closing code start (.released index) s) (held : s.register? key = some r) :
    c.liveness.isLiveAfter index key = true := by
  cases here with
  | release => exact live_of_releaseDead held

/-! ## What an instruction fails with -/

/-- The errors of the instruction at `index`. -/
def Refusal (c : Context) (index : Nat) (e : Error) : Prop :=
  e = .registerPressure c.block index ∨ ∃ key : Operand, e = .notResident c.block index key.text

/-- All errors are of one kind. -/
def FailsOnly {α : Type} (P : Error → Prop) (x : Except Error α) : Prop := ∀ e, x = .error e → P e

namespace FailsOnly

variable {α β : Type} {P : Error → Prop} {c : Context} {index : Nat}

theorem ok (a : α) : FailsOnly P (.ok a) := fun _ failed => by cases failed

theorem bind {x : Except Error α} {f : α → Except Error β} (h : FailsOnly P x)
    (h' : ∀ a, FailsOnly P (f a)) : FailsOnly P (x >>= f) := by
  intro e failed
  cases x with
  | error e' =>
    cases failed
    exact h _ rfl
  | ok a => exact h' a e failed

theorem acquire (s : State) : FailsOnly (Refusal c index) (s.acquire c index) := by
  rw [Work.acquire_eq]
  have pressure : ∀ {γ : Type}, FailsOnly (Refusal c index)
      (.error (.registerPressure c.block index) : Except Error γ) := fun _ failed => by
    cases failed
    exact .inl rfl
  refine .bind ?_ fun s => ?_
  · unfold State.evict
    split
    · split
      · exact .ok _
      · exact pressure
    · exact .ok _
  · split
    · exact .ok _
    · exact pressure

theorem load (s : State) (key : Operand) : FailsOnly (Refusal c index) (s.load c index key) := by
  unfold State.load
  split
  · exact .ok _
  · split
    · intro e failed
      cases failed
      exact .inr ⟨key, rfl⟩
    · exact (acquire s).bind fun _ => .ok _

theorem resolve (s : State) (x : OperandRef) (key : Operand) :
    FailsOnly (Refusal c index) (s.resolve c index x key) :=
  (load s key).bind fun _ => .ok _

theorem use (s : State) (x : OperandRef) : FailsOnly (Refusal c index) (s.use c index x) := by
  unfold State.use
  split
  · exact (resolve s x _).bind fun _ => .ok _
  · split <;> exact .ok _
  · exact .ok _

theorem move (s : State) (x y : OperandRef) : FailsOnly (Refusal c index) (s.move c index x y) := by
  have define : ∀ key, FailsOnly (Refusal c index) (s.defineByMove c index x key y) := fun key =>
    (acquire s).bind fun _ => .ok _
  unfold State.move
  split
  · unfold State.moveToRegister
    split
    · exact .ok _
    · split
      · exact (resolve s y _).bind fun _ => .ok _
      · split
        · exact .ok _
        · exact (define _).bind fun _ => .ok _
      · exact (define _).bind fun _ => .ok _
  · unfold State.moveToMemory
    split
    · exact (resolve s y _).bind fun _ => .ok _
    · exact (use s y).bind fun _ => .ok _
    · exact (use s y).bind fun _ => .ok _
  · exact (use s y).bind fun _ => .ok _

theorem instruction (s : State) (i : Instruction) : FailsOnly (Refusal c index) (s.instruction c index i) := by
  unfold State.instruction
  generalize { s with pinned := .empty } = s
  cases i with
  | push x => exact (use s _).bind fun _ => .ok _
  | pop x =>
    show FailsOnly _ (s.pop c index _)
    unfold State.pop
    split
    · exact (acquire s).bind fun _ => .ok _
    · exact .ok _
    · exact .ok _
  | mov x y => exact move s _ _
  | arith op x y =>
    show FailsOnly _ (s.arith c index op _ _)
    unfold State.arith
    refine (use s _).bind fun _ => ?_
    dsimp only
    split
    · exact (resolve _ _ _).bind fun _ => .ok _
    · exact .ok _
    · exact .ok _
  | cmp x y => exact (use s _).bind fun _ => (use _ _).bind fun _ => .ok _
  | ret | halt | nop | jump | jumpIf | call => exact .ok _

theorem instructions (s : State) (closing index : Nat) (code : List Instruction) :
    FailsOnly (fun e => ∃ index, Refusal c index e) (s.instructions c closing index code) := by
  induction code generalizing s index with
  | nil => exact .ok _
  | cons i rest ih => exact .bind (fun e failed => ⟨index, instruction _ i e failed⟩) fun _ => ih _ _

end FailsOnly

/-! ## The end of a block -/

theorem not_isLiveAfter_last {pool : Pool} {code : List Instruction} {index : Nat}
    (last : index + 1 = code.length) (key : Operand) :
    (Liveness.compute pool code).isLiveAfter index key ≠ true := by
  rcases List.eq_nil_or_concat code with rfl | ⟨before, i, rfl⟩
  · cases last
  · have length : index = before.length := by simpa using last
    rw [List.concat_eq_append, length]
    exact mt Liveness.isLiveAfter_iff.mp not_live_nil

/-- At the end of the code nothing is in a register. -/
theorem Passes.empty {c : Context} {closing : Nat} {code : List Instruction} {pool : Pool} {frame : Frame}
    {journal : Journal} {s : State} (liveness : c.liveness = .compute pool code)
    (here : Passes c closing code (.start c pool frame journal) (.before code.length) s) (key : Operand) :
    s.register? key = none := by
  generalize last : Moment.before code.length = moment at here
  cases here with
  | start => rfl
  | @next s index here =>
    cases held : s.register? key with
    | none => rfl
    | some r =>
      have live := here.live held
      rw [liveness] at live
      exact absurd live (not_isLiveAfter_last (Moment.before.inj last).symm key)
  | store | instruction | release => cases last

/-- With nothing held and nothing dirty, the end of a block finds nothing amiss. -/
theorem finish_ok {c : Context} {s : State} (few : c.registers ≤ RegisterSet.largest)
    (residents : s.residents.Consistent c.registers) (empty : ∀ key, s.register? key = none)
    (clean : s.dirty = []) : s.finish c = .ok s := by
  have none : s.residents.bindings = [] := List.eq_nil_iff_forall_not_mem.mpr fun entry mem => by
    obtain ⟨key, reg⟩ := entry
    have held := residents.register?_eq_some_iff.mpr mem
    have := empty key
    rw [State.register?, held] at this
    cases this
  have free := residents.size_free_of_empty few none
  simp [State.finish, none, clean, free]

theorem foldl_books {α : Type} {f : State → α → State} (keeps : ∀ t a, (f t a).books = t.books) (as : List α)
    (s : State) : (as.foldl f s).books = s.books := by
  induction as generalizing s with
  | nil => rfl
  | cons a rest ih => rw [List.foldl_cons, ih, keeps]

theorem writeBackAll_books (s : State) : s.writeBackAll.books = ⟨s.residents, []⟩ := by
  unfold State.writeBackAll
  refine foldl_books (fun t key => ?_) _ _
  split <;> rfl

end Allocation

namespace Target.Block

open Allocation

variable (b : Block) (n : Nat) (pool : Pool) (frame : Frame) (journal : Journal)

/-- What stays the same while a block is allocated. -/
def context : Context := { block := b.name, liveness := .compute pool b.code, registers := n }

/-- The states that the allocation of a block passes through. -/
def Passes : Moment → State → Prop :=
  Allocation.Passes (b.context n pool) b.closingStart b.code (.start (b.context n pool) pool frame journal)

variable {b n pool frame journal}

theorem Passes.sound (few : n ≤ RegisterSet.largest) {moment : Moment} {s : State}
    (passes : b.Passes n pool frame journal moment s) :
    Books.Entries n ⟨.start n, []⟩ s.books ∧ s.books.Sound n := by
  have start : (State.start (b.context n pool) pool frame journal).books.Sound n := .start few
  have entries := (Allocation.Passes.steps passes).entries few start
  exact ⟨entries, start.entries few entries⟩

theorem allocate_eq : b.allocate n pool frame journal =
    (State.start (b.context n pool) pool frame journal).instructions (b.context n pool) b.closingStart 0
      b.code >>= fun s => s.finish (b.context n pool) >>= fun s => .ok ({ b with code := s.out.toList }, s) :=
  rfl

/-- Where the instructions of a block end. -/
theorem passes_instructions {s : State}
    (ok : (State.start (b.context n pool) pool frame journal).instructions (b.context n pool) b.closingStart 0
      b.code = .ok s) :
    ∃ t, b.Passes n pool frame journal (.before b.code.length) t ∧
      s = if b.closingStart = b.code.length then t.writeBackAll else t :=
  @Allocation.Passes.instructions _ _ _ _ _ [] b.code .start ok

/-- Once its instructions are allocated, a block is finished. -/
theorem finish (few : n ≤ RegisterSet.largest) {s : State}
    (ok : (State.start (b.context n pool) pool frame journal).instructions (b.context n pool) b.closingStart 0
      b.code = .ok s) : s.finish (b.context n pool) = .ok s := by
  obtain ⟨t, passes, rfl⟩ := passes_instructions ok
  have empty := Passes.empty rfl passes
  have sound := (Passes.sound (b := b) few passes).2
  split
  · have books := writeBackAll_books t
    have residents : t.writeBackAll.residents = t.residents := congrArg Books.residents books
    refine finish_ok few (residents ▸ sound.residents) (fun key => ?_) (congrArg Books.dirty books)
    rw [State.register?, residents]
    exact empty key
  · refine finish_ok few sound.residents empty (List.eq_nil_iff_forall_not_mem.mpr fun key mem => ?_)
    obtain ⟨-, r, held⟩ := sound.dirty mem
    rw [show t.books.residents.register? key = none from empty key] at held
    cases held

/-- A block that was allocated ends as its instructions do. -/
theorem instructions_of_allocate {b' : Block} {s : State} (ok : b.allocate n pool frame journal = .ok (b', s)) :
    (State.start (b.context n pool) pool frame journal).instructions (b.context n pool) b.closingStart 0
      b.code = .ok s := by
  rw [allocate_eq] at ok
  obtain ⟨t, ran, ok⟩ := bind_ok.mp ok
  obtain ⟨u, finished, ok⟩ := bind_ok.mp ok
  cases ok
  have same : s = t := by
    unfold State.finish at finished
    dsimp only at finished
    split at finished
    · cases finished
      rfl
    · cases finished
  exact same ▸ ran

/-- From every state that the allocation of a block passes through, steps lead to where it ends. -/
theorem Passes.leads {b' : Block} {moment : Moment} {s s' : State} (passes : b.Passes n pool frame journal moment s)
    (ok : b.allocate n pool frame journal = .ok (b', s')) : (Work.ofBlock (b.context n pool) b.code).Steps s s' :=
  Allocation.Passes.leads passes (instructions_of_allocate ok)

/-- In a block that was allocated, no instruction failed. -/
theorem Passes.succeeds {b' : Block} {index : Nat} {i : Instruction} {s u : State}
    (passes : b.Passes n pool frame journal (if b.closingStart = index then .stored index else .before index) s)
    (next : b.code[index]? = some i) (ok : b.allocate n pool frame journal = .ok (b', u)) :
    ∃ s', s.instruction (b.context n pool) index i = .ok s' ∧
      (Work.ofBlock (b.context n pool) b.code).Steps s' u := by
  have rest := (Allocation.Passes.rest passes).trans (instructions_of_allocate ok)
  obtain ⟨inside, is⟩ := List.getElem?_eq_some_iff.mp next
  have split : b.code.drop index = i :: b.code.drop (index + 1) := by rw [List.drop_eq_getElem_cons inside, is]
  have succeeded : ∃ s', s.instruction (b.context n pool) index i = .ok s' := by
    by_cases same : b.closingStart = index
    · rw [if_pos same, Moment.rest, split] at rest
      obtain ⟨s', ran, -⟩ := bind_ok.mp rest
      exact ⟨s', ran⟩
    · rw [if_neg same, Moment.rest, split, State.instructions, if_neg same] at rest
      obtain ⟨s', ran, -⟩ := bind_ok.mp rest
      exact ⟨s', ran⟩
  obtain ⟨s', ran⟩ := succeeded
  have behind : b.Passes n pool frame journal (.allocated index) s' := .instruction passes next ran
  exact ⟨s', ran, behind.leads ok⟩

theorem allocate_ok (few : n ≤ RegisterSet.largest) {s : State}
    (ok : (State.start (b.context n pool) pool frame journal).instructions (b.context n pool) b.closingStart 0
      b.code = .ok s) : b.allocate n pool frame journal = .ok ({ b with code := s.out.toList }, s) := by
  rw [allocate_eq, ok]
  show (s.finish (b.context n pool) >>= _) = _
  rw [finish few ok]
  rfl

/-- The allocation of a block fails at an instruction or not at all. -/
theorem allocate_fails (few : n ≤ RegisterSet.largest) (b : Block) (pool : Pool) (frame : Frame)
    (journal : Journal) : FailsOnly (fun e => ∃ index, Refusal (b.context n pool) index e)
      (b.allocate n pool frame journal) := by
  intro e failed
  cases ran : (State.start (b.context n pool) pool frame journal).instructions (b.context n pool)
      b.closingStart 0 b.code with
  | error e' =>
    rw [allocate_eq, ran] at failed
    cases failed
    exact FailsOnly.instructions _ _ _ _ _ ran
  | ok s =>
    rw [allocate_ok few ran] at failed
    cases failed

/-- The books of the allocator tell one story in every state that the allocation of a block passes through, and
they come to be by entries that take out no more than there is; behind an instruction all residents are live;
and the end of the block finds nothing amiss. -/
theorem books_kept (few : n ≤ RegisterSet.largest) (b : Block) (pool : Pool) (frame : Frame)
    (journal : Journal) :
    (∀ moment s, b.Passes n pool frame journal moment s →
      s.books.Sound n ∧ Books.Entries n ⟨.start n, []⟩ s.books ∧
        ∀ index, moment = .released index → ∀ key r, s.register? key = some r →
          (b.context n pool).liveness.isLiveAfter index key = true) ∧
      (∀ books, Books.Entries n ⟨.start n, []⟩ books → books.Sound n) ∧
      ∀ block held dirty free registers,
        b.allocate n pool frame journal ≠ .error (.leaked block held dirty free registers) := by
  refine ⟨fun moment s passes => ?_, fun books entries => (Books.Sound.start few).entries few entries,
    fun block held dirty free registers leaked => ?_⟩
  · obtain ⟨entries, sound⟩ := Passes.sound (b := b) few passes
    refine ⟨sound, entries, fun index same key r held => ?_⟩
    subst same
    exact Passes.live passes held
  · obtain ⟨index, refusal⟩ := allocate_fails few b pool frame journal _ leaked
    rcases refusal with pressure | ⟨key, absent⟩ <;> contradiction

/-- A value that is in the first register behind the instruction that defines it, and the books there. -/
theorem books_kept_defined :
    ∃ s, Block.Passes { name := "b", code := [.mov 0 1, .push 0] } 2
        { operands := #[.reg (.abstract 0), .imm 7] } {} {} (.allocated 0) s ∧
      s.register? (.reg (.abstract 0)) = some 1 ∧ s.residents.occupants 1 = 1 ∧ s.books.Sound 2 := by
  have passes : Block.Passes { name := "b", code := [.mov 0 1, .push 0] } 2
      { operands := #[.reg (.abstract 0), .imm 7] } {} {} (.allocated 0) _ :=
    .instruction .start rfl rfl
  exact ⟨_, passes, by decide +kernel, by decide +kernel, ((books_kept (by decide) _ _ _ _).1 _ _ passes).1⟩

end Target.Block

end Codegen86
