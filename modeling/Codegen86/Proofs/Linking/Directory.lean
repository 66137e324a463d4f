import Codegen86.Proofs.Linking.Assembly
import Mathlib.Data.List.Induction
import Mathlib.Data.List.Nodup
import Mathlib.Data.List.Perm.Basic
/-!
# Directories

Programs find functions by name in the list of their functions.  A directory keeps the positions of the functions
by name as well, and reads them instead: every function that is added gets its position, and the positions are made
anew when the entry function moves to the front.  A stale position would lead to another function.

Whatever is called on an empty directory, the positions stay in step with the functions (`Directory.Indexed`), and
the directory does what the program does (`Directory.Indexed.call`).
-/

set_option autoImplicit false

namespace Codegen86.Target

/-! ## Calls -/

namespace Layout

/-- Give labels their addresses one after another, up to the first one without an address. -/
def patchAll (l : Layout) : List OperandRef → Pool → Pool × Option Error
  | [], pool => (pool, none)
  | ref :: rest, pool =>
    match l.patchRef pool ref with
    | .ok pool => l.patchAll rest pool
    | .error e => (pool, some e)

end Layout

/-- What is called on a program that is put together. -/
inductive Call
  | add (f : Function)
  | setEntry (name : String)
  | placeEntryFirst
  | assemble

namespace Program

/-- The pool after the labels of a program in layout order are resolved, and the error if they cannot be. -/
def resolve (p : Program) : Pool × Option Error :=
  match Layout.ofProgram p with
  | .error e => (p.pool, some e)
  | .ok layout => layout.patchAll p.destinations p.pool

/-- The program after a step that fails without a change. -/
def orKeep (p : Program) : Except Error Program → Program × Option Error
  | .ok q => (q, none)
  | .error e => (p, some e)

/-- The program after a call, and the error if the call fails.  Where assembly fails behind the move of the entry
function, that function stays in front, and labels keep the addresses that they have got. -/
def call (p : Program) : Call → Program × Option Error
  | .add f => p.orKeep (p.add f)
  | .setEntry name => (p.setEntry name, none)
  | .placeEntryFirst => p.orKeep p.placeEntryFirst
  | .assemble =>
    match p.placeEntryFirst with
    | .error e => (p, some e)
    | .ok q => ({ q with pool := q.resolve.1 }, q.resolve.2)

/-- The program after calls. -/
def after (p : Program) (calls : List Call) : Program := calls.foldl (fun p c => (p.call c).1) p

/-- What a program makes of a call, by its own operations. -/
def attempt (p : Program) : Call → Except Error Program
  | .add f => p.add f
  | .setEntry name => .ok (p.setEntry name)
  | .placeEntryFirst => p.placeEntryFirst
  | .assemble => p.assemble.map (·.1)

/-- What a call returns. -/
def returned : Program × Option Error → Except Error Program
  | (q, none) => .ok q
  | (_, some e) => .error e

theorem returned_orKeep (p : Program) (r : Except Error Program) : returned (p.orKeep r) = r := by
  cases r <;> rfl

theorem patch_eq (layout : Layout) (p : Program) (refs : List OperandRef) (pool : Pool) :
    (refs.foldlM layout.patchRef pool).map (fun pool => { p with pool }) =
      returned ({ p with pool := (layout.patchAll refs pool).1 }, (layout.patchAll refs pool).2) := by
  induction refs generalizing pool with
  | nil => rfl
  | cons ref rest ih =>
    rw [List.foldlM_cons, Layout.patchAll]
    cases layout.patchRef pool ref with
    | error e => rfl
    | ok pool => exact ih pool

theorem returned_assemble (p : Program) : returned (p.call .assemble) = p.assemble.map (·.1) := by
  rw [call, assemble]
  cases p.placeEntryFirst with
  | error e => rfl
  | ok q =>
    show returned _ = Except.map _ (Layout.ofProgram q >>= fun layout => layout.patch q >>= fun p => pure (p, layout))
    dsimp only [resolve]
    cases Layout.ofProgram q with
    | error e => rfl
    | ok layout =>
      refine (patch_eq layout q q.destinations q.pool).symm.trans ?_
      have patch : layout.patch q =
          q.destinations.foldlM layout.patchRef q.pool >>= fun pool => pure { q with pool } := rfl
      show _ = Except.map _ (layout.patch q >>= fun p => pure (p, layout))
      rw [patch]
      cases q.destinations.foldlM layout.patchRef q.pool <;> rfl

/-- A call returns what the program makes of it. -/
theorem returned_call (p : Program) (c : Call) : returned (p.call c) = p.attempt c := by
  cases c with
  | add f => exact p.returned_orKeep (p.add f)
  | setEntry name => rfl
  | placeEntryFirst => exact p.returned_orKeep p.placeEntryFirst
  | assemble => exact p.returned_assemble

end Program

/-- A program with the positions of its functions by name.  A later entry hides an earlier one of the same name. -/
structure Directory extends Program where
  index : List (String × Nat) := []

namespace Directory

/-- The positions of functions, entered from the first to the last. -/
def indexed (functions : List Function) : List (String × Nat) :=
  functions.zipIdx.foldl (fun index entry => (entry.1.name, entry.2) :: index) []

def position? (d : Directory) (name : String) : Option Nat := d.index.lookup name

def function? (d : Directory) (name : String) : Option Function := (d.position? name).bind (d.functions[·]?)

/-- Change a function in its place. -/
def modify (d : Directory) (name : String) (change : Function → Function) : Directory :=
  match d.position? name with
  | none => d
  | some i => { d with functions := d.functions.modify i change }

/-- Add a function under a new name. -/
def add (d : Directory) (f : Function) : Directory × Option Error :=
  if (d.position? f.name).isSome then (d, some (.duplicateFunction f.name))
  else ({ d with functions := d.functions ++ [f], index := (f.name, d.functions.length) :: d.index }, none)

/-- Move the entry function to the front, by its position. -/
def placeEntryFirst (d : Directory) : Directory × Option Error :=
  match d.entry with
  | none => (d, none)
  | some name =>
    match d.position? name with
    | none => (d, some (.missingEntry name))
    | some i =>
      if i = 0 then (d, none)
      else
        let functions := d.functions[i]?.toList ++ d.functions.eraseIdx i
        ({ d with functions, index := indexed functions }, none)

/-- The directory after a call, and the error if the call fails. -/
def call (d : Directory) : Call → Directory × Option Error
  | .add f => d.add f
  | .setEntry name => ({ d with entry := some name }, none)
  | .placeEntryFirst => d.placeEntryFirst
  | .assemble =>
    match d.placeEntryFirst with
    | (d, some e) => (d, some e)
    | (d, none) => ({ d with pool := d.resolve.1 }, d.resolve.2)

/-- The directory after calls. -/
def after (d : Directory) (calls : List Call) : Directory := calls.foldl (fun d c => (d.call c).1) d

/-! ## Positions -/

/-- The index leads to the functions. -/
structure Indexed (d : Directory) : Prop where
  distinct : (d.functions.map (·.name)).Nodup
  positions : ∀ name, d.position? name = d.functions.findIdx? (·.name == name)

variable {d d' : Directory} {f : Function} {name : String}

theorem function?_of_none (at? : d.position? name = none) : d.function? name = none := by
  rw [function?, at?]
  rfl

theorem function?_of_some {i : Nat} (at? : d.position? name = some i) : d.function? name = d.functions[i]? := by
  rw [function?, at?]
  rfl

theorem lookup_concat {index : List (String × Nat)} {functions : List Function}
    (h : ∀ name, index.lookup name = functions.findIdx? (·.name == name)) (new : f.name ∉ functions.map (·.name))
    (name : String) :
    List.lookup name ((f.name, functions.length) :: index) = (functions ++ [f]).findIdx? (·.name == name) := by
  rw [List.lookup_cons, List.findIdx?_append, ← h]
  by_cases same : name = f.name
  · have absent : index.lookup name = none := by
      rw [h, List.findIdx?_eq_none_iff]
      intro g mem
      have other : g.name ≠ name := fun eq => new (same ▸ eq ▸ List.mem_map_of_mem mem)
      simpa using other
    rw [absent]
    simp [same]
  · have first : (name == f.name) = false := by simpa using same
    have last : [f].findIdx? (·.name == name) = none := by simp [Ne.symm same]
    rw [first, last]
    simp

theorem lookup_indexed {functions : List Function} (distinct : (functions.map (·.name)).Nodup) (name : String) :
    (indexed functions).lookup name = functions.findIdx? (·.name == name) := by
  induction functions using List.reverseRecOn generalizing name with
  | nil => rfl
  | append_singleton rest f ih =>
    rw [List.map_append, List.nodup_append] at distinct
    obtain ⟨before, -, apart⟩ := distinct
    have new : f.name ∉ rest.map (·.name) := fun mem => apart _ mem f.name (by simp) rfl
    have entered : indexed (rest ++ [f]) = (f.name, rest.length) :: indexed rest := by
      simp [indexed, List.zipIdx_append]
    rw [entered]
    exact lookup_concat (ih before) new name

namespace Indexed

theorem function? (h : d.Indexed) (name : String) : d.function? name = d.toProgram.function? name := by
  rw [Directory.function?, h.positions, Program.function?, List.find?_eq_bind_findIdx?_getElem?]

theorem isSome_position? (h : d.Indexed) (name : String) :
    (d.position? name).isSome = (d.toProgram.function? name).isSome := by
  rw [h.positions, Program.function?, List.findIdx?_isSome, List.isSome_find?]

theorem inside (h : d.Indexed) {i : Nat} (found : d.position? name = some i) :
    ∃ f, d.functions[i]? = some f ∧ f.name = name ∧ d.toProgram.function? name = some f := by
  rw [h.positions] at found
  obtain ⟨less, named, -⟩ := List.findIdx?_eq_some_iff_getElem.mp found
  refine ⟨d.functions[i], List.getElem?_eq_getElem less, by simpa using named, ?_⟩
  rw [Program.function?, List.find?_eq_bind_findIdx?_getElem?, found]
  exact List.getElem?_eq_getElem less

end Indexed

/-! ## Steps -/

namespace Indexed

theorem add (h : d.Indexed) (f : Function) :
    ((d.add f).1.toProgram, (d.add f).2) = d.toProgram.call (.add f) ∧ (d.add f).1.Indexed := by
  rw [Directory.add, Program.call, Program.add, ← h.isSome_position?]
  cases taken : (d.position? f.name).isSome with
  | true => exact ⟨rfl, h⟩
  | false =>
    have new : f.name ∉ d.functions.map (·.name) := by
      rw [h.positions, List.findIdx?_isSome] at taken
      simpa using taken
    refine ⟨rfl, ?_, lookup_concat h.positions new⟩
    show ((d.functions ++ [f]).map (·.name)).Nodup
    rw [List.map_append]
    exact List.nodup_append.mpr ⟨h.distinct, by simp, fun name mem other last =>
      fun same => new (by simpa [← List.mem_singleton.mp last, ← same] using mem)⟩

theorem placeEntryFirst (h : d.Indexed) :
    (d.placeEntryFirst.1.toProgram, d.placeEntryFirst.2) = d.toProgram.call .placeEntryFirst ∧
      d.placeEntryFirst.1.Indexed := by
  rw [Directory.placeEntryFirst, Program.call, Program.placeEntryFirst]
  cases entry : d.entry with
  | none => exact ⟨rfl, h⟩
  | some name =>
    dsimp only
    cases at? : d.position? name with
    | none =>
      rw [← h.function?, function?_of_none at?]
      exact ⟨rfl, h⟩
    | some i =>
      obtain ⟨f, here, -, found⟩ := h.inside at?
      have erased : d.functions.eraseP (·.name == name) = d.functions.eraseIdx i := by
        rw [List.eraseP_eq_eraseIdx, ← h.positions, at?]
      rw [found]
      dsimp only
      by_cases front : i = 0
      · have same : f :: d.functions.eraseP (·.name == name) = d.functions := by
          rw [erased, front, List.eraseIdx_zero]
          rw [front, ← List.head?_eq_getElem?] at here
          exact List.cons_head?_tail here
        rw [if_pos front, same, ← entry]
        exact ⟨rfl, h⟩
      · rw [if_neg front, here, erased, ← entry]
        obtain ⟨less, rfl⟩ := List.getElem?_eq_some_iff.mp here
        have moved : ((d.functions[i] :: d.functions.eraseIdx i).map (·.name)).Nodup :=
          ((List.getElem_cons_eraseIdx_perm less).map _).nodup_iff.mpr h.distinct
        exact ⟨rfl, moved, lookup_indexed moved⟩

/-- A call does to a directory what it does to its program, and the positions stay in step. -/
theorem call (h : d.Indexed) (c : Call) :
    ((d.call c).1.toProgram, (d.call c).2) = d.toProgram.call c ∧ (d.call c).1.Indexed := by
  cases c with
  | add f => exact h.add f
  | setEntry name => exact ⟨rfl, h.distinct, h.positions⟩
  | placeEntryFirst => exact h.placeEntryFirst
  | assemble =>
    obtain ⟨same, placed⟩ := h.placeEntryFirst
    rw [Directory.call, Program.call]
    rw [Program.call] at same
    generalize d.placeEntryFirst = moved at same placed ⊢
    obtain ⟨d', failure⟩ := moved
    cases order : d.toProgram.placeEntryFirst with
    | error e =>
      rw [order] at same
      obtain ⟨kept, rfl⟩ := Prod.mk.inj same
      exact ⟨congrArg (·, some e) kept, placed⟩
    | ok q =>
      rw [order] at same
      obtain ⟨rfl, rfl⟩ := Prod.mk.inj same
      exact ⟨rfl, placed.distinct, placed.positions⟩

/-- Changing the function under a name changes the function that is found there, and no other. -/
theorem modify (h : d.Indexed) (name : String) (change : Function → Function) :
    (d.modify name change).functions =
      d.functions.map fun f => if d.function? name = some f then change f else f := by
  cases at? : d.position? name with
  | none =>
    rw [Directory.modify, at?, function?_of_none at?]
    simp
  | some i =>
    obtain ⟨f, here, -, -⟩ := h.inside at?
    rw [Directory.modify, at?, function?_of_some at?, here]
    refine List.ext_getElem? fun j => ?_
    show (d.functions.modify i change)[j]? = _
    rw [List.getElem?_modify, List.getElem?_map]
    cases there : d.functions[j]? with
    | none => rfl
    | some g =>
      -- functions of one name have one position
      have same : i = j ↔ f = g := by
        constructor
        · rintro rfl
          exact Option.some.inj (here.symm.trans there)
        · rintro rfl
          obtain ⟨less, -⟩ := List.getElem?_eq_some_iff.mp here
          refine (List.getElem?_inj (by simpa using less) h.distinct).mp ?_
          rw [List.getElem?_map, List.getElem?_map, here, there]
      simp [same]

end Indexed

end Directory

/-! ## Functions -/

/-- The functions after a call, without the order: the first one that is added under each name. -/
def Call.adds (functions : List Function) : Call → List Function
  | .add f => if f.name ∈ functions.map (·.name) then functions else functions ++ [f]
  | .setEntry _ | .placeEntryFirst | .assemble => functions

/-- The functions that calls add, the first under each name. -/
def added (calls : List Call) : List Function := calls.foldl Call.adds []

theorem added_concat (calls : List Call) (c : Call) : added (calls ++ [c]) = c.adds (added calls) :=
  List.foldl_concat ..

theorem mem_added_names (calls : List Call) (name : String) :
    name ∈ (added calls).map (·.name) ↔ ∃ f, Call.add f ∈ calls ∧ f.name = name := by
  induction calls using List.reverseRecOn with
  | nil => simp [added]
  | append_singleton calls c ih =>
    rw [added_concat]
    cases c with
    | add f =>
      have last : (∃ g, Call.add g ∈ calls ++ [.add f] ∧ g.name = name) ↔
          (∃ g, Call.add g ∈ calls ∧ g.name = name) ∨ f.name = name := by
        simp [or_and_right, exists_or]
      rw [last, ← ih, Call.adds]
      split
      · rename_i old
        exact ⟨.inl, fun either => either.elim id fun same => same ▸ old⟩
      · simp [eq_comm]
    | setEntry _ | placeEntryFirst | assemble => simpa [Call.adds] using ih

namespace Program

theorem function?_isSome (p : Program) (name : String) :
    (p.function? name).isSome = true ↔ name ∈ p.functions.map (·.name) := by
  simp [function?]

/-- A call keeps the functions, and adds one at most. -/
theorem call_perm {p : Program} {functions : List Function} (h : p.functions.Perm functions) (c : Call) :
    (p.call c).1.functions.Perm (c.adds functions) := by
  have names : ∀ name, name ∈ p.functions.map (·.name) ↔ name ∈ functions.map (·.name) := fun _ =>
    (h.map _).mem_iff
  cases c with
  | add f =>
    rw [call, Program.add, Call.adds]
    by_cases old : f.name ∈ functions.map (·.name)
    · rw [if_pos ((p.function?_isSome f.name).mpr ((names f.name).mpr old)), if_pos old]
      exact h
    · rw [if_neg (mt (p.function?_isSome f.name).mp (mt (names f.name).mp old)), if_neg old]
      exact h.append_right [f]
  | setEntry name => exact h
  | placeEntryFirst =>
    rw [call]
    cases placed : p.placeEntryFirst with
    | error e => exact h
    | ok q => exact (placeEntryFirst_perm placed).trans h
  | assemble =>
    rw [call]
    cases placed : p.placeEntryFirst with
    | error e => exact h
    | ok q => exact (placeEntryFirst_perm placed).trans h

end Program

namespace Directory

variable {d : Directory}

/-- What calls on an empty directory lead to. -/
theorem after_indexed (pool : Pool) (calls : List Call) :
    (after { pool } calls).Indexed ∧ (after { pool } calls).toProgram = Program.after { pool } calls ∧
      (after { pool } calls).functions.Perm (added calls) := by
  induction calls using List.reverseRecOn with
  | nil => exact ⟨⟨List.nodup_nil, fun _ => rfl⟩, rfl, .refl _⟩
  | append_singleton calls c ih =>
    obtain ⟨indexed, same, perm⟩ := ih
    obtain ⟨call, next⟩ := indexed.call c
    have program := congrArg Prod.fst call
    dsimp only at program
    rw [added_concat, after, Program.after, List.foldl_concat, List.foldl_concat, ← after, ← Program.after]
    refine ⟨next, ?_, ?_⟩
    · rw [program, same]
    · rw [program]
      exact Program.call_perm perm c

theorem Indexed.function?_eq_some (h : d.Indexed) {f : Function} {name : String} :
    d.function? name = some f ↔ f ∈ d.functions ∧ f.name = name := by
  rw [h.function?, Program.function?]
  constructor
  · intro found
    exact ⟨List.mem_of_find?_eq_some found, by simpa using List.find?_some found⟩
  · rintro ⟨mem, rfl⟩
    obtain ⟨g, found⟩ := Option.isSome_iff_exists.mp
      ((d.toProgram.function?_isSome f.name).mpr (List.mem_map_of_mem mem))
    have named : g.name = f.name := by simpa using List.find?_some found
    have same := List.inj_on_of_nodup_map h.distinct (List.mem_of_find?_eq_some found) mem named
    exact same ▸ found

/-- The functions of a directory and how they are found, after calls on an empty one. -/
structure Consistent (calls : List Call) (d : Directory) : Prop where
  /-- No function is lost or repeated, and names stay distinct. -/
  functions : d.functions.Perm (added calls)
  distinct : (d.functions.map (·.name)).Nodup
  /-- Every position is one of a function, which is found under its name, and is the one that changes in place. -/
  inside : ∀ name i, d.position? name = some i → i < d.functions.length
  found : ∀ name f, d.function? name = some f ↔ f ∈ added calls ∧ f.name = name
  known : ∀ name, (d.function? name).isSome = true ↔ ∃ f, Call.add f ∈ calls ∧ f.name = name
  modified : ∀ name change, (d.modify name change).functions =
    d.functions.map fun f => if d.function? name = some f then change f else f
  refound : ∀ name change, (d.modify name change).function? name = (d.function? name).map change
  /-- Moving the entry function keeps the others in their order. -/
  moved : ∀ d', d.placeEntryFirst = (d', none) → d.toProgram.InLayoutOrder d'.toProgram
  /-- What fails, and that it changes nothing. -/
  taken : ∀ f e, (d.add f).2 = some e ↔
    e = .duplicateFunction f.name ∧ (∃ g, Call.add g ∈ calls ∧ g.name = f.name) ∧ (d.add f).1 = d
  missing : ∀ e, d.placeEntryFirst.2 = some e ↔ ∃ name, d.entry = some name ∧ e = .missingEntry name ∧
    (¬ ∃ f, Call.add f ∈ calls ∧ f.name = name) ∧ d.placeEntryFirst.1 = d

/-- An addition that fails changes nothing. -/
theorem add_error (d : Directory) (f : Function) (e : Error) :
    (d.add f).2 = some e ↔ e = .duplicateFunction f.name ∧ (d.position? f.name).isSome = true ∧ (d.add f).1 = d := by
  unfold add
  split
  · rename_i old
    simp [old, eq_comm]
  · rename_i new
    simp [new]

/-- A move that fails changes nothing. -/
theorem placeEntryFirst_error (d : Directory) (e : Error) :
    d.placeEntryFirst.2 = some e ↔ ∃ name, d.entry = some name ∧ e = .missingEntry name ∧
      d.position? name = none ∧ d.placeEntryFirst.1 = d := by
  unfold placeEntryFirst
  cases entry : d.entry with
  | none => simp
  | some name =>
    dsimp only
    cases at? : d.position? name with
    | none => simp [at?, eq_comm]
    | some i =>
      dsimp only
      split <;> simp [at?]

/-- The function that is changed in its place is found changed. -/
theorem function?_modify (d : Directory) (name : String) (change : Function → Function) :
    (d.modify name change).function? name = (d.function? name).map change := by
  cases at? : d.position? name with
  | none =>
    rw [modify, at?, function?_of_none at?]
    rfl
  | some i =>
    have same : (d.modify name change).position? name = some i := by
      rw [modify, at?]
      exact at?
    rw [function?_of_some same, function?_of_some at?, modify, at?]
    simp

theorem Indexed.consistent (h : d.Indexed) {calls : List Call} (perm : d.functions.Perm (added calls)) :
    d.Consistent calls where
  functions := perm
  distinct := h.distinct
  inside name i at? := by
    obtain ⟨f, here, -⟩ := h.inside at?
    exact (List.getElem?_eq_some_iff.mp here).1
  found name f := by rw [h.function?_eq_some, perm.mem_iff]
  known name := by rw [h.function?, Program.function?_isSome, (perm.map _).mem_iff, mem_added_names]
  modified := h.modify
  refound := d.function?_modify
  moved d' moved := by
    have placed := h.placeEntryFirst.1
    rw [moved, Program.call] at placed
    refine Program.placeEntryFirst_iff.mp ?_
    rw [← Program.returned_orKeep d.toProgram d.toProgram.placeEntryFirst, ← placed]
    rfl
  taken f e := by
    rw [add_error, h.isSome_position?, Program.function?_isSome, (perm.map _).mem_iff, mem_added_names]
  missing e := by
    rw [placeEntryFirst_error]
    refine exists_congr fun name => and_congr_right fun _ => and_congr_right fun _ => and_congr_left fun _ => ?_
    rw [← mem_added_names, ← (perm.map _).mem_iff, ← Program.function?_isSome, ← h.isSome_position?]
    simp

/-- **Functions are found by name, whatever is called.**  After any calls on an empty directory, it holds the program
that the same calls make without positions, finds what that program finds, and does what that program does; and the
functions are the added ones, each found under its own name. -/
theorem after_consistent (pool : Pool) (calls : List Call) :
    let d := after { pool } calls
    d.toProgram = Program.after { pool } calls ∧
      (∀ name, d.function? name = d.toProgram.function? name) ∧
      (∀ c, Program.returned ((d.call c).1.toProgram, (d.call c).2) = d.toProgram.attempt c) ∧
      d.Consistent calls := by
  obtain ⟨indexed, same, perm⟩ := after_indexed pool calls
  refine ⟨same, indexed.function?, fun c => ?_, indexed.consistent perm⟩
  rw [(indexed.call c).1, Program.returned_call]

/-- A function that stood before the entry function is found behind it, also after a call that fails. -/
example :
    let d := after {} [.add { name := "helper" }, .add { name := "main" }, .setEntry "main", .placeEntryFirst,
      .setEntry "missing", .placeEntryFirst]
    d.functions.map (·.name) = ["main", "helper"] ∧ d.position? "helper" = some 1 ∧
      (d.function? "helper").map (·.name) = some "helper" ∧ d.placeEntryFirst.2 = some (.missingEntry "missing") := by
  decide

end Directory

end Codegen86.Target
