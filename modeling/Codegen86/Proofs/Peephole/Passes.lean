import Codegen86.Proofs.Peephole.Applied
import Codegen86.Proofs.Peephole.Compaction
/-!
# Optimizing step by step

What holds of a program, and stays true when one rule is applied somewhere and when the empty blocks of one
function are removed, holds of the optimized program (`optimize_induction`).  Moving the entry function to
the front commutes with both (`Applies.placed`, `Compacts.placed`).
-/

set_option autoImplicit false

namespace Codegen86.Peephole

open Target Symbolic

theorem passCode_induction (rules : List Rule) {pool : Pool} {next : Option String}
    {I : List Instruction → Prop}
    (step : ∀ ahead code rest, Dropped pool next code rest → I (ahead ++ code) → I (ahead ++ rest))
    (ahead code : List Instruction) (start : I (ahead ++ code)) :
    I (ahead ++ (passCode rules pool next code).1) := by
  fun_induction passCode rules pool next code generalizing ahead with
  | case1 code rule rest applies _ out applied eq ih =>
    simp only [eq] at ih
    have dropped := dropped_of_shrink? (Rule.shrink?_of_first? applies).2
    exact ih ahead (step ahead code rest dropped start)
  | case2 => exact start
  | case3 i rest _ out applied eq ih =>
    simp only [eq] at ih
    have := ih (ahead ++ [i]) (by simpa using start)
    simpa using this

theorem passBlocks_induction (rules : List Rule) (pool : Pool) {I : List Block → Prop}
    (step : ∀ above b below ahead code rest, b.code = ahead ++ code →
      Dropped pool (fallsInto below) code rest → I (above ++ b :: below) →
      I (above ++ { b with code := ahead ++ rest } :: below))
    (above blocks : List Block) (start : I (above ++ blocks)) :
    I (above ++ (passBlocks rules pool blocks).1) := by
  induction blocks generalizing above with
  | nil => exact start
  | cons b below ih =>
    have here : I (above ++
        { b with code := (passCode rules pool (fallsInto below) b.code).1 } :: below) := by
      refine passCode_induction rules (I := fun code => I (above ++ { b with code } :: below))
        (fun ahead code rest dropped now => ?_) [] b.code start
      exact step above { b with code := ahead ++ code } below ahead code rest rfl dropped now
    have := ih (above ++ [{ b with code := (passCode rules pool (fallsInto below) b.code).1 }])
      (by simpa using here)
    simpa [passBlocks] using this

/-- What one rule, and the removal of the empty blocks of a function, keep of functions and pool. -/
structure Kept (I : Pool → List Function → Prop) : Prop where
  applies : ∀ pool before f after above b below ahead code rest, f.blocks = above ++ b :: below →
    b.code = ahead ++ code → Dropped pool (fallsInto below) code rest → I pool (before ++ f :: after) →
    I pool (before ++ { f with blocks := above ++ { b with code := ahead ++ rest } :: below } :: after)
  compacts : ∀ pool before f after, I pool (before ++ f :: after) →
    I (renameLabels (compact f.blocks).2 pool (compact f.blocks).1) (before ++ compacted f :: after)

namespace Kept

variable {I : Pool → List Function → Prop}

theorem passFunction (kept : Kept I) (rules : List Rule) (pool : Pool) (before after : List Function)
    (f : Function) (start : I pool (before ++ f :: after)) :
    I (passFunction rules pool f).pool (before ++ (passFunction rules pool f).result :: after) := by
  have blocks := passBlocks_induction rules pool
    (I := fun blocks => I pool (before ++ { f with blocks } :: after))
    (fun above b below ahead code rest split dropped now =>
      kept.applies pool before { f with blocks := above ++ b :: below } after above b below ahead code rest
        rfl split dropped now) [] f.blocks start
  exact kept.compacts pool before _ after blocks

theorem passFunctions (kept : Kept I) (rules : List Rule) (pool : Pool) (before functions : List Function)
    (start : I pool (before ++ functions)) :
    I (passFunctions rules pool functions).pool
      (before ++ (passFunctions rules pool functions).result) := by
  induction functions generalizing pool before with
  | nil => exact start
  | cons f rest ih =>
    have here := kept.passFunction rules pool before rest f start
    have := ih _ (before ++ [(Peephole.passFunction rules pool f).result]) (by simpa using here)
    simpa [Peephole.passFunctions] using this

end Kept

/-- What every rule, wherever it applies, and every removal of empty blocks keep, the optimizer keeps. -/
theorem optimize_induction {I : Program → Prop} (applies : ∀ p p', Applies p p' → I p → I p')
    (compacts : ∀ p p', Compacts p p' → I p → I p') (rules : List Rule) (p : Program)
    (journal : Journal) (start : I p) : I (optimize rules p journal).1 := by
  have pass : ∀ p, I p → I (passProgram rules p).result := by
    intro p start
    have kept : Kept fun pool functions => I { p with functions, pool } := by
      constructor
      · intro pool before f after above b below ahead code rest blocks split dropped now
        exact applies _ _ (.intro (p := { p with functions := before ++ f :: after, pool }) rfl blocks split
          dropped) now
      · intro pool before f after now
        exact compacts _ _ (.intro (p := { p with functions := before ++ f :: after, pool }) rfl) now
    exact kept.passFunctions rules p.pool [] p.functions start
  fun_induction optimize rules p journal with
  | case1 p journal _ _ changed smaller out _ last eq ih =>
    have rest := ih (pass p start)
    rw [eq] at rest
    exact rest
  | case2 p journal => exact pass p start

theorem Applies.linkable {p p' : Program} (applies : Applies p p') (linkable : p.Linkable) :
    p'.Linkable := by
  obtain ⟨s, removes⟩ := applies.removes linkable
  rw [removes.result]
  exact removes.inside.linkable linkable removes.followed

theorem Compacts.linkable {p p' : Program} (compacts : Compacts p p') (linkable : p.Linkable) :
    p'.Linkable := by
  obtain ⟨functions⟩ := compacts
  exact compactedProgram_linkable linkable functions

/-- The optimizer leaves a program that can be linked. -/
theorem optimize_linkable {p : Program} (linkable : p.Linkable) (rules : List Rule) (journal : Journal) :
    (optimize rules p journal).1.Linkable :=
  optimize_induction (I := Program.Linkable) (fun _ _ applies => applies.linkable)
    (fun _ _ compacts => compacts.linkable) rules p journal linkable

/-! ## The entry function first -/

/-- A function that is replaced is replaced where the entry function comes first. -/
theorem placeEntryFirst_replace {p q : Program} {before after : List Function} {f : Function}
    (functions : p.functions = before ++ f :: after) (placed : p.placeEntryFirst = .ok q)
    (f' : Function) (name : f'.name = f.name) (pool : Pool) :
    q.pool = p.pool ∧ ∃ before' after', q.functions = before' ++ f :: after' ∧
      Program.placeEntryFirst { p with functions := before ++ f' :: after, pool } =
        .ok { q with functions := before' ++ f' :: after', pool } := by
  unfold Program.placeEntryFirst at placed ⊢
  cases entry : p.entry with
  | none =>
    rw [entry] at placed
    cases placed
    exact ⟨rfl, before, after, functions, by simp only [entry]⟩
  | some first =>
    simp only [entry, Program.function?, functions] at placed ⊢
    cases inBefore : before.find? (·.name == first) with
    | some g =>
      have found : ∀ rest, (before ++ rest).find? (·.name == first) = some g := by
        intro rest
        rw [List.find?_append, inBefore]
        rfl
      have erase : ∀ rest, (before ++ rest).eraseP (·.name == first) =
          before.eraseP (·.name == first) ++ rest := by
        intro rest
        exact List.eraseP_append_left (List.find?_some inBefore) rest (List.mem_of_find?_eq_some inBefore)
      simp only [found, erase] at placed ⊢
      cases placed
      exact ⟨rfl, g :: before.eraseP (·.name == first), after, rfl, rfl⟩
    | none =>
      have found : ∀ rest, (before ++ rest).find? (·.name == first) =
          rest.find? (·.name == first) := by
        intro rest
        rw [List.find?_append, inBefore]
        rfl
      have off : ∀ g ∈ before, ¬ (g.name == first) = true := by
        simpa using List.find?_eq_none.mp inBefore
      simp only [found, List.eraseP_append_right _ off, List.find?_cons, List.eraseP_cons, name]
        at placed ⊢
      by_cases same : (f.name == first) = true
      · simp only [same] at placed ⊢
        cases placed
        exact ⟨rfl, [], before ++ after, rfl, rfl⟩
      · simp only [Bool.not_eq_true] at same
        simp only [same] at placed ⊢
        cases inAfter : after.find? (·.name == first) with
        | none =>
          rw [inAfter] at placed
          cases placed
        | some g =>
          simp only [inAfter] at placed ⊢
          cases placed
          exact ⟨rfl, g :: before, after.eraseP (·.name == first), rfl, rfl⟩

variable {p p' q : Program}

theorem Applies.placed (h : Applies p p') (placed : p.placeEntryFirst = .ok q) :
    ∃ q', p'.placeEntryFirst = .ok q' ∧ Applies q q' := by
  obtain ⟨functions, blocks, split, dropped⟩ := h
  rename_i before after f above below b ahead code rest
  obtain ⟨pool, before', after', functions', placed'⟩ := placeEntryFirst_replace functions placed
    { f with blocks := above ++ { b with code := ahead ++ rest } :: below } rfl p.pool
  refine ⟨_, placed', ?_⟩
  rw [← pool]
  exact .intro functions' blocks split (pool ▸ dropped)

theorem Compacts.placed (h : Compacts p p') (placed : p.placeEntryFirst = .ok q) :
    ∃ q', p'.placeEntryFirst = .ok q' ∧ Compacts q q' := by
  obtain ⟨functions⟩ := h
  rename_i before after f
  obtain ⟨pool, before', after', functions', placed'⟩ := placeEntryFirst_replace functions placed
    (compacted f) rfl (renameLabels (compact f.blocks).2 p.pool (compact f.blocks).1)
  refine ⟨_, placed', ?_⟩
  rw [← pool]
  exact .intro functions'

end Codegen86.Peephole
