import Mathlib.Data.List.Forall2
/-!
# Computations that may fail

Taking apart what succeeds or fails: one computation after another, one for every item of a list, or a fold.
-/

set_option autoImplicit false

namespace Codegen86

variable {ε α β γ : Type}

theorem bind_ok {x : Except ε α} {f : α → Except ε β} {b : β} :
    (x >>= f) = .ok b ↔ ∃ a, x = .ok a ∧ f a = .ok b := by
  cases x with
  | error e => simp [bind, Except.bind]
  | ok a => simp [bind, Except.bind]

/-! ## Every item of a list -/

/-- All items of a list have results. -/
theorem forall₂_mapM {value : α → Except ε β} {items : List α} {results : List β}
    (ok : items.mapM value = .ok results) : List.Forall₂ (fun a b => value a = .ok b) items results := by
  induction items generalizing results with
  | nil =>
    cases ok
    exact .nil
  | cons a items ih =>
    rw [List.mapM_cons] at ok
    obtain ⟨first, head, ok⟩ := bind_ok.mp ok
    obtain ⟨others, tail, ok⟩ := bind_ok.mp ok
    cases ok
    exact .cons head (ih tail)

theorem exists_of_forall₂ {R : α → β → Prop} {items : List α} {results : List β} {b : β}
    (related : List.Forall₂ R items results) (mem : b ∈ results) : ∃ a ∈ items, R a b := by
  induction related with
  | nil => cases mem
  | @cons a c items results first _ ih =>
    rcases List.mem_cons.mp mem with rfl | mem
    · exact ⟨a, List.mem_cons_self, first⟩
    · obtain ⟨a', mem, here⟩ := ih mem
      exact ⟨a', List.mem_cons_of_mem a mem, here⟩

theorem mem_mapM {value : α → Except ε β} {items : List α} {results : List β} {b : β}
    (ok : items.mapM value = .ok results) (mem : b ∈ results) : ∃ a ∈ items, value a = .ok b := by
  obtain ⟨a, listed, here⟩ := exists_of_forall₂ (forall₂_mapM ok) mem
  exact ⟨a, listed, here⟩

/-! ## Folds -/

/-- Folding what each item gives is folding over all that the items give. -/
theorem foldlM_map (value : α → Except ε β) (put : γ → β → γ) (c : γ) (items : List α) :
    items.foldlM (fun c a => (value a).map (put c)) c = (items.mapM value).map (·.foldl put c) := by
  induction items generalizing c with
  | nil => rfl
  | cons a items ih =>
    rw [List.foldlM_cons, List.mapM_cons]
    cases value a with
    | error e => rfl
    | ok b =>
      refine (ih (put c b)).trans ?_
      cases items.mapM value <;> rfl

/-- A fold that fails fails at some item, behind others at which it did not. -/
theorem foldlM_error {step : β → α → Except ε β} {items : List α} {b : β} {e : ε}
    (failed : items.foldlM step b = .error e) :
    ∃ before a after b', items = before ++ a :: after ∧ before.foldlM step b = .ok b' ∧ step b' a = .error e := by
  induction items generalizing b with
  | nil => cases failed
  | cons a rest ih =>
    rw [List.foldlM_cons] at failed
    cases done : step b a with
    | error e' =>
      rw [done] at failed
      cases failed
      exact ⟨[], a, rest, b, rfl, rfl, done⟩
    | ok next =>
      rw [done] at failed
      obtain ⟨before, a', after, b', split, earlier, here⟩ := ih failed
      refine ⟨a :: before, a', after, b', by rw [split, List.cons_append], ?_, here⟩
      rw [List.foldlM_cons, done]
      exact earlier

end Codegen86
