import Mathlib.Data.List.Nodup
import Mathlib.Logic.Relation
/-!
# Worklists

A worklist holds the items found so far, each once, in the order in which they are worked on; the work on an item may
find more.  `Drains` is the loop that takes one item after another until none is left, without a bound on its steps.
A loop with a bound does the same where an invariant keeps the worklist as short as the bound (`drains_of_bound`).

Where an item only ever leads to the items that `next` lists, the loop searches a graph (`search`).  The order of what
it finds is breadth-first (`BreadthFirst`, `Searching.breadthFirst`), and there is only one such order
(`BreadthFirst.unique`).
-/

set_option autoImplicit false

namespace Codegen86

/-! ## The loop -/

section Loop

variable {α σ ε : Type} {items : σ → List α} {work : α → σ → Except ε σ}

/-- Items are taken one after another, from the one at `position` on, until none is left or the work on one fails. -/
inductive Drains (items : σ → List α) (work : α → σ → Except ε σ) : (position : Nat) → σ → Except ε σ → Prop
  | done {position : Nat} {s : σ} (none : (items s)[position]? = none) : Drains items work position s (.ok s)
  | fails {position : Nat} {s : σ} {a : α} {e : ε} (here : (items s)[position]? = some a)
      (fault : work a s = .error e) : Drains items work position s (.error e)
  | next {position : Nat} {s t : σ} {a : α} {result : Except ε σ} (here : (items s)[position]? = some a)
      (one : work a s = .ok t) (rest : Drains items work (position + 1) t result) :
      Drains items work position s result

/-- A bound on the steps of a loop does not show where work keeps the number of items below it. -/
theorem drains_of_bound {loop : Nat → Nat → σ → Except ε σ} (stops : ∀ position s, loop 0 position s = .ok s)
    (ends : ∀ fuel position s, (items s)[position]? = none → loop (fuel + 1) position s = .ok s)
    (goes : ∀ fuel position s a, (items s)[position]? = some a →
      loop (fuel + 1) position s = work a s >>= loop fuel (position + 1))
    {Keeps : σ → Prop} {bound : Nat} (bounded : ∀ s, Keeps s → (items s).length ≤ bound)
    (keeps : ∀ a s t, Keeps s → work a s = .ok t → Keeps t) {fuel position : Nat} {s : σ} (h : Keeps s)
    (enough : bound ≤ position + fuel) : Drains items work position s (loop fuel position s) := by
  induction fuel generalizing position s with
  | zero =>
    rw [stops]
    have few := bounded s h
    exact .done (List.getElem?_eq_none_iff.mpr (by omega))
  | succ fuel ih =>
    cases here : (items s)[position]? with
    | none =>
      rw [ends fuel position s here]
      exact .done here
    | some a =>
      rw [goes fuel position s a here]
      cases one : work a s with
      | error e => exact .fails here one
      | ok t => exact .next here one (ih (keeps a s t h one) (by omega))

end Loop

/-! ## Finding items -/

variable {α : Type} [DecidableEq α] {found more : List α} {a : α}

/-- The items found, with those among `more` that are new. -/
def extend (found : List α) : List α → List α
  | [] => found
  | a :: more => extend (if a ∈ found then found else found ++ [a]) more

theorem extend_append (found more rest : List α) : extend found (more ++ rest) = extend (extend found more) rest := by
  induction more generalizing found with
  | nil => rfl
  | cons a more ih => exact ih _

theorem isPrefix_extend (found more : List α) : found <+: extend found more := by
  induction more generalizing found with
  | nil => exact List.prefix_refl _
  | cons a more ih =>
    refine List.IsPrefix.trans ?_ (ih _)
    split
    · exact List.prefix_refl _
    · exact List.prefix_append _ _

theorem mem_extend : a ∈ extend found more ↔ a ∈ found ∨ a ∈ more := by
  induction more generalizing found with
  | nil => simp [extend]
  | cons b more ih =>
    rw [extend, ih, List.mem_cons]
    split
    · rename_i old
      constructor
      · exact Or.imp_right .inr
      · rintro (mem | rfl | mem)
        · exact .inl mem
        · exact .inl old
        · exact .inr mem
    · rw [List.mem_append, List.mem_singleton, or_assoc]

theorem nodup_extend (distinct : found.Nodup) : (extend found more).Nodup := by
  induction more generalizing found with
  | nil => exact distinct
  | cons b more ih =>
    refine ih ?_
    split
    · exact distinct
    · rename_i new
      exact List.nodup_append.mpr ⟨distinct, List.nodup_singleton b, fun a mem c mem' same =>
        new (List.mem_singleton.mp mem' ▸ same ▸ mem)⟩

theorem eraseDups_of_nodup (distinct : found.Nodup) : found.eraseDups = found := by
  induction found with
  | nil => rfl
  | cons a found ih =>
    obtain ⟨new, distinct⟩ := List.nodup_cons.mp distinct
    have others : found.filter (fun b => !b == a) = found :=
      List.filter_eq_self.mpr fun b mem => by
        have ne : b ≠ a := fun same => new (same ▸ mem)
        simpa using ne
    rw [List.eraseDups_cons, others, ih distinct]

theorem eraseDups_extend (found more : List α) : (extend found more).eraseDups = (found ++ more).eraseDups := by
  induction more generalizing found with
  | nil => rw [extend, List.append_nil]
  | cons a more ih =>
    rw [extend, ih]
    split
    · rename_i old
      rw [List.eraseDups_append, List.eraseDups_append]
      simp [List.removeAll, old]
    · rw [List.append_assoc, List.singleton_append]

theorem extend_eq (distinct : found.Nodup) : extend found more = (found ++ more).eraseDups := by
  rw [← eraseDups_extend, eraseDups_of_nodup (nodup_extend distinct)]

/-! ## Searching a graph -/

/-- Search from the items found, of which those before `position` are worked on. -/
def search (next : α → List α) : (fuel position : Nat) → List α → List α
  | 0, _, found => found
  | fuel + 1, position, found =>
    match found[position]? with
    | none => found
    | some a => search next fuel (position + 1) (extend found (next a))

/-- The reachable items, in the order in which they are found when the items next to each are added, one item after
another. -/
structure BreadthFirst (Reachable : α → Prop) (next : α → List α) (root : α) (order : List α) : Prop where
  mem : ∀ a, a ∈ order ↔ Reachable a
  once : order.Nodup
  order : order = (root :: order.flatMap next).eraseDups

/-- What holds in a search from `root` when the items before `position` are worked on. -/
structure Searching (next : α → List α) (root : α) (position : Nat) (found : List α) : Prop where
  inside : position ≤ found.length
  once : found.Nodup
  order : found = extend [root] ((found.take position).flatMap next)
  reached : ∀ a ∈ found, Relation.ReflTransGen (fun a b => b ∈ next a) root a

variable {next : α → List α} {root : α} {fuel position : Nat}

namespace Searching

theorem start (next : α → List α) (root : α) : Searching next root 0 [root] where
  inside := Nat.zero_le _
  once := List.nodup_singleton root
  order := rfl
  reached := by
    intro a mem
    obtain rfl := List.mem_singleton.mp mem
    exact .refl

/-- The next item is worked on. -/
theorem step (h : Searching next root position found) (here : found[position]? = some a) :
    Searching next root (position + 1) (extend found (next a)) := by
  obtain ⟨inside, same⟩ := List.getElem?_eq_some_iff.mp here
  obtain ⟨new, longer⟩ := isPrefix_extend found (next a)
  constructor
  · rw [← longer, List.length_append]
    omega
  · exact nodup_extend h.once
  · rw [← longer, List.take_append_of_le_length inside, longer, List.take_succ_eq_append_getElem inside, same,
      List.flatMap_append, List.flatMap_singleton, extend_append, ← h.order]
  · intro b mem
    rcases mem_extend.mp mem with old | new
    · exact h.reached b old
    · exact (h.reached a (List.mem_of_getElem? here)).tail new

/-- A search runs to its end when it has as many steps as it finds items. -/
theorem run (h : Searching next root position found)
    (enough : (search next fuel position found).length ≤ position + fuel) :
    Searching next root (search next fuel position found).length (search next fuel position found) := by
  induction fuel generalizing position found with
  | zero =>
    have all : position = found.length := Nat.le_antisymm h.inside enough
    exact all ▸ h
  | succ fuel ih =>
    unfold search at enough ⊢
    split at enough
    · rename_i none
      have all : position = found.length := Nat.le_antisymm h.inside (List.getElem?_eq_none_iff.mp none)
      exact all ▸ h
    · rename_i a here
      exact ih (h.step here) (by omega)

/-- A search is breadth-first when no item is left. -/
theorem breadthFirst (h : Searching next root found.length found) :
    BreadthFirst (Relation.ReflTransGen (fun a b => b ∈ next a) root) next root found := by
  have order := h.order
  rw [List.take_length] at order
  refine ⟨fun a => ⟨h.reached a, fun reached => ?_⟩, h.once, ?_⟩
  · induction reached with
    | refl =>
      rw [order, mem_extend]
      exact .inl (List.mem_singleton_self root)
    | tail _ step ih =>
      rw [order, mem_extend]
      exact .inr (List.mem_flatMap.mpr ⟨_, ih, step⟩)
  · rwa [extend_eq (List.nodup_singleton root), List.singleton_append] at order

end Searching

namespace BreadthFirst

variable {Reachable : α → Prop} {order order' : List α}

/-- What the first items lead to comes next. -/
theorem isPrefix_order (h : BreadthFirst Reachable next root order) (k : Nat) :
    extend [root] ((order.take k).flatMap next) <+: order := by
  have whole := h.order
  rw [← List.singleton_append, ← extend_eq (List.nodup_singleton root)] at whole
  have split : order.flatMap next = (order.take k).flatMap next ++ (order.drop k).flatMap next := by
    rw [← List.flatMap_append, List.take_append_drop]
  have first := isPrefix_extend (extend [root] ((order.take k).flatMap next)) ((order.drop k).flatMap next)
  rwa [← extend_append, ← split, ← whole] at first

/-- The reachable items have one breadth-first order. -/
theorem unique (steps : ∀ a, Reachable a → Relation.ReflTransGen (fun a b => b ∈ next a) root a)
    (h : BreadthFirst Reachable next root order) (h' : BreadthFirst Reachable next root order') : order = order' := by
  have length : order.length = order'.length :=
    ((List.perm_ext_iff_of_nodup h.once h'.once).mpr fun a => (h.mem a).trans (h'.mem a).symm).length_eq
  suffices same : ∀ k ≤ order.length, order.take k = order'.take k by
    have all := same order.length (Nat.le_refl _)
    rwa [List.take_length, length, List.take_length] at all
  intro k inside
  induction k with
  | zero => rw [List.take_zero, List.take_zero]
  | succ k ih =>
    have agree := ih (by omega)
    obtain ⟨rest, here⟩ := h.isPrefix_order k
    obtain ⟨rest', there⟩ := h'.isPrefix_order k
    rw [← agree] at there
    by_cases longer : k + 1 ≤ (extend [root] ((order.take k).flatMap next)).length
    · have first : ∀ more, (extend [root] ((order.take k).flatMap next) ++ more).take (k + 1) =
          (extend [root] ((order.take k).flatMap next)).take (k + 1) :=
        fun more => List.take_append_of_le_length longer
      have agree := (first rest).trans (first rest').symm
      rwa [here, there] at agree
    · -- otherwise the first `k` items lead to nothing new, and nothing else is reachable
      have closed : extend [root] ((order.take k).flatMap next) ⊆ order.take k := by
        have taken := List.take_prefix k order
        refine (List.prefix_of_prefix_length_le ⟨rest, here⟩ taken ?_).subset
        rw [List.length_take]
        omega
      have all : ∀ a, Relation.ReflTransGen (fun a b => b ∈ next a) root a → a ∈ order.take k := by
        intro a reached
        induction reached with
        | refl => exact closed (mem_extend.mpr (.inl (List.mem_singleton_self root)))
        | tail _ step ih => exact closed (mem_extend.mpr (.inr (List.mem_flatMap.mpr ⟨_, ih, step⟩)))
      have few := h.once.length_le_of_subset fun a mem => all a (steps a ((h.mem a).mp mem))
      rw [List.length_take] at few
      omega

end BreadthFirst

end Codegen86
