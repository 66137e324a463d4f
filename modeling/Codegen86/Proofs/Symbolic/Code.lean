import Codegen86.Proofs.Symbolic.View
/-!
# Running straight code

Code without its program: what `Runs` says of a list of instructions is that executing it from a state
ends in a way, and in a state, that a postcondition allows.  Code ends by falling off its end, by a jump,
a return or a halt, or with a trap.  A call is whatever its specification says: `calls` gives for the
`k`th call, the label and the state at the call the outcomes that are possible, if it is known to have
one, and the code after the call has to be right after each of them.

`Runs` can also ask that every state on the way satisfies a condition.
-/

set_option autoImplicit false

namespace Codegen86.Symbolic

open Target

/-- How code is left. -/
inductive Exit where
  | fallThrough
  | jump (label : Label)
  | ret
  | halt
  | trap (cause : Trap)
  deriving DecidableEq, Repr

/-- What a call may come to: a state after it, or a trap inside. -/
abbrev CallSpec := Nat → Label → View → Option (Except Trap View → Prop)

/-- What code runs in: the model, the operands, the condition on the states on the way, the calls. -/
structure Surroundings where
  model : Model
  pool : Pool
  within : View → Prop := fun _ => True
  calls : CallSpec

/-- Executing `code` from `v`, after `k` calls, is right by `Q`. -/
def Runs (S : Surroundings) (k : Nat) (code : List Instruction) (v : View)
    (Q : Exit → View → Prop) : Prop :=
  S.within v ∧
  match code with
  | [] => Q .fallThrough v
  | .ret :: _ => Q .ret v
  | .halt :: _ => Q .halt v
  | .jump x :: _ => ∃ l, S.pool.get x = .label l ∧ Q (.jump l) v
  | .jumpIf c x :: rest =>
    ∃ l, S.pool.get x = .label l ∧ if c.holds v.flags then Q (.jump l) v else Runs S k rest v Q
  | .call x :: rest =>
    ∃ l post, S.pool.get x = .label l ∧ S.calls k l v = some post ∧
      ∀ r, post r →
        match r with
        | .ok w => Runs S (k + 1) rest w Q
        | .error t => Q (.trap t) v
  | i :: rest =>
    match v.execute S.model S.pool i with
    | .ok w => Runs S k rest w Q
    | .error t => Q (.trap t) v

end Codegen86.Symbolic

namespace Codegen86.Target.Instruction

/-- Whether the instruction goes on to the next one, without a call. -/
def isPlain : Instruction → Bool
  | ret | halt | jump _ | jumpIf _ _ | call _ => false
  | _ => true

/-- The operands that an instruction reads. -/
def sources : Instruction → List OperandRef
  | push x => [x]
  | mov _ y => [y]
  | arith _ x y | cmp x y => [x, y]
  | _ => []

theorem mem_operands_of_destination? {i : Instruction} {x : OperandRef} (is : i.destination? = some x) :
    x ∈ i.operands := by
  cases i <;> simp_all [destination?, operands]

end Codegen86.Target.Instruction

namespace Codegen86.Symbolic

open Target

namespace Runs

variable {S : Surroundings} {k : Nat} {code : List Instruction} {v : View} {Q R : Exit → View → Prop}

theorem within (h : Runs S k code v Q) : S.within v := by
  cases code with
  | nil => exact h.1
  | cons i rest => cases i <;> exact h.1

theorem plain_iff {i : Instruction} (plain : i.isPlain = true) :
    Runs S k (i :: code) v Q ↔ S.within v ∧
      match v.execute S.model S.pool i with
      | .ok w => Runs S k code w Q
      | .error t => Q (.trap t) v := by
  cases i <;> first | exact Iff.rfl | cases plain

theorem plain {i : Instruction} {w : View} (plain : i.isPlain = true) (inside : S.within v)
    (done : v.execute S.model S.pool i = .ok w) (rest : Runs S k code w Q) :
    Runs S k (i :: code) v Q := by
  rw [plain_iff plain, done]
  exact ⟨inside, rest⟩

theorem trap {i : Instruction} {t : Trap} (plain : i.isPlain = true) (inside : S.within v)
    (fails : v.execute S.model S.pool i = .error t) (allowed : Q (.trap t) v) :
    Runs S k (i :: code) v Q := by
  rw [plain_iff plain, fails]
  exact ⟨inside, allowed⟩

theorem call_iff {x : OperandRef} :
    Runs S k (.call x :: code) v Q ↔ S.within v ∧
      ∃ l post, S.pool.get x = .label l ∧ S.calls k l v = some post ∧
        ∀ r, post r →
          match r with
          | .ok w => Runs S (k + 1) code w Q
          | .error t => Q (.trap t) v := Iff.rfl

theorem jumpIf_iff {c : Condition} {x : OperandRef} :
    Runs S k (.jumpIf c x :: code) v Q ↔ S.within v ∧
      ∃ l, S.pool.get x = .label l ∧
        if c.holds v.flags then Q (.jump l) v else Runs S k code v Q := Iff.rfl

theorem jump_iff {x : OperandRef} :
    Runs S k (.jump x :: code) v Q ↔ S.within v ∧ ∃ l, S.pool.get x = .label l ∧ Q (.jump l) v := Iff.rfl

theorem ret_iff : Runs S k (.ret :: code) v Q ↔ S.within v ∧ Q .ret v := Iff.rfl

theorem halt_iff : Runs S k (.halt :: code) v Q ↔ S.within v ∧ Q .halt v := Iff.rfl

theorem nil_iff : Runs S k [] v Q ↔ S.within v ∧ Q .fallThrough v := Iff.rfl

/-- What a run may end in can be widened. -/
theorem mono (h : Runs S k code v Q) (wider : ∀ e w, Q e w → R e w) : Runs S k code v R := by
  induction code generalizing k v with
  | nil =>
    rw [nil_iff] at h ⊢
    exact ⟨h.1, wider _ _ h.2⟩
  | cons i rest ih =>
    by_cases plain : i.isPlain
    · rw [plain_iff plain] at h ⊢
      refine ⟨h.1, ?_⟩
      have next := h.2
      split at next
      · exact ih next
      · exact wider _ _ next
    · cases i with
      | ret => exact ret_iff.mpr ⟨h.within, wider _ _ (ret_iff.mp h).2⟩
      | halt => exact halt_iff.mpr ⟨h.within, wider _ _ (halt_iff.mp h).2⟩
      | jump x =>
        obtain ⟨inside, l, label, q⟩ := jump_iff.mp h
        exact jump_iff.mpr ⟨inside, l, label, wider _ _ q⟩
      | jumpIf c x =>
        obtain ⟨inside, l, label, q⟩ := jumpIf_iff.mp h
        refine jumpIf_iff.mpr ⟨inside, l, label, ?_⟩
        by_cases taken : c.holds v.flags
        · rw [if_pos taken] at q ⊢
          exact wider _ _ q
        · rw [if_neg taken] at q ⊢
          exact ih q
      | call x =>
        obtain ⟨inside, l, post, label, spec, q⟩ := call_iff.mp h
        refine call_iff.mpr ⟨inside, l, post, label, spec, fun r possible => ?_⟩
        have after := q r possible
        split at after
        · exact ih after
        · exact wider _ _ after
      | _ => exact absurd rfl plain

/-- Code runs the same where its instructions do the same and its labels are the same. -/
theorem congr {S' : Surroundings} (less : ∀ w, S.within w → S'.within w)
    (step : ∀ i ∈ code, ∀ w : View, w.execute S'.model S'.pool i = w.execute S.model S.pool i)
    (labels : ∀ i ∈ code, ∀ x, i.destination? = some x → S'.pool.get x = S.pool.get x)
    (calls : ∀ x, .call x ∈ code → S'.calls = S.calls) (h : Runs S k code v Q) : Runs S' k code v Q := by
  induction code generalizing k v with
  | nil => exact nil_iff.mpr ⟨less v (nil_iff.mp h).1, (nil_iff.mp h).2⟩
  | cons i rest ih =>
    have here := less v h.within
    have target := labels i List.mem_cons_self
    have later : ∀ {k w}, Runs S k rest w Q → Runs S' k rest w Q :=
      ih (fun j mem => step j (List.mem_cons_of_mem _ mem)) (fun j mem => labels j (List.mem_cons_of_mem _ mem))
        fun x mem => calls x (List.mem_cons_of_mem _ mem)
    by_cases plain : i.isPlain
    · rw [plain_iff plain] at h ⊢
      rw [step i List.mem_cons_self]
      refine ⟨here, ?_⟩
      have next := h.2
      split at next
      · exact later next
      · exact next
    · cases i with
      | ret => exact ret_iff.mpr ⟨here, (ret_iff.mp h).2⟩
      | halt => exact halt_iff.mpr ⟨here, (halt_iff.mp h).2⟩
      | jump x =>
        obtain ⟨-, l, label, q⟩ := jump_iff.mp h
        exact jump_iff.mpr ⟨here, l, (target x rfl).trans label, q⟩
      | jumpIf c x =>
        obtain ⟨-, l, label, q⟩ := jumpIf_iff.mp h
        refine jumpIf_iff.mpr ⟨here, l, (target x rfl).trans label, ?_⟩
        by_cases taken : c.holds v.flags
        · rw [if_pos taken] at q ⊢
          exact q
        · rw [if_neg taken] at q ⊢
          exact later q
      | call x =>
        obtain ⟨-, l, post, label, spec, q⟩ := call_iff.mp h
        refine call_iff.mpr ⟨here, l, post, (target x rfl).trans label, ?_, fun r possible => ?_⟩
        · rw [calls x List.mem_cons_self]
          exact spec
        · have after := q r possible
          split at after
          · exact later after
          · exact after
      | _ => exact absurd rfl plain

/-- Less can be asked of the states on the way. -/
theorem relax {within : View → Prop} (less : ∀ w, S.within w → within w) (h : Runs S k code v Q) :
    Runs { S with within } k code v Q :=
  h.congr less (fun _ _ _ => rfl) (fun _ _ _ _ => rfl) fun _ _ => rfl

/-- Code is run the same by two pools that agree on the operands it refers to. -/
theorem congr_pool {p : Pool} (same : ∀ i ∈ code, ∀ x ∈ i.operands, p.get x = S.pool.get x)
    (h : Runs S k code v Q) : Runs { S with pool := p } k code v Q :=
  congr (S := S) (fun _ => id) (fun i mem w => w.execute_congr (same i mem))
    (fun i mem x dest => same i mem x (Instruction.mem_operands_of_destination? dest)) (fun _ _ => rfl) h

/-- Code that calls nothing runs the same with abstract registers and without, if it has none. -/
theorem concrete {S' : Surroundings} (valid : S'.model.valid = S.model.valid) (less : ∀ w, S.within w → S'.within w)
    (same : ∀ i ∈ code, ∀ x ∈ i.operands,
      S'.pool.get x = S.pool.get x ∧ (S.pool.get x).isAbstract = false ∧ (S.pool.get x).isMemory = false)
    (noCall : ∀ x, .call x ∉ code) (h : Runs S k code v Q) : Runs S' k code v Q :=
  h.congr less (fun i mem w => w.execute_concrete valid (same i mem))
    (fun i mem x dest => (same i mem x (Instruction.mem_operands_of_destination? dest)).1)
    fun x mem => absurd mem (noCall x)

/-- A run ends where it may be, and if it ends in a jump then in one of the code. -/
theorem leaves (h : Runs S k code v Q) :
    Runs S k code v fun e w => Q e w ∧ S.within w ∧
      ∀ l, e = .jump l → ∃ i ∈ code, i.isJump = true ∧ ∃ x ∈ i.operands, S.pool.get x = .label l := by
  induction code generalizing k v with
  | nil => exact nil_iff.mpr ⟨h.within, (nil_iff.mp h).2, h.within, by simp⟩
  | cons i rest ih =>
    have later : ∀ {k w}, Runs S k rest w Q → Runs S k rest w fun e w => Q e w ∧ S.within w ∧
        ∀ l, e = .jump l → ∃ j ∈ i :: rest, j.isJump = true ∧ ∃ x ∈ j.operands, S.pool.get x = .label l :=
      fun next => (ih next).mono fun e w q => ⟨q.1, q.2.1, fun l eq => by
        obtain ⟨j, mem, jump⟩ := q.2.2 l eq
        exact ⟨j, List.mem_cons_of_mem _ mem, jump⟩⟩
    by_cases plain : i.isPlain
    · rw [plain_iff plain] at h ⊢
      refine ⟨h.1, ?_⟩
      have next := h.2
      split at next
      · exact later next
      · exact ⟨next, h.1, by simp⟩
    · cases i with
      | ret => exact ret_iff.mpr ⟨h.within, (ret_iff.mp h).2, h.within, by simp⟩
      | halt => exact halt_iff.mpr ⟨h.within, (halt_iff.mp h).2, h.within, by simp⟩
      | jump x =>
        obtain ⟨inside, l, label, q⟩ := jump_iff.mp h
        refine jump_iff.mpr ⟨inside, l, label, q, inside, fun l' same => ?_⟩
        cases same
        exact ⟨_, List.mem_cons_self, rfl, x, List.mem_cons_self, label⟩
      | jumpIf c x =>
        obtain ⟨inside, l, label, q⟩ := jumpIf_iff.mp h
        refine jumpIf_iff.mpr ⟨inside, l, label, ?_⟩
        by_cases taken : c.holds v.flags
        · rw [if_pos taken] at q ⊢
          refine ⟨q, inside, fun l' same => ?_⟩
          cases same
          exact ⟨_, List.mem_cons_self, rfl, x, List.mem_cons_self, label⟩
        · rw [if_neg taken] at q ⊢
          exact later q
      | call x =>
        obtain ⟨inside, l, post, label, spec, q⟩ := call_iff.mp h
        refine call_iff.mpr ⟨inside, l, post, label, spec, fun r possible => ?_⟩
        have after := q r possible
        split at after
        · exact later after
        · exact ⟨after, inside, by simp⟩
      | _ => exact absurd rfl plain

/-- Instructions that are executed without a trap, and then more code. -/
theorem executeAll {before : List Instruction} {w : View} (everywhere : ∀ x, S.within x)
    (plain : ∀ i ∈ before, i.isPlain = true)
    (first : v.executeAll S.model S.pool before = .ok w) (rest : Runs S k code w Q) :
    Runs S k (before ++ code) v Q := by
  induction before generalizing v with
  | nil =>
    cases first
    exact rest
  | cons i more ih =>
    rw [View.executeAll] at first
    cases done : v.execute S.model S.pool i with
    | error t => simp [done, bind, Except.bind] at first
    | ok next =>
      rw [done] at first
      exact Runs.plain (plain i List.mem_cons_self) (everywhere v) done
        (ih (fun j mem => plain j (List.mem_cons_of_mem _ mem)) first)

/-- Instructions of which one traps; what comes after them does not matter. -/
theorem executeAll_error {before : List Instruction} {t : Trap} (everywhere : ∀ x, S.within x)
    (plain : ∀ i ∈ before, i.isPlain = true)
    (fails : v.executeAll S.model S.pool before = .error t) (allowed : ∀ w, Q (.trap t) w) :
    Runs S k (before ++ code) v Q := by
  induction before generalizing v with
  | nil => cases fails
  | cons i more ih =>
    rw [View.executeAll] at fails
    cases done : v.execute S.model S.pool i with
    | error t' =>
      rw [done] at fails
      cases fails
      exact Runs.trap (plain i List.mem_cons_self) (everywhere v) done (allowed v)
    | ok next =>
      rw [done] at fails
      exact Runs.plain (plain i List.mem_cons_self) (everywhere v) done
        (ih (fun j mem => plain j (List.mem_cons_of_mem _ mem)) fails)

end Runs

end Codegen86.Symbolic
