import Codegen86.IR.Outline
import Codegen86.Proofs.Except
import Codegen86.Proofs.Text
/-!
# What outlines are made of

The parts of an outline that was read from text (`outline_tidy`): names of functions, blocks and values are
identifiers, and operands hold no separators and nothing that ends a statement.
-/

set_option autoImplicit false

namespace Codegen86.IR

open Text

/-- Characters that an operand can have. -/
def Solid (c : Char) : Prop := isSeparator c = false ∧ c ≠ ';' ∧ c ≠ '\n'

structure Statement.Tidy (s : Statement) : Prop where
  result : ∀ name ∈ s.result, isName name.toList = true
  operands : ∀ operand ∈ s.operands, ∀ c ∈ operand, Solid c

structure FunctionOutline.Tidy (f : FunctionOutline) : Prop where
  name : isName f.name.toList = true
  params : ∀ param ∈ f.params, isName param.toList = true
  blocks : ∀ block ∈ f.blocks, isName block.name.toList = true ∧ ∀ s ∈ block.body, s.Tidy

def Reader.Tidy (r : Reader) : Prop := (∀ f ∈ r.closed, f.Tidy) ∧ ∀ f ∈ r.opened, f.Tidy

theorem valueName_ok {line : Nat} {cs : List Char} {name : String} (ok : valueName line cs = .ok name) :
    cs = '%' :: name.toList ∧ isName name.toList = true := by
  unfold valueName at ok
  split at ok
  · rename_i found
    cases ok
    obtain ⟨dropped, named⟩ := Option.filter_eq_some_iff.mp found
    exact ⟨by simpa using dropFirst?_eq.mp dropped, by simpa using named⟩
  · cases ok

theorem valueName_of {name : String} (named : isName name.toList = true) (line : Nat) :
    valueName line ('%' :: name.toList) = .ok name := by
  have kept : (dropFirst? '%' ('%' :: name.toList)).filter isName = some name.toList :=
    Option.filter_eq_some_iff.mpr ⟨dropFirst?_eq.mpr rfl, named⟩
  simp [valueName, kept]

theorem mapM_valueName {line : Nat} {texts : List (List Char)} {names : List String}
    (ok : texts.mapM (valueName line) = .ok names) {name : String} (mem : name ∈ names) :
    isName name.toList = true := by
  induction texts generalizing names with
  | nil =>
    cases ok
    cases mem
  | cons text texts ih =>
    rw [List.mapM_cons] at ok
    obtain ⟨first, read, ok⟩ := bind_ok.mp ok
    obtain ⟨others, rest, ok⟩ := bind_ok.mp ok
    cases ok
    rcases List.mem_cons.mp mem with rfl | mem
    · exact (valueName_ok read).2
    · exact ih rest mem

/-- What is read of a line is a part of it before any `;`. -/
inductive Line.Within (raw : List Char) : Line → Prop
  | blank : Within raw .blank
  | header {text : List Char} (part : ∀ c ∈ text, c ∈ raw ∧ c ≠ ';') : Within raw (.header text)
  | close : Within raw .close
  | label {name : List Char} (part : ∀ c ∈ name, c ∈ raw ∧ c ≠ ';') : Within raw (.label name)
  | statement {text : List Char} (part : ∀ c ∈ text, c ∈ raw ∧ c ≠ ';') : Within raw (.statement text)

theorem Line.of_within (raw : List Char) : Line.Within raw (.of raw) := by
  have content : ∀ c ∈ trim (raw.takeWhile (· != ';')), c ∈ raw ∧ c ≠ ';' := by
    intro c mem
    have mem := mem_of_mem_trim mem
    exact ⟨(List.takeWhile_sublist _).subset mem, by simpa using List.all_eq_true.mp List.all_takeWhile c mem⟩
  unfold Line.of
  dsimp only
  split
  · exact .blank
  · split
    · rename_i text header
      rw [dropLead?_eq.mp header] at content
      exact .header fun c mem => content c (by simp [mem])
    · split
      · exact .close
      · split
        · rename_i name label
          rw [dropLast?_eq.mp label] at content
          exact .label fun c mem => content c (by simp [mem])
        · exact .statement content

/-- The words of a statement behind its result. -/
def Statement.ofWords (line : Nat) (result : Option String) : List (List Char) → Except ParseError Statement
  | [] => .error ⟨line, .noMnemonic⟩
  | mnemonic :: operands => .ok { line, result, mnemonic := String.ofList mnemonic, operands }

theorem Statement.read_cut {line : Nat} {content before after : List Char}
    (cut : cutAt '=' content = some (before, after)) :
    Statement.read line content =
      valueName line (trim before) >>= fun name => ofWords line (some name) (fields isSeparator after) := by
  unfold Statement.read
  rw [cut]
  dsimp only
  cases valueName line (trim before) with
  | error e => rfl
  | ok name => cases h : fields isSeparator after <;> simp [ofWords, h, bind, Except.bind, pure, Except.pure]

theorem Statement.read_uncut {line : Nat} {content : List Char} (uncut : cutAt '=' content = none) :
    Statement.read line content = ofWords line none (fields isSeparator content) := by
  unfold Statement.read
  rw [uncut]
  cases h : fields isSeparator content <;> simp [ofWords, h, bind, Except.bind, pure, Except.pure]

theorem Statement.ofWords_tidy {line : Nat} {result : Option String} {words : List (List Char)} {s : Statement}
    (named : ∀ name ∈ result, isName name.toList = true) (solid : ∀ word ∈ words, ∀ c ∈ word, Solid c)
    (ok : ofWords line result words = .ok s) : s.Tidy := by
  cases words with
  | nil => cases ok
  | cons mnemonic operands =>
    cases ok
    exact ⟨named, fun operand mem => solid operand (List.mem_cons_of_mem _ mem)⟩

theorem Statement.read_tidy {line : Nat} {content : List Char} {s : Statement}
    (part : ∀ c ∈ content, c ≠ ';' ∧ c ≠ '\n') (ok : Statement.read line content = .ok s) : s.Tidy := by
  have solid {rest : List Char} (inside : ∀ c ∈ rest, c ∈ content) :
      ∀ word ∈ fields isSeparator rest, ∀ c ∈ word, Solid c := by
    intro word mem c char
    have piece := mem_fields mem char
    exact ⟨piece.2, part c (inside c piece.1)⟩
  cases cut : cutAt '=' content with
  | none =>
    rw [Statement.read_uncut cut] at ok
    exact ofWords_tidy (fun name none => (by cases none)) (solid fun c mem => mem) ok
  | some parts =>
    rw [Statement.read_cut cut] at ok
    obtain ⟨name, read, ok⟩ := bind_ok.mp ok
    refine ofWords_tidy (fun name' same => ?_) (solid fun c mem => ?_) ok
    · obtain rfl := Option.some.inj same
      exact (valueName_ok read).2
    · rw [(cutAt_eq.mp cut).1]
      simp [mem]

theorem FunctionOutline.read_tidy {line : Nat} {text : List Char} {f : FunctionOutline}
    (ok : FunctionOutline.read line text = .ok f) : f.Tidy ∧ f.blocks = [] := by
  unfold FunctionOutline.read at ok
  split at ok
  · cases ok
  · split at ok
    · cases ok
    · split at ok
      · cases ok
      · dsimp only at ok
        split at ok
        · rename_i named
          obtain ⟨params, read, ok⟩ := bind_ok.mp ok
          cases ok
          refine ⟨⟨by simpa using named, fun param mem => mapM_valueName read mem, fun b mem => ?_⟩, rfl⟩
          cases mem
        · cases ok

theorem Statement.Tidy.add {s : Statement} (tidy : s.Tidy) {f f' : FunctionOutline} (h : f.Tidy)
    (added : f.addStatement? s = some f') : f'.Tidy := by
  obtain ⟨block, last, rfl⟩ := Option.map_eq_some_iff.mp added
  refine ⟨h.name, h.params, fun b mem => ?_⟩
  rcases List.mem_append.mp mem with mem | mem
  · exact h.blocks b ((List.dropLast_sublist _).subset mem)
  · obtain rfl := List.mem_singleton.mp mem
    obtain ⟨named, body⟩ := h.blocks block (List.mem_of_getLast? last)
    refine ⟨named, fun t mem => ?_⟩
    rcases List.mem_append.mp mem with mem | mem
    · exact body t mem
    · obtain rfl := List.mem_singleton.mp mem
      exact tidy

namespace Reader.Tidy

variable {r r' : Reader}

theorem feed (h : r.Tidy) {number : Nat} {raw : List Char} (plain : '\n' ∉ raw) {line : Line}
    (within : line.Within raw) (ok : r.feed number line = .ok r') : r'.Tidy := by
  cases within with
  | blank =>
    cases ok
    exact h
  | header part =>
    unfold Reader.feed at ok
    dsimp only at ok
    split at ok
    · cases ok
    · obtain ⟨f, read, ok⟩ := bind_ok.mp ok
      cases ok
      refine ⟨h.1, fun g same => ?_⟩
      obtain rfl := Option.some.inj same
      exact (FunctionOutline.read_tidy read).1
  | close =>
    unfold Reader.feed at ok
    dsimp only at ok
    split at ok
    · cases ok
    · rename_i f opened
      cases ok
      refine ⟨fun g mem => ?_, fun g none => (by cases none)⟩
      rcases List.mem_append.mp mem with mem | mem
      · exact h.1 g mem
      · obtain rfl := List.mem_singleton.mp mem
        exact h.2 g opened
  | label part =>
    unfold Reader.feed at ok
    dsimp only at ok
    split at ok
    · cases ok
    · rename_i f opened
      split at ok
      · rename_i named
        cases ok
        refine ⟨h.1, fun g same => ?_⟩
        obtain rfl := Option.some.inj same
        have tidy := h.2 f opened
        refine ⟨tidy.name, tidy.params, fun b mem => ?_⟩
        rcases List.mem_append.mp mem with mem | mem
        · exact tidy.blocks b mem
        · obtain rfl := List.mem_singleton.mp mem
          exact ⟨by simpa using named, fun s mem => (by cases mem)⟩
      · cases ok
  | statement part =>
    obtain ⟨s, read, ok⟩ := bind_ok.mp ok
    have tidy := Statement.read_tidy (fun c mem => ⟨(part c mem).2, fun same =>
      plain (same ▸ (part c mem).1)⟩) read
    split at ok
    · cases ok
    · rename_i f added
      cases ok
      obtain ⟨g, opened, added⟩ := Option.bind_eq_some_iff.mp added
      refine ⟨h.1, fun f' same => ?_⟩
      obtain rfl := Option.some.inj same
      exact tidy.add (h.2 g opened) added

theorem feedAll (h : r.Tidy) {first : Nat} {all : List (List Char)} (plain : ∀ raw ∈ all, '\n' ∉ raw)
    (ok : r.feedAll first all = .ok r') : r'.Tidy := by
  induction all generalizing r first with
  | nil =>
    cases ok
    exact h
  | cons raw rest ih =>
    obtain ⟨middle, done, ok⟩ := bind_ok.mp ok
    exact ih (h.feed (plain raw List.mem_cons_self) (Line.of_within raw) done)
      (fun raw mem => plain raw (List.mem_cons_of_mem _ mem)) ok

end Reader.Tidy

/-- Outlines read from text are tidy. -/
theorem outline_tidy {text : List Char} {outlines : List FunctionOutline} (ok : outline text = .ok outlines)
    {f : FunctionOutline} (mem : f ∈ outlines) : f.Tidy := by
  obtain ⟨r, fed, ok⟩ := bind_ok.mp ok
  have start : ({} : Reader).Tidy := ⟨fun f mem => (by cases mem), fun f none => (by cases none)⟩
  have tidy := start.feedAll (fun raw mem => not_mem_lines mem) fed
  split at ok
  · cases ok
  · cases ok
    exact tidy.1 f mem

end Codegen86.IR
