import Mathlib.Data.List.Induction
import TinyArm.Proofs.Writers
import TinyArm.Session

/-!
# Sessions and their steps

The compiler, the analyzer and the writers of a session are used again and again, and steps may fail half-way. A step
still answers as it would in a new session. Two kinds of steps look back, and each at one earlier step only: the type of
an expression depends on what was analyzed last, an output path on the suffix that was set last.

* `step_generate_snd`, `step_print_snd`: a writer writes the same whatever it holds.
* `after_options`, `after_table`: what a session keeps is what its history tells.
* `run_eq_answers`: **a session answers as its history tells it**, and what it writes is the code or the outline.
-/

namespace TinyArm.Session

/-! ## What a history tells -/

/-- The suffix that a step sets. -/
def Step.suffix? : Step → Option String
  | setSuffix suffix => some suffix
  | _ => none

/-- The tree that a step has analyzed. A source that has no tree does not come to its analysis. -/
def Step.analyzed? : Step → Option Tree
  | analyze input => input.read.toOption
  | _ => none

/-- The suffix after a history: the one that was set last. -/
def suffixAfter (options : Options) (h : List Step) : String := (h.filterMap Step.suffix?).getLastD options.outputSuffix

/-- The table after a history: the one of the latest analysis, also if that has failed. -/
def tableAfter (h : List Step) : SymbolTable :=
  ((h.filterMap Step.analyzed?).getLast?.map fun n => (TinyArm.analyze n).1).getD .empty

/-- What a step answers after a history. An output path and the type of an expression look back at the latest suffix and
the latest analysis; any other step answers as in a new session. -/
def answer (options : Options) (h : List Step) : Step → Result
  | .outputPath path => .ofExcept (fun p => .text p.text) ((Path.ofString path).withSuffix (suffixAfter options h))
  | .type e => .ofExcept .type (typeOf (tableAfter h) e)
  | x => ((start options).step x).2

/-! ## Steps -/

/-- What a writer of assembly writes in a session is the code of the tree. -/
theorem step_generate_snd (s : Session) (input : Input) :
    (s.step (.generate input)).2 = .ofExcept (fun a => .text a.text) (input.read.bind TinyArm.generate) := by
  rw [step]
  cases input.read with
  | error f => rfl
  | ok n =>
    simp only [CodeWriter.write_snd, Except.bind]
    cases TinyArm.generate n <;> rfl

/-- What a writer of outlines writes in a session is the outline of the tree. -/
theorem step_print_snd (s : Session) (input : Input) :
    (s.step (.print input)).2 = .ofExcept .text (input.read.bind Node.print) := by
  rw [step]
  cases input.read with
  | error f => rfl
  | ok n => simp only [OutlineWriter.write_snd, Except.bind]

theorem step_analyze_snd (s t : Session) (input : Input) :
    (s.step (.analyze input)).2 = (t.step (.analyze input)).2 := by
  rw [step, step]
  cases input.read <;> rfl

/-- The options that a session has after a step. -/
theorem step_options (s : Session) (x : Step) :
    (s.step x).1.options = { s.options with outputSuffix := x.suffix?.getD s.options.outputSuffix } := by
  cases x with
  | analyze input | generate input | print input => rw [step]; cases input.read <;> rfl
  | _ => rfl

/-- The table that a session has after a step. -/
theorem step_table (s : Session) (x : Step) :
    (s.step x).1.table = (x.analyzed?.map fun n => (TinyArm.analyze n).1).getD s.table := by
  cases x with
  | analyze input => rw [step, Step.analyzed?]; cases input.read <;> rfl
  | generate input | print input => rw [step]; cases input.read <;> rfl
  | _ => rfl

/-! ## Runs -/

/-- A session after steps. -/
def after (s : Session) (h : List Step) : Session := h.foldl (fun s x => (s.step x).1) s

theorem after_concat (s : Session) (h : List Step) (x : Step) : s.after (h ++ [x]) = ((s.after h).step x).1 := by
  simp [after]

/-- The answers of a run are those of its steps, each on the session that the steps before it have left. -/
theorem getElem?_run (s : Session) (steps : List Step) (k : Nat) :
    (s.run steps)[k]? = steps[k]?.map fun x => ((s.after (steps.take k)).step x).2 := by
  induction steps generalizing s k with
  | nil => rfl
  | cons x rest ih =>
    cases k with
    | zero => rfl
    | succ k => exact ih (s.step x).1 k

theorem after_options (options : Options) (h : List Step) :
    ((start options).after h).options = { options with outputSuffix := suffixAfter options h } := by
  induction h using List.reverseRecOn with
  | nil => rfl
  | append_singleton h x ih =>
    rw [after_concat, step_options, ih]
    cases hx : x.suffix? <;> simp [suffixAfter, hx]

theorem after_table (options : Options) (h : List Step) : ((start options).after h).table = tableAfter h := by
  induction h using List.reverseRecOn with
  | nil => rfl
  | append_singleton h x ih =>
    rw [after_concat, step_table, ih]
    cases hx : x.analyzed? <;> simp [tableAfter, hx]

/-- A step after a history answers as the history tells. -/
theorem step_after_snd (options : Options) (h : List Step) (x : Step) :
    (((start options).after h).step x).2 = answer options h x := by
  cases x with
  | compile source file => rw [step, after_options]; rfl
  | outputPath path => rw [step, outputPathFor, after_options]; rfl
  | setSuffix suffix => rfl
  | type e => rw [step, after_table]; rfl
  | analyze input => exact step_analyze_snd _ _ input
  | generate input => exact (step_generate_snd _ input).trans (step_generate_snd (start options) input).symm
  | print input => exact (step_print_snd _ input).trans (step_print_snd (start options) input).symm

/-- **A session answers as its history tells it.** Whatever was done before, and whatever of it has failed, a step
answers as in a new session, or by the latest suffix or the latest analysis alone. What a new session writes is the code
of a tree, or its outline. -/
theorem run_eq_answers (options : Options) (steps : List Step) :
    (∀ k, ((start options).run steps)[k]? = steps[k]?.map (answer options (steps.take k))) ∧
    (∀ input, ((start options).step (.generate input)).2 =
      .ofExcept (fun a => .text a.text) (input.read.bind TinyArm.generate)) ∧
    ∀ input, ((start options).step (.print input)).2 = .ofExcept .text (input.read.bind Node.print) := by
  refine ⟨fun k => ?_, step_generate_snd _, step_print_snd _⟩
  rw [getElem?_run]
  simp only [step_after_snd]

/-- An analysis that fails at its second function still says what the first one is; an outline that stops at a hole, one
deeper than it began, leaves no mark on the next. -/
example (l : Location) :
    let twice : Tree := .program l [.function l "f" .int [], .function l "f" .void []]
    let holed : Tree := .program l [.function l "f" .int [], .absent]
    ((start {}).run [.analyze (.tree twice), .type (.call l "f"), .print (.tree holed), .print (.tree (.program l []))]).drop
      1 = [.type .int, .failed (.lacks "NoneType" "__dict__"), .text "Program"] := rfl

end TinyArm.Session
