import TinyArm.Proofs.Accepted
import TinyArm.Proofs.Rejection

/-!
# What the stages report

A stage that fails reports a cause of its own area: scanning fails for the form of the source, reading for the order of
its tokens, analysis for its meaning, and generation never. Only a literal that is too long to read makes a failure that
is no report.

* `Reader.comes_step`, `Reader.comes_run`: while tokens are read, all that waits on the stacks stands where a token
  stands, and so does a refusal.
* `exists_place_of_ofTokens`, `reports_of_ofTokens`: tokens are refused for their order, at one of them, if type
  keywords name types.
* `reports_of_analyze`: analysis rejects a program for its meaning.
* `stages_of_compile_eq_error`, `compile_eq_error_cases`: **all that compiling a source can fail with.**
* `no_defect_of_source`: **no source runs into a defect of the compiler.**
-/

namespace TinyArm

/-! ## Areas -/

/-- What a cause is about. -/
inductive Cause.Area where
  /-- Anything. -/
  | any
  /-- The characters of a program. -/
  | form
  /-- The order of its tokens. -/
  | order
  /-- Its names and types. -/
  | meaning
  /-- The generation of code. -/
  | generation
  deriving DecidableEq

/-- The area of a cause. -/
def Cause.area : Cause → Area
  | general .. => .any
  | form .. | openComment | literalRange _ | character _ => .form
  | order .. | token .. | endOfInput _ | parentheses | operands _ | unimplemented _ => .order
  | meaning .. | undefined _ | duplicate _ | typing .. | mismatch .. | returnType .. => .meaning
  | generation .. | internal _ => .generation

/-- Whether a cause is one that tokens are refused for. -/
def Cause.isRefusal : Cause → Bool
  | token .. | endOfInput _ | parentheses | operands _ | unimplemented _ => true
  | _ => false

theorem Cause.area_of_isRefusal {c : Cause} (h : c.isRefusal = true) : c.area = .order := by
  cases c <;> first | rfl | cases h

/-- Whether a failure is a report with a cause of an area. -/
def Failure.Reports (a : Cause.Area) (f : Failure) : Prop := ∃ d, f = .diagnostic d ∧ d.cause.area = a

theorem Failure.reports_report {a : Cause.Area} {cause : Cause} (h : cause.area = a) (loc : Option Location) :
    (report cause loc).Reports a := ⟨⟨cause, loc, none⟩, rfl, h⟩

/-- A failure reports causes of one area only. -/
theorem Failure.Reports.unique {a b : Cause.Area} {f : Failure} (h : f.Reports a) (h' : f.Reports b) : a = b := by
  obtain ⟨d, rfl, rfl⟩ := h
  obtain ⟨d', hd, rfl⟩ := h'
  cases hd
  rfl

/-- Whether a failure is a defect of the compiler: a report of generation, a type keyword that names no type, or a part
that a tree lacks. -/
def Failure.IsDefect (f : Failure) : Prop :=
  f.Reports .generation ∨ (∃ v, f = .typeKeyword v) ∨ ∃ node part, f = .lacks node part

theorem Failure.Reports.not_isDefect {a : Cause.Area} {f : Failure} (h : f.Reports a) (ha : a ≠ .generation) :
    ¬f.IsDefect := by
  rintro (hg | hd)
  · exact ha (h.unique hg)
  · obtain ⟨d, rfl, -⟩ := h
    rcases hd with ⟨v, hd⟩ | ⟨node, part, hd⟩ <;> cases hd

theorem Failure.not_isDefect_literalLength (n : Nat) : ¬(literalLength n).IsDefect := by
  rintro (⟨d, hd, -⟩ | ⟨v, hd⟩ | ⟨node, part, hd⟩) <;> cases hd

/-! ## Tokens -/

/-- A fault in a source is one of its form, or a literal that is too long. -/
theorem LexicalFault.failure_cases (source : List Char) (file : String) (p : Position) (g : LexicalFault) :
    (∃ n, g = .literalLength n) ∨ (g.failure source file p).Reports .form := by
  cases g with
  | literalLength n => exact .inl ⟨n, rfl⟩
  | _ => exact .inr ⟨_, rfl, rfl⟩

/-! ## Trees -/

/-- Whether a result has `Q`, or else the failure has `E`. -/
def Comes {ε α : Type} (E : ε → Prop) (Q : α → Prop) : Except ε α → Prop
  | .ok a => Q a
  | .error e => E e

theorem Comes.of_eq {ε α : Type} {E : ε → Prop} {Q : α → Prop} {x y : Except ε α} (h : Comes E Q x) (e : x = y) :
    Comes E Q y :=
  e ▸ h

section Standing

variable (P : Location → Prop)

/-- Whether a tree stands at a place with `P`. -/
def Node.StandsAt (n : RawNode) : Prop := ∃ l, n.location? = some l ∧ P l

/-- The place of an entry of the operator stack. -/
def Pending.location : Pending → Location
  | group l | operator l _ => l

/-- Stacks all of whose entries stand at places with `P`. -/
structure Stacks.StandAt (s : Stacks) : Prop where
  operands : ∀ n ∈ s.operands, n.StandsAt P
  pending : ∀ p ∈ s.pending, P p.location

/-- Whether all that waits in an expression, if a state is in one, stands at places with `P`. -/
def Reader.State.StandsAt : Reader.State → Prop
  | value r => r.parts.StandAt P
  | callee r name | calling r name => r.parts.StandAt P ∧ P name.location
  | _ => True

/-- A refusal for the order of the tokens, at a place with `P`. -/
def Refusal.IsOrder (r : Refusal) : Prop :=
  ∃ cause loc, r = .diagnosed cause (some loc) ∧ cause.isRefusal = true ∧ P loc

end Standing

section Stacks

variable {P : Location → Prop} {operands : List RawNode} {pending : List Pending}

theorem comes_applyOperator {loc : Location} (op : Operator) (hl : P loc) (ho : ∀ n ∈ operands, n.StandsAt P) :
    Comes (Refusal.IsOrder P) (fun ns => ∀ n ∈ ns, n.StandsAt P) (applyOperator loc op operands) := by
  match operands, ho with
  | [], _ | [_], _ => exact ⟨_, loc, rfl, rfl, hl⟩
  | _ :: _ :: rest, ho =>
    exact List.forall_mem_cons.2 ⟨⟨loc, rfl, hl⟩, fun n hn => ho n (List.mem_cons_of_mem _ (List.mem_cons_of_mem _ hn))⟩

/-- What is left when the latest entry of the operator stack has been applied. -/
theorem Stacks.StandAt.applied {loc : Location} {op : Operator} {r : Except Refusal (List RawNode)}
    (h : Stacks.StandAt P ⟨operands, .operator loc op :: pending⟩) (hr : applyOperator loc op operands = r) :
    Comes (Refusal.IsOrder P) (fun ns => Stacks.StandAt P ⟨ns, pending⟩) r := by
  have ha := (comes_applyOperator op (h.pending _ List.mem_cons_self) h.operands).of_eq hr
  cases r with
  | error e => exact ha
  | ok ns => exact ⟨ha, fun q hq => h.pending q (List.mem_cons_of_mem _ hq)⟩

theorem comes_reduceOperators {p : Nat} (h : Stacks.StandAt P ⟨operands, pending⟩) :
    Comes (Refusal.IsOrder P) (Stacks.StandAt P) (reduceOperators p operands pending) := by
  fun_induction reduceOperators p operands pending with
  | case1 operands loc op pending hp operands' ha ih => exact ih (h.applied ha)
  | case2 operands loc op pending hp e ha => exact h.applied ha
  | case3 | case4 => exact h

theorem comes_closeGroup {loc : Location} (hl : P loc) (h : Stacks.StandAt P ⟨operands, pending⟩) :
    Comes (Refusal.IsOrder P) (Stacks.StandAt P) (closeGroup loc operands pending) := by
  fun_induction closeGroup loc operands pending with
  | case1 => exact ⟨_, loc, rfl, rfl, hl⟩
  | case2 => exact ⟨h.operands, fun q hq => h.pending q (List.mem_cons_of_mem _ hq)⟩
  | case3 operands l op pending operands' ha ih => exact ih (h.applied ha)
  | case4 operands l op pending e ha => exact h.applied ha

theorem comes_applyAll (h : Stacks.StandAt P ⟨operands, pending⟩) :
    Comes (Refusal.IsOrder P) (fun ns => ∀ n ∈ ns, n.StandsAt P) (applyAll operands pending) := by
  fun_induction applyAll operands pending with
  | case1 => exact h.operands
  | case2 operands l pending => exact ⟨_, l, rfl, rfl, h.pending _ List.mem_cons_self⟩
  | case3 operands l op pending operands' ha ih => exact ih (h.applied ha)
  | case4 operands l op pending e ha => exact h.applied ha

namespace Stacks

variable {s : Stacks}

theorem StandAt.operand (h : s.StandAt P) {n : RawNode} (hn : n.StandsAt P) : (s.operand n).StandAt P :=
  ⟨List.forall_mem_cons.2 ⟨hn, h.operands⟩, h.pending⟩

theorem comes_operator {loc : Location} (hl : P loc) (op : Operator) (h : s.StandAt P) :
    Comes (Refusal.IsOrder P) (StandAt P) (s.operator loc op) := by
  simp only [operator]
  split
  · next r e =>
    obtain ⟨ho, hp⟩ := (comes_reduceOperators h).of_eq e
    exact ⟨ho, List.forall_mem_cons.2 ⟨hl, hp⟩⟩
  · next r e => exact (comes_reduceOperators h).of_eq e

/-- An operand that no operator joins to the first is refused at its place. -/
theorem comes_finish (h : s.StandAt P) : Comes (Refusal.IsOrder P) (fun _ => True) s.finish := by
  simp only [finish]
  split
  · next r e => exact (comes_applyAll h).of_eq e
  · next operands e =>
    have ha : ∀ n ∈ operands, n.StandsAt P := (comes_applyAll h).of_eq e
    split
    · trivial
    · trivial
    · next extra rest hr =>
      have hm : extra ∈ operands.reverse := hr ▸ List.mem_cons_of_mem _ List.mem_cons_self
      obtain ⟨l, hl, hp⟩ := ha extra (List.mem_reverse.1 hm)
      exact ⟨_, l, by rw [hl], rfl, hp⟩

end Stacks

end Stacks

namespace Reader

variable {P : Location → Prop}

theorem isOrder_unexpected {t : Token} (ht : P t.location) (expected : String) :
    (unexpected t expected).refusal.IsOrder P :=
  ⟨_, _, rfl, rfl, ht⟩

theorem comes_stepValue {r : Returning} {t : Token} (ht : P t.location) (h : r.parts.StandAt P) :
    Comes (fun s => s.refusal.IsOrder P) (State.StandsAt P) (stepValue r t) := by
  simp only [stepValue]
  split
  · exact h.operand ⟨_, rfl, ht⟩
  · exact ⟨h, ht⟩
  · exact ⟨h.operands, List.forall_mem_cons.2 ⟨ht, h.pending⟩⟩
  · split
    · next s e => exact (comes_closeGroup ht h).of_eq e
    · next f e => exact (comes_closeGroup ht h).of_eq e
  · next op _ =>
    split
    · next s e => exact (Stacks.comes_operator ht op h).of_eq e
    · next f e => exact (Stacks.comes_operator ht op h).of_eq e
  · split
    · next f e => exact (Stacks.comes_finish h).of_eq e
    · split
      · trivial
      · exact isOrder_unexpected ht _

/-- **A token is refused for the order of the tokens**, unless it is a type keyword that names no type. The refusal is
at the token or at an entry of the stacks. -/
theorem comes_step {m : Reader} {t : Token} (ht : P t.location)
    (hn : t.type.isTypeName = true → ∃ type : DataType, t.value = .text type.keyword) (h : m.state.StandsAt P) :
    Comes (fun s => s.refusal.IsOrder P) (fun m' => m'.state.StandsAt P) (m.step t) := by
  obtain ⟨fs, q⟩ := m
  cases q with
  | outside =>
    simp only [step]
    split
    · next hk =>
      obtain ⟨type, hv⟩ := hn hk
      rw [typeOfValue?_eq_some_iff.2 hv]
      trivial
    · exact isOrder_unexpected ht _
  | body hd done =>
    simp only [step]
    split
    · exact ⟨by simp [Stacks.empty], by simp [Stacks.empty]⟩
    · trivial
    · exact ⟨_, _, rfl, rfl, ht⟩
  | value r =>
    have hs := comes_stepValue ht h
    simp only [step]
    cases e : stepValue r t with
    | error s => exact hs.of_eq e
    | ok q => exact hs.of_eq e
  | callee r name =>
    simp only [step]
    split
    · exact h
    · exact isOrder_unexpected ht _
  | calling r name =>
    simp only [step]
    split
    · exact h.1.operand ⟨_, rfl, h.2⟩
    · exact isOrder_unexpected ht _
  | _ =>
    simp only [step]
    split
    · trivial
    · exact isOrder_unexpected ht _

theorem comes_run {m : Reader} {ts : List Token} (ht : ∀ t ∈ ts, P t.location)
    (hn : ∀ t ∈ ts, t.type.isTypeName = true → ∃ type : DataType, t.value = .text type.keyword)
    (h : m.state.StandsAt P) :
    Comes (fun s => s.refusal.IsOrder P) (fun m' => m'.state.StandsAt P) (m.run ts) := by
  induction ts generalizing m with
  | nil => exact h
  | cons t ts ih =>
    rw [List.forall_mem_cons] at ht hn
    have hs := comes_step ht.1 hn.1 h
    rw [run]
    split
    · next m' e => exact ih ht.2 hn.2 (hs.of_eq e)
    · next s e => exact hs.of_eq e

theorem comes_finish {m : Reader} {eof : Token} (he : P eof.location) (h : m.state.StandsAt P) :
    Comes (Refusal.IsOrder P) (fun _ => True) (m.finish eof) := by
  obtain ⟨fs, q⟩ := m
  cases q with
  | outside => trivial
  | value r =>
    simp only [finish]
    split
    · next f e => exact (Stacks.comes_finish h).of_eq e
    · exact ⟨_, _, rfl, rfl, he⟩
  | _ => exact ⟨_, _, rfl, rfl, he⟩

end Reader

/-- **Tokens are refused for their order, at one of them** or at the end of input, if each type keyword has the text of
a type. -/
theorem exists_place_of_ofTokens {P : Location → Prop} {file : String} {lines : List String} {ts : List Token}
    {f : Failure} (hp : ∀ t ∈ properTokens ts, P t.location) (he : P (eofToken file ts).location)
    (hn : ∀ t ∈ ts, t.type.isTypeName = true → ∃ type : DataType, t.value = .text type.keyword)
    (h : RawNode.ofTokens file lines ts = .error f) :
    ∃ cause loc, f = .diagnostic ⟨cause, some loc, sourceLine? lines loc.line⟩ ∧ cause.area = .order ∧ P loc := by
  have hn : ∀ t ∈ properTokens ts, t.type.isTypeName = true → ∃ type : DataType, t.value = .text type.keyword :=
    fun t hm => hn t ((List.takeWhile_sublist _).mem hm)
  have hs : Comes (fun s => s.refusal.IsOrder P) (fun _ => True) (readTokens file ts) := by
    have hr := Reader.comes_run (m := .start) hp hn trivial
    rw [readTokens]
    split
    · next s e => exact hr.of_eq e
    · next m e =>
      split
      · next r e' => exact (Reader.comes_finish he (hr.of_eq e)).of_eq e'
      · trivial
  rw [RawNode.ofTokens] at h
  cases e : readTokens file ts with
  | ok n => rw [e] at h; cases h
  | error s =>
    rw [e] at h
    cases h
    obtain ⟨cause, loc, e', ha, hl⟩ := hs.of_eq e
    exact ⟨cause, loc, congrArg (Refusal.failure lines) e', cause.area_of_isRefusal ha, hl⟩

/-- Tokens are refused for their order, if each type keyword has the text of a type. -/
theorem reports_of_ofTokens {file : String} {lines : List String} {ts : List Token} {f : Failure}
    (hn : ∀ t ∈ ts, t.type.isTypeName = true → ∃ type : DataType, t.value = .text type.keyword)
    (h : RawNode.ofTokens file lines ts = .error f) : f.Reports .order := by
  obtain ⟨cause, loc, rfl, ha, -⟩ := exists_place_of_ofTokens (P := fun _ => True) (fun _ _ => trivial) trivial hn h
  exact ⟨_, rfl, ha⟩

/-! ## Analysis -/

/-- **Analysis rejects a program for its meaning.** -/
theorem reports_of_analyze {κ : Type} {n : Node String κ} {f : Failure} (hn : n.IsProgram)
    (h : (analyze n).2 = .error f) : f.Reports .meaning := by
  cases rejectedFor_of_analyze hn h <;> exact Failure.reports_report rfl _

/-! ## Compiling -/

/-- **A source that does not compile** has no tree, or analysis rejects its tree: generation never fails. -/
theorem stages_of_compile_eq_error {options : Options} {source file : String} {f : Failure}
    (h : compile options source file = .error f) :
    Tree.ofSource source file = .error f ∨ ∃ n, Tree.ofSource source file = .ok n ∧ (analyze n).2 = .error f := by
  rcases bind_eq_error_iff.1 h with ht | ⟨ts, hts, h⟩
  · exact .inl (bind_eq_error_iff.2 (.inl ht))
  · rcases bind_eq_error_iff.1 h with hr | ⟨raw, hr, h⟩
    · exact .inl (bind_eq_error_iff.2 (.inr ⟨ts, hts, bind_eq_error_iff.2 (.inl hr)⟩))
    · have hn : Tree.ofSource source file = .ok raw.tree := ofSource_eq_ok_iff.2 ⟨ts, raw, hts, hr, rfl⟩
      rcases bind_eq_error_iff.1 h with ha | ⟨_, -, h⟩
      · exact .inr ⟨raw.tree, hn, ha⟩
      · obtain ⟨a, ha⟩ := exists_generate_iff.2 (isProgram_of_ofSource hn)
        rcases bind_eq_error_iff.1 h with hg | ⟨_, -, h⟩
        · rw [ha] at hg
          cases hg
        · cases h

/-- **All that compiling a source can fail with**: a report on its form, its order or its meaning, or a literal that is
too long to read. -/
theorem compile_eq_error_cases {options : Options} {source file : String} {f : Failure}
    (h : compile options source file = .error f) :
    f.Reports .form ∨ f.Reports .order ∨ f.Reports .meaning ∨
      ∃ n, f = .literalLength n ∧ tokens source file = .error (.literalLength n) := by
  rcases stages_of_compile_eq_error h with h | ⟨n, hn, ha⟩
  · rcases ofSource_eq_error_cases h with ht | ⟨ts, hts, hr⟩
    · obtain ⟨g, -, rfl⟩ := tokens_eq_error_iff.1 ht
      rcases g.failure_cases source.toList file (Scan.ofSource source.toList file).stop with ⟨n, rfl⟩ | hg
      · exact .inr (.inr (.inr ⟨n, rfl, ht⟩))
      · exact .inl hg
    · exact .inr (.inl (reports_of_ofTokens (fun t hm => value_of_isTypeName hts hm) hr))
  · exact .inr (.inr (.inl (reports_of_analyze (isProgram_of_ofSource hn) ha)))

/-- **No source runs into a defect of the compiler.** The tree of a source has code, checked or not, and analysis
accepts it or rejects it for its meaning. -/
theorem no_defect_of_source (source file : String) :
    (∀ n, Tree.ofSource source file = .ok n → (∃ a, generate n = .ok a) ∧
      ((analyze n).2 = .ok () ∨ ∃ f, (analyze n).2 = .error f ∧ f.Reports .meaning)) ∧
    ∀ options f, compile options source file = .error f → ¬f.IsDefect := by
  constructor
  · intro n h
    have hn := isProgram_of_ofSource h
    refine ⟨exists_generate_iff.2 hn, ?_⟩
    cases ha : (analyze n).2 with
    | ok => exact .inl rfl
    | error f => exact .inr ⟨f, rfl, reports_of_analyze hn ha⟩
  · intro options f h
    rcases compile_eq_error_cases h with hf | hf | hf | ⟨n, rfl, -⟩
    · exact hf.not_isDefect nofun
    · exact hf.not_isDefect nofun
    · exact hf.not_isDefect nofun
    · exact Failure.not_isDefect_literalLength n

/-- A source whose returns are no expressions of the grammar; its functions have one name. -/
def redefinedOddly : String := "void f() \x7b return (); \x7d int f() \x7b return 1 (2) +; \x7d"

/-- The tree of the source has code, though its analysis fails. -/
theorem no_defect_redefinedOddly : ∃ n a f, Tree.ofSource redefinedOddly "t.c" = .ok n ∧ generate n = .ok a ∧
    (analyze n).2 = .error f ∧ f.Reports .meaning ∧ compile {} redefinedOddly "t.c" = .error f ∧ ¬f.IsDefect := by
  have ht : (Tree.ofSource redefinedOddly "t.c").map (fun n => (analyze n).2) =
      .ok (.error (.report (.duplicate "f") (some ⟨"t.c", 1, 25⟩))) := by
    decide +kernel
  have hc : (compile {} redefinedOddly "t.c").map (fun c => c.tokenCount) =
      .error (.report (.duplicate "f") (some ⟨"t.c", 1, 25⟩)) := by
    decide +kernel
  cases hn : Tree.ofSource redefinedOddly "t.c" with
  | error f =>
    rw [hn] at ht
    cases ht
  | ok n =>
    rw [hn] at ht
    have ha := Except.ok.inj ht
    cases he : compile {} redefinedOddly "t.c" with
    | ok c =>
      rw [he] at hc
      cases hc
    | error f =>
      rw [he] at hc
      cases Except.error.inj hc
      obtain ⟨hs, hd⟩ := no_defect_of_source redefinedOddly "t.c"
      obtain ⟨⟨a, hg⟩, -⟩ := hs n hn
      exact ⟨n, a, _, rfl, hg, ha, Failure.reports_report rfl _, rfl, hd _ _ he⟩

end TinyArm
