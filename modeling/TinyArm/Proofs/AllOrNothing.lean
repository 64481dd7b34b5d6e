import TinyArm.Command.Run
import TinyArm.Proofs.Concatenation
import TinyArm.Proofs.Invariance
import TinyArm.Proofs.Writing

/-!
# All or nothing

A compilation writes once, when its last stage is done, and what the command prints after that cannot fail.

* `compileText_of_compile`: the assembly of a text does not depend on the name it is compiled under.
* `leavesOrWrites`: compiling a file that fails leaves every file as it was.
* `Command.Job.shown_eq_ok`: **nothing fails after the write**: the tree of a compiled source is printed.
* `Command.comes_run`: a run of the command fails, answers a question, or compiles; only the last changes a file.
* `writes_all_or_nothing`: both ways to compile a file put together.
-/

namespace TinyArm

/-! ## The name of a source -/

/-- A file name stands in the places of tokens and nowhere else. -/
theorem Scan.ofLexemes_file (file file' : String) (fault : Option LexicalFault) (ls : List Lexeme) (p : Position) :
    (ofLexemes file fault p ls).tokens.map Token.content = (ofLexemes file' fault p ls).tokens.map Token.content ∧
      (ofLexemes file fault p ls).fault = (ofLexemes file' fault p ls).fault := by
  induction ls generalizing p with
  | nil => exact ⟨rfl, rfl⟩
  | cons l ls ih =>
    cases ht : l.token with
    | error f => simp [ofLexemes, ht]
    | ok k =>
      obtain ⟨hc, hf⟩ := ih (p.after l.text)
      cases k with
      | none => rw [ofLexemes_cons_none ht, ofLexemes_cons_none ht]; exact ⟨hc, hf⟩
      | some k =>
        rw [ofLexemes_cons_some ht, ofLexemes_cons_some ht]
        exact ⟨congrArg (List.cons k) hc, hf⟩

theorem exists_tokens_file {source file : String} {ts : List Token} (h : tokens source file = .ok ts)
    (file' : String) : ∃ us, tokens source file' = .ok us ∧ ts.map Token.content = us.map Token.content := by
  obtain ⟨hn, rfl⟩ := tokens_eq_ok_iff.1 h
  obtain ⟨hc, hf⟩ := Scan.ofLexemes_file file file' (lexemes source.toList).2 (lexemes source.toList).1 .start
  refine ⟨_, tokens_eq_ok_iff.2 ⟨hf.symm.trans hn, rfl⟩, ?_⟩
  rw [List.map_append, List.map_append]
  exact congrArg (· ++ [Token.content ⟨.eof, .absent, ⟨"", 1, 1⟩⟩]) hc

/-- **The assembly of a text does not depend on its name**, nor on what else is kept. -/
theorem compileText_of_compile {options : Options} {source file : String} {c : Compiled}
    (h : compile options source file = .ok c) (file' : String) : compileText source file' = .ok c.assembly.text := by
  obtain ⟨ts, n, a, hts, hn, ha, hg, rfl⟩ := compile_eq_ok_iff.1 h
  obtain ⟨us, hus, he⟩ := exists_tokens_file hts file'
  rcases bimap_eq_cases (ofTokens_forget he.symm file' file (quotedLines source) (quotedLines source)) with
    ⟨m, _, hm, hn', hf⟩ | ⟨_, _, _, hn', -⟩
  · cases hn.symm.trans hn'
    have ht : (RawNode.tree m).relocate .forget = (RawNode.tree n).relocate .forget := by
      rw [← RawNode.tree_relocate, hf, RawNode.tree_relocate]
    exact compileText_of_ofSource (ofSource_eq_ok_iff.2 ⟨us, m, hus, hm, rfl⟩) (compiles_of_forget ht ⟨ha, hg⟩)
  · cases hn.symm.trans hn'

/-! ## Compiling a file -/

variable {w w' : Workspace}

theorem readSource_eq_ok_iff {p : Path} {s : String} : readSource w p = .ok s ↔
    ∃ bytes cs, w.read? p = .ok bytes ∧ Text.Utf8.decode bytes = .ok cs ∧ s = String.ofList (Text.unifyNewlines cs) := by
  unfold readSource
  cases w.read? p with
  | error f => simp
  | ok bytes => cases hd : Text.Utf8.decode bytes <;> simp [hd, eq_comm]

theorem writesOnly_of_writeText {p : Path} {s : String} (h : writeText w p s = .ok w') :
    w.WritesOnly w' p (Text.Utf8.encode s.toList) := by
  unfold writeText at h
  split at h
  · cases h
  · next hw => cases h; exact Workspace.writesOnly_of_write hw

theorem exists_of_compileSourceFile {options : Options} {file : String} {c : Compiled}
    (h : compileSourceFile options w file = .ok c) :
    ∃ s, readSource w (Path.ofString file) = .ok s ∧ compile options s file = .ok c := by
  unfold compileSourceFile at h
  split at h
  · cases h
  · cases h
  · split at h
    · cases h
    · next hs => exact ⟨_, hs, h⟩

/-- What compiling a file does to the files: nothing if it fails or has nowhere to write, and else it writes the
assembly to the output path and nowhere else. -/
structure LeavesOrWrites (w : Workspace) (output : Option String) (r : Workspace × Except Failure String) : Prop where
  of_error : ∀ f, r.2 = .error f → r.1 = w
  of_unwritten : ∀ asm, r.2 = .ok asm → output = none ∨ output = some "" → r.1 = w
  of_written : ∀ asm o, r.2 = .ok asm → output = some o → o ≠ "" →
    w.WritesOnly r.1 (Path.ofString o) (Text.Utf8.encode asm.toList)

theorem LeavesOrWrites.failed (w : Workspace) (output : Option String) (f : Failure) :
    LeavesOrWrites w output (w, .error f) where
  of_error _ _ := rfl
  of_unwritten _ _ _ := rfl
  of_written _ _ h := by cases h

theorem LeavesOrWrites.unwritten (w : Workspace) {output : Option String} (h : output.filter (· ≠ "") = none)
    (asm : String) : LeavesOrWrites w output (w, .ok asm) where
  of_error _ _ := rfl
  of_unwritten _ _ _ := rfl
  of_written _ o _ he hn := by simp [he, hn] at h

theorem LeavesOrWrites.written {o asm : String} (hn : o ≠ "")
    (h : w.WritesOnly w' (Path.ofString o) (Text.Utf8.encode asm.toList)) :
    LeavesOrWrites w (some o) (w', .ok asm) where
  of_error _ h := by cases h
  of_unwritten _ _ he := by simp [hn] at he
  of_written _ _ ha he _ := by cases ha; cases he; exact h

theorem leavesOrWrites (w : Workspace) (file : String) (output : Option String) :
    LeavesOrWrites w output (compileFile w file output) := by
  unfold compileFile
  split
  · exact .failed w output _
  · split
    · next ho => exact .unwritten w ho _
    · next o ho =>
      obtain ⟨rfl, hn⟩ := Option.filter_eq_some_iff.1 ho
      split
      · exact .failed w (some o) _
      · next hw => exact .written (by simpa using hn) (writesOnly_of_writeText hw)

/-! ## Running the command -/

namespace Command

/-- How a question is written. -/
def Question.option : Question → String
  | version => "--version"
  | help => "--help"

theorem Flag.ofLong?_eq_ask {s : String} {q : Question} (h : Flag.ofLong? s = some (.ask q)) : s = q.option := by
  unfold Flag.ofLong? at h
  repeat' split at h
  all_goals first | cases h; assumption | cases h

theorem Flag.ofShort?_ne_ask (c : Char) (q : Question) : Flag.ofShort? c ≠ some (.ask q) := by
  unfold Flag.ofShort?
  split <;> simp

namespace Arguments

/-- Short options ask nothing. -/
theorem question_of_shortFlags {a a' : Arguments} {cs : List Char} {o : Option String}
    (h : shortFlags a cs = .ok (a', o)) : a'.question = a.question := by
  fun_induction shortFlags a cs with
  | case1 => cases h; rfl
  | case2 => cases h
  | case3 => cases h; rfl
  | case4 => cases h; rfl
  | case5 a c cs f _ hf ih =>
    rw [ih h]
    cases f with
    | ask q => exact absurd hf (Flag.ofShort?_ne_ask c q)
    | _ => rfl

theorem question_flag {a : Arguments} {f : Flag} {q : Question} (h : (a.flag f).question = some q) :
    a.question = some q ∨ f = .ask q := by
  cases f with
  | ask q' =>
    have ho : a.question.or (some q') = some q := by
      rw [← h, flag]
      cases a.question <;> rfl
    rcases Option.or_eq_some_iff.1 ho with h | ⟨-, h⟩
    · exact .inl h
    · exact .inr (congrArg Flag.ask (Option.some.inj h))
  | _ => exact .inl h

/-- An option asks a question only if it is the question. -/
theorem question_of_optionArgument {a a' : Arguments} {arg : String} {o : Option String}
    (h : optionArgument a arg = .ok (a', o)) {q : Question} (hq : a'.question = some q) :
    a.question = some q ∨ q.option = arg := by
  simp only [optionArgument] at h
  split at h
  · cases h; exact .inl hq
  · cases h; exact .inl hq
  · cases h
  · next f _ hf hv =>
    cases h
    rcases question_flag hq with hq | rfl
    · exact .inl hq
    · right
      rw [← Flag.ofLong?_eq_ask hf]
      split at hv
      · next hd =>
        rw [← List.append_nil (arg.toList.takeWhile _), ← hd, List.takeWhile_append_dropWhile, String.ofList_toList]
      · cases hv
  · split at h
    · cases h
    · exact .inl (question_of_shortFlags h ▸ hq)

theorem question_of_parseFrom {a a' : Arguments} {waiting : Option String} {args : List String}
    (h : parseFrom a waiting args = .ok a') {q : Question} (hq : a'.question = some q) :
    a.question = some q ∨ q.option ∈ args := by
  fun_induction parseFrom a waiting args with
  | case1 => cases h; exact .inl hq
  | case2 => cases h
  | case3 a arg rest o ih => exact (ih h).imp_right (List.mem_cons_of_mem _)
  | case4 a rest => cases h; exact .inl hq
  | case5 => cases h
  | case6 a arg rest _ _ a' o ho ih =>
    rcases ih h with hq | hm
    · exact (question_of_optionArgument ho hq).imp_right fun e => by rw [e]; exact List.mem_cons_self
    · exact .inr (List.mem_cons_of_mem _ hm)
  | case7 a arg rest _ _ ih => exact (ih h).imp_right (List.mem_cons_of_mem _)

end Arguments

/-! ### Jobs -/

theorem checkOutput_eq_ok {w : Workspace} {written : String} {p : Path} (h : checkOutput w written = .ok p) :
    p = Path.ofString written := by
  unfold checkOutput at h
  split at h
  · cases h
  · cases h; rfl

theorem checkSource_eq_ok {w : Workspace} {written : String} {p : Path} (h : checkSource w written = .ok p) :
    p = Path.ofString written ∧ p.suffix = ".c" := by
  unfold checkSource at h
  repeat' split at h
  all_goals cases h
  exact ⟨rfl, by assumption⟩

/-- A job compiles the only argument that is no option. -/
theorem Job.of_ofArguments {w : Workspace} {a : Arguments} {job : Job} (h : Job.ofArguments w a = .ok job) :
    ∃ file, a.others = [file] ∧ job.source = Path.ofString file ∧ job.source.suffix = ".c" ∧
      job.output = a.output.map Path.ofString := by
  obtain ⟨output, ho, h⟩ := bind_eq_ok_iff.1 h
  have ho : output = a.output.map Path.ofString := by
    cases hw : a.output with
    | none => rw [hw] at ho; cases ho; rfl
    | some written =>
      rw [hw] at ho
      obtain ⟨p, hp, rfl⟩ := map_eq_ok_iff.1 ho
      rw [checkOutput_eq_ok hp]
      rfl
  split at h
  · cases h
  · next file extra he =>
    obtain ⟨source, hs, h⟩ := bind_eq_ok_iff.1 h
    obtain ⟨rfl, hc⟩ := checkSource_eq_ok hs
    split at h
    · next hx =>
      cases h
      exact ⟨file, by rw [he, List.isEmpty_iff.1 hx], rfl, hc, ho⟩
    · cases h

/-- A job that is done has read its source, compiled it and written the assembly. -/
theorem Job.of_compile {job : Job} {w w' : Workspace} {c : Compiled} {output : Path}
    (h : job.compile w = .ok (c, output, w')) :
    job.outputPath = .ok output ∧
      (∃ s, readSource w (Path.ofString job.source.text) = .ok s ∧
        TinyArm.compile { keepTokens := job.print } s job.source.text = .ok c) ∧
      writeText w output c.assembly.text = .ok w' := by
  obtain ⟨o, ho, h⟩ := bind_eq_ok_iff.1 h
  obtain ⟨c', hc, h⟩ := bind_eq_ok_iff.1 h
  obtain ⟨w'', hw, h⟩ := bind_eq_ok_iff.1 h
  cases h
  exact ⟨ho, exists_of_compileSourceFile hc, hw⟩

/-- The tree of whatever compiles is the tree of a program. -/
theorem isProgram_of_compile {options : Options} {source file : String} {c : Compiled}
    (h : compile options source file = .ok c) : c.tree.IsProgram :=
  isProgram_of_ofSource (accepted_of_compile h).1

/-- **Nothing fails after the write**: the tree of a program is printed. -/
theorem Job.shown_eq_ok (job : Job) {c : Compiled} (h : c.tree.IsProgram) (output : Path) :
    ∃ text, job.shown c output = (text, .ok ()) := by
  unfold shown
  cases job.print with
  | false => exact ⟨_, rfl⟩
  | true => simp only [showStages, h.print_eq]; exact ⟨_, rfl⟩

theorem exitCode_ne_zero (t : Trouble) : t.exitCode ≠ 0 := by
  cases t <;> simp [Trouble.exitCode]

/-- A job fails and leaves the files as they were, or compiles its source and writes its output. -/
theorem Job.run_cases (job : Job) (w : Workspace) :
    ((job.run w).exitCode ≠ 0 ∧ (job.run w).workspace = w) ∨
      ∃ c output, job.compile w = .ok (c, output, (job.run w).workspace) ∧ (job.run w).exitCode = 0 := by
  cases hc : job.compile w with
  | error f => exact .inl (by simp only [run, hc]; exact ⟨exitCode_ne_zero _, trivial⟩)
  | ok r =>
    obtain ⟨c, output, w'⟩ := r
    obtain ⟨-, ⟨s, -, hs⟩, -⟩ := of_compile hc
    obtain ⟨text, ht⟩ := job.shown_eq_ok (isProgram_of_compile hs) output
    exact .inr ⟨c, output, by simp only [run, hc, ht], by simp only [run, hc, ht]⟩

/-! ### Runs -/

/-- What a run of the command may come to, with the files after it. -/
inductive Comes (w : Workspace) (args : List String) (o : Outcome) : Prop
  /-- The arguments, the source or the output cannot be used, or the compilation fails. -/
  | failed (code : o.exitCode ≠ 0) (kept : o.workspace = w)
  /-- A question is answered. -/
  | answered (q : Question) (asked : q.option ∈ args) (code : o.exitCode = 0) (kept : o.workspace = w)
  /-- A source is compiled. -/
  | compiled (a : Arguments) (job : Job) (c : Compiled) (output : Path) (parsed : Arguments.parse args = .ok a)
    (asked : Job.ofArguments w a = .ok job) (written : job.compile w = .ok (c, output, o.workspace))
    (code : o.exitCode = 0)

theorem comes_run (w : Workspace) (args : List String) : Comes w args (run w args) := by
  cases ha : Arguments.parse args with
  | error f => exact .failed (by simp [run, ha]) (by simp [run, ha])
  | ok a =>
    cases hq : a.question with
    | some q =>
      rcases Arguments.question_of_parseFrom ha hq with h | hm
      · cases h
      · exact .answered q hm (by simp [run, ha, hq]) (by simp [run, ha, hq])
    | none =>
      cases hj : Job.ofArguments w a with
      | error f => exact .failed (by simp [run, ha, hq, hj]) (by simp [run, ha, hq, hj])
      | ok job =>
        have he : run w args = job.run w := by simp [run, ha, hq, hj]
        rw [he]
        rcases job.run_cases w with ⟨hc, hw⟩ | ⟨c, output, hc, h0⟩
        · exact .failed hc hw
        · exact .compiled a job c output ha hj hc h0

/-- Where arguments say that the assembly of a source goes: to the value of the output option, or else beside the
source, with the suffix `.s`. -/
def Arguments.WritesTo (a : Arguments) (source output : Path) : Prop :=
  match a.output with
  | some o => output = Path.ofString o
  | none => source.withSuffix ".s" = .ok output

/-- The arguments name a file, and its text, read as UTF-8 with uniform newlines, has an assembly, whatever it is
called; this is now at the output path, and nothing else is changed. -/
def CompilesFile (w : Workspace) (args : List String) (w' : Workspace) : Prop :=
  ∃ a file output bytes cs asm, Arguments.parse args = .ok a ∧ a.others = [file] ∧
    a.WritesTo (Path.ofString file) output ∧ w.read? (Path.ofString file) = .ok bytes ∧
    Text.Utf8.decode bytes = .ok cs ∧
    (∀ name, compileText (String.ofList (Text.unifyNewlines cs)) name = .ok asm) ∧
    w.WritesOnly w' output (Text.Utf8.encode asm.toList)

/-- What a run of the command does to the files: nothing if it fails; else it has answered a question, which does
nothing either, or compiled a file. Without the output option the source stays as it was. -/
structure LeavesOrCompiles (w : Workspace) (args : List String) (o : Outcome) : Prop where
  of_failed : o.exitCode ≠ 0 → o.workspace = w
  of_done : o.exitCode = 0 →
    (∃ q : Question, q.option ∈ args ∧ o.workspace = w) ∨ CompilesFile w args o.workspace
  source_kept : ∀ a file, Arguments.parse args = .ok a → a.output = none → a.others.head? = some file →
    o.workspace.find? (Path.ofString file) = w.find? (Path.ofString file)

theorem LeavesOrCompiles.of_kept {w : Workspace} {args : List String} {o : Outcome} (h : o.workspace = w)
    (hd : o.exitCode = 0 → ∃ q : Question, q.option ∈ args ∧ o.workspace = w) : LeavesOrCompiles w args o where
  of_failed _ := h
  of_done hc := .inl (hd hc)
  source_kept _ _ _ _ _ := by rw [h]

/-- A job that is done has compiled the text of its source. -/
theorem compilesFile_of_compile {w w' : Workspace} {args : List String} {a : Arguments} {job : Job} {c : Compiled}
    {output : Path} (ha : Arguments.parse args = .ok a) (hj : Job.ofArguments w a = .ok job)
    (hc : job.compile w = .ok (c, output, w')) : CompilesFile w args w' := by
  obtain ⟨file, hf, hs, -, ho⟩ := Job.of_ofArguments hj
  obtain ⟨hout, ⟨s, hr, hcs⟩, hw⟩ := Job.of_compile hc
  rw [hs, Path.ofString_text (Path.isRead_ofString file)] at hr
  obtain ⟨bytes, cs, hb, hd, rfl⟩ := readSource_eq_ok_iff.1 hr
  refine ⟨a, file, output, bytes, cs, c.assembly.text, ha, hf, ?_, hb, hd, ?_, writesOnly_of_writeText hw⟩
  · unfold Job.outputPath at hout
    unfold Arguments.WritesTo
    rw [ho, hs] at hout
    cases he : a.output with
    | none => rw [he] at hout; exact hout
    | some o => rw [he] at hout; cases hout; rfl
  · exact compileText_of_compile hcs

theorem leavesOrCompiles (w : Workspace) (args : List String) : LeavesOrCompiles w args (run w args) := by
  cases comes_run w args with
  | failed code kept => exact .of_kept kept fun h => absurd h code
  | answered q asked code kept => exact .of_kept kept fun _ => ⟨q, asked, kept⟩
  | compiled a job c output ha hj hc code =>
    refine ⟨fun h => absurd code h, fun _ => .inr (compilesFile_of_compile ha hj hc), fun a' file ha' hn hf => ?_⟩
    cases ha.symm.trans ha'
    obtain ⟨file', hf', hs, hsuffix, ho⟩ := Job.of_ofArguments hj
    obtain ⟨hout, ⟨s, hr, -⟩, hw⟩ := Job.of_compile hc
    obtain rfl : file' = file := by
      rw [hf'] at hf
      exact Option.some.inj hf
    rw [Job.outputPath, ho, hn] at hout
    rw [hs, Path.ofString_text (Path.isRead_ofString file')] at hr
    obtain ⟨bytes, -, hb, -⟩ := readSource_eq_ok_iff.1 hr
    obtain ⟨q, hq⟩ := Workspace.exists_resolve_of_read? hb
    rw [hs] at hsuffix hout
    exact (writesOnly_of_writeText hw).find?_eq hq (Workspace.resolve_withSuffix_ne hsuffix hout hq)

end Command

/-- A working directory with one source in it. -/
def oneSource : Workspace := ⟨[(⟨"", ["f.c"]⟩, .file (Text.Utf8.encode "int f() \x7b return 1; \x7d".toList))]⟩

example : (Command.run oneSource ["-p", "./f.c"]).exitCode = 0 ∧
    (Command.run oneSource ["-p", "./f.c"]).workspace.entries.map Prod.fst = [⟨"", ["f.c"]⟩, ⟨"", ["f.s"]⟩] ∧
    (Command.run oneSource ["-o", "d/f.s", "f.c"]).workspace = oneSource := by
  decide +kernel

end TinyArm
