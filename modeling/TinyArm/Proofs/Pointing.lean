import TinyArm.Proofs.Places

/-!
# What reports point at

A report on a source names a place in it, and what the report is about stands there. The place of a fault is where the
scan stopped. The places of all other reports are those of tokens: the stacks and the tree take them over from the
tokens that they are made from, and analysis from the tree.

* `exists_tokenAt_of_mem`: every token stands at a place of the source.
* `exists_return_of_mem`, `exists_heads_of_makesFunctions`: the tokens that a `return` and a function come from.
* `pointsInto_of_tokens`, `pointsInto_of_ofTokens`, `pointsInto_of_rejectedFor`: the reports of each stage.
* `exists_place_of_compile_eq_error`: **every report points at what it is about.**
-/

namespace TinyArm

open Grammar

/-! ## What reports are about -/

/-- The location after a text, from the start of a file. -/
def placeAfter (file : String) (before : List Char) : Location :=
  ⟨file, (1 + before.count '\n' : Nat), (1 + (before.rtakeWhile (· ≠ '\n')).length : Nat)⟩

theorem inFile_start_after (file : String) (before : List Char) :
    (Position.start.after before).inFile file = placeAfter file before := by
  rw [Position.start_after]
  rfl

/-- A token of a source that stands after `before`, in front of `rest`: its text comes next, or nothing if it is the
end of input. -/
structure TokenAt (source file : String) (before rest : List Char) (t : Token) : Prop where
  mem : ∃ ts, tokens source file = .ok ts ∧ t ∈ ts
  location : t.location = placeAfter file before
  text : (∃ cs after, rest = cs ++ after ∧ IsTokenText before cs after t.content) ∨
    t.content = (.eof, .absent) ∧ rest = []

/-- Whether two tokens are the front of a function: its type and its name. -/
structure Heads (t n : Token) (name : String) : Prop where
  type : t.type.isTypeName = true
  name : n.content = (.identifier, .text name)

/-- **What a report is about**, by its cause, and that this stands after `before`, in front of `rest`. -/
inductive PointsAt (source file : String) (before rest : List Char) : Cause → Prop where
  /-- A character that starts no lexeme. -/
  | character {c : Char} {cs : List Char} : rest = c :: cs → isBlank c = false → isWordPart c = false →
      TokenType.ofSymbol? c = none → PointsAt source file before rest (.character c)
  /-- A run of digits with a number beyond 32 bits. -/
  | literalRange {ds after : List Char} : rest = ds ++ after → Maximal IsNumeral before ds after →
      maxLiteral < Nat.ofDigitChars 10 ds 0 → PointsAt source file before rest (.literalRange (String.ofList ds))
  /-- The opening mark of a comment; no closing mark comes after it. -/
  | openComment {cs : List Char} : rest = '/' :: '*' :: cs → ¬['*', '/'] <:+: cs →
      PointsAt source file before rest .openComment
  /-- Any token, if the order of tokens is the matter. -/
  | order {cause : Cause} {t : Token} : cause.area = .order → TokenAt source file before rest t →
      PointsAt source file before rest cause
  /-- The name that is called. -/
  | undefined {name : String} {t : Token} : TokenAt source file before rest t →
      t.content = (.identifier, .text name) → PointsAt source file before rest (.undefined name)
  /-- The type keyword of a function that comes after another function of its name. -/
  | duplicate {name : String} {t n t' n' : Token} {us vs ws : List Token} : TokenAt source file before rest t →
      tokens source file = .ok (us ++ t' :: n' :: (vs ++ t :: n :: ws)) → Heads t' n' name → Heads t n name →
      PointsAt source file before rest (.duplicate name)
  /-- An operator. -/
  | mismatch {left right : Option DataType} {op : Operator} {t : Token} : TokenAt source file before rest t →
      t.type = .operator op → PointsAt source file before rest (.mismatch left right)
  /-- The keyword `return`. -/
  | returnType {expected found : Option DataType} {t : Token} : TokenAt source file before rest t →
      t.type = .returnWord → PointsAt source file before rest (.returnType expected found)

/-- A report that points at what it is about, where the source falls into lexemes and a rest. -/
def Diagnostic.PointsInto (source file : String) (d : Diagnostic) : Prop :=
  ∃ ls rest, Falls source.toList ls rest ∧ d.location = some (placeAfter file (textOf ls)) ∧
    PointsAt source file (textOf ls) rest d.cause

variable {source file : String}

/-! ## Scanning -/

/-- **Every token stands at a place of the source**, the end of input at its end. -/
theorem exists_tokenAt_of_mem {ts : List Token} (h : tokens source file = .ok ts) {t : Token} (ht : t ∈ ts) :
    ∃ ls rest, Falls source.toList ls rest ∧ TokenAt source file (textOf ls) rest t := by
  have hmem : ∃ ts, tokens source file = .ok ts ∧ t ∈ ts := ⟨ts, h, ht⟩
  obtain ⟨hf, rfl⟩ := tokens_eq_ok_iff.1 h
  rcases List.mem_append.1 ht with ht | ht
  · obtain ⟨ls, cs, rest, hl, htext, hp⟩ := exists_text_of_mem ht
    exact ⟨ls, cs ++ rest, hl, hmem, hp.trans (inFile_start_after _ _), .inl ⟨cs, rest, rfl, htext⟩⟩
  · obtain rfl := List.mem_singleton.1 ht
    obtain ⟨hn, hr⟩ := Scan.readable_of_fault_eq_none hf
    refine ⟨_, [], falls_lexemes hn, hmem, ?_, .inr ⟨rfl, rfl⟩⟩
    rw [Scan.eof, Scan.ofSource, Scan.ofLexemes_of_readable hr]
    exact inFile_start_after _ _

theorem LexicalFault.location_of_failure {g : LexicalFault} {cs : List Char} {p : Position} {d : Diagnostic}
    (h : g.failure cs file p = .diagnostic d) : d.location = some (p.inFile file) := by
  cases g <;> cases h <;> rfl

/-- The report of a fault is about what stands at the fault. -/
theorem FaultAt.pointsAt {before rest cs : List Char} {g : LexicalFault} {p : Position} {d : Diagnostic}
    (h : FaultAt before rest g) (hd : g.failure cs file p = .diagnostic d) :
    PointsAt source file before rest d.cause := by
  cases h with
  | openComment hn => cases hd; exact .openComment rfl hn
  | character hb hw ht => cases hd; exact .character rfl hb hw ht
  | literalRange hm hn => cases hd; exact .literalRange rfl hm hn
  | literalLength => cases hd

/-- A report of the scanner points at a fault. -/
theorem pointsInto_of_tokens {d : Diagnostic} (h : tokens source file = .error (.diagnostic d)) :
    d.PointsInto source file := by
  obtain ⟨g, hg, he⟩ := tokens_eq_error_iff.1 h
  obtain ⟨ls, rest, hl, hf, -, hs⟩ := exists_faultAt hg
  refine ⟨ls, rest, hl, ?_, hf.pointsAt he.symm⟩
  rw [LexicalFault.location_of_failure he.symm, hs, inFile_start_after]

/-! ## Reading -/

/-- **Tokens are refused for their order, at one of them**, and the report has the line of that number. -/
theorem exists_tokenAt_of_ofTokens {ts : List Token} (hts : tokens source file = .ok ts) {lines : List String}
    {f : Failure} (h : RawNode.ofTokens file lines ts = .error f) :
    ∃ cause ls rest t, Falls source.toList ls rest ∧ TokenAt source file (textOf ls) rest t ∧ cause.area = .order ∧
      f = .diagnostic ⟨cause, some (placeAfter file (textOf ls)),
        sourceLine? lines (1 + (textOf ls).count '\n' : Nat)⟩ := by
  obtain ⟨hp, he⟩ := properTokens_of_tokens hts
  have hmem : ∀ t, t ∈ properTokens ts ∨ t = eofToken file ts → t ∈ ts := by
    rw [hp, he, (tokens_eq_ok_iff.1 hts).2]
    rintro t (ht | rfl)
    · exact List.mem_append_left _ ht
    · exact List.mem_append_right _ (List.mem_singleton_self _)
  obtain ⟨cause, loc, rfl, ha, ls, rest, t, hl, rfl, ht⟩ := exists_place_of_ofTokens
    (P := fun l => ∃ ls rest t, Falls source.toList ls rest ∧ l = placeAfter file (textOf ls) ∧
      TokenAt source file (textOf ls) rest t)
    (fun t ht => by
      obtain ⟨ls, rest, hl, ht⟩ := exists_tokenAt_of_mem hts (hmem t (.inl ht))
      exact ⟨ls, rest, t, hl, ht.location, ht⟩)
    (by
      obtain ⟨ls, rest, hl, ht⟩ := exists_tokenAt_of_mem hts (hmem _ (.inr rfl))
      exact ⟨ls, rest, _, hl, ht.location, ht⟩)
    (fun t ht => value_of_isTypeName hts ht) h
  exact ⟨cause, ls, rest, t, hl, ht, ha, rfl⟩

/-- A report of the reader points at a token. -/
theorem pointsInto_of_ofTokens {ts : List Token} (hts : tokens source file = .ok ts) {lines : List String}
    {d : Diagnostic} (h : RawNode.ofTokens file lines ts = .error (.diagnostic d)) : d.PointsInto source file := by
  obtain ⟨cause, ls, rest, t, hl, ht, ha, hd⟩ := exists_tokenAt_of_ofTokens hts h
  cases hd
  exact ⟨ls, rest, hl, rfl, .order ha ht⟩

/-! ## Tokens of functions -/

section Makes

variable {tss : List (List Token)} {gs : List RawNode}

/-- **The tokens of a `return`** of functions: it stands at its keyword, and its value is made of some of them. -/
theorem exists_return_of_mem (h : List.Forall₂ (MakesFunction Stacks.IsValue) tss gs) {l : Location} {v : Tree}
    (hs : .ret l v ∈ (gs.map RawNode.tree).flatMap Node.items) :
    ∃ r us w, r ∈ tss.flatten ∧ (∀ t ∈ us, t ∈ tss.flatten) ∧ r.type = .returnWord ∧ r.location = l ∧
      Stacks.IsValue us w ∧ RawNode.tree w = v := by
  rw [List.mem_flatMap] at hs
  obtain ⟨_, hn, hs⟩ := hs
  obtain ⟨g, hg, rfl⟩ := List.mem_map.1 hn
  obtain ⟨ts, hts, hm⟩ := exists_mem_of_forall₂ h hg
  obtain @⟨front, hd, ss, body, e, -, hb, -⟩ := hm
  rw [RawNode.tree, Node.items_map] at hs
  obtain ⟨s, hs, he⟩ := List.mem_map.1 hs
  obtain ⟨us, hus, hst⟩ := exists_mem_of_forall₂ hb hs
  obtain @⟨r, e', us, w, hr, hv, -⟩ := hst
  cases he
  have hsub : ∀ t ∈ r :: us, t ∈ tss.flatten := by
    intro t ht
    have hs : t ∈ ss.flatten := List.mem_flatten.2 ⟨_, hus, by
      rw [← List.cons_append]
      exact List.mem_append_left _ ht⟩
    exact List.mem_flatten.2 ⟨_, hts, List.mem_append_right _ (List.mem_append_left _ hs)⟩
  exact ⟨r, us, w, hsub r List.mem_cons_self, fun t ht => hsub t (List.mem_cons_of_mem _ ht), hr, rfl, hv, rfl⟩

/-- A call in a value stands at the name of the function that it calls. -/
theorem exists_name_of_mem_leaves {us : List Token} {w : RawNode} (hv : Stacks.IsValue us w)
    (hs : ∀ t ∈ us, t.IsScanned) {loc : Location} {name : String}
    (h : .call loc name ∈ (RawNode.tree w).leaves) :
    ∃ t ∈ us, t.location = loc ∧ t.content = (.identifier, .text name) := by
  rw [RawNode.tree, Node.leaves_map, hv.conserves.leaves] at h
  obtain ⟨m, hm, he⟩ := List.mem_map.1 h
  obtain ⟨t, ht, hl⟩ := List.mem_filterMap.1 hm
  unfold Token.leaf? at hl
  split at hl
  · cases hl; cases he
  · next hk =>
    cases hl
    obtain ⟨s, hv, -⟩ := (hs t ht).name hk
    cases he
    exact ⟨t, ht, rfl, Prod.ext hk (by rw [Token.content, hv]; rfl)⟩
  · cases hl

/-- An operation in a value stands at its operator. -/
theorem exists_operator_of_mem_operations {us : List Token} {w : RawNode} (hv : Stacks.IsValue us w) {loc : Location}
    {op : Option Operator} (h : (loc, op) ∈ (RawNode.tree w).operations) :
    ∃ t ∈ us, t.location = loc ∧ ∃ o, t.type = .operator o := by
  rw [RawNode.tree, Node.operations_map, hv.conserves.operations.mem_iff] at h
  obtain ⟨t, ht, hl⟩ := List.mem_filterMap.1 h
  unfold Token.operation? at hl
  split at hl
  · next o hk => cases hl; exact ⟨t, ht, rfl, o, hk⟩
  · cases hl

/-- A function starts with its type and its name, and stands at its type. -/
theorem exists_heads_of_makesFunction {ts : List Token} {g : RawNode} (h : MakesFunction Stacks.IsValue ts g)
    (hs : ∀ t ∈ ts, t.IsScanned) {loc : Location} {name : String} {type : DataType} {body : List Tree}
    (hg : RawNode.tree g = .function loc name type body) :
    ∃ t n us, ts = t :: n :: us ∧ Heads t n name ∧ t.location = loc := by
  obtain @⟨_, _, ss, body, e, @⟨t, n, l, r, b, type, ht, -, hn, -, -, -⟩, -, -⟩ := h
  obtain ⟨s, hv, -⟩ := (hs n (by simp)).name hn
  cases hg
  exact ⟨t, n, _, rfl, ⟨ht, Prod.ext hn (by rw [Token.content, hv]; rfl)⟩, rfl⟩

theorem exists_split_of_forall₂ {α β : Type} {R : α → β → Prop} {as : List α} {bs cs : List β} {b : β}
    (h : List.Forall₂ R as (bs ++ b :: cs)) :
    ∃ as₁ a as₂, as = as₁ ++ a :: as₂ ∧ List.Forall₂ R as₁ bs ∧ R a b := by
  induction bs generalizing as with
  | nil =>
    obtain ⟨a, as, hab, -, rfl⟩ := List.forall₂_cons_right_iff.1 h
    exact ⟨[], a, as, rfl, .nil, hab⟩
  | cons b' bs ih =>
    obtain ⟨a', as, hab, has, rfl⟩ := List.forall₂_cons_right_iff.1 h
    obtain ⟨as₁, a, as₂, rfl, h₁, ha⟩ := ih has
    exact ⟨a' :: as₁, a, as₂, rfl, .cons hab h₁, ha⟩

/-- **The fronts of two functions of one name** among the tokens of functions. -/
theorem exists_heads_of_makesFunctions (h : List.Forall₂ (MakesFunction Stacks.IsValue) tss gs)
    (hs : ∀ t ∈ tss.flatten, t.IsScanned) {before after body : List Tree} {loc : Location} {name : String}
    {type : DataType} (he : gs.map RawNode.tree = before ++ .function loc name type body :: after)
    (hn : name ∈ (signatures before).map Prod.fst) :
    ∃ us t' n' vs t n ws, tss.flatten = us ++ t' :: n' :: (vs ++ t :: n :: ws) ∧ Heads t' n' name ∧ Heads t n name ∧
      t.location = loc := by
  obtain ⟨gs₁, rest, rfl, rfl, hrest⟩ := List.map_eq_append_iff.1 he
  obtain ⟨g, gs₂, rfl, hg, -⟩ := List.map_eq_cons_iff.1 hrest
  obtain ⟨tss₁, ts, tss₂, rfl, h₁, hts⟩ := exists_split_of_forall₂ h
  obtain ⟨⟨_, t₀⟩, hsig, rfl⟩ := List.mem_map.1 hn
  obtain ⟨_, hf, hsig⟩ := List.mem_filterMap.1 hsig
  obtain ⟨g', hg', rfl⟩ := List.mem_map.1 hf
  obtain ⟨ts', hm', hts'⟩ := exists_mem_of_forall₂ h₁ hg'
  obtain ⟨l', type', body', hf'⟩ : ∃ l' type' body', RawNode.tree g' = .function l' _ type' body' := by
    cases e : RawNode.tree g' with
    | function l' name' type' body' =>
      rw [e] at hsig
      cases hsig
      exact ⟨l', _, body', rfl⟩
    | _ => rw [e] at hsig; cases hsig
  have hmem : ts' ∈ tss₁ ++ ts :: tss₂ := List.mem_append_left _ hm'
  obtain ⟨t, n, us, rfl, hh, hl⟩ := exists_heads_of_makesFunction hts
    (fun t ht => hs t (List.mem_flatten.2 ⟨_, by simp, ht⟩)) hg
  obtain ⟨t', n', us', rfl, hh', -⟩ := exists_heads_of_makesFunction hts'
    (fun t ht => hs t (List.mem_flatten.2 ⟨_, hmem, ht⟩)) hf'
  obtain ⟨a, b, rfl⟩ := List.append_of_mem hm'
  exact ⟨a.flatten, t', n', us' ++ b.flatten, t, n, us ++ tss₂.flatten, by simp, hh', hh, hl⟩

end Makes

/-! ## Analysis -/

/-- A report of analysis points at the part that the program is rejected for. -/
theorem pointsInto_of_rejectedFor {ts : List Token} (hts : tokens source file = .ok ts) {raw : RawNode}
    (hr : Makes Stacks.IsValue file (properTokens ts) raw) {f : Failure}
    (h : RejectedFor (RawNode.tree raw).functions f) :
    ∃ d, f = .diagnostic d ∧ d.PointsInto source file := by
  obtain ⟨hp, he⟩ := properTokens_of_tokens hts
  have hts' := (tokens_eq_ok_iff.1 hts).2
  rw [← hp, ← he] at hts'
  have hmem : ∀ t ∈ properTokens ts, t ∈ ts := fun t ht => (List.takeWhile_sublist _).mem ht
  have hs : ∀ t ∈ properTokens ts, t.IsScanned := fun t ht => isScanned_of_tokens hts t (hmem t ht)
  -- a report at a token is one at the place of the token
  have hplace : ∀ {t : Token} {cause : Cause}, t ∈ properTokens ts →
      (∀ ls rest, TokenAt source file (textOf ls) rest t → PointsAt source file (textOf ls) rest cause) →
      ∃ d, Failure.report cause t.location = .diagnostic d ∧ d.PointsInto source file := by
    intro t cause ht hc
    obtain ⟨ls, rest, hl, ha⟩ := exists_tokenAt_of_mem hts (hmem t ht)
    exact ⟨_, rfl, ls, rest, hl, congrArg some ha.location, hc ls rest ha⟩
  generalize properTokens ts = us at hr hs hplace hts'
  generalize eofToken file ts = e at hts'
  obtain @⟨tss, gs, hg⟩ := hr
  have hfs : (RawNode.tree (.program ⟨file, 1, 1⟩ gs)).functions = gs.map RawNode.tree := Node.mapAll_eq_map _ _ gs
  rw [hfs] at h
  cases h with
  | undefined hv hl =>
    obtain ⟨r, us, w, -, hus, -, -, hw, rfl⟩ := exists_return_of_mem hg hv
    obtain ⟨t, ht, rfl, hk⟩ := exists_name_of_mem_leaves hw (fun t ht => hs t (hus t ht)) hl
    exact hplace (hus t ht) fun ls rest ha => .undefined ha hk
  | mismatch hv hl =>
    obtain ⟨r, us, w, -, hus, -, -, hw, rfl⟩ := exists_return_of_mem hg hv
    obtain ⟨t, ht, rfl, o, hk⟩ := exists_operator_of_mem_operations hw hl
    exact hplace (hus t ht) fun ls rest ha => .mismatch ha hk
  | returnType hv =>
    obtain ⟨r, us, w, hr, -, hk, rfl, -, -⟩ := exists_return_of_mem hg hv
    exact hplace hr fun ls rest ha => .returnType ha hk
  | duplicate he hn =>
    obtain ⟨us, t', n', vs, t, n, ws, hu, hh', hh, rfl⟩ := exists_heads_of_makesFunctions hg hs he hn
    have htokens : tokens source file = .ok (us ++ t' :: n' :: (vs ++ t :: n :: (ws ++ [e]))) := by
      rw [hts, hts', hu]
      simp
    exact hplace (by simp [hu]) fun ls rest ha => .duplicate ha htokens hh' hh

/-! ## Compiling -/

/-- **Every report on a source points at what it is about.** Its place is in the file, at the line and the column that
the text before the place says; the text before it falls into lexemes, and what stands there is what the cause of the
report is about. -/
theorem exists_place_of_compile_eq_error {options : Options} {d : Diagnostic}
    (h : compile options source file = .error (.diagnostic d)) :
    ∃ before rest, source.toList = before ++ rest ∧ (∃ ls, Falls source.toList ls rest) ∧
      d.location = some ⟨file, (1 + before.count '\n' : Nat), (1 + (before.rtakeWhile (· ≠ '\n')).length : Nat)⟩ ∧
      PointsAt source file before rest d.cause := by
  suffices hd : d.PointsInto source file by
    obtain ⟨ls, rest, hl, hp, hc⟩ := hd
    exact ⟨textOf ls, rest, hl.textOf_append.symm, ⟨ls, hl⟩, hp, hc⟩
  rcases stages_of_compile_eq_error h with h | ⟨n, hn, ha⟩
  · rcases ofSource_eq_error_cases h with ht | ⟨ts, hts, hr⟩
    · exact pointsInto_of_tokens ht
    · exact pointsInto_of_ofTokens hts hr
  · have hf := rejectedFor_of_analyze (isProgram_of_ofSource hn) ha
    obtain ⟨ts, raw, hts, hr, rfl⟩ := ofSource_eq_ok_iff.1 hn
    obtain ⟨_, hd, hp⟩ := pointsInto_of_rejectedFor hts (ofTokens_eq_ok_iff.1 hr) hf
    cases hd
    exact hp

/-- A source whose second function has the name of the first, behind a comment of two lines. -/
def redefinedBehindComment : String := "int f() \x7b return 1; \x7d /* once\nmore */ void f() \x7b return; \x7d"

theorem exists_place_redefinedBehindComment : ∃ d, compile {} redefinedBehindComment "t.c" = .error (.diagnostic d) ∧
    d.cause = .duplicate "f" ∧ d.location = some ⟨"t.c", 2, 9⟩ ∧
    ∃ before rest, redefinedBehindComment.toList = before ++ rest ∧
      (∃ ls, Falls redefinedBehindComment.toList ls rest) ∧
      d.location = some ⟨"t.c", (1 + before.count '\n' : Nat), (1 + (before.rtakeWhile (· ≠ '\n')).length : Nat)⟩ ∧
      PointsAt redefinedBehindComment "t.c" before rest d.cause := by
  have hc : (compile {} redefinedBehindComment "t.c").map (fun _ => ()) =
      .error (.report (.duplicate "f") (some ⟨"t.c", 2, 9⟩)) := by
    decide +kernel
  have h := map_eq_error_iff.1 hc
  exact ⟨_, h, rfl, rfl, exists_place_of_compile_eq_error h⟩

end TinyArm
