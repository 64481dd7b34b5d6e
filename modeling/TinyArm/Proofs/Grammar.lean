import Mathlib.Data.List.Forall2
import TinyArm.Node.Reader

/-!
# The grammar of programs

Two grammars of expressions over tokens.

* `Derives` is the flat grammar: an expression is operands with operators between them. It says which token lists are
  expressions and nothing about their trees.
* `Denotes` is the unambiguous grammar of sums, products and factors: it says which tree a token list stands for.
  Every flat expression denotes a tree (`Derives.exists_denotes`).

`IsProgramText` is the grammar of whole programs over `Derives`. `Makes` lays trees out over tokens, for any reading of
the tokens between a `return` and its semicolon; with `Denotes` as that reading, every program text makes a program
(`IsProgramText.exists_makes`).
-/

namespace TinyArm.Grammar

/-! ## The flat grammar of expressions -/

/-- The two notions of the flat grammar. -/
inductive Phrase where
  | expression
  | operand

/-- **The flat grammar**: an operand is a literal, a call without arguments or an expression in parentheses. -/
inductive Derives : Phrase → List Token → Prop where
  | number {t : Token} : t.type = .number → Derives .operand [t]
  | call {n l r : Token} : n.type = .identifier → l.type = .leftParen → r.type = .rightParen →
      Derives .operand [n, l, r]
  | group {l r : Token} {ts : List Token} : l.type = .leftParen → Derives .expression ts → r.type = .rightParen →
      Derives .operand (l :: (ts ++ [r]))
  | single {ts : List Token} : Derives .operand ts → Derives .expression ts
  | chain {o : Token} {op : Operator} {ts us : List Token} : Derives .operand ts → o.type = .operator op →
      Derives .expression us → Derives .expression (ts ++ o :: us)

/-! ## Sums, products and factors -/

/-- The tiers of the unambiguous grammar. -/
inductive Tier where
  | sum
  | product
  | factor

/-- **The unambiguous grammar with its trees**: products bind tighter than sums, both group to the left, and
parentheses leave no node. Every node stands at its own token. -/
inductive Denotes : Tier → List Token → RawNode → Prop where
  | number {t : Token} : t.type = .number → Denotes .factor [t] (.number t.location t.value)
  | call {n l r : Token} : n.type = .identifier → l.type = .leftParen → r.type = .rightParen →
      Denotes .factor [n, l, r] (.call n.location n.value)
  | group {l r : Token} {ts : List Token} {v : RawNode} : l.type = .leftParen → Denotes .sum ts v →
      r.type = .rightParen → Denotes .factor (l :: (ts ++ [r])) v
  | product {ts : List Token} {v : RawNode} : Denotes .factor ts v → Denotes .product ts v
  | sum {ts : List Token} {v : RawNode} : Denotes .product ts v → Denotes .sum ts v
  | multiplicative {o : Token} {op : Operator} {ts us : List Token} {v w : RawNode} : Denotes .product ts v →
      o.type = .operator op → op = .multiply ∨ op = .divide → Denotes .factor us w →
      Denotes .product (ts ++ o :: us) (.binary o.location (some op) v w)
  | additive {o : Token} {op : Operator} {ts us : List Token} {v w : RawNode} : Denotes .sum ts v →
      o.type = .operator op → op = .add ∨ op = .subtract → Denotes .product us w →
      Denotes .sum (ts ++ o :: us) (.binary o.location (some op) v w)

/-- What tokens denote is an expression. -/
theorem Denotes.isExpression {k : Tier} {ts : List Token} {v : RawNode} (h : Denotes k ts v) : v.IsExpression := by
  induction h with
  | number => exact .number _ _
  | call => exact .call _ _
  | group _ _ _ ih => exact ih
  | product _ ih => exact ih
  | sum _ ih => exact ih
  | multiplicative _ _ _ _ ihv ihw => exact .binary _ _ ihv ihw
  | additive _ _ _ _ ihv ihw => exact .binary _ _ ihv ihw

theorem multiplicative_or_additive (op : Operator) :
    (op = .multiply ∨ op = .divide) ∨ op = .add ∨ op = .subtract := by
  cases op <;> simp

/-- What a list of the flat grammar denotes: an operand is a factor. An expression is a sum, also behind any front
part `ps` that awaits a product and any part `qs` after it that awaits a factor. -/
def Denotable : Phrase → List Token → Prop
  | .operand, ts => ∃ v, Denotes .factor ts v
  | .expression, ts => ∀ ps qs, (∀ us w, Denotes .product us w → ∃ v, Denotes .sum (ps ++ us) v) →
      (∀ us w, Denotes .factor us w → ∃ v, Denotes .product (qs ++ us) v) → ∃ v, Denotes .sum (ps ++ (qs ++ ts)) v

/-- The flat grammar groups to the right, the trees group to the left: hence the front parts of `Denotable`, which an
operator extends by the operand before it. -/
theorem Derives.denotable {k : Phrase} {ts : List Token} (h : Derives k ts) : Denotable k ts := by
  induction h with
  | number h => exact ⟨_, .number h⟩
  | call hn hl hr => exact ⟨_, .call hn hl hr⟩
  | group hl _ hr ih =>
    obtain ⟨v, hv⟩ := ih [] [] (fun us w h => ⟨w, .sum h⟩) (fun us w h => ⟨w, .product h⟩)
    exact ⟨v, .group hl hv hr⟩
  | single _ ih =>
    intro ps qs hp hq
    obtain ⟨w, hw⟩ := ih
    obtain ⟨v, hv⟩ := hq _ w hw
    exact hp _ v hv
  | @chain o op ts us _ ho _ iht ihu =>
    intro ps qs hp hq
    obtain ⟨w, hw⟩ := iht
    obtain ⟨v, hv⟩ := hq _ w hw
    -- `v` is the product so far: the operator goes on with it, or ends it and goes on with the sum
    rcases multiplicative_or_additive op with hop | hop
    · have h := ihu ps (qs ++ (ts ++ [o])) hp fun us' w' hw' => ⟨_, by
        simpa using Denotes.multiplicative hv ho hop hw'⟩
      simpa using h
    · obtain ⟨s, hs⟩ := hp _ v hv
      have h := ihu (ps ++ (qs ++ (ts ++ [o]))) [] (fun us' w' hw' => ⟨_, by
        simpa using Denotes.additive hs ho hop hw'⟩) fun us' w' hw' => ⟨w', .product hw'⟩
      simpa using h

/-- **Every flat expression denotes a tree.** -/
theorem Derives.exists_denotes {ts : List Token} (h : Derives .expression ts) : ∃ v, Denotes .sum ts v := by
  simpa using h.denotable [] [] (fun us w h => ⟨w, .sum h⟩) (fun us w h => ⟨w, .product h⟩)

/-! ## Programs -/

/-- The tokens from a type keyword to the opening brace of a function, and the header they make. -/
inductive IsFront : List Token → Header → Prop where
  | intro {t n l r b : Token} {type : DataType} : t.type.isTypeName = true → t.value = .text type.keyword →
      n.type = .identifier → l.type = .leftParen → r.type = .rightParen → b.type = .leftBrace →
      IsFront [t, n, l, r, b] ⟨t.location, type, n.value⟩

/-- A statement is `return`, an expression or nothing, and a semicolon. -/
inductive IsStatementText : List Token → Prop where
  | nothing {r e : Token} : r.type = .returnWord → e.type = .semicolon → IsStatementText [r, e]
  | value {r e : Token} {ts : List Token} : r.type = .returnWord → Derives .expression ts → e.type = .semicolon →
      IsStatementText (r :: (ts ++ [e]))

/-- A function is a front, statements and a closing brace. -/
inductive IsFunctionText : List Token → Prop where
  | intro {front : List Token} {h : Header} {tss : List (List Token)} {e : Token} : IsFront front h →
      (∀ ts ∈ tss, IsStatementText ts) → e.type = .rightBrace → IsFunctionText (front ++ (tss.flatten ++ [e]))

/-- A program is functions. -/
inductive IsProgramText : List Token → Prop where
  | intro {tss : List (List Token)} : (∀ ts ∈ tss, IsFunctionText ts) → IsProgramText tss.flatten

/-- A program of one function that returns a value, over the tokens `ts` of the value. -/
def returning (ts : List Token) : List Token :=
  [⟨.typeName .int, .text "int", ⟨"t.c", 1, 1⟩⟩, ⟨.identifier, .text "f", ⟨"t.c", 1, 5⟩⟩,
    ⟨.leftParen, .text "(", ⟨"t.c", 1, 6⟩⟩, ⟨.rightParen, .text ")", ⟨"t.c", 1, 7⟩⟩,
    ⟨.leftBrace, .text "\x7b", ⟨"t.c", 1, 9⟩⟩, ⟨.returnWord, .text "return", ⟨"t.c", 1, 11⟩⟩] ++ ts ++
    [⟨.semicolon, .text ";", ⟨"t.c", 3, 1⟩⟩, ⟨.rightBrace, .text "\x7d", ⟨"t.c", 3, 3⟩⟩]

theorem isProgramText_returning {ts : List Token} (h : Derives .expression ts) : IsProgramText (returning ts) := by
  have hs : IsStatementText (⟨.returnWord, .text "return", ⟨"t.c", 1, 11⟩⟩ ::
      (ts ++ [⟨.semicolon, .text ";", ⟨"t.c", 3, 1⟩⟩])) := .value rfl h rfl
  have hf : IsFront ((returning ts).take 5) ⟨⟨"t.c", 1, 1⟩, .int, .text "f"⟩ := .intro rfl rfl rfl rfl rfl rfl
  have hp := IsProgramText.intro (List.forall_mem_singleton.2 (IsFunctionText.intro
    (e := ⟨.rightBrace, .text "\x7d", ⟨"t.c", 3, 3⟩⟩) hf (List.forall_mem_singleton.2 hs) rfl))
  simpa [returning] using hp

/-! ## Programs with their trees -/

section Makes

variable (V : List Token → RawNode → Prop)

/-- A statement over its tokens; `V` tells which tokens stand for which value. -/
inductive MakesStatement : List Token → RawNode → Prop where
  | intro {r e : Token} {ts : List Token} {v : RawNode} : r.type = .returnWord → V ts v → e.type = .semicolon →
      MakesStatement (r :: (ts ++ [e])) (.ret r.location v)

/-- A function over its tokens. -/
inductive MakesFunction : List Token → RawNode → Prop where
  | intro {front : List Token} {h : Header} {tss : List (List Token)} {body : List RawNode} {e : Token} :
      IsFront front h → List.Forall₂ (MakesStatement V) tss body → e.type = .rightBrace →
      MakesFunction (front ++ (tss.flatten ++ [e])) (.function h.loc h.name h.type body)

/-- A program over its tokens; it stands at the start of its file. -/
inductive Makes (file : String) : List Token → RawNode → Prop where
  | intro {tss : List (List Token)} {fs : List RawNode} : List.Forall₂ (MakesFunction V) tss fs →
      Makes file tss.flatten (.program ⟨file, 1, 1⟩ fs)

end Makes

section Mono

variable {V W : List Token → RawNode → Prop}

theorem MakesStatement.mono (h : ∀ ts v, V ts v → W ts v) {ts : List Token} {n : RawNode}
    (hm : MakesStatement V ts n) : MakesStatement W ts n := by
  obtain ⟨hr, hv, he⟩ := hm
  exact .intro hr (h _ _ hv) he

theorem MakesFunction.mono (h : ∀ ts v, V ts v → W ts v) {ts : List Token} {n : RawNode}
    (hm : MakesFunction V ts n) : MakesFunction W ts n := by
  obtain ⟨hf, hb, he⟩ := hm
  exact .intro hf (hb.imp fun _ _ => MakesStatement.mono h) he

theorem Makes.mono (h : ∀ ts v, V ts v → W ts v) {file : String} {ts : List Token} {n : RawNode}
    (hm : Makes V file ts n) : Makes W file ts n := by
  obtain ⟨hf⟩ := hm
  exact .intro (hf.imp fun _ _ => MakesFunction.mono h)

end Mono

/-- The value that the grammar gives the tokens between a `return` and its semicolon. -/
def IsValue (ts : List Token) (v : RawNode) : Prop := ts = [] ∧ v = .absent ∨ Denotes .sum ts v

/-- Choosing a partner for every item of a list. -/
theorem exists_forall₂ {α β : Type} {R : α → β → Prop} : ∀ {as : List α}, (∀ a ∈ as, ∃ b, R a b) →
    ∃ bs, List.Forall₂ R as bs
  | [], _ => ⟨[], .nil⟩
  | a :: as, h => by
    obtain ⟨b, hb⟩ := h a List.mem_cons_self
    obtain ⟨bs, hbs⟩ := exists_forall₂ fun a ha => h a (List.mem_cons_of_mem _ ha)
    exact ⟨b :: bs, .cons hb hbs⟩

theorem IsStatementText.exists_makes {ts : List Token} (h : IsStatementText ts) : ∃ n, MakesStatement IsValue ts n := by
  cases h with
  | nothing hr he =>
    have hv : IsValue [] .absent := .inl ⟨rfl, rfl⟩
    exact ⟨_, .intro hr hv he⟩
  | value hr hts he =>
    obtain ⟨v, hv⟩ := hts.exists_denotes
    exact ⟨_, .intro hr (.inr hv) he⟩

theorem IsFunctionText.exists_makes {ts : List Token} (h : IsFunctionText ts) : ∃ n, MakesFunction IsValue ts n := by
  obtain ⟨hf, hs, he⟩ := h
  obtain ⟨body, hb⟩ := exists_forall₂ fun ts ht => (hs ts ht).exists_makes
  exact ⟨_, .intro hf hb he⟩

/-- **Every program text makes a program.** -/
theorem IsProgramText.exists_makes {ts : List Token} (h : IsProgramText ts) (file : String) :
    ∃ n, Makes IsValue file ts n := by
  obtain ⟨hf⟩ := h
  obtain ⟨fs, hfs⟩ := exists_forall₂ fun ts ht => (hf ts ht).exists_makes
  exact ⟨_, .intro hfs⟩

end TinyArm.Grammar
