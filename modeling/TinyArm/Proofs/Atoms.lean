import TinyArm.Typing

/-!
# The type of an expression by its atoms

The atoms of an expression are its parts that are no operations. An expression has a type if all of its atoms have this
type, whatever its shape is. Otherwise some part of it fails: a call of a name that is not bound, a node that is no
expression, or an operation whose sides have different types. The first part that fails, the sides of an operation taken
before the operation itself, gives the failure.

* `typeOf_eq_ok_iff_atoms`: an expression has the type of all of its atoms.
* `FailsWith.unique`: a part fails in one way only.
* `firstFails_left`, `firstFails_right`, `firstFails_mismatch`: the sides of an operation come first, then itself.
* `firstFails_of_typeOf`: an expression without a type has a first part that fails.
* `FirstFails.unique`: this part gives one failure.
* `typeOf_iff`: **what the type of an expression is, or how it fails.**
-/

namespace TinyArm

variable {κ : Type}

namespace Node

/-- The parts of an expression that are no operations, from left to right. -/
def atoms : Node String κ → List (Node String κ)
  | binary _ _ left right => left.atoms ++ right.atoms
  | n => [n]

/-- All parts of an expression: the left side of an operation, the right side, and then the operation. -/
def postorder : Node String κ → List (Node String κ)
  | binary loc op left right => left.postorder ++ right.postorder ++ [binary loc op left right]
  | n => [n]

/-- Whether a node is of a kind that has a type. -/
def isTyped : Node String κ → Bool
  | absent | number .. | call .. | binary .. => true
  | _ => false

/-- The type of an atom: a literal is `int`, an absent operand is `void`, and a call has the type of its symbol. -/
def atomType? (table : SymbolTable) : Node String κ → Option DataType
  | number .. => some .int
  | absent => some .void
  | call _ name => (table.lookup name).map Symbol.type
  | _ => none

end Node

open Node

/-- **How a part of an expression fails** by itself, while its sides, if it is an operation, have types. -/
inductive FailsWith (table : SymbolTable) : Node String κ → Failure → Prop where
  | undefined {loc : Location} {name : String} : table.lookup name = none →
      FailsWith table (.call loc name) (.report (.undefined name) loc)
  | unsupported {n : Node String κ} : n.isTyped = false →
      FailsWith table n (.report (.internal (.expression n.kindName)) n.location?)
  | mismatch {loc : Location} {op : Option Operator} {left right : Node String κ} {l r : DataType} :
      (∀ n ∈ left.atoms, n.atomType? table = some l) → (∀ n ∈ right.atoms, n.atomType? table = some r) → l ≠ r →
      FailsWith table (.binary loc op left right) (.report (.mismatch (some l) (some r)) loc)

/-- The failure of the first part of an expression that fails. -/
def FirstFails (table : SymbolTable) (e : Node String κ) (f : Failure) : Prop :=
  ∃ before n after, e.postorder = before ++ n :: after ∧ (∀ m ∈ before, ∀ g, ¬FailsWith table m g) ∧
    FailsWith table n f

variable {table : SymbolTable}

/-! ## Types -/

/-- **An expression has the type of all of its atoms.** -/
theorem typeOf_eq_ok_iff_atoms {e : Node String κ} {t : DataType} :
    typeOf table e = .ok t ↔ ∀ n ∈ e.atoms, n.atomType? table = some t := by
  induction e using Node.induct generalizing t with
  | absent | number => simp [typeOf, atoms, atomType?]
  | call loc name =>
    cases hl : table.lookup name <;> simp [typeOf, atoms, atomType?, hl]
  | binary loc op left right ihl ihr =>
    rw [atoms, List.forall_mem_append, ← ihl, ← ihr, typeOf]
    cases hl : typeOf table left with
    | error f => simp
    | ok l =>
      cases hr : typeOf table right with
      | error f => simp
      | ok r =>
        by_cases h : l = r
        · simp [h]
        · simp only [h, if_false, reduceCtorEq, Except.ok.injEq, false_iff, not_and]
          exact fun hl hr => h (hl.trans hr.symm)
  | program | function | ret | bare => simp [typeOf, atoms, atomType?]

/-! ## Failures -/

theorem FailsWith.typeOf_eq {n : Node String κ} {f : Failure} (h : FailsWith table n f) :
    typeOf table n = .error f := by
  cases h with
  | undefined hn => rw [typeOf, hn]
  | unsupported hn => cases n <;> first | rfl | cases hn
  | mismatch hl hr hne =>
    rw [typeOf, typeOf_eq_ok_iff_atoms.2 hl, typeOf_eq_ok_iff_atoms.2 hr]
    simp only [if_neg hne]

/-- A part fails in one way only. -/
theorem FailsWith.unique {n : Node String κ} {f g : Failure} (hf : FailsWith table n f) (hg : FailsWith table n g) :
    f = g :=
  Except.error.inj (hf.typeOf_eq.symm.trans hg.typeOf_eq)

/-- An expression that has a type has no part that fails. -/
theorem not_failsWith_of_typeOf {e : Node String κ} {t : DataType} (h : typeOf table e = .ok t) :
    ∀ n ∈ e.postorder, ∀ f, ¬FailsWith table n f := by
  have hroot : ∀ {n : Node String κ} {t : DataType}, typeOf table n = .ok t → ∀ f, ¬FailsWith table n f :=
    fun hn f hf => nomatch hn.symm.trans hf.typeOf_eq
  induction e using Node.induct generalizing t with
  | binary loc op left right ihl ihr =>
    have ha := typeOf_eq_ok_iff_atoms.1 h
    rw [atoms, List.forall_mem_append] at ha
    rw [postorder, List.forall_mem_append, List.forall_mem_append, List.forall_mem_singleton]
    exact ⟨⟨ihl (typeOf_eq_ok_iff_atoms.2 ha.1), ihr (typeOf_eq_ok_iff_atoms.2 ha.2)⟩, hroot h⟩
  | _ => exact List.forall_mem_singleton.2 (hroot h)

/-- A part without parts of its own is the first that fails if it fails. -/
theorem FailsWith.firstFails {n : Node String κ} {f : Failure} (h : FailsWith table n f) (hn : n.postorder = [n]) :
    FirstFails table n f :=
  ⟨[], n, [], hn, nofun, h⟩

section Binary

variable {loc : Location} {op : Option Operator} {left right : Node String κ} {f : Failure} {l r : DataType}

/-- The left side of an operation comes first. -/
theorem firstFails_left (h : FirstFails table left f) : FirstFails table (.binary loc op left right) f := by
  obtain ⟨before, n, after, he, hb, hn⟩ := h
  refine ⟨before, n, after ++ (right.postorder ++ [.binary loc op left right]), ?_, hb, hn⟩
  simp only [postorder, he, List.append_assoc, List.cons_append]

/-- The right side of an operation comes next, if the left side has a type. -/
theorem firstFails_right (hl : typeOf table left = .ok l) (h : FirstFails table right f) :
    FirstFails table (.binary loc op left right) f := by
  obtain ⟨before, n, after, he, hb, hn⟩ := h
  refine ⟨left.postorder ++ before, n, after ++ [.binary loc op left right], ?_, ?_, hn⟩
  · simp only [postorder, he, List.append_assoc, List.cons_append]
  · exact List.forall_mem_append.2 ⟨not_failsWith_of_typeOf hl, hb⟩

/-- The operation comes last, if both sides have types. -/
theorem firstFails_mismatch (hl : typeOf table left = .ok l) (hr : typeOf table right = .ok r) (h : l ≠ r) :
    FirstFails table (.binary loc op left right) (.report (.mismatch (some l) (some r)) loc) := by
  refine ⟨left.postorder ++ right.postorder, _, [], rfl, ?_, ?_⟩
  · exact List.forall_mem_append.2 ⟨not_failsWith_of_typeOf hl, not_failsWith_of_typeOf hr⟩
  · exact .mismatch (typeOf_eq_ok_iff_atoms.1 hl) (typeOf_eq_ok_iff_atoms.1 hr) h

end Binary

/-- **An expression without a type has a first part that fails**, and fails as this does. -/
theorem firstFails_of_typeOf {e : Node String κ} {f : Failure} (h : typeOf table e = .error f) :
    FirstFails table e f := by
  induction e using Node.induct with
  | absent | number => cases h
  | call loc name =>
    rw [typeOf] at h
    split at h
    · cases h
    · next hn => cases h; exact (FailsWith.undefined hn).firstFails rfl
  | binary loc op left right ihl ihr =>
    rw [typeOf] at h
    split at h
    · next hl => cases h; exact firstFails_left (ihl hl)
    · next l hl =>
      split at h
      · next hr => cases h; exact firstFails_right hl (ihr hr)
      · next r hr =>
        split at h
        · cases h
        · next hne => cases h; exact firstFails_mismatch hl hr hne
  | program | function | ret | bare =>
    cases h
    exact (FailsWith.unsupported rfl).firstFails rfl

/-- The first part that fails gives one failure. -/
theorem FirstFails.unique {e : Node String κ} {f g : Failure} (hf : FirstFails table e f) (hg : FirstFails table e g) :
    f = g := by
  obtain ⟨before, n, after, he, hb, hn⟩ := hf
  obtain ⟨before', n', after', he', hb', hn'⟩ := hg
  obtain ⟨mid, hmid, hrest⟩ | ⟨mid, hmid, hrest⟩ := List.append_eq_append_iff.1 (he.symm.trans he')
  -- The one split ends in the other one's prefix `before ++ mid`; what fails first there is no part of the prefix.
  · cases mid with
    | nil => cases hrest; exact hn.unique hn'
    | cons m mid =>
      cases hrest
      exact absurd hn (hb' n (by simp [hmid]) f)
  · cases mid with
    | nil => cases hrest; exact hn.unique hn'
    | cons m mid =>
      cases hrest
      exact absurd hn' (hb n' (by simp [hmid]) g)

/-- The first part that fails is what the rules report. -/
theorem FirstFails.typeOf_eq {e : Node String κ} {f : Failure} (h : FirstFails table e f) :
    typeOf table e = .error f := by
  cases ht : typeOf table e with
  | ok t =>
    obtain ⟨before, n, after, he, -, hn⟩ := h
    exact absurd hn (not_failsWith_of_typeOf ht n (by simp [he]) f)
  | error g => rw [(firstFails_of_typeOf ht).unique h]

/-- **What the type of an expression is, or how it fails.** Over every table, an expression has the type of all of its
atoms, and otherwise the first part that fails, an operation taken after its sides, gives the failure. -/
theorem typeOf_iff (table : SymbolTable) (e : Node String κ) :
    (∀ t, typeOf table e = .ok t ↔ ∀ n ∈ e.atoms, n.atomType? table = some t) ∧
      ∀ f, typeOf table e = .error f ↔ FirstFails table e f :=
  ⟨fun _ => typeOf_eq_ok_iff_atoms, fun _ => ⟨firstFails_of_typeOf, FirstFails.typeOf_eq⟩⟩

end TinyArm
