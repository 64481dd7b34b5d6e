import Mathlib.Data.List.Nodup
import TinyArm.Typing

/-!
# The rules of typing

`HasType` is the typing judgement of expressions over a list of declared names, `WellTyped` that of functions. Analysis
decides them: after some functions the table holds just what they declare (`SymbolTable.declaring`), so that looking a
name up is finding it in the list (`declares_declaring`).

* `typeOf_eq_ok_iff`: the type that is found is the one that the judgement gives.
* `checkFunction_declaring`: a function is declared, and its body is checked with itself among the declared names.
* `checkFunctions_declaring_eq_ok_iff`: **functions are accepted after others** exactly if no name comes twice and each
  is well typed over the names up to its own.
* `analyze_eq_ok_iff`: the same of a whole program.
-/

namespace TinyArm

variable {κ : Type}

/-! ## The judgement -/

/-- A name with its declared type. -/
abbrev Signature := String × DataType

/-- What a function declares. -/
def Node.signature? : Node String κ → Option Signature
  | .function _ name type _ => some (name, type)
  | _ => none

/-- What functions declare, in order. -/
def signatures (fs : List (Node String κ)) : List Signature := fs.filterMap Node.signature?

theorem signatures_append (fs gs : List (Node String κ)) : signatures (fs ++ gs) = signatures fs ++ signatures gs :=
  List.filterMap_append

theorem signatures_concat (before : List (Node String κ)) (loc : Location) (name : String) (type : DataType)
    (body : List (Node String κ)) :
    signatures (before ++ [.function loc name type body]) = signatures before ++ [(name, type)] :=
  signatures_append before _

/-- **The typing judgement**: an operation has the type of both of its operands, whatever that is. -/
inductive HasType (declared : List Signature) : Node String κ → DataType → Prop where
  | number (loc value) : HasType declared (.number loc value) .int
  | absent : HasType declared .absent .void
  | call (loc) {name : String} {t : DataType} : (name, t) ∈ declared → HasType declared (.call loc name) t
  | binary (loc op) {left right : Node String κ} {t : DataType} : HasType declared left t → HasType declared right t →
      HasType declared (.binary loc op left right) t

/-- A `return` of a value of type `t`. -/
inductive ReturnsType (declared : List Signature) (t : DataType) : Node String κ → Prop where
  | intro (loc) {value : Node String κ} : HasType declared value t → ReturnsType declared t (.ret loc value)

/-- A function all of whose statements return its type. -/
inductive WellTyped (declared : List Signature) : Node String κ → Prop where
  | intro (loc name) {type : DataType} {body : List (Node String κ)} : (∀ s ∈ body, ReturnsType declared type s) →
      WellTyped declared (.function loc name type body)

/-! ## The table -/

/-- A table in which exactly the declared names are found, with their types. -/
def Declares (table : SymbolTable) (declared : List Signature) : Prop :=
  ∀ name t, (table.lookup name).map Symbol.type = some t ↔ (name, t) ∈ declared

/-- The table that holds just the declared names. -/
def SymbolTable.declaring (declared : List Signature) : SymbolTable :=
  ⟨declared.map fun d => (d.1, ⟨.function, d.2⟩), []⟩

theorem find?_declaring {declared : List Signature} (h : (declared.map Prod.fst).Nodup) (name : String)
    (s : Symbol) : Bindings.find? name (SymbolTable.declaring declared).top = some s ↔
      s.kind = .function ∧ (name, s.type) ∈ declared := by
  obtain ⟨kind, type⟩ := s
  induction declared with
  | nil => simp [SymbolTable.declaring, Bindings.find?]
  | cons d ds ih =>
    rw [List.map_cons, List.nodup_cons] at h
    have ih := ih h.2
    simp only [SymbolTable.declaring] at ih
    simp only [SymbolTable.declaring, List.map_cons, Bindings.find?, List.mem_cons]
    by_cases hd : d.1 = name
    · -- no later binding has this name
      have hn : ∀ t, (name, t) ∉ ds := fun t ht => h.1 (hd ▸ List.mem_map_of_mem (f := Prod.fst) ht)
      rw [if_pos hd]
      simp only [Option.some.injEq, Symbol.mk.injEq, Prod.ext_iff, hn, or_false, hd, true_and]
      rw [eq_comm (a := SymbolKind.function), eq_comm (a := d.2)]
    · have hne : (name, type) ≠ d := fun e => hd (congrArg Prod.fst e).symm
      rw [if_neg hd, ih]
      simp only [hne, false_or]

/-- A new scope on top of the table does not matter. -/
theorem declares_declaring {declared : List Signature} (h : (declared.map Prod.fst).Nodup) :
    Declares (SymbolTable.declaring declared).enter declared := by
  intro name t
  have hl : (SymbolTable.declaring declared).enter.lookup name =
      Bindings.find? name (SymbolTable.declaring declared).top := by
    rw [SymbolTable.lookup_enter]
    simp only [SymbolTable.lookup, SymbolTable.scopes, SymbolTable.declaring, List.findSome?_cons, List.findSome?_nil]
    split <;> simp_all
  rw [hl, Option.map_eq_some_iff]
  constructor
  · rintro ⟨s, hs, rfl⟩
    exact ((find?_declaring h name s).1 hs).2
  · intro ht
    exact ⟨⟨.function, t⟩, (find?_declaring h name _).2 ⟨rfl, ht⟩, rfl⟩

theorem isSome_lookupLocal_declaring {declared : List Signature} (h : (declared.map Prod.fst).Nodup) (name : String) :
    ((SymbolTable.declaring declared).lookupLocal name).isSome = true ↔ name ∈ declared.map Prod.fst := by
  rw [Option.isSome_iff_exists, List.mem_map]
  constructor
  · rintro ⟨s, hs⟩
    exact ⟨_, ((find?_declaring h name s).1 hs).2, rfl⟩
  · rintro ⟨⟨n, t⟩, ht, rfl⟩
    exact ⟨⟨.function, t⟩, (find?_declaring h n _).2 ⟨rfl, ht⟩⟩

/-- A new name comes last. -/
theorem insert_declaring {declared : List Signature} {name : String} (h : name ∉ declared.map Prod.fst)
    (type : DataType) : (SymbolTable.declaring declared).insert name ⟨.function, type⟩ =
      SymbolTable.declaring (declared ++ [(name, type)]) := by
  have hp : ∀ ds : List Signature, name ∉ ds.map Prod.fst →
      Bindings.put name ⟨.function, type⟩ (ds.map fun d => (d.1, (⟨.function, d.2⟩ : Symbol))) =
        (ds ++ [(name, type)]).map fun d => (d.1, (⟨.function, d.2⟩ : Symbol)) := by
    intro ds hd
    induction ds with
    | nil => rfl
    | cons d ds ih =>
      rw [List.map_cons, List.mem_cons, not_or] at hd
      rw [List.map_cons, Bindings.put, if_neg (Ne.symm hd.1), ih hd.2, List.cons_append, List.map_cons]
  rw [SymbolTable.insert, SymbolTable.declaring, hp declared h]
  rfl

/-! ## Expressions and statements -/

/-- **The type that is found is the one that the judgement gives.** -/
theorem typeOf_eq_ok_iff {table : SymbolTable} {declared : List Signature} (h : Declares table declared)
    {e : Node String κ} {t : DataType} : typeOf table e = .ok t ↔ HasType declared e t := by
  constructor
  · intro he
    fun_induction typeOf table e generalizing t with
    | case1 => cases he; exact .absent
    | case2 => cases he; exact .number _ _
    | case3 loc name s hs =>
      cases he
      exact .call loc ((h name s.type).1 (by rw [hs]; rfl))
    | case4 => cases he
    | case5 => cases he
    | case6 => cases he
    | case7 loc op left right l hr hl ihl ihr =>
      cases he
      exact .binary loc op (ihl hl) (ihr hr)
    | case8 => cases he
    | case9 => cases he
  · intro he
    induction he with
    | number => rfl
    | absent => rfl
    | @call loc name t hm =>
      obtain ⟨s, hs, rfl⟩ := Option.map_eq_some_iff.1 ((h name t).2 hm)
      rw [typeOf, hs]
    | binary loc op _ _ ihl ihr => simp only [typeOf, ihl, ihr, if_true]

theorem checkStatement_eq_ok_iff {table : SymbolTable} {declared : List Signature} (h : Declares table declared)
    {type : DataType} {s : Node String κ} : checkStatement table type s = .ok () ↔ ReturnsType declared type s := by
  constructor
  · intro hs
    unfold checkStatement at hs
    split at hs
    · next loc value =>
      split at hs
      · cases hs
      · next found hf =>
        split at hs
        · next e => exact .intro loc ((typeOf_eq_ok_iff h).1 (e ▸ hf))
        · cases hs
    · cases hs
    · cases hs
  · rintro ⟨loc, hv⟩
    simp only [checkStatement, (typeOf_eq_ok_iff h).2 hv, if_true]

theorem checkBody_eq_ok_iff {table : SymbolTable} {declared : List Signature} (h : Declares table declared)
    {type : DataType} {body : List (Node String κ)} :
    checkBody table type body = .ok () ↔ ∀ s ∈ body, ReturnsType declared type s := by
  induction body with
  | nil => simp [checkBody]
  | cons s rest ih =>
    rw [List.forall_mem_cons, ← checkStatement_eq_ok_iff h, ← ih, checkBody]
    split
    · next hs => simp [hs]
    · next e hs => simp [hs]

/-! ## Functions -/

theorem nodup_concat_iff {declared : List Signature} (h : (declared.map Prod.fst).Nodup) {name : String}
    {type : DataType} : ((declared ++ [(name, type)]).map Prod.fst).Nodup ↔ name ∉ declared.map Prod.fst := by
  rw [List.map_append, List.nodup_append]
  constructor
  · exact fun hd hn => hd.2.2 name hn name (List.mem_singleton.2 rfl) rfl
  · refine fun hn => ⟨h, List.nodup_singleton _, fun a ha b hb e => ?_⟩
    obtain rfl := List.mem_singleton.1 hb
    exact hn (e ▸ ha)

/-- **A function is declared before its body is checked**; a name that is declared already is refused. -/
theorem checkFunction_declaring {declared : List Signature} (h : (declared.map Prod.fst).Nodup) (loc : Location)
    (name : String) (type : DataType) (body : List (Node String κ)) :
    checkFunction (.declaring declared) (.function loc name type body) =
      if name ∈ declared.map Prod.fst then (.declaring declared, .error (.report (.duplicate name) loc))
      else (.declaring (declared ++ [(name, type)]),
        checkBody (SymbolTable.declaring (declared ++ [(name, type)])).enter type body) := by
  have hs := isSome_lookupLocal_declaring h name
  by_cases hn : name ∈ declared.map Prod.fst
  · rw [checkFunction, if_pos (hs.2 hn), if_pos hn]
  · rw [checkFunction, if_neg (mt hs.1 hn), if_neg hn, insert_declaring hn]
    rfl

theorem checkFunction_declaring_snd_eq_ok_iff {declared : List Signature} (h : (declared.map Prod.fst).Nodup)
    {f : Node String κ} : (checkFunction (.declaring declared) f).2 = .ok () ↔
      ((declared ++ signatures [f]).map Prod.fst).Nodup ∧ WellTyped (declared ++ signatures [f]) f := by
  cases f with
  | function loc name type body =>
    have hsig : signatures [Node.function loc name type body] = [(name, type)] := rfl
    rw [checkFunction_declaring h, hsig]
    by_cases hn : name ∈ declared.map Prod.fst
    · rw [if_pos hn]
      exact ⟨nofun, fun hd => absurd hn ((nodup_concat_iff h).1 hd.1)⟩
    · have hd : ((declared ++ [(name, type)]).map Prod.fst).Nodup := (nodup_concat_iff h).2 hn
      rw [if_neg hn, checkBody_eq_ok_iff (declares_declaring hd)]
      constructor
      · exact fun hb => ⟨hd, .intro loc name hb⟩
      · rintro ⟨-, hw⟩
        cases hw with
        | intro _ _ hb => exact hb
  | _ =>
    simp only [checkFunction, reduceCtorEq, false_iff, not_and]
    intro _ hw
    cases hw

/-- An accepted function leaves the table with its name added. -/
theorem checkFunction_declaring_fst {declared : List Signature} (h : (declared.map Prod.fst).Nodup)
    {f : Node String κ} (hf : (checkFunction (.declaring declared) f).2 = .ok ()) :
    (checkFunction (.declaring declared) f).1 = .declaring (declared ++ signatures [f]) := by
  cases f with
  | function loc name type body =>
    rw [checkFunction_declaring h] at hf ⊢
    split at hf
    · cases hf
    · next hn => rw [if_neg hn]; rfl
  | _ => cases hf

theorem checkFunctions_cons_snd_eq_ok_iff {table : SymbolTable} {f : Node String κ} {fs : List (Node String κ)} :
    (checkFunctions table (f :: fs)).2 = .ok () ↔
      (checkFunction table f).2 = .ok () ∧ (checkFunctions (checkFunction table f).1 fs).2 = .ok () := by
  rw [checkFunctions]
  split
  · next t hc => simp [hc]
  · next t e hc => simp [hc]

/-- **Central invariant**: functions are accepted after others that declare `declared` exactly if no name comes twice
and each is well typed over the names up to its own. -/
theorem checkFunctions_declaring_eq_ok_iff {fs : List (Node String κ)} {declared : List Signature}
    (h : (declared.map Prod.fst).Nodup) : (checkFunctions (.declaring declared) fs).2 = .ok () ↔
      ((declared ++ signatures fs).map Prod.fst).Nodup ∧
      ∀ i f, fs[i]? = some f → WellTyped (declared ++ signatures (fs.take (i + 1))) f := by
  induction fs generalizing declared with
  | nil => simp [checkFunctions, signatures, h]
  | cons f fs ih =>
    have hsig : ∀ gs : List (Node String κ), declared ++ signatures (f :: gs) = (declared ++ signatures [f]) ++
        signatures gs := by
      intro gs
      rw [List.append_assoc, ← signatures_append, List.singleton_append]
    rw [checkFunctions_cons_snd_eq_ok_iff, hsig fs]
    constructor
    · rintro ⟨hf, hfs⟩
      obtain ⟨hd, hw⟩ := (checkFunction_declaring_snd_eq_ok_iff h).1 hf
      rw [checkFunction_declaring_fst h hf] at hfs
      obtain ⟨hn, hws⟩ := (ih hd).1 hfs
      refine ⟨hn, fun i g hg => ?_⟩
      cases i with
      | zero =>
        obtain rfl : f = g := by simpa using hg
        simpa using hw
      | succ i =>
        rw [List.getElem?_cons_succ] at hg
        rw [List.take_succ_cons, hsig]
        exact hws i g hg
    · rintro ⟨hn, hws⟩
      have hd : ((declared ++ signatures [f]).map Prod.fst).Nodup := by
        rw [List.map_append] at hn
        exact (List.nodup_append.1 hn).1
      have hf : (checkFunction (.declaring declared) f).2 = .ok () := by
        refine (checkFunction_declaring_snd_eq_ok_iff h).2 ⟨hd, ?_⟩
        simpa using hws 0 f rfl
      rw [checkFunction_declaring_fst h hf]
      refine ⟨hf, (ih hd).2 ⟨hn, fun i g hg => ?_⟩⟩
      have hw := hws (i + 1) g (by rwa [List.getElem?_cons_succ])
      rwa [List.take_succ_cons, hsig] at hw

/-- **A program is accepted exactly if no two functions have one name and each is well typed** over the names of the
functions up to itself. -/
theorem analyze_eq_ok_iff (loc : Location) (fs : List (Node String κ)) :
    (analyze (.program loc fs)).2 = .ok () ↔ ((signatures fs).map Prod.fst).Nodup ∧
      ∀ i f, fs[i]? = some f → WellTyped (signatures (fs.take (i + 1))) f := by
  have h : (([] : List Signature).map Prod.fst).Nodup := List.nodup_nil
  exact checkFunctions_declaring_eq_ok_iff h

end TinyArm
