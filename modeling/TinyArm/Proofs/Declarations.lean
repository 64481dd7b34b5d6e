import TinyArm.Outcome
import TinyArm.Proofs.Atoms
import TinyArm.Proofs.Scopes
import TinyArm.Proofs.TypeRules

/-!
# What analysis leaves declared

Functions are taken in order, and the first that fails ends the analysis: those behind it do not matter. What the table
holds then tells how it failed. A function is declared before its body is checked, so one whose body fails is the last
that is declared; a second definition is not declared at all, and the first one stands.

* `checkFunctions_append`: functions behind others are checked from the table that these leave.
* `isDuplicate_of_checkBody`: a body is never at fault for a second definition.
* `Settles`: how functions are settled; a rejection stands whatever comes behind (`Settles.append`).
* `settles_concat`, `settles_checkFunctions`: one function more, and **all functions**.
* `analyze_one_by_one`: the same of programs.
-/

namespace TinyArm

variable {κ : Type} {table : SymbolTable} {f : Failure}

/-! ## Functions in order -/

/-- **Functions behind others** are checked from the table that these leave, unless they failed. -/
theorem checkFunctions_append (table : SymbolTable) (p q : List (Node String κ)) : checkFunctions table (p ++ q) =
    Outcome.andThen (checkFunctions table p) fun t => checkFunctions t q := by
  induction p generalizing table with
  | nil => rfl
  | cons g rest ih =>
    rw [List.cons_append, checkFunctions, checkFunctions]
    split
    · exact ih _
    · rfl

theorem checkFunctions_singleton (table : SymbolTable) (g : Node String κ) :
    checkFunctions table [g] = checkFunction table g := by
  rw [checkFunctions]
  split
  · next h => rw [h]; rfl
  · next h => exact h.symm

/-! ## Bodies -/

/-- Whether a failure reports a second definition. -/
def Failure.isDuplicate : Failure → Bool
  | diagnostic ⟨.duplicate _, _, _⟩ => true
  | _ => false

theorem isDuplicate_of_typeOf {e : Node String κ} (h : typeOf table e = .error f) : f.isDuplicate = false := by
  obtain ⟨_, n, _, -, -, hn⟩ := firstFails_of_typeOf h
  cases hn <;> rfl

theorem isDuplicate_of_checkStatement {type : DataType} {s : Node String κ}
    (h : checkStatement table type s = .error f) : f.isDuplicate = false := by
  unfold checkStatement at h
  split at h
  · split at h
    · next hv => cases h; exact isDuplicate_of_typeOf hv
    · split at h
      · cases h
      · cases h; rfl
  · cases h; rfl
  · cases h; rfl

/-- A body is never at fault for a second definition. -/
theorem isDuplicate_of_checkBody {type : DataType} {body : List (Node String κ)}
    (h : checkBody table type body = .error f) : f.isDuplicate = false := by
  induction body with
  | nil => cases h
  | cons s rest ih =>
    rw [checkBody] at h
    split at h
    · exact ih h
    · next hs => cases h; exact isDuplicate_of_checkStatement hs

/-! ## The table -/

/-- **How functions are settled**, with the table that is left. Its names are all different, and they are those of

* all functions, if they are accepted;
* the functions up to and including the first whose body fails;
* the functions before the first that has the name of one of them;
* the functions before the first node that is no function. -/
inductive Settles (fs : List (Node String κ)) : Outcome SymbolTable → Prop where
  | accepted : ((signatures fs).map Prod.fst).Nodup → Settles fs (.declaring (signatures fs), .ok ())
  | body {before after body : List (Node String κ)} {loc : Location} {name : String} {type : DataType} {f : Failure} :
      fs = before ++ .function loc name type body :: after → (checkFunctions .empty before).2 = .ok () →
      ((signatures (before ++ [.function loc name type body])).map Prod.fst).Nodup →
      checkBody (SymbolTable.declaring (signatures (before ++ [.function loc name type body]))).enter type body =
        .error f →
      f.isDuplicate = false →
      Settles fs (.declaring (signatures (before ++ [.function loc name type body])), .error f)
  | duplicate {before after body : List (Node String κ)} {loc : Location} {name : String} {type : DataType} :
      fs = before ++ .function loc name type body :: after → (checkFunctions .empty before).2 = .ok () →
      ((signatures before).map Prod.fst).Nodup → name ∈ (signatures before).map Prod.fst →
      Settles fs (.declaring (signatures before), .error (.report (.duplicate name) loc))
  | foreign {before after : List (Node String κ)} {n : Node String κ} :
      fs = before ++ n :: after → (checkFunctions .empty before).2 = .ok () →
      ((signatures before).map Prod.fst).Nodup → n.signature? = none →
      Settles fs (.declaring (signatures before), .error (.lacks n.kindName "name"))

/-- A rejection stands whatever comes behind. -/
theorem Settles.append {fs : List (Node String κ)} (h : Settles fs (table, .error f)) (q : List (Node String κ)) :
    Settles (fs ++ q) (table, .error f) := by
  have hq : ∀ {before after : List (Node String κ)} {n : Node String κ}, fs = before ++ n :: after →
      fs ++ q = before ++ n :: (after ++ q) := by
    rintro before after n rfl
    rw [List.append_assoc, List.cons_append]
  cases h with
  | body hfs hb hd hc hf => exact .body (hq hfs) hb hd hc hf
  | duplicate hfs hb hd hn => exact .duplicate (hq hfs) hb hd hn
  | foreign hfs hb hd hn => exact .foreign (hq hfs) hb hd hn

/-- **One function more**: after accepted functions, which are declared, the next one decides. -/
theorem settles_concat {before : List (Node String κ)} (hb : (checkFunctions .empty before).2 = .ok ())
    (hd : ((signatures before).map Prod.fst).Nodup) (g : Node String κ) :
    Settles (before ++ [g]) (checkFunction (.declaring (signatures before)) g) := by
  cases g with
  | function loc name type body =>
    rw [checkFunction_declaring hd]
    by_cases hn : name ∈ (signatures before).map Prod.fst
    · rw [if_pos hn]
      exact .duplicate rfl hb hd hn
    · have hs := signatures_concat before loc name type body
      have hd' : ((signatures (before ++ [.function loc name type body])).map Prod.fst).Nodup := by
        rw [hs]
        exact (nodup_concat_iff hd).2 hn
      rw [if_neg hn, ← hs]
      cases hc : checkBody (SymbolTable.declaring (signatures (before ++ [.function loc name type body]))).enter type
          body with
      | error f => exact .body rfl hb hd' hc (isDuplicate_of_checkBody hc)
      | ok => exact .accepted hd'
  | _ => exact .foreign rfl hb hd rfl

/-- **All functions are settled.** -/
theorem settles_checkFunctions (fs : List (Node String κ)) : Settles fs (checkFunctions .empty fs) := by
  -- The induction adds functions at the end: a rejection of those before stands, and otherwise they are declared.
  induction fs using List.reverseRecOn with
  | nil => exact .accepted List.nodup_nil
  | append_singleton before g ih =>
    rw [checkFunctions_append]
    rcases hb : checkFunctions .empty before with ⟨table, f | ⟨⟩⟩
    · rw [hb] at ih
      exact ih.append [g]
    · rw [hb] at ih
      cases ih with
      | accepted hd =>
        show Settles _ (checkFunctions _ [g])
        rw [checkFunctions_singleton]
        exact settles_concat (by rw [hb]) hd g

/-! ## Programs -/

/-- **Analysis goes function by function.** Functions behind a rejected program change neither the failure nor the
table, and what comes first in an accepted program is accepted; after any program the table has only the global scope,
and holds what `Settles` tells. -/
theorem analyze_one_by_one (loc loc' : Location) (p q : List (Node String κ)) :
    (∀ f, (analyze (.program loc p)).2 = .error f → analyze (.program loc' (p ++ q)) = analyze (.program loc p)) ∧
      ((analyze (.program loc' (p ++ q))).2 = .ok () → (analyze (.program loc p)).2 = .ok ()) ∧
      (analyze (.program loc p)).1.depth = 1 ∧ Settles p (analyze (.program loc p)) := by
  have happ : analyze (.program loc' (p ++ q)) = Outcome.andThen (analyze (.program loc p)) fun t =>
      checkFunctions t q := checkFunctions_append .empty p q
  have hstop : ∀ f, (analyze (.program loc p)).2 = .error f →
      analyze (.program loc' (p ++ q)) = analyze (.program loc p) := by
    intro f hf
    rw [happ, Outcome.andThen_of_error hf]
  refine ⟨hstop, fun hq => ?_, SymbolTable.depth_analyze _, settles_checkFunctions p⟩
  cases hp : (analyze (.program loc p)).2 with
  | ok => rfl
  | error f => rw [hstop f hp, hp] at hq; cases hq

end TinyArm
