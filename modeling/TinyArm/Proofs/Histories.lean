import Mathlib.Data.List.Basic
import Mathlib.Data.List.Induction
import TinyArm.Symbol.Script

/-!
# Tables and their histories

What a table answers is decided by the steps taken before, without a look at any scope. After `k` steps of a history
the innermost scope is the one of depth `depthAfter`; it is still open at the end if the depth never fell below that
(`StaysOpen`). `insertsInto d` lists the inserts into the open scope of depth `d`, and `Answers` says from these lists
what every step gives.

* `insertsInto_concat`: what one more step does to the inserts of a scope.
* `find?_replay`, `keys_replay`: a scope as the bindings of its inserts.
* `represents_runSteps`: **the scopes of a table** are the bindings of the inserts into its open scopes.
* `exists_answer`: **every step of a script answers as its history says.**
-/

namespace TinyArm.SymbolTable

/-! ## Depths -/

/-- Whether a step acts on the table at once: it neither has steps of its own nor raises. -/
def Step.isPlain : Step → Bool
  | .within _ | .raise _ => false
  | _ => true

/-- Whether a step opens a scope. -/
def Step.isEnter : Step → Bool
  | .enter => true
  | _ => false

/-- Whether an entry is of an exit that succeeded. -/
def Entry.isDoneExit (e : Entry) : Bool := e.word = "exit" && e.result = .nothing

/-- The depth after one more step: the global scope cannot be left. -/
def depthStep (d : Nat) : Step → Nat
  | .enter => d + 1
  | .exit => if d = 1 then 1 else d - 1
  | _ => d

/-- The depth after a history. -/
def depthAfter (h : List Step) : Nat := h.foldl depthStep 1

theorem depthAfter_concat (h : List Step) (s : Step) : depthAfter (h ++ [s]) = depthStep (depthAfter h) s :=
  List.foldl_concat depthStep 1 s h

theorem depthAfter_pos (h : List Step) : 0 < depthAfter h := by
  induction h using List.reverseRecOn with
  | nil => exact Nat.one_pos
  | append_singleton h s ih =>
    rw [depthAfter_concat]
    cases s with
    | exit => simp only [depthStep]; split <;> omega
    | enter => exact Nat.succ_pos _
    | _ => exact ih

/-! ## Inserts into open scopes -/

/-- The scope that is innermost after `k` steps is open at the end. -/
def StaysOpen (h : List Step) (k : Nat) : Prop :=
  ∀ j ∈ List.range (h.length + 1), k ≤ j → depthAfter (h.take k) ≤ depthAfter (h.take j)

instance (h : List Step) (k : Nat) : Decidable (StaysOpen h k) := by
  unfold StaysOpen; infer_instance

/-- The insert that step `k` of a history makes into the scope of depth `d`, if that scope is open at the end. -/
def insertAt? (d : Nat) (h : List Step) (k : Nat) : Option (String × Symbol) :=
  match h[k]? with
  | some (.insert name symbol) => if depthAfter (h.take k) = d ∧ StaysOpen h k then some (name, symbol) else none
  | _ => none

/-- The inserts of a history into its open scope of depth `d`, in order. -/
def insertsInto (d : Nat) (h : List Step) : List (String × Symbol) := (List.range h.length).filterMap (insertAt? d h)

theorem staysOpen_concat {h : List Step} {s : Step} {k : Nat} (hk : k ≤ h.length) :
    StaysOpen (h ++ [s]) k ↔ StaysOpen h k ∧ depthAfter (h.take k) ≤ depthAfter (h ++ [s]) := by
  have ht : ∀ j, j ≤ h.length → (h ++ [s]).take j = h.take j := fun j hj => List.take_append_of_le_length hj
  have hl : (h ++ [s]).take (h.length + 1) = h ++ [s] := List.take_of_length_le (by simp)
  simp only [StaysOpen, List.mem_range, List.length_append, List.length_singleton]
  constructor
  · intro ho
    refine ⟨fun j hj hkj => ?_, ?_⟩
    · rw [← ht k hk, ← ht j (by omega)]
      exact ho j (by omega) hkj
    · have := ho (h.length + 1) (by omega) (by omega)
      rwa [ht k hk, hl] at this
  · rintro ⟨ho, hd⟩ j hj hkj
    rw [ht k hk]
    rcases Nat.lt_or_ge h.length j with hlt | hge
    · obtain rfl : j = h.length + 1 := by omega
      rwa [hl]
    · rw [ht j hge]
      exact ho j (by omega) hkj

/-- An earlier insert stays unless its scope is closed. -/
theorem insertAt?_concat {d : Nat} {h : List Step} {s : Step} {k : Nat} (hk : k < h.length) :
    insertAt? d (h ++ [s]) k = if d ≤ depthAfter (h ++ [s]) then insertAt? d h k else none := by
  simp only [insertAt?, List.getElem?_append_left hk, List.take_append_of_le_length (Nat.le_of_lt hk),
    staysOpen_concat (Nat.le_of_lt hk)]
  split
  · by_cases hd : depthAfter (h.take k) = d
    · subst hd
      by_cases hs : depthAfter (h.take k) ≤ depthAfter (h ++ [s]) <;> simp [hs]
    · simp [hd]
  · simp

/-- The insert that a step makes at the end of a history. -/
theorem insertAt?_length {d : Nat} {h : List Step} {s : Step} : insertAt? d (h ++ [s]) h.length =
    match s with
    | .insert name symbol => if depthAfter h = d then some (name, symbol) else none
    | _ => none := by
  have ho : StaysOpen h h.length := by
    intro j hj hl
    obtain rfl : j = h.length := by have := List.mem_range.1 hj; omega
    exact Nat.le_refl _
  cases s with
  | insert name symbol =>
    have hd : depthAfter h ≤ depthAfter (h ++ [.insert name symbol]) := by
      rw [depthAfter_concat]
      exact Nat.le_refl _
    simp [insertAt?, staysOpen_concat (Nat.le_refl _), ho, hd]
  | _ => simp [insertAt?]

/-- **One more step** closes the scopes that are deeper than the table then is, and an insert goes into the innermost
scope. -/
theorem insertsInto_concat (d : Nat) (h : List Step) (s : Step) : insertsInto d (h ++ [s]) =
    (if d ≤ depthAfter (h ++ [s]) then insertsInto d h else []) ++ (insertAt? d (h ++ [s]) h.length).toList := by
  have hf : (List.range h.length).filterMap (insertAt? d (h ++ [s])) =
      if d ≤ depthAfter (h ++ [s]) then insertsInto d h else [] := by
    rw [List.filterMap_congr fun k hk => insertAt?_concat (List.mem_range.1 hk)]
    split
    · rfl
    · simp
  rw [insertsInto, List.length_append, List.length_singleton, List.range_succ, List.filterMap_append, hf]
  cases hs : insertAt? d (h ++ [s]) h.length <;> simp [hs]

/-- A history has no inserts into scopes that are not open. -/
theorem insertsInto_of_lt {d : Nat} {h : List Step} (hd : depthAfter h < d) : insertsInto d h = [] := by
  induction h using List.reverseRecOn with
  | nil => rfl
  | append_singleton h s _ =>
    rw [insertsInto_concat, if_neg (by omega), insertAt?_length]
    cases s with
    | insert name symbol =>
      rw [depthAfter_concat] at hd
      have hn : depthAfter h ≠ d := Nat.ne_of_lt hd
      simp [hn]
    | _ => rfl

theorem insertsInto_zero (h : List Step) : insertsInto 0 h = [] := by
  induction h using List.reverseRecOn with
  | nil => rfl
  | append_singleton h s ih =>
    have hp := depthAfter_pos h
    rw [insertsInto_concat, ih, insertAt?_length]
    cases s with
    | insert name symbol =>
      have hn : depthAfter h ≠ 0 := Nat.ne_of_gt hp
      simp [hn]
    | _ => simp

/-! ## Scopes as bindings of inserts -/

/-- The bindings that inserts make, one after the other. -/
def replay (xs : List (String × Symbol)) : Scope := xs.foldl (fun b x => Bindings.put x.1 x.2 b) []

/-- The symbol of the latest insert of a name. -/
def latest? (name : String) (xs : List (String × Symbol)) : Option Symbol :=
  (xs.reverse.find? fun x => x.1 = name).map Prod.snd

theorem replay_concat (xs : List (String × Symbol)) (x : String × Symbol) :
    replay (xs ++ [x]) = Bindings.put x.1 x.2 (replay xs) :=
  List.foldl_concat _ [] x xs

/-- A name is bound to the symbol of its latest insert. -/
theorem find?_replay (name : String) (xs : List (String × Symbol)) :
    Bindings.find? name (replay xs) = latest? name xs := by
  induction xs using List.reverseRecOn with
  | nil => rfl
  | append_singleton xs x ih =>
    rw [replay_concat, Bindings.find?_put, ih, latest?, latest?, List.reverse_concat, List.find?_cons]
    by_cases hx : x.1 = name <;> simp [hx]

/-- The names of a scope are those of its inserts, each where it was first inserted. -/
theorem keys_replay (xs : List (String × Symbol)) : Bindings.keys (replay xs) = (xs.map Prod.fst).eraseDups := by
  induction xs using List.reverseRecOn with
  | nil => rfl
  | append_singleton xs x ih =>
    rw [replay_concat, Bindings.keys_put, ih, List.map_append, List.eraseDups_append]
    by_cases hx : x.1 ∈ xs.map Prod.fst
    · simp [List.removeAll, hx]
    · simp [List.removeAll, hx, List.eraseDups_cons]

/-! ## Runs of plain steps -/

theorem raised_runStep {s : Step} (hs : s.isPlain = true) (t : SymbolTable) : (runStep t s).raised = none := by
  cases s with
  | within | raise => cases hs
  | exit => rw [runStep]; split <;> rfl
  | _ => rfl

/-- Each plain step makes one entry. -/
theorem exists_entries_runStep {s : Step} (hs : s.isPlain = true) (t : SymbolTable) :
    ∃ e, (runStep t s).entries = [e] := by
  cases s with
  | within | raise => cases hs
  | exit => rw [runStep]; split <;> exact ⟨_, rfl⟩
  | _ => exact ⟨_, rfl⟩

/-- Plain steps and then others: the entries follow one another. -/
theorem runSteps_append {t : SymbolTable} {h : List Step} (hp : ∀ s ∈ h, s.isPlain = true) (rest : List Step) :
    runSteps t (h ++ rest) =
      ⟨(runSteps (runSteps t h).table rest).table,
        (runSteps t h).entries ++ (runSteps (runSteps t h).table rest).entries,
        (runSteps (runSteps t h).table rest).raised⟩ := by
  induction h generalizing t with
  | nil => rfl
  | cons x h ih =>
    rw [List.forall_mem_cons] at hp
    simp [runSteps, raised_runStep hp.1, ih hp.2]

theorem runSteps_singleton {s : Step} (hs : s.isPlain = true) (t : SymbolTable) :
    runSteps t [s] = ⟨(runStep t s).table, (runStep t s).entries, none⟩ := by
  simp [runSteps, raised_runStep hs]

theorem raised_runSteps {t : SymbolTable} {h : List Step} (hp : ∀ s ∈ h, s.isPlain = true) :
    (runSteps t h).raised = none := by
  induction h generalizing t with
  | nil => rfl
  | cons x rest ih =>
    rw [List.forall_mem_cons] at hp
    simp [runSteps, raised_runStep hp.1, ih hp.2]

/-! ## Leaving a scope -/

theorem exit_of_depth_eq_one {t : SymbolTable} (h : t.depth = 1) :
    t.exit = .error (.report (.internal .globalScope) none) := by
  obtain ⟨top, outer⟩ := t
  have : outer = [] := List.eq_nil_of_length_eq_zero (Nat.succ.inj h)
  rw [exit, this]

theorem exists_exit_of_depth_ne_one {t : SymbolTable} (h : t.depth ≠ 1) :
    ∃ t', t.exit = .ok t' ∧ t.scopes = t.top :: t'.scopes := by
  obtain ⟨top, outer⟩ := t
  cases outer with
  | nil => exact absurd rfl h
  | cons s rest => exact ⟨⟨s, rest⟩, rfl, rfl⟩

/-! ## The scopes of a table -/

/-- The scopes of the depths `n` down to one, as the bindings of the inserts of a history. -/
def scopesUpTo (h : List Step) : Nat → List Scope
  | 0 => []
  | n + 1 => replay (insertsInto (n + 1) h) :: scopesUpTo h n

theorem length_scopesUpTo (h : List Step) (n : Nat) : (scopesUpTo h n).length = n := by
  induction n with
  | zero => rfl
  | succ n ih => rw [scopesUpTo, List.length_cons, ih]

/-- Scopes that no insert goes into are the same after one more step. -/
theorem scopesUpTo_concat {h : List Step} {s : Step} {n : Nat} (hn : n ≤ depthAfter (h ++ [s]))
    (hi : ∀ d ≤ n, insertAt? d (h ++ [s]) h.length = none) : scopesUpTo (h ++ [s]) n = scopesUpTo h n := by
  induction n with
  | zero => rfl
  | succ n ih =>
    rw [scopesUpTo, scopesUpTo, ih (by omega) fun d hd => hi d (by omega), insertsInto_concat, if_pos hn,
      hi _ (Nat.le_refl _)]
    simp

/-- A table has the scopes of a history. -/
def Represents (t : SymbolTable) (h : List Step) : Prop := t.scopes = scopesUpTo h (depthAfter h)

theorem Represents.depth_eq {t : SymbolTable} {h : List Step} (hr : Represents t h) : t.depth = depthAfter h := by
  rw [depth, hr, length_scopesUpTo]

/-- **One step** acts on the scopes as it acts on the history. -/
theorem Represents.step {t : SymbolTable} {h : List Step} (hr : Represents t h) {s : Step} (hs : s.isPlain = true) :
    Represents (runStep t s).table (h ++ [s]) := by
  have hd := hr.depth_eq
  obtain ⟨n, hn⟩ := Nat.exists_eq_succ_of_ne_zero (Nat.ne_of_gt (depthAfter_pos h))
  have he : depthAfter (h ++ [s]) = depthStep (n + 1) s := by rw [depthAfter_concat, hn]
  unfold Represents at hr ⊢
  rw [hn] at hr
  cases s with
  | within | raise => cases hs
  | enter =>
    -- the new scope has no inserts, and the others have those that they had
    have he : depthAfter (h ++ [.enter]) = n + 2 := he
    have hi : insertsInto (n + 2) (h ++ [.enter]) = [] := by
      rw [insertsInto_concat, insertAt?_length, insertsInto_of_lt (by omega)]
      simp
    rw [he, scopesUpTo, hi, scopesUpTo_concat (by omega) fun d _ => insertAt?_length, ← hr]
    rfl
  | exit =>
    have he : depthAfter (h ++ [.exit]) = if n + 1 = 1 then 1 else n := he
    by_cases h1 : n + 1 = 1
    · rw [if_pos h1] at he
      rw [runStep, exit_of_depth_eq_one (hd.trans (hn.trans h1)), he,
        scopesUpTo_concat (by omega) fun d _ => insertAt?_length, ← h1]
      exact hr
    · rw [if_neg h1] at he
      obtain ⟨t', ht, hc⟩ := exists_exit_of_depth_ne_one (t := t) (by omega)
      rw [runStep, ht, he, scopesUpTo_concat (by omega) fun d _ => insertAt?_length]
      rw [scopesUpTo, hc] at hr
      exact (List.cons.inj hr).2
  | insert name symbol =>
    have he : depthAfter (h ++ [.insert name symbol]) = n + 1 := he
    have hi : ∀ d, insertAt? d (h ++ [.insert name symbol]) h.length =
        if depthAfter h = d then some (name, symbol) else none := fun d => insertAt?_length
    have htop : insertsInto (n + 1) (h ++ [.insert name symbol]) = insertsInto (n + 1) h ++ [(name, symbol)] := by
      rw [insertsInto_concat, if_pos (by omega), hi, if_pos hn]
      rfl
    have houter : scopesUpTo (h ++ [.insert name symbol]) n = scopesUpTo h n :=
      scopesUpTo_concat (by omega) fun d hdn => (hi d).trans (if_neg (by omega))
    obtain ⟨rt, ro⟩ := List.cons.inj hr
    rw [he, scopesUpTo, htop, houter, replay_concat, ← rt, ← ro]
    rfl
  | _ =>
    have he : depthAfter (h ++ [_]) = n + 1 := he
    rw [he, scopesUpTo_concat (by omega) fun d _ => insertAt?_length]
    exact hr

/-- **The scopes of a table** are the bindings of the inserts into its open scopes. -/
theorem represents_runSteps {h : List Step} (hp : ∀ s ∈ h, s.isPlain = true) :
    Represents (runSteps .empty h).table h := by
  induction h using List.reverseRecOn with
  | nil => rfl
  | append_singleton h s ih =>
    rw [List.forall_mem_append, List.forall_mem_singleton] at hp
    rw [runSteps_append hp.1, runSteps_singleton hp.2]
    exact (ih hp.1).step hp.2

/-! ## Answers -/

/-- **What a name means** after a history: the symbol of its latest insert into the innermost open scope that has one. -/
inductive Means (h : List Step) (name : String) : Option Symbol → Prop where
  | bound {d : Nat} {s : Symbol} : latest? name (insertsInto d h) = some s →
      (∀ e, d < e → latest? name (insertsInto e h) = none) → Means h name (some s)
  | unbound : (∀ d, latest? name (insertsInto d h) = none) → Means h name none

/-- **What a step gives** after a history, and the depth after it. -/
inductive Answers (h : List Step) : Step → Entry → Prop where
  | enter : Answers h .enter ⟨"enter", .nothing, depthAfter h + 1⟩
  | exit : depthAfter h ≠ 1 → Answers h .exit ⟨"exit", .nothing, depthAfter h - 1⟩
  | exitGlobal : depthAfter h = 1 → Answers h .exit ⟨"exit", .failed (.report (.internal .globalScope) none), 1⟩
  | insert (name : String) (symbol : Symbol) : Answers h (.insert name symbol) ⟨"insert", .nothing, depthAfter h⟩
  | lookup {name : String} {o : Option Symbol} : Means h name o →
      Answers h (.lookup name) ⟨"lookup", .symbol o, depthAfter h⟩
  | lookupLocal (name : String) : Answers h (.lookupLocal name)
      ⟨"lookup_local", .symbol (latest? name (insertsInto (depthAfter h) h)), depthAfter h⟩
  | names : Answers h .names
      ⟨"names", .names ((insertsInto (depthAfter h) h).map Prod.fst).eraseDups, depthAfter h⟩

/-- Looking through the scopes up to a depth beyond which a name has no inserts finds what the name means. -/
theorem means_scopesUpTo {h : List Step} {name : String} {n : Nat}
    (hn : ∀ d, n < d → latest? name (insertsInto d h) = none) :
    Means h name ((scopesUpTo h n).findSome? (Bindings.find? name)) := by
  induction n with
  | zero =>
    refine .unbound fun d => ?_
    rcases Nat.eq_zero_or_pos d with rfl | hd
    · rw [insertsInto_zero]
      rfl
    · exact hn d hd
  | succ n ih =>
    rw [scopesUpTo, List.findSome?_cons, find?_replay]
    cases hl : latest? name (insertsInto (n + 1) h) with
    | some s => exact .bound hl hn
    | none =>
      refine ih fun d hd => ?_
      rcases Nat.lt_or_eq_of_le hd with hd | rfl
      · exact hn d hd
      · exact hl

section Represents

variable {t : SymbolTable} {h : List Step}

theorem Represents.means_lookup (hr : Represents t h) (name : String) : Means h name (t.lookup name) := by
  rw [lookup, hr]
  refine means_scopesUpTo fun d hd => ?_
  rw [insertsInto_of_lt hd]
  rfl

theorem Represents.top_eq (hr : Represents t h) : t.top = replay (insertsInto (depthAfter h) h) := by
  obtain ⟨n, hn⟩ := Nat.exists_eq_succ_of_ne_zero (Nat.ne_of_gt (depthAfter_pos h))
  unfold Represents at hr
  rw [hn, scopesUpTo] at hr
  rw [hn]
  exact (List.cons.inj hr).1

/-- A table that has the scopes of a history answers as the history says. -/
theorem Represents.answers (hr : Represents t h) {s : Step} (hs : s.isPlain = true) :
    ∃ e, (runStep t s).entries = [e] ∧ Answers h s e := by
  have hd := hr.depth_eq
  cases s with
  | within | raise => cases hs
  | enter => exact ⟨⟨"enter", .nothing, t.depth + 1⟩, rfl, hd ▸ .enter⟩
  | exit =>
    by_cases h1 : t.depth = 1
    · refine ⟨_, by rw [runStep, exit_of_depth_eq_one h1]; rfl, ?_⟩
      rw [h1]
      exact .exitGlobal (hd ▸ h1)
    · obtain ⟨t', ht, hc⟩ := exists_exit_of_depth_ne_one h1
      refine ⟨_, by rw [runStep, ht]; rfl, ?_⟩
      have : t'.depth = depthAfter h - 1 := by
        rw [← hd, depth, depth, hc]
        rfl
      rw [this]
      exact .exit (hd ▸ h1)
  | insert name symbol => exact ⟨_, rfl, hd ▸ .insert name symbol⟩
  | lookup name => exact ⟨_, rfl, hd ▸ .lookup (hr.means_lookup name)⟩
  | lookupLocal name =>
    refine ⟨_, rfl, ?_⟩
    rw [lookupLocal, hr.top_eq, find?_replay, hd]
    exact .lookupLocal name
  | names =>
    refine ⟨_, rfl, ?_⟩
    rw [names, hr.top_eq, keys_replay, hd]
    exact .names

end Represents

/-! ## Scripts -/

theorem runScript_of_isPlain {steps : List Step} (hp : ∀ s ∈ steps, s.isPlain = true) :
    runScript steps = (runSteps .empty steps).entries := by
  simp only [runScript, raised_runSteps hp]

theorem length_entries {h : List Step} (hp : ∀ s ∈ h, s.isPlain = true) (t : SymbolTable) :
    (runSteps t h).entries.length = h.length := by
  induction h generalizing t with
  | nil => rfl
  | cons x rest ih =>
    rw [List.forall_mem_cons] at hp
    obtain ⟨e, he⟩ := exists_entries_runStep hp.1 t
    simp [runSteps, raised_runStep hp.1, he, ih hp.2]

/-- A step moves the depth by one if it enters a scope or leaves one. -/
theorem depth_runStep {s : Step} (hs : s.isPlain = true) (t : SymbolTable) :
    (runStep t s).table.depth + (runStep t s).entries.countP Entry.isDoneExit = t.depth + [s].countP Step.isEnter := by
  cases s with
  | within | raise => cases hs
  | exit =>
    by_cases h1 : t.depth = 1
    · rw [runStep, exit_of_depth_eq_one h1]
      simp [Run.single, Entry.isDoneExit, Step.isEnter]
    · obtain ⟨t', ht, hc⟩ := exists_exit_of_depth_ne_one h1
      rw [runStep, ht]
      simp [Run.single, Entry.isDoneExit, Step.isEnter, depth, hc]
  | _ => simp [runStep, Run.single, Entry.isDoneExit, Step.isEnter]

theorem depth_runSteps {h : List Step} (hp : ∀ s ∈ h, s.isPlain = true) (t : SymbolTable) :
    (runSteps t h).table.depth + (runSteps t h).entries.countP Entry.isDoneExit =
      t.depth + h.countP Step.isEnter := by
  induction h generalizing t with
  | nil => rfl
  | cons x rest ih =>
    rw [List.forall_mem_cons] at hp
    have hx := depth_runStep hp.1 t
    have hr := ih hp.2 (runStep t x).table
    rw [← List.singleton_append, List.countP_append]
    simp only [List.singleton_append, runSteps, raised_runStep hp.1, List.countP_append]
    omega

/-- **A script as its history tells it.** -/
structure FollowsHistory (steps : List Step) : Prop where
  /-- The depth is one more than the enters less the exits that succeeded. -/
  depth_count : (runSteps .empty steps).table.depth + (runScript steps).countP Entry.isDoneExit =
    1 + steps.countP Step.isEnter
  depth_pos : 1 ≤ (runSteps .empty steps).table.depth
  depth_eq : (runSteps .empty steps).table.depth = depthAfter steps
  /-- Every step gives what the steps before it say. -/
  answers : ∀ k s, steps[k]? = some s → ∃ e, (runScript steps)[k]? = some e ∧ Answers (steps.take k) s e
  /-- A step that fails leaves every scope as it was. -/
  unchanged : ∀ k e f, (runScript steps)[k]? = some e → e.result = .failed f →
    (runSteps .empty (steps.take (k + 1))).table = (runSteps .empty (steps.take k)).table

theorem plain_take {steps : List Step} (hp : ∀ s ∈ steps, s.isPlain = true) (k : Nat) :
    ∀ s ∈ steps.take k, s.isPlain = true :=
  fun s hs => hp s (List.mem_of_mem_take hs)

theorem exists_answer {steps : List Step} (hp : ∀ s ∈ steps, s.isPlain = true) {k : Nat} {s : Step}
    (hk : steps[k]? = some s) : ∃ e, (runScript steps)[k]? = some e ∧ Answers (steps.take k) s e := by
  obtain ⟨hl, rfl⟩ := List.getElem?_eq_some_iff.1 hk
  have hs := hp _ (List.getElem_mem hl)
  obtain ⟨e, he, ha⟩ := (represents_runSteps (plain_take hp k)).answers hs
  refine ⟨e, ?_, ha⟩
  have hsplit : steps = steps.take k ++ steps[k] :: steps.drop (k + 1) := by simp
  have hn : (runSteps .empty (steps.take k)).entries.length = k := by
    rw [length_entries (plain_take hp k), List.length_take]
    omega
  rw [runScript_of_isPlain hp]
  conv_lhs => rw [hsplit]
  rw [runSteps_append (plain_take hp k), List.getElem?_append_right (by omega), hn]
  simp [runSteps, raised_runStep hs, he]

/-- Only leaving the global scope fails, and this does nothing. -/
theorem table_of_failed {steps : List Step} (hp : ∀ s ∈ steps, s.isPlain = true) {k : Nat} {e : Entry} {f : Failure}
    (he : (runScript steps)[k]? = some e) (hf : e.result = .failed f) :
    (runSteps .empty (steps.take (k + 1))).table = (runSteps .empty (steps.take k)).table := by
  have hl : k < steps.length := by
    rw [← length_entries hp .empty, ← runScript_of_isPlain hp]
    exact (List.getElem?_eq_some_iff.1 he).1
  have hk : steps[k]? = some steps[k] := List.getElem?_eq_getElem hl
  obtain ⟨e', he', ha⟩ := exists_answer hp hk
  cases he.symm.trans he'
  rw [List.take_add_one, hk, Option.toList_some, runSteps_append (plain_take hp k),
    runSteps_singleton (hp _ (List.getElem_mem hl))]
  generalize steps[k] = s at ha
  cases ha with
  | exitGlobal h1 =>
    show (runStep _ .exit).table = _
    rw [runStep, exit_of_depth_eq_one ((represents_runSteps (plain_take hp k)).depth_eq.trans h1)]
    rfl
  | _ => cases hf

/-- **The table refines its history**: in every script of plain steps on a new table, each step answers as the steps
before it say. -/
theorem follows_history {steps : List Step} (hp : ∀ s ∈ steps, s.isPlain = true) : FollowsHistory steps where
  depth_count := by
    rw [runScript_of_isPlain hp]
    exact depth_runSteps hp .empty
  depth_pos := depth_pos _
  depth_eq := (represents_runSteps hp).depth_eq
  answers _ _ hk := exists_answer hp hk
  unchanged _ _ _ he hf := table_of_failed hp he hf

/-- A name that is hidden, hidden anew in a later scope, and inserted again where it was. -/
def shadowing : List Step :=
  [.insert "f" ⟨.function, .int⟩, .insert "g" ⟨.function, .void⟩, .enter, .insert "f" ⟨.variable, .void⟩,
    .lookup "f", .exit, .enter, .lookupLocal "f", .lookup "f", .exit, .exit, .insert "f" ⟨.function, .void⟩, .names,
    .lookup "f"]

theorem follows_shadowing : (∀ s ∈ shadowing, s.isPlain = true) ∧ FollowsHistory shadowing ∧
    (runScript shadowing)[8]? = some ⟨"lookup", .symbol (some ⟨.function, .int⟩), 2⟩ ∧
    (runScript shadowing)[10]? = some ⟨"exit", .failed (.report (.internal .globalScope) none), 1⟩ ∧
    (runScript shadowing)[12]? = some ⟨"names", .names ["f", "g"], 1⟩ := by
  have hp : ∀ s ∈ shadowing, s.isPlain = true := by decide
  exact ⟨hp, follows_history hp, by decide, by decide, by decide⟩

end TinyArm.SymbolTable
