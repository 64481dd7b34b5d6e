import Mathlib.Data.List.Infix
import TinyArm.Files.Workspace

/-!
# Paths and written files

* `Path.ofString_text`: a path that was read from a text is read from its own text again.
* `Workspace.entry?_put`: an entry put where a path leads is seen there and changes nothing elsewhere, because all
  that lies above was there before (`grounded_of_resolve`).
* `Workspace.writesOnly_of_write`: **writing a file** changes the place its path leads to and nothing else.
* `Workspace.resolve_withSuffix_ne`: a path with another suffix leads elsewhere.
-/

namespace TinyArm

/-! ## Paths and their texts -/

namespace Path

/-- What a path is like that was read from a text. -/
structure IsRead (p : Path) : Prop where
  root : p.root = "" ∨ p.root = "/" ∨ p.root = "//"
  names : ∀ n ∈ p.names, n.toList ≠ [] ∧ n.toList ≠ ['.'] ∧ '/' ∉ n.toList

theorem rootOf_cases (cs : List Char) : rootOf cs = "" ∨ rootOf cs = "/" ∨ rootOf cs = "//" := by
  unfold rootOf
  split <;> simp

theorem isRead_ofString (s : String) : (ofString s).IsRead where
  root := rootOf_cases _
  names := by
    intro n hn
    obtain ⟨l, hl, rfl⟩ := List.mem_map.1 hn
    obtain ⟨hm, hf⟩ := List.mem_filter.1 hl
    rw [String.toList_ofList]
    refine ⟨?_, ?_, Text.not_mem_of_mem_pieces hm⟩ <;> rintro rfl <;> cases hf

/-- The root is found in front of a name. -/
theorem rootOf_append {p : Path} (h : p.IsRead) {cs : List Char} (hc : cs.head? ≠ some '/') :
    rootOf (p.root.toList ++ cs) = p.root := by
  have ht : cs.takeWhile (· = '/') = [] := by
    cases cs with
    | nil => rfl
    | cons c cs => rw [List.takeWhile_cons_of_neg (by simpa using hc)]
  rcases h.root with e | e | e <;> simp [rootOf, e, ht]

/-- A root has only empty pieces. -/
theorem filter_pieces_root {p : Path} (h : p.IsRead) (cs : List Char) :
    (Text.pieces '/' (p.root.toList ++ cs)).filter (fun l => !(l.isEmpty || l == ['.'])) =
      (Text.pieces '/' cs).filter fun l => !(l.isEmpty || l == ['.']) := by
  rcases h.root with e | e | e <;> simp [e, Text.pieces]

theorem head?_intercalate {n : String} (hn : n.toList ≠ []) (ns : List String) :
    ("/".intercalate (n :: ns)).toList.head? = n.toList.head? := by
  obtain ⟨c, cs, hc⟩ := List.exists_cons_of_ne_nil hn
  rw [String.toList_intercalate, List.map_cons, hc]
  cases ns <;> rfl

/-- The text of a path that has names is its root and the names. -/
theorem toList_text {root n : String} (hn : n.toList ≠ []) (ns : List String) :
    (text ⟨root, n :: ns⟩).toList = root.toList ++ ("/".intercalate (n :: ns)).toList := by
  unfold text
  rw [if_neg, String.toList_append]
  intro e
  have ht := congrArg String.toList e
  rw [String.toList_append, String.toList_empty, List.append_eq_nil_iff] at ht
  have hh := head?_intercalate hn ns
  rw [ht.2] at hh
  exact hn (List.head?_eq_none_iff.1 hh.symm)

/-- **A path that was read from a text is read from its own text again.** -/
theorem ofString_text {p : Path} (h : p.IsRead) : ofString p.text = p := by
  obtain ⟨root, names⟩ := p
  cases names with
  | nil => rcases h.root with e | e | e <;> cases e <;> decide
  | cons n ns =>
    have hn := h.names n List.mem_cons_self
    have hnames : ∀ l ∈ (n :: ns).map String.toList, l ≠ [] ∧ l ≠ ['.'] ∧ '/' ∉ l := List.forall_mem_map.2 h.names
    have hroot : ("/".intercalate (n :: ns)).toList.head? ≠ some '/' := by
      rw [head?_intercalate hn.1]
      exact fun e => hn.2.2 (List.mem_of_mem_head? e)
    have hpieces : Text.pieces '/' ("/".intercalate (n :: ns)).toList = (n :: ns).map String.toList := by
      rw [String.toList_intercalate]
      exact Text.pieces_intercalate (by simp) fun l hl => (hnames l hl).2.2
    have hkept : ((n :: ns).map String.toList).filter (fun l => !(l.isEmpty || l == ['.'])) =
        (n :: ns).map String.toList :=
      List.filter_eq_self.2 fun l hl => by simpa using ⟨(hnames l hl).1, (hnames l hl).2.1⟩
    rw [ofString, toList_text hn.1, rootOf_append h hroot, filter_pieces_root h, hpieces, hkept, List.map_map]
    congr 1
    simp

end Path

/-! ## What lies above a place -/

namespace Workspace

variable {w w' : Workspace} {p q : Path}

theorem isAbove_iff : isAbove p q = true ↔
    p.root = q.root ∧ p.names <+: q.names ∧ p.names.length < q.names.length := by
  simp [isAbove, and_assoc]

/-- Above one name more lies what lay above, and the path itself. -/
theorem isAbove_concat {root : String} {names : List String} {name : String} {r : Path}
    (h : isAbove r ⟨root, names ++ [name]⟩ = true) : r = ⟨root, names⟩ ∨ isAbove r ⟨root, names⟩ = true := by
  obtain ⟨rroot, rnames⟩ := r
  obtain ⟨rfl, hp, hl⟩ := isAbove_iff.1 h
  rcases List.prefix_concat_iff.1 hp with he | hp
  · rw [he] at hl
    exact absurd hl (Nat.lt_irrefl _)
  · by_cases he : rnames = names
    · exact .inl (he ▸ rfl)
    · exact .inr (isAbove_iff.2 ⟨rfl, hp, lt_of_le_of_ne hp.length_le fun hn => he (hp.eq_of_length hn)⟩)

/-- All that lies above a place is there. -/
def Grounded (w : Workspace) (q : Path) : Prop := ∀ r, isAbove r q = true → w.entry? r ≠ none

theorem entry?_ne_none_of_isBase (h : isBase p = true) : w.entry? p ≠ none := by
  unfold entry?
  split <;> simp [h]

theorem Grounded.concat {root name : String} {names : List String} (h : w.Grounded ⟨root, names⟩)
    (he : w.entry? ⟨root, names⟩ ≠ none) : w.Grounded ⟨root, names ++ [name]⟩ := by
  intro r hr
  rcases isAbove_concat hr with rfl | hr
  · exact he
  · exact h r hr

/-- A place one name further is grounded if what it goes on from is there. -/
theorem Grounded.further (h : w.Grounded p) (he : w.entry? p ≠ none) (name : String) :
    w.Grounded (further p name) := by
  unfold Workspace.further
  split
  · exact h
  · split
    · split
      · split
        · exact h.concat he
        · exact h
      · intro r hr
        obtain ⟨hroot, hp, hl⟩ := isAbove_iff.1 hr
        refine h r (isAbove_iff.2 ⟨hroot, hp.trans (List.dropLast_prefix _), ?_⟩)
        simp only [List.length_dropLast] at hl
        omega
    · exact h.concat he

theorem grounded_of_locate {names : List String} (h : w.locate p names = .ok q) (hp : w.Grounded p)
    (he : w.entry? p ≠ none) : w.Grounded q := by
  fun_induction locate w p names with
  | case1 => cases h; exact hp
  | case2 => cases h
  | case3 => cases h; exact hp.further he _
  | case4 p name rest _ _ hd ih => exact ih h (hp.further he _) (by rw [hd]; simp)
  | case5 => cases h
  | case6 => cases h

theorem resolve_eq_ok_iff : w.resolve p = .ok q ↔ checkPath p.text = .ok () ∧ w.locate ⟨p.root, []⟩ p.names = .ok q := by
  unfold resolve
  split
  · next h => simp [h]
  · next h => simp [h]

/-- Whatever lies above the place that a path leads to is there. -/
theorem grounded_of_resolve (h : w.resolve p = .ok q) : w.Grounded q :=
  grounded_of_locate (resolve_eq_ok_iff.1 h).2 (fun _ hr => absurd (isAbove_iff.1 hr).2.2 (Nat.not_lt_zero _))
    (entry?_ne_none_of_isBase rfl)

/-! ## Writing -/

theorem any_put (f : Path → Bool) (e : FileEntry) :
    (w.put q e).entries.any (fun b => f b.1) = (f q || w.entries.any fun b => f b.1) := by
  have hany : ∀ bs : Bindings Path FileEntry, bs.any (fun b => f b.1) = (Bindings.keys bs).any f := by
    intro bs
    rw [Bindings.keys, List.any_map, Function.comp_def]
  rw [hany, hany, put, Bindings.keys_put]
  by_cases hm : q ∈ Bindings.keys w.entries
  · rw [if_pos hm]
    cases hq : f q with
    | false => rfl
    | true => exact List.any_eq_true.2 ⟨q, hm, hq⟩
  · rw [if_neg hm, List.any_append, List.any_cons, List.any_nil, Bool.or_false, Bool.or_comm]

/-- Where nothing is bound there is a directory or nothing. -/
theorem entry?_of_find?_eq_none (h : Bindings.find? p w.entries = none) :
    w.entry? p = if isBase p || w.entries.any (fun b => isAbove p b.1) then some .directory else none := by
  unfold entry?
  rw [h]

/-- **An entry put at a grounded place** is there, and nothing else is changed. -/
theorem entry?_put (h : w.Grounded q) (e : FileEntry) (r : Path) :
    entry? (w.put q e) r = if r = q then some e else w.entry? r := by
  by_cases hr : r = q
  · subst hr
    rw [if_pos rfl, entry?, find?_put, if_pos rfl]
  · rw [if_neg hr]
    have hf : Bindings.find? r (w.put q e).entries = Bindings.find? r w.entries := by
      rw [find?_put, if_neg (Ne.symm hr)]
    cases hb : Bindings.find? r w.entries with
    | some e' => simp only [hf, hb, entry?]
    | none =>
      rw [entry?_of_find?_eq_none (hf.trans hb), entry?_of_find?_eq_none hb, any_put]
      cases ha : isAbove r q with
      | false => rw [Bool.false_or]
      | true =>
        -- what lies above `q` was a directory before
        have hs := h r ha
        rw [entry?_of_find?_eq_none hb] at hs
        split at hs
        · next hd => rw [if_pos hd, if_pos (by simp)]
        · exact absurd rfl hs

/-- A place that is reached through directories is reached as long as these are directories. -/
theorem locate_mono (h : ∀ r, w.entry? r = some .directory → w'.entry? r = some .directory) {names : List String}
    (hl : w.locate p names = .ok q) : w'.locate p names = .ok q := by
  fun_induction locate w p names with
  | case1 => exact hl
  | case2 => cases hl
  | case3 p name hn => rw [locate, if_neg hn, if_pos rfl]; exact hl
  | case4 p name rest hn hr hd ih =>
    rw [locate, if_neg hn, if_neg hr, h _ hd]
    exact ih hl
  | case5 => cases hl
  | case6 => cases hl

theorem resolve_mono (h : ∀ r, w.entry? r = some .directory → w'.entry? r = some .directory)
    (hr : w.resolve p = .ok q) : w'.resolve p = .ok q := by
  obtain ⟨hc, hl⟩ := resolve_eq_ok_iff.1 hr
  exact resolve_eq_ok_iff.2 ⟨hc, locate_mono h hl⟩

theorem exists_resolve_of_read? {bytes : List UInt8} (h : w.read? p = .ok bytes) : ∃ q, w.resolve p = .ok q := by
  unfold read? find? at h
  cases hr : w.resolve p with
  | error f => simp [hr] at h
  | ok q => exact ⟨q, rfl⟩

theorem write_eq_ok_iff {bytes : List UInt8} : w.write p bytes = .ok w' ↔
    ∃ q, w.resolve p = .ok q ∧ w.entry? q ≠ some .directory ∧ w' = w.put q (.file bytes) := by
  unfold write
  split
  · next hf => simp [hf]
  · next q hq =>
    split
    · next hd => simp [hq, hd]
    · next hd => exact ⟨fun h => ⟨q, hq, hd, (Except.ok.inj h).symm⟩, fun ⟨_, h, _, he⟩ => by
        rw [he, Except.ok.inj (hq.symm.trans h)]⟩

/-- The file at a path has certain bytes, and no other place has changed. -/
structure WritesOnly (w w' : Workspace) (p : Path) (bytes : List UInt8) : Prop where
  read : w'.read? p = .ok bytes
  elsewhere : ∃ q, w.resolve p = .ok q ∧ w.entry? q ≠ some .directory ∧ ∀ r, r ≠ q → w'.entry? r = w.entry? r

/-- **Writing a file changes the place of its path and nothing else.** -/
theorem writesOnly_of_write {bytes : List UInt8} (h : w.write p bytes = .ok w') : w.WritesOnly w' p bytes := by
  obtain ⟨q, hq, hd, rfl⟩ := write_eq_ok_iff.1 h
  have he := entry?_put (grounded_of_resolve hq) (.file bytes)
  have hk : ∀ r, r ≠ q → entry? (w.put q (.file bytes)) r = w.entry? r := fun r hn => by rw [he, if_neg hn]
  have hr := resolve_mono (fun r hr => (hk r fun e => hd (e ▸ hr)).trans hr) hq
  refine ⟨?_, q, hq, hd, hk⟩
  simp only [read?, find?, hr, he, if_pos]

/-- Another file is found as before. -/
theorem WritesOnly.find?_eq {o : Path} {bytes : List UInt8} (h : w.WritesOnly w' o bytes) (hp : w.resolve p = .ok q)
    (hn : w.resolve o ≠ .ok q) : w'.find? p = w.find? p := by
  obtain ⟨s, hs, hd, hk⟩ := h.elsewhere
  have hr := resolve_mono (fun r hr => (hk r fun e => hd (e ▸ hr)).trans hr) hp
  simp only [find?, hp, hr, hk q fun e => hn (e ▸ hs)]

/-! ## Neighbours -/

/-- A name that is neither empty nor made of dots leads one name further. -/
theorem further_of_proper {name : String} (h : name ≠ "" ∧ name ≠ "." ∧ name ≠ "..") (p : Path) :
    further p name = ⟨p.root, p.names ++ [name]⟩ := by
  simp [further, h]

/-- Paths that differ in the last name only go through the same directory. -/
theorem locate_concat {names : List String} {a b : String} {q q' : Path} (ha : w.locate p (names ++ [a]) = .ok q)
    (hb : w.locate p (names ++ [b]) = .ok q') : ∃ d, q = further d a ∧ q' = further d b := by
  induction names generalizing p with
  | nil =>
    simp only [List.nil_append, locate] at ha hb
    split at ha
    · cases ha
    · split at hb
      · cases hb
      · cases ha; cases hb; exact ⟨p, rfl, rfl⟩
  | cons n ns ih =>
    have hne : ∀ c : String, ns ++ [c] ≠ [] := fun c => by simp
    rw [List.cons_append, locate] at ha hb
    split at ha
    · cases ha
    · next hl =>
      rw [if_neg (hne a)] at ha
      rw [if_neg hl, if_neg (hne b)] at hb
      split at ha
      · next hd => rw [hd] at hb; exact ih ha hb
      · cases ha
      · cases ha

end Workspace

/-! ## Paths with another suffix -/

namespace Path

/-- A name with a suffix has more in front of it, and is made of that and the suffix. -/
theorem splitName_of_ne_nil {name : List Char} (h : (splitName name).2 ≠ []) :
    (splitName name).1 ≠ [] ∧ (splitName name).1 ++ (splitName name).2 = name := by
  refine ⟨?_, splitName_append name⟩
  unfold splitName at h ⊢
  split
  · next before after hd =>
    simp only [hd] at h
    split
    · next hc => rw [if_pos hc] at h; exact absurd rfl h
    · next hc => simpa using fun e : before = [] => hc (by simp [e])
  · next hd => simp [hd] at h

/-- A path with a suffix has a last name, which ends in it. -/
theorem exists_names_of_suffix {p : Path} {s : String} (hs : p.suffix = s) (hn : s ≠ "") :
    p.names = p.names.dropLast ++ [String.ofList (splitName p.name).1 ++ s] := by
  have hsplit : (splitName p.name).2 ≠ [] := fun e => hn (by rw [← hs, suffix, e])
  have hname := (splitName_of_ne_nil hsplit).2
  cases hl : p.names.getLast? with
  | none => simp [name, hl, splitName, lastDot?] at hsplit
  | some last =>
    have hlast : String.ofList (splitName p.name).1 ++ s = last := by
      rw [← hs, suffix, ← String.ofList_append, hname, name, hl, Option.getD_some, String.ofList_toList]
    rw [hlast, List.dropLast_append_getLast? last hl]

theorem names_of_withSuffix {p o : Path} {s : String} (h : p.withSuffix s = .ok o) :
    o.root = p.root ∧ o.names = p.names.dropLast ++ [String.ofList (splitName p.name).1 ++ s] := by
  unfold withSuffix at h
  split at h
  · cases h
  · split at h
    · cases h
    · cases h; exact ⟨rfl, rfl⟩

/-- A name with a character that is no dot is neither empty nor made of dots. -/
theorem proper_of_mem {name : String} {c : Char} (h : c ∈ name.toList) (hc : c ≠ '.') :
    name ≠ "" ∧ name ≠ "." ∧ name ≠ ".." := by
  refine ⟨?_, ?_, ?_⟩ <;> rintro rfl <;> simp [hc] at h

end Path

/-- **A source and the file with the suffix of assemblies beside it** are two places. -/
theorem Workspace.resolve_withSuffix_ne {w : Workspace} {p o q : Path} (hs : p.suffix = ".c")
    (ho : p.withSuffix ".s" = .ok o) (hq : w.resolve p = .ok q) : w.resolve o ≠ .ok q := by
  intro hq'
  obtain ⟨hroot, hnames⟩ := Path.names_of_withSuffix ho
  have hp := (resolve_eq_ok_iff.1 hq).2
  have ho := (resolve_eq_ok_iff.1 hq').2
  rw [Path.exists_names_of_suffix hs (by decide)] at hp
  rw [hroot, hnames] at ho
  obtain ⟨d, rfl, he⟩ := locate_concat hp ho
  rw [further_of_proper (Path.proper_of_mem (c := 'c') (by simp) (by decide)),
    further_of_proper (Path.proper_of_mem (c := 's') (by simp) (by decide))] at he
  have hlast := congrArg (fun r : Path => r.names.getLast?.map String.toList) he
  simp at hlast

end TinyArm
