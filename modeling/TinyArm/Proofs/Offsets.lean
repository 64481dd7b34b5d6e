import Mathlib.Data.List.Perm.Subperm
import TinyArm.Proofs.Pointing

/-!
# Offsets of tokens

A token starts at an offset: so many characters of the source stand before it. The scanner never comes back to a
character, and no token is empty, so that the offsets of the tokens of a source go up strictly, whether or not the
source has a fault later on.

* `Token.StartsAt`: what a token at an offset is, and at which line and column.
* `Scan.exists_offsets`: the tokens of lexemes start where their lexemes do, one after the other.
* `exists_offsets_of_tokenize`: **every token of a source stands at its place**, the end of input at its end.
-/

namespace TinyArm

/-- A token that starts at an offset of a source: its text comes next there, and its line and its column are those that
come from the text before. -/
structure Token.StartsAt (source : List Char) (file : String) (k : Nat) (t : Token) : Prop where
  text : ∃ cs rest, source.drop k = cs ++ rest ∧ IsTokenText (source.take k) cs rest t.content
  location : t.location = ⟨file, (1 + (source.take k).count '\n' : Nat),
    (1 + ((source.take k).rtakeWhile (· ≠ '\n')).length : Nat)⟩

/-- Whether a token comes from a lexeme of a list, and how many characters of the list stand before the lexeme. -/
def Lexeme.MakesAt (file : String) (before : List Char) (ls : List Lexeme) (k : Nat) (t : Token) : Prop :=
  ∃ ls₁ l ls₂, ls = ls₁ ++ l :: ls₂ ∧ l.token = .ok (some t.content) ∧ k = (before ++ textOf ls₁).length ∧
    t.location = (Position.start.after (before ++ textOf ls₁)).inFile file

namespace Scan

variable {file : String} {before : List Char} {l : Lexeme} {ls : List Lexeme}

/-- A lexeme in front only moves the others. -/
theorem makesAt_cons {k : Nat} {t : Token} (h : Lexeme.MakesAt file (before ++ l.text) ls k t) :
    Lexeme.MakesAt file before (l :: ls) k t := by
  obtain ⟨ls₁, m, ls₂, rfl, hm, hk, hp⟩ := h
  rw [List.append_assoc, ← textOf_cons] at hk hp
  exact ⟨l :: ls₁, m, ls₂, rfl, hm, hk, hp⟩

/-- **The tokens of lexemes start where their lexemes do**, each behind the one before. -/
theorem exists_offsets (file : String) (fault : Option LexicalFault) (before : List Char)
    (hn : ∀ l ∈ ls, l.text ≠ []) :
    ∃ offsets, List.Forall₂ (Lexeme.MakesAt file before ls) offsets
        (ofLexemes file fault (Position.start.after before) ls).tokens ∧
      offsets.Pairwise (· < ·) ∧ ∀ k ∈ offsets, before.length ≤ k := by
  induction ls generalizing before with
  | nil => exact ⟨[], .nil, .nil, nofun⟩
  | cons l ls ih =>
    rw [List.forall_mem_cons] at hn
    have hlt : before.length < (before ++ l.text).length := by
      have := List.length_pos_iff.2 hn.1
      rw [List.length_append]
      omega
    cases hl : l.token with
    | error g =>
      rw [ofLexemes, hl]
      exact ⟨[], .nil, .nil, nofun⟩
    | ok o =>
      obtain ⟨offsets, hm, ho, hb⟩ := ih (before ++ l.text) hn.2
      rw [Position.after_append] at hm
      have hm := hm.imp fun _ _ h => makesAt_cons h
      cases o with
      | none =>
        rw [ofLexemes_cons_none hl]
        exact ⟨offsets, hm, ho, fun k hk => Nat.le_trans (Nat.le_of_lt hlt) (hb k hk)⟩
      | some c =>
        rw [ofLexemes_cons_some hl]
        refine ⟨before.length :: offsets, .cons ⟨[], l, ls, rfl, hl, ?_, ?_⟩ hm, ?_, ?_⟩
        · simp
        · simp
        · exact List.pairwise_cons.2 ⟨fun k hk => Nat.lt_of_lt_of_le hlt (hb k hk), ho⟩
        · rintro k (- | ⟨_, hk⟩)
          · exact Nat.le_refl _
          · exact Nat.le_trans (Nat.le_of_lt hlt) (hb k hk)

end Scan

/-- The lexemes of a text are not empty. -/
theorem text_ne_nil_of_lexemes (cs : List Char) : ∀ l ∈ (lexemes cs).1, l.text ≠ [] := by
  fun_induction lexemes cs with
  | case1 => exact List.forall_mem_nil _
  | case2 c cs l rest h _ r ih => exact List.forall_mem_cons.2 ⟨Lexeme.text_ne_nil_of_next h, ih⟩
  | case3 => exact List.forall_mem_nil _

/-- A token that comes from a lexeme of a source starts at the offset of the lexeme. -/
theorem Lexeme.MakesAt.startsAt {source : List Char} {file : String} {k : Nat} {t : Token}
    (h : MakesAt file [] (lexemes source).1 k t) :
    k < source.length ∧ t.type ≠ .eof ∧ t.StartsAt source file k := by
  obtain ⟨ls₁, l, ls₂, he, hl, rfl, hp⟩ := h
  obtain ⟨rest, hf, hl', hs, hb⟩ := exists_falls_of_lexemes he
  have ht := hf.textOf_append
  have hn := List.length_pos_iff.2 (text_ne_nil_of_lexemes source l (he ▸ List.mem_append_right _ List.mem_cons_self))
  rw [List.nil_append] at hp ⊢
  refine ⟨?_, ne_eof_of_content? hl' (content?_of_token hl), ⟨l.text, rest, ?_, ?_⟩, ?_⟩
  · rw [← ht]
    simp only [List.length_append]
    omega
  · rw [← ht, List.drop_left]
  · rw [← ht, List.take_left]
    exact isTokenText_of_content? (content?_of_token hl) (readable_of_token hl) hl' hs hb
  · rw [hp, inFile_start_after, ← ht, List.take_left]
    rfl

/-- Numbers that go up strictly below a bound are no more than the bound. -/
theorem length_le_of_pairwise_lt {ks : List Nat} {n : Nat} (ho : ks.Pairwise (· < ·)) (hb : ∀ k ∈ ks, k < n) :
    ks.length ≤ n := by
  have hs : ks ⊆ List.range n := fun k hk => List.mem_range.2 (hb k hk)
  have hd : ks.Nodup := ho.imp Nat.ne_of_lt
  simpa using (hd.subperm hs).length_le

/-- **Every token of a source stands at its place.** The tokens start at offsets that go up strictly, whether the source
has a fault later on or not, so that there are no more of them than characters; the end of input is at the end. -/
theorem exists_offsets_of_tokenize (source file : String) :
    ∃ us offsets, List.Forall₂ (Token.StartsAt source.toList file) offsets us ∧ offsets.Pairwise (· < ·) ∧
      us.length ≤ source.length ∧ (∀ t ∈ us, t.type ≠ .eof) ∧
      (tokenize source file = (us ++ [⟨.eof, .absent, ⟨file, (1 + source.toList.count '\n' : Nat),
          (1 + (source.toList.rtakeWhile (· ≠ '\n')).length : Nat)⟩⟩], none) ∨
        ∃ f, tokenize source file = (us, some f)) := by
  obtain ⟨offsets, hm, ho, -⟩ := Scan.exists_offsets file (lexemes source.toList).2 []
    (text_ne_nil_of_lexemes source.toList)
  have hs : List.Forall₂ (fun k t => k < source.toList.length ∧ t.type ≠ .eof ∧ t.StartsAt source.toList file k)
      offsets (Scan.ofSource source.toList file).tokens := hm.imp fun _ _ h => h.startsAt
  have hb : ∀ k ∈ offsets, k < source.toList.length := fun k hk => by
    obtain ⟨t, -, h⟩ := exists_mem_of_forall₂ hs.flip hk
    exact h.1
  refine ⟨(Scan.ofSource source.toList file).tokens, offsets, hs.imp fun _ _ h => h.2.2, ho, ?_, ?_, ?_⟩
  · rw [← String.length_toList, ← hs.length_eq]
    exact length_le_of_pairwise_lt ho hb
  · intro t ht
    obtain ⟨k, -, h⟩ := exists_mem_of_forall₂ hs ht
    exact h.2.1
  · rw [tokenize]
    cases hf : (Scan.ofSource source.toList file).fault with
    | some g => exact .inr ⟨_, rfl⟩
    | none =>
      obtain ⟨hn, hr⟩ := Scan.readable_of_fault_eq_none hf
      have hstop : (Scan.ofSource source.toList file).stop = Position.start.after source.toList := by
        rw [Scan.ofSource, Scan.ofLexemes_of_readable hr, (spaced_lexemes hn).2]
      have heof := congrArg (Position.inFile · file) hstop
      simp only [inFile_start_after] at heof
      left
      simp only [Scan.eof, heof, placeAfter]

end TinyArm
