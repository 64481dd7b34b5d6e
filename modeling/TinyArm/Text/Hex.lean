/-!
# Hexadecimal numerals

`hex w n` writes `n` with lower-case digits, filled with zeros to at least `w` places; `hexUpper` does the same with
upper-case digits.
-/

namespace TinyArm.Text

/-- The hexadecimal digits of `n`, filled with zeros on the left to at least `width` places. -/
def hexDigits (width n : Nat) : List Char :=
  let ds := Nat.toDigits 16 n
  List.replicate (width - ds.length) '0' ++ ds

/-- A hexadecimal numeral with lower-case digits. -/
def hex (width n : Nat) : String := String.ofList (hexDigits width n)

/-- A hexadecimal numeral with upper-case digits. -/
def hexUpper (width n : Nat) : String := String.ofList ((hexDigits width n).map Char.toUpper)

theorem width_le_length_hexDigits (width n : Nat) : width ≤ (hexDigits width n).length := by
  simp [hexDigits]; omega

theorem exists_digitChar_of_mem_toDigits {b n : Nat} {c : Char} (hb : 1 < b) (h : c ∈ Nat.toDigits b n) :
    ∃ d < b, c = d.digitChar := by
  induction n using Nat.strongRecOn with
  | ind n ih =>
    rw [Nat.toDigits_eq_if hb] at h
    split at h
    · next hn => exact ⟨n, hn, List.mem_singleton.1 h⟩
    · next hn =>
      rcases List.mem_append.1 h with h | h
      · exact ih (n / b) (Nat.div_lt_self (by omega) hb) h
      · exact ⟨n % b, Nat.mod_lt n (by omega), List.mem_singleton.1 h⟩

/-- A hexadecimal numeral stands on one line. -/
theorem newline_not_mem_hexUpper (width n : Nat) : '\n' ∉ (hexUpper width n).toList := by
  have hd : ∀ d < 16, d.digitChar.toUpper ≠ '\n' := by decide
  rw [hexUpper, String.toList_ofList, List.mem_map]
  rintro ⟨c, hc, he⟩
  rcases List.mem_append.1 hc with hc | hc
  · rw [List.eq_of_mem_replicate hc] at he
    exact absurd he (by decide)
  · obtain ⟨d, hlt, rfl⟩ := exists_digitChar_of_mem_toDigits (by decide) hc
    exact hd d hlt he

end TinyArm.Text
