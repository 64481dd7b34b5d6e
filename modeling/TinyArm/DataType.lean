/-!
# The types of the language

A function returns a 32-bit integer (`int`) or nothing (`void`); there are no other types.

* `DataType.keyword` and `DataType.ofKeyword?` are inverse to each other (`ofKeyword?_keyword`,
  `keyword_of_ofKeyword?`).
-/

namespace TinyArm

/-- What a function returns, and the type of an expression. -/
inductive DataType where
  /-- A 32-bit integer. -/
  | int
  /-- No value. -/
  | void
  deriving DecidableEq

namespace DataType

/-- The keyword that names a type. -/
def keyword : DataType → String
  | int => "int"
  | void => "void"

/-- The type that a keyword names. -/
def ofKeyword? (s : String) : Option DataType :=
  if s = "int" then some int else if s = "void" then some void else none

theorem ofKeyword?_keyword (t : DataType) : ofKeyword? t.keyword = some t := by
  cases t <;> simp [ofKeyword?, keyword]

theorem keyword_of_ofKeyword? {s : String} {t : DataType} (h : ofKeyword? s = some t) : t.keyword = s := by
  simp only [ofKeyword?] at h
  split at h
  · next hs => cases h; exact hs.symm
  · split at h
    · next hs => cases h; exact hs.symm
    · cases h

end DataType

end TinyArm
