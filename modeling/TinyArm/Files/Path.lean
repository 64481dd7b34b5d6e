import TinyArm.Failure
import TinyArm.Text.Lines

/-!
# Paths

A path is a root and names. Reading a path drops empty names and single dots; two dots are a name like any other. A
path that starts with one slash, or with three or more, has the root `/`; exactly two slashes make the root `//`.

* `Path.suffix` is the part of the last name from its last dot on, unless the dot is its first or last character.
* `Path.withSuffix` puts another suffix in the place of the old one.
-/

namespace TinyArm

/-- A path. -/
structure Path where
  root : String
  names : List String
  deriving DecidableEq

namespace Path

/-- The root of a written path. -/
def rootOf (cs : List Char) : String :=
  match (cs.takeWhile (· = '/')).length with
  | 0 => ""
  | 2 => "//"
  | _ => "/"

/-- The path that a text writes. -/
def ofString (s : String) : Path :=
  ⟨rootOf s.toList, ((Text.pieces '/' s.toList).filter fun p => !(p.isEmpty || p == ['.'])).map String.ofList⟩

/-- The text of a path; the empty path is a dot. -/
def text (p : Path) : String :=
  let s := p.root ++ "/".intercalate p.names
  if s = "" then "." else s

/-- The last name of a path, empty if there is none. -/
def name (p : Path) : List Char := (p.names.getLast?.getD "").toList

/-- What comes before the last dot of a name and what comes after it. -/
def lastDot? : List Char → Option (List Char × List Char)
  | [] => none
  | c :: cs =>
    match lastDot? cs with
    | some (before, after) => some (c :: before, after)
    | none => if c = '.' then some ([], cs) else none

/-- Splits a name before its last dot, unless the dot is the first or last character. -/
def splitName (name : List Char) : List Char × List Char :=
  match lastDot? name with
  | some (before, after) => if before.isEmpty || after.isEmpty then (name, []) else (before, '.' :: after)
  | none => (name, [])

/-- The suffix of the last name, with its dot. -/
def suffix (p : Path) : String := String.ofList (splitName p.name).2

/-- Whether a text can be a suffix: it is empty, or a dot and more, without slashes. -/
def isSuffix (s : String) : Bool := !s.toList.contains '/' && (s == "" || (s.startsWith "." && s != "."))

/-- The path with another suffix. The suffix is checked before the path. -/
def withSuffix (p : Path) (s : String) : Except Failure Path :=
  if isSuffix s = false then .error (.suffix s)
  else if p.name.isEmpty then .error (.emptyName p.text)
  else .ok { p with names := p.names.dropLast ++ [String.ofList (splitName p.name).1 ++ s] }

theorem append_of_lastDot? {name : List Char} {p : List Char × List Char} (h : lastDot? name = some p) :
    p.1 ++ '.' :: p.2 = name := by
  fun_induction lastDot? name generalizing p with
  | case1 => cases h
  | case2 c cs before after hc ih => cases h; simpa using ih hc
  | case3 cs => cases h; rfl
  | case4 c cs => cases h

/-- The two parts of a name make up the name. -/
theorem splitName_append (name : List Char) : (splitName name).1 ++ (splitName name).2 = name := by
  unfold splitName
  split
  · next h =>
    split
    · simp
    · exact append_of_lastDot? h
  · simp

end Path

end TinyArm
