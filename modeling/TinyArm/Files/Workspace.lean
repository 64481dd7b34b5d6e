import TinyArm.Bindings
import TinyArm.Files.Path
import TinyArm.Text.Lines

/-!
# Files and directories

A `Workspace` is what a program sees of the file system: files and directories under resolved paths, in which two dots
stand only at the front. Everything above an entry is a directory, and so are the working directory and what lies above
it.

* `Workspace.locate` follows written names one by one; whatever is passed through has to be a directory. `checkPath`
  and `isLong` say which paths and names are refused before anything is looked up.
* `Workspace.read?` and `Workspace.write` open the file at a path, or say why it cannot be opened. A write changes the
  file at its place and nothing else (`find?_put`).
-/

namespace TinyArm

/-- What a path may lead to. -/
inductive FileEntry where
  | directory
  | file (bytes : List UInt8)
  deriving DecidableEq

/-- Files and directories, each under a path. -/
structure Workspace where
  entries : Bindings Path FileEntry
  deriving DecidableEq

namespace Workspace

/-! ## Places -/

/-- Whether `p` lies above `q`. -/
def isAbove (p q : Path) : Bool := p.root == q.root && p.names.isPrefixOf q.names && p.names.length < q.names.length

/-- Whether a resolved path is the working directory or lies above it, or is a root. -/
def isBase (p : Path) : Bool := p.names.all (· == "..")

/-- What is at a resolved path. -/
def entry? (w : Workspace) (p : Path) : Option FileEntry :=
  match Bindings.find? p w.entries with
  | some e => some e
  | none => if isBase p || w.entries.any (fun e => isAbove p e.1) then some .directory else none

/-- The resolved path one name further; an empty name and a dot stay, two dots go up. -/
def further (p : Path) (name : String) : Path :=
  if name = "" ∨ name = "." then p
  else if name = ".." then
    if isBase p then if p.root = "" then { p with names := p.names ++ [".."] } else p
    else { p with names := p.names.dropLast }
  else { p with names := p.names ++ [name] }

/-- The greatest number of bytes of a name. -/
def maxNameBytes : Nat := 255

/-- The greatest number of bytes of a path. -/
def maxPathBytes : Nat := 4095

/-- Whether a text has more than a number of bytes. -/
def isLong (limit : Nat) (s : String) : Bool := limit < (Text.Utf8.encode s.toList).length

/-- Checks the text of a path before it is followed. -/
def checkPath (s : String) : Except FileFault Unit :=
  if s.toList.contains '\x00' then .error .zeroByte
  else if isLong maxPathBytes s then .error .nameTooLong
  else .ok ()

/-- The resolved path that names lead to from the directory `p`. All that is passed through has to be a directory; what
is at the end may be missing. -/
def locate (w : Workspace) (p : Path) : List String → Except FileFault Path
  | [] => .ok p
  | name :: rest =>
    if isLong maxNameBytes name then .error .nameTooLong
    else if rest = [] then .ok (further p name)
    else
      match w.entry? (further p name) with
      | some .directory => w.locate (further p name) rest
      | some (.file _) => .error .notDirectory
      | none => .error .missing

/-- The resolved path of a path. -/
def resolve (w : Workspace) (p : Path) : Except FileFault Path :=
  match checkPath p.text with
  | .error f => .error f
  | .ok () => w.locate ⟨p.root, []⟩ p.names

/-- What is at a path. -/
def find? (w : Workspace) (p : Path) : Except FileFault FileEntry :=
  match w.resolve p with
  | .error f => .error f
  | .ok q =>
    match w.entry? q with
    | some e => .ok e
    | none => .error .missing

/-- What is at a path as it is written: a slash at the end asks for a directory, and an empty text leads nowhere. -/
def findWritten? (w : Workspace) (s : String) : Option FileEntry :=
  if s = "" then none
  else
    match checkPath s with
    | .error _ => none
    | .ok () =>
      match w.locate ⟨Path.rootOf s.toList, []⟩ ((Text.pieces '/' s.toList).map String.ofList) with
      | .error _ => none
      | .ok q => w.entry? q

/-! ## Files -/

/-- The bytes of the file at a path. -/
def read? (w : Workspace) (p : Path) : Except FileFault (List UInt8) :=
  match w.find? p with
  | .error f => .error f
  | .ok .directory => .error .isDirectory
  | .ok (.file bytes) => .ok bytes

/-- Puts an entry at a resolved path. -/
def put (w : Workspace) (p : Path) (e : FileEntry) : Workspace := ⟨Bindings.put p e w.entries⟩

/-- Writes the file at a path. A write that fails changes nothing. -/
def write (w : Workspace) (p : Path) (bytes : List UInt8) : Except FileFault Workspace :=
  match w.resolve p with
  | .error f => .error f
  | .ok q =>
    match w.entry? q with
    | some .directory => .error .isDirectory
    | _ => .ok (w.put q (.file bytes))

/-- The files below the working directory with their contents, sorted by name. -/
def files (w : Workspace) : List (String × List UInt8) :=
  let inside := w.entries.filterMap fun e =>
    match e.2 with
    | .file bytes => if e.1.root == "" && e.1.names.head? != some ".." then some (e.1.text, bytes) else none
    | .directory => none
  inside.mergeSort fun a b => a.1 ≤ b.1

/-- A write is seen at its place, and no entry elsewhere changes. -/
theorem find?_put (w : Workspace) (p q : Path) (e : FileEntry) :
    Bindings.find? q (w.put p e).entries = if p = q then some e else Bindings.find? q w.entries :=
  Bindings.find?_put p q e w.entries

end Workspace

end TinyArm
