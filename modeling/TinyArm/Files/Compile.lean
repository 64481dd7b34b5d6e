import TinyArm.Compilation
import TinyArm.Files.Workspace

/-!
# Compiling files

A source file is UTF-8; its newlines are made uniform when it is read. The output is written after the whole
compilation has succeeded, so a program that fails leaves every file as it was.
-/

namespace TinyArm

/-- The text of the source file at a path. -/
def readSource (w : Workspace) (p : Path) : Except Failure String :=
  match w.read? p with
  | .error f => .error (.file f p.text)
  | .ok bytes =>
    match Text.Utf8.decode bytes with
    | .error f => .error (.encoding f)
    | .ok cs => .ok (String.ofList (Text.unifyNewlines cs))

/-- Writes a text to the file at a path. -/
def writeText (w : Workspace) (p : Path) (s : String) : Except Failure Workspace :=
  match w.write p (Text.Utf8.encode s.toList) with
  | .error f => .error (.file f p.text)
  | .ok w' => .ok w'

/-- Compiles the file at the path that `file` writes. Nothing at that path is a failure of its own, unless the path is
too long to tell. -/
def compileSourceFile (options : Options) (w : Workspace) (file : String) : Except Failure Compiled :=
  match w.find? (Path.ofString file) with
  | .error .nameTooLong => .error (.file .nameTooLong (Path.ofString file).text)
  | .error _ => .error (.source file)
  | .ok _ =>
    match readSource w (Path.ofString file) with
    | .error f => .error f
    | .ok source => compile options source file

/-- Compiles a file and writes the assembly to the output path, unless that is missing or empty. -/
def compileFile (w : Workspace) (file : String) (output : Option String) : Workspace × Except Failure String :=
  match compileSourceFile {} w file with
  | .error f => (w, .error f)
  | .ok c =>
    match output.filter (· ≠ "") with
    | none => (w, .ok c.assembly.text)
    | some o =>
      match writeText w (Path.ofString o) c.assembly.text with
      | .error f => (w, .error f)
      | .ok w' => (w', .ok c.assembly.text)

end TinyArm
