import TinyArm.Command.Run

/-!
# The command

`main` looks up the source file and the output file in the file system, runs the command on what it has found, prints
what the command prints, and writes the files that the command has changed. All that is decided is decided in
`Command.run`.
-/

namespace TinyArm.Command

/-- The paths that arguments name: the source file, and the output file that is given or follows from it. -/
def pathsOf (a : Arguments) : List Path :=
  let sources := (a.others.take 1).map Path.ofString
  let output : Option Path :=
    match a.output with
    | some o => some (Path.ofString o)
    | none => sources.head?.bind fun p => (p.withSuffix ({} : Options).outputSuffix).toOption
  sources ++ output.toList

/-- The resolved paths from the start of a path to its end. -/
def stations (p : Path) : List Path :=
  (p.names.foldl (fun ps name => Workspace.further (ps.headD ⟨p.root, []⟩) name :: ps) []).reverse

/-- What the file system has at a path. -/
def probe (p : Path) : IO (Option FileEntry) := do
  try
    let bytes ← IO.FS.readBinFile p.text
    return some (.file bytes.toList)
  catch
    | .inappropriateType _ 21 _ => return some .directory
    | .inappropriateType .. | .noFileOrDirectory .. | .invalidArgument .. => return none
    | e => throw e

/-- The part of the file system that lies on the way to some paths. -/
def snapshot (ps : List Path) : IO Workspace := do
  let mut entries : Bindings Path FileEntry := []
  for p in ps.flatMap stations do
    if let some e ← probe p then
      entries := Bindings.put p e entries
  return ⟨entries⟩

/-- Writes the files of `after` that are not in `before` with the same content. -/
def writeChanges (before after : Workspace) : IO Unit := do
  for (p, e) in after.entries do
    if let .file bytes := e then
      if Bindings.find? p before.entries ≠ some e then
        IO.FS.writeBinFile p.text ⟨bytes.toArray⟩

/-- Runs the command in the file system and gives its exit code. -/
def execute (args : List String) : IO UInt32 := do
  let before ← snapshot (((Arguments.parse args).toOption.map pathsOf).getD [])
  let o := run before args
  writeChanges before o.workspace
  IO.print o.stdout
  IO.eprint o.stderr
  return o.exitCode.toUInt32

end TinyArm.Command

/-- Compiles a source file as the arguments say. -/
def main (args : List String) : IO UInt32 := TinyArm.Command.execute args
