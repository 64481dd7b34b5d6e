import TinyArm.Compilation
import TinyArm.Node.Printer

/-!
# Stage by stage

A `StageReport` shows what the stages make of a source: how many tokens there are, the outline of the tree, the code
that generation gives before any check, and whether analysis accepts the program. The first failure ends it.
-/

namespace TinyArm

/-- What the stages made of a source, as far as they came. -/
structure StageReport where
  tokenCount : Option Nat := none
  outline : Option String := none
  uncheckedAssembly : Option String := none
  accepted : Bool := false
  failure : Option Failure := none
  deriving DecidableEq

namespace StageReport

/-- The report with the failure that ended it. -/
def failed (r : StageReport) (f : Failure) : StageReport := { r with failure := some f }

/-- The report on a tree, after what is known of its tokens. -/
def ofTree (r : StageReport) (n : Tree) : StageReport :=
  match n.print with
  | .error f => r.failed f
  | .ok outline =>
    let r := { r with outline := some outline }
    match generate n with
    | .error f => r.failed f
    | .ok a =>
      let r := { r with uncheckedAssembly := some a.text }
      match (analyze n).2 with
      | .error f => r.failed f
      | .ok () => { r with accepted := true }

/-- The report on a source. -/
def ofSource (source file : String) : StageReport :=
  match tokens source file with
  | .error f => { failure := some f }
  | .ok ts =>
    let r : StageReport := { tokenCount := some ts.length }
    match RawNode.ofTokens file (quotedLines source) ts with
    | .error f => r.failed f
    | .ok raw => r.ofTree raw.tree

end StageReport

end TinyArm
