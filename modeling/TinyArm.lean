import TinyArm.Session
import TinyArm.Symbol.Script
import TinyArm.Command.Run
import TinyArm.Compilation.Stages
import TinyArm.Main
import TinyArm.Proofs.Acceptance
import TinyArm.Proofs.RoundTrip
import TinyArm.Proofs.Accepted
import TinyArm.Proofs.Linking
import TinyArm.Proofs.Registers
import TinyArm.Proofs.Machine
import TinyArm.Proofs.Returning
import TinyArm.Proofs.Partition
import TinyArm.Proofs.Literals
import TinyArm.Proofs.Checked
import TinyArm.Proofs.Layouts
import TinyArm.Proofs.Concatenation
import TinyArm.Proofs.QuotedLines
import TinyArm.Proofs.Invariance
import TinyArm.Proofs.Histories
import TinyArm.Proofs.AllOrNothing
import TinyArm.Proofs.CarriageReturns
import TinyArm.Proofs.Offsets
import TinyArm.Proofs.Scopes
import TinyArm.Proofs.Sessions
import TinyArm.Proofs.Lookahead
import TinyArm.Proofs.FaultReports
import TinyArm.Proofs.Declarations
import TinyArm.Proofs.Blocks
import TinyArm.Proofs.Spots
import TinyArm.Proofs.Outlines
import TinyArm.Proofs.Visits
