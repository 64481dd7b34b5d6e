import TinyArm.Diagnostic
import TinyArm.Text.Utf8
import TinyArm.Token

/-!
# Failures

Whatever can end a run without its result: a diagnostic about the program, or trouble outside the language, such as a
literal that is too long to read, a tree that lacks a part, or a file that is not there. `Failure.message` words each.
-/

namespace TinyArm

/-- Why a file cannot be opened. -/
inductive FileFault where
  | missing
  | notDirectory
  | isDirectory
  /-- A name on the path, or the path as a whole, has too many bytes. -/
  | nameTooLong
  /-- The path has a zero byte, which no path can have. -/
  | zeroByte
  deriving DecidableEq

/-- The wording of a file fault at a path. -/
def FileFault.message (path : String) : FileFault → String
  | missing => "[Errno 2] No such file or directory: " ++ Text.quote path
  | notDirectory => "[Errno 20] Not a directory: " ++ Text.quote path
  | isDirectory => "[Errno 21] Is a directory: " ++ Text.quote path
  | nameTooLong => "[Errno 36] File name too long: " ++ Text.quote path
  | zeroByte => "embedded null byte"

/-- Why a run has no result. -/
inductive Failure where
  /-- The program is rejected. -/
  | diagnostic (d : Diagnostic)
  /-- A literal of so many digits that it is not read. -/
  | literalLength (digits : Nat)
  /-- A keyword that names no type. -/
  | typeKeyword (value : Value)
  /-- A node of the named kind lacks the named part. -/
  | lacks (node part : String)
  /-- There is no source file at the path. -/
  | source (path : String)
  /-- A file cannot be opened. -/
  | file (fault : FileFault) (path : String)
  /-- A file is not UTF-8. -/
  | encoding (fault : Text.Utf8.Fault)
  /-- A path that names no file cannot take a suffix. -/
  | emptyName (path : String)
  /-- A text that cannot be a suffix. -/
  | suffix (suffix : String)
  /-- A failure that a script asks for. -/
  | raised (text : String)
  deriving DecidableEq

/-- The greatest number of digits of a literal that is read. -/
def maxDigits : Nat := 4300

namespace Failure

/-- A diagnostic at a place, without a source line. -/
def report (cause : Cause) (location : Option Location) : Failure := diagnostic ⟨cause, location, none⟩

/-- The wording of a failure. -/
def message : Failure → String
  | diagnostic d => d.text
  | literalLength n =>
    "Exceeds the limit (" ++ toString maxDigits ++ " digits) for integer string conversion: value has " ++ toString n ++
      " digits; use sys.set_int_max_str_digits() to increase the limit"
  | typeKeyword v => v.literal
  | lacks n p => "'" ++ n ++ "' object has no attribute '" ++ p ++ "'"
  | source p => "Source file not found: " ++ p
  | file f p => f.message p
  | encoding f => f.message
  | emptyName p => "PosixPath(" ++ Text.quote p ++ ") has an empty name"
  | suffix s => "Invalid suffix " ++ Text.quote s
  | raised t => t

end Failure

end TinyArm
