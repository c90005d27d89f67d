import TensorKernels.Text.Quoted
import TensorKernels.Text.Record

/-!
Why a file cannot be written, and how that is worded.
-/

namespace TensorKernels

inductive FileFailure
  | notFound
  | permissionDenied
  | notADirectory
  | isADirectory
  | storageFull
  | nameTooLong
  | nulInPath
  | other (code : Nat) (message : String)
  deriving DecidableEq, Repr

namespace FileFailure

def code? : FileFailure → Option Nat
  | .notFound => some 2
  | .permissionDenied => some 13
  | .notADirectory => some 20
  | .isADirectory => some 21
  | .storageFull => some 28
  | .nameTooLong => some 36
  | .nulInPath => none
  | .other code _ => some code

def kind : FileFailure → String
  | .notFound => "NotFound"
  | .permissionDenied => "PermissionDenied"
  | .notADirectory => "NotADirectory"
  | .isADirectory => "IsADirectory"
  | .storageFull => "StorageFull"
  | .nameTooLong => "InvalidFilename"
  | .nulInPath => "InvalidInput"
  | .other _ _ => "Uncategorized"

def message : FileFailure → String
  | .notFound => "No such file or directory"
  | .permissionDenied => "Permission denied"
  | .notADirectory => "Not a directory"
  | .isADirectory => "Is a directory"
  | .storageFull => "No space left on device"
  | .nameTooLong => "File name too long"
  | .nulInPath => "file name contained an unexpected NUL byte"
  | .other _ message => message

def numbered (f : FileFailure) : String :=
  match f.code? with
  | some code => f.message ++ " (os error " ++ toString code ++ ")"
  | none => f.message

def text (f : FileFailure) : String :=
  let fields := [("kind", f.kind), ("message", Text.quoted f.message)]
  match f.code? with
  | some code => Text.record "Os" (("code", toString code) :: fields)
  | none => Text.record "Error" fields

end FileFailure

end TensorKernels
