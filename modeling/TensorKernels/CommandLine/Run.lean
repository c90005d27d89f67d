import TensorKernels.CommandLine.Dump
import TensorKernels.CommandLine.Help

/-!
Running a command. How a file is written is left to the caller.
-/

namespace TensorKernels.CommandLine

def usageCode : Nat := 2

/-- The report of a command, whose file, if it has one, goes through `write`. -/
def Command.run {m : Type → Type} [Monad m] (write : FileJob → m (Except FileFailure Unit)) :
    Command → m Report
  | .help topic => return ⟨0, topic.lines, []⟩
  | .version => return ⟨0, [versionLine], []⟩
  | .dump request =>
    match request.dump with
    | .error e => return failed [] e.text
    | .ok d =>
      match d.file with
      | none => return d.printed
      | some job => return d.filed job (← write job)

end TensorKernels.CommandLine
