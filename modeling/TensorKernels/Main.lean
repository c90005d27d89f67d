import TensorKernels.CommandLine.Run

/-!
The command line tool: generates one kernel and writes its code to a file or prints it.
-/

namespace TensorKernels.CommandLine

def fileFailure : IO.Error → FileFailure
  | .noFileOrDirectory .. => .notFound
  | .permissionDenied .. => .permissionDenied
  | .inappropriateType _ code _ => if code = 21 then .isADirectory else .notADirectory
  | .resourceExhausted _ 28 _ => .storageFull
  | .invalidArgument _ 36 _ => .nameTooLong
  | e => .other 0 (toString e)

/-- Writes the file of a dump to the disk. The flush is there to meet a disk that is full. -/
def writeJob (job : FileJob) : IO (Except FileFailure Unit) := do
  if job.path.toList.contains (Char.ofNat 0) then return .error .nulInPath
  try
    IO.FS.withFile job.path .write fun file => do
      file.write ⟨job.bytes.toArray⟩
      file.flush
    return .ok ()
  catch e => return .error (fileFailure e)

def printReport (r : Report) : IO UInt32 := do
  for line in r.stderr do
    IO.eprintln line
  for line in r.stdout do
    IO.println line
  return r.code.toUInt32

def runTool (args : List String) : IO UInt32 := do
  match parse args with
  | some command => printReport (← command.run writeJob)
  | none =>
    IO.eprintln ("Usage: " ++ toolName ++ " <COMMAND>")
    return usageCode.toUInt32

end TensorKernels.CommandLine

def main (args : List String) : IO UInt32 := TensorKernels.CommandLine.runTool args
