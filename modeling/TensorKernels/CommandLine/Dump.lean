import TensorKernels.CommandLine.Arguments
import TensorKernels.Object.Elf

/-!
Dumping one kernel. A request is turned into what is to be written where; the answer of the file
system then settles the report, which is the exit code and the lines on both streams.
-/

namespace TensorKernels.CommandLine

structure FileJob where
  path : String
  bytes : List UInt8
  elf : Bool
  deriving DecidableEq, Repr

structure Dump where
  symbol : String
  summary : String
  words : Array Word
  file : Option FileJob
  statistics : Statistics
  deriving DecidableEq, Repr

structure Report where
  code : Nat
  stdout : List String
  stderr : List String
  deriving DecidableEq, Repr

def logLine (text : String) : String := "[INFO  kernel_dump] " ++ text

def fileJob (symbol : String) (words : Array Word) (destination : Destination) :
    Except Error (Option FileJob) :=
  match destination.path with
  | none => .ok none
  | some path =>
    if destination.elf then do
      let bytes ← Object.writeElf [⟨symbol, words⟩]
      return some ⟨path, bytes, true⟩
    else .ok (some ⟨path, (CodeBuffer.ofWords words).bytes, false⟩)

def prepare {κ : Type} [HasCode κ] (kernel : κ) (summary : String)
    (destination : Destination) : Except Error Dump := do
  let symbol := HasCode.symbol kernel
  let words := (HasCode.code kernel).words
  let file ← fileJob symbol words destination
  let statistics ← Statistics.recordKernel {} kernel
  return { symbol, summary := symbol ++ ": " ++ summary, words, file, statistics }

def gemmSummary (kernel : Gemm.Kernel) : String :=
  let t := kernel.tiling
  "tile " ++ toString t.big.rows ++ "x" ++ toString t.big.cols ++ " (" ++ toString t.fullRowTiles ++
    " full M tiles, M remainder " ++ toString t.rowRemainder ++ "), small tile " ++
    toString t.small.rows ++ "x" ++ toString t.small.cols ++ ", " ++
    toString kernel.code.words.size ++ " words"

def Request.dump : Request → Except Error Dump
  | .gemm shape destination => do
    let kernel ← Gemm.Kernel.generate shape
    prepare kernel (gemmSummary kernel) destination
  | .elementwise op m n destination => do
    let kernel ← Elementwise.Kernel.generate op m n .f32
    prepare kernel (toString kernel.code.words.size ++ " words") destination

def failed (log : List String) (error : String) : Report := ⟨1, [], log ++ ["Error: " ++ error]⟩

/-- The failure of a file job: for an object the bare failure, for raw code with its path. -/
def FileJob.failure (job : FileJob) (failure : FileFailure) : String :=
  if job.elf then failure.text else (Error.file job.path failure).text

def FileJob.written (job : FileJob) (d : Dump) : String :=
  if job.elf then "wrote " ++ d.symbol ++ " as ELF to " ++ job.path
  else "wrote " ++ d.symbol ++ " (" ++ toString d.words.size ++ " words) to " ++ job.path

def statisticsLines (s : Statistics) : List String := s.lines (s.words * 4)

def Dump.printed (d : Dump) : Report :=
  ⟨0, d.words.toList.map Text.hexWord, logLine d.summary :: statisticsLines d.statistics⟩

def Dump.filed (d : Dump) (job : FileJob) : Except FileFailure Unit → Report
  | .error failure => failed [logLine d.summary] (job.failure failure)
  | .ok () =>
    ⟨0, [], logLine d.summary :: logLine (job.written d) :: statisticsLines d.statistics⟩

end TensorKernels.CommandLine
