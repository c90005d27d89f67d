import TensorKernels.Assembly.Buffer
import TensorKernels.Assembly.Code
import TensorKernels.Error
import TensorKernels.Kernel.Statistics

/-!
What all generated kernels have in common: a family, a symbol name and assembled code. Generation
is accounted for in statistics, to which only successful generations add. Only a host of the
architecture that the code is for can call it, with strides that its registers can hold.
-/

namespace TensorKernels

class HasCode (κ : Type) where
  family : κ → String
  symbol : κ → String
  code : κ → MachineCode
  text : κ → String

def codeBuffer {κ : Type} [HasCode κ] (kernel : κ) : CodeBuffer :=
  CodeBuffer.ofWords (HasCode.code kernel).words

def CodeBuffer.text (b : CodeBuffer) : String :=
  Text.record "ExecutableBuffer"
    [("words", toString b.size), ("entry", if b.isMapped then "<ptr>" else "0x0")]

def Statistics.recordKernel {κ : Type} [HasCode κ] (s : Statistics) (kernel : κ) :
    Except Overflow Statistics :=
  let code := HasCode.code kernel
  s.record (HasCode.family kernel) code.words.size code.labels code.branches

/-- Accounts for a generation: the kernel with the statistics that include it, or its error with
the statistics as they were. -/
def Statistics.account {κ : Type} [HasCode κ] (s : Statistics)
    (generation : Except Error κ) : Except Error κ × Statistics :=
  match generation with
  | .error e => (.error e, s)
  | .ok kernel =>
    match s.recordKernel kernel with
    | .error o => (.error (.overflow o), s)
    | .ok stats => (.ok kernel, stats)

def assembleKernel (code : Code) : Except Error MachineCode :=
  code.assemble.mapError fun e => .badParameter (.branch e)

/-- The machine that calls generated code, by the name of its architecture. -/
structure Host where
  arch : String
  deriving DecidableEq, Repr

namespace Host

def isNative (host : Host) : Bool := host.arch == "aarch64"

def ensureNative (host : Host) : Except Error Unit :=
  if host.isNative then .ok () else .error (.unsupportedHost host.arch)

end Host

def checkStrides (named : List (String × Nat)) : Except Error Unit :=
  named.forM fun entry =>
    require (entry.2 < 0x8000000000000000) (.strideTooWide entry.1 entry.2)

def Strides.check (s : Strides) : Except Error Unit := checkStrides (Strides.names.zip s.toList)

end TensorKernels
