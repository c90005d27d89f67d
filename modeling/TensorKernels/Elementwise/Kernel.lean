import TensorKernels.Elementwise.Code
import TensorKernels.Kernel.Basic

/-!
Elementwise kernels: writing zeros, copying, clamping at zero and transposing, with the checks of a
call's operands and strides.
-/

namespace TensorKernels.Elementwise

structure Kernel where
  op : Op
  m : Nat
  n : Nat
  code : MachineCode
  deriving DecidableEq, Repr

namespace Kernel

instance : HasCode Kernel where
  family kernel := kernel.op.name
  symbol kernel := kernel.op.name ++ "_" ++ toString kernel.m ++ "x" ++ toString kernel.n
  code kernel := kernel.code
  text kernel :=
    Text.record "UnaryKernel"
      [("op", kernel.op.text), ("m", toString kernel.m), ("n", toString kernel.n),
        ("code", (CodeBuffer.ofWords kernel.code.words).text)]

def opNamed (name : String) : Except Error Op :=
  match Op.ofName? name with
  | some op => .ok op
  | none => refuse (.unknownOp name)

def generate (op : Op) (m n : Nat) (dtype : DataType) : Except Error Kernel := do
  require (dtype == .f32) (.elementwiseType dtype)
  require (inExtentRange m && inExtentRange n) (.elementwiseSize m n)
  let code ← assembleKernel (kernelCode op m n)
  return ⟨op, m, n, code⟩

def outputShape (kernel : Kernel) : Nat × Nat :=
  match kernel.op with
  | .transpose => (kernel.n, kernel.m)
  | _ => (kernel.m, kernel.n)

/-- Checks the arguments of a call: an input of the given length, if there is one, and an output. -/
def checkCall (kernel : Kernel) (input : Option Nat) (output ldIn ldOut : Nat) :
    Except Error Unit := do
  let (rows, cols) := kernel.outputShape
  require (rows ≤ ldOut) (.outputLeading ldOut rows)
  let needs := Count.span rows [(cols, ldOut)]
  require (needs.any (· ≤ output)) (.outputTooShort output needs)
  match input with
  | some input =>
    require (kernel.m ≤ ldIn) (.inputLeading ldIn kernel.m)
    let needs := Count.span kernel.m [(kernel.n, ldIn)]
    require (needs.any (· ≤ input)) (.inputTooShort input needs)
  | none => require (!kernel.op.needsInput) (.inputMissing kernel.op)

def call (kernel : Kernel) (host : Host) (input : Option Nat) (output ldIn ldOut : Nat) :
    Except Error Unit := do
  kernel.checkCall input output ldIn ldOut
  host.ensureNative
  checkStrides [("ld_a", ldIn), ("ld_b", ldOut)]

end Kernel

end TensorKernels.Elementwise
