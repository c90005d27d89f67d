import TensorKernels.Gemm.Code
import TensorKernels.Kernel.Basic

/-!
Matrix product kernels: generation from a shape, and the checks of a call's operands and strides.
-/

namespace TensorKernels.Gemm

structure Kernel where
  shape : Shape
  tiling : Tiling
  code : MachineCode
  deriving DecidableEq, Repr

namespace Kernel

instance : HasCode Kernel where
  family kernel := kernel.shape.family
  symbol kernel :=
    let s := kernel.shape
    s.family ++ "_" ++ toString s.m ++ "x" ++ toString s.n ++ "x" ++ toString s.k ++ "_br" ++
      toString s.batch
  code kernel := kernel.code
  text kernel :=
    Text.record "GemmKernel"
      [("shape", kernel.shape.text), ("tiling", kernel.tiling.text),
        ("code", (CodeBuffer.ofWords kernel.code.words).text)]

def generate (shape : Shape) : Except Error Kernel := do
  shape.validate
  let tiling := Tiling.ofOutput shape.m shape.n
  let code ← assembleKernel (kernelCode shape tiling)
  return ⟨shape, tiling, code⟩

def checkOperand (operand : GemmOperand) (needs : Option Nat) (holds : Nat) : Except Error Unit :=
  require (needs.any (· ≤ holds)) (.gemmOperand operand holds needs)

def checkCall (kernel : Kernel) (a b c : Nat) (strides : Strides) : Except Error Unit := do
  let s := kernel.shape
  require (s.m ≤ strides.lda && s.k ≤ strides.ldb && s.m ≤ strides.ldc)
    (.gemmLeading strides s.m s.n s.k)
  checkOperand .a (Count.span s.m [(s.k, strides.lda), (s.batch, strides.batchA)]) a
  checkOperand .b (Count.span s.k [(s.n, strides.ldb), (s.batch, strides.batchB)]) b
  checkOperand .c (Count.span s.m [(s.n, strides.ldc)]) c

def call (kernel : Kernel) (host : Host) (a b c : Nat) (strides : Strides) : Except Error Unit := do
  kernel.checkCall a b c strides
  host.ensureNative
  strides.check

end Kernel

end TensorKernels.Gemm
