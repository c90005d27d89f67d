import TensorKernels.Elementwise.Kernel
import TensorKernels.Gemm.Kernel
import TensorKernels.Nest.Walk

/-!
Compiled contractions: a plan with the kernels generated for it and the account of their
generation.
-/

namespace TensorKernels

inductive AnyKernel
  | gemm (kernel : Gemm.Kernel)
  | elementwise (kernel : Elementwise.Kernel)
  deriving DecidableEq, Repr

namespace AnyKernel

instance : HasCode AnyKernel where
  family
    | .gemm kernel => HasCode.family kernel
    | .elementwise kernel => HasCode.family kernel
  symbol
    | .gemm kernel => HasCode.symbol kernel
    | .elementwise kernel => HasCode.symbol kernel
  code
    | .gemm kernel => kernel.code
    | .elementwise kernel => kernel.code
  text
    | .gemm kernel => HasCode.text kernel
    | .elementwise kernel => HasCode.text kernel

end AnyKernel

structure Compiled where
  plan : Plan
  main : AnyKernel
  first : Option Elementwise.Kernel
  last : Option Elementwise.Kernel
  statistics : Statistics
  deriving DecidableEq, Repr

namespace Compiled

def mainKernel (p : Plan) : Except Error AnyKernel :=
  let loops := p.kernelLoops
  let m := loops.m.loop.size
  let n := loops.n.loop.size
  match p.contraction.main.elementwise? with
  | some op => do
    return .elementwise (← Elementwise.Kernel.generate op m n p.contraction.dtype)
  | none => do
    return .gemm (← Gemm.Kernel.generate
      { m, n, k := KernelLoops.extent loops.k, batch := KernelLoops.extent loops.batch
        dtype := p.contraction.dtype })

def touchKernel (p : Plan) (kind : Primitive) : Except Error (Option Elementwise.Kernel) :=
  match kind.elementwise? with
  | none => .ok none
  | some op => do
    let loops := p.kernelLoops
    return some (← Elementwise.Kernel.generate op loops.m.loop.size loops.n.loop.size .f32)

def kernels (c : Compiled) : List AnyKernel :=
  c.main :: (c.first.toList ++ c.last.toList).map AnyKernel.elementwise

def ofPlan (p : Plan) : Except Error Compiled := do
  let main ← mainKernel p
  let first ← touchKernel p p.contraction.first
  let last ← touchKernel p p.contraction.last
  p.strides.check
  let compiled : Compiled := ⟨p, main, first, last, {}⟩
  let statistics ← (compiled.kernels.foldlM Statistics.recordKernel {} : Except Overflow Statistics)
  return { compiled with statistics }

def checkLengths (c : Compiled) (lengths : Offsets) : Except Error Unit := do
  let needs := c.plan.extents
  require (needs.in0 ≤ lengths.in0) (.operandTooShort .in0 lengths.in0 needs.in0)
  require (needs.in1 ≤ lengths.in1) (.operandTooShort .in1 lengths.in1 needs.in1)
  require (needs.out ≤ lengths.out) (.operandTooShort .out lengths.out needs.out)

def execute (c : Compiled) (host : Host) (lengths : Offsets) : Except Error Unit := do
  c.checkLengths lengths
  host.ensureNative

def executeParallel (c : Compiled) (host : Host) (lengths : Offsets) : Except Error Unit := do
  require (c.plan.sharedCount == 0 || c.plan.outputDistinct) .overlappingTasks
  c.execute host lengths

end Compiled

end TensorKernels
