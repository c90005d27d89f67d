import TensorKernels.Nest.Kind
import TensorKernels.Overflow

/-!
Loops of a contraction. A loop advances every operand by its stride; a zero stride means that the
operand does not depend on the loop.
-/

namespace TensorKernels

/-- One count for each operand: strides, offsets or extents. -/
structure Offsets where
  in0 : Nat
  in1 : Nat
  out : Nat
  deriving DecidableEq, Repr

namespace Offsets

def zero : Offsets := ⟨0, 0, 0⟩

def toList (o : Offsets) : List Nat := [o.in0, o.in1, o.out]

def scale (o : Offsets) (factor : Nat) : Except Overflow Offsets := do
  let in0 ← Count.mul o.in0 factor
  let in1 ← Count.mul o.in1 factor
  let out ← Count.mul o.out factor
  return ⟨in0, in1, out⟩

def advance (base : Offsets) (index : Nat) (strides : Offsets) : Except Overflow Offsets := do
  let in0 ← Count.add base.in0 (← Count.mul index strides.in0)
  let in1 ← Count.add base.in1 (← Count.mul index strides.in1)
  let out ← Count.add base.out (← Count.mul index strides.out)
  return ⟨in0, in1, out⟩

end Offsets

structure Loop where
  role : Role
  exec : Exec
  size : Nat
  strides : Offsets
  deriving DecidableEq, Repr

namespace Loop

def isKernel (l : Loop) : Bool := l.exec == .prim

end Loop

end TensorKernels
