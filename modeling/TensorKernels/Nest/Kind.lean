import TensorKernels.Kernel.Kind

/-!
How the loops of a contraction take part in it, and the kinds of kernel it may use.
-/

namespace TensorKernels

/-- Role of a loop: an axis of every operand, a row axis of the first input and the output, a column
axis of the second input and the output, or a reduction axis of both inputs. -/
inductive Role
  | c
  | m
  | n
  | k
  deriving DecidableEq, Repr

def Role.text : Role → String
  | .c => "C"
  | .m => "M"
  | .n => "N"
  | .k => "K"

/-- Execution of a loop: walked in order, absorbed by the kernel, or distributed over tasks. -/
inductive Exec
  | seq
  | prim
  | shared
  deriving DecidableEq, Repr

def Exec.text : Exec → String
  | .seq => "Seq"
  | .prim => "Prim"
  | .shared => "Shared"

inductive Primitive
  | none
  | zero
  | copy
  | relu
  | gemm
  | brgemm
  | transpose
  deriving DecidableEq, Repr

namespace Primitive

def text : Primitive → String
  | .none => "None"
  | .zero => "Zero"
  | .copy => "Copy"
  | .relu => "Relu"
  | .gemm => "Gemm"
  | .brgemm => "Brgemm"
  | .transpose => "Transpose"

def surrounds : Primitive → Bool
  | .none | .zero | .copy | .relu => true
  | .gemm | .brgemm | .transpose => false

def isProduct : Primitive → Bool
  | .gemm | .brgemm => true
  | _ => false

def elementwise? : Primitive → Option Elementwise.Op
  | .zero => some .zero
  | .copy => some .identity
  | .relu => some .relu
  | .transpose => some .transpose
  | .none | .gemm | .brgemm => Option.none

end Primitive

inductive Operand
  | in0
  | in1
  | out
  deriving DecidableEq, Repr

def Operand.text : Operand → String
  | .in0 => "in0"
  | .in1 => "in1"
  | .out => "out"

/-- The kernel that prepares an output block before its first contribution, or completes it after
its last. -/
inductive Touch
  | first
  | last
  deriving DecidableEq, Repr

def Touch.text : Touch → String
  | .first => "first"
  | .last => "last"

end TensorKernels
