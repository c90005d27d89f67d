/-!
What kernels work on and compute: element types, extents, and the elementwise operations with their
names.
-/

namespace TensorKernels

/-- Element type. Only single precision has generated code. -/
inductive DataType
  | f32
  | f64
  deriving DecidableEq, Repr

namespace DataType

def bytes : DataType → Nat
  | .f32 => 4
  | .f64 => 8

def text : DataType → String
  | .f32 => "F32"
  | .f64 => "F64"

end DataType

def maxExtent : Nat := 0xFFFFFFFF

def inExtentRange (value : Nat) : Bool := 0 < value && value ≤ maxExtent

namespace Elementwise

inductive Op
  | zero
  | identity
  | relu
  | transpose
  deriving DecidableEq, Repr

namespace Op

def name : Op → String
  | .zero => "zero"
  | .identity => "identity"
  | .relu => "relu"
  | .transpose => "transpose"

def text : Op → String
  | .zero => "Zero"
  | .identity => "Identity"
  | .relu => "Relu"
  | .transpose => "Transpose"

def ofName? : String → Option Op
  | "zero" => some .zero
  | "identity" | "copy" => some .identity
  | "relu" => some .relu
  | "transpose" => some .transpose
  | _ => none

def needsInput : Op → Bool
  | .zero => false
  | _ => true

end Op

end Elementwise

end TensorKernels
