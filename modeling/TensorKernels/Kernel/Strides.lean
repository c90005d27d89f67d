import TensorKernels.Overflow
import TensorKernels.Text.Record

/-!
The strides of a kernel call, in elements: the column strides of the two inputs and the output, and
the distance from one pair of inputs to the next in a batch.
-/

namespace TensorKernels

structure Strides where
  lda : Nat := 0
  ldb : Nat := 0
  ldc : Nat := 0
  batchA : Nat := 0
  batchB : Nat := 0
  deriving DecidableEq, Repr

namespace Strides

def toList (s : Strides) : List Nat := [s.lda, s.ldb, s.ldc, s.batchA, s.batchB]

def names : List String := ["lda", "ldb", "ldc", "batch_stride_a", "batch_stride_b"]

def text (name : String) (s : Strides) : String :=
  Text.record name (names.zip (s.toList.map toString))

end Strides

end TensorKernels
