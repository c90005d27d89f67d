import TensorKernels.Error

/-!
Shapes of batch-reduce matrix products: a batch of products of an `m × k` and a `k × n` matrix is
added to an `m × n` output, all of them column-major.
-/

namespace TensorKernels.Gemm

structure Shape where
  m : Nat
  n : Nat
  k : Nat
  batch : Nat := 1
  transA : Bool := false
  transB : Bool := false
  transC : Bool := false
  dtype : DataType := .f32
  deriving DecidableEq, Repr

namespace Shape

def text (s : Shape) : String :=
  Text.record "BrgemmShape"
    [("m", toString s.m), ("n", toString s.n), ("k", toString s.k), ("batch", toString s.batch),
      ("trans_a", Text.flag s.transA), ("trans_b", Text.flag s.transB),
      ("trans_c", Text.flag s.transC), ("dtype", s.dtype.text)]

def validate (s : Shape) : Except Error Unit := do
  require (!(s.transA || s.transB || s.transC)) .transposedGemm
  require (s.dtype == .f32) (.gemmType s.dtype)
  require (inExtentRange s.m) (.gemmSize .m s.m)
  require (inExtentRange s.n) (.gemmSize .n s.n)
  require (inExtentRange s.k) (.gemmSize .k s.k)
  require (inExtentRange s.batch) (.gemmSize .batch s.batch)

def denseStrides (s : Shape) : Except Overflow Strides := do
  let batchA ← Count.mul s.m s.k
  let batchB ← Count.mul s.k s.n
  return ⟨s.m, s.k, s.m, batchA, batchB⟩

def family (s : Shape) : String := if 1 < s.batch then "brgemm" else "gemm"

end Shape

end TensorKernels.Gemm
