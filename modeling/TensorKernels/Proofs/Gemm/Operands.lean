import TensorKernels.Proofs.Assembly.Frame
import TensorKernels.Proofs.Gemm.Reduction
import TensorKernels.Proofs.Kernel.Layout

/-!
The operands of a matrix product in memory. The output is a column-major matrix apart from the other
operands, so the elements that have not been stored yet come out the same as at the start.
-/

namespace TensorKernels.Gemm

open Column

structure Arguments where
  left : Address
  right : Address
  out : Address
  leftStride : BitVec 64
  rightStride : BitVec 64
  outStride : BitVec 64
  leftBatch : BitVec 64
  rightBatch : BitVec 64

namespace Arguments

variable (x : Arguments)

def leftCell (i l br : ℕ) : Address := x.left + 4 * (i + l * x.leftStride + br * x.leftBatch)

def rightCell (l j br : ℕ) : Address := x.right + 4 * (l + j * x.rightStride + br * x.rightBatch)

theorem leftCell_zero : x.leftCell 0 0 0 = x.left := by
  rw [leftCell, Nat.cast_zero, zero_mul, zero_mul, add_zero, add_zero, mul_zero, add_zero]

theorem rightCell_zero : x.rightCell 0 0 0 = x.right := by
  rw [rightCell, Nat.cast_zero, zero_mul, zero_mul, add_zero, add_zero, mul_zero, add_zero]

def output : Layout := ⟨x.out, x.outStride⟩

/-- What a caller owes: columns of the output that do not overlap, an output that does not wrap, and
operands apart from the output and all of them from the saved registers. -/
structure Admissible (shape : Shape) (sp : Address) : Prop where
  proper : x.output.Proper shape.m shape.n
  left : ∀ i < shape.m, ∀ l < shape.k, ∀ br < shape.batch,
    Disjoint (Memory.region (x.leftCell i l br) 4)
      (x.output.cells shape.m shape.n ∪ Sequence.saveArea sp)
  right : ∀ l < shape.k, ∀ j < shape.n, ∀ br < shape.batch,
    Disjoint (Memory.region (x.rightCell l j br) 4)
      (x.output.cells shape.m shape.n ∪ Sequence.saveArea sp)
  out : Disjoint (x.output.cells shape.m shape.n) (Sequence.saveArea sp)

end Arguments

variable {F : Type} [Lane F]

/-- What the product leaves at row `i` and column `j` of the output, from the memory it starts in. -/
def Arguments.result (x : Arguments) (shape : Shape) (m : Memory) (i j : ℕ) : F :=
  reduceBatch shape.batch shape.k (fun br l => m.lane (x.leftCell i l br))
    (fun br l => m.lane (x.rightCell l j br)) (m.lane (x.output.cell i j))

theorem Arguments.result_congr {x : Arguments} {shape : Shape} {m m' : Memory} {i j : ℕ}
    (hleft : ∀ l < shape.k, ∀ br < shape.batch,
      m.lane (x.leftCell i l br) = (m'.lane (x.leftCell i l br) : F))
    (hright : ∀ l < shape.k, ∀ br < shape.batch,
      m.lane (x.rightCell l j br) = (m'.lane (x.rightCell l j br) : F))
    (hout : m.lane (x.output.cell i j) = (m'.lane (x.output.cell i j) : F)) :
    x.result shape m i j = (x.result shape m' i j : F) := by
  rw [result, result, hout]
  exact reduceBatch_congr _ (fun br hbr l hl => hleft l hl br hbr)
    fun br hbr l hl => hright l hl br hbr

theorem Arguments.Admissible.result_eq {x : Arguments} {shape : Shape} {sp : Address}
    (hx : x.Admissible shape sp) {start mem : Memory} {done : ℕ → ℕ → Prop}
    (h : x.output.Progress shape.m shape.n (x.result shape start : ℕ → ℕ → F) start done mem)
    {i j : ℕ} (hi : i < shape.m) (hj : j < shape.n) (hpending : ¬done i j) :
    x.result shape mem i j = (x.result shape start i j : F) :=
  Arguments.result_congr
    (fun l hl br hbr => Memory.lane_congr h.outside
      ((hx.left i hi l hl br hbr).mono_right Set.subset_union_left))
    (fun l hl br hbr => Memory.lane_congr h.outside
      ((hx.right l hl j hj br hbr).mono_right Set.subset_union_left))
    (h.pending i hi j hj hpending)

end TensorKernels.Gemm
