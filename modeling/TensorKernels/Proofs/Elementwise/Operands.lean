import TensorKernels.Kernel.Kind
import TensorKernels.Proofs.Assembly.Frame
import TensorKernels.Proofs.Kernel.Layout

/-!
The operands of an elementwise operation in memory. The input is apart from the output or is the
output itself, so the elements of the input that belong to cells not stored yet are as at the start.
-/

namespace TensorKernels.Elementwise

variable {F : Type} [Lane F]

/-- What an operation makes of an element; a transpose only moves it. -/
def Op.apply : Op → F → F
  | .zero, _ => Lane.zero
  | .relu, v => Lane.max v Lane.zero
  | .identity, v | .transpose, v => v

theorem Op.apply_congr {op : Op} {v v' : F} (h : op.needsInput = true → v = v') :
    op.apply v = op.apply v' := by
  cases op with
  | zero => rfl
  | identity | relu | transpose => rw [h rfl]

structure Arguments where
  input : Layout
  output : Layout

/-- What a caller owes: columns of the output that do not overlap, an output that does not wrap, and
operands apart from the saved registers. An input that is read is the output or apart from it. -/
structure Arguments.Admissible (x : Arguments) (op : Op) (m n : ℕ) (sp : Address) : Prop where
  proper : x.output.Proper m n
  output : Disjoint (x.output.cells m n) (Sequence.saveArea sp)
  input : op.needsInput = true → Disjoint (x.input.cells m n) (Sequence.saveArea sp)
  apart : op.needsInput = true →
    x.input = x.output ∨ Disjoint (x.input.cells m n) (x.output.cells m n)

def Arguments.result (x : Arguments) (op : Op) (mem : Memory) (i j : ℕ) : F :=
  op.apply (mem.lane (x.input.cell i j))

theorem Arguments.Admissible.result_eq {x : Arguments} {op : Op} {m n : ℕ} {sp : Address}
    (hx : x.Admissible op m n sp) {start mem : Memory} {done : ℕ → ℕ → Prop}
    (h : x.output.Progress m n (x.result op start : ℕ → ℕ → F) start done mem) {i j : ℕ}
    (hi : i < m) (hj : j < n) (hpending : ¬done i j) :
    x.result op mem i j = (x.result op start i j : F) := by
  refine Op.apply_congr fun hop => ?_
  rcases hx.apart hop with hsame | hapart
  · rw [hsame]
    exact h.pending i hi j hj hpending
  · exact Memory.lane_congr h.outside (hapart.mono_left (Layout.region_subset_cells hi hj))

end TensorKernels.Elementwise
