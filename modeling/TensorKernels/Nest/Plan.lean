import TensorKernels.Kernel.Strides
import TensorKernels.Nest.Normalize

/-!
Plans of contractions. A contraction whose loops are in normal form is checked and everything the
kernels need is derived from it: the kernel's loops and their positions, the strides handed to the
kernel, how many loops are shared, how many elements each operand must hold, and whether the output
elements of different non-reduction indices are distinct.
-/

namespace TensorKernels

structure PlacedLoop where
  index : Nat
  loop : Loop
  deriving DecidableEq, Repr

structure KernelLoops where
  m : PlacedLoop
  n : PlacedLoop
  k : Option PlacedLoop
  batch : Option PlacedLoop
  deriving DecidableEq, Repr

namespace KernelLoops

def extent (l : Option PlacedLoop) : Nat := (l.map (·.loop.size)).getD 1

def text (ids : KernelLoops) : String :=
  Text.record "PrimIds"
    [("m", toString ids.m.index), ("n", toString ids.n.index),
      ("k", Text.optional (ids.k.map (·.index))),
      ("batch", Text.optional (ids.batch.map (·.index)))]

end KernelLoops

structure Plan where
  contraction : Contraction
  kernelLoops : KernelLoops
  strides : Strides
  kernelStart : Nat
  sharedCount : Nat
  extents : Offsets
  outputDistinct : Bool
  deriving DecidableEq, Repr

namespace Plan

def checkTouch (main : Primitive) (touch : Touch) (kind : Primitive) : Except Error Unit := do
  require kind.surrounds (.touchKind touch kind)
  require (kind == .none || main.isProduct) (.touchWithoutGemm touch main)

def checkShared (shared : Nat) (placed : PlacedLoop) : Except Error Unit := do
  let l := placed.loop
  if l.exec == .shared then
    require (placed.index < shared) (.sharedAfterSequential placed.index)
    require (l.role != .k && l.strides.out != 0) (.sharedOverlapping placed.index)

structure Found where
  m : Option PlacedLoop := none
  n : Option PlacedLoop := none
  ks : List PlacedLoop := []

def Found.add (f : Found) (p : PlacedLoop) : Except Error Found :=
  match p.loop.role with
  | .m => if f.m.isSome then refuse (.repeatedPrimitive .m) else .ok { f with m := some p }
  | .n => if f.n.isSome then refuse (.repeatedPrimitive .n) else .ok { f with n := some p }
  | .k => .ok { f with ks := f.ks ++ [p] }
  | .c => refuse (.primitiveC p.index)

/-- Whether a loop has no stride in the operand that its role does not index. -/
def independent (l : Loop) : Bool :=
  match l.role with
  | .m => l.strides.in1 == 0
  | .n => l.strides.in0 == 0
  | .k => l.strides.out == 0
  | .c => true

def reductions (main : Primitive) (ks : List PlacedLoop) :
    Except Error (PlacedLoop × Option PlacedLoop) :=
  match main, ks with
  | .gemm, [k] => .ok (k, none)
  | .brgemm, [batch, k] => .ok (k, some batch)
  | .brgemm, ks => refuse (.reductionCount .brgemm 2 ks.length)
  | main, ks => refuse (.reductionCount main 1 ks.length)

def productLoops (main : Primitive) (placed inner : List PlacedLoop) :
    Except Error (KernelLoops × Strides) := do
  let found ← inner.foldlM Found.add {}
  match found.m, found.n with
  | some m, some n =>
    let (k, batch) ← reductions main found.ks
    match placed.find? fun p => !independent p.loop with
    | some p => refuse (.strayStride p.index p.loop.role)
    | none =>
      require (m.loop.strides.in0 == 1 && m.loop.strides.out == 1) .strideOfM
      require (k.loop.strides.in1 == 1) .strideOfK
      return (⟨m, n, some k, batch⟩,
        { lda := k.loop.strides.in0
          ldb := n.loop.strides.in1
          ldc := n.loop.strides.out
          batchA := (batch.map (·.loop.strides.in0)).getD 0
          batchB := (batch.map (·.loop.strides.in1)).getD 0 })
  | _, _ => refuse .missingMN

def elementwiseLoops (main : Primitive) (inner : List PlacedLoop) :
    Except Error (KernelLoops × Strides) :=
  match inner with
  | [a, b] =>
    if main = .transpose then do
      let (m, n) := if a.loop.strides.in0 = 1 then (a, b) else (b, a)
      require (m.loop.strides.in0 == 1 && n.loop.strides.out == 1) .transposeStrides
      return (⟨m, n, none, none⟩, { lda := n.loop.strides.in0, ldc := m.loop.strides.out })
    else do
      require (a.loop.strides.out == 1 && (main == .zero || a.loop.strides.in0 == 1))
        .leadingStride
      return (⟨a, b, none, none⟩, { lda := b.loop.strides.in0, ldc := b.loop.strides.out })
  | _ => refuse (.elementwiseLoopCount main)

def spanOf (loops : List Loop) (stride : Offsets → Nat) : Except Error Nat :=
  match Count.span 1 (loops.map fun l => (l.size, stride l.strides)) with
  | some n => .ok n
  | none => refuse .extentTooLarge

def extentsOf (main : Primitive) (loops : List Loop) : Except Error Offsets := do
  let in0 ← spanOf loops (·.in0)
  let in1 ← spanOf loops (·.in1)
  let out ← spanOf loops (·.out)
  return ⟨if main = .zero then 0 else in0, if main.elementwise?.isSome then 0 else in1, out⟩

def axisBefore (a b : Nat × Nat) : Bool := a.1 < b.1 || (a.1 == b.1 && a.2 ≤ b.2)

def nested : Nat → List (Nat × Nat) → Bool
  | _, [] => true
  | covered, (stride, size) :: rest =>
    let reach := (size - 1) * stride
    decide (covered ≤ stride) && decide (reach + covered < Count.limit) &&
      nested (reach + covered) rest

/-- Whether the output strides of the non-reduction loops nest, so that different indices address
different output elements. -/
def outputNests (loops : List Loop) : Bool :=
  nested 1 (((loops.filter fun l => l.role != .k && 1 < l.size).map fun l =>
    (l.strides.out, l.size)).mergeSort axisBefore)

/-- Derives the plan of a contraction in normal form. -/
def ofContraction (c : Contraction) : Except Error Plan := do
  require (c.dtype == .f32) (.nestType c.dtype)
  require (c.main != .none) .noMain
  checkTouch c.main .first c.first
  checkTouch c.main .last c.last
  match c.loops.findIdx? (fun l => l.size == 0) with
  | some i => refuse (.emptyLoop i)
  | none =>
    let placed := c.loops.zipIdx.map fun entry => PlacedLoop.mk entry.2 entry.1
    let inner := placed.drop c.kernelStart
    require (inner.all (·.loop.isKernel)) .primitiveNotTrailing
    let shared := (c.loops.takeWhile fun l => l.exec == .shared).length
    (placed.take c.kernelStart).forM (checkShared shared)
    let (kernelLoops, strides) ←
      if c.main.isProduct then productLoops c.main placed inner else elementwiseLoops c.main inner
    let extents ← extentsOf c.main c.loops
    return ⟨c, kernelLoops, strides, c.kernelStart, shared, extents, outputNests c.loops⟩

def normalize (p : Plan) (parallel : Bool) : Except Error Plan := do
  ofContraction (← p.contraction.normalize parallel)

def text (p : Plan) : String :=
  Text.record "Layout"
    [("prim", p.kernelLoops.text), ("leading", p.strides.text "LeadingDims"),
      ("first_prim", toString p.kernelStart), ("shared", toString p.sharedCount),
      ("extents", Text.list p.extents.toList), ("disjoint_output", Text.flag p.outputDistinct)]

end Plan

end TensorKernels
