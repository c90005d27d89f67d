import TensorKernels.Error
import TensorKernels.Nest.Loop

/-!
Contractions: an element type, the kinds of the main kernel and of the kernels around it, and the
loops from the outermost to the innermost. The numbers of the loops may also come as separate
arrays of signed numbers, one entry a loop.
-/

namespace TensorKernels

structure Contraction where
  dtype : DataType := .f32
  first : Primitive := .none
  main : Primitive
  last : Primitive := .none
  loops : List Loop
  deriving DecidableEq, Repr

structure LoopArrays where
  roles : List Role
  execs : List Exec
  sizes : List Int
  in0 : List Int
  in1 : List Int
  out : List Int
  deriving DecidableEq, Repr

namespace LoopArrays

def entry (kind : LoopEntry) (i : Nat) (value : Int) : Except Error Nat :=
  if value < 0 then refuse (.negativeEntry kind i value) else .ok value.toNat

def loopsFrom (i : Nat) : List Role → List Exec → List Int → List Int → List Int → List Int →
    Except Error (List Loop)
  | role :: roles, exec :: execs, size :: sizes, in0 :: in0s, in1 :: in1s, out :: outs => do
    let size ← entry .size i size
    let in0 ← entry (.stride .in0) i in0
    let in1 ← entry (.stride .in1) i in1
    let out ← entry (.stride .out) i out
    return ⟨role, exec, size, ⟨in0, in1, out⟩⟩ ::
      (← loopsFrom (i + 1) roles execs sizes in0s in1s outs)
  | _, _, _, _, _, _ => .ok []

def loops (a : LoopArrays) : Except Error (List Loop) := do
  let others := [a.execs.length, a.sizes.length, a.in0.length, a.in1.length, a.out.length]
  require (others.all (· == a.roles.length)) (.arrayLengths a.roles.length others)
  loopsFrom 0 a.roles a.execs a.sizes a.in0 a.in1 a.out

end LoopArrays

namespace Contraction

def kernelStart (c : Contraction) : Nat := c.loops.findIdx Loop.isKernel

end Contraction

end TensorKernels
