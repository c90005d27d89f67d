import TensorKernels.Assembly.Basic

/-!
Structured kernel code: straight runs of instructions, sequences and counted loops. `assemble`
lowers the loops to labels and backward branches.
-/

namespace TensorKernels

inductive Code
  | run (is : List Instr)
  | seq (first second : Code)
  | loop (counter : GeneralReg) (trips : Nat) (body : Code)
  deriving Repr

namespace Code

def skip : Code := .run []

instance : Append Code := ⟨Code.seq⟩

def concat (pieces : List Code) : Code := pieces.foldr Code.seq skip

def emitTo : Code → Assembly → Assembly
  | .run is, a => a.emitAll is
  | .seq first second, a => second.emitTo (first.emitTo a)
  | .loop counter trips body, a => a.loop counter trips body.emitTo

def assemble (code : Code) : Except BranchError MachineCode := (code.emitTo Assembly.empty).link

end Code

end TensorKernels
