/-!
Register operands. A general register carries its width, from which the `sf` bit of an instruction
is derived; SIMD registers are numbered modulo 32, as register lists wrap.
-/

namespace TensorKernels

inductive Width
  | w32
  | x64
  deriving DecidableEq, Repr

def Width.bits : Width → Nat
  | .w32 => 32
  | .x64 => 64

/-- There are 32 registers of each kind. The zero is the one that numbers modulo 32 ask for. -/
instance registers_ne_zero : @NeZero Nat Zero.ofOfNat0 32 := ⟨by decide⟩

/-- A general register. Number 31 is the zero register in data positions and the stack pointer in
address positions. -/
structure GeneralReg where
  id : Fin 32
  width : Width
  deriving DecidableEq, Repr

namespace GeneralReg

def x (n : Nat) : GeneralReg := ⟨Fin.ofNat 32 n, .x64⟩

def w (n : Nat) : GeneralReg := ⟨Fin.ofNat 32 n, .w32⟩

def sp : GeneralReg := x 31

def zero : GeneralReg := x 31

def sf (r : GeneralReg) : Nat :=
  match r.width with
  | .w32 => 0
  | .x64 => 1

def bits (r : GeneralReg) : Nat := r.width.bits

def text (r : GeneralReg) : String :=
  match r.width with
  | .x64 => if r.id = 31 then "xzr" else "x" ++ toString r.id.val
  | .w32 => if r.id = 31 then "wzr" else "w" ++ toString r.id.val

end GeneralReg

structure VectorReg where
  id : Fin 32
  deriving DecidableEq, Repr

namespace VectorReg

def ofNat (n : Nat) : VectorReg := ⟨Fin.ofNat 32 n⟩

def offset (r : VectorReg) (n : Nat) : VectorReg := ofNat (r.id.val + n)

def text (r : VectorReg) : String := "v" ++ toString r.id.val

end VectorReg

inductive Arrangement
  | s2
  | s4
  | d2
  deriving DecidableEq, Repr

def Arrangement.q : Arrangement → Nat
  | .s2 => 0
  | .s4 | .d2 => 1

def Arrangement.sz : Arrangement → Nat
  | .s2 | .s4 => 0
  | .d2 => 1

inductive AccessSize
  | s
  | d
  | q
  deriving DecidableEq, Repr

def AccessSize.scale : AccessSize → Nat
  | .s => 2
  | .d => 3
  | .q => 4

end TensorKernels
