import TensorKernels.Machine.Instr

/-!
Short instruction sequences that every kernel needs: loading a constant, adding a constant or a
multiple of a stride to a pointer, and saving the SIMD registers that a callee must preserve.
-/

namespace TensorKernels.Sequence

def halfwords (rd : GeneralReg) (value : Nat) : List (Nat × Nat) :=
  (List.range (rd.bits / 16)).map fun hw => (hw, (value >>> (16 * hw)) % 65536)

/-- Loads `value` into `rd`: a `movz` for the lowest nonzero part and a `movk` for each further
one. A value whose nonzero parts all lie above the register emits nothing. -/
def loadConstant (rd : GeneralReg) (value : Nat) : List Instr :=
  if value = 0 then [.movz rd 0 0]
  else
    match (halfwords rd value).filter (fun part => part.2 != 0) with
    | [] => []
    | (hw, imm) :: rest => .movz rd imm hw :: rest.map fun part => .movk rd part.2 part.1

def copy (rd rn : GeneralReg) : List Instr :=
  if rd = rn then [] else [.mov rd rn]

/-- `rd = rn + value`. The register `scratch` is written when `value` fits neither a 12-bit
immediate nor one shifted by 12. -/
def addConstant (rd rn : GeneralReg) (value : Int) (scratch : GeneralReg) : List Instr :=
  let magnitude := value.natAbs
  if magnitude = 0 then copy rd rn
  else if magnitude < 0x1000 then
    [if value < 0 then .subImm rd rn magnitude false else .addImm rd rn magnitude false]
  else if magnitude % 0x1000 = 0 ∧ magnitude < 0x1000000 then
    [if value < 0 then .subImm rd rn (magnitude / 0x1000) true
      else .addImm rd rn (magnitude / 0x1000) true]
  else
    loadConstant scratch magnitude ++
      [if value < 0 then .subReg rd rn scratch .lsl 0 else .addReg rd rn scratch .lsl 0]

/-- `rd = rn + count * stride` for a stride held in a register. The register `scratch` is written
when `count` is neither zero nor a power of two. -/
def addMultiple (rd rn : GeneralReg) (count : Nat) (stride scratch : GeneralReg) : List Instr :=
  if count = 0 then copy rd rn
  else if count = 1 <<< count.log2 then [.addReg rd rn stride .lsl count.log2]
  else loadConstant scratch count ++ [.madd rd scratch stride rn]

def calleeSaved : List (VectorReg × VectorReg) :=
  [(8, 9), (10, 11), (12, 13), (14, 15)].map fun pair =>
    (VectorReg.ofNat pair.1, VectorReg.ofNat pair.2)

def saveVectors : List Instr :=
  calleeSaved.map fun pair => .transferPair .store .d pair.1 pair.2 GeneralReg.sp (-16) .preIndex

def restoreAndReturn : List Instr :=
  calleeSaved.reverse.map (fun pair =>
    .transferPair .load .d pair.1 pair.2 GeneralReg.sp 16 .postIndex) ++ [.ret]

end TensorKernels.Sequence
