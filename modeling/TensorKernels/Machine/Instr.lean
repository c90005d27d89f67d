import TensorKernels.Machine.BitField
import TensorKernels.Machine.Register

/-!
The A64 instruction forms that kernels are made of, and their encoding. Every word is a fixed
opcode joined with operand fields; an operand is kept to the width of its field, so an immediate
out of range loses its high bits.
-/

namespace TensorKernels

inductive AddressMode
  | offset
  | preIndex
  | postIndex
  deriving DecidableEq, Repr

namespace AddressMode

def pairBits : AddressMode → Nat
  | .postIndex => 1
  | .offset => 2
  | .preIndex => 3

def singleBits : AddressMode → Nat
  | .postIndex => 1
  | .offset => 0
  | .preIndex => 3

end AddressMode

inductive Shift
  | lsl
  | lsr
  | asr
  deriving DecidableEq, Repr

def Shift.code : Shift → Nat
  | .lsl => 0
  | .lsr => 1
  | .asr => 2

inductive Transfer
  | load
  | store
  deriving DecidableEq, Repr

def Transfer.bit : Transfer → Nat
  | .load => 1
  | .store => 0

/-- One instruction. Offsets are in bytes, branch displacements in words. -/
inductive Instr
  | mov (rd rm : GeneralReg)
  | movz (rd : GeneralReg) (imm hw : Nat)
  | movk (rd : GeneralReg) (imm hw : Nat)
  | addImm (rd rn : GeneralReg) (imm : Nat) (lsl12 : Bool)
  | subImm (rd rn : GeneralReg) (imm : Nat) (lsl12 : Bool)
  | addReg (rd rn rm : GeneralReg) (shift : Shift) (amount : Nat)
  | subReg (rd rn rm : GeneralReg) (shift : Shift) (amount : Nat)
  | lslImm (rd rn : GeneralReg) (amount : Nat)
  | lsrImm (rd rn : GeneralReg) (amount : Nat)
  | madd (rd rn rm ra : GeneralReg)
  | mul (rd rn rm : GeneralReg)
  | cbz (rt : GeneralReg) (displacement : Int)
  | cbnz (rt : GeneralReg) (displacement : Int)
  | b (displacement : Int)
  | ret
  | nop
  | transfer (dir : Transfer) (rt rn : GeneralReg) (offset : Int) (mode : AddressMode)
  | transferV (dir : Transfer) (size : AccessSize) (rt : VectorReg) (rn : GeneralReg)
      (offset : Int) (mode : AddressMode)
  | transferPair (dir : Transfer) (size : AccessSize) (rt rt2 : VectorReg) (rn : GeneralReg)
      (offset : Int) (mode : AddressMode)
  | transferLane (dir : Transfer) (rt : VectorReg) (lane : Nat) (rn : GeneralReg) (post : Bool)
  | fmlaElem (arr : Arrangement) (rd rn rm : VectorReg) (lane : Nat)
  | fmax (arr : Arrangement) (rd rn rm : VectorReg)
  | moviZero (arr : Arrangement) (rd : VectorReg)
  deriving DecidableEq, Repr

namespace Instr

def putGeneral (f : BitField) (r : GeneralReg) : Word := f.put r.id.val

def putVector (f : BitField) (r : VectorReg) : Word := f.put r.id.val

def encodeAddImm (opcode : Word) (rd rn : GeneralReg) (imm : Nat) (lsl12 : Bool) : Word :=
  opcode ||| BitField.sf.put rd.sf ||| BitField.sh.put lsl12.toNat ||| BitField.imm12.put imm |||
    putGeneral BitField.rn rn ||| putGeneral BitField.rd rd

def encodeAddReg (opcode : Word) (rd rn rm : GeneralReg) (shift : Shift) (amount : Nat) : Word :=
  opcode ||| BitField.sf.put rd.sf ||| BitField.shift.put shift.code |||
    putGeneral BitField.rm rm ||| BitField.imm6.put amount ||| putGeneral BitField.rn rn |||
    putGeneral BitField.rd rd

def encodeUbfm (rd rn : GeneralReg) (immr imms : Nat) : Word :=
  0x53000000#32 ||| BitField.sf.put rd.sf ||| BitField.n.put rd.sf ||| BitField.immr.put immr |||
    BitField.imms.put imms ||| putGeneral BitField.rn rn ||| putGeneral BitField.rd rd

def encodeMadd (rd rn rm ra : GeneralReg) : Word :=
  0x1B000000#32 ||| BitField.sf.put rd.sf ||| putGeneral BitField.rm rm |||
    putGeneral BitField.ra ra ||| putGeneral BitField.rn rn ||| putGeneral BitField.rd rd

def encodeCompareBranch (opcode : Word) (rt : GeneralReg) (displacement : Int) : Word :=
  opcode ||| BitField.sf.put rt.sf ||| BitField.imm19.putInt displacement |||
    putGeneral BitField.rt rt

/-- Address part of a single-register transfer: a scaled 12-bit offset, or an unscaled 9-bit one
when the base is updated. -/
def encodeAddress (scale : Nat) (offset : Int) (mode : AddressMode) : Word :=
  match mode with
  | .offset => 0x01000000#32 ||| BitField.imm12.putInt (offset >>> scale)
  | _ => BitField.singleMode.put mode.singleBits ||| BitField.imm9.putInt offset

def encodeTransfer (dir : Transfer) (rt rn : GeneralReg) (offset : Int) (mode : AddressMode) :
    Word :=
  let size := 2 + rt.sf
  (BitVec.ofNat 32 size <<< 30) ||| 0x38000000#32 ||| BitField.load.put dir.bit |||
    encodeAddress size offset mode ||| putGeneral BitField.rn rn ||| putGeneral BitField.rt rt

def accessBits : AccessSize → Word
  | .s => 2#32 <<< 30
  | .d => 3#32 <<< 30
  | .q => 1#32 <<< 23

def encodeTransferV (dir : Transfer) (size : AccessSize) (rt : VectorReg) (rn : GeneralReg)
    (offset : Int) (mode : AddressMode) : Word :=
  accessBits size ||| 0x3C000000#32 ||| BitField.load.put dir.bit |||
    encodeAddress size.scale offset mode ||| putGeneral BitField.rn rn ||| putVector BitField.rt rt

def encodeTransferPair (dir : Transfer) (size : AccessSize) (rt rt2 : VectorReg) (rn : GeneralReg)
    (offset : Int) (mode : AddressMode) : Word :=
  0x2C000000#32 ||| (BitVec.ofNat 32 (size.scale - 2) <<< 30) |||
    BitField.pairMode.put mode.pairBits ||| BitField.load.put dir.bit |||
    BitField.imm7.putInt (offset >>> size.scale) |||
    putVector BitField.rt2 rt2 ||| putGeneral BitField.rn rn ||| putVector BitField.rt rt

def encodeTransferLane (dir : Transfer) (rt : VectorReg) (lane : Nat) (rn : GeneralReg)
    (post : Bool) : Word :=
  0x0D008000#32 ||| BitField.q.put (lane >>> 1) ||| BitField.post.put post.toNat |||
    BitField.load.put dir.bit ||| BitField.rm.put (if post then 31 else 0) |||
    BitField.laneS.put lane ||| putGeneral BitField.rn rn ||| putVector BitField.rt rt

def encode : Instr → Word
  | .mov rd rm =>
      0x2A0003E0#32 ||| BitField.sf.put rd.sf ||| putGeneral BitField.rm rm |||
        putGeneral BitField.rd rd
  | .movz rd imm hw =>
      0x52800000#32 ||| BitField.sf.put rd.sf ||| BitField.hw.put hw ||| BitField.imm16.put imm |||
        putGeneral BitField.rd rd
  | .movk rd imm hw =>
      0x72800000#32 ||| BitField.sf.put rd.sf ||| BitField.hw.put hw ||| BitField.imm16.put imm |||
        putGeneral BitField.rd rd
  | .addImm rd rn imm lsl12 => encodeAddImm 0x11000000#32 rd rn imm lsl12
  | .subImm rd rn imm lsl12 => encodeAddImm 0x51000000#32 rd rn imm lsl12
  | .addReg rd rn rm shift amount => encodeAddReg 0x0B000000#32 rd rn rm shift amount
  | .subReg rd rn rm shift amount => encodeAddReg 0x4B000000#32 rd rn rm shift amount
  | .lslImm rd rn amount =>
      let bits := rd.bits
      let s := amount % bits
      encodeUbfm rd rn ((bits - s) % bits) (bits - 1 - s)
  | .lsrImm rd rn amount => encodeUbfm rd rn amount (rd.bits - 1)
  | .madd rd rn rm ra => encodeMadd rd rn rm ra
  | .mul rd rn rm => encodeMadd rd rn rm GeneralReg.zero
  | .cbz rt displacement => encodeCompareBranch 0x34000000#32 rt displacement
  | .cbnz rt displacement => encodeCompareBranch 0x35000000#32 rt displacement
  | .b displacement => 0x14000000#32 ||| BitField.imm26.putInt displacement
  | .ret => 0xD65F03C0#32
  | .nop => 0xD503201F#32
  | .transfer dir rt rn offset mode => encodeTransfer dir rt rn offset mode
  | .transferV dir size rt rn offset mode => encodeTransferV dir size rt rn offset mode
  | .transferPair dir size rt rt2 rn offset mode =>
      encodeTransferPair dir size rt rt2 rn offset mode
  | .transferLane dir rt lane rn post => encodeTransferLane dir rt lane rn post
  | .fmlaElem arr rd rn rm lane =>
      0x0F801000#32 ||| BitField.q.put arr.q ||| BitField.elemL.put lane |||
        putVector BitField.rm rm ||| BitField.elemH.put (lane >>> 1) |||
        putVector BitField.rn rn ||| putVector BitField.rd rd
  | .fmax arr rd rn rm =>
      0x0E20F400#32 ||| BitField.q.put arr.q ||| BitField.sz.put arr.sz |||
        putVector BitField.rm rm ||| putVector BitField.rn rn ||| putVector BitField.rd rd
  | .moviZero .d2 rd => 0x6F00E400#32 ||| putVector BitField.rd rd
  | .moviZero arr rd => 0x0F000400#32 ||| BitField.q.put arr.q ||| putVector BitField.rd rd

end Instr

end TensorKernels
