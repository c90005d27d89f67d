import TensorKernels.Elementwise.Tiling
import TensorKernels.Kernel.Column
import TensorKernels.Kernel.Kind

/-!
Code of the elementwise operations on column-major matrices. All but the transpose work on register
tiles, region by region; the transpose moves one element at a time.
-/

namespace TensorKernels.Elementwise

namespace Reg

def input : GeneralReg := GeneralReg.x 0
def output : GeneralReg := GeneralReg.x 1
def inputStride : GeneralReg := GeneralReg.x 2
def outputStride : GeneralReg := GeneralReg.x 3

def tileIn : GeneralReg := GeneralReg.x 8

def tileOut : GeneralReg := GeneralReg.x 9

def columnCount : GeneralReg := GeneralReg.x 11
def rowCount : GeneralReg := GeneralReg.x 12

def cursor : GeneralReg := GeneralReg.x 15

def laneAddress : GeneralReg := GeneralReg.x 16
def scratch : GeneralReg := GeneralReg.x 17

def element : GeneralReg := GeneralReg.w 16

def zeros : VectorReg := VectorReg.ofNat 31

end Reg

def columns (t : Tile) : List VectorReg :=
  (List.range t.cols).map fun j => VectorReg.ofNat (j * t.columnRegs)

def tileRegisters (t : Tile) : List VectorReg := (List.range t.regs).map VectorReg.ofNat

def regionBase (dst base : GeneralReg) (region : Region) (stride : GeneralReg) : List Instr :=
  Sequence.addMultiple dst base region.col stride Reg.scratch ++
    Sequence.addConstant dst dst ((region.row * elementBytes : Nat) : Int) Reg.scratch

def moveRows (op : Op) (bytes : Int) : List Instr :=
  (if op.needsInput then Sequence.addConstant Reg.tileIn Reg.tileIn bytes Reg.scratch else []) ++
    Sequence.addConstant Reg.tileOut Reg.tileOut bytes Reg.scratch

/-- One tile: load it unless the operation ignores its input, apply the operation, store it, and
move down when there are further tiles below. -/
def tileCode (op : Op) (t : Tile) (walksRows : Bool) : List Instr :=
  (if op.needsInput then
    .mov Reg.cursor Reg.tileIn ::
      Column.transferAll .load (columns t) t.rows Reg.cursor Reg.inputStride Reg.laneAddress
  else []) ++
  (if op = .relu then (tileRegisters t).map fun r => .fmax .s4 r r Reg.zeros else []) ++
  (.mov Reg.cursor Reg.tileOut ::
    Column.transferAll .store (columns t) t.rows Reg.cursor Reg.outputStride Reg.laneAddress) ++
  (if walksRows then moveRows op ((t.rows * elementBytes : Nat) : Int) else [])

def nextColumns (op : Op) (t : Tile) (covered : Nat) : List Instr :=
  let step (pointer stride : GeneralReg) : List Instr :=
    Sequence.addConstant pointer pointer (-(covered : Int)) Reg.scratch ++
      Sequence.addMultiple pointer pointer t.cols stride Reg.scratch
  (if op.needsInput then step Reg.tileIn Reg.inputStride else []) ++
    step Reg.tileOut Reg.outputStride

def regionCode (op : Op) (region : Region) (t : Tile) : Code :=
  let rowTiles := region.rows / t.rows
  let walksRows : Bool := 1 < rowTiles
  .run ((if op.needsInput then regionBase Reg.tileIn Reg.input region Reg.inputStride else []) ++
      regionBase Reg.tileOut Reg.output region Reg.outputStride) ++
    .loop Reg.columnCount (region.cols / t.cols)
      (.loop Reg.rowCount rowTiles (.run (tileCode op t walksRows)) ++
        .run (nextColumns op t (if walksRows then region.rows * elementBytes else 0)))

/-- Registers that hold zeros throughout: those of the largest tile when zeros are written, and the
one that values are clamped against. -/
def preparation (op : Op) (tiling : Tiling) : List Instr :=
  match op with
  | .relu => [.moviZero .s4 Reg.zeros]
  | .zero =>
    let regs := (tiling.regions.filterMap (·.tile)).foldl (fun most t => max most t.regs) 0
    (List.range regs).map fun r => .moviZero .s4 (VectorReg.ofNat r)
  | _ => []

def tiledCode (op : Op) (tiling : Tiling) : Code :=
  .run (Sequence.saveVectors ++
      [.lslImm Reg.inputStride Reg.inputStride 2, .lslImm Reg.outputStride Reg.outputStride 2] ++
      preparation op tiling) ++
    Code.concat (tiling.regions.map fun region =>
      match region.tile with
      | none => Code.skip
      | some t => regionCode op region t) ++
    .run Sequence.restoreAndReturn

/-- Reads the input column by column and scatters each column over a row of the output. -/
def transposeCode (m n : Nat) : Code :=
  .run [.lslImm Reg.inputStride Reg.inputStride 2, .lslImm Reg.outputStride Reg.outputStride 2,
      .mov Reg.tileIn Reg.input, .mov Reg.tileOut Reg.output] ++
    .loop Reg.columnCount n
      (.run [.mov Reg.cursor Reg.tileOut] ++
        .loop Reg.rowCount m
          (.run [.transfer .load Reg.element Reg.tileIn elementBytes .postIndex,
            .transfer .store Reg.element Reg.cursor 0 .offset,
            .addReg Reg.cursor Reg.cursor Reg.outputStride .lsl 0]) ++
        .run (Sequence.addConstant Reg.tileIn Reg.tileIn (-((m * elementBytes : Nat) : Int))
            Reg.scratch ++
          [.addReg Reg.tileIn Reg.tileIn Reg.inputStride .lsl 0,
            .addImm Reg.tileOut Reg.tileOut elementBytes false])) ++
    .run [.ret]

def kernelCode (op : Op) (m n : Nat) : Code :=
  match op with
  | .transpose => transposeCode m n
  | _ => tiledCode op (Tiling.ofGrid m n)

end TensorKernels.Elementwise
