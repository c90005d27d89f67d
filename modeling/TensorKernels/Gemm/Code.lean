import TensorKernels.Gemm.Shape
import TensorKernels.Gemm.Tiling
import TensorKernels.Kernel.Column

/-!
Code of a batch-reduce matrix product. The output is cut into column blocks and these into row
tiles; a tile's accumulators stay in registers over the whole reduction, which loads one column of
the left operand and one scalar of the right operand at a time.
-/

namespace TensorKernels.Gemm

/-! The register plan. The first two arguments become the running operand pointers once they have
been copied; the strides are turned into bytes in place. -/

namespace Reg

def left : GeneralReg := GeneralReg.x 0
def right : GeneralReg := GeneralReg.x 1
def out : GeneralReg := GeneralReg.x 2
def leftStride : GeneralReg := GeneralReg.x 3
def rightStride : GeneralReg := GeneralReg.x 4
def outStride : GeneralReg := GeneralReg.x 5
def leftBatch : GeneralReg := GeneralReg.x 6
def rightBatch : GeneralReg := GeneralReg.x 7

def tileLeft : GeneralReg := GeneralReg.x 8

def blockRight : GeneralReg := GeneralReg.x 9

def tileOut : GeneralReg := GeneralReg.x 10

def blockCount : GeneralReg := GeneralReg.x 11
def rowCount : GeneralReg := GeneralReg.x 12
def batchCount : GeneralReg := GeneralReg.x 13
def depthCount : GeneralReg := GeneralReg.x 14

def cursor : GeneralReg := GeneralReg.x 15

def laneAddress : GeneralReg := GeneralReg.x 16
def scratch : GeneralReg := GeneralReg.x 17

end Reg

def accumulator (t : Tile) (j : Nat) : VectorReg := VectorReg.ofNat (j * t.columnRegs)

def leftColumn (t : Tile) : VectorReg := VectorReg.ofNat (t.cols * t.columnRegs)

def rightScalar (t : Tile) : VectorReg := VectorReg.ofNat (t.cols * t.columnRegs + t.columnRegs)

def accumulators (t : Tile) : List VectorReg := (List.range t.cols).map (accumulator t)

def transferTile (dir : Transfer) (t : Tile) : List Instr :=
  .mov Reg.cursor Reg.tileOut ::
    Column.transferAll dir (accumulators t) t.rows Reg.cursor Reg.outStride Reg.laneAddress

def stepColumn : Nat → List Instr
  | 0 => []
  | 1 => [.addReg Reg.cursor Reg.right Reg.rightStride .lsl 0]
  | _ => [.addReg Reg.cursor Reg.cursor Reg.rightStride .lsl 0]

def updateColumn (t : Tile) (j : Nat) : List Instr :=
  stepColumn j ++
    .transferV .load .s (rightScalar t) (if j = 0 then Reg.right else Reg.cursor) 0 .offset ::
      (List.range t.columnRegs).map fun r =>
        .fmlaElem .s4 ((accumulator t j).offset r) ((leftColumn t).offset r) (rightScalar t) 0

def depthStep (t : Tile) : List Instr :=
  Column.transfer .load (leftColumn t) t.rows Reg.left Reg.laneAddress ++
    (List.range t.cols).flatMap (updateColumn t) ++
    [.addReg Reg.left Reg.left Reg.leftStride .lsl 0,
      .addImm Reg.right Reg.right elementBytes false]

def depthLoop (k : Nat) (t : Tile) : Code := .loop Reg.depthCount k (.run (depthStep t))

def reduction (s : Shape) (t : Tile) : Code :=
  if 1 < s.batch then
    .loop Reg.batchCount s.batch
      (depthLoop s.k t ++
        .run [.addReg Reg.left Reg.left Reg.leftBatch .lsl 0,
          .addReg Reg.right Reg.right Reg.rightBatch .lsl 0])
  else depthLoop s.k t

def moveRows (bytes : Int) : List Instr :=
  Sequence.addConstant Reg.tileLeft Reg.tileLeft bytes Reg.scratch ++
    Sequence.addConstant Reg.tileOut Reg.tileOut bytes Reg.scratch

/-- One output tile: load, reduce, store. With `advance` the row pointers then move down to the next
tile. -/
def tileCode (s : Shape) (t : Tile) (advance : Bool) : Code :=
  .run (transferTile .load t ++ [.mov Reg.left Reg.tileLeft, .mov Reg.right Reg.blockRight]) ++
    reduction s t ++
    .run (transferTile .store t ++ if advance then moveRows (t.rows * elementBytes) else [])

/-- Row tiles that move the row pointers. A tile that is alone, or below the full ones, leaves them
where they are. -/
def loopedTiles (tiling : Tiling) : Nat :=
  if tiling.rowRemainder = 0 ∧ tiling.fullRowTiles = 1 then 0 else tiling.fullRowTiles

def columnBlock (s : Shape) (tiling : Tiling) (columns : Nat) : Code :=
  let full : Tile := ⟨tiling.big.rows, columns⟩
  let looped := loopedTiles tiling
  let covered := looped * tiling.big.rows * elementBytes
  .loop Reg.rowCount looped (tileCode s full true) ++
    (if 0 < tiling.rowRemainder then tileCode s ⟨tiling.rowRemainder, columns⟩ false
      else if looped = 0 then tileCode s full false
      else Code.skip) ++
    .run (moveRows (-(covered : Int)) ++
      Sequence.addMultiple Reg.tileOut Reg.tileOut columns Reg.outStride Reg.scratch ++
      Sequence.addMultiple Reg.blockRight Reg.blockRight columns Reg.rightStride Reg.scratch)

def columnBlocks (s : Shape) (tiling : Tiling) (columns blocks : Nat) : Code :=
  if columns = 0 ∨ blocks = 0 then Code.skip
  else .loop Reg.blockCount blocks (columnBlock s tiling columns)

/-- Copies the operand pointers and turns the strides into bytes. For a batch, the distance that the
running pointers cover in one reduction is taken off the batch strides. -/
def staging (s : Shape) : List Instr :=
  [.mov Reg.tileLeft Reg.left, .mov Reg.blockRight Reg.right, .mov Reg.tileOut Reg.out] ++
    [Reg.leftStride, Reg.rightStride, Reg.outStride, Reg.leftBatch, Reg.rightBatch].map
      (fun r => .lslImm r r 2) ++
    if 1 < s.batch then
      Sequence.loadConstant Reg.scratch s.k ++
        [.mul Reg.laneAddress Reg.scratch Reg.leftStride,
          .subReg Reg.leftBatch Reg.leftBatch Reg.laneAddress .lsl 0,
          .subReg Reg.rightBatch Reg.rightBatch Reg.scratch .lsl 2]
    else []

def kernelCode (s : Shape) (tiling : Tiling) : Code :=
  .run (Sequence.saveVectors ++ staging s) ++
    columnBlocks s tiling tiling.big.cols (tiling.fullBlocks s.n) ++
    columnBlocks s tiling tiling.small.cols (if 0 < tiling.small.cols then 1 else 0) ++
    .run Sequence.restoreAndReturn

end TensorKernels.Gemm
