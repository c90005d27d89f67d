import TensorKernels.Text.Record
import TensorKernels.Kernel.Tile

/-!
Tiling of a matrix product's output. Rows are taken sixteen at a time; as many columns as the
registers allow go into one tile, and the columns that are left over form a narrower one.
-/

namespace TensorKernels.Gemm

structure Tiling where
  big : Tile
  small : Tile
  bigRegs : Nat
  smallRegs : Nat
  fullRowTiles : Nat
  rowRemainder : Nat
  deriving DecidableEq, Repr

namespace Tiling

def maxColumns : Nat := 30

/-- The most columns, at most the given number and at least one of them, that fit the register file
when a column takes `columnRegs` registers. -/
def widest (columnRegs : Nat) : Nat → Nat
  | 0 => 0
  | n + 1 =>
    if n = 0 ∨ columnRegs * (n + 1) + columnRegs + 1 ≤ vectorRegisters then n + 1
    else widest columnRegs n

def ofOutput (m n : Nat) : Tiling :=
  let rows := min m maxTileExtent
  let columnRegs := (Tile.mk rows 0).columnRegs
  let cols := min (widest columnRegs maxColumns) n
  let rest := if cols = 0 then 0 else n % cols
  { big := ⟨rows, cols⟩
    small := ⟨rows, rest⟩
    bigRegs := columnRegs * cols
    smallRegs := columnRegs * rest
    fullRowTiles := if maxTileExtent < m then m / maxTileExtent else if 0 < m then 1 else 0
    rowRemainder := if maxTileExtent < m then m % maxTileExtent else 0 }

def fullBlocks (t : Tiling) (n : Nat) : Nat :=
  if t.big.cols = 0 then 0 else n / t.big.cols

def text (t : Tiling) : String :=
  Text.record "GemmTiling"
    [("big", t.big.text), ("small", t.small.text), ("big_regs", toString t.bigRegs),
      ("small_regs", toString t.smallRegs), ("full_m_tiles", toString t.fullRowTiles),
      ("m_remainder", toString t.rowRemainder)]

end Tiling

end TensorKernels.Gemm
