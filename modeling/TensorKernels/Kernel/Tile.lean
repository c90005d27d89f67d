import TensorKernels.Overflow

/-!
Register tiles. A tile keeps each of its columns in as many SIMD registers as the rows need, four
rows a register. The sizes are exact natural numbers; the checked forms refuse a product or sum
that does not fit a count.
-/

namespace TensorKernels

def vectorRegisters : Nat := 32

def vectorLanes : Nat := 4

def maxTileExtent : Nat := 16

def elementBytes : Nat := 4

structure Tile where
  rows : Nat
  cols : Nat
  deriving DecidableEq, Repr

namespace Tile

def columnRegs (t : Tile) : Nat := (t.rows + (vectorLanes - 1)) / vectorLanes

def regs (t : Tile) : Nat := t.columnRegs * t.cols

def isEmpty (t : Tile) : Bool := t.rows == 0 || t.cols == 0

def regsWithZero (t : Tile) : Nat := t.regs + 1

/-- Registers of a matrix product tile: accumulators, one column of the left operand and one scalar
of the right one. -/
def regsForProduct (t : Tile) : Nat := t.regs + t.columnRegs + 1

def regsChecked (t : Tile) : Except Overflow Nat := Count.mul t.columnRegs t.cols

def regsWithZeroChecked (t : Tile) : Except Overflow Nat := do
  Count.add (← t.regsChecked) 1

def regsForProductChecked (t : Tile) : Except Overflow Nat := do
  Count.add (← Count.add (← t.regsChecked) t.columnRegs) 1

theorem regsChecked_eq_ok {t : Tile} (h : t.regs < Count.limit) : t.regsChecked = .ok t.regs :=
  Count.mul_eq_ok_iff.2 ⟨rfl, h⟩

theorem regsWithZeroChecked_eq_ok {t : Tile} (h : t.regsWithZero < Count.limit) :
    t.regsWithZeroChecked = .ok t.regsWithZero := by
  have hregs : t.regs < Count.limit := Nat.lt_of_succ_lt h
  rw [regsWithZeroChecked, regsChecked_eq_ok hregs]
  exact Count.add_eq_ok_iff.2 ⟨rfl, h⟩

theorem regsForProductChecked_eq_ok {t : Tile} (h : t.regsForProduct < Count.limit) :
    t.regsForProductChecked = .ok t.regsForProduct := by
  have hcolumn : t.regs + t.columnRegs < Count.limit := Nat.lt_of_succ_lt h
  have hregs : t.regs < Count.limit := Nat.lt_of_le_of_lt (Nat.le_add_right _ _) hcolumn
  have hsum : Count.add t.regs t.columnRegs = .ok (t.regs + t.columnRegs) :=
    Count.add_eq_ok_iff.2 ⟨rfl, hcolumn⟩
  rw [regsForProductChecked, regsChecked_eq_ok hregs]
  exact (congrArg (· >>= fun sum => Count.add sum 1) hsum).trans (Count.add_eq_ok_iff.2 ⟨rfl, h⟩)

def toDouble (n : Nat) : Float := n.toUInt64.toFloat

/-- What elementwise tiles are ranked by, lower first: the share of registers left unused, and the
ratio of columns to rows. -/
def score (t : Tile) : Float :=
  let free := toDouble vectorRegisters - toDouble t.regsWithZero
  1.2 * (free / toDouble vectorRegisters) + 0.45 * (toDouble t.cols / toDouble t.rows)

def scoreChecked (t : Tile) : Except Overflow Float := do
  let _ ← t.regsWithZeroChecked
  return t.score

def text (t : Tile) : String :=
  "TileShape \x7b m: " ++ toString t.rows ++ ", n: " ++ toString t.cols ++ " \x7d"

end Tile

end TensorKernels
