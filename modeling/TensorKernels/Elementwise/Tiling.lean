import TensorKernels.Kernel.Tile

/-!
Tiling of an elementwise kernel's grid. Each extent is kept whole or cut at its highest power of
two, which cuts the grid into four regions, and every region that is not empty gets the best of the
tiles that divide it and fit the register file. The choice is made by a comparison of tiles, so
that the regions partition the grid whatever the comparison answers.
-/

namespace TensorKernels.Elementwise

/-- A rectangle of the grid and the tile it is cut into, none when it has no cell. -/
structure Region where
  row : Nat
  col : Nat
  rows : Nat
  cols : Nat
  tile : Option Tile
  deriving DecidableEq, Repr

structure Tiling where
  main : Region
  right : Region
  lower : Region
  corner : Region
  deriving DecidableEq, Repr

namespace Tiling

def regions (t : Tiling) : List Region := [t.main, t.right, t.lower, t.corner]

def cut (extent : Nat) : Nat × Nat :=
  if extent < maxTileExtent ∨ extent % vectorLanes = 0 then (extent, 0)
  else (1 <<< extent.log2, extent - 1 <<< extent.log2)

theorem cut_add (extent : Nat) : (cut extent).1 + (cut extent).2 = extent := by
  unfold cut
  split
  · rfl
  · rename_i h
    have pos : extent ≠ 0 := by
      intro zero
      exact h (.inl (by simp [zero, maxTileExtent]))
    have := Nat.log2_self_le pos
    simp only
    omega

def divisors (extent : Nat) : List Nat :=
  ((List.range (min extent maxTileExtent)).map (· + 1)).filter fun d => extent % d == 0

theorem mem_divisors {extent d : Nat} :
    d ∈ divisors extent ↔ 0 < d ∧ d ≤ extent ∧ d ≤ maxTileExtent ∧ extent % d = 0 := by
  simp only [divisors, List.mem_filter, List.mem_map, List.mem_range, beq_iff_eq]
  constructor
  · rintro ⟨⟨i, hi, rfl⟩, hd⟩
    omega
  · rintro ⟨pos, hd, hm, hr⟩
    exact ⟨⟨d - 1, by omega, by omega⟩, hr⟩

def candidates (rows cols : Nat) : List Tile :=
  ((divisors rows).flatMap fun r => (divisors cols).map fun c => ⟨r, c⟩).filter
    fun t => t.regsWithZero ≤ vectorRegisters

/-- The first tile that no other candidate is better than, starting from a single cell. -/
def choose (better : Tile → Tile → Bool) (rows cols : Nat) : Tile :=
  (candidates rows cols).foldl (fun best t => if better t best then t else best) ⟨1, 1⟩

def region (better : Tile → Tile → Bool) (row col rows cols : Nat) : Region :=
  ⟨row, col, rows, cols,
    if rows = 0 ∨ cols = 0 then none else some (choose better rows cols)⟩

def ofComparison (better : Tile → Tile → Bool) (rows cols : Nat) : Tiling :=
  let (mainRows, restRows) := cut rows
  let (mainCols, restCols) := cut cols
  ⟨region better 0 0 mainRows mainCols, region better 0 mainCols mainRows restCols,
    region better mainRows 0 restRows mainCols, region better mainRows mainCols restRows restCols⟩

def lowerScore (t best : Tile) : Bool := t.score < best.score

def ofGrid (rows cols : Nat) : Tiling := ofComparison lowerScore rows cols

end Tiling

end TensorKernels.Elementwise
