import TensorKernels.Proofs.Kernel.Column

/-!
Column-major matrices in memory. The elements of a matrix are apart from one another when its columns
do not overlap and it does not wrap around the address space, so a tile that is stored into it changes
the elements of the tile and no other byte. A kernel stores its results tile by tile; which of them
are done says all about the memory that it has come to. A tile lies in registers column by column,
and moves between them and a matrix through a pointer to its first element.
-/

namespace TensorKernels

structure Layout where
  base : Address
  stride : BitVec 64

/-- Whether row `i'` and column `j'` are in the tile that starts at row `i` and column `j`. -/
def InTile (t : Tile) (i j i' j' : ℕ) : Prop :=
  (i ≤ i' ∧ i' < i + t.rows) ∧ j ≤ j' ∧ j' < j + t.cols

namespace Layout

open Column

variable (l : Layout)

def cell (i j : ℕ) : Address := l.base + 4 * (i + j * l.stride)

theorem cell_zero : l.cell 0 0 = l.base := by
  rw [cell, Nat.cast_zero, zero_mul, add_zero, mul_zero, add_zero]

theorem cell_add (i j row : ℕ) : l.cell i j + (4 * row : ℕ) = l.cell (i + row) j := by
  rw [cell, cell]
  push_cast
  grind

theorem cell_add_column (i j k : ℕ) :
    l.cell i j + (k : BitVec 64) * (4 * l.stride) = l.cell i (j + k) := by
  rw [cell, cell]
  push_cast
  grind

def cells (m n : ℕ) : Set Address := {y | ∃ i < m, ∃ j < n, y ∈ Memory.region (l.cell i j) 4}

variable {l} {m n : ℕ}

theorem region_subset_cells {i j : ℕ} (hi : i < m) (hj : j < n) :
    Memory.region (l.cell i j) 4 ⊆ l.cells m n := fun _ hy => ⟨i, hi, j, hj, hy⟩

/-- Columns of `m` rows that do not overlap, and `n` of them that do not wrap around. -/
structure Proper (l : Layout) (m n : ℕ) : Prop where
  stride : m ≤ l.stride.toNat
  noWrap : l.base.toNat + 4 * (m - 1 + (n - 1) * l.stride.toNat + 1) ≤ 2 ^ 64

section Proper

variable (hl : l.Proper m n)
include hl

theorem distance_of_mem_cell {i j : ℕ} (hi : i < m) (hj : j < n) {y : Address}
    (hy : y ∈ Memory.region (l.cell i j) 4) :
    Memory.distance l.base y / 4 = j * l.stride.toNat + i := by
  have hstride : ((l.stride.toNat : ℕ) : BitVec 64) = l.stride := by
    rw [BitVec.natCast_eq_ofNat, BitVec.ofNat_toNat, BitVec.setWidth_eq]
  have hcell : l.cell i j + (Memory.distance (l.cell i j) y : ℕ) =
      l.base + ((4 * (j * l.stride.toNat + i) + Memory.distance (l.cell i j) y : ℕ) :
        BitVec 64) := by
    rw [cell]
    push_cast
    rw [hstride]
    grind
  have hbound := hl.noWrap
  have hmul := Nat.mul_le_mul_right l.stride.toNat (by omega : j ≤ n - 1)
  rw [Memory.mem_region] at hy
  rw [← Memory.add_distance (l.cell i j) y, hcell, Memory.distance_add l.base (by omega)]
  omega

theorem cell_disjoint {i j i' j' : ℕ} (hi : i < m) (hj : j < n) (hi' : i' < m) (hj' : j' < n)
    (h : i ≠ i' ∨ j ≠ j') :
    Disjoint (Memory.region (l.cell i j) 4) (Memory.region (l.cell i' j') 4) := by
  rw [Set.disjoint_left]
  intro y hy hy'
  have hindex := (distance_of_mem_cell hl hi hj hy).symm.trans (distance_of_mem_cell hl hi' hj' hy')
  have hstride := hl.stride
  by_cases hcol : j = j'
  · subst hcol
    omega
  · exact index_ne hcol (by omega) (by omega) hindex

theorem cell_disjoint_rows {i j i' j' rows : ℕ} (hi : i < m) (hj : j < n) (hi' : i' + rows ≤ m)
    (hj' : j' < n) (h : j = j' → ¬(i' ≤ i ∧ i < i' + rows)) :
    Disjoint (Memory.region (l.cell i j) 4) (Memory.region (l.cell i' j') (4 * rows)) := by
  rw [Set.disjoint_left]
  intro y hy hy'
  obtain ⟨row, hrow, hy'⟩ := Memory.exists_mem_region hy'
  rw [cell_add] at hy'
  refine Set.disjoint_left.1 (cell_disjoint hl hi hj (by omega) hj' ?_) hy hy'
  by_cases hcol : j = j'
  · have := h hcol
    omega
  · exact Or.inr hcol

end Proper

section Store

variable {F : Type} [Lane F]

def storeTile (l : Layout) (t : Tile) (i j : ℕ) (columns : ℕ → ℕ → F) (mem : Memory) : Memory :=
  fillColumns mem (l.cell i j) (4 * l.stride) t.rows ((List.range t.cols).map columns)

variable {t : Tile} {i₀ j₀ : ℕ} (hi : i₀ + t.rows ≤ m) (hj : j₀ + t.cols ≤ n)
  (columns : ℕ → ℕ → F) (mem : Memory)
include hi hj

theorem storeTile_of_notMem {y : Address} (hy : y ∉ l.cells m n) :
    l.storeTile t i₀ j₀ columns mem y = mem y := by
  refine fillColumns_of_notMem fun k hk hmem => ?_
  rw [List.length_map, List.length_range] at hk
  rw [cell_add_column] at hmem
  obtain ⟨row, hrow, hmem⟩ := Memory.exists_mem_region hmem
  rw [cell_add] at hmem
  exact hy ⟨i₀ + row, by omega, j₀ + k, by omega, hmem⟩

variable (hl : l.Proper m n) {i j : ℕ} (hi' : i < m) (hj' : j < n)
include hl hi' hj'

theorem lane_storeTile_of_not (hout : ¬InTile t i₀ j₀ i j) :
    (l.storeTile t i₀ j₀ columns mem).lane (l.cell i j) = (mem.lane (l.cell i j) : F) := by
  rw [InTile] at hout
  refine lane_fillColumns_of_disjoint fun k hk => ?_
  rw [List.length_map, List.length_range] at hk
  rw [cell_add_column]
  exact cell_disjoint_rows hl hi' hj' hi (by omega) (by omega)

theorem lane_storeTile (ht : 4 * t.rows ≤ 2 ^ 64) (hin : InTile t i₀ j₀ i j) :
    (l.storeTile t i₀ j₀ columns mem).lane (l.cell i j) = columns (j - j₀) (i - i₀) := by
  obtain ⟨⟨hlo, hhi⟩, hlo', hhi'⟩ := hin
  obtain ⟨row, rfl⟩ := Nat.exists_eq_add_of_le hlo
  obtain ⟨k, rfl⟩ := Nat.exists_eq_add_of_le hlo'
  have hcolumn : ((List.range t.cols).map columns)[k]? = some (columns k) := by
    rw [List.getElem?_map, List.getElem?_range (by omega), Option.map_some]
  rw [Nat.add_sub_cancel_left, Nat.add_sub_cancel_left, ← cell_add, ← cell_add_column]
  refine lane_fillColumns hcolumn (by omega) ht fun k' hk' hne => ?_
  rw [List.length_map, List.length_range] at hk'
  rw [cell_add_column, cell_add_column, cell_add]
  exact cell_disjoint_rows hl hi' hj' hi (by omega) (by omega)

end Store

section Progress

variable {F : Type} [Lane F]

/-- The memory in which the results of the cells that are done have been stored, from `start` on. -/
structure Progress (l : Layout) (m n : ℕ) (result : ℕ → ℕ → F) (start : Memory)
    (done : ℕ → ℕ → Prop) (mem : Memory) : Prop where
  computed : ∀ i < m, ∀ j < n, done i j → mem.lane (l.cell i j) = result i j
  pending : ∀ i < m, ∀ j < n, ¬done i j → mem.lane (l.cell i j) = (start.lane (l.cell i j) : F)
  outside : ∀ y ∉ l.cells m n, mem y = start y

namespace Progress

variable {result : ℕ → ℕ → F} {start mem : Memory} {done done' : ℕ → ℕ → Prop}

theorem refl (l : Layout) (m n : ℕ) (result : ℕ → ℕ → F) (mem : Memory) :
    l.Progress m n result mem (fun _ _ => False) mem :=
  ⟨fun _ _ _ _ h => h.elim, fun _ _ _ _ _ => rfl, fun _ _ => rfl⟩

theorem congr (h : l.Progress m n result start done mem)
    (hiff : ∀ i < m, ∀ j < n, done i j ↔ done' i j) : l.Progress m n result start done' mem where
  computed i hi j hj hd := h.computed i hi j hj ((hiff i hi j hj).2 hd)
  pending i hi j hj hd := h.pending i hi j hj fun hd' => hd ((hiff i hi j hj).1 hd')
  outside := h.outside

theorem store (h : l.Progress m n result start done mem) (hl : l.Proper m n) {t : Tile}
    (ht : 4 * t.rows ≤ 2 ^ 64) {i₀ j₀ : ℕ} (hi : i₀ + t.rows ≤ m) (hj : j₀ + t.cols ≤ n)
    {columns : ℕ → ℕ → F}
    (hcolumns : ∀ column < t.cols, ∀ row < t.rows,
      columns column row = result (i₀ + row) (j₀ + column)) :
    l.Progress m n result start (fun i j => done i j ∨ InTile t i₀ j₀ i j)
      (l.storeTile t i₀ j₀ columns mem) := by
  refine ⟨fun i hi' j hj' hd => ?_, fun i hi' j hj' hd => ?_, fun y hy => ?_⟩
  -- an element inside the tile was stored with it, also when it had been computed before
  · by_cases hin : InTile t i₀ j₀ i j
    · obtain ⟨⟨hlo, hhi⟩, hlo', hhi'⟩ := id hin
      have hvalue := hcolumns (j - j₀) (by omega) (i - i₀) (by omega)
      rw [Nat.add_sub_cancel' hlo, Nat.add_sub_cancel' hlo'] at hvalue
      rw [lane_storeTile hi hj columns mem hl hi' hj' ht hin, hvalue]
    · rw [lane_storeTile_of_not hi hj columns mem hl hi' hj' hin,
        h.computed i hi' j hj' (hd.resolve_right hin)]
  · rw [not_or] at hd
    rw [lane_storeTile_of_not hi hj columns mem hl hi' hj' hd.2, h.pending i hi' j hj' hd.1]
  · rw [storeTile_of_notMem hi hj columns mem hy, h.outside y hy]

end Progress

end Progress

end Layout

/-! Tiles in registers: the columns of a tile lie side by side from the first register on. -/

namespace Column

open Instr

variable {F : Type} [Lane F]

def tileColumns (t : Tile) : List VectorReg :=
  (List.range t.cols).map fun j => VectorReg.ofNat (j * t.columnRegs)

theorem columnRegs_of_lt {t : Tile} {row : ℕ} (hrow : row < t.rows) : row / 4 < t.columnRegs := by
  rw [Tile.columnRegs, vectorLanes]
  omega

theorem regs_eq (t : Tile) : t.regs = t.cols * t.columnRegs := Nat.mul_comm _ _

theorem val_register {t : Tile} {column g : ℕ} (hcolumn : column < t.cols) (hg : g < t.columnRegs) :
    ((VectorReg.ofNat (column * t.columnRegs)).offset g).id.val < t.regs := by
  rw [offset_ofNat, regs_eq]
  exact (Nat.mod_le _ 32).trans_lt (index_lt hcolumn hg)

theorem pairwise_tileColumns {t : Tile} (hfit : t.cols * t.columnRegs ≤ 32) :
    (tileColumns t).Pairwise (Separate t.rows) := by
  rw [tileColumns, List.pairwise_map]
  refine List.pairwise_lt_range.imp_of_mem fun hj hj' hlt => ?_
  rw [List.mem_range] at hj hj'
  exact separate_columns hfit hj hj' hlt.ne

def tileTransfer (dir : Transfer) (t : Tile) (pointer cursor stride lane : GeneralReg) : List Instr :=
  .mov cursor pointer :: transferAll dir (tileColumns t) t.rows cursor stride lane

theorem straight_tileTransfer (dir : Transfer) {t : Tile} (hrows : t.rows ≤ 128)
    (pointer cursor stride lane : GeneralReg) :
    Straight [cursor.id, lane.id] (t.cols * (t.rows / 4 + 4) + 1)
      (tileTransfer dir t pointer cursor stride lane) := by
  have hall := straight_transferAll dir (tileColumns t) hrows cursor stride lane
  have hlen : (tileColumns t).length = t.cols := by
    rw [tileColumns, List.length_map, List.length_range]
  rw [hlen] at hall
  exact hall.cons ⟨trivial, rfl, rfl⟩ (by simp [WritesGeneral])

section TileTransfer

variable {t : Tile} (hrows : t.rows ≤ 128) {pointer cursor stride lane : GeneralReg}
  (hpointer : pointer.IsX) (hcursor : cursor.IsX) (hstride : stride.IsX) (hlane : lane.IsX)
  (hcl : cursor.id ≠ lane.id) (hsl : stride.id ≠ lane.id) (hsc : stride.id ≠ cursor.id)
  {l : Layout} {i j : ℕ} {s : State F} (hat : s.general pointer.id = l.cell i j)
  (hbytes : s.general stride.id = 4 * l.stride)
include hrows hpointer hcursor hstride hlane hcl hsl hsc hat hbytes

theorem load_tile (hfit : t.cols * t.columnRegs ≤ 32) :
    (effects (tileTransfer .load t pointer cursor stride lane) s).memory = s.memory ∧
      (∀ v : Fin 32, t.regs ≤ v.val →
        (effects (tileTransfer .load t pointer cursor stride lane) s).vector v = s.vector v) ∧
      ∀ column < t.cols, ∀ row < t.rows,
        rowsOf (VectorReg.ofNat (column * t.columnRegs))
            (effects (tileTransfer .load t pointer cursor stride lane) s) row =
          s.memory.lane (l.cell (i + row) (j + column)) := by
  have hloaded := loadedAll_transferAll hrows hcursor hstride hlane hcl hsl hsc
    (pairwise_tileColumns hfit) (s.set cursor.id (l.cell i j))
  rw [State.general_set_same, State.general_set_of_ne _ hsc, hbytes] at hloaded
  rw [tileTransfer, effects_cons, effect_mov _ hcursor hpointer, hat]
  refine ⟨hloaded.memory, fun v hv => hloaded.others v fun first hfirst g hg e => ?_,
    fun column hcolumn row hrow => ?_⟩
  · obtain ⟨column, hcolumn, rfl⟩ := List.mem_map.1 hfirst
    have hlt := val_register (List.mem_range.1 hcolumn) hg
    rw [← e] at hlt
    omega
  · have hfirst : (tileColumns t)[column]? = some (VectorReg.ofNat (column * t.columnRegs)) := by
      rw [tileColumns, List.getElem?_map, List.getElem?_range hcolumn, Option.map_some]
    rw [rowsOf_eq_lane hrow (hloaded.columns column _ hfirst _ (columnRegs_of_lt hrow)),
      Layout.cell_add_column, Layout.cell_add, State.memory_set]

theorem store_tile :
    (effects (tileTransfer .store t pointer cursor stride lane) s).memory =
        l.storeTile t i j (fun column => rowsOf (VectorReg.ofNat (column * t.columnRegs)) s)
          s.memory ∧
      (effects (tileTransfer .store t pointer cursor stride lane) s).vector = s.vector := by
  have hstored := stored_transferAll hrows hcursor hstride hlane hcl hsl hsc (tileColumns t)
    (s.set cursor.id (l.cell i j))
  rw [State.general_set_same, State.general_set_of_ne _ hsc, hbytes, tileColumns, List.map_map]
    at hstored
  rw [tileTransfer, effects_cons, effect_mov _ hcursor hpointer, hat]
  exact ⟨hstored, vector_transferAll_store hrows hcursor hstride hlane (tileColumns t) _⟩

end TileTransfer

end Column

end TensorKernels
