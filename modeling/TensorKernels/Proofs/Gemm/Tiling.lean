import TensorKernels.Proofs.Gemm.Blocks

/-!
The tiling of an output. Its tiles fit the register file, its row tiles make up the rows and its
column blocks the columns. The blocks are as wide as the output, the bound on accumulator columns and
the registers allow.
-/

namespace TensorKernels.Gemm.Tiling

theorem widest_fits {columnRegs : ℕ} (h : columnRegs ≤ 4) (n : ℕ) :
    widest columnRegs n * columnRegs + columnRegs < 32 := by
  induction n with
  | zero =>
    rw [widest]
    omega
  | succ n ih =>
    rw [widest]
    split_ifs with hfit
    · rcases hfit with rfl | hfit
      · omega
      · rw [vectorRegisters, Nat.mul_comm] at hfit
        omega
    · exact ih

theorem widest_pos (columnRegs n : ℕ) : 0 < widest columnRegs (n + 1) := by
  induction n with
  | zero => exact Nat.one_pos
  | succ n ih =>
    rw [widest]
    split
    · exact Nat.succ_pos _
    · exact ih

theorem widest_maximal (columnRegs n : ℕ) : widest columnRegs n = n ∨
    vectorRegisters < columnRegs * (widest columnRegs n + 1) + columnRegs + 1 := by
  -- the search goes down, so it has met and left one column more than it stops at
  induction n with
  | zero => exact Or.inl rfl
  | succ n ih =>
    rw [widest]
    split_ifs with hfit
    · exact Or.inl rfl
    · rw [not_or, not_le] at hfit
      rcases ih with hstop | hstop
      · rw [hstop]
        exact Or.inr hfit.2
      · exact Or.inr hstop

section Output

variable {m n : ℕ}

theorem big_cols_pos (hn : 0 < n) : 0 < (ofOutput m n).big.cols :=
  Nat.lt_min.2 ⟨widest_pos _ 29, hn⟩

theorem small_cols_eq (hn : 0 < n) : (ofOutput m n).small.cols = n % (ofOutput m n).big.cols :=
  if_neg (big_cols_pos hn).ne'

theorem blocks_add_rest (hn : 0 < n) :
    (ofOutput m n).fullBlocks n * (ofOutput m n).big.cols + (ofOutput m n).small.cols = n := by
  have hblocks : (ofOutput m n).fullBlocks n = n / (ofOutput m n).big.cols :=
    if_neg (big_cols_pos hn).ne'
  rw [hblocks, small_cols_eq hn]
  exact Nat.div_add_mod' n (ofOutput m n).big.cols

theorem columns_eq (hn : 0 < n) :
    (ofOutput m n).fullBlocks n * (ofOutput m n).big.cols +
      (if 0 < (ofOutput m n).small.cols then 1 else 0) * (ofOutput m n).small.cols = n := by
  have hsum := blocks_add_rest (m := m) hn
  split_ifs with hrest
  · rwa [Nat.one_mul]
  · omega

theorem rows_eq (hm : 0 < m) :
    (ofOutput m n).fullRowTiles * (ofOutput m n).big.rows + (ofOutput m n).rowRemainder = m := by
  by_cases hmany : maxTileExtent < m
  · simp only [ofOutput, if_pos hmany, Nat.min_eq_right hmany.le]
    exact Nat.div_add_mod' m maxTileExtent
  · simp only [ofOutput, if_neg hmany, if_pos hm, Nat.min_eq_left (Nat.not_lt.1 hmany)]
    omega

theorem rowRemainder_cases : (ofOutput m n).rowRemainder = 0 ∨
    (ofOutput m n).big.rows = 16 ∧ (ofOutput m n).rowRemainder < 16 := by
  by_cases hmany : maxTileExtent < m
  · have hrest : (ofOutput m n).rowRemainder = m % maxTileExtent := if_pos hmany
    rw [hrest]
    exact Or.inr ⟨Nat.min_eq_right hmany.le, Nat.mod_lt m (by decide)⟩
  · exact Or.inl (if_neg hmany)

theorem rowRemainder_le : (ofOutput m n).rowRemainder ≤ (ofOutput m n).big.rows := by
  have hcases := rowRemainder_cases (m := m) (n := n)
  omega

theorem rowRemainder_lt : (ofOutput m n).rowRemainder < 16 := by
  have hcases := rowRemainder_cases (m := m) (n := n)
  omega

theorem columnRegs_le {rows : ℕ} (h : rows ≤ 16) (cols : ℕ) : (Tile.mk rows cols).columnRegs ≤ 4 := by
  simp only [Tile.columnRegs, vectorLanes]
  omega

theorem big_rows_le : (ofOutput m n).big.rows ≤ 16 := Nat.min_le_right m 16

theorem regsForProduct_le {rows cols : ℕ} (hrows : rows ≤ (ofOutput m n).big.rows)
    (hcols : cols ≤ (ofOutput m n).big.cols) : (Tile.mk rows cols).regsForProduct ≤ 32 := by
  have hregs : (Tile.mk rows cols).columnRegs ≤ (Tile.mk (ofOutput m n).big.rows 0).columnRegs :=
    Nat.div_le_div_right (Nat.add_le_add_right hrows 3)
  have hwidest : (ofOutput m n).big.cols ≤
      widest (Tile.mk (ofOutput m n).big.rows 0).columnRegs maxColumns := Nat.min_le_left _ _
  have hfits := widest_fits (columnRegs_le (big_rows_le (m := m) (n := n)) 0) maxColumns
  have hmul := Nat.mul_le_mul (hcols.trans hwidest) hregs
  rw [Tile.regsForProduct, Column.regs_eq]
  dsimp only
  omega

theorem fits_of_le {rows cols : ℕ} (hpos : 0 < rows) (hrows : rows ≤ (ofOutput m n).big.rows)
    (hcols : cols ≤ (ofOutput m n).big.cols) : Fits ⟨rows, cols⟩ := by
  have hregs := regsForProduct_le hrows hcols
  rw [Tile.regsForProduct, Column.regs_eq] at hregs
  exact ⟨hpos, hrows.trans big_rows_le, hregs⟩

theorem small_cols_lt (hn : 0 < n) : (ofOutput m n).small.cols < (ofOutput m n).big.cols := by
  rw [small_cols_eq hn]
  exact Nat.mod_lt n (big_cols_pos hn)

theorem regsChecked_of_le {cols : ℕ} (hcols : cols ≤ (ofOutput m n).big.cols) :
    (Tile.mk (ofOutput m n).big.rows cols).regsChecked =
      .ok ((Tile.mk (ofOutput m n).big.rows 0).columnRegs * cols) := by
  have hregs := regsForProduct_le (le_refl (ofOutput m n).big.rows) hcols
  refine Tile.regsChecked_eq_ok ?_
  rw [Tile.regsForProduct] at hregs
  rw [Count.limit]
  omega

theorem regsForProduct_succ (rows cols : ℕ) : (Tile.mk rows (cols + 1)).regsForProduct =
    (Tile.mk rows cols).regsForProduct + (Tile.mk rows cols).columnRegs := by
  have hregs : (Tile.mk rows (cols + 1)).regs =
      (Tile.mk rows cols).regs + (Tile.mk rows cols).columnRegs := Nat.mul_succ _ _
  rw [Tile.regsForProduct, hregs, Tile.regsForProduct, Nat.add_right_comm _ 1]
  rfl

theorem big_cols_maximal : (ofOutput m n).big.cols = n ∨ (ofOutput m n).big.cols = 30 ∨
    ∃ regs, (Tile.mk (ofOutput m n).big.rows ((ofOutput m n).big.cols + 1)).regsForProductChecked =
      .ok regs ∧ 32 < regs := by
  rcases Nat.le_total n (widest (Tile.mk (ofOutput m n).big.rows 0).columnRegs maxColumns) with
    hall | hcut
  · exact Or.inl (Nat.min_eq_right hall)
  · have hcols : (ofOutput m n).big.cols =
        widest (Tile.mk (ofOutput m n).big.rows 0).columnRegs maxColumns := Nat.min_eq_left hcut
    rcases widest_maximal (Tile.mk (ofOutput m n).big.rows 0).columnRegs maxColumns with
      hmost | hmore
    · exact Or.inr (Or.inl (hcols.trans hmost))
    · rw [← hcols] at hmore
      refine Or.inr (Or.inr ⟨_, Tile.regsForProductChecked_eq_ok ?_, hmore⟩)
      have hregs := regsForProduct_le (le_refl (ofOutput m n).big.rows) le_rfl
      have hcolumn := columnRegs_le (big_rows_le (m := m) (n := n)) (ofOutput m n).big.cols
      rw [regsForProduct_succ, Count.limit]
      omega

theorem tiled {shape : Shape} (hm : 0 < shape.m) (hlt : shape.m < 2 ^ 32) {columns : ℕ}
    (hcols : columns ≤ (ofOutput shape.m shape.n).big.cols) :
    Tiled shape (ofOutput shape.m shape.n) columns where
  full := fits_of_le (Nat.lt_min.2 ⟨hm, by decide⟩) le_rfl hcols
  rest hrest := fits_of_le hrest rowRemainder_le hcols
  rows := rows_eq hm
  m_pos := hm
  m_lt := hlt

end Output

/-- Row tiles and column blocks that make up an output. Their tiles fit the register file, those left
over included, and a block has as many columns as it can. -/
structure Covers (t : Tiling) (m n : ℕ) : Prop where
  rows : t.fullRowTiles * t.big.rows + t.rowRemainder = m
  rowRemainder_lt : t.rowRemainder < 16
  columns : t.fullBlocks n * t.big.cols + t.small.cols = n
  small_lt : t.small.cols < t.big.cols
  bigRegs : t.big.regsChecked = .ok t.bigRegs
  smallRegs : t.small.regsChecked = .ok t.smallRegs
  fits : ∀ rows ∈ [t.big.rows, t.rowRemainder], ∀ cols ∈ [t.big.cols, t.small.cols],
    ∃ regs, (Tile.mk rows cols).regsForProductChecked = .ok regs ∧ regs ≤ 32
  maximal : t.big.cols = n ∨ t.big.cols = 30 ∨
    ∃ regs, (Tile.mk t.big.rows (t.big.cols + 1)).regsForProductChecked = .ok regs ∧ 32 < regs

/-- The tiling of an output covers it without a rest, in tiles as wide as the registers allow. -/
theorem ofOutput_covers (m : ℕ) {n : ℕ} (hn : 0 < n) : (ofOutput m n).Covers m n where
  rows := by
    rcases Nat.eq_zero_or_pos m with rfl | hm
    · rfl
    · exact rows_eq hm
  rowRemainder_lt := rowRemainder_lt
  columns := blocks_add_rest hn
  small_lt := small_cols_lt hn
  bigRegs := regsChecked_of_le le_rfl
  smallRegs := regsChecked_of_le (small_cols_lt hn).le
  fits rows hrows cols hcols := by
    have hrows' : rows ≤ (ofOutput m n).big.rows := by
      rcases List.mem_pair.1 hrows with rfl | rfl
      · exact le_rfl
      · exact rowRemainder_le
    have hcols' : cols ≤ (ofOutput m n).big.cols := by
      rcases List.mem_pair.1 hcols with rfl | rfl
      · exact le_rfl
      · exact (small_cols_lt hn).le
    have hregs := regsForProduct_le hrows' hcols'
    exact ⟨_, Tile.regsForProductChecked_eq_ok (hregs.trans_lt (by decide)), hregs⟩
  maximal := big_cols_maximal

theorem ofOutput_covers_leftovers :
    (ofOutput 40 17).big = ⟨16, 6⟩ ∧ (ofOutput 40 17).Covers 40 17 :=
  ⟨by decide, ofOutput_covers 40 (by decide)⟩

end TensorKernels.Gemm.Tiling
