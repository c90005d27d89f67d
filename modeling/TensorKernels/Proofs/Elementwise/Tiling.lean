import TensorKernels.Elementwise.Tiling
import TensorKernels.Proofs.Kernel.Layout

/-!
The tiling of an elementwise kernel's grid. Its regions lie in the grid, no two of them have a cell in
common and every cell is in one of them; each region is cut evenly into tiles that leave a register
free, so each cell is in one tile of all those of the regions. None of this depends on which of the
possible tiles is taken for the best one.
-/

namespace TensorKernels.Elementwise

structure Fits (t : Tile) : Prop where
  rows_pos : 0 < t.rows
  cols_pos : 0 < t.cols
  rows_le : t.rows ≤ 16
  cols_le : t.cols ≤ 16
  regs_lt : t.cols * t.columnRegs < 32

theorem Fits.regsWithZero {t : Tile} (h : Fits t) :
    ∃ regs, t.regsWithZeroChecked = .ok regs ∧ regs ≤ 32 := by
  have hregs : t.regsWithZero ≤ 32 := by
    rw [Tile.regsWithZero, Column.regs_eq]
    exact h.regs_lt
  exact ⟨_, Tile.regsWithZeroChecked_eq_ok (hregs.trans_lt (by decide)), hregs⟩

structure Cuts (t : Tile) (rows cols : ℕ) : Prop where
  fits : Fits t
  rows_dvd : t.rows ∣ rows
  cols_dvd : t.cols ∣ cols

theorem cuts_single (rows cols : ℕ) : Cuts ⟨1, 1⟩ rows cols :=
  ⟨⟨by decide, by decide, by decide, by decide, by decide⟩, one_dvd rows, one_dvd cols⟩

def Region.Contains (region : Region) (i j : ℕ) : Prop :=
  InTile ⟨region.rows, region.cols⟩ region.row region.col i j

theorem Region.contains_iff {region : Region} {i j : ℕ} : region.Contains i j ↔
    (region.row ≤ i ∧ i < region.row + region.rows) ∧
      region.col ≤ j ∧ j < region.col + region.cols :=
  Iff.rfl

instance (region : Region) (i j : ℕ) : Decidable (region.Contains i j) :=
  inferInstanceAs (Decidable (_ ∧ _))

structure Region.Tiled (region : Region) (rows cols : ℕ) : Prop where
  rows_le : region.row + region.rows ≤ rows
  cols_le : region.col + region.cols ≤ cols
  empty : region.tile = none → region.rows = 0 ∨ region.cols = 0
  cuts : ∀ t, region.tile = some t → Cuts t region.rows region.cols

structure PlacedTile where
  row : ℕ
  col : ℕ
  tile : Tile
  deriving DecidableEq

def PlacedTile.Contains (t : PlacedTile) (i j : ℕ) : Prop := InTile t.tile t.row t.col i j

instance (t : PlacedTile) (i j : ℕ) : Decidable (t.Contains i j) :=
  inferInstanceAs (Decidable (_ ∧ _))

def Region.tiles (region : Region) : List PlacedTile :=
  match region.tile with
  | none => []
  | some t =>
    (List.range (region.rows / t.rows) ×ˢ List.range (region.cols / t.cols)).map fun place =>
      ⟨region.row + place.1 * t.rows, region.col + place.2 * t.cols, t⟩

theorem countP_intervals (first width x k : ℕ) :
    (List.range k).countP (fun p => first + p * width ≤ x ∧ x < first + p * width + width) =
      if first ≤ x ∧ x < first + k * width then 1 else 0 := by
  induction k with
  | zero => rw [List.range_zero, List.countP_nil, if_neg (by omega)]
  | succ k ih =>
    rw [List.range_succ, List.countP_append, ih, List.countP_singleton, Nat.succ_mul]
    simp only [decide_eq_true_eq]
    split_ifs <;> omega

theorem countP_product {α β : Type} (p : α → Prop) [DecidablePred p] (q : β → Prop)
    [DecidablePred q] (xs : List α) (ys : List β) :
    (xs ×ˢ ys).countP (fun place => p place.1 ∧ q place.2) = xs.countP (p ·) * ys.countP (q ·) := by
  induction xs with
  | nil => rw [List.nil_product, List.countP_nil, List.countP_nil, Nat.zero_mul]
  | cons x xs ih =>
    rw [List.product_cons, List.countP_append, ih, List.countP_map, List.countP_cons]
    by_cases hx : p x <;> simp [hx, Function.comp_def, Nat.add_mul, Nat.add_comm]

theorem countP_le_one {α : Type} {p : α → Prop} [DecidablePred p] {xs : List α}
    (h : xs.Pairwise fun x y => p x → ¬p y) : xs.countP (p ·) ≤ 1 := by
  induction h with
  | nil => exact Nat.zero_le 1
  | @cons x xs hx _ ih =>
    rw [List.countP_cons]
    split_ifs with hp
    · have hrest : xs.countP (p ·) = 0 :=
        List.countP_eq_zero.2 fun y hy hpy => hx y hy (of_decide_eq_true hp) (of_decide_eq_true hpy)
      omega
    · exact ih

theorem Region.Tiled.countP_tiles {region : Region} {m n : ℕ} (h : region.Tiled m n) (i j : ℕ) :
    region.tiles.countP (fun t => t.Contains i j) = if region.Contains i j then 1 else 0 := by
  cases htile : region.tile with
  | none =>
    have hcells := h.empty htile
    have hnot : ¬region.Contains i j := by
      rw [contains_iff]
      omega
    rw [tiles, htile, if_neg hnot, List.countP_nil]
  | some t =>
    have hcuts := h.cuts t htile
    -- a tile contains the cell if its rows do and its columns do, which are counted apart
    have hplaces := countP_product
      (fun p => region.row + p * t.rows ≤ i ∧ i < region.row + p * t.rows + t.rows)
      (fun q => region.col + q * t.cols ≤ j ∧ j < region.col + q * t.cols + t.cols)
      (List.range (region.rows / t.rows)) (List.range (region.cols / t.cols))
    rw [countP_intervals, countP_intervals, Nat.div_mul_cancel hcuts.rows_dvd,
      Nat.div_mul_cancel hcuts.cols_dvd] at hplaces
    rw [tiles, htile, List.countP_map]
    refine hplaces.trans ?_
    rw [ite_zero_mul_ite_zero, Nat.one_mul]
    rfl

theorem countP_flatMap_tiles {regions : List Region} {m n : ℕ}
    (h : ∀ region ∈ regions, region.Tiled m n) (i j : ℕ) :
    (regions.flatMap Region.tiles).countP (fun t => t.Contains i j) =
      regions.countP fun region => region.Contains i j := by
  induction regions with
  | nil => rfl
  | cons region rest ih =>
    rw [List.forall_mem_cons] at h
    rw [List.flatMap_cons, List.countP_append, h.1.countP_tiles, ih h.2, List.countP_cons,
      Nat.add_comm]
    simp only [decide_eq_true_eq]

namespace Tiling

theorem cuts_of_mem_candidates {rows cols : ℕ} {t : Tile} (h : t ∈ candidates rows cols) :
    Cuts t rows cols := by
  obtain ⟨hmem, hregs⟩ := List.mem_filter.1 h
  obtain ⟨r, hr, hmem⟩ := List.mem_flatMap.1 hmem
  obtain ⟨c, hc, rfl⟩ := List.mem_map.1 hmem
  rw [mem_divisors] at hr hc
  have hfit : (Tile.mk r c).columnRegs * c + 1 ≤ 32 := of_decide_eq_true hregs
  rw [Nat.mul_comm] at hfit
  exact ⟨⟨hr.1, hc.1, hr.2.2.1, hc.2.2.1, hfit⟩, Nat.dvd_of_mod_eq_zero hr.2.2.2,
    Nat.dvd_of_mod_eq_zero hc.2.2.2⟩

section Choice

variable (better : Tile → Tile → Bool)

theorem cuts_choose (rows cols : ℕ) : Cuts (choose better rows cols) rows cols := by
  rw [choose]
  refine List.foldlRecOn (motive := fun t => Cuts t rows cols) _ _ (cuts_single rows cols) ?_
  intro best hbest t ht
  split_ifs
  · exact cuts_of_mem_candidates ht
  · exact hbest

theorem tile_region_eq_none_iff (row col rows cols : ℕ) :
    (region better row col rows cols).tile = none ↔ rows = 0 ∨ cols = 0 := by
  by_cases hcell : rows = 0 ∨ cols = 0
  · exact iff_of_true (if_pos hcell) hcell
  · have hsome : (region better row col rows cols).tile = some (choose better rows cols) :=
      if_neg hcell
    rw [hsome]
    exact iff_of_false (Option.some_ne_none _) hcell

theorem tiled_region {row col rows cols m n : ℕ} (hrows : row + rows ≤ m) (hcols : col + cols ≤ n) :
    (region better row col rows cols).Tiled m n := by
  refine ⟨hrows, hcols, (tile_region_eq_none_iff better row col rows cols).1, fun t ht => ?_⟩
  simp only [region] at ht
  split_ifs at ht
  rw [← Option.some.inj ht]
  exact cuts_choose better rows cols

variable (m n : ℕ)

theorem regions_eq : (ofComparison better m n).regions =
    [region better 0 0 (cut m).1 (cut n).1, region better 0 (cut n).1 (cut m).1 (cut n).2,
      region better (cut m).1 0 (cut m).2 (cut n).1,
      region better (cut m).1 (cut n).1 (cut m).2 (cut n).2] := rfl

theorem tiled_regions : ∀ region ∈ (ofComparison better m n).regions, region.Tiled m n := by
  have hm := cut_add m
  have hn := cut_add n
  simp only [regions_eq, List.forall_mem_cons]
  refine ⟨tiled_region better ?_ ?_, tiled_region better ?_ ?_, tiled_region better ?_ ?_,
    tiled_region better ?_ ?_, List.forall_mem_nil _⟩ <;> omega

theorem pairwise_regions : (ofComparison better m n).regions.Pairwise
    fun region region' => ∀ i j, region.Contains i j → ¬region'.Contains i j := by
  simp only [regions_eq, List.pairwise_cons, List.forall_mem_cons, Region.contains_iff, region]
  refine ⟨⟨?_, ?_, ?_, List.forall_mem_nil _⟩, ⟨?_, ?_, List.forall_mem_nil _⟩,
    ⟨?_, List.forall_mem_nil _⟩, List.forall_mem_nil _, List.Pairwise.nil⟩ <;> omega

theorem exists_contains {i j : ℕ} (hi : i < m) (hj : j < n) :
    ∃ region ∈ (ofComparison better m n).regions, region.Contains i j := by
  have hm := cut_add m
  have hn := cut_add n
  simp only [regions_eq, List.exists_mem_cons_iff, Region.contains_iff, region]
  omega

theorem countP_regions (i j : ℕ) :
    (ofComparison better m n).regions.countP (fun region => region.Contains i j) =
      if i < m ∧ j < n then 1 else 0 := by
  split_ifs with hcell
  · have hone := countP_le_one ((pairwise_regions better m n).imp fun h => h i j)
    obtain ⟨region, hregion, hin⟩ := exists_contains better m n hcell.1 hcell.2
    have hpos : 0 < (ofComparison better m n).regions.countP fun region => region.Contains i j :=
      List.countP_pos_iff.2 ⟨region, hregion, decide_eq_true hin⟩
    omega
  · refine List.countP_eq_zero.2 fun region hregion hin => hcell ?_
    have htiled := tiled_regions better m n region hregion
    have hrows := htiled.rows_le
    have hcols := htiled.cols_le
    obtain ⟨hi, hj⟩ := Region.contains_iff.1 (of_decide_eq_true hin)
    omega

theorem tile_eq_none_iff : ∀ region ∈ (ofComparison better m n).regions,
    region.tile = none ↔ region.rows = 0 ∨ region.cols = 0 := by
  simp only [regions_eq, List.forall_mem_cons, tile_region_eq_none_iff]
  exact ⟨Iff.rfl, Iff.rfl, Iff.rfl, Iff.rfl, List.forall_mem_nil _⟩

end Choice

/-- Regions that lie in a grid, with tiles that cut them evenly and leave a register free. -/
structure Partitions (tiling : Tiling) (m n : ℕ) : Prop where
  countP_tiles : ∀ i j,
    (tiling.regions.flatMap Region.tiles).countP (fun t => t.Contains i j) =
      if i < m ∧ j < n then 1 else 0
  within : ∀ region ∈ tiling.regions,
    region.row + region.rows ≤ m ∧ region.col + region.cols ≤ n
  tile_eq_none_iff : ∀ region ∈ tiling.regions,
    region.tile = none ↔ region.rows = 0 ∨ region.cols = 0
  extents : ∀ region ∈ tiling.regions, ∀ t, region.tile = some t →
    (1 ≤ t.rows ∧ t.rows ≤ 16) ∧ 1 ≤ t.cols ∧ t.cols ≤ 16
  dvd : ∀ region ∈ tiling.regions, ∀ t, region.tile = some t →
    t.rows ∣ region.rows ∧ t.cols ∣ region.cols
  regs : ∀ region ∈ tiling.regions, ∀ t, region.tile = some t →
    ∃ regs, t.regsWithZeroChecked = .ok regs ∧ regs ≤ 32

/-- The comparison of scores is one of the comparisons that a tile may be chosen by, and none of them
matters. -/
theorem tiles_partition_grid (m n : ℕ) :
    (ofGrid m n).Partitions m n ∧ ∀ better, (ofComparison better m n).Partitions m n := by
  have hpartitions better : (ofComparison better m n).Partitions m n := by
    have htiled := tiled_regions better m n
    refine ⟨fun i j => ?_, fun region hregion => ?_, tile_eq_none_iff better m n,
      fun region hregion t ht => ?_, fun region hregion t ht => ?_, fun region hregion t ht => ?_⟩
    · rw [countP_flatMap_tiles htiled, countP_regions]
    · exact ⟨(htiled region hregion).rows_le, (htiled region hregion).cols_le⟩
    · have hfits := ((htiled region hregion).cuts t ht).fits
      exact ⟨⟨hfits.rows_pos, hfits.rows_le⟩, hfits.cols_pos, hfits.cols_le⟩
    · have hcuts := (htiled region hregion).cuts t ht
      exact ⟨hcuts.rows_dvd, hcuts.cols_dvd⟩
    · exact ((htiled region hregion).cuts t ht).fits.regsWithZero
  exact ⟨hpartitions lowerScore, hpartitions⟩

end Tiling

end TensorKernels.Elementwise
