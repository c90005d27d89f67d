import TensorKernels.Proofs.Elementwise.Tile

/-!
The regions of an elementwise kernel. A region is walked column of tiles by column of tiles: the
pointers go down over the tiles, back to the top and on to the next columns. With a single tile in a
column they do not move down, and nothing is to be taken back. Whatever order the regions come in,
each one leaves its own cells done and all others as they were.
-/

namespace TensorKernels.Elementwise

open Instr Column

variable {F : Type} [Lane F]

section Pointer

variable {pointer stride : GeneralReg} (hp : Free pointer) (hs : Free stride) {l : Layout}
  {s : State F}
include hp hs

theorem leads_regionBase {base : GeneralReg} (hb : Free base) {region : Region}
    (hrow : region.row < 2 ^ 32) (hcol : region.col < 2 ^ 32)
    (hbase : s.general base.id = l.base) (hstride : s.general stride.id = 4 * l.stride) :
    Leads pointer (l.cell region.row region.col) (regionBase pointer base region stride) s := by
  have hcolumn := leads_columns hp hb hs (hbase.trans l.cell_zero.symm) hstride
    (by omega : region.col < 2 ^ 64)
  refine hcolumn.append hp.2 fun w => ?_
  have hbytes : (((region.row * elementBytes : ℕ) : Int) : BitVec 64) =
      4 * (region.row : BitVec 64) - 4 * ((0 : ℕ) : BitVec 64) := by
    rw [elementBytes]
    push_cast
    grind
  have hstart := State.general_set_same (s.set Reg.scratch.id w) pointer.id
    (l.cell 0 (0 + region.col))
  rw [Nat.zero_add] at hstart ⊢
  refine leads_rows hp hstart ?_ hbytes
  rw [Int.natAbs_natCast, elementBytes]
  omega

theorem leads_nextColumns (hne : stride.id ≠ pointer.id) {i j rows columns : ℕ}
    (hrows : rows < 2 ^ 32) (hcolumns : columns < 2 ^ 32)
    (h : s.general pointer.id = l.cell (i + rows) j) (hstride : s.general stride.id = 4 * l.stride) :
    Leads pointer (l.cell i (j + columns))
      (Sequence.addConstant pointer pointer (-((rows * elementBytes : ℕ) : Int)) Reg.scratch ++
        Sequence.addMultiple pointer pointer columns stride Reg.scratch) s := by
  have hbytes : ((-((rows * elementBytes : ℕ) : Int) : Int) : BitVec 64) =
      4 * (i : BitVec 64) - 4 * ((i + rows : ℕ) : BitVec 64) := by
    rw [elementBytes]
    push_cast
    grind
  have hback := leads_rows hp h (by rw [Int.natAbs_neg, Int.natAbs_natCast, elementBytes]; omega) hbytes
  refine hback.append hp.2 fun w => leads_columns hp hp hs (State.general_set_same ..) ?_ (by omega)
  rw [State.general_set_of_ne _ hne, State.general_set_of_ne _ hs.2, hstride]

end Pointer

/-! Rectangles that grow by a tile below or by columns beside. -/

theorem inTile_below (t : Tile) (rows i j i' j' : ℕ) :
    InTile ⟨rows, t.cols⟩ i j i' j' ∨ InTile t (i + rows) j i' j' ↔
      InTile ⟨rows + t.rows, t.cols⟩ i j i' j' := by
  simp only [InTile]
  omega

theorem inTile_beside (rows cols more i j i' j' : ℕ) :
    InTile ⟨rows, cols⟩ i j i' j' ∨ InTile ⟨rows, more⟩ i (j + cols) i' j' ↔
      InTile ⟨rows, cols + more⟩ i j i' j' := by
  simp only [InTile]
  omega

theorem not_inTile {t : Tile} (h : t.rows = 0 ∨ t.cols = 0) (i j i' j' : ℕ) :
    ¬InTile t i j i' j' := by
  rw [InTile]
  omega

section Walk

variable {x : Arguments} {op : Op} {m n regs : ℕ} {start : Memory} {done : ℕ → ℕ → Prop}
  {sp : Address} {i j : ℕ} {s : State F} {t : Tile} {region : Region}

theorem Reached.nextColumns {rows : ℕ} (h : Reached x op m n regs start done (i + rows) j s)
    (hrows : rows < 2 ^ 32) (ht : Fits t) :
    Reached x op m n regs start done i (j + t.cols)
      (effects (nextColumns op t (rows * elementBytes)) s) := by
  have hcols := ht.cols_le
  refine h.toReady.pointers (fun hop => ?_) fun u hu hout => ?_
  · exact leads_nextColumns (by decide) (by decide) (by decide) hrows (by omega)
      (h.place.tileIn hop) h.staged.inputStride
  · exact leads_nextColumns (by decide) (by decide) (by decide) hrows (by omega)
      (hout.trans h.place.tileOut) hu.outputStride

theorem Ready.regionBase (h : Ready x op m n regs start done s) (hrow : region.row < 2 ^ 32)
    (hcol : region.col < 2 ^ 32) :
    Reached x op m n regs start done region.row region.col
      (effects ((if op.needsInput then regionBase Reg.tileIn Reg.input region Reg.inputStride else []) ++
        regionBase Reg.tileOut Reg.output region Reg.outputStride) s) := by
  refine h.pointers (fun _ => ?_) fun u hu _ => ?_
  · exact leads_regionBase (by decide) (by decide) (by decide) hrow hcol h.staged.input
      h.staged.inputStride
  · exact leads_regionBase (by decide) (by decide) (by decide) hrow hcol hu.output hu.outputStride

def covered (walksRows : Bool) (rows : ℕ) : ℕ := if walksRows then rows else 0

theorem exec_regionCode (op : Op) (region : Region) (t : Tile) (s : State F) :
    (regionCode op region t).exec s =
      (Code.loop Reg.columnCount (region.cols / t.cols)
        (.loop Reg.rowCount (region.rows / t.rows)
            (.run (tileCode op t (decide (1 < region.rows / t.rows)))) ++
          .run (Elementwise.nextColumns op t
            (covered (decide (1 < region.rows / t.rows)) region.rows * elementBytes)))).exec
        (effects ((if op.needsInput then regionBase Reg.tileIn Reg.input region Reg.inputStride
            else []) ++ regionBase Reg.tileOut Reg.output region Reg.outputStride) s) := by
  have hcovered : (if decide (1 < region.rows / t.rows) = true then region.rows * elementBytes else 0) =
      covered (decide (1 < region.rows / t.rows)) region.rows * elementBytes := by
    rw [covered, ite_mul, Nat.zero_mul]
  rw [← hcovered]
  rfl

section Region

variable (hx : x.Admissible op m n sp) (hm : m < 2 ^ 32) (hn : n < 2 ^ 32)
  (hrows : region.row + region.rows ≤ m) (hcols : region.col + region.cols ≤ n)
  (hc : Cuts t region.rows region.cols) (hregs : t.regs ≤ regs)
include hx hrows hc hregs

theorem Reached.tileStep {walksRows : Bool} (hwalks : walksRows = false → region.rows / t.rows ≤ 1)
    (hj : j + t.cols ≤ n)
    (hpending : ∀ i' j', InTile ⟨region.rows, t.cols⟩ region.row j i' j' → ¬done i' j') {k : ℕ}
    (hk : k < region.rows / t.rows)
    (h : Reached x op m n regs start
      (fun i' j' => done i' j' ∨ InTile ⟨k * t.rows, t.cols⟩ region.row j i' j')
      (region.row + covered walksRows (k * t.rows)) j s) :
    Reached x op m n regs start
      (fun i' j' => done i' j' ∨ InTile ⟨(k + 1) * t.rows, t.cols⟩ region.row j i' j')
      (region.row + covered walksRows ((k + 1) * t.rows)) j
      ((Code.run (tileCode op t walksRows)).exec s) := by
  have hnext : k * t.rows + t.rows ≤ region.rows := by
    rw [← Nat.succ_mul]
    exact (Nat.mul_le_mul_right _ hk).trans (Nat.div_mul_le_self _ _)
  -- pointers that do not move are at the next tile too, as it is the only one
  have hplace : covered walksRows (k * t.rows) = k * t.rows := by
    cases walksRows with
    | true => rfl
    | false =>
      have hone := hwalks rfl
      rw [show k = 0 by omega, Nat.zero_mul]
      rfl
  rw [hplace] at h
  have htile := h.tile hc.fits hx hregs (by omega) hj (fun i' j' hin => ?_) walksRows
  · have hend : (if walksRows = true then region.row + k * t.rows + t.rows
        else region.row + k * t.rows) = region.row + covered walksRows ((k + 1) * t.rows) := by
      cases walksRows with
      | true => rw [if_pos rfl, covered, if_pos rfl, Nat.succ_mul, Nat.add_assoc]
      | false => rw [← hplace]; rfl
    rw [hend] at htile
    refine htile.iff fun i' _ j' _ => ?_
    rw [or_assoc, inTile_below, Nat.succ_mul]
  · have hin' : ¬InTile ⟨k * t.rows, t.cols⟩ region.row j i' j' := by
      simp only [InTile] at hin ⊢
      omega
    have hnot := hpending i' j' (by simp only [InTile] at hin ⊢; omega)
    exact not_or.2 ⟨hnot, hin'⟩

include hm in
theorem Reached.tileColumn {walksRows : Bool} (hwalks : walksRows = false → region.rows / t.rows ≤ 1)
    (hj : j + t.cols ≤ n)
    (hpending : ∀ i' j', InTile ⟨region.rows, t.cols⟩ region.row j i' j' → ¬done i' j')
    (h : Reached x op m n regs start done region.row j s) :
    Reached x op m n regs start
      (fun i' j' => done i' j' ∨ InTile ⟨region.rows, t.cols⟩ region.row j i' j')
      (region.row + covered walksRows region.rows) j
      ((Code.loop Reg.rowCount (region.rows / t.rows) (.run (tileCode op t walksRows))).exec s) := by
  have htiles : region.rows / t.rows * t.rows = region.rows := Nat.div_mul_cancel hc.rows_dvd
  have htrips : region.rows / t.rows < 2 ^ 64 := by
    have := Nat.div_le_self region.rows t.rows
    omega
  have hstart : Reached x op m n regs start
      (fun i' j' => done i' j' ∨ InTile ⟨0 * t.rows, t.cols⟩ region.row j i' j')
      (region.row + covered walksRows (0 * t.rows)) j s := by
    have hzero : covered walksRows (0 * t.rows) = 0 := by
      rw [Nat.zero_mul]
      exact ite_self 0
    rw [hzero]
    refine h.iff fun i' _ j' _ => (or_iff_left ?_).symm
    exact not_inTile (t := ⟨0 * t.rows, t.cols⟩) (Or.inl (Nat.zero_mul _)) _ _ _ _
  have hwalk := Code.exec_loop_induction
    (P := fun k u => Reached x op m n regs start
      (fun i' j' => done i' j' ∨ InTile ⟨k * t.rows, t.cols⟩ region.row j i' j')
      (region.row + covered walksRows (k * t.rows)) j u)
    (by decide : Reg.rowCount.IsX) htrips (fun _ _ v hu => hu.set (by decide) v)
    (fun k hk u hu => hu.tileStep hx hrows hc hregs hwalks hj hpending hk) hstart
  rw [htiles] at hwalk
  exact hwalk

include hm hcols in
theorem Reached.columnStep {walksRows : Bool} (hwalks : walksRows = false → region.rows / t.rows ≤ 1)
    (hpending : ∀ i' j', region.Contains i' j' → ¬done i' j') {k : ℕ}
    (hk : k < region.cols / t.cols)
    (h : Reached x op m n regs start
      (fun i' j' => done i' j' ∨ InTile ⟨region.rows, k * t.cols⟩ region.row region.col i' j')
      region.row (region.col + k * t.cols) s) :
    Reached x op m n regs start
      (fun i' j' => done i' j' ∨ InTile ⟨region.rows, (k + 1) * t.cols⟩ region.row region.col i' j')
      region.row (region.col + (k + 1) * t.cols)
      ((Code.loop Reg.rowCount (region.rows / t.rows) (.run (tileCode op t walksRows)) ++
        .run (Elementwise.nextColumns op t (covered walksRows region.rows * elementBytes)) : Code).exec s) := by
  have hnext : k * t.cols + t.cols ≤ region.cols := by
    rw [← Nat.succ_mul]
    exact (Nat.mul_le_mul_right _ hk).trans (Nat.div_mul_le_self _ _)
  have hcovered : covered walksRows region.rows < 2 ^ 32 := by
    have hle : covered walksRows region.rows ≤ region.rows := by
      rw [covered]
      split_ifs
      · exact le_rfl
      · exact Nat.zero_le _
    omega
  have hcolumn := h.tileColumn hx hm hrows hc hregs hwalks (by omega) fun i' j' hin => ?_
  · have hmoved := hcolumn.nextColumns hcovered hc.fits
    rw [Nat.succ_mul, ← Nat.add_assoc]
    refine hmoved.iff fun i' _ j' _ => ?_
    rw [or_assoc, inTile_beside]
  · have hin' : ¬InTile ⟨region.rows, k * t.cols⟩ region.row region.col i' j' := by
      simp only [InTile] at hin ⊢
      omega
    have hnot := hpending i' j' (by simp only [InTile, Region.contains_iff] at hin ⊢; omega)
    exact not_or.2 ⟨hnot, hin'⟩

include hm hcols hn in
theorem Ready.walkRegion (hpending : ∀ i' j', region.Contains i' j' → ¬done i' j')
    (h : Ready x op m n regs start done s) :
    Ready x op m n regs start (fun i' j' => done i' j' ∨ region.Contains i' j')
      ((regionCode op region t).exec s) := by
  have htiles : region.cols / t.cols * t.cols = region.cols := Nat.div_mul_cancel hc.cols_dvd
  have htrips : region.cols / t.cols < 2 ^ 64 := by
    have := Nat.div_le_self region.cols t.cols
    omega
  have hwalks : decide (1 < region.rows / t.rows) = false → region.rows / t.rows ≤ 1 := fun hw =>
    Nat.not_lt.1 (of_decide_eq_false hw)
  have hbase := h.regionBase (by omega : region.row < 2 ^ 32) (by omega : region.col < 2 ^ 32)
  rw [exec_regionCode]
  generalize effects (_ ++ _) s = u at hbase ⊢
  have hstart : Reached x op m n regs start
      (fun i' j' => done i' j' ∨ InTile ⟨region.rows, 0 * t.cols⟩ region.row region.col i' j')
      region.row (region.col + 0 * t.cols) u := by
    rw [Nat.zero_mul, Nat.add_zero]
    refine hbase.iff fun i' _ j' _ => (or_iff_left ?_).symm
    exact not_inTile (t := ⟨region.rows, 0⟩) (Or.inr rfl) _ _ _ _
  have hwalk := Code.exec_loop_induction
    (P := fun k u => Reached x op m n regs start
      (fun i' j' => done i' j' ∨ InTile ⟨region.rows, k * t.cols⟩ region.row region.col i' j')
      region.row (region.col + k * t.cols) u)
    (by decide : Reg.columnCount.IsX) htrips (fun _ _ v hu => hu.set (by decide) v)
    (fun k hk u hu => hu.columnStep hx hm hrows hcols hc hregs hwalks hpending hk) hstart
  rw [htiles] at hwalk
  exact hwalk.toReady

end Region

def pieceCode (op : Op) (region : Region) : Code :=
  match region.tile with
  | none => Code.skip
  | some t => regionCode op region t

theorem Ready.walkPiece (hx : x.Admissible op m n sp) (hm : m < 2 ^ 32) (hn : n < 2 ^ 32)
    (htiled : region.Tiled m n) (hregs : ∀ t, region.tile = some t → t.regs ≤ regs)
    (hpending : ∀ i' j', region.Contains i' j' → ¬done i' j')
    (h : Ready x op m n regs start done s) :
    Ready x op m n regs start (fun i' j' => done i' j' ∨ region.Contains i' j')
      ((pieceCode op region).exec s) := by
  rw [pieceCode]
  cases htile : region.tile with
  | none =>
    refine h.iff fun i' _ j' _ => (or_iff_left ?_).symm
    exact not_inTile (t := ⟨region.rows, region.cols⟩) (htiled.empty htile) _ _ _ _
  | some t =>
    exact h.walkRegion hx hm hn htiled.rows_le htiled.cols_le (htiled.cuts t htile) (hregs t htile)
      hpending

theorem Ready.walkRegions {regions : List Region} (hx : x.Admissible op m n sp) (hm : m < 2 ^ 32)
    (hn : n < 2 ^ 32) (htiled : ∀ region ∈ regions, region.Tiled m n)
    (hregs : ∀ region ∈ regions, ∀ t, region.tile = some t → t.regs ≤ regs)
    (hapart : regions.Pairwise fun region region' => ∀ i j, region.Contains i j → ¬region'.Contains i j)
    (hpending : ∀ region ∈ regions, ∀ i' j', region.Contains i' j' → ¬done i' j')
    (h : Ready x op m n regs start done s) :
    Ready x op m n regs start (fun i' j' => done i' j' ∨ ∃ region ∈ regions, region.Contains i' j')
      ((Code.concat (regions.map (pieceCode op))).exec s) := by
  induction regions generalizing done s with
  | nil => exact h.iff fun i' _ j' _ => by simp
  | cons region rest ih =>
    rw [List.forall_mem_cons] at htiled hregs hpending
    rw [List.pairwise_cons] at hapart
    have hfirst := h.walkPiece hx hm hn htiled.1 hregs.1 hpending.1
    have hrest := ih htiled.2 hregs.2 hapart.2 (fun region' hmem i' j' hin => ?_) hfirst
    · refine hrest.iff fun i' _ j' _ => ?_
      rw [List.exists_mem_cons_iff, or_assoc]
    · refine not_or.2 ⟨hpending.2 region' hmem i' j' hin, fun hin' => ?_⟩
      exact hapart.1 region' hmem i' j' hin' hin

end Walk

/-! What the code of the regions changes, and that it loads nothing when zeros are written. -/

def walkRegs : List (Fin 32) :=
  [Reg.tileIn, Reg.tileOut, Reg.scratch, Reg.cursor, Reg.laneAddress].map (·.id)

theorem straight_pointers (op : Op) {inCode outCode : List Instr} {k : ℕ}
    (hin : Straight [Reg.tileIn.id, Reg.scratch.id] k inCode)
    (hout : Straight [Reg.tileOut.id, Reg.scratch.id] k outCode) :
    Straight walkRegs (k + k) ((if op.needsInput then inCode else []) ++ outCode) := by
  refine Straight.append ?_ (hout.mono (by decide) le_rfl)
  split_ifs
  · exact hin.mono (by decide) le_rfl
  · exact Straight.nil

theorem straight_moveRows (op : Op) (bytes : Int) : Straight walkRegs 10 (moveRows op bytes) :=
  straight_pointers op (Sequence.straight_addConstant ..) (Sequence.straight_addConstant ..)

theorem straight_regionBase {pointer : GeneralReg} (hp : pointer.IsX) (base : GeneralReg)
    {region : Region} (hcol : region.col < 2 ^ 64) (stride : GeneralReg) :
    Straight [pointer.id, Reg.scratch.id] 10 (regionBase pointer base region stride) :=
  (Sequence.straight_addMultiple hp base stride Reg.scratch hcol).append
    (Sequence.straight_addConstant pointer pointer _ Reg.scratch)

section Bounds

variable {t : Tile} (ht : Fits t)
include ht

theorem straight_nextColumns (op : Op) (covered : ℕ) :
    Straight walkRegs 20 (nextColumns op t covered) := by
  have hcols : t.cols < 2 ^ 64 := ht.cols_le.trans_lt (by decide)
  have hstep {pointer : GeneralReg} (hp : pointer.IsX) (stride : GeneralReg) :
      Straight [pointer.id, Reg.scratch.id] 10
        (Sequence.addConstant pointer pointer (-(covered : Int)) Reg.scratch ++
          Sequence.addMultiple pointer pointer t.cols stride Reg.scratch) :=
    (Sequence.straight_addConstant pointer pointer _ Reg.scratch).append
      (Sequence.straight_addMultiple hp pointer stride Reg.scratch hcols)
  exact straight_pointers op (hstep (by decide) Reg.inputStride) (hstep (by decide) Reg.outputStride)

theorem straight_tileCode (op : Op) (walksRows : Bool) :
    Straight walkRegs 299 (tileCode op t walksRows) := by
  have happly := (straight_applyTile ht op).mono (by decide : _ ⊆ walkRegs) le_rfl
  have hstore := (straight_transferTile ht .store Reg.tileOut Reg.outputStride).mono
    (by decide : _ ⊆ walkRegs) le_rfl
  have hmove : Straight walkRegs 10
      (if walksRows then moveRows op ((t.rows * elementBytes : ℕ) : Int) else []) := by
    split_ifs
    · exact straight_moveRows op _
    · exact Straight.nil
  exact (happly.append hstore).append hmove

def regionRegs : List (Fin 32) := Reg.columnCount.id :: Reg.rowCount.id :: walkRegs

theorem bounded_regionCode (op : Op) {region : Region} (hrows : region.rows < 2 ^ 32)
    (hcols : region.cols < 2 ^ 32) (hcol : region.col < 2 ^ 32) :
    Code.Bounded regionRegs 351 (regionCode op region t) := by
  have hrowTrips : region.rows / t.rows < 2 ^ 64 := by
    have := Nat.div_le_self region.rows t.rows
    omega
  have hcolTrips : region.cols / t.cols < 2 ^ 64 := by
    have := Nat.div_le_self region.cols t.cols
    omega
  have hbases := straight_pointers op
    (straight_regionBase (by decide : Reg.tileIn.IsX) Reg.input (by omega : region.col < 2 ^ 64)
      Reg.inputStride)
    (straight_regionBase (by decide : Reg.tileOut.IsX) Reg.output (by omega : region.col < 2 ^ 64)
      Reg.outputStride)
  have htiles := (Code.Bounded.run (straight_tileCode ht op (decide (1 < region.rows / t.rows)))).loop
    (by decide : Reg.rowCount.IsX) hrowTrips (by decide) (by decide)
  have hnext := (straight_nextColumns ht op
    (if decide (1 < region.rows / t.rows) = true then region.rows * elementBytes else 0)).mono
    (by decide : _ ⊆ Reg.rowCount.id :: walkRegs) le_rfl
  have hwalk := (htiles.append (Code.Bounded.run hnext)).loop (by decide : Reg.columnCount.IsX)
    hcolTrips (by decide) (by decide)
  exact (Code.Bounded.run (hbases.mono (by decide : _ ⊆ regionRegs) le_rfl)).append hwalk

end Bounds

end TensorKernels.Elementwise
