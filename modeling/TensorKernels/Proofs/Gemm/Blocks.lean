import TensorKernels.Proofs.Gemm.Operands

/-!
The tiles of an output. A tile is loaded, reduced and stored; a column block walks its row pointers
down over the tiles and back up, then steps to the next block. After each of them the output is
computed as far as the pointers have come, and the rest is as it was.
-/

namespace TensorKernels.Gemm

open Instr Column

variable {F : Type} [Lane F]

structure At (x : Arguments) (shape : Shape) (i j : ℕ) (s : State F) : Prop where
  leftStride : s.general Reg.leftStride.id = 4 * x.leftStride
  rightStride : s.general Reg.rightStride.id = 4 * x.rightStride
  outStride : s.general Reg.outStride.id = 4 * x.outStride
  leftBatch : 1 < shape.batch →
    s.general Reg.leftBatch.id = 4 * x.leftBatch - (shape.k : BitVec 64) * (4 * x.leftStride)
  rightBatch : 1 < shape.batch →
    s.general Reg.rightBatch.id = 4 * x.rightBatch - ((4 * shape.k : ℕ) : BitVec 64)
  tileLeft : s.general Reg.tileLeft.id = x.leftCell i 0 0
  blockRight : s.general Reg.blockRight.id = x.rightCell 0 j 0
  tileOut : s.general Reg.tileOut.id = x.output.cell i j

def strides : List GeneralReg :=
  [Reg.leftStride, Reg.rightStride, Reg.outStride, Reg.leftBatch, Reg.rightBatch]

def strideRegs : List (Fin 32) := strides.map (·.id)

def placeRegs : List (Fin 32) :=
  strideRegs ++ [Reg.tileLeft, Reg.blockRight, Reg.tileOut].map (·.id)

section Place

variable {x : Arguments} {shape : Shape} {i j : ℕ} {s u : State F}

omit [Lane F] in
theorem At.move (h : At x shape i j s) (hkeep : ∀ r ∈ strideRegs, u.general r = s.general r)
    {i' j' : ℕ} (hleft : u.general Reg.tileLeft.id = x.leftCell i' 0 0)
    (hright : u.general Reg.blockRight.id = x.rightCell 0 j' 0)
    (hout : u.general Reg.tileOut.id = x.output.cell i' j') : At x shape i' j' u where
  leftStride := (hkeep _ (by decide)).trans h.leftStride
  rightStride := (hkeep _ (by decide)).trans h.rightStride
  outStride := (hkeep _ (by decide)).trans h.outStride
  leftBatch hb := (hkeep _ (by decide)).trans (h.leftBatch hb)
  rightBatch hb := (hkeep _ (by decide)).trans (h.rightBatch hb)
  tileLeft := hleft
  blockRight := hright
  tileOut := hout

omit [Lane F] in
theorem At.congr (h : At x shape i j s) (hkeep : ∀ r ∈ placeRegs, u.general r = s.general r) :
    At x shape i j u :=
  h.move (fun r hr => hkeep r (List.mem_append_left _ hr)) ((hkeep _ (by decide)).trans h.tileLeft)
    ((hkeep _ (by decide)).trans h.blockRight) ((hkeep _ (by decide)).trans h.tileOut)

omit [Lane F] in
theorem At.set (h : At x shape i j s) {r : Fin 32} (hr : r ∉ placeRegs) (v : BitVec 64) :
    At x shape i j (s.set r v) :=
  h.congr fun q hq => s.general_set_of_ne (fun (e : q = r) => hr (e ▸ hq)) v

theorem straight_moveRows (bytes : Int) :
    Straight [Reg.tileLeft.id, Reg.tileOut.id, Reg.scratch.id] 10 (moveRows bytes) :=
  ((Sequence.straight_addConstant Reg.tileLeft Reg.tileLeft bytes Reg.scratch).mono
      (by simp) le_rfl).append
    ((Sequence.straight_addConstant Reg.tileOut Reg.tileOut bytes Reg.scratch).mono
      (by simp) le_rfl)

theorem effects_moveRows {bytes : Int} (hb : bytes.natAbs < 2 ^ 64) (s : State F) :
    ∃ w w', effects (moveRows bytes) s =
      (((s.set Reg.scratch.id w).set Reg.tileLeft.id
        (s.general Reg.tileLeft.id + (bytes : BitVec 64))).set Reg.scratch.id w').set Reg.tileOut.id
          (s.general Reg.tileOut.id + (bytes : BitVec 64)) := by
  obtain ⟨w, hleft⟩ := Sequence.effects_addConstant (by decide : Reg.tileLeft.IsX)
    (by decide : Reg.tileLeft.IsX) s (by decide : Reg.scratch.IsX) (by decide) hb
  obtain ⟨w', hout⟩ := Sequence.effects_addConstant (by decide : Reg.tileOut.IsX)
    (by decide : Reg.tileOut.IsX)
    ((s.set Reg.scratch.id w).set Reg.tileLeft.id (s.general Reg.tileLeft.id + (bytes : BitVec 64)))
    (by decide : Reg.scratch.IsX) (by decide) hb
  refine ⟨w, w', ?_⟩
  rw [moveRows, effects_append, hleft, hout, State.general_set_of_ne _ (by decide),
    State.general_set_of_ne _ (by decide)]

theorem At.moveRows (h : At x shape i j s) (i' : ℕ) (bytes : Int) (hb : bytes.natAbs < 2 ^ 64)
    (hbytes : (bytes : BitVec 64) = 4 * (i' : BitVec 64) - 4 * (i : BitVec 64)) :
    At x shape i' j (effects (moveRows bytes) s) ∧
      (effects (moveRows bytes) s).memory = s.memory := by
  have hkeep {r : Fin 32} (hr : r ∉ _) := (straight_moveRows bytes).general hr s
  have hleft : x.leftCell i 0 0 + (bytes : BitVec 64) = x.leftCell i' 0 0 := by
    rw [hbytes, Arguments.leftCell, Arguments.leftCell]
    grind
  have hout : x.output.cell i j + (bytes : BitVec 64) = x.output.cell i' j := by
    rw [hbytes, Layout.cell, Layout.cell]
    grind
  obtain ⟨w, w', heq⟩ := effects_moveRows hb s
  refine ⟨h.move (fun r hr => hkeep (by revert r; decide)) ?_
    ((hkeep (by decide)).trans h.blockRight) ?_, by rw [heq]; rfl⟩
  · rw [heq, State.general_set_of_ne _ (by decide), State.general_set_of_ne _ (by decide),
      State.general_set_same, h.tileLeft, hleft]
  · rw [heq, State.general_set_same, h.tileOut, hout]

def nextBlock (columns : ℕ) : List Instr :=
  Sequence.addMultiple Reg.tileOut Reg.tileOut columns Reg.outStride Reg.scratch ++
    Sequence.addMultiple Reg.blockRight Reg.blockRight columns Reg.rightStride Reg.scratch

theorem straight_nextBlock {columns : ℕ} (hc : columns < 2 ^ 64) :
    Straight [Reg.tileOut.id, Reg.blockRight.id, Reg.scratch.id] 10 (nextBlock columns) :=
  ((Sequence.straight_addMultiple (by decide : Reg.tileOut.IsX) Reg.tileOut Reg.outStride Reg.scratch
      hc).mono (by simp) le_rfl).append
    ((Sequence.straight_addMultiple (by decide : Reg.blockRight.IsX) Reg.blockRight Reg.rightStride
      Reg.scratch hc).mono (by simp) le_rfl)

theorem effects_nextBlock {columns : ℕ} (hc : columns < 2 ^ 64) (s : State F) :
    ∃ w w', effects (nextBlock columns) s =
      (((s.set Reg.scratch.id w).set Reg.tileOut.id
        (s.general Reg.tileOut.id + columns * s.general Reg.outStride.id)).set Reg.scratch.id w').set
          Reg.blockRight.id
          (s.general Reg.blockRight.id + columns * s.general Reg.rightStride.id) := by
  obtain ⟨w, hout⟩ := Sequence.effects_addMultiple (by decide : Reg.tileOut.IsX)
    (by decide : Reg.tileOut.IsX) s (by decide : Reg.outStride.IsX) (by decide : Reg.scratch.IsX)
    (by decide) (by decide) hc
  obtain ⟨w', hright⟩ := Sequence.effects_addMultiple (by decide : Reg.blockRight.IsX)
    (by decide : Reg.blockRight.IsX)
    ((s.set Reg.scratch.id w).set Reg.tileOut.id
      (s.general Reg.tileOut.id + columns * s.general Reg.outStride.id))
    (by decide : Reg.rightStride.IsX) (by decide : Reg.scratch.IsX) (by decide) (by decide) hc
  refine ⟨w, w', ?_⟩
  rw [nextBlock, effects_append, hout, hright]
  simp only [State.general_set_of_ne _ (by decide : Reg.blockRight.id ≠ Reg.tileOut.id),
    State.general_set_of_ne _ (by decide : Reg.blockRight.id ≠ Reg.scratch.id),
    State.general_set_of_ne _ (by decide : Reg.rightStride.id ≠ Reg.tileOut.id),
    State.general_set_of_ne _ (by decide : Reg.rightStride.id ≠ Reg.scratch.id)]

theorem At.nextBlock (h : At x shape i j s) {columns : ℕ} (hc : columns < 2 ^ 64) :
    At x shape i (j + columns) (effects (nextBlock columns) s) ∧
      (effects (nextBlock columns) s).memory = s.memory := by
  have hkeep {r : Fin 32} (hr : r ∉ _) := (straight_nextBlock hc).general hr s
  have hcell : x.rightCell 0 j 0 + (columns : BitVec 64) * (4 * x.rightStride) =
      x.rightCell 0 (j + columns) 0 := by
    rw [Arguments.rightCell, Arguments.rightCell]
    push_cast
    grind
  obtain ⟨w, w', heq⟩ := effects_nextBlock hc s
  refine ⟨h.move (fun r hr => hkeep (by revert r; decide)) ((hkeep (by decide)).trans h.tileLeft)
    ?_ ?_, by rw [heq]; rfl⟩
  · rw [heq, State.general_set_same, h.blockRight, h.rightStride, hcell]
  · rw [heq, State.general_set_of_ne _ (by decide), State.general_set_of_ne _ (by decide),
      State.general_set_same, h.tileOut, h.outStride]
    exact x.output.cell_add_column i j columns

end Place

def loadTile (t : Tile) : List Instr :=
  transferTile .load t ++ [.mov Reg.left Reg.tileLeft, .mov Reg.right Reg.blockRight]

theorem transferTile_eq (dir : Transfer) (t : Tile) :
    transferTile dir t = tileTransfer dir t Reg.tileOut Reg.cursor Reg.outStride Reg.laneAddress := rfl

section TransferTile

variable {t : Tile} (ht : Fits t)
include ht

theorem straight_transferTile (dir : Transfer) :
    Straight [Reg.cursor.id, Reg.laneAddress.id] 250 (transferTile dir t) := by
  have hrows := ht.rows_le
  have hmul : t.cols * (t.rows / 4 + 4) ≤ 30 * 8 := Nat.mul_le_mul ht.cols_le (by omega)
  rw [transferTile_eq]
  exact (straight_tileTransfer dir (by omega) Reg.tileOut Reg.cursor Reg.outStride
    Reg.laneAddress).mono (List.Subset.refl _) (by omega)

variable {x : Arguments} {shape : Shape} {i j : ℕ} {s : State F}

theorem At.load (h : At x shape i j s) :
    Accumulating t s.memory (4 * x.leftStride) (4 * x.rightStride) (x.leftCell i 0 0)
      (x.rightCell 0 j 0) (fun column row => s.memory.lane (x.output.cell (i + row) (j + column)))
      (effects (loadTile t) s) := by
  have hrows := ht.rows_le
  have hkeep {r : Fin 32} (hr : r ∉ _) := (straight_transferTile ht .load).general hr s
  have hfit := ht.regs_le
  obtain ⟨hmemory, -, hloaded⟩ := load_tile (l := x.output) (by omega : t.rows ≤ 128)
    (by decide : Reg.tileOut.IsX) (by decide : Reg.cursor.IsX) (by decide : Reg.outStride.IsX)
    (by decide : Reg.laneAddress.IsX) (by decide) (by decide) (by decide) h.tileOut h.outStride
    (by omega)
  rw [← transferTile_eq] at hmemory
  simp only [← transferTile_eq] at hloaded
  rw [loadTile, effects_append]
  generalize effects (transferTile .load t) s = u at hmemory hloaded hkeep ⊢
  have hmoves : effects [.mov Reg.left Reg.tileLeft, .mov Reg.right Reg.blockRight] u =
      (u.set Reg.left.id (x.leftCell i 0 0)).set Reg.right.id (x.rightCell 0 j 0) := by
    rw [effects_cons, effects_cons, effects_nil, effect_mov _ (by decide) (by decide),
      effect_mov _ (by decide) (by decide), State.general_set_of_ne _ (by decide),
      hkeep (by decide), hkeep (by decide), h.tileLeft, h.blockRight]
  have hloadedRows : Accumulating t s.memory (4 * x.leftStride) (4 * x.rightStride)
      (u.general Reg.left.id) (u.general Reg.right.id)
      (fun column row => s.memory.lane (x.output.cell (i + row) (j + column))) u := by
    exact ⟨hmemory, (hkeep (by decide)).trans h.leftStride,
      (hkeep (by decide)).trans h.rightStride, rfl, rfl, hloaded⟩
  rw [hmoves]
  exact hloadedRows.setPointers _ _

theorem At.memory_store (h : At x shape i j s) :
    (effects (transferTile .store t) s).memory =
      x.output.storeTile t i j (fun column => rowsOf (accumulator t column) s) s.memory := by
  have hrows := ht.rows_le
  rw [transferTile_eq]
  exact (store_tile (by omega) (by decide) (by decide) (by decide) (by decide) (by decide)
    (by decide) (by decide) h.tileOut h.outStride).1

end TransferTile

structure Counted (shape : Shape) : Prop where
  k_lt : shape.k < 2 ^ 64
  batch_pos : 0 < shape.batch
  batch_lt : shape.batch < 2 ^ 64

def tileRegs : List (Fin 32) :=
  [Reg.batchCount, Reg.depthCount, Reg.left, Reg.right, Reg.cursor, Reg.laneAddress].map (·.id)

def tileReduction (shape : Shape) (t : Tile) : Code :=
  .run (loadTile t) ++ reduction shape t

section Tile

variable {x : Arguments} {shape : Shape} {sp : Address} {t : Tile} {start : Memory}
  {done : ℕ → ℕ → Prop} {i j : ℕ} {s : State F}

theorem leftLanes_eq (x : Arguments) (m : Memory) (i row : ℕ) :
    leftLanes m (x.leftCell i 0 0) (4 * x.leftBatch) (4 * x.leftStride) row =
      fun br l => (m.lane (x.leftCell (i + row) l br) : F) := by
  funext br l
  refine congrArg m.lane ?_
  rw [Arguments.leftCell, Arguments.leftCell]
  push_cast
  grind

theorem rightLanes_eq (x : Arguments) (m : Memory) (j column : ℕ) :
    rightLanes m (x.rightCell 0 j 0) (4 * x.rightBatch) (4 * x.rightStride) column =
      fun br l => (m.lane (x.rightCell l (j + column) br) : F) := by
  funext br l
  refine congrArg m.lane ?_
  rw [Arguments.rightCell, Arguments.rightCell]
  push_cast
  grind

section Reduce

variable (ht : Fits t)
include ht

theorem straight_loadTile : Straight tileRegs 252 (loadTile t) := by
  have hload := (straight_transferTile ht .load).mono
    (by decide : [Reg.cursor.id, Reg.laneAddress.id] ⊆ tileRegs) le_rfl
  have hmoves : Straight tileRegs 2 [.mov Reg.left Reg.tileLeft, .mov Reg.right Reg.blockRight] := by
    refine Straight.cons ⟨trivial, rfl, rfl⟩ (by simp [WritesGeneral, tileRegs]) ?_
    exact Straight.singleton ⟨trivial, rfl, rfl⟩ (by simp [WritesGeneral, tileRegs])
  exact hload.append hmoves

variable (hc : Counted shape)
include hc

theorem bounded_tileReduction : Code.Bounded tileRegs 466 (tileReduction shape t) :=
  (Code.Bounded.run (straight_loadTile ht)).append (bounded_reduction ht hc.k_lt hc.batch_lt)

theorem tileReduction_rows (h : At x shape i j s) :
    ((tileReduction shape t).exec s).memory = s.memory ∧
      ∀ column < t.cols, ∀ row < t.rows,
        rowsOf (accumulator t column) ((tileReduction shape t).exec s) row =
          x.result shape s.memory (i + row) (j + column) := by
  have hkeep {r : Fin 32} (hr : r ∉ _) := (straight_loadTile ht).general hr s
  obtain ⟨_, _, hdone⟩ := (At.load ht h).reduction ht hc.k_lt hc.batch_pos hc.batch_lt
    (fun hb => (hkeep (by decide)).trans (h.leftBatch hb))
    (fun hb => (hkeep (by decide)).trans (h.rightBatch hb))
  refine ⟨hdone.memory, fun column hcolumn row hrow => (hdone.rows column hcolumn row hrow).trans ?_⟩
  rw [Arguments.result, leftLanes_eq, rightLanes_eq]

theorem tile_spec (hx : x.Admissible shape sp) (h : At x shape i j s)
    (hp : x.output.Progress shape.m shape.n (x.result shape start : ℕ → ℕ → F) start done s.memory)
    (hi : i + t.rows ≤ shape.m) (hj : j + t.cols ≤ shape.n)
    (hpending : ∀ row < t.rows, ∀ column < t.cols, ¬done (i + row) (j + column)) :
    At x shape i j (effects (transferTile .store t) ((tileReduction shape t).exec s)) ∧
      x.output.Progress shape.m shape.n (x.result shape start : ℕ → ℕ → F) start
        (fun i' j' => done i' j' ∨ InTile t i j i' j')
        (effects (transferTile .store t) ((tileReduction shape t).exec s)).memory := by
  have hrows := ht.rows_le
  obtain ⟨hmemory, hresult⟩ := tileReduction_rows ht hc h
  have hreduced : At x shape i j ((tileReduction shape t).exec s) :=
    h.congr fun r hr => (bounded_tileReduction ht hc).general (by revert r; decide) s
  refine ⟨hreduced.congr fun r hr =>
    (straight_transferTile ht .store).general (by revert r; decide) _, ?_⟩
  rw [At.memory_store ht hreduced, hmemory]
  refine hp.store hx.proper (by omega) hi hj fun column hcolumn row hrow => ?_
  rw [hresult column hcolumn row hrow,
    hx.result_eq hp (by omega) (by omega) (hpending row hrow column hcolumn)]

end Reduce

theorem exec_tileCode (shape : Shape) (t : Tile) (advance : Bool) (s : State F) :
    (tileCode shape t advance).exec s =
      effects (if advance then moveRows (t.rows * elementBytes) else [])
        (effects (transferTile .store t) ((tileReduction shape t).exec s)) := by
  rw [← effects_append]
  rfl

theorem bounded_tileCode (ht : Fits t) (hc : Counted shape) (advance : Bool) :
    Code.Bounded (Reg.tileLeft.id :: Reg.tileOut.id :: Reg.scratch.id :: tileRegs) 726
      (tileCode shape t advance) := by
  have hreduction := (bounded_tileReduction ht hc).mono
    (by decide : tileRegs ⊆ Reg.tileLeft.id :: Reg.tileOut.id :: Reg.scratch.id :: tileRegs) le_rfl
  have hstore := (straight_transferTile ht .store).mono
    (by decide : _ ⊆ Reg.tileLeft.id :: Reg.tileOut.id :: Reg.scratch.id :: tileRegs) le_rfl
  have hmove : Straight (Reg.tileLeft.id :: Reg.tileOut.id :: Reg.scratch.id :: tileRegs) 10
      (if advance then moveRows (t.rows * elementBytes) else []) := by
    split_ifs
    · exact (straight_moveRows _).mono (by decide) le_rfl
    · exact Straight.nil
  exact hreduction.append (Code.Bounded.run (hstore.append hmove))

end Tile

def Below (columns i j i' j' : ℕ) : Prop := j' < j ∨ j' < j + columns ∧ i' < i

theorem below_or_inTile (t : Tile) (i j i' j' : ℕ) :
    Below t.cols i j i' j' ∨ InTile t i j i' j' ↔ Below t.cols (i + t.rows) j i' j' := by
  rw [Below, InTile, Below]
  omega

/-- A product that has come to row `i` of the block of `columns` columns at column `j`. -/
structure Reached (x : Arguments) (shape : Shape) (start : Memory) (columns i j : ℕ) (s : State F) :
    Prop where
  place : At x shape i j s
  progress : x.output.Progress shape.m shape.n (x.result shape start : ℕ → ℕ → F) start
    (Below columns i j) s.memory

structure Tiled (shape : Shape) (tiling : Tiling) (columns : ℕ) : Prop where
  full : Fits ⟨tiling.big.rows, columns⟩
  rest : 0 < tiling.rowRemainder → Fits ⟨tiling.rowRemainder, columns⟩
  rows : tiling.fullRowTiles * tiling.big.rows + tiling.rowRemainder = shape.m
  m_pos : 0 < shape.m
  m_lt : shape.m < 2 ^ 32

section Block

variable {x : Arguments} {shape : Shape} {tiling : Tiling} {sp : Address} {start : Memory}
  {columns i j : ℕ} {s : State F}

theorem Reached.set (h : Reached x shape start columns i j s) {r : Fin 32} (hr : r ∉ placeRegs)
    (v : BitVec 64) : Reached x shape start columns i j (s.set r v) :=
  ⟨h.place.set hr v, h.progress⟩

/-- The block is done in the rows of a tile; the row pointers move over it if they are to. -/
theorem Reached.tile {t : Tile} (h : Reached x shape start t.cols i j s)
    (hx : x.Admissible shape sp) (hc : Counted shape) (ht : Fits t) (hi : i + t.rows ≤ shape.m)
    (hj : j + t.cols ≤ shape.n) (advance : Bool) :
    At x shape (if advance then i + t.rows else i) j ((tileCode shape t advance).exec s) ∧
      x.output.Progress shape.m shape.n (x.result shape start : ℕ → ℕ → F) start
        (Below t.cols (i + t.rows) j) ((tileCode shape t advance).exec s).memory := by
  have hrows := ht.rows_le
  obtain ⟨hplace, hprogress⟩ := tile_spec ht hc hx h.place h.progress hi hj fun row _ column _ hd => by
    rw [Below] at hd
    omega
  have hcongr := hprogress.congr fun i' _ j' _ => below_or_inTile t i j i' j'
  rw [exec_tileCode]
  cases advance with
  | false => exact ⟨hplace, hcongr⟩
  | true =>
    have hbytes : ((((t.rows : Int) * elementBytes : Int)) : BitVec 64) =
        4 * ((i + t.rows : ℕ) : BitVec 64) - 4 * (i : BitVec 64) := by
      rw [elementBytes]
      push_cast
      grind
    obtain ⟨hmoved, hmemory⟩ := hplace.moveRows (i + t.rows) _ (by rw [elementBytes]; omega) hbytes
    rw [if_pos rfl, if_pos rfl, hmemory]
    exact ⟨hmoved, hcongr⟩

def lastTile (shape : Shape) (tiling : Tiling) (columns : ℕ) : Code :=
  if 0 < tiling.rowRemainder then tileCode shape ⟨tiling.rowRemainder, columns⟩ false
  else if loopedTiles tiling = 0 then tileCode shape ⟨tiling.big.rows, columns⟩ false
  else Code.skip

def lastRows (tiling : Tiling) : ℕ :=
  if 0 < tiling.rowRemainder then tiling.rowRemainder
  else if loopedTiles tiling = 0 then tiling.big.rows else 0

theorem Tiled.looped_add_last (h : Tiled shape tiling columns) :
    loopedTiles tiling * tiling.big.rows + lastRows tiling = shape.m := by
  have hrows := h.rows
  have hpos := h.m_pos
  rw [lastRows, loopedTiles]
  split_ifs with hone hrest hzero hrest hnone
  · omega
  · rw [hone.2] at hrows
    omega
  · exact absurd rfl hzero
  · exact hrows
  · rw [hnone] at hrows
    omega
  · omega

theorem Tiled.looped_le (h : Tiled shape tiling columns) :
    loopedTiles tiling * tiling.big.rows ≤ shape.m := by
  have hrows := h.looped_add_last
  omega

theorem Tiled.looped_lt (h : Tiled shape tiling columns) : loopedTiles tiling < 2 ^ 64 := by
  have hle := h.looped_le
  have hm := h.m_lt
  have hpos : 0 < tiling.big.rows := h.full.rows_pos
  have htrips := Nat.le_mul_of_pos_right (loopedTiles tiling) hpos
  omega

section Walk

variable (hx : x.Admissible shape sp) (hc : Counted shape) (ht : Tiled shape tiling columns)
  (hj : j + columns ≤ shape.n)
include hx hc ht hj

theorem Reached.rowLoop (h : Reached x shape start columns 0 j s) :
    Reached x shape start columns (loopedTiles tiling * tiling.big.rows) j
      ((Code.loop Reg.rowCount (loopedTiles tiling)
        (tileCode shape ⟨tiling.big.rows, columns⟩ true)).exec s) := by
  refine Code.exec_loop_induction
    (P := fun n => Reached x shape start columns (n * tiling.big.rows) j) (by decide) ht.looped_lt
    (fun _ _ v hu => hu.set (by decide) v) (fun n hn u hu => ?_) (by rwa [Nat.zero_mul])
  have hnext : n * tiling.big.rows + tiling.big.rows ≤ shape.m := by
    rw [← Nat.succ_mul]
    exact (Nat.mul_le_mul_right _ hn).trans ht.looped_le
  rw [Nat.succ_mul]
  exact ⟨(hu.tile hx hc ht.full hnext hj true).1, (hu.tile hx hc ht.full hnext hj true).2⟩

theorem Reached.lastTile
    (h : Reached x shape start columns (loopedTiles tiling * tiling.big.rows) j s) :
    At x shape (loopedTiles tiling * tiling.big.rows) j
        ((lastTile shape tiling columns).exec s) ∧
      x.output.Progress shape.m shape.n (x.result shape start : ℕ → ℕ → F) start
        (Below columns shape.m j) ((lastTile shape tiling columns).exec s).memory := by
  have hrows := ht.looped_add_last
  rw [Gemm.lastTile]
  rw [lastRows] at hrows
  split_ifs at hrows ⊢ with hrest hnone
  · have hlast := h.tile hx hc (ht.rest hrest) hrows.le hj false
    dsimp only at hlast
    rwa [hrows] at hlast
  · have hlast := h.tile hx hc ht.full hrows.le hj false
    dsimp only at hlast
    rwa [hrows] at hlast
  · have hdone := h.progress
    rw [← Nat.add_zero (loopedTiles tiling * tiling.big.rows), hrows] at hdone
    exact ⟨h.place, hdone⟩

omit hx hc ht hj in
theorem exec_columnBlock (shape : Shape) (tiling : Tiling) (columns : ℕ) (s : State F) :
    (columnBlock shape tiling columns).exec s =
      effects (nextBlock columns)
        (effects (moveRows (-((loopedTiles tiling * tiling.big.rows * elementBytes : ℕ) : Int)))
          ((lastTile shape tiling columns).exec
            ((Code.loop Reg.rowCount (loopedTiles tiling)
              (tileCode shape ⟨tiling.big.rows, columns⟩ true)).exec s))) := by
  rw [← effects_append, nextBlock, ← List.append_assoc]
  rfl

theorem Reached.columnBlock (h : Reached x shape start columns 0 j s) :
    Reached x shape start columns 0 (j + columns) ((columnBlock shape tiling columns).exec s) := by
  have hle := ht.looped_le
  have hm := ht.m_lt
  have hcols : columns ≤ 30 := ht.full.cols_le
  obtain ⟨hplace, hprogress⟩ := (h.rowLoop hx hc ht hj).lastTile hx hc ht hj
  have hbytes : ((-((loopedTiles tiling * tiling.big.rows * elementBytes : ℕ) : Int) : Int) :
      BitVec 64) = 4 * ((0 : ℕ) : BitVec 64) -
        4 * ((loopedTiles tiling * tiling.big.rows : ℕ) : BitVec 64) := by
    rw [elementBytes]
    push_cast
    grind
  obtain ⟨hback, hbackMemory⟩ := hplace.moveRows 0 _ (by rw [elementBytes]; omega) hbytes
  obtain ⟨hnext, hnextMemory⟩ := hback.nextBlock (by omega : columns < 2 ^ 64)
  rw [exec_columnBlock]
  refine ⟨hnext, ?_⟩
  rw [hnextMemory, hbackMemory]
  -- with all rows of the block done, it counts as done at row 0 of the next one
  refine hprogress.congr fun i' hi' j' _ => ?_
  rw [Below, Below]
  omega

end Walk

theorem Reached.recolumn (h : Reached x shape start columns 0 j s) (columns' : ℕ) :
    Reached x shape start columns' 0 j s :=
  ⟨h.place, h.progress.congr fun i' _ j' _ => by rw [Below, Below]; omega⟩

theorem Reached.columnBlocks (blocks : ℕ) (hx : x.Admissible shape sp) (hc : Counted shape)
    (ht : 0 < columns → Tiled shape tiling columns) (hblocks : j + blocks * columns ≤ shape.n)
    (hn : shape.n < 2 ^ 32) (h : Reached x shape start columns 0 j s) :
    Reached x shape start columns 0 (j + blocks * columns)
      ((columnBlocks shape tiling columns blocks).exec s) := by
  rw [Gemm.columnBlocks]
  split_ifs with hnone
  · have hzero : blocks * columns = 0 := by
      rcases hnone with hzero | hzero <;> rw [hzero] <;> simp
    rw [hzero, Nat.add_zero]
    exact h
  · rw [not_or] at hnone
    have hpos := Nat.pos_of_ne_zero hnone.1
    have hle := Nat.le_mul_of_pos_right blocks hpos
    refine Code.exec_loop_induction
      (P := fun n => Reached x shape start columns 0 (j + n * columns)) (by decide) (by omega)
      (fun _ _ v hu => hu.set (by decide) v) (fun n hlt u hu => ?_)
      (by rwa [Nat.zero_mul, Nat.add_zero])
    have hnext : j + n * columns + columns ≤ shape.n := by
      have := Nat.mul_le_mul_right columns hlt
      rw [Nat.succ_mul] at this
      omega
    rw [Nat.succ_mul, ← Nat.add_assoc]
    exact hu.columnBlock hx hc (ht hpos) hnext

def blockRegs : List (Fin 32) :=
  Reg.rowCount.id :: Reg.blockRight.id :: Reg.tileLeft.id :: Reg.tileOut.id :: Reg.scratch.id :: tileRegs

theorem bounded_columnBlock (hc : Counted shape) (ht : Tiled shape tiling columns) :
    Code.Bounded blockRegs 1478 (columnBlock shape tiling columns) := by
  have hcols : columns ≤ 30 := ht.full.cols_le
  have hrows := (bounded_tileCode ht.full hc true).loop (by decide : Reg.rowCount.IsX)
    ht.looped_lt (by decide) (by decide)
  have hlast : Code.Bounded blockRegs 726 (lastTile shape tiling columns) := by
    rw [lastTile]
    split_ifs with hrest hnone
    · exact (bounded_tileCode (ht.rest hrest) hc false).mono (by decide) le_rfl
    · exact (bounded_tileCode ht.full hc false).mono (by decide) le_rfl
    · exact Code.Bounded.run Straight.nil
  have hmoves := ((straight_moveRows (-((loopedTiles tiling * tiling.big.rows * elementBytes : ℕ) :
      Int))).mono (by decide : _ ⊆ blockRegs) le_rfl).append
    ((straight_nextBlock (by omega : columns < 2 ^ 64)).mono (by decide : _ ⊆ blockRegs) le_rfl)
  rw [nextBlock, ← List.append_assoc] at hmoves
  exact ((hrows.mono (by decide) le_rfl).append hlast).append (Code.Bounded.run hmoves)

theorem bounded_columnBlocks {blocks : ℕ} (hc : Counted shape)
    (ht : 0 < columns → Tiled shape tiling columns) (hb : blocks < 2 ^ 64) :
    Code.Bounded (Reg.blockCount.id :: blockRegs) 1484 (columnBlocks shape tiling columns blocks) := by
  rw [columnBlocks]
  split_ifs with hnone
  · exact Code.Bounded.run Straight.nil
  · rw [not_or] at hnone
    exact (bounded_columnBlock hc (ht (Nat.pos_of_ne_zero hnone.1))).loop (by decide) hb (by decide)
      (by decide)

end Block

end TensorKernels.Gemm
