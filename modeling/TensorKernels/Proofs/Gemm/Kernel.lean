import TensorKernels.Gemm.Kernel
import TensorKernels.Proofs.Gemm.Tiling
import TensorKernels.Proofs.Result

/-!
Matrix product kernels compute the product. The staged registers are those of the first tile; the
column blocks then compute the output from the first column to the last. Running the assembled words
therefore returns with every output element reduced over the batch and the depth, and with no other
byte changed but those of the saved registers.
-/

namespace TensorKernels.Gemm

open Instr

variable {F : Type} [Lane F]

def Arguments.ofState (s : State F) : Arguments where
  left := s.general 0
  right := s.general 1
  out := s.general 2
  leftStride := s.general 3
  rightStride := s.general 4
  outStride := s.general 5
  leftBatch := s.general 6
  rightBatch := s.general 7

def stagePointers : List Instr :=
  [.mov Reg.tileLeft Reg.left, .mov Reg.blockRight Reg.right, .mov Reg.tileOut Reg.out] ++
    strides.map fun r => .lslImm r r 2

def stageBatch (k : ℕ) : List Instr :=
  Sequence.loadConstant Reg.scratch k ++
    [.mul Reg.laneAddress Reg.scratch Reg.leftStride,
      .subReg Reg.leftBatch Reg.leftBatch Reg.laneAddress .lsl 0,
      .subReg Reg.rightBatch Reg.rightBatch Reg.scratch .lsl 2]

theorem staging_eq (shape : Shape) :
    staging shape = stagePointers ++ if 1 < shape.batch then stageBatch shape.k else [] := rfl

theorem straight_stagePointers : Straight placeRegs 8 stagePointers := by
  have hmoves : Straight placeRegs 3
      [.mov Reg.tileLeft Reg.left, .mov Reg.blockRight Reg.right, .mov Reg.tileOut Reg.out] :=
    ⟨by simp only [List.forall_mem_cons]; exact ⟨⟨trivial, rfl, rfl⟩, ⟨trivial, rfl, rfl⟩,
      ⟨trivial, rfl, rfl⟩, by simp⟩, by simp [WritesGeneral, placeRegs], by decide⟩
  exact hmoves.append ((Sequence.straight_scale (by decide : ∀ r ∈ strides, r.IsX)).mono (by decide) le_rfl)

theorem stagePointers_spec (s : State F) :
    (effects stagePointers s).memory = s.memory ∧
      (∀ r ∈ strides, (effects stagePointers s).general r.id = 4 * s.general r.id) ∧
      (effects stagePointers s).general Reg.tileLeft.id = s.general Reg.left.id ∧
      (effects stagePointers s).general Reg.blockRight.id = s.general Reg.right.id ∧
      (effects stagePointers s).general Reg.tileOut.id = s.general Reg.out.id := by
  have hmoves : effects [.mov Reg.tileLeft Reg.left, .mov Reg.blockRight Reg.right,
      .mov Reg.tileOut Reg.out] s = ((s.set Reg.tileLeft.id (s.general Reg.left.id)).set
        Reg.blockRight.id (s.general Reg.right.id)).set Reg.tileOut.id (s.general Reg.out.id) := rfl
  obtain ⟨hmemory, hscaled⟩ := Sequence.effects_scale (by decide : ∀ r ∈ strides, r.IsX) (by decide)
    (((s.set Reg.tileLeft.id (s.general Reg.left.id)).set Reg.blockRight.id
      (s.general Reg.right.id)).set Reg.tileOut.id (s.general Reg.out.id))
  have hkeep {r : Fin 32} (hr : r ∉ _) (s : State F) :=
    (Sequence.straight_scale (by decide : ∀ r ∈ strides, r.IsX)).general hr s
  rw [stagePointers, effects_append, hmoves]
  refine ⟨hmemory, fun r hr => ?_, ?_, ?_, ?_⟩
  · have hne : r.id ≠ Reg.tileLeft.id ∧ r.id ≠ Reg.blockRight.id ∧ r.id ≠ Reg.tileOut.id :=
      (by decide : ∀ r ∈ strides, r.id ≠ Reg.tileLeft.id ∧ r.id ≠ Reg.blockRight.id ∧
        r.id ≠ Reg.tileOut.id) r hr
    rw [hscaled r hr, State.general_set_of_ne _ hne.2.2, State.general_set_of_ne _ hne.2.1,
      State.general_set_of_ne _ hne.1]
  · rw [hkeep (by decide), State.general_set_of_ne _ (by decide), State.general_set_of_ne _ (by decide),
      State.general_set_same]
  · rw [hkeep (by decide), State.general_set_of_ne _ (by decide), State.general_set_same]
  · rw [hkeep (by decide), State.general_set_same]

theorem straight_stageBatch (k : ℕ) :
    Straight [Reg.scratch.id, Reg.laneAddress.id, Reg.leftBatch.id, Reg.rightBatch.id] 7
      (stageBatch k) := by
  have hload := (Sequence.straight_loadConstant Reg.scratch k).mono
    (by simp : _ ⊆ [Reg.scratch.id, Reg.laneAddress.id, Reg.leftBatch.id, Reg.rightBatch.id]) le_rfl
  have hsteps : Straight [Reg.scratch.id, Reg.laneAddress.id, Reg.leftBatch.id, Reg.rightBatch.id] 3
      [.mul Reg.laneAddress Reg.scratch Reg.leftStride,
        .subReg Reg.leftBatch Reg.leftBatch Reg.laneAddress .lsl 0,
        .subReg Reg.rightBatch Reg.rightBatch Reg.scratch .lsl 2] := by
    refine Straight.cons ⟨trivial, rfl, rfl⟩ (by simp [WritesGeneral]) ?_
    refine Straight.cons ⟨(by decide : 0 < Reg.leftBatch.bits), rfl, rfl⟩ (by simp [WritesGeneral]) ?_
    exact Straight.singleton ⟨(by decide : 2 < Reg.rightBatch.bits), rfl, rfl⟩
      (by simp [WritesGeneral])
  exact hload.append hsteps

def stagingRegs : List (Fin 32) :=
  placeRegs ++ [Reg.scratch.id, Reg.laneAddress.id]

theorem straight_staging (shape : Shape) : Straight stagingRegs (8 + 7) (staging shape) := by
  rw [staging_eq]
  refine (straight_stagePointers.mono (by decide : placeRegs ⊆ stagingRegs) le_rfl).append ?_
  split_ifs
  · exact (straight_stageBatch shape.k).mono (by decide) le_rfl
  · exact Straight.nil

theorem effects_stageBatch {k : ℕ} (hk : k < 2 ^ 64) (s : State F) :
    effects (stageBatch k) s =
      ((((s.set Reg.scratch.id k).set Reg.laneAddress.id
        ((k : BitVec 64) * s.general Reg.leftStride.id)).set Reg.leftBatch.id
          (s.general Reg.leftBatch.id - (k : BitVec 64) * s.general Reg.leftStride.id)).set
            Reg.rightBatch.id (s.general Reg.rightBatch.id - ((4 * k : ℕ) : BitVec 64))) := by
  have hfour : (k : BitVec 64) <<< 2 = ((4 * k : ℕ) : BitVec 64) := by
    rw [Sequence.shiftLeft_eq_mul]
    grind
  rw [stageBatch, effects_append, Sequence.effects_loadConstant (by decide) hk, effects_cons,
    effects_cons, effects_cons, effects_nil, effect_mul _ (by decide) (by decide) (by decide),
    effect_subReg _ (by decide) (by decide) (by decide),
    effect_subReg _ (by decide) (by decide) (by decide)]
  simp +decide only [State.general_set_apply, if_true, if_false, hfour, BitVec.shiftLeft_zero]

theorem at_staging {shape : Shape} (hk : shape.k < 2 ^ 64) (s : State F) :
    At (Arguments.ofState s) shape 0 0 (effects (staging shape) s) ∧
      (effects (staging shape) s).memory = s.memory := by
  obtain ⟨hmemory, hstrides, hleft, hright, hout⟩ := stagePointers_spec s
  have hleftCell := (Arguments.ofState s).leftCell_zero
  have hrightCell := (Arguments.ofState s).rightCell_zero
  have houtCell := (Arguments.ofState s).output.cell_zero
  rw [staging_eq, effects_append]
  generalize effects stagePointers s = u at hmemory hstrides hleft hright hout ⊢
  split_ifs with hmany
  · have hkeep {r : Fin 32} (hr : r ∉ _) := (straight_stageBatch shape.k).general hr u
    have hbatch := effects_stageBatch hk u
    refine ⟨⟨(hkeep (by decide)).trans (hstrides _ (by decide)),
      (hkeep (by decide)).trans (hstrides _ (by decide)),
      (hkeep (by decide)).trans (hstrides _ (by decide)), fun _ => ?_, fun _ => ?_,
      (hkeep (by decide)).trans (hleft.trans hleftCell.symm),
      (hkeep (by decide)).trans (hright.trans hrightCell.symm),
      (hkeep (by decide)).trans (hout.trans houtCell.symm)⟩, ?_⟩
    · rw [hbatch, State.general_set_of_ne _ (by decide), State.general_set_same,
        hstrides Reg.leftBatch (by decide), hstrides Reg.leftStride (by decide)]
      rfl
    · rw [hbatch, State.general_set_same, hstrides Reg.rightBatch (by decide)]
      rfl
    · rw [hbatch]
      exact hmemory
  · exact ⟨⟨hstrides _ (by decide), hstrides _ (by decide), hstrides _ (by decide),
      fun h => absurd h hmany, fun h => absurd h hmany, hleft.trans hleftCell.symm,
      hright.trans hrightCell.symm, hout.trans houtCell.symm⟩, hmemory⟩

structure Extents (shape : Shape) : Prop where
  m : 0 < shape.m ∧ shape.m < 2 ^ 32
  n : 0 < shape.n ∧ shape.n < 2 ^ 32
  k : 0 < shape.k ∧ shape.k < 2 ^ 32
  batch : 0 < shape.batch ∧ shape.batch < 2 ^ 32

structure Shape.Admitted (shape : Shape) : Prop where
  plain : shape.transA = false ∧ shape.transB = false ∧ shape.transC = false
  dtype : shape.dtype = .f32
  extents : Extents shape

theorem validate_eq_ok_iff {shape : Shape} : shape.validate = .ok () ↔ shape.Admitted := by
  simp only [Shape.validate, check_bind_eq_ok_iff, require_eq_ok_iff, inExtentRange_iff,
    Bool.not_eq_true', Bool.or_eq_false_iff, beq_iff_eq]
  constructor
  · rintro ⟨⟨⟨hA, hB⟩, hC⟩, hdtype, hm, hn, hk, hbatch⟩
    exact ⟨⟨hA, hB, hC⟩, hdtype, hm, hn, hk, hbatch⟩
  · rintro ⟨⟨hA, hB, hC⟩, hdtype, hm, hn, hk, hbatch⟩
    exact ⟨⟨⟨hA, hB⟩, hC⟩, hdtype, hm, hn, hk, hbatch⟩

theorem extents_of_validate {shape : Shape} (h : shape.validate = .ok ()) : Extents shape :=
  (validate_eq_ok_iff.1 h).extents

def kernelBody (shape : Shape) : Code :=
  let tiling := Tiling.ofOutput shape.m shape.n
  .run (Sequence.saveVectors ++ staging shape) ++
    columnBlocks shape tiling tiling.big.cols (tiling.fullBlocks shape.n) ++
    columnBlocks shape tiling tiling.small.cols (if 0 < tiling.small.cols then 1 else 0)

def allBlocks (shape : Shape) : Code :=
  let tiling := Tiling.ofOutput shape.m shape.n
  columnBlocks shape tiling tiling.big.cols (tiling.fullBlocks shape.n) ++
    columnBlocks shape tiling tiling.small.cols (if 0 < tiling.small.cols then 1 else 0)

theorem kernelCode_eq (shape : Shape) :
    kernelCode shape (Tiling.ofOutput shape.m shape.n) =
      kernelBody shape ++ .run Sequence.restoreAndReturn := rfl

section Run

variable {shape : Shape} (he : Extents shape)
include he

theorem Extents.counted : Counted shape :=
  ⟨by have := he.k; omega, he.batch.1, by have := he.batch; omega⟩

theorem Extents.tiled_big :
    Tiled shape (Tiling.ofOutput shape.m shape.n) (Tiling.ofOutput shape.m shape.n).big.cols :=
  Tiling.tiled he.m.1 he.m.2 le_rfl

theorem Extents.tiled_small :
    Tiled shape (Tiling.ofOutput shape.m shape.n) (Tiling.ofOutput shape.m shape.n).small.cols := by
  refine Tiling.tiled he.m.1 he.m.2 ?_
  rw [Tiling.small_cols_eq he.n.1]
  exact (Nat.mod_lt _ (Tiling.big_cols_pos he.n.1)).le

theorem Extents.fullBlocks_lt : (Tiling.ofOutput shape.m shape.n).fullBlocks shape.n < 2 ^ 64 := by
  have hn := he.n.2
  have hcolumns := Tiling.columns_eq (m := shape.m) he.n.1
  have hle := Nat.le_mul_of_pos_right ((Tiling.ofOutput shape.m shape.n).fullBlocks shape.n)
    (Tiling.big_cols_pos (m := shape.m) he.n.1)
  omega

theorem bounded_allBlocks : Code.Bounded (Reg.blockCount.id :: blockRegs) (1484 + 1484)
    (allBlocks shape) :=
  (bounded_columnBlocks he.counted (fun _ => he.tiled_big) he.fullBlocks_lt).append
    (bounded_columnBlocks he.counted (fun _ => he.tiled_small) (by split_ifs <;> decide))

theorem wellFormed_kernelBody : (kernelBody shape).WellFormed := by
  refine ⟨⟨List.forall_mem_append.2 ⟨Sequence.straight_saveVectors.plain, ?_⟩, ?_⟩, ?_⟩
  · exact (straight_staging shape).plain
  · exact (bounded_allBlocks he).wellFormed.1
  · exact (bounded_allBlocks he).wellFormed.2

theorem reached_kernelBody (s : State F)
    (hx : (Arguments.ofState s).Admissible shape (s.general 31)) :
    ∃ columns, Reached (Arguments.ofState s) shape (effects Sequence.saveVectors s).memory columns 0
      shape.n ((kernelBody shape).exec s) := by
  have harguments : Arguments.ofState (effects Sequence.saveVectors s) = Arguments.ofState s := by
    have hkeep {r : Fin 32} (hr : r ∉ [31]) := Sequence.straight_saveVectors.general hr s
    simp [Arguments.ofState, hkeep]
  obtain ⟨hplace, hmemory⟩ := at_staging he.counted.k_lt (effects Sequence.saveVectors s)
  rw [harguments] at hplace
  have hcolumns := Tiling.columns_eq (m := shape.m) he.n.1
  -- the blocks start from the memory that saving the registers leaves
  have hstart : Reached (Arguments.ofState s) shape (effects Sequence.saveVectors s).memory
      (Tiling.ofOutput shape.m shape.n).big.cols 0 0
      (effects (Sequence.saveVectors ++ staging shape) s) := by
    rw [effects_append]
    refine ⟨hplace, ?_⟩
    rw [hmemory]
    exact (Layout.Progress.refl ..).congr fun i _ j _ => by simp [Below]
  have hbig := hstart.columnBlocks ((Tiling.ofOutput shape.m shape.n).fullBlocks shape.n) hx
    he.counted (fun _ => he.tiled_big) (by omega) he.n.2
  have hsmall := (hbig.recolumn (Tiling.ofOutput shape.m shape.n).small.cols).columnBlocks
    (if 0 < (Tiling.ofOutput shape.m shape.n).small.cols then 1 else 0) hx he.counted
    (fun _ => he.tiled_small) (by omega) he.n.2
  rw [Nat.zero_add, hcolumns] at hsmall
  exact ⟨_, hsmall⟩

end Run

/-- The kernel of a valid shape returns from every admissible call. Each output element is then its
old value with the products of the batch added, in the order of the pairs and of their depth, and no
byte outside the output and the saved registers has changed. -/
theorem generate_computes_product {shape : Shape} (h : shape.validate = .ok ()) :
    ∃ kernel, Kernel.generate shape = .ok kernel ∧
      ∀ (F : Type) [Lane F] (s : State F),
        (Arguments.ofState s).Admissible shape (s.general 31) →
          ∃ t, ReturnsIn kernel.code.words s t ∧
            (∀ i < shape.m, ∀ j < shape.n, t.memory.lane ((Arguments.ofState s).output.cell i j) =
              reduceBatch shape.batch shape.k
                (fun br l => s.memory.lane ((Arguments.ofState s).leftCell i l br))
                (fun br l => s.memory.lane ((Arguments.ofState s).rightCell l j br))
                (s.memory.lane ((Arguments.ofState s).output.cell i j) : F)) ∧
            ∀ y ∉ (Arguments.ofState s).output.cells shape.m shape.n ∪
                Sequence.saveArea (s.general 31), t.memory y = s.memory y := by
  have he := extents_of_validate h
  obtain ⟨code, hcode⟩ := Sequence.exists_assembleKernel (wellFormed_kernelBody he)
  refine ⟨⟨shape, Tiling.ofOutput shape.m shape.n, code⟩, ?_, fun F _ s hx => ?_⟩
  · rw [← kernelCode_eq] at hcode
    simp only [Kernel.generate, h, hcode]
    rfl
  · obtain ⟨columns, hreached⟩ := reached_kernelBody he s hx
    have hsaved : ∀ y ∉ Sequence.saveArea (s.general 31),
        (effects Sequence.saveVectors s).memory y = s.memory y :=
      fun y hy => Sequence.memory_saveVectors s hy
    refine ⟨_, Sequence.returnsIn_of_assembleKernel (wellFormed_kernelBody he) hcode s,
      fun i hi j hj => ?_, fun y hy => ?_⟩
    · rw [Sequence.memory_restoreVectors, hreached.progress.computed i hi j hj (Or.inl hj)]
      have hcell : Memory.region ((Arguments.ofState s).output.cell i j) 4 ⊆
          (Arguments.ofState s).output.cells shape.m shape.n := fun y hy => ⟨i, hi, j, hj, hy⟩
      exact Arguments.result_congr
        (fun l hl br hbr => Memory.lane_congr hsaved
          ((hx.left i hi l hl br hbr).mono_right Set.subset_union_right))
        (fun l hl br hbr => Memory.lane_congr hsaved
          ((hx.right l hl j hj br hbr).mono_right Set.subset_union_right))
        (Memory.lane_congr hsaved (hx.out.mono_left hcell))
    · rw [Set.mem_union, not_or] at hy
      rw [Sequence.memory_restoreVectors, hreached.progress.outside y hy.1, hsaved y hy.2]

instance wrappingLane : Lane (BitVec 32) where
  toBits v := v
  ofBits v := v
  ofBits_toBits _ := rfl
  fma acc x y := acc + x * y
  max x y := if x.toNat ≤ y.toNat then y else x

def countingState : State (BitVec 32) where
  general r := [4096, 8192, 12288, 2, 2, 3, 4, 4].getD r.val (if r.val = 31 then 20480 else 0)
  vector _ _ := 0
  memory y := if y.toNat % 4 = 0 then BitVec.ofNat 8 (y.toNat / 4) else 0

def pairShape : Shape := { m := 2, n := 2, k := 2, batch := 2 }

theorem countingState_admissible :
    (Arguments.ofState countingState).Admissible pairShape (countingState.general 31) := by
  have hleft : ∀ i < 2, ∀ l < 2, ∀ br < 2,
      ((Arguments.ofState countingState).leftCell i l br).toNat + 4 ≤ 12288 := by decide
  have hright : ∀ l < 2, ∀ j < 2, ∀ br < 2,
      ((Arguments.ofState countingState).rightCell l j br).toNat + 4 ≤ 12288 := by decide
  have hout : ∀ i < 2, ∀ j < 2, 12288 ≤ ((Arguments.ofState countingState).output.cell i j).toNat ∧
      ((Arguments.ofState countingState).output.cell i j).toNat + 4 ≤ 16384 := by decide
  have hblock {y : Address}
      (hy : y ∈ (Arguments.ofState countingState).output.cells pairShape.m pairShape.n) :
      12288 ≤ y.toNat ∧ y.toNat < 16384 := by
    obtain ⟨i, hi, j, hj, hy⟩ := hy
    have hcell := hout i hi j hj
    have hmem := Memory.toNat_of_mem_region (by omega) hy
    omega
  have hsave {y : Address} (hy : y ∈ Sequence.saveArea (countingState.general 31)) :
      16384 ≤ y.toNat := by
    have hbase : (countingState.general 31 - 64).toNat = 20416 := by decide
    have hmem := Memory.toNat_of_mem_region (by omega) hy
    omega
  have happart {a : Address} (ha : a.toNat + 4 ≤ 12288) : Disjoint (Memory.region a 4)
      ((Arguments.ofState countingState).output.cells pairShape.m pairShape.n ∪
        Sequence.saveArea (countingState.general 31)) := by
    rw [Set.disjoint_left]
    intro y hy hother
    have hmem := Memory.toNat_of_mem_region (by omega) hy
    rcases hother with hother | hother
    · have := hblock hother
      omega
    · have := hsave hother
      omega
  refine ⟨⟨by decide, by decide⟩, fun i hi l hl br hbr => happart (hleft i hi l hl br hbr),
    fun l hl j hj br hbr => happart (hright l hl j hj br hbr), ?_⟩
  rw [Set.disjoint_left]
  intro y hy hother
  have hlt := hblock hy
  have hle := hsave hother
  omega

theorem generate_computes_product_counting :
    pairShape.validate = .ok () ∧
      (Arguments.ofState countingState).Admissible pairShape (countingState.general 31) ∧
      ∃ kernel, Kernel.generate pairShape = .ok kernel ∧
        ∃ t, ReturnsIn kernel.code.words countingState t ∧
          t.memory.lane 12304 = (94 : BitVec 32) ∧ t.memory 12296 = 2 := by
  have hvalid : pairShape.validate = .ok () := rfl
  obtain ⟨kernel, hkernel, hruns⟩ := generate_computes_product hvalid
  obtain ⟨t, hreturns, hcells, hothers⟩ := hruns (BitVec 32) countingState countingState_admissible
  refine ⟨hvalid, countingState_admissible, kernel, hkernel, t, hreturns, ?_, ?_⟩
  · have hcell : (Arguments.ofState countingState).output.cell 1 1 = 12304 := by decide
    have hvalue := hcells 1 (by decide) 1 (by decide)
    rw [hcell] at hvalue
    exact hvalue.trans (by decide)
  · have hbetween : ∀ i < 2, ∀ j < 2,
        4 ≤ Memory.distance ((Arguments.ofState countingState).output.cell i j) 12296 := by decide
    refine (hothers 12296 ?_).trans (by decide)
    rintro (⟨i, hi, j, hj, hmem⟩ | hmem)
    · exact Nat.not_lt.2 (hbetween i hi j hj) hmem
    · exact absurd hmem (by decide : ¬Memory.distance (countingState.general 31 - 64) 12296 < 64)

end TensorKernels.Gemm
