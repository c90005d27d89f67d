import TensorKernels.Elementwise.Kernel
import TensorKernels.Proofs.Assembly.Loads
import TensorKernels.Proofs.Elementwise.Regions
import TensorKernels.Proofs.Result

/-!
Elementwise kernels apply their operation to every element. The prepared registers hold for every
tile of the grid, and the regions make up the grid. Running the assembled words therefore returns with
the result of every element stored, also in place, and with no other byte changed but those of the
saved registers. A kernel that writes zeros reads no operand.
-/

namespace TensorKernels.Elementwise

open Instr Column

variable {F : Type} [Lane F]

def Arguments.ofState (s : State F) : Arguments where
  input := ⟨s.general 0, s.general 2⟩
  output := ⟨s.general 1, s.general 3⟩

def mostRegs (tiling : Tiling) : ℕ :=
  (tiling.regions.filterMap (·.tile)).foldl (fun most t => max most t.regs) 0

theorem foldl_regs_le_iff {tiles : List Tile} {least bound : ℕ} :
    tiles.foldl (fun most t => max most t.regs) least ≤ bound ↔
      least ≤ bound ∧ ∀ t ∈ tiles, t.regs ≤ bound := by
  induction tiles generalizing least with
  | nil => simp
  | cons t tiles ih => rw [List.foldl_cons, ih, max_le_iff, List.forall_mem_cons, and_assoc]

theorem mostRegs_le_iff {tiling : Tiling} {bound : ℕ} :
    mostRegs tiling ≤ bound ↔
      ∀ region ∈ tiling.regions, ∀ t, region.tile = some t → t.regs ≤ bound := by
  rw [mostRegs, foldl_regs_le_iff]
  constructor
  · intro h region hmem t ht
    exact h.2 t (List.mem_filterMap.2 ⟨region, hmem, ht⟩)
  · intro h
    refine ⟨Nat.zero_le _, fun t ht => ?_⟩
    obtain ⟨region, hmem, ht⟩ := List.mem_filterMap.1 ht
    exact h region hmem t ht

section Preparation

variable {tiling : Tiling} (hmost : mostRegs tiling ≤ 31)
include hmost

theorem prepared_preparation (op : Op) (s : State F) :
    Prepared op (mostRegs tiling) (effects (preparation op tiling) s) ∧
      (effects (preparation op tiling) s).memory = s.memory := by
  cases op with
  | identity | transpose => exact ⟨⟨nofun, nofun⟩, rfl⟩
  | relu =>
    have hset : effects (preparation .relu tiling) s =
      s.setVector Reg.zeros.id fun _ => Lane.zero := rfl
    rw [hset]
    refine ⟨⟨fun _ => ?_, nofun⟩, rfl⟩
    rw [State.vector_setVector, Function.update_self]
  | zero =>
    have hcleared : effects (preparation .zero tiling) s = _ :=
      @effects_registers F _ (fun r => .moviZero .s4 r) (fun _ _ _ => Lane.zero) (fun _ _ => rfl) _
        (Nat.lt_succ_of_le hmost) s
    rw [hcleared]
    exact ⟨⟨nofun, fun _ v hv => if_pos hv⟩, rfl⟩

theorem straight_preparation (op : Op) : Straight [] 31 (preparation op tiling) := by
  have hmovi (n : ℕ) : Straight [] (List.range n).length
      ((List.range n).map fun r => .moviZero .s4 (VectorReg.ofNat r)) :=
    Straight.map (fun _ _ => ⟨trivial, rfl, rfl⟩) (by simp [WritesGeneral])
  cases op with
  | identity | transpose => exact Straight.nil
  | relu =>
    have hone : Straight [] 1 [.moviZero .s4 Reg.zeros] :=
      Straight.singleton ⟨trivial, rfl, rfl⟩ (by simp [WritesGeneral])
    exact hone.mono (List.Subset.refl _) (by decide)
  | zero =>
    refine (hmovi (mostRegs tiling)).mono (List.Subset.refl _) ?_
    rwa [List.length_range]

end Preparation

def strides : List GeneralReg := [Reg.inputStride, Reg.outputStride]

def staging (op : Op) (tiling : Tiling) : List Instr :=
  (strides.map fun r => .lslImm r r 2) ++ preparation op tiling

def kernelBody (op : Op) (tiling : Tiling) : Code :=
  .run (Sequence.saveVectors ++ staging op tiling) ++
    Code.concat (tiling.regions.map (pieceCode op))

theorem exec_kernelBody (op : Op) (tiling : Tiling) (s : State F) :
    (kernelBody op tiling).exec s = (Code.concat (tiling.regions.map (pieceCode op))).exec
      (effects (Sequence.saveVectors ++ staging op tiling) s) := rfl

theorem tiledCode_eq (op : Op) (tiling : Tiling) :
    tiledCode op tiling = kernelBody op tiling ++ .run Sequence.restoreAndReturn := by
  rw [kernelBody, staging, ← List.append_assoc]
  rfl

theorem kernelCode_eq {op : Op} (hop : op ≠ .transpose) (m n : ℕ) :
    kernelCode op m n =
      kernelBody op (Tiling.ofGrid m n) ++ .run Sequence.restoreAndReturn := by
  rw [← tiledCode_eq]
  cases op with
  | transpose => exact absurd rfl hop
  | zero | identity | relu => rfl

section Run

variable {m n : ℕ}

theorem mostRegs_ofGrid_le (m n : ℕ) : mostRegs (Tiling.ofGrid m n) ≤ 31 := by
  rw [mostRegs_le_iff]
  intro region hmem t ht
  have hfit := ((Tiling.tiled_regions Tiling.lowerScore m n region hmem).cuts t ht).fits.regs_lt
  rw [regs_eq]
  omega

theorem straight_staging (op : Op) (m n : ℕ) :
    Straight (strides.map (·.id)) 33 (staging op (Tiling.ofGrid m n)) :=
  (Sequence.straight_scale (by decide : ∀ r ∈ strides, r.IsX)).append
    ((straight_preparation (mostRegs_ofGrid_le m n) op).mono (List.nil_subset _) le_rfl)

theorem bounded_regions (op : Op) (hm : m < 2 ^ 32) (hn : n < 2 ^ 32) :
    Code.Bounded regionRegs (4 * 351)
      (Code.concat ((Tiling.ofGrid m n).regions.map (pieceCode op))) := by
  suffices h : ∀ region ∈ (Tiling.ofGrid m n).regions,
      Code.Bounded regionRegs 351 (pieceCode op region) from
    Code.Bounded.concat (List.forall_mem_map.2 h)
  intro region hmem
  have htiled := Tiling.tiled_regions Tiling.lowerScore m n region hmem
  have hrows := htiled.rows_le
  have hcols := htiled.cols_le
  rw [pieceCode]
  cases htile : region.tile with
  | none => exact Code.Bounded.run Straight.nil
  | some t =>
    exact bounded_regionCode (htiled.cuts t htile).fits op (by omega) (by omega) (by omega)

def kernelRegs : List (Fin 32) := strides.map (·.id) ++ regionRegs

theorem wellFormed_kernelBody (op : Op) (hm : m < 2 ^ 32) (hn : n < 2 ^ 32) :
    (kernelBody op (Tiling.ofGrid m n)).WellFormed :=
  ⟨List.forall_mem_append.2 ⟨Sequence.straight_saveVectors.plain, (straight_staging op m n).plain⟩,
    (bounded_regions op hm hn).wellFormed⟩

theorem stack_kernelBody (op : Op) (hm : m < 2 ^ 32) (hn : n < 2 ^ 32) (s : State F) :
    ((kernelBody op (Tiling.ofGrid m n)).exec s).general 31 = s.general 31 - 64 := by
  rw [exec_kernelBody, (bounded_regions op hm hn).general (by decide), effects_append,
    (straight_staging op m n).general (by decide), Sequence.stack_saveVectors]

theorem ready_staging (op : Op) (m n : ℕ) (s : State F) :
    Ready (Arguments.ofState s) op m n (mostRegs (Tiling.ofGrid m n))
      (effects Sequence.saveVectors s).memory (fun _ _ => False)
      (effects (Sequence.saveVectors ++ staging op (Tiling.ofGrid m n)) s) := by
  have hsave {r : Fin 32} (hr : r ∉ [31]) := Sequence.straight_saveVectors.general hr s
  have hmost := mostRegs_ofGrid_le m n
  rw [effects_append, staging, effects_append]
  generalize effects Sequence.saveVectors s = u at hsave ⊢
  have hX : ∀ r ∈ strides, r.IsX := by decide
  obtain ⟨hmemory, hscaled⟩ := Sequence.effects_scale hX (by decide) u
  have hscale {r : Fin 32} (hr : r ∉ _) := (Sequence.straight_scale hX).general hr u
  generalize effects (strides.map fun r => .lslImm r r 2) u = v at hmemory hscaled hscale ⊢
  obtain ⟨hprepared, hprepmemory⟩ := prepared_preparation hmost op v
  have hprep {r : Fin 32} (hr : r ∉ []) := (straight_preparation hmost op).general hr v
  refine ⟨⟨?_, ?_, ?_, ?_⟩, hprepared, ?_⟩
  · rw [hprep (by simp), hscale (by decide), hsave (by decide)]
    rfl
  · rw [hprep (by simp), hscale (by decide), hsave (by decide)]
    rfl
  · rw [hprep (by simp), hscaled _ (by decide), hsave (by decide)]
    rfl
  · rw [hprep (by simp), hscaled _ (by decide), hsave (by decide)]
    rfl
  · rw [hprepmemory, hmemory]
    exact Layout.Progress.refl ..

theorem ready_kernelBody {op : Op} (hm : m < 2 ^ 32) (hn : n < 2 ^ 32) (s : State F)
    (hx : (Arguments.ofState s).Admissible op m n (s.general 31)) :
    Ready (Arguments.ofState s) op m n (mostRegs (Tiling.ofGrid m n))
      (effects Sequence.saveVectors s).memory (fun _ _ => True)
      ((kernelBody op (Tiling.ofGrid m n)).exec s) := by
  have hregions := (ready_staging op m n s).walkRegions hx hm hn
    (Tiling.tiled_regions Tiling.lowerScore m n) (mostRegs_le_iff.1 le_rfl)
    (Tiling.pairwise_regions Tiling.lowerScore m n) fun _ _ _ _ _ h => h
  rw [exec_kernelBody]
  refine hregions.iff fun i hi j hj => iff_of_true (Or.inr ?_) trivial
  exact Tiling.exists_contains Tiling.lowerScore m n hi hj

end Run

/-! Writing zeros loads nothing. -/

theorem loadFree_transfer (first : VectorReg) (rows : ℕ) (base lane : GeneralReg) :
    LoadFree (Column.transfer .store first rows base lane) := by
  have hdir : ¬(Transfer.store = .load) := by decide
  have hstore (size : AccessSize) (rt : VectorReg) (offset : Int) :
      ¬(transferV .store size rt base offset .offset).IsLoad := hdir
  simp only [Column.transfer]
  refine LoadFree.append (LoadFree.map (fun g => hstore .q (first.offset g) (16 * (g : Int))) _) ?_
  split
  · exact LoadFree.nil
  · exact LoadFree.singleton (hstore _ _ _)
  · exact LoadFree.singleton (hstore _ _ _)
  · have haddress := Sequence.loadFree_addConstant lane base (16 * ((rows / 4 : ℕ) : Int) + 8)
      GeneralReg.zero
    exact LoadFree.cons (hstore _ _ _) (haddress.append (LoadFree.singleton hdir))

theorem loadFree_transferAll (firsts : List VectorReg) (rows : ℕ) (cursor stride lane : GeneralReg) :
    LoadFree (transferAll .store firsts rows cursor stride lane) := by
  induction firsts with
  | nil => exact LoadFree.nil
  | cons first rest ih =>
    have hfirst := loadFree_transfer first rows cursor lane
    cases rest with
    | nil => exact hfirst
    | cons second rest =>
      rw [transferAll_cons_cons]
      exact hfirst.append (LoadFree.cons id ih)

theorem loadFree_regionCode (region : Region) (t : Tile) : (regionCode .zero region t).LoadFree := by
  have hconstant (value : Int) :=
    Sequence.loadFree_addConstant Reg.tileOut Reg.tileOut value Reg.scratch
  have hmultiple (base : GeneralReg) (count : ℕ) :=
    Sequence.loadFree_addMultiple Reg.tileOut base count Reg.outputStride Reg.scratch
  have hstore := loadFree_transferAll (columns t) t.rows Reg.cursor Reg.outputStride Reg.laneAddress
  have hbase : LoadFree (regionBase Reg.tileOut Reg.output region Reg.outputStride) :=
    (hmultiple Reg.output region.col).append (hconstant _)
  have htile (walksRows : Bool) : LoadFree (tileCode .zero t walksRows) := by
    refine (LoadFree.cons (i := .mov Reg.cursor Reg.tileOut) id hstore).append ?_
    split_ifs
    · exact hconstant _
    · exact LoadFree.nil
  have hnext (rows : ℕ) : LoadFree (nextColumns .zero t rows) :=
    (hconstant (-(rows : Int))).append (hmultiple Reg.tileOut t.cols)
  exact ⟨hbase, htile _, hnext _⟩

theorem loadFree_kernelBody (tiling : Tiling) : (kernelBody .zero tiling).LoadFree := by
  have hsave : LoadFree Sequence.saveVectors := by
    refine LoadFree.map (fun pair => ?_) _
    exact nofun
  have hstaging : LoadFree (staging .zero tiling) :=
    LoadFree.append (LoadFree.map (fun _ => id) _) (LoadFree.map (fun _ => id) _)
  refine ⟨hsave.append hstaging, Code.loadFree_concat (List.forall_mem_map.2 fun region _ => ?_)⟩
  rw [pieceCode]
  cases region.tile with
  | none => exact LoadFree.nil
  | some t => exact loadFree_regionCode region t

/-- The kernel of an operation that is no transpose returns from every admissible call with the
operation applied to each element and no other byte changed but the saved registers. One that writes
zeros loads nothing else than these, whatever the call. -/
theorem generate_applies_operation {op : Op} (hop : op ≠ .transpose) {m n : ℕ}
    (hm : 0 < m ∧ m < 2 ^ 32) (hn : 0 < n ∧ n < 2 ^ 32) :
    ∃ kernel, Kernel.generate op m n .f32 = .ok kernel ∧
      ∀ (F : Type) [Lane F] (s : State F),
        ((Arguments.ofState s).Admissible op m n (s.general 31) →
          ∃ t, ReturnsIn kernel.code.words s t ∧
            (∀ i < m, ∀ j < n, t.memory.lane ((Arguments.ofState s).output.cell i j) =
              op.apply (s.memory.lane ((Arguments.ofState s).input.cell i j) : F)) ∧
            ∀ y ∉ (Arguments.ofState s).output.cells m n ∪ Sequence.saveArea (s.general 31),
              t.memory y = s.memory y) ∧
        (op = .zero → ∀ c, RunsTo kernel.code.words ⟨0, s⟩ c →
          ∀ i, fetch kernel.code.words c.pc = some i →
            i.loads c.state ⊆ Sequence.saveArea (s.general 31)) := by
  have hbody := wellFormed_kernelBody op hm.2 hn.2
  obtain ⟨code, hcode⟩ := Sequence.exists_assembleKernel hbody
  refine ⟨⟨op, m, n, code⟩, ?_, fun F _ s => ⟨fun hx => ?_, fun hzero c hc i hi => ?_⟩⟩
  · rw [← kernelCode_eq hop] at hcode
    simp only [Kernel.generate, inExtentRange_iff.2 hm, inExtentRange_iff.2 hn, hcode]
    rfl
  · have hready := ready_kernelBody hm.2 hn.2 s hx
    have hsaved : ∀ y ∉ Sequence.saveArea (s.general 31),
        (effects Sequence.saveVectors s).memory y = s.memory y :=
      fun y hy => Sequence.memory_saveVectors s hy
    refine ⟨_, Sequence.returnsIn_of_assembleKernel hbody hcode s, fun i hi j hj => ?_,
      fun y hy => ?_⟩
    · rw [Sequence.memory_restoreVectors, hready.progress.computed i hi j hj trivial]
      exact Op.apply_congr fun hinput => Memory.lane_congr hsaved
        ((hx.input hinput).mono_left (Layout.region_subset_cells hi hj))
    · rw [Set.mem_union, not_or] at hy
      rw [Sequence.memory_restoreVectors, hready.progress.outside y hy.1, hsaved y hy.2]
  · subst hzero
    exact Sequence.loads_subset_saveArea hbody hcode (loadFree_kernelBody _)
      (stack_kernelBody .zero hm.2 hn.2 s) hc hi

structure SignedLane where
  bits : BitVec 32
  deriving DecidableEq

instance signedLane : Lane SignedLane where
  toBits v := v.bits
  ofBits v := ⟨v⟩
  ofBits_toBits _ := rfl
  fma acc x y := ⟨acc.bits + x.bits * y.bits⟩
  max x y := if x.bits.slt y.bits then y else x

def alternatingState : State SignedLane where
  general r := [4096, 4096, 5, 5].getD r.val (if r.val = 31 then 8192 else 0)
  vector _ _ := ⟨0⟩
  memory y := if y.toNat % 8 < 4 then 1 else 255

theorem alternatingState_admissible (op : Op) :
    (Arguments.ofState alternatingState).Admissible op 3 2 (alternatingState.general 31) := by
  have hcell : ∀ i < 3, ∀ j < 2,
      ((Arguments.ofState alternatingState).output.cell i j).toNat + 4 ≤ 4128 := by decide
  have happart : Disjoint ((Arguments.ofState alternatingState).output.cells 3 2)
      (Sequence.saveArea (alternatingState.general 31)) := by
    rw [Set.disjoint_left]
    intro y hy hsave
    obtain ⟨i, hi, j, hj, hy⟩ := hy
    have hbase : (alternatingState.general 31 - 64).toNat = 8128 := by decide
    have hbound := hcell i hi j hj
    have hlow := Memory.toNat_of_mem_region (by omega) hy
    have hhigh := Memory.toNat_of_mem_region (by omega) hsave
    omega
  exact ⟨⟨by decide, by decide⟩, happart, fun _ => happart, fun _ => Or.inl rfl⟩

theorem generate_applies_operation_alternating :
    (Arguments.ofState alternatingState).Admissible .relu 3 2 (alternatingState.general 31) ∧
      (∃ kernel, Kernel.generate .relu 3 2 .f32 = .ok kernel ∧
        ∃ t, ReturnsIn kernel.code.words alternatingState t ∧ t.memory.lane 4100 = SignedLane.mk 0 ∧
          t.memory.lane 4120 = SignedLane.mk 0x01010101 ∧ t.memory 4108 = 255) ∧
      ∃ kernel, Kernel.generate .zero 3 2 .f32 = .ok kernel ∧
        ∀ c, RunsTo kernel.code.words ⟨0, alternatingState⟩ c →
          ∀ i, fetch kernel.code.words c.pc = some i →
            i.loads c.state ⊆ Sequence.saveArea (alternatingState.general 31) := by
  refine ⟨alternatingState_admissible .relu, ?_, ?_⟩
  · obtain ⟨kernel, hkernel, hruns⟩ := generate_applies_operation (by decide : Op.relu ≠ .transpose)
      (by decide : 0 < 3 ∧ 3 < 2 ^ 32) (by decide : 0 < 2 ∧ 2 < 2 ^ 32)
    obtain ⟨t, hreturns, hcells, hothers⟩ :=
      (hruns SignedLane alternatingState).1 (alternatingState_admissible .relu)
    refine ⟨kernel, hkernel, t, hreturns, ?_, ?_, ?_⟩
    · exact (hcells 1 (by decide) 0 (by decide)).trans (by decide)
    · exact (hcells 1 (by decide) 1 (by decide)).trans (by decide)
    · have hbetween : ∀ i < 3, ∀ j < 2, 4 ≤ Memory.distance
          ((Arguments.ofState alternatingState).output.cell i j) 4108 := by decide
      refine (hothers 4108 ?_).trans (by decide)
      rintro (⟨i, hi, j, hj, hmem⟩ | hmem)
      · exact Nat.not_lt.2 (hbetween i hi j hj) hmem
      · exact absurd hmem (by decide : ¬Memory.distance (alternatingState.general 31 - 64) 4108 < 64)
  · obtain ⟨kernel, hkernel, hruns⟩ := generate_applies_operation (by decide : Op.zero ≠ .transpose)
      (by decide : 0 < 3 ∧ 3 < 2 ^ 32) (by decide : 0 < 2 ∧ 2 < 2 ^ 32)
    exact ⟨kernel, hkernel, (hruns SignedLane alternatingState).2 rfl⟩

end TensorKernels.Elementwise
