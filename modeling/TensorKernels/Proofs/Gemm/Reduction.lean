import TensorKernels.Gemm.Code
import TensorKernels.Proofs.Assembly.Exec
import TensorKernels.Proofs.Kernel.Column

/-!
The reduction of one output tile. The accumulators, the column of the left operand and the scalar of
the right one lie in different registers, so one step of the reduction adds to every accumulated row
the product of its element of the left operand and the column's element of the right one. Over the
depth and the batch, each row is then the fold of the multiply-add, the batch outside.
-/

namespace TensorKernels.Gemm

open Instr Column

variable {F : Type} [Lane F]

def reduceDepth (k : ℕ) (left right : ℕ → F) (v : F) : F :=
  (List.range k).foldl (fun v l => Lane.fma v (left l) (right l)) v

/-- The reduction of a batch of pairs of vectors, one pair after the other. -/
def reduceBatch (batch k : ℕ) (left right : ℕ → ℕ → F) (v : F) : F :=
  (List.range batch).foldl (fun v br => reduceDepth k (left br) (right br) v) v

theorem reduceDepth_succ (k : ℕ) (left right : ℕ → F) (v : F) :
    reduceDepth (k + 1) left right v = Lane.fma (reduceDepth k left right v) (left k) (right k) := by
  rw [reduceDepth, List.range_succ, List.foldl_concat, reduceDepth]

theorem reduceBatch_succ (batch k : ℕ) (left right : ℕ → ℕ → F) (v : F) :
    reduceBatch (batch + 1) k left right v =
      reduceDepth k (left batch) (right batch) (reduceBatch batch k left right v) := by
  rw [reduceBatch, List.range_succ, List.foldl_concat, reduceBatch]

theorem reduceDepth_congr {k : ℕ} {left left' right right' : ℕ → F} (v : F)
    (hleft : ∀ l < k, left l = left' l) (hright : ∀ l < k, right l = right' l) :
    reduceDepth k left right v = reduceDepth k left' right' v := by
  induction k with
  | zero => rfl
  | succ k ih =>
    rw [reduceDepth_succ, reduceDepth_succ, hleft k (Nat.lt_succ_self k),
      hright k (Nat.lt_succ_self k), ih (fun l hl => hleft l (Nat.lt_succ_of_lt hl))
        fun l hl => hright l (Nat.lt_succ_of_lt hl)]

theorem reduceBatch_congr {batch k : ℕ} {left left' right right' : ℕ → ℕ → F} (v : F)
    (hleft : ∀ br < batch, ∀ l < k, left br l = left' br l)
    (hright : ∀ br < batch, ∀ l < k, right br l = right' br l) :
    reduceBatch batch k left right v = reduceBatch batch k left' right' v := by
  induction batch with
  | zero => rfl
  | succ batch ih =>
    rw [reduceBatch_succ, reduceBatch_succ, ih (fun br h => hleft br (Nat.lt_succ_of_lt h))
        fun br h => hright br (Nat.lt_succ_of_lt h),
      reduceDepth_congr _ (hleft batch (Nat.lt_succ_self batch))
        (hright batch (Nat.lt_succ_self batch))]

structure Fits (t : Tile) : Prop where
  rows_pos : 0 < t.rows
  rows_le : t.rows ≤ 16
  regs_le : t.cols * t.columnRegs + t.columnRegs < 32

section Registers

variable {t : Tile} (ht : Fits t)
include ht

theorem accumulators_separate {j j' : ℕ} (hj : j < t.cols) (hj' : j' < t.cols) (h : j ≠ j') :
    Separate t.rows (accumulator t j) (accumulator t j') :=
  separate_columns (by have := ht.regs_le; omega) hj hj' h

theorem accumulator_ne_leftColumn {j r r' : ℕ} (hj : j < t.cols) (hr : r < t.columnRegs)
    (hr' : r' < t.columnRegs) :
    ((accumulator t j).offset r).id ≠ ((leftColumn t).offset r').id := by
  have hlt := index_lt hj hr
  have hfit := ht.regs_le
  rw [accumulator, leftColumn, offset_ofNat, offset_ofNat]
  exact ofNat_id_ne (by omega) (by omega) (by omega)

theorem accumulator_ne_rightScalar {j r : ℕ} (hj : j < t.cols) (hr : r < t.columnRegs) :
    ((accumulator t j).offset r).id ≠ (rightScalar t).id := by
  have hlt := index_lt hj hr
  have hfit := ht.regs_le
  rw [accumulator, rightScalar, offset_ofNat]
  exact ofNat_id_ne (by omega) (by omega) (by omega)

theorem leftColumn_ne_rightScalar {r : ℕ} (hr : r < t.columnRegs) :
    ((leftColumn t).offset r).id ≠ (rightScalar t).id := by
  have hfit := ht.regs_le
  rw [leftColumn, rightScalar, offset_ofNat]
  exact ofNat_id_ne (by omega) (by omega) (by omega)

end Registers

structure Multiplied (acc left scalar : VectorReg) (n : ℕ) (s t : State F) : Prop where
  memory : t.memory = s.memory
  general : t.general = s.general
  others : ∀ v, (∀ r < n, v ≠ (acc.offset r).id) → t.vector v = s.vector v
  column : ∀ r < n, t.vector (acc.offset r).id = fun l =>
    Lane.fma (s.vector (acc.offset r).id l) (s.vector (left.offset r).id l) (s.vector scalar.id 0)

theorem effect_fmla (rd rn rm : VectorReg) (s : State F) :
    (fmlaElem .s4 rd rn rm 0).effect s = s.setVector rd.id fun l =>
      Lane.fma (s.vector rd.id l) (s.vector rn.id l) (s.vector rm.id 0) := by
  rw [effect]
  congr 1
  funext l
  exact if_pos l.isLt

theorem multiplied_fmla {acc left scalar : VectorReg} {n : ℕ} (hn : n ≤ 32)
    (hleft : ∀ r < n, ∀ r' < n, (left.offset r).id ≠ (acc.offset r').id)
    (hscalar : ∀ r < n, scalar.id ≠ (acc.offset r).id) (s : State F) :
    Multiplied acc left scalar n s
      (effects ((List.range n).map fun r =>
        .fmlaElem .s4 (acc.offset r) (left.offset r) scalar 0) s) := by
  induction n with
  | zero => exact ⟨rfl, rfl, fun _ _ => rfl, fun _ h => absurd h (Nat.not_lt_zero _)⟩
  | succ n ih =>
    have hprev := ih (by omega) (fun r hr r' hr' => hleft r (by omega) r' (by omega))
      fun r hr => hscalar r (by omega)
    rw [List.range_succ, List.map_append, effects_append, List.map_singleton, effects_cons,
      effects_nil]
    generalize effects ((List.range n).map _) s = t at hprev ⊢
    have hcurrent : t.vector (acc.offset n).id = s.vector (acc.offset n).id :=
      hprev.others _ fun r hr e => by
        have := offset_injective (by omega) (by omega) e
        omega
    have hfactor : t.vector (left.offset n).id = s.vector (left.offset n).id :=
      hprev.others _ fun r hr => hleft n (by omega) r (by omega)
    have hscalar' : t.vector scalar.id = s.vector scalar.id :=
      hprev.others _ fun r hr => hscalar r (by omega)
    rw [effect_fmla, hcurrent, hfactor, hscalar']
    refine ⟨hprev.memory, hprev.general, fun v hv => ?_, fun r hr => ?_⟩
    · rw [State.vector_setVector, Function.update_of_ne (hv n (by omega)),
        hprev.others v fun r hr => hv r (by omega)]
    · rcases Nat.lt_succ_iff_lt_or_eq.1 hr with hlt | rfl
      · have hne : (acc.offset r).id ≠ (acc.offset n).id := fun e =>
          hlt.ne (offset_injective (by omega) (by omega) e)
        rw [State.vector_setVector, Function.update_of_ne hne, hprev.column r hlt]
      · rw [State.vector_setVector, Function.update_self]

theorem effects_stepColumn {j : ℕ} {s : State F}
    (h : 1 < j → s.general Reg.cursor.id =
      s.general Reg.right.id + ((j - 1 : ℕ) : BitVec 64) * s.general Reg.rightStride.id) :
    effects (stepColumn j) s = if j = 0 then s else
      s.set Reg.cursor.id (s.general Reg.right.id + (j : BitVec 64) * s.general Reg.rightStride.id) := by
  match j with
  | 0 => rfl
  | 1 =>
    rw [stepColumn, effects_cons, effects_nil, effect_addReg s (by decide) (by decide) (by decide),
      BitVec.shiftLeft_zero, if_neg Nat.one_ne_zero, Nat.cast_one, one_mul]
  | j + 2 =>
    have hnext : s.general Reg.right.id + ((j + 1 : ℕ) : BitVec 64) * s.general Reg.rightStride.id +
        s.general Reg.rightStride.id =
        s.general Reg.right.id + ((j + 2 : ℕ) : BitVec 64) * s.general Reg.rightStride.id := by
      grind
    have hstep : stepColumn (j + 2) = [.addReg Reg.cursor Reg.cursor Reg.rightStride .lsl 0] := rfl
    rw [hstep, effects_cons, effects_nil, effect_addReg s (by decide) (by decide) (by decide),
      BitVec.shiftLeft_zero, h (by omega), if_neg (by omega), ← hnext]
    rfl

structure Updated (t : Tile) (j : ℕ) (s u : State F) : Prop where
  memory : u.memory = s.memory
  cursor : 0 < j → u.general Reg.cursor.id =
    s.general Reg.right.id + (j : BitVec 64) * s.general Reg.rightStride.id
  others : ∀ v, v ≠ (rightScalar t).id →
    (∀ r < t.columnRegs, v ≠ ((accumulator t j).offset r).id) → u.vector v = s.vector v
  column : ∀ r < t.columnRegs, u.vector ((accumulator t j).offset r).id = fun l =>
    Lane.fma (s.vector ((accumulator t j).offset r).id l)
      (s.vector ((leftColumn t).offset r).id l)
      (s.memory.lane (s.general Reg.right.id + (j : BitVec 64) * s.general Reg.rightStride.id))

theorem lanes_one_zero (m : Memory) (a : Address) : m.lanes a 1 0 = (m.lane a : F) := by
  rw [Memory.lanes, if_pos (by decide)]
  exact congrArg m.lane (add_zero a)

theorem updated_updateColumn {t : Tile} (ht : Fits t) {j : ℕ} (hj : j < t.cols) {s : State F}
    (h : 1 < j → s.general Reg.cursor.id =
      s.general Reg.right.id + ((j - 1 : ℕ) : BitVec 64) * s.general Reg.rightStride.id) :
    Updated t j s (effects (updateColumn t j) s) := by
  have hR : t.columnRegs ≤ 32 := by have := ht.regs_le; omega
  obtain ⟨p, hp, hmem, hvec, hbase, hcursor⟩ : ∃ p : State F, effects (stepColumn j) s = p ∧
      p.memory = s.memory ∧ p.vector = s.vector ∧
      p.general (if j = 0 then Reg.right else Reg.cursor).id =
        s.general Reg.right.id + (j : BitVec 64) * s.general Reg.rightStride.id ∧
      (0 < j → p.general Reg.cursor.id =
        s.general Reg.right.id + (j : BitVec 64) * s.general Reg.rightStride.id) := by
    rw [effects_stepColumn h]
    by_cases hzero : j = 0
    · subst hzero
      exact ⟨s, rfl, rfl, rfl, by rw [if_pos rfl, Nat.cast_zero, zero_mul, add_zero],
        fun h => absurd h (Nat.lt_irrefl 0)⟩
    · rw [if_neg hzero, if_neg hzero]
      exact ⟨_, rfl, rfl, rfl, s.general_set_same _ _, fun _ => s.general_set_same _ _⟩
  rw [updateColumn, effects_append, hp, effects_cons, ← Nat.cast_zero (R := Int), effect_load,
    Nat.cast_zero, add_zero, hbase, hmem]
  have hdone := multiplied_fmla hR (fun r hr r' hr' => (accumulator_ne_leftColumn ht hj hr' hr).symm)
    (fun r hr => (accumulator_ne_rightScalar ht hj hr).symm)
    (p.setVector (rightScalar t).id (s.memory.lanes
      (s.general Reg.right.id + (j : BitVec 64) * s.general Reg.rightStride.id) AccessSize.s.lanes))
  refine ⟨hdone.memory.trans hmem, fun h0 => ?_, fun v hs hv => ?_, fun r hr => ?_⟩
  · rw [hdone.general, State.general_setVector, hcursor h0]
  · rw [hdone.others v hv, State.vector_setVector, Function.update_of_ne hs, hvec]
  · rw [hdone.column r hr]
    simp only [State.vector_setVector, Function.update_self,
      Function.update_of_ne (accumulator_ne_rightScalar ht hj hr),
      Function.update_of_ne (leftColumn_ne_rightScalar ht hr), hvec, AccessSize.lanes,
      lanes_one_zero]

theorem straight_stepColumn (j : ℕ) : Straight [Reg.cursor.id] 1 (stepColumn j) := by
  have hadd (rn : GeneralReg) :
      Straight [Reg.cursor.id] 1 [.addReg Reg.cursor rn Reg.rightStride .lsl 0] :=
    Straight.singleton ⟨(by decide : 0 < Reg.cursor.bits), rfl, rfl⟩ (by simp [WritesGeneral])
  obtain _ | _ | j := j
  · exact Straight.nil
  · exact hadd Reg.right
  · exact hadd Reg.cursor

theorem straight_updateColumn (t : Tile) (j : ℕ) :
    Straight [Reg.cursor.id] (t.columnRegs + 2) (updateColumn t j) := by
  have hproducts : Straight [Reg.cursor.id] t.columnRegs ((List.range t.columnRegs).map fun r =>
      .fmlaElem .s4 ((accumulator t j).offset r) ((leftColumn t).offset r) (rightScalar t) 0) := by
    refine (Straight.map (fun r _ => ?_) (by simp [WritesGeneral])).mono (List.Subset.refl _)
      List.length_range.le
    exact ⟨⟨by decide, by decide⟩, rfl, rfl⟩
  have hload : Straight [Reg.cursor.id] (t.columnRegs + 1) (.transferV .load .s (rightScalar t)
      (if j = 0 then Reg.right else Reg.cursor) 0 .offset :: _) :=
    hproducts.cons (plain_transferV .load .s _ _ (Nat.zero_le 32)) (by simp [WritesGeneral])
  exact ((straight_stepColumn j).append hload).mono (List.Subset.refl _) (by omega)

structure UpdatedBelow (t : Tile) (n : ℕ) (s u : State F) : Prop where
  memory : u.memory = s.memory
  cursor : 1 < n → u.general Reg.cursor.id =
    s.general Reg.right.id + ((n - 1 : ℕ) : BitVec 64) * s.general Reg.rightStride.id
  left : ∀ r < t.columnRegs,
    u.vector ((leftColumn t).offset r).id = s.vector ((leftColumn t).offset r).id
  column : ∀ j < n, ∀ r < t.columnRegs, u.vector ((accumulator t j).offset r).id = fun l =>
    Lane.fma (s.vector ((accumulator t j).offset r).id l)
      (s.vector ((leftColumn t).offset r).id l)
      (s.memory.lane (s.general Reg.right.id + (j : BitVec 64) * s.general Reg.rightStride.id))
  rest : ∀ j < t.cols, n ≤ j → ∀ r < t.columnRegs,
    u.vector ((accumulator t j).offset r).id = s.vector ((accumulator t j).offset r).id

theorem UpdatedBelow.succ {t : Tile} (ht : Fits t) {n : ℕ} (hn : n < t.cols) {s u v : State F}
    (h : UpdatedBelow t n s u) (hright : u.general Reg.right.id = s.general Reg.right.id)
    (hstride : u.general Reg.rightStride.id = s.general Reg.rightStride.id)
    (hnext : Updated t n u v) : UpdatedBelow t (n + 1) s v where
  memory := hnext.memory.trans h.memory
  cursor hpos := by rw [hnext.cursor (by omega), hright, hstride, Nat.add_sub_cancel]
  left r hr := by
    rw [hnext.others _ (leftColumn_ne_rightScalar ht hr)
      fun r' hr' => (accumulator_ne_leftColumn ht hn hr' hr).symm, h.left r hr]
  column j hj r hr := by
    rcases Nat.lt_succ_iff_lt_or_eq.1 hj with hlt | rfl
    · rw [hnext.others _ (accumulator_ne_rightScalar ht (by omega) hr) fun r' hr' =>
        accumulators_separate ht (by omega) hn hlt.ne r hr r' hr', h.column j hlt r hr]
    · rw [hnext.column r hr, h.left r hr, h.rest j hn le_rfl r hr, h.memory, hright, hstride]
  rest j hj hle r hr := by
    rw [hnext.others _ (accumulator_ne_rightScalar ht hj hr) fun r' hr' =>
      accumulators_separate ht hj hn (by omega) r hr r' hr', h.rest j hj (by omega) r hr]

theorem updatedBelow_updateColumns {t : Tile} (ht : Fits t) {n : ℕ} (hn : n ≤ t.cols)
    (s : State F) :
    UpdatedBelow t n s (effects ((List.range n).flatMap (updateColumn t)) s) := by
  induction n with
  | zero =>
    exact ⟨rfl, fun h => absurd h (by decide), fun _ _ => rfl, fun _ h => absurd h (Nat.not_lt_zero _),
      fun _ _ _ _ _ => rfl⟩
  | succ n ih =>
    have hprev := ih (by omega)
    have hstraight := Straight.flatMap fun j (_ : j ∈ List.range n) => straight_updateColumn t j
    have hright := hstraight.general (by decide : Reg.right.id ∉ [Reg.cursor.id]) s
    have hstride := hstraight.general (by decide : Reg.rightStride.id ∉ [Reg.cursor.id]) s
    rw [List.range_succ, List.flatMap_append, effects_append, List.flatMap_singleton]
    exact hprev.succ ht (by omega) hright hstride
      (updated_updateColumn ht (by omega) (by rw [hright, hstride]; exact hprev.cursor))

theorem Fits.cols_le {t : Tile} (ht : Fits t) : t.cols ≤ 30 := by
  have hpos : 1 ≤ t.columnRegs := by
    have := ht.rows_pos
    simp only [Tile.columnRegs, vectorLanes]
    omega
  have hmul := Nat.mul_le_mul_left t.cols hpos
  have hfit := ht.regs_le
  omega

theorem Fits.columnRegs_le {t : Tile} (ht : Fits t) : t.columnRegs ≤ 4 := by
  have := ht.rows_le
  simp only [Tile.columnRegs, vectorLanes]
  omega

theorem straight_depthStep {t : Tile} (ht : Fits t) :
    Straight [Reg.left.id, Reg.right.id, Reg.cursor.id, Reg.laneAddress.id] 200 (depthStep t) := by
  have hrows := ht.rows_le
  have hcols := ht.cols_le
  have hregs := ht.columnRegs_le
  have hload := straight_transfer .load (leftColumn t) (by omega : t.rows ≤ 128) Reg.left
    Reg.laneAddress
  have hupdate := Straight.flatMap fun j (_ : j ∈ List.range t.cols) => straight_updateColumn t j
  have hmoves : Straight [Reg.left.id, Reg.right.id, Reg.cursor.id, Reg.laneAddress.id] 2
      [.addReg Reg.left Reg.left Reg.leftStride .lsl 0,
        .addImm Reg.right Reg.right elementBytes false] := by
    refine Straight.cons ⟨(by decide : 0 < Reg.left.bits), rfl, rfl⟩ (by simp [WritesGeneral]) ?_
    exact Straight.singleton ⟨(by decide : 4 < 2 ^ 12), rfl, rfl⟩ (by simp [WritesGeneral])
  have hmul : t.cols * (t.columnRegs + 2) ≤ 30 * 6 := Nat.mul_le_mul hcols (by omega)
  refine (((hload.mono (by simp) le_rfl).append (hupdate.mono (by simp) le_rfl)).append
    hmoves).mono (List.Subset.refl _) ?_
  rw [List.length_range]
  omega

structure Accumulating (t : Tile) (m : Memory) (leftStride rightStride left right : Address)
    (rows : ℕ → ℕ → F) (s : State F) : Prop where
  memory : s.memory = m
  leftStride : s.general Reg.leftStride.id = leftStride
  rightStride : s.general Reg.rightStride.id = rightStride
  left : s.general Reg.left.id = left
  right : s.general Reg.right.id = right
  rows : ∀ j < t.cols, ∀ row < t.rows, rowsOf (accumulator t j) s row = rows j row

section Accumulating

variable {t : Tile} {m : Memory} {leftStride rightStride left right : Address} {rows : ℕ → ℕ → F}
  {s : State F}

omit [Lane F] in
theorem Accumulating.set (h : Accumulating t m leftStride rightStride left right rows s)
    {r : Fin 32}
    (hr : r ∉ [Reg.leftStride.id, Reg.rightStride.id, Reg.left.id, Reg.right.id])
    (v : BitVec 64) : Accumulating t m leftStride rightStride left right rows (s.set r v) := by
  have hne {q : Fin 32} (hq : q ∈ [Reg.leftStride.id, Reg.rightStride.id, Reg.left.id, Reg.right.id]) :
      (s.set r v).general q = s.general q :=
    s.general_set_of_ne (fun (e : q = r) => hr (e ▸ hq)) v
  exact ⟨h.memory, (hne (by decide)).trans h.leftStride, (hne (by decide)).trans h.rightStride,
    (hne (by decide)).trans h.left, (hne (by decide)).trans h.right, h.rows⟩

omit [Lane F] in
theorem Accumulating.setPointers (h : Accumulating t m leftStride rightStride left right rows s)
    (left' right' : Address) : Accumulating t m leftStride rightStride left' right' rows
      ((s.set Reg.left.id left').set Reg.right.id right') where
  memory := h.memory
  leftStride := by
    rw [State.general_set_of_ne _ (by decide), State.general_set_of_ne _ (by decide), h.leftStride]
  rightStride := by
    rw [State.general_set_of_ne _ (by decide), State.general_set_of_ne _ (by decide), h.rightStride]
  left := by rw [State.general_set_of_ne _ (by decide), State.general_set_same]
  right := State.general_set_same ..
  rows := h.rows

theorem Accumulating.depthStep (ht : Fits t)
    (h : Accumulating t m leftStride rightStride left right rows s) :
    Accumulating t m leftStride rightStride (left + leftStride) (right + (4 : ℕ))
      (fun j row => Lane.fma (rows j row) (m.lane (left + (4 * row : ℕ)))
        (m.lane (right + (j : BitVec 64) * rightStride)))
      (effects (depthStep t) s) := by
  have hrows := ht.rows_le
  have hloaded := loaded_transfer (leftColumn t) (by omega : t.rows ≤ 128)
    (by decide : Reg.left.IsX) (by decide : Reg.laneAddress.IsX) (by decide) s
  rw [h.left] at hloaded
  have hkeepLeft := (straight_depthStep ht).general (by decide : Reg.leftStride.id ∉ _) s
  have hkeepRight := (straight_depthStep ht).general (by decide : Reg.rightStride.id ∉ _) s
  rw [Gemm.depthStep, effects_append, effects_append] at hkeepLeft hkeepRight ⊢
  -- `u` holds the column of the left operand, `v` also the products
  generalize effects (transfer .load _ _ _ _) s = u at hloaded hkeepLeft hkeepRight ⊢
  have hupdated := updatedBelow_updateColumns ht le_rfl u
  have hgeneral {r : Fin 32} (hr : r ∉ [Reg.cursor.id, Reg.laneAddress.id]) :
      (effects ((List.range t.cols).flatMap (updateColumn t)) u).general r = s.general r := by
    rw [List.mem_cons, not_or, List.mem_singleton] at hr
    have hframe := (Straight.flatMap fun j (_ : j ∈ List.range t.cols) =>
      straight_updateColumn t j).general (by simpa using hr.1) u
    rw [hframe, hloaded.general r hr.2]
  have hright : u.general Reg.right.id = right := (hloaded.general _ (by decide)).trans h.right
  have hstride : u.general Reg.rightStride.id = rightStride :=
    (hloaded.general _ (by decide)).trans h.rightStride
  generalize effects (List.flatMap _ _) u = v at hupdated hgeneral hkeepLeft hkeepRight ⊢
  have hmoves : effects [.addReg Reg.left Reg.left Reg.leftStride .lsl 0,
      .addImm Reg.right Reg.right elementBytes false] v =
      (v.set Reg.left.id (left + leftStride)).set Reg.right.id (right + (4 : ℕ)) := by
    rw [effects_cons, effects_cons, effects_nil, effect_addReg _ (by decide) (by decide) (by decide),
      effect_addImm _ (by decide), State.general_set_of_ne _ (by decide), hgeneral (by decide),
      hgeneral (by decide), hgeneral (by decide), h.left, h.right, h.leftStride,
      if_neg (by decide), BitVec.shiftLeft_zero, BitVec.shiftLeft_zero]
    rfl
  rw [hmoves] at hkeepLeft hkeepRight ⊢
  refine ⟨hupdated.memory.trans (hloaded.memory.trans h.memory),
    hkeepLeft.trans h.leftStride, hkeepRight.trans h.rightStride, ?_,
    State.general_set_same .., fun j hj row hrow => ?_⟩
  · rw [State.general_set_of_ne _ (by decide), State.general_set_same]
  · have hreg : row / 4 < t.columnRegs := by
      simp only [Tile.columnRegs, vectorLanes]
      omega
    have hproduct : rowsOf (accumulator t j) v row =
        Lane.fma (rowsOf (accumulator t j) u row) (rowsOf (leftColumn t) u row)
          (u.memory.lane (u.general Reg.right.id + (j : BitVec 64) * u.general Reg.rightStride.id)) :=
      congrFun (hupdated.column j hj _ hreg) _
    have hold : rowsOf (accumulator t j) u row = rowsOf (accumulator t j) s row :=
      congrFun (hloaded.others _ fun r hr => accumulator_ne_leftColumn ht hj hreg hr) _
    calc rowsOf (accumulator t j) v row
        = Lane.fma (rowsOf (accumulator t j) s row) (s.memory.lane (left + (4 * row : ℕ)))
            (s.memory.lane (right + (j : BitVec 64) * rightStride)) := by
          rw [hproduct, hold, hloaded.memory, hright, hstride,
            rowsOf_eq_lane hrow (hloaded.column _ hreg)]
      _ = _ := by rw [h.rows j hj row hrow, h.memory]

theorem Accumulating.depthLoop (ht : Fits t) {k : ℕ} (hk : k < 2 ^ 64)
    (h : Accumulating t m leftStride rightStride left right rows s) :
    Accumulating t m leftStride rightStride (left + (k : BitVec 64) * leftStride)
      (right + (4 * k : ℕ))
      (fun j row => reduceDepth k
        (fun l : ℕ => m.lane (left + (l : BitVec 64) * leftStride + (4 * row : ℕ)))
        (fun l : ℕ => m.lane (right + (4 * l : ℕ) + (j : BitVec 64) * rightStride)) (rows j row))
      ((depthLoop k t).exec s) := by
  refine Code.exec_loop_induction
    (P := fun n => Accumulating t m leftStride rightStride (left + (n : BitVec 64) * leftStride)
      (right + (4 * n : ℕ))
      (fun j row => reduceDepth n
        (fun l : ℕ => m.lane (left + (l : BitVec 64) * leftStride + (4 * row : ℕ)))
        (fun l : ℕ => m.lane (right + (4 * l : ℕ) + (j : BitVec 64) * rightStride)) (rows j row)))
    (by decide) hk (fun _ _ v hp => hp.set (by decide) v) (fun n _ u hu => ?_) ?_
  · have hstep := hu.depthStep ht
    have hleft : left + (n : BitVec 64) * leftStride + leftStride =
        left + ((n + 1 : ℕ) : BitVec 64) * leftStride := by grind
    have hright : right + ((4 * n : ℕ) : BitVec 64) + ((4 : ℕ) : BitVec 64) =
        right + ((4 * (n + 1) : ℕ) : BitVec 64) := by grind
    rw [hleft, hright] at hstep
    simp only [reduceDepth_succ]
    exact hstep
  · rw [Nat.cast_zero, zero_mul, add_zero, add_zero]
    exact h

theorem bounded_depthLoop (ht : Fits t) {k : ℕ} (hk : k < 2 ^ 64) :
    Code.Bounded [Reg.depthCount.id, Reg.left.id, Reg.right.id, Reg.cursor.id, Reg.laneAddress.id] 206
      (depthLoop k t) :=
  (Code.Bounded.run (straight_depthStep ht)).loop (by decide) hk (by decide) (by decide)

def leftLanes (m : Memory) (left batch stride : Address) (row br l : ℕ) : F :=
  m.lane (left + (br : BitVec 64) * batch + (l : BitVec 64) * stride + (4 * row : ℕ))

def rightLanes (m : Memory) (right batch stride : Address) (j br l : ℕ) : F :=
  m.lane (right + (br : BitVec 64) * batch + (4 * l : ℕ) + (j : BitVec 64) * stride)

def nextPair : List Instr :=
  [.addReg Reg.left Reg.left Reg.leftBatch .lsl 0, .addReg Reg.right Reg.right Reg.rightBatch .lsl 0]

/-- A reduction with `n` pairs of operands done. The batch strides in the registers are what is left
to the next pair once the depth has been walked through. -/
structure Batching (t : Tile) (m : Memory) (k : ℕ)
    (leftStride rightStride left right leftBatch rightBatch : Address) (rows : ℕ → ℕ → F) (n : ℕ)
    (s : State F) : Prop where
  accumulating : Accumulating t m leftStride rightStride (left + (n : BitVec 64) * leftBatch)
    (right + (n : BitVec 64) * rightBatch)
    (fun j row => reduceBatch n k (leftLanes m left leftBatch leftStride row)
      (rightLanes m right rightBatch rightStride j) (rows j row)) s
  leftBatch : s.general Reg.leftBatch.id = leftBatch - (k : BitVec 64) * leftStride
  rightBatch : s.general Reg.rightBatch.id = rightBatch - ((4 * k : ℕ) : BitVec 64)

theorem Batching.succ (ht : Fits t) {k : ℕ} (hk : k < 2 ^ 64) {leftBatch rightBatch : Address}
    {n : ℕ} (h : Batching t m k leftStride rightStride left right leftBatch rightBatch rows n s) :
    Batching t m k leftStride rightStride left right leftBatch rightBatch rows (n + 1)
      ((depthLoop k t ++ .run nextPair : Code).exec s) := by
  have hdepth := h.accumulating.depthLoop ht hk
  have hleft := ((bounded_depthLoop ht hk).general (by decide : Reg.leftBatch.id ∉ _) s).trans
    h.leftBatch
  have hright := ((bounded_depthLoop ht hk).general (by decide : Reg.rightBatch.id ∉ _) s).trans
    h.rightBatch
  have hexec : ((depthLoop k t ++ .run nextPair : Code).exec s) = (((depthLoop k t).exec s).set Reg.left.id (left + ((n + 1 : ℕ) : BitVec 64) * leftBatch)).set
        Reg.right.id (right + ((n + 1 : ℕ) : BitVec 64) * rightBatch) := by
    -- the pointers have moved by the depth, which the strides in the registers leave out
    have hnextLeft : left + (n : BitVec 64) * leftBatch + (k : BitVec 64) * leftStride +
        (leftBatch - (k : BitVec 64) * leftStride) =
        left + ((n + 1 : ℕ) : BitVec 64) * leftBatch := by grind
    have hnextRight : right + (n : BitVec 64) * rightBatch + ((4 * k : ℕ) : BitVec 64) +
        (rightBatch - ((4 * k : ℕ) : BitVec 64)) =
        right + ((n + 1 : ℕ) : BitVec 64) * rightBatch := by grind
    change effects nextPair ((depthLoop k t).exec s) = _
    rw [nextPair, effects_cons, effects_cons, effects_nil, effect_addReg _ (by decide) (by decide) (by decide),
      effect_addReg _ (by decide) (by decide) (by decide), State.general_set_of_ne _ (by decide),
      State.general_set_of_ne _ (by decide), hdepth.left, hdepth.right, hleft, hright,
      BitVec.shiftLeft_zero, BitVec.shiftLeft_zero, hnextLeft, hnextRight]
  rw [hexec]
  refine ⟨?_, ?_, ?_⟩
  · simp only [reduceBatch_succ]
    exact hdepth.setPointers _ _
  · rw [State.general_set_of_ne _ (by decide), State.general_set_of_ne _ (by decide), hleft]
  · rw [State.general_set_of_ne _ (by decide), State.general_set_of_ne _ (by decide), hright]

theorem Accumulating.reduction (ht : Fits t) {shape : Shape} (hk : shape.k < 2 ^ 64)
    (hpos : 0 < shape.batch) (hbatch : shape.batch < 2 ^ 64) {leftBatch rightBatch : Address}
    (h : Accumulating t m leftStride rightStride left right rows s)
    (hleft : 1 < shape.batch →
      s.general Reg.leftBatch.id = leftBatch - (shape.k : BitVec 64) * leftStride)
    (hright : 1 < shape.batch →
      s.general Reg.rightBatch.id = rightBatch - ((4 * shape.k : ℕ) : BitVec 64)) :
    ∃ left' right', Accumulating t m leftStride rightStride left' right'
      (fun j row => reduceBatch shape.batch shape.k (leftLanes m left leftBatch leftStride row)
        (rightLanes m right rightBatch rightStride j) (rows j row))
      ((reduction shape t).exec s) := by
  have hstart : Accumulating t m leftStride rightStride (left + ((0 : ℕ) : BitVec 64) * leftBatch)
      (right + ((0 : ℕ) : BitVec 64) * rightBatch) rows s := by
    rw [Nat.cast_zero, zero_mul, zero_mul, add_zero, add_zero]
    exact h
  rw [Gemm.reduction]
  split_ifs with hmany
  · have hloop := Code.exec_loop_induction
      (P := Batching t m shape.k leftStride rightStride left right leftBatch rightBatch rows)
      (by decide : Reg.batchCount.IsX) hbatch
      (fun _ u v hu => ⟨hu.accumulating.set (by decide) v,
        (u.general_set_of_ne (by decide) v).trans hu.leftBatch,
        (u.general_set_of_ne (by decide) v).trans hu.rightBatch⟩)
      (fun _ _ _ hu => hu.succ ht hk) ⟨hstart, hleft hmany, hright hmany⟩
    exact ⟨_, _, hloop.accumulating⟩
  · have hone : shape.batch = 1 := by omega
    rw [hone]
    simp only [reduceBatch_succ]
    exact ⟨_, _, hstart.depthLoop ht hk⟩

end Accumulating

theorem bounded_reduction {t : Tile} (ht : Fits t) {shape : Shape} (hk : shape.k < 2 ^ 64)
    (hbatch : shape.batch < 2 ^ 64) :
    Code.Bounded [Reg.batchCount.id, Reg.depthCount.id, Reg.left.id, Reg.right.id, Reg.cursor.id,
      Reg.laneAddress.id] 214 (reduction shape t) := by
  have hdepth := bounded_depthLoop ht hk
  rw [reduction]
  split_ifs with hmany
  · have hmoves : Straight [Reg.depthCount.id, Reg.left.id, Reg.right.id, Reg.cursor.id,
        Reg.laneAddress.id] 2 nextPair := by
      refine Straight.cons ⟨(by decide : 0 < Reg.left.bits), rfl, rfl⟩ (by simp [WritesGeneral]) ?_
      exact Straight.singleton ⟨(by decide : 0 < Reg.right.bits), rfl, rfl⟩
        (by simp [WritesGeneral])
    exact (hdepth.append (Code.Bounded.run hmoves)).loop (by decide) hbatch (by decide) (by decide)
  · exact hdepth.mono (List.subset_cons_self _ _) (by decide)

end TensorKernels.Gemm
