import TensorKernels.Elementwise.Code
import TensorKernels.Proofs.Assembly.Exec
import TensorKernels.Proofs.Elementwise.Operands
import TensorKernels.Proofs.Elementwise.Tiling

/-!
One tile of an elementwise kernel. Loading it and applying the operation leaves the results of its
cells in the registers of its columns; storing it then writes them, and the pointers move on to the
next tile. The register of zeros lies above those of every tile, and a kernel that writes zeros never
loads, so the registers prepared at the start stay as they are.
-/

namespace TensorKernels.Elementwise

open Instr Column

variable {F : Type} [Lane F]

/-! Pointers are moved by code that changes the pointer and the scratch register only. -/

def Leads (pointer : GeneralReg) (v : BitVec 64) (code : List Instr) (s : State F) : Prop :=
  ∃ w, effects code s = (s.set Reg.scratch.id w).set pointer.id v

section Pointer

variable {pointer : GeneralReg} {s : State F}

theorem Leads.append (hne : pointer.id ≠ Reg.scratch.id) {v v' : BitVec 64}
    {first second : List Instr} (h : Leads pointer v first s)
    (h' : ∀ w, Leads pointer v' second ((s.set Reg.scratch.id w).set pointer.id v)) :
    Leads pointer v' (first ++ second) s := by
  obtain ⟨w, hfirst⟩ := h
  obtain ⟨w', hsecond⟩ := h' w
  refine ⟨w', ?_⟩
  rw [effects_append, hfirst, hsecond]
  simp only [State.set, Function.update_comm hne, Function.update_idem]

def Free (r : GeneralReg) : Prop := r.IsX ∧ r.id ≠ Reg.scratch.id

instance (r : GeneralReg) : Decidable (Free r) := inferInstanceAs (Decidable (_ ∧ _))

theorem leads_addConstant (hp : Free pointer) {value : Int} (hv : value.natAbs < 2 ^ 64) :
    Leads pointer (s.general pointer.id + (value : BitVec 64))
      (Sequence.addConstant pointer pointer value Reg.scratch) s :=
  Sequence.effects_addConstant hp.1 hp.1 s (by decide) hp.2.symm hv

theorem leads_addMultiple (hp : Free pointer) {base stride : GeneralReg} (hbase : Free base)
    (hstride : Free stride) {count : ℕ} (hc : count < 2 ^ 64) :
    Leads pointer (s.general base.id + count * s.general stride.id)
      (Sequence.addMultiple pointer base count stride Reg.scratch) s :=
  Sequence.effects_addMultiple hp.1 hbase.1 s hstride.1 (by decide) hbase.2.symm hstride.2.symm hc

variable {l : Layout} {i j : ℕ}

theorem leads_rows (hp : Free pointer) (h : s.general pointer.id = l.cell i j) {i' : ℕ} {bytes : Int}
    (hb : bytes.natAbs < 2 ^ 64)
    (hbytes : (bytes : BitVec 64) = 4 * (i' : BitVec 64) - 4 * (i : BitVec 64)) :
    Leads pointer (l.cell i' j) (Sequence.addConstant pointer pointer bytes Reg.scratch) s := by
  have hcell : l.cell i j + (bytes : BitVec 64) = l.cell i' j := by
    rw [hbytes, Layout.cell, Layout.cell]
    grind
  have hlead := leads_addConstant (s := s) hp hb
  rwa [h, hcell] at hlead

theorem leads_columns (hp : Free pointer) {base stride : GeneralReg} (hbase : Free base)
    (hstride : Free stride) (h : s.general base.id = l.cell i j)
    (hs : s.general stride.id = 4 * l.stride) {columns : ℕ} (hc : columns < 2 ^ 64) :
    Leads pointer (l.cell i (j + columns))
      (Sequence.addMultiple pointer base columns stride Reg.scratch) s := by
  have hlead := leads_addMultiple (s := s) hp hbase hstride hc
  rwa [h, hs, Layout.cell_add_column] at hlead

end Pointer

structure Staged (x : Arguments) (s : State F) : Prop where
  input : s.general Reg.input.id = x.input.base
  output : s.general Reg.output.id = x.output.base
  inputStride : s.general Reg.inputStride.id = 4 * x.input.stride
  outputStride : s.general Reg.outputStride.id = 4 * x.output.stride

structure At (x : Arguments) (op : Op) (i j : ℕ) (s : State F) : Prop where
  tileIn : op.needsInput = true → s.general Reg.tileIn.id = x.input.cell i j
  tileOut : s.general Reg.tileOut.id = x.output.cell i j

structure Prepared (op : Op) (regs : ℕ) (s : State F) : Prop where
  zeros : op = .relu → s.vector Reg.zeros.id = fun _ => Lane.zero
  cleared : op = .zero → ∀ v : Fin 32, v.val < regs → s.vector v = fun _ => Lane.zero

/-- A kernel that is done where `done` says so and may go on anywhere. -/
structure Ready (x : Arguments) (op : Op) (m n regs : ℕ) (start : Memory) (done : ℕ → ℕ → Prop)
    (s : State F) : Prop where
  staged : Staged x s
  prepared : Prepared op regs s
  progress : x.output.Progress m n (x.result op start : ℕ → ℕ → F) start done s.memory

structure Reached (x : Arguments) (op : Op) (m n regs : ℕ) (start : Memory) (done : ℕ → ℕ → Prop)
    (i j : ℕ) (s : State F) : Prop extends Ready x op m n regs start done s where
  place : At x op i j s

def stagedRegs : List (Fin 32) :=
  [Reg.input, Reg.output, Reg.inputStride, Reg.outputStride].map (·.id)

def pointerRegs : List (Fin 32) := [Reg.tileIn, Reg.tileOut].map (·.id)

section Place

variable {x : Arguments} {op : Op} {m n regs : ℕ} {start : Memory} {done done' : ℕ → ℕ → Prop}
  {i j : ℕ} {s u : State F}

omit [Lane F] in
theorem Staged.congr (h : Staged x s) (hkeep : ∀ r ∈ stagedRegs, u.general r = s.general r) :
    Staged x u where
  input := (hkeep _ (by decide)).trans h.input
  output := (hkeep _ (by decide)).trans h.output
  inputStride := (hkeep _ (by decide)).trans h.inputStride
  outputStride := (hkeep _ (by decide)).trans h.outputStride

omit [Lane F] in
theorem Staged.set (h : Staged x s) {r : Fin 32} (hr : r ∉ stagedRegs) (v : BitVec 64) :
    Staged x (s.set r v) :=
  h.congr fun q hq => s.general_set_of_ne (fun (e : q = r) => hr (e ▸ hq)) v

omit [Lane F] in
theorem At.congr (h : At x op i j s) (hkeep : ∀ r ∈ pointerRegs, u.general r = s.general r) :
    At x op i j u where
  tileIn hop := (hkeep _ (by decide)).trans (h.tileIn hop)
  tileOut := (hkeep _ (by decide)).trans h.tileOut

theorem Prepared.congr (h : Prepared op regs s) (hvector : u.vector = s.vector) :
    Prepared op regs u :=
  ⟨fun hop => hvector ▸ h.zeros hop, fun hop v hv => hvector ▸ h.cleared hop v hv⟩

theorem Ready.set (h : Ready x op m n regs start done s) {r : Fin 32} (hr : r ∉ stagedRegs)
    (v : BitVec 64) : Ready x op m n regs start done (s.set r v) :=
  ⟨h.staged.set hr v, h.prepared.congr rfl, h.progress⟩

theorem Ready.iff (h : Ready x op m n regs start done s)
    (hiff : ∀ i < m, ∀ j < n, done i j ↔ done' i j) : Ready x op m n regs start done' s :=
  ⟨h.staged, h.prepared, h.progress.congr hiff⟩

theorem Reached.set (h : Reached x op m n regs start done i j s) {r : Fin 32}
    (hr : r ∉ stagedRegs ++ pointerRegs) (v : BitVec 64) :
    Reached x op m n regs start done i j (s.set r v) := by
  rw [List.mem_append, not_or] at hr
  refine ⟨h.toReady.set hr.1 v, h.place.congr fun q hq => ?_⟩
  exact s.general_set_of_ne (fun (e : q = r) => hr.2 (e ▸ hq)) v

theorem Reached.iff (h : Reached x op m n regs start done i j s)
    (hiff : ∀ i < m, ∀ j < n, done i j ↔ done' i j) :
    Reached x op m n regs start done' i j s :=
  ⟨h.toReady.iff hiff, h.place⟩

theorem Ready.pointers (h : Ready x op m n regs start done s) {inCode outCode : List Instr}
    (hin : op.needsInput = true → Leads Reg.tileIn (x.input.cell i j) inCode s)
    (hout : ∀ u : State F, Staged x u → u.general Reg.tileOut.id = s.general Reg.tileOut.id →
      Leads Reg.tileOut (x.output.cell i j) outCode u) :
    Reached x op m n regs start done i j
      (effects ((if op.needsInput then inCode else []) ++ outCode) s) := by
  rw [effects_append]
  by_cases hop : op.needsInput = true
  · obtain ⟨w, hfirst⟩ := hin hop
    have hmoved := (h.set (by decide : Reg.scratch.id ∉ stagedRegs) w).set
      (by decide : Reg.tileIn.id ∉ stagedRegs) (x.input.cell i j)
    obtain ⟨w', hsecond⟩ := hout _ hmoved.staged (by
      rw [State.general_set_of_ne _ (by decide), State.general_set_of_ne _ (by decide)])
    rw [if_pos hop, hfirst, hsecond]
    refine ⟨(hmoved.set (by decide) w').set (by decide) _, fun _ => ?_, State.general_set_same ..⟩
    rw [State.general_set_of_ne _ (by decide), State.general_set_of_ne _ (by decide),
      State.general_set_same]
  · obtain ⟨w', hsecond⟩ := hout s h.staged rfl
    rw [if_neg hop, effects_nil, hsecond]
    exact ⟨(h.set (by decide) w').set (by decide) _, fun hop' => absurd hop' hop,
      State.general_set_same ..⟩

theorem Reached.moveRows (h : Reached x op m n regs start done i j s) {rows : ℕ}
    (hrows : rows < 2 ^ 32) :
    Reached x op m n regs start done (i + rows) j
      (effects (moveRows op ((rows * elementBytes : ℕ) : Int)) s) := by
  have hbound : (((rows * elementBytes : ℕ) : Int)).natAbs < 2 ^ 64 := by
    rw [Int.natAbs_natCast, elementBytes]
    omega
  have hbytes : (((rows * elementBytes : ℕ) : Int) : BitVec 64) =
      4 * ((i + rows : ℕ) : BitVec 64) - 4 * (i : BitVec 64) := by
    rw [elementBytes]
    push_cast
    grind
  refine h.toReady.pointers (fun hop => ?_) fun u hu hout => ?_
  · exact leads_rows (by decide) (h.place.tileIn hop) hbound hbytes
  · exact leads_rows (by decide) (hout.trans h.place.tileOut) hbound hbytes

end Place

theorem effects_registers {instr : VectorReg → Instr} {f : (Fin 4 → F) → (Fin 4 → F) → Fin 4 → F}
    (h : ∀ (r : VectorReg) (s : State F),
      (instr r).effect s = s.setVector r.id (f (s.vector r.id) (s.vector Reg.zeros.id)))
    {n : ℕ} (hn : n < 32) (s : State F) :
    effects ((List.range n).map fun r => instr (VectorReg.ofNat r)) s =
      { s with
        vector := fun v => if v.val < n then f (s.vector v) (s.vector Reg.zeros.id) else s.vector v } := by
  induction n with
  | zero => rfl
  | succ n ih =>
    have hid : (VectorReg.ofNat n).id.val = n := Nat.mod_eq_of_lt (by omega)
    have hzeros : Reg.zeros.id.val = 31 := rfl
    rw [List.range_succ, List.map_append, effects_append, ih (by omega), List.map_singleton,
      effects_cons, effects_nil, h]
    refine State.ext rfl (funext fun v => ?_) rfl
    -- register `n` and the last one are still as they were
    simp only [State.vector_setVector, Function.update_apply, hid, hzeros, lt_irrefl,
      if_neg (by omega : ¬31 < n), if_false]
    by_cases hv : v = (VectorReg.ofNat n).id
    · rw [if_pos hv, hv, if_pos (by omega)]
    · have hne : v.val ≠ n := fun e => hv (Fin.ext (e.trans hid.symm))
      rw [if_neg hv]
      exact if_congr (by omega) rfl rfl

def loadTile (op : Op) (t : Tile) : List Instr :=
  if op.needsInput then
    tileTransfer .load t Reg.tileIn Reg.cursor Reg.inputStride Reg.laneAddress
  else []

def clampTile (op : Op) (t : Tile) : List Instr :=
  if op = .relu then (tileRegisters t).map fun r => .fmax .s4 r r Reg.zeros else []

def storeTile (t : Tile) : List Instr :=
  tileTransfer .store t Reg.tileOut Reg.cursor Reg.outputStride Reg.laneAddress

theorem tileCode_eq (op : Op) (t : Tile) (walksRows : Bool) :
    tileCode op t walksRows = loadTile op t ++ clampTile op t ++ storeTile t ++
      if walksRows then moveRows op ((t.rows * elementBytes : ℕ) : Int) else [] := rfl

section Tile

variable {t : Tile} (ht : Fits t)
include ht

theorem straight_transferTile (dir : Transfer) (pointer stride : GeneralReg) :
    Straight [Reg.cursor.id, Reg.laneAddress.id] 129
      (tileTransfer dir t pointer Reg.cursor stride Reg.laneAddress) := by
  have hrows := ht.rows_le
  have hmul : t.cols * (t.rows / 4 + 4) ≤ 16 * 8 := Nat.mul_le_mul ht.cols_le (by omega)
  exact (straight_tileTransfer dir (by omega) pointer Reg.cursor stride Reg.laneAddress).mono
    (List.Subset.refl _) (by omega)

variable {x : Arguments} {op : Op} {i j : ℕ} {s : State F}

theorem load_spec (hop : op.needsInput = true) (hstaged : Staged x s) (hat : At x op i j s) :
    (effects (loadTile op t) s).memory = s.memory ∧
      (∀ v : Fin 32, t.regs ≤ v.val → (effects (loadTile op t) s).vector v = s.vector v) ∧
      ∀ column < t.cols, ∀ row < t.rows,
        rowsOf (VectorReg.ofNat (column * t.columnRegs)) (effects (loadTile op t) s) row =
          s.memory.lane (x.input.cell (i + row) (j + column)) := by
  have hrows := ht.rows_le
  rw [loadTile, if_pos hop]
  exact load_tile (by omega) (by decide) (by decide) (by decide) (by decide) (by decide) (by decide)
    (by decide) (hat.tileIn hop) hstaged.inputStride ht.regs_lt.le

theorem effects_clampTile_relu (s : State F) :
    effects (clampTile .relu t) s =
      { s with
        vector := fun v => if v.val < t.regs then
          fun l => Lane.max (s.vector v l) (s.vector Reg.zeros.id l) else s.vector v } := by
  have hfit := ht.regs_lt
  rw [clampTile, if_pos rfl, tileRegisters, List.map_map]
  refine @effects_registers F _ (fun r => .fmax .s4 r r Reg.zeros) (fun a z l => Lane.max (a l) (z l))
    (fun r s => ?_) _ (by rwa [regs_eq]) s
  exact congrArg (s.setVector r.id) (funext fun l => if_pos l.isLt)

theorem apply_spec {regs : ℕ} (hregs : t.regs ≤ regs) (hstaged : Staged x s) (hat : At x op i j s)
    (hprepared : Prepared op regs s) :
    (effects (loadTile op t ++ clampTile op t) s).memory = s.memory ∧
      Prepared op regs (effects (loadTile op t ++ clampTile op t) s) ∧
      ∀ column < t.cols, ∀ row < t.rows,
        rowsOf (VectorReg.ofNat (column * t.columnRegs))
            (effects (loadTile op t ++ clampTile op t) s) row =
          x.result op s.memory (i + row) (j + column) := by
  have hfit := ht.regs_lt
  rw [effects_append]
  cases op with
  | zero =>
    refine ⟨rfl, hprepared, fun column hcolumn row hrow => ?_⟩
    have hcleared := hprepared.cleared rfl _ ((val_register hcolumn (columnRegs_of_lt hrow)).trans_le hregs)
    exact congrFun hcleared _
  | identity | transpose =>
    obtain ⟨hmemory, -, hrows⟩ := load_spec ht rfl hstaged hat
    exact ⟨hmemory, ⟨nofun, nofun⟩, hrows⟩
  | relu =>
    obtain ⟨hmemory, hothers, hrows⟩ := load_spec ht rfl hstaged hat
    have hzeros : (effects (loadTile .relu t) s).vector Reg.zeros.id = fun _ => Lane.zero :=
      (hothers _ (by rw [regs_eq]; exact Nat.le_of_lt_succ hfit)).trans (hprepared.zeros rfl)
    rw [effects_clampTile_relu ht, hzeros]
    refine ⟨hmemory, ⟨fun _ => ?_, nofun⟩, fun column hcolumn row hrow => ?_⟩
    · rw [← hzeros]
      exact if_neg (by rw [regs_eq]; exact Nat.not_lt.2 (Nat.le_of_lt_succ hfit))
    · rw [Arguments.result, Op.apply, ← hrows column hcolumn row hrow]
      exact congrFun (if_pos (val_register hcolumn (columnRegs_of_lt hrow))) _

theorem store_spec (hstaged : Staged x s) (hat : At x op i j s) :
    (effects (storeTile t) s).memory = x.output.storeTile t i j
        (fun column => rowsOf (VectorReg.ofNat (column * t.columnRegs)) s) s.memory ∧
      (effects (storeTile t) s).vector = s.vector := by
  have hrows := ht.rows_le
  exact store_tile (by omega) (by decide) (by decide) (by decide) (by decide) (by decide) (by decide)
    (by decide) hat.tileOut hstaged.outputStride

theorem straight_applyTile (op : Op) :
    Straight [Reg.cursor.id, Reg.laneAddress.id] 160 (loadTile op t ++ clampTile op t) := by
  have hfit := ht.regs_lt
  have hload : Straight [Reg.cursor.id, Reg.laneAddress.id] 129 (loadTile op t) := by
    rw [loadTile]
    split_ifs
    · exact straight_transferTile ht .load Reg.tileIn Reg.inputStride
    · exact Straight.nil
  have hclamp : Straight [Reg.cursor.id, Reg.laneAddress.id] 31 (clampTile op t) := by
    rw [clampTile]
    split_ifs
    · have hall : Straight [Reg.cursor.id, Reg.laneAddress.id] (tileRegisters t).length
          ((tileRegisters t).map fun r => .fmax .s4 r r Reg.zeros) :=
        Straight.map (fun _ _ => ⟨trivial, rfl, rfl⟩) (by simp [WritesGeneral])
      refine hall.mono (List.Subset.refl _) ?_
      rw [tileRegisters, List.length_map, List.length_range, regs_eq]
      omega
    · exact Straight.nil
  exact hload.append hclamp

variable {m n regs : ℕ} {start : Memory} {done : ℕ → ℕ → Prop} {sp : Address}

/-- A tile that has not been done is done; the pointers move below it if they are to. -/
theorem Reached.tile (h : Reached x op m n regs start done i j s) (hx : x.Admissible op m n sp)
    (hregs : t.regs ≤ regs) (hi : i + t.rows ≤ m) (hj : j + t.cols ≤ n)
    (hpending : ∀ i' j', InTile t i j i' j' → ¬done i' j') (walksRows : Bool) :
    Reached x op m n regs start (fun i' j' => done i' j' ∨ InTile t i j i' j')
      (if walksRows then i + t.rows else i) j (effects (tileCode op t walksRows) s) := by
  have hrows := ht.rows_le
  obtain ⟨hmemory, hprepared, hresults⟩ := apply_spec ht hregs h.staged h.place h.prepared
  have hkeep {r : Fin 32} (hr : r ∉ _) := (straight_applyTile ht op).general hr s
  rw [tileCode_eq, effects_append, effects_append]
  generalize effects (loadTile op t ++ clampTile op t) s = u at hmemory hprepared hresults hkeep ⊢
  have hstaged : Staged x u := h.staged.congr fun r hr => hkeep (by revert r; decide)
  have hat : At x op i j u := h.place.congr fun r hr => hkeep (by revert r; decide)
  obtain ⟨hstored, hvector⟩ := store_spec ht hstaged hat
  have hkeep' {r : Fin 32} (hr : r ∉ _) :=
    (straight_transferTile ht .store Reg.tileOut Reg.outputStride).general hr u
  have hdone : Reached x op m n regs start (fun i' j' => done i' j' ∨ InTile t i j i' j') i j
      (effects (storeTile t) u) := by
    refine ⟨⟨hstaged.congr fun r hr => hkeep' (by revert r; decide), hprepared.congr hvector, ?_⟩,
      hat.congr fun r hr => hkeep' (by revert r; decide)⟩
    rw [hstored, hmemory]
    refine h.progress.store hx.proper (by omega) hi hj fun column hcolumn row hrow => ?_
    have hnot := hpending (i + row) (j + column) ⟨by omega, by omega⟩
    rw [hresults column hcolumn row hrow, hx.result_eq h.progress (by omega) (by omega) hnot]
  cases walksRows with
  | false => exact hdone
  | true => exact hdone.moveRows (by omega)

end Tile

end TensorKernels.Elementwise
