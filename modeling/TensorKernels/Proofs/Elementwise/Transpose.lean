import TensorKernels.Proofs.Elementwise.Kernel

/-!
The transpose moves every element to the mirrored place. One loop runs down a column of the input and
along a row of the output, another over the columns. Elements are carried as words through a general
register, so their bits do not change, and no vector register is written.
-/

namespace TensorKernels.Elementwise

open Instr

/-- What a caller owes: rows of the output that do not overlap, an output that does not wrap, and an
input apart from it. -/
structure Arguments.Transposable (x : Arguments) (m n : ℕ) : Prop where
  proper : x.output.Proper n m
  apart : Disjoint (x.input.cells m n) (x.output.cells n m)

structure Moved (x : Arguments) (m n : ℕ) (start : Memory) (done : ℕ → ℕ → Prop) (mem : Memory) :
    Prop where
  moved : ∀ i < m, ∀ j < n, done i j → mem.word (x.output.cell j i) = start.word (x.input.cell i j)
  outside : ∀ y ∉ x.output.cells n m, mem y = start y

namespace Moved

variable {x : Arguments} {m n : ℕ} {start mem : Memory} {done done' : ℕ → ℕ → Prop}

theorem congr (h : Moved x m n start done mem) (hiff : ∀ i < m, ∀ j < n, done' i j → done i j) :
    Moved x m n start done' mem :=
  ⟨fun i hi j hj hd => h.moved i hi j hj (hiff i hi j hj hd), h.outside⟩

theorem store (h : Moved x m n start done mem) (hx : x.Transposable m n) {i j : ℕ} (hi : i < m)
    (hj : j < n) :
    Moved x m n start (fun i' j' => done i' j' ∨ i' = i ∧ j' = j)
      (mem.fill (x.output.cell j i) 1 fun _ => mem.word (x.input.cell i j)) := by
  have hsource : mem.word (x.input.cell i j) = start.word (x.input.cell i j) :=
    Memory.word_congr fun y hy =>
      h.outside y (Set.disjoint_left.1 hx.apart (Layout.region_subset_cells hi hj hy))
  have hfill (y) (hy : y ∉ Memory.region (x.output.cell j i) 4) :
      mem.fill (x.output.cell j i) 1 (fun _ => mem.word (x.input.cell i j)) y = mem y :=
    Memory.fill_of_notMem hy
  constructor
  · intro i' hi' j' hj' hd
    by_cases hsame : i' = i ∧ j' = j
    · obtain ⟨rfl, rfl⟩ := hsame
      have hword := Memory.word_fill (m := mem) (a := x.output.cell j' i') (i := 0)
        (f := fun _ => mem.word (x.input.cell i' j')) Nat.one_pos (by decide)
      rw [Nat.mul_zero, Nat.cast_zero, add_zero] at hword
      rw [hword, hsource]
    · have hdisjoint := Layout.cell_disjoint hx.proper hj' hi' hj hi (by omega)
      rw [← h.moved i' hi' j' hj' (hd.resolve_right hsame)]
      exact Memory.word_congr fun y hy => hfill y (Set.disjoint_left.1 hdisjoint hy)
  · intro y hy
    rw [hfill y fun hmem => hy (Layout.region_subset_cells hj hi hmem), h.outside y hy]

end Moved

/-! The code in pieces. -/

def moveElement : List Instr :=
  [.transfer .load Reg.element Reg.tileIn elementBytes .postIndex,
    .transfer .store Reg.element Reg.cursor 0 .offset,
    .addReg Reg.cursor Reg.cursor Reg.outputStride .lsl 0]

def nextColumn (m : ℕ) : List Instr :=
  Sequence.addConstant Reg.tileIn Reg.tileIn (-((m * elementBytes : ℕ) : Int)) Reg.scratch ++
    [.addReg Reg.tileIn Reg.tileIn Reg.inputStride .lsl 0,
      .addImm Reg.tileOut Reg.tileOut elementBytes false]

def moveColumn (m : ℕ) : Code :=
  .run [.mov Reg.cursor Reg.tileOut] ++ .loop Reg.rowCount m (.run moveElement) ++
    .run (nextColumn m)

def transposeStaging : List Instr :=
  (strides.map fun r => .lslImm r r 2) ++ [.mov Reg.tileIn Reg.input, .mov Reg.tileOut Reg.output]

def transposeBody (m n : ℕ) : Code :=
  .run transposeStaging ++ .loop Reg.columnCount n (moveColumn m)

theorem kernelCode_transpose (m n : ℕ) :
    kernelCode .transpose m n = transposeBody m n ++ .run ([] ++ [.ret]) := rfl

/-! Which registers it changes. -/

def elementRegs : List (Fin 32) := [Reg.tileIn, Reg.cursor, Reg.element].map (·.id)

theorem straight_moveElement : Straight elementRegs 3 moveElement := by
  have hload : (transfer .load Reg.element Reg.tileIn elementBytes .postIndex).Plain :=
    ⟨⟨by decide, by decide⟩, rfl, rfl⟩
  have hstore : (transfer .store Reg.element Reg.cursor 0 .offset).Plain :=
    ⟨⟨0, by decide, by decide⟩, rfl, rfl⟩
  have hnext : (addReg Reg.cursor Reg.cursor Reg.outputStride .lsl 0).Plain :=
    ⟨(by decide : 0 < 64), rfl, rfl⟩
  refine Straight.cons hload ?_ (Straight.cons hstore ?_ (Straight.singleton hnext ?_))
  · rintro r (⟨-, rfl⟩ | ⟨-, rfl⟩) <;> decide
  · rintro r (⟨⟨⟩, -⟩ | ⟨hmode, -⟩)
    exact absurd rfl hmode
  · rintro r rfl
    decide

theorem straight_nextColumn (m : ℕ) : Straight walkRegs 7 (nextColumn m) := by
  have hback := Sequence.straight_addConstant Reg.tileIn Reg.tileIn
    (-((m * elementBytes : ℕ) : Int)) Reg.scratch
  have hright : (addReg Reg.tileIn Reg.tileIn Reg.inputStride .lsl 0).Plain :=
    ⟨(by decide : 0 < 64), rfl, rfl⟩
  have hdown : (addImm Reg.tileOut Reg.tileOut elementBytes false).Plain :=
    ⟨(by decide : elementBytes < 2 ^ 12), rfl, rfl⟩
  refine (hback.mono (by decide) le_rfl).append (Straight.cons hright ?_ (Straight.singleton hdown ?_))
  all_goals
    rintro r rfl
    decide

theorem bounded_moveColumn {m : ℕ} (hm : m < 2 ^ 64) :
    Code.Bounded (Reg.rowCount.id :: walkRegs) 17 (moveColumn m) := by
  have hcursor : Straight (Reg.rowCount.id :: walkRegs) 1 [.mov Reg.cursor Reg.tileOut] := by
    refine Straight.singleton ⟨trivial, rfl, rfl⟩ ?_
    rintro r rfl
    decide
  have hrows := (Code.Bounded.run straight_moveElement).loop (by decide : Reg.rowCount.IsX) hm
    (by decide) (by decide)
  have hrows := hrows.mono (by decide : _ ⊆ Reg.rowCount.id :: walkRegs) le_rfl
  have hnext := (straight_nextColumn m).mono (List.subset_cons_self Reg.rowCount.id walkRegs) le_rfl
  exact ((Code.Bounded.run hcursor).append hrows).append (Code.Bounded.run hnext)

theorem bounded_transposeBody {m n : ℕ} (hm : m < 2 ^ 64) (hn : n < 2 ^ 64) :
    Code.Bounded kernelRegs 27 (transposeBody m n) := by
  have hscale := (Sequence.straight_scale (by decide : ∀ r ∈ strides, r.IsX)).mono
    (List.subset_append_left (strides.map (·.id)) regionRegs) le_rfl
  have hpointers : Straight kernelRegs 2
      [.mov Reg.tileIn Reg.input, .mov Reg.tileOut Reg.output] := by
    refine Straight.cons ⟨trivial, rfl, rfl⟩ ?_ (Straight.singleton ⟨trivial, rfl, rfl⟩ ?_)
    all_goals
      rintro r rfl
      decide
  have hcolumns := (bounded_moveColumn hm).loop (by decide : Reg.columnCount.IsX) hn (by decide)
    (by decide)
  exact (Code.Bounded.run (hscale.append hpointers)).append
    (hcolumns.mono (List.subset_append_right _ _) le_rfl)

theorem scalar_transposeBody (m n : ℕ) :
    (transposeBody m n).All fun i => ∀ v, ¬i.WritesVector v := by
  have hstaging : ∀ i ∈ transposeStaging, i.Arithmetic := by
    simp [transposeStaging, strides, Arithmetic]
  have helement : ∀ i ∈ moveElement, ∀ v, ¬i.WritesVector v := by
    simp [moveElement, WritesVector]
  have hnext : ∀ i ∈ nextColumn m, i.Arithmetic :=
    List.forall_mem_append.2 ⟨Sequence.arithmetic_addConstant _ _ _ _, by simp [Arithmetic]⟩
  refine ⟨fun i hi => (hstaging i hi).not_writesVector, ⟨?_, helement⟩,
    fun i hi => (hnext i hi).not_writesVector⟩
  exact List.forall_mem_singleton.2 fun _ => id

/-! What it does. -/

variable {F : Type} [Lane F]

theorem keep_word (w : BitVec 32) :
    (Width.w32.keep (Width.w32.keep (w.setWidth 64))).setWidth 32 = w := by
  simp [Width.keep]

structure ElementMoved (s t : State F) : Prop where
  memory : t.memory = s.memory.fill (s.general Reg.cursor.id) 1
    fun _ => s.memory.word (s.general Reg.tileIn.id)
  tileIn : t.general Reg.tileIn.id = s.general Reg.tileIn.id + 4
  cursor : t.general Reg.cursor.id = s.general Reg.cursor.id + s.general Reg.outputStride.id

theorem elementMoved (s : State F) : ElementMoved s (effects moveElement s) := by
  have hload : (transfer .load Reg.element Reg.tileIn elementBytes .postIndex).effect s =
      (s.set Reg.element.id (Width.w32.keep ((s.memory.word (s.general Reg.tileIn.id)).setWidth 64))).set
        Reg.tileIn.id (s.general Reg.tileIn.id + 4) := rfl
  generalize hw : s.memory.word (s.general Reg.tileIn.id) = w at hload
  have hstore (u : State F) : (transfer .store Reg.element Reg.cursor 0 .offset).effect u =
      { u with memory := u.memory.fill (u.general Reg.cursor.id + ((0 : Int) : BitVec 64)) 1
                  fun _ => (Width.w32.keep (u.general Reg.element.id)).setWidth 32 } := rfl
  rw [moveElement, effects_cons, effects_cons, effects_cons, effects_nil, hload, hstore,
    effect_addReg _ (by decide) (by decide) (by decide), Int.cast_zero, add_zero, BitVec.shiftLeft_zero]
  constructor
  · rw [hw]
    exact congrArg (s.memory.fill (s.general Reg.cursor.id) 1) (funext fun _ => keep_word w)
  · rfl
  · rfl

/-- A transpose that goes on at row `i` of column `j`. -/
structure Scattering (x : Arguments) (m n : ℕ) (start : Memory) (i j : ℕ) (s : State F) : Prop where
  staged : Staged x s
  tileIn : s.general Reg.tileIn.id = x.input.cell i j
  tileOut : s.general Reg.tileOut.id = x.output.cell j 0
  moved : Moved x m n start (fun i' j' => j' < j ∨ j' = j ∧ i' < i) s.memory

namespace Scattering

variable {x : Arguments} {m n : ℕ} {start : Memory} {i j : ℕ} {s t : State F}

omit [Lane F] in
theorem congr (h : Scattering x m n start i j s)
    (hkeep : ∀ r ∈ stagedRegs ++ pointerRegs, t.general r = s.general r) (hmemory : t.memory = s.memory) :
    Scattering x m n start i j t where
  staged := h.staged.congr fun r hr => hkeep r (List.mem_append_left _ hr)
  tileIn := (hkeep _ (by decide)).trans h.tileIn
  tileOut := (hkeep _ (by decide)).trans h.tileOut
  moved := hmemory ▸ h.moved

omit [Lane F] in
theorem set (h : Scattering x m n start i j s) {r : Fin 32} (hr : r ∉ stagedRegs ++ pointerRegs)
    (v : BitVec 64) : Scattering x m n start i j (s.set r v) :=
  h.congr (fun q hq => s.general_set_of_ne (fun (e : q = r) => hr (e ▸ hq)) v) rfl

theorem element (h : Scattering x m n start i j s) (hx : x.Transposable m n) (hi : i < m)
    (hj : j < n) (hcursor : s.general Reg.cursor.id = x.output.cell j i) :
    Scattering x m n start (i + 1) j (effects moveElement s) ∧
      (effects moveElement s).general Reg.cursor.id = x.output.cell j (i + 1) := by
  have hkeep {r : Fin 32} (hr : r ∉ elementRegs) := straight_moveElement.general hr s
  have hmoved := elementMoved s
  generalize effects moveElement s = t at hkeep hmoved
  have hstaged : ∀ r ∈ stagedRegs, r ∉ elementRegs := by decide
  refine ⟨⟨h.staged.congr fun r hr => hkeep (hstaged r hr), ?_, ?_, ?_⟩, ?_⟩
  · rw [hmoved.tileIn, h.tileIn]
    exact x.input.cell_add i j 1
  · rw [hkeep (by decide), h.tileOut]
  · rw [hmoved.memory, hcursor, h.tileIn]
    exact (h.moved.store hx hi hj).congr fun i' _ j' _ hd => by omega
  · have hright := x.output.cell_add_column j i 1
    rw [Nat.cast_one, one_mul] at hright
    rw [hmoved.cursor, hcursor, h.staged.outputStride, hright]

theorem column (h : Scattering x m n start 0 j s) (hx : x.Transposable m n) (hm : m < 2 ^ 64)
    (hj : j < n) (hcursor : s.general Reg.cursor.id = x.output.cell j 0) :
    Scattering x m n start m j ((Code.loop Reg.rowCount m (.run moveElement)).exec s) := by
  refine (Code.exec_loop_induction (P := fun i u => Scattering x m n start i j u ∧
    u.general Reg.cursor.id = x.output.cell j i) (by decide) hm ?_ ?_ ⟨h, hcursor⟩).1
  · rintro i u v ⟨hu, hat⟩
    exact ⟨hu.set (by decide) v, hat⟩
  · rintro i hi u ⟨hu, hat⟩
    exact hu.element hx hi hj hat

theorem nextColumn (h : Scattering x m n start m j s) (hm : m < 2 ^ 32) :
    Scattering x m n start 0 (j + 1) (effects (nextColumn m) s) := by
  have hrows : (((-((m * elementBytes : ℕ) : Int)) : Int) : BitVec 64) =
      4 * ((0 : ℕ) : BitVec 64) - 4 * (m : BitVec 64) := by
    rw [elementBytes]
    push_cast
    grind
  obtain ⟨w, hback⟩ := leads_rows (by decide : Free Reg.tileIn) h.tileIn
    (by rw [elementBytes]; omega) hrows
  have hnext : effects (Elementwise.nextColumn m) s = ((s.set Reg.scratch.id w).set Reg.tileIn.id
      (x.input.cell 0 (j + 1))).set Reg.tileOut.id (x.output.cell (j + 1) 0) := by
    have hright : (addReg Reg.tileIn Reg.tileIn Reg.inputStride .lsl 0).effect
        ((s.set Reg.scratch.id w).set Reg.tileIn.id (x.input.cell 0 j)) =
          (s.set Reg.scratch.id w).set Reg.tileIn.id (x.input.cell 0 (j + 1)) := by
      have hcell := x.input.cell_add_column 0 j 1
      rw [Nat.cast_one, one_mul] at hcell
      rw [effect_addReg _ (by decide) (by decide) (by decide), State.general_set_same,
        State.general_set_of_ne _ (by decide : Reg.inputStride.id ≠ Reg.tileIn.id),
        State.general_set_of_ne _ (by decide), h.staged.inputStride, BitVec.shiftLeft_zero, hcell,
        State.set_set]
    have hdown : (addImm Reg.tileOut Reg.tileOut elementBytes false).effect
        ((s.set Reg.scratch.id w).set Reg.tileIn.id (x.input.cell 0 (j + 1))) =
          ((s.set Reg.scratch.id w).set Reg.tileIn.id (x.input.cell 0 (j + 1))).set Reg.tileOut.id
            (x.output.cell (j + 1) 0) := by
      rw [effect_addImm _ (by decide), State.general_set_of_ne _ (by decide),
        State.general_set_of_ne _ (by decide), h.tileOut, if_neg (by decide), BitVec.shiftLeft_zero,
        ← x.output.cell_add j 0 1]
      rfl
    rw [Elementwise.nextColumn, effects_append, hback, effects_cons, effects_cons, effects_nil, hright,
      hdown]
  rw [hnext]
  refine ⟨((h.staged.set (by decide) _).set (by decide) _).set (by decide) _, ?_, ?_, ?_⟩
  · rw [State.general_set_of_ne _ (by decide), State.general_set_same]
  · exact State.general_set_same _ _ _
  · exact h.moved.congr fun i' hi' j' _ hd => by omega

theorem moveColumn (h : Scattering x m n start 0 j s) (hx : x.Transposable m n) (hm : m < 2 ^ 32)
    (hj : j < n) : Scattering x m n start 0 (j + 1) ((moveColumn m).exec s) := by
  have hexec : (Elementwise.moveColumn m).exec s = effects (Elementwise.nextColumn m)
      ((Code.loop Reg.rowCount m (.run moveElement)).exec
        ((Instr.mov Reg.cursor Reg.tileOut).effect s)) := rfl
  rw [hexec, effect_mov s (by decide) (by decide), h.tileOut]
  exact ((h.set (by decide) _).column hx (by omega) hj (s.general_set_same _ _)).nextColumn hm

theorem columns (h : Scattering x m n start 0 0 s) (hx : x.Transposable m n) (hm : m < 2 ^ 32)
    (hn : n < 2 ^ 32) :
    Scattering x m n start 0 n ((Code.loop Reg.columnCount n (Elementwise.moveColumn m)).exec s) :=
  Code.exec_loop_induction (by decide) (by omega) (fun _ _ v hu => hu.set (by decide) v)
    (fun _ hj _ hu => hu.moveColumn hx hm hj) h

end Scattering

theorem scattering_staging (m n : ℕ) (s : State F) :
    Scattering (Arguments.ofState s) m n s.memory 0 0 (effects transposeStaging s) := by
  have hX : ∀ r ∈ strides, r.IsX := by decide
  obtain ⟨hmemory, hscaled⟩ := Sequence.effects_scale hX (by decide) s
  have hkeep {r : Fin 32} (hr : r ∉ _) := (Sequence.straight_scale hX).general hr s
  rw [transposeStaging, effects_append, effects_cons, effects_cons, effects_nil,
    effect_mov _ (by decide) (by decide), effect_mov _ (by decide) (by decide)]
  generalize effects (strides.map fun r => .lslImm r r 2) s = u at hmemory hscaled hkeep ⊢
  have hstaged : Staged (Arguments.ofState s) u :=
    ⟨hkeep (by decide), hkeep (by decide), hscaled _ (by decide), hscaled _ (by decide)⟩
  refine ⟨(hstaged.set (by decide) _).set (by decide) _, ?_, ?_, fun _ _ _ _ hd => by omega, ?_⟩
  · rw [State.general_set_of_ne _ (by decide), State.general_set_same, Layout.cell_zero]
    exact hstaged.input
  · rw [State.general_set_same, State.general_set_of_ne _ (by decide), Layout.cell_zero]
    exact hstaged.output
  · exact fun y _ => congrFun hmemory y

theorem moved_transposeBody {m n : ℕ} (hm : m < 2 ^ 32) (hn : n < 2 ^ 32) (s : State F)
    (hx : (Arguments.ofState s).Transposable m n) :
    Moved (Arguments.ofState s) m n s.memory (fun _ _ => True) ((transposeBody m n).exec s).memory :=
  ((scattering_staging m n s).columns hx hm hn).moved.congr fun _ _ _ hj _ => Or.inl hj

theorem writes_transpose {m n : ℕ} (hm : m < 2 ^ 64) (hn : n < 2 ^ 64) {code : MachineCode}
    (hcode : assembleKernel (kernelCode .transpose m n) = .ok code) {pc : ℕ} {i : Instr}
    (hi : fetch code.words pc = some i) : ¬i.WritesGeneral 31 ∧ ∀ v, ¬i.WritesVector v := by
  have hbody := bounded_transposeBody hm hn
  rw [Code.words_of_assembleKernel hbody.wellFormed hcode] at hi
  obtain ⟨hgeneral, hvector⟩ := hbody.writes_fetched (scalar_transposeBody m n) hi
  exact ⟨fun hw => absurd (hgeneral 31 hw) (by decide), hvector⟩

/-- A transpose moves every word to its place, bit for bit. It changes no byte outside the output,
no vector register and not the stack pointer. -/
theorem generate_transposes {m n : ℕ} (hm : 0 < m ∧ m < 2 ^ 32) (hn : 0 < n ∧ n < 2 ^ 32) :
    ∃ kernel, Kernel.generate .transpose m n .f32 = .ok kernel ∧
      (∀ pc i, fetch kernel.code.words pc = some i →
        ¬i.WritesGeneral 31 ∧ ∀ v, ¬i.WritesVector v) ∧
      ∀ (F : Type) [Lane F] (s : State F), (Arguments.ofState s).Transposable m n →
        ∃ t, ReturnsIn kernel.code.words s t ∧
          (∀ i < m, ∀ j < n, t.memory.word ((Arguments.ofState s).output.cell j i) =
            s.memory.word ((Arguments.ofState s).input.cell i j)) ∧
          (∀ y ∉ (Arguments.ofState s).output.cells n m, t.memory y = s.memory y) ∧
          t.vector = s.vector ∧ t.general 31 = s.general 31 := by
  have hbody := bounded_transposeBody (m := m) (n := n) (by omega) (by omega)
  have hshort : (kernelCode .transpose m n).ShortLoops := ⟨hbody.wellFormed.shortLoops, trivial⟩
  have hcode := Code.assembleKernel_eq hshort
  generalize MachineCode.mk _ _ _ = code at hcode
  have hwrites (pc i) (hi : fetch code.words pc = some i) :=
    writes_transpose (by omega) (by omega) hcode hi
  refine ⟨⟨.transpose, m, n, code⟩, ?_, hwrites, fun F _ s hx => ?_⟩
  · simp only [Kernel.generate, inExtentRange_iff.2 hm, inExtentRange_iff.2 hn, hcode]
    rfl
  · have hmoved := moved_transposeBody hm.2 hn.2 s hx
    obtain ⟨pc, hrun, hret⟩ := Code.returnsIn_of_assembleKernel hbody.wellFormed
      (List.forall_mem_nil _) hcode s
    refine ⟨_, ⟨pc, hrun, hret⟩, fun i hi j hj => hmoved.moved i hi j hj trivial, hmoved.outside, ?_, ?_⟩
    · exact funext fun v => vector_of_runsTo (fun pc i hi => (hwrites pc i hi).2 v) hrun
    · exact general_of_runsTo (fun pc i hi => (hwrites pc i hi).1) hrun

def paddedState : State SignedLane where
  general r := [4096, 8192, 3, 5].getD r.val 0
  vector _ _ := ⟨0⟩
  memory y := y.setWidth 8

theorem paddedState_transposable : (Arguments.ofState paddedState).Transposable 2 3 := by
  refine ⟨⟨by decide, by decide⟩, Set.disjoint_left.2 ?_⟩
  rintro y ⟨i, hi, j, hj, hin⟩ ⟨j', hj', i', hi', hout⟩
  have hbelow : ∀ i < 2, ∀ j < 3,
      ((Arguments.ofState paddedState).input.cell i j).toNat + 4 ≤ 8192 := by decide
  have habove : ∀ i < 2, ∀ j < 3,
      8192 ≤ ((Arguments.ofState paddedState).output.cell j i).toNat ∧
        ((Arguments.ofState paddedState).output.cell j i).toNat + 4 ≤ 2 ^ 64 := by decide
  have hlow := hbelow i hi j hj
  have hhigh := habove i' hi' j' hj'
  have hyin := Memory.toNat_of_mem_region (by omega) hin
  have hyout := Memory.toNat_of_mem_region hhigh.2 hout
  omega

theorem generate_transposes_padded :
    (Arguments.ofState paddedState).Transposable 2 3 ∧
      ∃ kernel, Kernel.generate .transpose 2 3 .f32 = .ok kernel ∧
        ∃ t, ReturnsIn kernel.code.words paddedState t ∧ t.memory.word 8220 = 0x1F1E1D1C#32 ∧
          t.memory 8204 = 12 := by
  refine ⟨paddedState_transposable, ?_⟩
  obtain ⟨kernel, hkernel, -, hruns⟩ := generate_transposes (by decide : 0 < 2 ∧ 2 < 2 ^ 32)
    (by decide : 0 < 3 ∧ 3 < 2 ^ 32)
  obtain ⟨t, hreturns, hcells, hothers, -⟩ := hruns SignedLane paddedState paddedState_transposable
  refine ⟨kernel, hkernel, t, hreturns, ?_, ?_⟩
  · exact (hcells 1 (by decide) 2 (by decide)).trans (by decide)
  · have hbetween : ∀ j < 3, ∀ i < 2, 4 ≤ Memory.distance
        ((Arguments.ofState paddedState).output.cell j i) 8204 := by decide
    refine (hothers 8204 ?_).trans (by decide)
    rintro ⟨j, hj, i, hi, hmem⟩
    exact Nat.not_lt.2 (hbetween j hj i hi) hmem

end TensorKernels.Elementwise
