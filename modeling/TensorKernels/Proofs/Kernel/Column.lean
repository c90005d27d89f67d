import TensorKernels.Kernel.Column
import TensorKernels.Proofs.Assembly.Sequence

/-!
What a column transfer moves. A load puts four rows into each register of the column, with zeros
above the last row; a store writes the rows and nothing else. Neither changes a general register but
the one that holds the address of a single lane.
-/

namespace TensorKernels.Column

open Instr

variable {F : Type} [Lane F]

theorem offset_injective {first : VectorReg} {g g' : ℕ} (hg : g < 32) (hg' : g' < 32)
    (h : (first.offset g).id = (first.offset g').id) : g = g' := by
  have hval : (first.id.val + g) % 32 = (first.id.val + g') % 32 := congrArg Fin.val h
  omega

theorem offset_ofNat (n k : ℕ) : (VectorReg.ofNat n).offset k = VectorReg.ofNat (n + k) := by
  have hval : (VectorReg.ofNat n).id.val = n % 32 := rfl
  rw [VectorReg.offset, hval, VectorReg.ofNat, VectorReg.ofNat, VectorReg.mk.injEq]
  exact Fin.ext (Nat.mod_add_mod n 32 k)

theorem ofNat_id_ne {n k : ℕ} (hn : n < 32) (hk : k < 32) (h : n ≠ k) :
    (VectorReg.ofNat n).id ≠ (VectorReg.ofNat k).id := by
  intro e
  have hval : n % 32 = k % 32 := congrArg Fin.val e
  omega

theorem lanes_of_le (m : Memory) (a : Address) {n : ℕ} (h : 4 ≤ n) :
    m.lanes a n = (m.lanes a 4 : Fin 4 → F) := by
  funext l
  rw [Memory.lanes, Memory.lanes, if_pos (by omega), if_pos l.isLt]

theorem update_lanes (m : Memory) (a : Address) :
    Function.update (m.lanes a 2) 2 (m.lane (a + (8 : ℕ))) = (m.lanes a 3 : Fin 4 → F) := by
  funext l
  by_cases hl : l = 2
  · rw [hl, Function.update_self]
    rfl
  · have hval : l.val ≠ 2 := fun e => hl (Fin.ext e)
    rw [Function.update_of_ne hl, Memory.lanes, Memory.lanes]
    exact if_congr (by omega) rfl rfl

theorem effect_load (size : AccessSize) (rt : VectorReg) (rn : GeneralReg) (n : ℕ) (s : State F) :
    (transferV .load size rt rn (n : Int) .offset).effect s =
      s.setVector rt.id (s.memory.lanes (s.general rn.id + (n : BitVec 64)) size.lanes) := by
  rw [← Int.cast_natCast]
  rfl

theorem effect_store (size : AccessSize) (rt : VectorReg) (rn : GeneralReg) (n : ℕ) (s : State F) :
    (transferV .store size rt rn (n : Int) .offset).effect s =
      { s with
        memory := s.memory.fillLanes (s.general rn.id + (n : BitVec 64)) size.lanes
          (s.lanesOf rt.id) } := by
  rw [← Int.cast_natCast]
  rfl

structure Loaded (first : VectorReg) (rows : ℕ) (a : Address) (lane : Fin 32) (n : ℕ)
    (s t : State F) : Prop where
  memory : t.memory = s.memory
  general : ∀ r ≠ lane, t.general r = s.general r
  others : ∀ v, (∀ g < n, v ≠ (first.offset g).id) → t.vector v = s.vector v
  column : ∀ g < n, t.vector (first.offset g).id = s.memory.lanes (a + (16 * g : ℕ)) (rows - 4 * g)

theorem Loaded.refl (first : VectorReg) (rows : ℕ) (a : Address) (lane : Fin 32) (s : State F) :
    Loaded first rows a lane 0 s s :=
  ⟨rfl, fun _ _ => rfl, fun _ _ => rfl, fun _ h => absurd h (Nat.not_lt_zero _)⟩

theorem Loaded.succ {first : VectorReg} {rows : ℕ} {a : Address} {lane : Fin 32} {n : ℕ}
    {s t u : State F} (h : Loaded first rows a lane n s t) (hn : n < 32)
    (hmemory : u.memory = t.memory) (hgeneral : ∀ r ≠ lane, u.general r = t.general r)
    (hvector : u.vector = Function.update t.vector (first.offset n).id
      (t.memory.lanes (a + (16 * n : ℕ)) (rows - 4 * n))) :
    Loaded first rows a lane (n + 1) s u where
  memory := hmemory.trans h.memory
  general r hr := (hgeneral r hr).trans (h.general r hr)
  others v hv := by
    rw [hvector, Function.update_of_ne (hv n (Nat.lt_succ_self n)),
      h.others v fun g hg => hv g (Nat.lt_succ_of_lt hg)]
  column g hg := by
    rcases Nat.lt_succ_iff_lt_or_eq.1 hg with hlt | rfl
    · have hne : (first.offset g).id ≠ (first.offset n).id := fun e =>
        hlt.ne (offset_injective (by omega) hn e)
      rw [hvector, Function.update_of_ne hne, h.column g hlt]
    · rw [hvector, Function.update_self, h.memory]

theorem cast_sixteen_mul (g : ℕ) : (16 * (g : Int)) = ((16 * g : ℕ) : Int) := by simp

theorem loaded_groups {first : VectorReg} {rows : ℕ} {base : GeneralReg} {lane : Fin 32}
    (hbase : base.id ≠ lane) {k : ℕ} (hk : 4 * k ≤ rows) (hrows : rows ≤ 128) (s : State F) :
    Loaded first rows (s.general base.id) lane k s
      (effects ((List.range k).map fun g =>
        .transferV .load .q (first.offset g) base (16 * (g : Int)) .offset) s) := by
  induction k with
  | zero => exact Loaded.refl ..
  | succ k ih =>
    have hprev := ih (by omega)
    rw [List.range_succ, List.map_append, effects_append, List.map_singleton, cast_sixteen_mul,
      effects_cons, effects_nil, effect_load]
    refine hprev.succ (by omega) rfl (fun _ _ => rfl) ?_
    rw [State.vector_setVector, hprev.general _ hbase, AccessSize.lanes,
      lanes_of_le _ _ (by omega : 4 ≤ rows - 4 * k)]

def regs (rows : ℕ) : ℕ := (rows + 3) / 4

theorem effects_laneAddress {lane base : GeneralReg} (hlane : lane.IsX) (hbase : base.IsX)
    {groups : ℕ} (hg : groups < 32) (scratch : GeneralReg) (s : State F) :
    effects (Sequence.addConstant lane base (16 * (groups : Int) + 8) scratch) s =
      s.set lane.id (s.general base.id + (16 * groups + 8 : ℕ)) := by
  have hnat : (16 * (groups : Int) + 8) = ((16 * groups + 8 : ℕ) : Int) := by simp
  rw [hnat, Sequence.effects_addConstant_immediate hlane hbase s (Or.inl (by omega)),
    Int.cast_natCast]

theorem effects_loadThree {lane base : GeneralReg} (hlane : lane.IsX) (hbase : base.IsX)
    {groups : ℕ} (hg : groups < 32) (tail : VectorReg) (s : State F) :
    effects (.transferV .load .d tail base (16 * (groups : Int)) .offset ::
        (Sequence.addConstant lane base (16 * (groups : Int) + 8) GeneralReg.zero ++
          [.transferLane .load tail 2 lane false])) s =
      (s.set lane.id (s.general base.id + (16 * groups + 8 : ℕ))).setVector tail.id
        (s.memory.lanes (s.general base.id + (16 * groups : ℕ)) 3) := by
  have haddr : s.general base.id + ((16 * groups + 8 : ℕ) : BitVec 64) =
      s.general base.id + ((16 * groups : ℕ) : BitVec 64) + ((8 : ℕ) : BitVec 64) := by
    rw [Nat.cast_add, add_assoc]
  rw [effects_cons, effects_append, effects_laneAddress hlane hbase hg, cast_sixteen_mul,
    effect_load, effects_cons, effects_nil, ← update_lanes]
  simp only [effect, State.moveLane, State.writeBack, State.setVector, State.set, AccessSize.lanes,
    Function.update_self, Function.update_idem, haddr]
  rfl

theorem loaded_transfer (first : VectorReg) {rows : ℕ} (hrows : rows ≤ 128)
    {base lane : GeneralReg} (hbase : base.IsX) (hlane : lane.IsX) (hne : base.id ≠ lane.id)
    (s : State F) :
    Loaded first rows (s.general base.id) lane.id (regs rows) s
      (effects (transfer .load first rows base lane) s) := by
  have hgroups : Loaded first rows (s.general base.id) lane.id (rows / 4) s _ :=
    loaded_groups hne (by omega) hrows s
  have hbaseval := hgroups.general _ hne
  simp only [transfer, vectorLanes, effects_append]
  generalize effects ((List.range (rows / 4)).map _) s = t at hgroups hbaseval ⊢
  have htail (size : AccessSize) (h : rows % 4 = size.lanes) (hpos : 0 < size.lanes) :
      Loaded first rows (s.general base.id) lane.id (regs rows) s (effects [.transferV .load size
        (first.offset (rows / 4)) base (16 * ((rows / 4 : ℕ) : Int)) .offset] t) := by
    rw [show regs rows = rows / 4 + 1 by rw [regs]; omega, cast_sixteen_mul, effects_cons,
      effects_nil, effect_load, hbaseval]
    refine hgroups.succ (by omega) rfl (fun _ _ => rfl) ?_
    rw [State.vector_setVector, show rows - 4 * (rows / 4) = size.lanes by omega]
  split
  case h_1 h =>
    rw [show regs rows = rows / 4 by rw [regs]; omega]
    exact hgroups
  case h_2 h => exact htail .s h (by decide)
  case h_3 h => exact htail .d h (by decide)
  case h_4 h0 h1 h2 =>
    have hthree : rows % 4 = 3 := by
      simp only [imp_false] at h0 h1 h2
      omega
    rw [show regs rows = rows / 4 + 1 by rw [regs]; omega,
      effects_loadThree hlane hbase (by omega : rows / 4 < 32)]
    refine hgroups.succ (by omega) rfl (fun r hr => Function.update_of_ne hr _ _) ?_
    rw [State.vector_setVector, State.vector_set, hbaseval, show rows - 4 * (rows / 4) = 3 by omega]

def rowsOf (first : VectorReg) (s : State F) (row : ℕ) : F :=
  s.lanesOf (first.offset (row / 4)).id row

omit [Lane F] in
theorem lanesOf_add (s : State F) (r : Fin 32) (g i : ℕ) :
    s.lanesOf r (4 * g + i) = s.lanesOf r i :=
  congrArg (s.vector r) (Fin.ext (Nat.mul_add_mod 4 g i))

theorem fillLanes_rowsOf (m : Memory) (a : Address) (first : VectorReg) (s : State F) {g n c : ℕ}
    {f : ℕ → F} (hn : 4 * g ≤ n) (hc : n + c ≤ 4 * (g + 1)) (hg : g < 32)
    (hf : ∀ i < c, f i = s.lanesOf (first.offset g).id (n + i)) :
    (m.fillLanes a n (rowsOf first s)).fillLanes (a + (4 * n : ℕ)) c f =
      m.fillLanes a (n + c) (rowsOf first s) := by
  rw [Memory.fillLanes_fillLanes (by omega)]
  refine Memory.fillLanes_congr fun i hi => ?_
  split_ifs with hlt
  · rfl
  · rw [hf _ (by omega), rowsOf, show n + (i - n) = i by omega, show i / 4 = g by omega]

def storeRows (first : VectorReg) (a : Address) (n : ℕ) (s : State F) : State F :=
  { s with memory := s.memory.fillLanes a n (rowsOf first s) }

theorem effect_store_storeRows {first : VectorReg} {base : GeneralReg} {g : ℕ} (hg : g < 32)
    (size : AccessSize) (s : State F) :
    (transferV .store size (first.offset g) base (16 * (g : Int)) .offset).effect
        (storeRows first (s.general base.id) (4 * g) s) =
      storeRows first (s.general base.id) (4 * g + size.lanes) s := by
  have hlanes : size.lanes ≤ 4 := by cases size <;> decide
  have hfill := fillLanes_rowsOf s.memory (s.general base.id) first s le_rfl
    (by omega : 4 * g + size.lanes ≤ 4 * (g + 1)) hg fun i _ => (lanesOf_add s _ g i).symm
  rw [cast_sixteen_mul, effect_store, show 16 * g = 4 * (4 * g) by omega]
  exact congrArg (fun m => { s with memory := m }) hfill

theorem stored_groups {first : VectorReg} {base : GeneralReg} {k : ℕ} (hk : k ≤ 32) (s : State F) :
    effects ((List.range k).map fun g =>
        .transferV .store .q (first.offset g) base (16 * (g : Int)) .offset) s =
      storeRows first (s.general base.id) (4 * k) s := by
  induction k with
  | zero => rw [storeRows, Nat.mul_zero, Memory.fillLanes_zero]; rfl
  | succ k ih =>
    rw [List.range_succ, List.map_append, effects_append, ih (by omega), List.map_singleton,
      effects_cons, effects_nil, effect_store_storeRows (by omega)]
    rfl

theorem effects_storeThree {lane base : GeneralReg} (hlane : lane.IsX) (hbase : base.IsX)
    (first : VectorReg) {g : ℕ} (hg : g < 32) (s : State F) :
    effects (.transferV .store .d (first.offset g) base (16 * (g : Int)) .offset ::
        (Sequence.addConstant lane base (16 * (g : Int) + 8) GeneralReg.zero ++
          [.transferLane .store (first.offset g) 2 lane false]))
        (storeRows first (s.general base.id) (4 * g) s) =
      (storeRows first (s.general base.id) (4 * g + 3) s).set lane.id
        (s.general base.id + (16 * g + 8 : ℕ)) := by
  have hlast (i : ℕ) (hi : i < 1) :
      s.vector (first.offset g).id 2 = s.lanesOf (first.offset g).id (4 * g + 2 + i) := by
    rw [Nat.lt_one_iff.1 hi, Nat.add_zero, lanesOf_add]
    rfl
  have hfill := fillLanes_rowsOf s.memory (s.general base.id) first s (by omega : 4 * g ≤ 4 * g + 2)
    (by omega : 4 * g + 2 + 1 ≤ 4 * (g + 1)) hg hlast
  rw [effects_cons, effect_store_storeRows hg, effects_append, effects_laneAddress hlane hbase hg,
    effects_cons, effects_nil, effect, State.moveLane, State.general_set, Function.update_self,
    show 16 * g + 8 = 4 * (4 * g + 2) by omega]
  exact congrArg (fun m => ({ s with memory := m } : State F).set lane.id _) hfill

theorem stored_transfer (first : VectorReg) {rows : ℕ} (hrows : rows ≤ 128)
    {base lane : GeneralReg} (hbase : base.IsX) (hlane : lane.IsX) (s : State F) :
    ∃ v, effects (transfer .store first rows base lane) s =
      (storeRows first (s.general base.id) rows s).set lane.id v := by
  have hsame (n : ℕ) : storeRows first (s.general base.id) n s =
      (storeRows first (s.general base.id) n s).set lane.id (s.general lane.id) :=
    (State.set_general_self _ _).symm
  have htail (size : AccessSize) (h : rows % 4 = size.lanes) (hpos : 0 < size.lanes) :
      ∃ v, effects [.transferV .store size (first.offset (rows / 4)) base
          (16 * ((rows / 4 : ℕ) : Int)) .offset]
          (storeRows first (s.general base.id) (4 * (rows / 4)) s) =
        (storeRows first (s.general base.id) rows s).set lane.id v := by
    refine ⟨s.general lane.id, ?_⟩
    rw [effects_cons, effects_nil, effect_store_storeRows (by omega),
      show 4 * (rows / 4) + size.lanes = rows by omega]
    exact hsame rows
  simp only [transfer, vectorLanes, effects_append]
  rw [stored_groups (by omega)]
  split
  case h_1 h =>
    refine ⟨s.general lane.id, ?_⟩
    rw [effects_nil, show 4 * (rows / 4) = rows by omega]
    exact hsame rows
  case h_2 h => exact htail .s h (by decide)
  case h_3 h => exact htail .d h (by decide)
  case h_4 h0 h1 h2 =>
    have hthree : rows % 4 = 3 := by
      simp only [imp_false] at h0 h1 h2
      omega
    have hstored := effects_storeThree hlane hbase first (by omega : rows / 4 < 32) s
    rw [show 4 * (rows / 4) + 3 = rows by omega] at hstored
    exact ⟨_, hstored⟩

theorem plain_transferV (dir : Transfer) (size : AccessSize) (rt : VectorReg) (rn : GeneralReg)
    {g : ℕ} (hg : g ≤ 32) : (transferV dir size rt rn (16 * (g : Int)) .offset).Plain := by
  refine ⟨?_, rfl, rfl⟩
  cases size with
  | s => exact ⟨4 * g, by omega, by simp [AccessSize.scale]; omega⟩
  | d => exact ⟨2 * g, by omega, by simp [AccessSize.scale]; omega⟩
  | q => exact ⟨g, by omega, by simp [AccessSize.scale]; omega⟩

theorem straight_transfer (dir : Transfer) (first : VectorReg) {rows : ℕ} (hrows : rows ≤ 128)
    (base lane : GeneralReg) :
    Straight [lane.id] (rows / 4 + 3) (transfer dir first rows base lane) := by
  have hone (size : AccessSize) (rt : VectorReg) {g : ℕ} (hg : g ≤ 32) :
      Straight [lane.id] 1 [.transferV dir size rt base (16 * (g : Int)) .offset] :=
    Straight.singleton (plain_transferV dir size rt base hg) (by simp [WritesGeneral])
  have hgroups : Straight [lane.id] (rows / 4) ((List.range (rows / 4)).map fun g =>
      .transferV dir .q (first.offset g) base (16 * (g : Int)) .offset) := by
    refine (Straight.map (fun g hg => ?_) (by simp [WritesGeneral])).mono (List.Subset.refl _)
      List.length_range.le
    rw [List.mem_range] at hg
    exact plain_transferV dir .q _ base (by omega)
  simp only [transfer, vectorLanes]
  refine hgroups.append ?_
  split
  · exact Straight.nil
  · exact (hone .s _ (by omega)).mono (List.Subset.refl _) (by decide)
  · exact (hone .d _ (by omega)).mono (List.Subset.refl _) (by decide)
  · have hadd : Straight [lane.id] 1 (Sequence.addConstant lane base
        (16 * ((rows / 4 : ℕ) : Int) + 8) GeneralReg.zero) :=
      Sequence.straight_addConstant_immediate (Or.inl (by omega))
    have hlane : Straight [lane.id] 1 [.transferLane dir (first.offset (rows / 4)) 2 lane false] :=
      Straight.singleton ⟨(by decide : 2 < 4), rfl, rfl⟩ (by simp [WritesGeneral])
    exact (hone .d _ (by omega)).append (hadd.append hlane)

theorem rowsOf_eq_lane {first : VectorReg} {rows row : ℕ} {a : Address} {m : Memory} {t : State F}
    (hrow : row < rows)
    (h : t.vector (first.offset (row / 4)).id =
      m.lanes (a + (16 * (row / 4) : ℕ)) (rows - 4 * (row / 4))) :
    rowsOf first t row = m.lane (a + (4 * row : ℕ)) := by
  have hval : (Fin.ofNat 4 row).val = row % 4 := rfl
  rw [rowsOf, State.lanesOf, h, Memory.lanes, hval, if_pos (by omega), add_assoc, ← Nat.cast_add,
    show 16 * (row / 4) + 4 * (row % 4) = 4 * row by omega]

/-! Several columns, a stride apart. -/

def fillColumns (m : Memory) (a stride : Address) (rows : ℕ) : List (ℕ → F) → Memory
  | [] => m
  | column :: columns => fillColumns (m.fillLanes a rows column) (a + stride) stride rows columns

theorem add_next (a stride : Address) (k : ℕ) :
    a + stride + (k : BitVec 64) * stride = a + ((k + 1 : ℕ) : BitVec 64) * stride := by
  grind

theorem fillColumns_of_notMem {m : Memory} {a stride x : Address} {rows : ℕ}
    {columns : List (ℕ → F)}
    (h : ∀ k < columns.length, x ∉ Memory.region (a + (k : BitVec 64) * stride) (4 * rows)) :
    fillColumns m a stride rows columns x = m x := by
  induction columns generalizing m a with
  | nil => rfl
  | cons column columns ih =>
    have hfirst := h 0 (Nat.succ_pos _)
    rw [Nat.cast_zero, zero_mul, add_zero] at hfirst
    rw [fillColumns, ih fun k hk => ?_, Memory.fillLanes_of_notMem hfirst]
    rw [add_next]
    exact h (k + 1) (Nat.succ_lt_succ hk)

theorem lane_fillColumns_of_disjoint {m : Memory} {a stride b : Address} {rows : ℕ}
    {columns : List (ℕ → F)}
    (h : ∀ k < columns.length, Disjoint (Memory.region b 4)
      (Memory.region (a + (k : BitVec 64) * stride) (4 * rows))) :
    (fillColumns m a stride rows columns).lane b = (m.lane b : F) := by
  rw [Memory.lane, Memory.lane, Memory.word_congr]
  intro x hx
  exact fillColumns_of_notMem fun k hk => Set.disjoint_left.1 (h k hk) hx

theorem lane_fillColumns {m : Memory} {a stride : Address} {rows row k : ℕ}
    {columns : List (ℕ → F)} {column : ℕ → F} (hk : columns[k]? = some column) (hrow : row < rows)
    (hrows : 4 * rows ≤ 2 ^ 64)
    (h : ∀ j < columns.length, j ≠ k →
      Disjoint (Memory.region (a + (k : BitVec 64) * stride + (4 * row : ℕ)) 4)
        (Memory.region (a + (j : BitVec 64) * stride) (4 * rows))) :
    (fillColumns m a stride rows columns).lane (a + (k : BitVec 64) * stride + (4 * row : ℕ)) =
      column row := by
  induction columns generalizing m a k with
  | nil => simp at hk
  | cons first rest ih =>
    cases k with
    | zero =>
      obtain rfl : first = column := by simpa using hk
      simp only [Nat.cast_zero, zero_mul, add_zero] at h ⊢
      rw [fillColumns, lane_fillColumns_of_disjoint fun j hj => ?_,
        Memory.lane_fillLanes hrow hrows]
      rw [add_next]
      exact h (j + 1) (Nat.succ_lt_succ hj) (Nat.succ_ne_zero j)
    | succ k =>
      simp only [← add_next] at h ⊢
      refine ih (by simpa using hk) fun j hj hne => ?_
      rw [add_next a stride j]
      exact h (j + 1) (Nat.succ_lt_succ hj) fun e => hne (Nat.succ_injective e)

structure LoadedAll (firsts : List VectorReg) (rows : ℕ) (a stride : Address) (s t : State F) :
    Prop where
  memory : t.memory = s.memory
  others : ∀ v, (∀ first ∈ firsts, ∀ g < regs rows, v ≠ (first.offset g).id) →
    t.vector v = s.vector v
  columns : ∀ (k : ℕ) first, firsts[k]? = some first → ∀ g < regs rows,
    t.vector (first.offset g).id = s.memory.lanes (a + k * stride + (16 * g : ℕ)) (rows - 4 * g)

def Separate (rows : ℕ) (first first' : VectorReg) : Prop :=
  ∀ g < regs rows, ∀ g' < regs rows, (first.offset g).id ≠ (first'.offset g').id

theorem index_lt {t : Tile} {j r : ℕ} (hj : j < t.cols) (hr : r < t.columnRegs) :
    j * t.columnRegs + r < t.cols * t.columnRegs :=
  calc j * t.columnRegs + r < j * t.columnRegs + t.columnRegs := Nat.add_lt_add_left hr _
    _ = (j + 1) * t.columnRegs := (Nat.succ_mul _ _).symm
    _ ≤ t.cols * t.columnRegs := Nat.mul_le_mul_right _ hj

theorem index_ne {R j j' r r' : ℕ} (hj : j ≠ j') (hr : r < R) (hr' : r' < R) :
    j * R + r ≠ j' * R + r' := by
  intro e
  apply hj
  have hdiv (j r : ℕ) (hr : r < R) : (j * R + r) / R = j := by
    rw [Nat.add_comm, Nat.add_mul_div_right _ _ (by omega), Nat.div_eq_of_lt hr, Nat.zero_add]
  rw [← hdiv j r hr, e, hdiv j' r' hr']

theorem separate_columns {t : Tile} (hfit : t.cols * t.columnRegs ≤ 32) {j j' : ℕ} (hj : j < t.cols)
    (hj' : j' < t.cols) (h : j ≠ j') :
    Separate t.rows (VectorReg.ofNat (j * t.columnRegs)) (VectorReg.ofNat (j' * t.columnRegs)) := by
  intro g hg g' hg'
  have hlt := index_lt hj hg
  have hlt' := index_lt hj' hg'
  rw [offset_ofNat, offset_ofNat]
  exact ofNat_id_ne (by omega) (by omega) (index_ne h hg hg')

theorem Loaded.cons {first : VectorReg} {rest : List VectorReg} {rows : ℕ} {a stride : Address}
    {lane : Fin 32} {s t u : State F} (h : Loaded first rows a lane (regs rows) s t)
    (hrest : LoadedAll rest rows (a + stride) stride t u)
    (hsep : ∀ other ∈ rest, Separate rows first other) :
    LoadedAll (first :: rest) rows a stride s u where
  memory := hrest.memory.trans h.memory
  others v hv := by
    rw [List.forall_mem_cons] at hv
    rw [hrest.others v hv.2, h.others v hv.1]
  columns k other hk g hg := by
    cases k with
    | zero =>
      obtain rfl : first = other := by simpa using hk
      rw [hrest.others _ fun f hf g' hg' => hsep f hf g hg g' hg', h.column g hg, Nat.cast_zero,
        zero_mul, add_zero]
    | succ k =>
      rw [hrest.columns k other (by simpa using hk) g hg, h.memory, add_next]

theorem transferAll_cons_cons (dir : Transfer) (first second : VectorReg) (rest : List VectorReg)
    (rows : ℕ) (cursor stride lane : GeneralReg) :
    transferAll dir (first :: second :: rest) rows cursor stride lane =
      transfer dir first rows cursor lane ++ .addReg cursor cursor stride .lsl 0 ::
        transferAll dir (second :: rest) rows cursor stride lane := rfl

theorem effect_nextColumn {cursor stride : GeneralReg} (hcursor : cursor.IsX) (hstride : stride.IsX)
    (s : State F) :
    (addReg cursor cursor stride .lsl 0).effect s =
      s.set cursor.id (s.general cursor.id + s.general stride.id) := by
  rw [effect_addReg s hcursor hcursor hstride, BitVec.shiftLeft_zero]

section TransferAll

variable {rows : ℕ} (hrows : rows ≤ 128) {cursor stride lane : GeneralReg} (hcursor : cursor.IsX)
  (hstride : stride.IsX) (hlane : lane.IsX) (hcl : cursor.id ≠ lane.id) (hsl : stride.id ≠ lane.id)
  (hsc : stride.id ≠ cursor.id)
include hrows hcursor hstride hlane hcl hsl hsc

theorem loadedAll_transferAll {firsts : List VectorReg} (hsep : firsts.Pairwise (Separate rows))
    (s : State F) :
    LoadedAll firsts rows (s.general cursor.id) (s.general stride.id) s
      (effects (transferAll .load firsts rows cursor stride lane) s) := by
  induction firsts generalizing s with
  | nil => exact ⟨rfl, fun _ _ => rfl, fun _ _ h => absurd h (by simp)⟩
  | cons first rest ih =>
    rw [List.pairwise_cons] at hsep
    have hfirst := loaded_transfer first hrows hcursor hlane hcl s
    cases rest with
    | nil =>
      rw [transferAll]
      exact hfirst.cons ⟨rfl, fun _ _ => rfl, fun _ _ h => absurd h (by simp)⟩ (by simp)
    | cons second rest =>
      rw [transferAll_cons_cons, effects_append, effects_cons, effect_nextColumn hcursor hstride,
        hfirst.general _ hcl, hfirst.general _ hsl]
      generalize effects (transfer .load first rows cursor lane) s = t at hfirst ⊢
      have hnext := ih hsep.2 (t.set cursor.id (s.general cursor.id + s.general stride.id))
      rw [State.general_set, Function.update_self, Function.update_of_ne hsc,
        hfirst.general _ hsl] at hnext
      exact hfirst.cons ⟨hnext.memory, hnext.others, hnext.columns⟩ hsep.1

theorem stored_transferAll (firsts : List VectorReg) (s : State F) :
    (effects (transferAll .store firsts rows cursor stride lane) s).memory =
        fillColumns s.memory (s.general cursor.id) (s.general stride.id) rows
          (firsts.map fun first => rowsOf first s) := by
  induction firsts generalizing s with
  | nil => rfl
  | cons first rest ih =>
    obtain ⟨v, hfirst⟩ := stored_transfer first hrows hcursor hlane s
    cases rest with
    | nil =>
      rw [transferAll, hfirst]
      rfl
    | cons second rest =>
      rw [transferAll_cons_cons, effects_append, hfirst, effects_cons,
        effect_nextColumn hcursor hstride, ih]
      simp only [State.general_set, Function.update_self, Function.update_of_ne hcl,
        Function.update_of_ne hsl, Function.update_of_ne hsc]
      rfl

omit hcl hsl hsc in
theorem vector_transferAll_store (firsts : List VectorReg) (s : State F) :
    (effects (transferAll .store firsts rows cursor stride lane) s).vector = s.vector := by
  induction firsts generalizing s with
  | nil => rfl
  | cons first rest ih =>
    obtain ⟨v, hfirst⟩ := stored_transfer first hrows hcursor hlane s
    cases rest with
    | nil =>
      rw [transferAll, hfirst]
      rfl
    | cons second rest =>
      rw [transferAll_cons_cons, effects_append, hfirst, effects_cons,
        effect_nextColumn hcursor hstride, ih]
      rfl

end TransferAll

theorem straight_transferAll (dir : Transfer) (firsts : List VectorReg) {rows : ℕ}
    (hrows : rows ≤ 128) (cursor stride lane : GeneralReg) :
    Straight [cursor.id, lane.id] (firsts.length * (rows / 4 + 4))
      (transferAll dir firsts rows cursor stride lane) := by
  have hnext : Straight [cursor.id, lane.id] 1 [.addReg cursor cursor stride .lsl 0] :=
    Straight.singleton ⟨cursor.bits_pos, by simpa [Instr.isDefined] using cursor.bits_pos, rfl⟩
      (by simp [WritesGeneral])
  induction firsts with
  | nil => exact Straight.nil
  | cons first rest ih =>
    have hfirst := (straight_transfer dir first hrows cursor lane).mono
      (by simp : [lane.id] ⊆ [cursor.id, lane.id]) le_rfl
    cases rest with
    | nil => exact hfirst.mono (List.Subset.refl _) (by simp)
    | cons second rest =>
      rw [transferAll_cons_cons]
      refine (hfirst.append (hnext.append ih)).mono (List.Subset.refl _) ?_
      simp only [List.length_cons]
      rw [Nat.succ_mul (rest.length + 1)]
      omega

end TensorKernels.Column
