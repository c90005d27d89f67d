import TensorKernels.Proofs.Assembly.Constant
import TensorKernels.Proofs.Assembly.Loads
import TensorKernels.Proofs.Gemm.Kernel
import TensorKernels.Proofs.Kernel.Column

/-!
The bytes that a column transfer touches. A run is followed together with the bytes that its
instructions load and store. A transfer of `rows` rows loads or stores the `4 * rows` bytes from its
base on, each of them and no other, however the rows are divided into registers and left-over lanes.
-/

namespace TensorKernels

namespace Memory

theorem region_union {a : Address} {n k : ℕ} (h : n + k ≤ 2 ^ 64) :
    region a n ∪ region (a + (n : ℕ)) k = region a (n + k) := by
  refine Set.Subset.antisymm (Set.union_subset ?_ (region_subset h)) fun x hx => ?_
  · exact fun x hx => Nat.lt_of_lt_of_le hx (Nat.le_add_right n k)
  · rw [mem_region] at hx
    by_cases hlt : distance a x < n
    · exact Or.inl hlt
    · refine Or.inr ?_
      rw [mem_region, distance_rest (Nat.le_of_not_lt hlt)]
      omega

theorem region_zero (a : Address) : region a 0 = ∅ :=
  Set.eq_empty_of_forall_notMem fun _ => Nat.not_lt_zero _

theorem byteOf_word (m : Memory) (a : Address) {k : ℕ} (hk : k < 4) :
    byteOf (m.word a) k = m (a + k) := by
  have hcases : k = 0 ∨ k = 1 ∨ k = 2 ∨ k = 3 := by omega
  rcases hcases with rfl | rfl | rfl | rfl <;> ext i hi <;>
    simp [byteOf, word] <;> grind

theorem fill_word (m : Memory) (a : Address) (n : ℕ) :
    (m.fill a n fun i => m.word (a + (4 * i : ℕ))) = m := by
  funext x
  by_cases hx : distance a x < 4 * n
  · rw [fill, if_pos hx, byteOf_word _ _ (Nat.mod_lt _ (by decide)), add_assoc, ← Nat.cast_add,
      Nat.div_add_mod, add_distance]
  · exact if_neg hx

end Memory

variable {F : Type}

namespace Instr

theorem loads_canonical (i : Instr) (s : State F) : i.canonical.loads s = i.loads s := by
  cases i with
  | lslImm rd rn amount => cases amount <;> rfl
  | transfer dir | transferV dir | transferPair dir | transferLane dir => cases dir <;> rfl
  | _ => rfl

theorem stores_canonical (i : Instr) (s : State F) : i.canonical.stores s = i.stores s := by
  rw [stores, stored_canonical, stores]

def moved : Transfer → Instr → State F → Set Address
  | .load => loads
  | .store => stores

variable [Lane F]

def movedBy (dir : Transfer) : List Instr → State F → Set Address
  | [], _ => ∅
  | i :: is, s => i.moved dir s ∪ movedBy dir is (i.effect s)

theorem movedBy_append (dir : Transfer) (is js : List Instr) (s : State F) :
    movedBy dir (is ++ js) s = movedBy dir is s ∪ movedBy dir js (effects is s) := by
  induction is generalizing s with
  | nil => exact (Set.empty_union _).symm
  | cons i is ih => rw [List.cons_append, movedBy, ih, movedBy, Set.union_assoc, effects_cons]

theorem movedBy_singleton (dir : Transfer) (i : Instr) (s : State F) :
    movedBy dir [i] s = i.moved dir s := Set.union_empty _

theorem movedBy_eq_empty {dir : Transfer} {is : List Instr}
    (h : ∀ i ∈ is, ∀ s : State F, i.moved dir s = ∅) (s : State F) : movedBy dir is s = ∅ := by
  induction is generalizing s with
  | nil => rfl
  | cons i is ih =>
    rw [List.forall_mem_cons] at h
    rw [movedBy, h.1, ih h.2, Set.empty_union]

omit [Lane F] in
theorem Arithmetic.moved {i : Instr} (h : i.Arithmetic) (dir : Transfer) (s : State F) :
    i.moved dir s = ∅ := by
  cases dir <;> cases i <;> first | rfl | exact h.elim

omit [Lane F] in
theorem moved_transferV (dir : Transfer) (size : AccessSize) (rt : VectorReg) (rn : GeneralReg)
    (n : ℕ) (s : State F) : (transferV dir size rt rn (n : Int) .offset).moved dir s =
      Memory.region (s.general rn.id + (n : BitVec 64)) (4 * size.lanes) := by
  rw [← Int.cast_natCast]
  cases dir <;> rfl

end Instr

variable [Lane F]

/-- A run, with the bytes that the instructions on the way load and those that they store. -/
inductive RunsMoving (words : Array Word) : Set Address → Set Address → Config F → Config F → Prop
  | refl (c : Config F) : RunsMoving words ∅ ∅ c c
  | head {loaded stored : Set Address} {c c' c'' : Config F} {i : Instr}
      (hfetch : fetch words c.pc = some i) (hstep : i.step c = some c')
      (h : RunsMoving words loaded stored c' c'') :
      RunsMoving words (i.loads c.state ∪ loaded) (i.stores c.state ∪ stored) c c''

theorem runsMoving_effects {words : Array Word} {p : ℕ} {is : List Instr} (h : Holds words p is)
    (hp : ∀ i ∈ is, i.Plain) (s : State F) :
    RunsMoving words (Instr.movedBy .load is s) (Instr.movedBy .store is s) ⟨p, s⟩
      ⟨p + is.length, Instr.effects is s⟩ := by
  induction is generalizing p s with
  | nil => exact .refl _
  | cons i is ih =>
    rw [List.forall_mem_cons] at hp
    have hrest := ih h.2 hp.2 (i.effect s)
    rw [Nat.add_right_comm] at hrest
    have hfetch := fetch_of_encode h.1 hp.1.inRange
    have hstep := step_of_plain h.1 hp.1 s
    rw [step, hfetch, Option.bind_some] at hstep
    have hrun := RunsMoving.head hfetch hstep hrest
    rw [Instr.loads_canonical, Instr.stores_canonical] at hrun
    exact hrun

namespace Column

open Instr

variable (dir : Transfer) (first : VectorReg) {rows : ℕ} {base lane : GeneralReg}

theorem not_writesGeneral_transferV (size : AccessSize) (rt : VectorReg) (rn : GeneralReg)
    (offset : Int) (r : Fin 32) : ¬(transferV dir size rt rn offset .offset).WritesGeneral r :=
  fun h => h.1 rfl

theorem general_groups (k : ℕ) (s : State F) (r : Fin 32) :
    (effects ((List.range k).map fun g =>
      .transferV dir .q (first.offset g) base (16 * (g : Int)) .offset) s).general r =
        s.general r :=
  general_effects (List.forall_mem_map.2 fun _ _ => not_writesGeneral_transferV dir _ _ _ _ r) s

theorem movedBy_groups {k : ℕ} (hk : k ≤ 32) (s : State F) :
    movedBy dir ((List.range k).map fun g =>
        .transferV dir .q (first.offset g) base (16 * (g : Int)) .offset) s =
      Memory.region (s.general base.id) (16 * k) := by
  induction k with
  | zero => exact (Memory.region_zero _).symm
  | succ k ih =>
    rw [List.range_succ, List.map_append, List.map_singleton, movedBy_append, ih (by omega),
      movedBy_singleton, cast_sixteen_mul, moved_transferV, general_groups]
    exact Memory.region_union (by rw [AccessSize.lanes]; omega)

theorem movedBy_three (hbase : base.IsX) (hlane : lane.IsX) {g : ℕ} (hg : g < 32)
    (tail : VectorReg) (s : State F) :
    movedBy dir (.transferV dir .d tail base (16 * (g : Int)) .offset ::
        (Sequence.addConstant lane base (16 * (g : Int) + 8) GeneralReg.zero ++
          [.transferLane dir tail 2 lane false])) s =
      Memory.region (s.general base.id + (16 * g : ℕ)) 12 := by
  have hkept : ((transferV dir .d tail base (16 * (g : Int)) .offset).effect s).general base.id =
      s.general base.id := general_effect (not_writesGeneral_transferV dir _ _ _ _ _) s
  -- the address of the lane is formed in between, which touches no byte
  have haddress : movedBy dir (Sequence.addConstant lane base (16 * (g : Int) + 8)
      GeneralReg.zero) ((transferV dir .d tail base (16 * (g : Int)) .offset).effect s) = ∅ :=
    movedBy_eq_empty (fun i hi s => (Sequence.arithmetic_addConstant _ _ _ _ i hi).moved dir s) _
  have hlast (t : State F) : (transferLane dir tail 2 lane false).moved dir t =
      Memory.region (t.general lane.id) 4 := by
    cases dir <;> rfl
  rw [movedBy, movedBy_append, haddress, Set.empty_union, movedBy_singleton, hlast,
    effects_laneAddress hlane hbase hg, State.general_set_same, hkept, cast_sixteen_mul,
    moved_transferV, Nat.cast_add, ← add_assoc]
  exact Memory.region_union (by decide)

theorem movedBy_transfer (hrows : rows ≤ 128) (hbase : base.IsX) (hlane : lane.IsX) (s : State F) :
    movedBy dir (transfer dir first rows base lane) s =
      Memory.region (s.general base.id) (4 * rows) := by
  have htail {is : List Instr} {n : ℕ} (hn : 16 * (rows / 4) + n = 4 * rows)
      (h : ∀ t : State F, movedBy dir is t =
        Memory.region (t.general base.id + (16 * (rows / 4) : ℕ)) n) :
      movedBy dir ((List.range (rows / 4)).map (fun g =>
        .transferV dir .q (first.offset g) base (16 * (g : Int)) .offset) ++ is) s =
          Memory.region (s.general base.id) (4 * rows) := by
    rw [movedBy_append, movedBy_groups dir first (by omega), h, general_groups, ← hn]
    exact Memory.region_union (by omega)
  have hone (size : AccessSize) (t : State F) : movedBy dir [.transferV dir size
      (first.offset (rows / 4)) base (16 * ((rows / 4 : ℕ) : Int)) .offset] t =
      Memory.region (t.general base.id + (16 * (rows / 4) : ℕ)) (4 * size.lanes) := by
    rw [movedBy_singleton, cast_sixteen_mul, moved_transferV]
  simp only [transfer, vectorLanes]
  split
  case h_1 h => exact htail (by omega) fun t => (Memory.region_zero _).symm
  case h_2 h => exact htail (by rw [AccessSize.lanes]; omega) (hone .s)
  case h_3 h => exact htail (by rw [AccessSize.lanes]; omega) (hone .d)
  case h_4 h0 h1 h2 =>
    simp only [imp_false] at h0 h1 h2
    exact htail (by omega) (movedBy_three dir hbase hlane (by omega) _)

omit [Lane F] in
theorem moved_of_mem_transfer {dir other : Transfer} (hne : other ≠ dir) (s : State F) :
    ∀ i ∈ transfer dir first rows base lane, i.moved other s = ∅ := by
  have hvector (size : AccessSize) (rt : VectorReg) (offset : Int) :
      (transferV dir size rt base offset .offset).moved other s = ∅ := by
    cases dir <;> cases other <;> first | rfl | exact absurd rfl hne
  have hgroups : ∀ i ∈ (List.range (rows / 4)).map fun g =>
      transferV dir .q (first.offset g) base (16 * (g : Int)) .offset, i.moved other s = ∅ :=
    List.forall_mem_map.2 fun _ _ => hvector ..
  have hlane (rt : VectorReg) : (transferLane dir rt 2 lane false).moved other s = ∅ := by
    cases dir <;> cases other <;> first | rfl | exact absurd rfl hne
  simp only [transfer, vectorLanes]
  split
  · exact List.forall_mem_append.2 ⟨hgroups, List.forall_mem_nil _⟩
  · exact List.forall_mem_append.2 ⟨hgroups, List.forall_mem_singleton.2 (hvector ..)⟩
  · exact List.forall_mem_append.2 ⟨hgroups, List.forall_mem_singleton.2 (hvector ..)⟩
  · refine List.forall_mem_append.2 ⟨hgroups, List.forall_mem_cons.2 ⟨hvector .., ?_⟩⟩
    refine List.forall_mem_append.2 ⟨fun i hi => ?_, List.forall_mem_singleton.2 (hlane _)⟩
    exact (Sequence.arithmetic_addConstant _ _ _ _ i hi).moved other s

theorem movedBy_transfer_of_ne {dir other : Transfer} (hne : other ≠ dir) (s : State F) :
    movedBy other (transfer dir first rows base lane) s = ∅ :=
  movedBy_eq_empty (fun i hi s => moved_of_mem_transfer first hne s i hi) s

def Moves (is : List Instr) (loaded stored : Set Address) (s t : State F) : Prop :=
  ∀ (a : Assembly) (after : Array Word),
    RunsMoving ((a.emitAll is).words ++ after) loaded stored ⟨a.here, s⟩ ⟨(a.emitAll is).here, t⟩

theorem moves_effects {is : List Instr} (hplain : ∀ i ∈ is, i.Plain) (s : State F) :
    Moves is (movedBy .load is s) (movedBy .store is s) s (effects is s) := by
  intro a after
  rw [Assembly.here_emitAll]
  exact runsMoving_effects (Sequence.holds_emitAll a is after) hplain s

/-- A column was loaded: its rows are in their lanes, with zeros above the last one, and no other
register has changed but possibly `lane`. -/
structure LoadsColumn (first : VectorReg) (rows : ℕ) (base lane : GeneralReg) (s t : State F) :
    Prop where
  filled : ∀ row < rows, t.vector (first.offset (row / 4)).id (Fin.ofNat 4 row) =
    s.memory.lane (s.general base.id + (4 * row : ℕ))
  zeros : ∀ row, rows ≤ row → row < 4 * regs rows →
    t.vector (first.offset (row / 4)).id (Fin.ofNat 4 row) = Lane.zero
  others : ∀ v, (∀ g < regs rows, v ≠ (first.offset g).id) → t.vector v = s.vector v
  memory : t.memory = s.memory
  general : ∀ r ≠ lane.id, t.general r = s.general r

/-- A column was stored: the lanes of its rows are in the memory, and neither another byte nor a
register has changed but possibly `lane`. -/
structure StoresColumn (first : VectorReg) (rows : ℕ) (base lane : GeneralReg) (s t : State F) :
    Prop where
  written : ∀ row < rows, t.memory.word (s.general base.id + (4 * row : ℕ)) =
    Lane.toBits (s.vector (first.offset (row / 4)).id (Fin.ofNat 4 row))
  others : ∀ y ∉ Memory.region (s.general base.id) (4 * rows), t.memory y = s.memory y
  vector : t.vector = s.vector
  general : ∀ r ≠ lane.id, t.general r = s.general r

section Transfer

variable (hrows : rows ≤ 128) (hbase : base.IsX) (hlane : lane.IsX)
include hrows hbase hlane

theorem moves_transfer_load (s : State F) :
    Moves (transfer .load first rows base lane) (Memory.region (s.general base.id) (4 * rows)) ∅ s
      (effects (transfer .load first rows base lane) s) := by
  have hmoves := moves_effects (straight_transfer .load first hrows base lane).plain s
  rw [movedBy_transfer .load first hrows hbase hlane,
    movedBy_transfer_of_ne first (by decide)] at hmoves
  exact hmoves

theorem moves_transfer_store (s : State F) :
    Moves (transfer .store first rows base lane) ∅ (Memory.region (s.general base.id) (4 * rows)) s
      (effects (transfer .store first rows base lane) s) := by
  have hmoves := moves_effects (straight_transfer .store first hrows base lane).plain s
  rw [movedBy_transfer .store first hrows hbase hlane,
    movedBy_transfer_of_ne first (by decide)] at hmoves
  exact hmoves

theorem moves_reload (hne : base.id ≠ lane.id) (s : State F) :
    Moves (transfer .load first rows base lane ++ transfer .store first rows base lane)
      (Memory.region (s.general base.id) (4 * rows)) (Memory.region (s.general base.id) (4 * rows)) s
      (effects (transfer .load first rows base lane ++ transfer .store first rows base lane) s) := by
  have hload := straight_transfer .load first hrows base lane
  have hstore := straight_transfer .store first hrows base lane
  have hkept : (effects (transfer .load first rows base lane) s).general base.id =
      s.general base.id := hload.general (List.mem_singleton.not.2 hne) s
  have hmoves := moves_effects (hload.append hstore).plain s
  rw [movedBy_append, movedBy_append, movedBy_transfer .load first hrows hbase hlane,
    movedBy_transfer .store first hrows hbase hlane, movedBy_transfer_of_ne first (by decide),
    movedBy_transfer_of_ne first (by decide), hkept, Set.union_empty, Set.empty_union] at hmoves
  exact hmoves

theorem loadsColumn_transfer (hne : base.id ≠ lane.id) (s : State F) :
    LoadsColumn first rows base lane s (effects (transfer .load first rows base lane) s) := by
  have hloaded := loaded_transfer first hrows hbase hlane hne s
  have hcolumn {row : ℕ} (hrow : row < 4 * regs rows) := hloaded.column (row / 4) (by omega)
  refine ⟨fun row hrow => ?_, fun row hle hrow => ?_, hloaded.others, hloaded.memory,
    hloaded.general⟩
  · exact rowsOf_eq_lane hrow (hcolumn (by rw [regs]; omega))
  · have hval : (Fin.ofNat 4 row).val = row % 4 := rfl
    rw [hcolumn hrow, Memory.lanes, hval, if_neg (by rw [regs] at hrow; omega)]

theorem storesColumn_transfer (s : State F) :
    StoresColumn first rows base lane s (effects (transfer .store first rows base lane) s) := by
  obtain ⟨v, hv⟩ := stored_transfer first hrows hbase hlane s
  rw [hv]
  refine ⟨fun row hrow => ?_, fun y hy => Memory.fillLanes_of_notMem hy, rfl, fun r hr => ?_⟩
  · exact Memory.word_fill hrow (by omega)
  · exact State.general_set_of_ne _ hr _

theorem memory_reload (hne : base.id ≠ lane.id)
    (hbits : ∀ w, Lane.toBits (Lane.ofBits w : F) = w) (s : State F) :
    (effects (transfer .load first rows base lane ++ transfer .store first rows base lane)
      s).memory = s.memory := by
  have hloaded := loadsColumn_transfer first hrows hbase hlane hne s
  rw [effects_append]
  generalize effects (transfer .load first rows base lane) s = t at hloaded ⊢
  obtain ⟨v, hv⟩ := stored_transfer first hrows hbase hlane t
  have hrow (row : ℕ) (h : row < rows) : Lane.toBits (rowsOf first t row) =
      s.memory.word (s.general base.id + (4 * row : ℕ)) :=
    (congrArg Lane.toBits (hloaded.filled row h)).trans (hbits _)
  calc (effects (transfer .store first rows base lane) t).memory
      = t.memory.fillLanes (t.general base.id) rows (rowsOf first t) := by
        rw [hv]
        rfl
    _ = s.memory.fill (s.general base.id) rows fun row =>
          s.memory.word (s.general base.id + (4 * row : ℕ)) := by
        rw [hloaded.memory, hloaded.general _ hne]
        exact Memory.fill_congr hrow
    _ = s.memory := Memory.fill_word _ _ _

end Transfer

/-- A column transfer touches its rows and nothing else. Lanes that keep every bit pattern can so be
stored again without a change of the memory. -/
theorem transfer_touches_rows {rows : ℕ} (hrows : rows ≤ 128) (first : VectorReg)
    {base lane : GeneralReg} (hbase : base.IsX) (hlane : lane.IsX) (hne : lane ≠ base) {F : Type}
    [Lane F] (s : State F) :
    (∃ t, Moves (transfer .load first rows base lane)
        (Memory.region (s.general base.id) (4 * rows)) ∅ s t ∧
      LoadsColumn first rows base lane s t) ∧
    (∃ t, Moves (transfer .store first rows base lane) ∅
        (Memory.region (s.general base.id) (4 * rows)) s t ∧
      StoresColumn first rows base lane s t) ∧
    ((∀ w, Lane.toBits (Lane.ofBits w : F) = w) →
      ∃ t, Moves (transfer .load first rows base lane ++ transfer .store first rows base lane)
          (Memory.region (s.general base.id) (4 * rows))
          (Memory.region (s.general base.id) (4 * rows)) s t ∧ t.memory = s.memory) := by
  have hid : base.id ≠ lane.id := hbase.id_ne hlane hne.symm
  refine ⟨⟨_, moves_transfer_load first hrows hbase hlane s,
    loadsColumn_transfer first hrows hbase hlane hid s⟩,
    ⟨_, moves_transfer_store first hrows hbase hlane s,
      storesColumn_transfer first hrows hbase hlane s⟩, fun hbits => ?_⟩
  exact ⟨_, moves_reload first hrows hbase hlane hid s,
    memory_reload first hrows hbase hlane hid hbits s⟩

theorem transfer_touches_rows_last :
    (∃ t, Moves (transfer .load (.ofNat 30) 7 (.x 0) (.x 9)) (Memory.region 4096 28) ∅
        Gemm.countingState t ∧ t.vector 31 2 = 6 ∧ t.vector 31 3 = 0) ∧
    (∃ t, Moves (transfer .store (.ofNat 30) 7 (.x 0) (.x 9)) ∅ (Memory.region 4096 28)
        Gemm.countingState t ∧ t.memory.word 4120 = 0 ∧ t.memory 4124 = 7) ∧
    ∃ t, Moves (transfer .load (.ofNat 30) 7 (.x 0) (.x 9) ++
          transfer .store (.ofNat 30) 7 (.x 0) (.x 9)) (Memory.region 4096 28)
        (Memory.region 4096 28) Gemm.countingState t ∧ t.memory = Gemm.countingState.memory := by
  obtain ⟨⟨t, ht, hload⟩, ⟨u, hu, hstore⟩, hreload⟩ := transfer_touches_rows (by decide : 7 ≤ 128)
    (.ofNat 30) (by decide : (GeneralReg.x 0).IsX) (by decide : (GeneralReg.x 9).IsX) (by decide)
    Gemm.countingState
  refine ⟨⟨t, ht, ?_, ?_⟩, ⟨u, hu, ?_, ?_⟩, hreload fun _ => rfl⟩
  · exact (hload.filled 6 (by decide)).trans (by decide)
  · exact hload.zeros 7 (by decide) (by decide)
  · exact hstore.written 6 (by decide)
  · refine (hstore.others 4124 ?_).trans (by decide)
    exact Nat.not_lt.2 (by decide)

end Column

end TensorKernels
