import TensorKernels.Proofs.Assembly.Exec
import TensorKernels.Proofs.Machine.Writes

/-!
The instructions of lowered code. Lowering adds to those of the runs only what counts the trips of a
loop: the load of the counter, its decrement and its test. The tests are the only branches, and each
of them leads back to a word of the same code.
-/

namespace TensorKernels

open Instr

namespace Sequence

theorem arithmetic_copy (rd rn : GeneralReg) : ∀ i ∈ copy rd rn, i.Arithmetic := by
  rw [copy]
  split_ifs
  · exact List.forall_mem_nil _
  · exact List.forall_mem_singleton.2 trivial

theorem arithmetic_loadConstant (rd : GeneralReg) (value : ℕ) :
    ∀ i ∈ loadConstant rd value, i.Arithmetic := by
  by_cases hzero : value = 0
  · rw [loadConstant, if_pos hzero]
    exact List.forall_mem_singleton.2 trivial
  · rw [loadConstant_eq_loads hzero]
    cases nonzeroParts value (rd.bits / 16) with
    | nil => exact List.forall_mem_nil _
    | cons first rest =>
      exact List.forall_mem_cons.2 ⟨trivial, List.forall_mem_map.2 fun _ _ => trivial⟩

theorem arithmetic_addConstant (rd rn : GeneralReg) (value : Int) (scratch : GeneralReg) :
    ∀ i ∈ addConstant rd rn value scratch, i.Arithmetic := by
  have hload := arithmetic_loadConstant scratch value.natAbs
  simp only [addConstant]
  split_ifs
  · exact arithmetic_copy rd rn
  · exact List.forall_mem_singleton.2 trivial
  · exact List.forall_mem_singleton.2 trivial
  · exact List.forall_mem_singleton.2 trivial
  · exact List.forall_mem_singleton.2 trivial
  · exact List.forall_mem_append.2 ⟨hload, List.forall_mem_singleton.2 trivial⟩
  · exact List.forall_mem_append.2 ⟨hload, List.forall_mem_singleton.2 trivial⟩

theorem arithmetic_addMultiple (rd rn : GeneralReg) (count : ℕ) (stride scratch : GeneralReg) :
    ∀ i ∈ addMultiple rd rn count stride scratch, i.Arithmetic := by
  have hload := arithmetic_loadConstant scratch count
  rw [addMultiple]
  split_ifs
  · exact arithmetic_copy rd rn
  · exact List.forall_mem_singleton.2 trivial
  · exact List.forall_mem_append.2 ⟨hload, List.forall_mem_singleton.2 trivial⟩

end Sequence

namespace Code

variable {code : Code}

def All (P : Instr → Prop) : Code → Prop
  | .run is => ∀ i ∈ is, P i
  | .seq first second => first.All P ∧ second.All P
  | .loop _ _ body => body.All P

theorem All.lower {P : Instr → Prop} (h : code.All P) (harith : ∀ i, i.Arithmetic → P i)
    (htest : ∀ rt d, P (.cbnz rt d)) : ∀ i ∈ code.lower, P i := by
  induction code with
  | run is => exact h
  | seq first second ih1 ih2 => exact List.forall_mem_append.2 ⟨ih1 h.1, ih2 h.2⟩
  | loop counter trips body ih =>
    match trips with
    | 0 => exact List.forall_mem_nil _
    | 1 => exact ih h
    | n + 2 =>
      have hload := Sequence.arithmetic_loadConstant counter (n + 2)
      have hback : ∀ i ∈ back counter body.lower.length, P i :=
        List.forall_mem_cons.2 ⟨harith _ trivial, List.forall_mem_singleton.2 (htest _ _)⟩
      rw [lower_loop]
      exact List.forall_mem_append.2 ⟨fun i hi => harith i (hload i hi),
        List.forall_mem_append.2 ⟨ih h, hback⟩⟩

theorem writesGeneral_of_mem_lower {i : Instr} {r : Fin 32} (hi : i ∈ code.lower)
    (hw : i.WritesGeneral r) : code.WritesGeneral r := by
  induction code with
  | run is => exact ⟨i, hi, hw⟩
  | seq first second ih1 ih2 => exact (List.mem_append.1 hi).imp ih1 ih2
  | loop counter trips body ih =>
    match trips with
    | 0 => cases hi
    | 1 => exact Or.inr (ih hi)
    | n + 2 =>
      rw [lower_loop, List.mem_append, List.mem_append] at hi
      rcases hi with hload | hbody | hback
      · have hmem := (Sequence.straight_loadConstant counter (n + 2)).writes i hload r hw
        exact Or.inl (List.mem_singleton.1 hmem).symm
      · exact Or.inr (ih hbody)
      · rcases List.mem_cons.1 hback with rfl | htest
        · exact Or.inl hw
        · rw [List.mem_singleton.1 htest] at hw
          exact hw.elim

theorem WellFormed.inRange (h : code.WellFormed) : ∀ i ∈ code.lower, i.InRange := by
  induction code with
  | run is => exact fun i hi => (h i hi).inRange
  | seq first second ih1 ih2 => exact List.forall_mem_append.2 ⟨ih1 h.1, ih2 h.2⟩
  | loop counter trips body ih =>
    obtain ⟨-, -, -, hbody, hlen⟩ := h
    match trips with
    | 0 => exact List.forall_mem_nil _
    | 1 => exact ih hbody
    | n + 2 =>
      have hload := (Sequence.straight_loadConstant counter (n + 2)).plain
      have hback : ∀ i ∈ back counter body.lower.length, i.InRange := by
        refine List.forall_mem_cons.2 ⟨(by decide : 1 < 2 ^ 12), List.forall_mem_singleton.2 ?_⟩
        exact ⟨by omega, by omega⟩
      rw [lower_loop]
      exact List.forall_mem_append.2 ⟨fun i hi => (hload i hi).inRange,
        List.forall_mem_append.2 ⟨ih hbody, hback⟩⟩

end Code

def BranchesBack (is : List Instr) : Prop :=
  ∀ k i, is[k]? = some i → i.isControl = true →
    ∃ rt, ∃ d : ℕ, i = .cbnz rt (-(d : Int)) ∧ 0 < d ∧ d ≤ k

namespace BranchesBack

variable {is js : List Instr}

theorem of_plain (h : ∀ i ∈ is, i.Plain) : BranchesBack is := by
  intro k i hi hcontrol
  rw [(h i (List.mem_of_getElem? hi)).notControl] at hcontrol
  cases hcontrol

theorem append (h : BranchesBack is) (h' : BranchesBack js) : BranchesBack (is ++ js) := by
  intro k i hi hcontrol
  rcases Nat.lt_or_ge k is.length with hk | hk
  · rw [List.getElem?_append_left hk] at hi
    exact h k i hi hcontrol
  · rw [List.getElem?_append_right hk] at hi
    obtain ⟨rt, d, hd, hpos, hle⟩ := h' _ i hi hcontrol
    exact ⟨rt, d, hd, hpos, hle.trans (Nat.sub_le _ _)⟩

theorem loop (h : BranchesBack is) (counter : GeneralReg) :
    BranchesBack (is ++ Code.back counter is.length) := by
  intro k i hi hcontrol
  rcases Nat.lt_or_ge k is.length with hk | hk
  · rw [List.getElem?_append_left hk] at hi
    exact h k i hi hcontrol
  · rw [List.getElem?_append_right hk] at hi
    obtain ⟨j, rfl⟩ := Nat.exists_eq_add_of_le hk
    rw [Nat.add_sub_cancel_left] at hi
    match j with
    | 0 =>
      cases hi
      cases hcontrol
    | 1 =>
      cases hi
      exact ⟨counter, is.length + 1, rfl, Nat.succ_pos _, le_rfl⟩
    | j + 2 => cases hi

end BranchesBack

theorem Code.WellFormed.branchesBack {code : Code} (h : code.WellFormed) :
    BranchesBack code.lower := by
  induction code with
  | run is => exact BranchesBack.of_plain h
  | seq first second ih1 ih2 => exact (ih1 h.1).append (ih2 h.2)
  | loop counter trips body ih =>
    obtain ⟨-, -, -, hbody, -⟩ := h
    match trips with
    | 0 => exact BranchesBack.of_plain (List.forall_mem_nil _)
    | 1 => exact ih hbody
    | n + 2 =>
      have hload := (Sequence.straight_loadConstant counter (n + 2)).plain
      exact (BranchesBack.of_plain hload).append ((ih hbody).loop counter)

theorem fetch_map_encode {is : List Instr} (h : ∀ i ∈ is, i.InRange) (pc : ℕ) :
    fetch (is.map Instr.encode).toArray pc = is[pc]?.map Instr.canonical := by
  rw [fetch, List.getElem?_toArray, List.getElem?_map]
  cases hi : is[pc]? with
  | none => rfl
  | some i => exact Instr.decode_encode (h i (List.mem_of_getElem? hi))

theorem Code.Bounded.writes_fetched {regs : List (Fin 32)} {n : ℕ} {code : Code}
    (h : code.Bounded regs n) (hvector : code.All fun i => ∀ v, ¬i.WritesVector v) {pc : ℕ} {i : Instr}
    (hi : fetch ((code.lower ++ [Instr.ret]).map encode).toArray pc = some i) :
    (∀ r, i.WritesGeneral r → r ∈ regs) ∧ ∀ v, ¬i.WritesVector v := by
  have hrange : ∀ i ∈ code.lower ++ [Instr.ret], i.InRange :=
    List.forall_mem_append.2 ⟨h.wellFormed.inRange, List.forall_mem_singleton.2 trivial⟩
  rw [fetch_map_encode hrange, Option.map_eq_some_iff] at hi
  obtain ⟨i, hi, rfl⟩ := hi
  simp only [writesGeneral_canonical, writesVector_canonical]
  rcases List.mem_append.1 (List.mem_of_getElem? hi) with hmem | hmem
  · refine ⟨fun r hw => h.writes r (writesGeneral_of_mem_lower hmem hw), ?_⟩
    exact hvector.lower (fun _ hi => hi.not_writesVector) (fun _ _ _ => id) i hmem
  · rw [List.mem_singleton.1 hmem]
    exact ⟨fun _ hw => hw.elim, fun _ => id⟩

theorem Instr.eq_of_canonical {i i' : Instr} (hi : i'.canonical = i) (hcontrol : i.isControl = true) :
    i' = i := by
  rw [← hi, isControl_canonical] at hcontrol
  cases i' with
  | cbz | cbnz | b | ret => exact hi
  | _ => cases hcontrol

section Run

variable {F : Type} [Lane F] {c c' : Config F}

omit [Lane F] in
theorem Config.pc_of_jump {d : Int} (h : c.jump d = some c') : (c'.pc : Int) = c.pc + d := by
  rw [jump] at h
  split_ifs at h with hnonneg
  cases h
  exact Int.toNat_of_nonneg hnonneg

theorem Instr.pc_of_plain {i : Instr} (hi : i.isControl = false) (h : i.step c = some c') :
    c'.pc = c.pc + 1 := by
  by_cases hdefined : i.isDefined = true
  · rw [step_of_not_control hdefined hi] at h
    cases h
    rfl
  · cases (if_neg hdefined).symm.trans h

theorem Instr.pc_of_cbnz {rt : GeneralReg} {d : Int} (h : (cbnz rt d).step c = some c') :
    c'.pc = c.pc + 1 ∨ (c'.pc : Int) = c.pc + d := by
  by_cases hzero : c.state.read rt.width rt.id = 0
  · cases (if_pos hzero).symm.trans h
    exact Or.inl rfl
  · exact Or.inr (Config.pc_of_jump ((if_neg hzero).symm.trans h))

theorem BranchesBack.le_pc {front rest : List Instr} (h : BranchesBack rest)
    (hrange : ∀ i ∈ front ++ (rest ++ [Instr.ret]), i.InRange) (hpc : front.length ≤ c.pc)
    (hrun : RunsTo ((front ++ (rest ++ [Instr.ret])).map encode).toArray c c') :
    front.length ≤ c'.pc := by
  induction hrun with
  | refl => exact hpc
  | @tail b c' _ hstep ih =>
    obtain ⟨i, hi, hstep, -⟩ := exists_fetch_of_step hstep
    rw [fetch_map_encode hrange, List.getElem?_append_right ih, Option.map_eq_some_iff] at hi
    obtain ⟨i', hi', hcanon⟩ := hi
    by_cases hcontrol : i.isControl = true
    · obtain rfl := eq_of_canonical hcanon hcontrol
      rcases Nat.lt_or_ge (b.pc - front.length) rest.length with hlt | hge
      · rw [List.getElem?_append_left hlt] at hi'
        obtain ⟨rt, d, rfl, hpos, hle⟩ := h _ _ hi' hcontrol
        rcases Instr.pc_of_cbnz hstep with hnext | hback <;> omega
      · rw [List.getElem?_append_right hge] at hi'
        rw [List.mem_singleton.1 (List.mem_of_getElem? hi')] at hstep
        cases hstep
    · have hnext := Instr.pc_of_plain (Bool.eq_false_of_not_eq_true hcontrol) hstep
      omega

end Run

end TensorKernels
