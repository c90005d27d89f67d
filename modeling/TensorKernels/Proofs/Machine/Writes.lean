import TensorKernels.Proofs.Machine.Run

/-!
What a run can change. Every step has the effect of the instruction fetched; that of a branch is none.
A register that no instruction of the words writes is therefore the same all along a run, and so is a
byte that no instruction met on the way stores to. A run returns in one state at most.
-/

namespace TensorKernels

variable {F : Type}

namespace Instr

def WritesVector (r : Fin 32) : Instr → Prop
  | .transferV dir _ rt _ _ _ | .transferLane dir rt _ _ _ => dir = .load ∧ rt.id = r
  | .transferPair dir _ rt rt2 _ _ _ => dir = .load ∧ (rt.id = r ∨ rt2.id = r)
  | .fmlaElem _ rd _ _ _ | .fmax _ rd _ _ | .moviZero _ rd => rd.id = r
  | _ => False

def stored : Instr → State F → Option (Address × ℕ)
  | .transfer .store rt rn offset mode, s =>
      some (mode.address (s.general rn.id) offset, rt.bits / 8)
  | .transferV .store size _ rn offset mode, s =>
      some (mode.address (s.general rn.id) offset, 4 * size.lanes)
  | .transferPair .store size _ _ rn offset mode, s =>
      some (mode.address (s.general rn.id) offset, 4 * size.lanes + 4 * size.lanes)
  | .transferLane .store _ _ rn _, s => some (s.general rn.id, 4)
  | _, _ => none

def stores (i : Instr) (s : State F) : Set Address :=
  match i.stored s with
  | some (a, n) => Memory.region a n
  | none => ∅

def Arithmetic : Instr → Prop
  | .mov _ _ | .movz _ _ _ | .movk _ _ _ | .addImm _ _ _ _ | .subImm _ _ _ _ | .addReg _ _ _ _ _
  | .subReg _ _ _ _ _ | .lslImm _ _ _ | .lsrImm _ _ _ | .madd _ _ _ _ | .mul _ _ _ => True
  | _ => False

theorem Arithmetic.not_writesVector {i : Instr} (h : i.Arithmetic) (r : Fin 32) :
    ¬i.WritesVector r := by
  cases i <;> first | exact id | exact h.elim

theorem writesVector_canonical (i : Instr) (r : Fin 32) :
    i.canonical.WritesVector r ↔ i.WritesVector r := by
  cases i with
  | lslImm rd rn amount => cases amount <;> exact Iff.rfl
  | _ => exact Iff.rfl

theorem stored_canonical (i : Instr) (s : State F) : i.canonical.stored s = i.stored s := by
  cases i with
  | lslImm rd rn amount => cases amount <;> rfl
  | transfer dir | transferV dir | transferPair dir | transferLane dir => cases dir <;> rfl
  | _ => rfl

theorem writesGeneral_canonical (i : Instr) (r : Fin 32) :
    i.canonical.WritesGeneral r ↔ i.WritesGeneral r := by
  cases i with
  | lslImm rd rn amount => cases amount <;> exact Iff.rfl
  | _ => exact Iff.rfl

end Instr

namespace State

theorem vector_write (s : State F) (w : Width) (r : Fin 32) (v : BitVec 64) :
    (s.write w r v).vector = s.vector := by
  rw [write]
  split_ifs <;> rfl

theorem memory_write (s : State F) (w : Width) (r : Fin 32) (v : BitVec 64) :
    (s.write w r v).memory = s.memory := by
  rw [write]
  split_ifs <;> rfl

theorem vector_writeBack (s : State F) (mode : AddressMode) (r : Fin 32) (offset : Int) :
    (s.writeBack mode r offset).vector = s.vector := by
  cases mode <;> rfl

theorem memory_writeBack (s : State F) (mode : AddressMode) (r : Fin 32) (offset : Int) :
    (s.writeBack mode r offset).memory = s.memory := by
  cases mode <;> rfl

theorem vector_moveGeneral (s : State F) (dir : Transfer) (w : Width) (r : Fin 32) (a : Address) :
    (s.moveGeneral dir w r a).vector = s.vector := by
  cases dir with
  | load => cases w <;> exact s.vector_write ..
  | store => cases w <;> rfl

theorem memory_moveGeneral (s : State F) {dir : Transfer} {w : Width} {a y : Address}
    (h : dir = .store → y ∉ Memory.region a (w.bits / 8)) (r : Fin 32) :
    (s.moveGeneral dir w r a).memory y = s.memory y := by
  cases dir with
  | load => cases w <;> exact congrFun (s.memory_write ..) y
  | store => cases w <;> exact if_neg (h rfl)

variable [Lane F]

theorem vector_moveVector_of_not (s : State F) {dir : Transfer} {r r' : Fin 32}
    (h : ¬(dir = .load ∧ r = r')) (n : ℕ) (a : Address) :
    (s.moveVector dir n r a).vector r' = s.vector r' := by
  cases dir with
  | load => exact Function.update_of_ne (fun e => h ⟨rfl, e.symm⟩) _ _
  | store => rfl

theorem memory_moveVector (s : State F) {dir : Transfer} {n : ℕ} {a y : Address}
    (h : dir = .store → y ∉ Memory.region a (4 * n)) (r : Fin 32) :
    (s.moveVector dir n r a).memory y = s.memory y := by
  cases dir with
  | load => rfl
  | store => exact Memory.fillLanes_of_notMem (h rfl)

theorem vector_moveLane_of_not (s : State F) {dir : Transfer} {r r' : Fin 32}
    (h : ¬(dir = .load ∧ r = r')) (l : Fin 4) (a : Address) :
    (s.moveLane dir l r a).vector r' = s.vector r' := by
  cases dir with
  | load => exact Function.update_of_ne (fun e => h ⟨rfl, e.symm⟩) _ _
  | store => rfl

theorem memory_moveLane (s : State F) {dir : Transfer} {a y : Address}
    (h : dir = .store → y ∉ Memory.region a 4) (l : Fin 4) (r : Fin 32) :
    (s.moveLane dir l r a).memory y = s.memory y := by
  cases dir with
  | load => rfl
  | store => exact if_neg (h rfl)

end State

variable [Lane F]

namespace Instr

theorem vector_effect {i : Instr} {r : Fin 32} (h : ¬i.WritesVector r) (s : State F) :
    (i.effect s).vector r = s.vector r := by
  cases i with
  | mov | movz | movk | addReg | subReg | lslImm | lsrImm | madd | mul =>
    exact congrFun (s.vector_write ..) r
  | addImm | subImm | cbz | cbnz | b | ret | nop => rfl
  | transfer dir rt rn offset mode =>
    rw [effect, State.vector_writeBack, State.vector_moveGeneral]
  | transferV dir size rt rn offset mode =>
    rw [effect, State.vector_writeBack, State.vector_moveVector_of_not _ h]
  | transferPair dir size rt rt2 rn offset mode =>
    rw [WritesVector, and_or_left, not_or] at h
    rw [effect, State.vector_writeBack, State.vector_moveVector_of_not _ h.2,
      State.vector_moveVector_of_not _ h.1]
  | transferLane dir rt lane rn post =>
    rw [effect, State.vector_writeBack, State.vector_moveLane_of_not _ h]
  | fmlaElem | fmax | moviZero => exact Function.update_of_ne (Ne.symm h) _ _

theorem memory_effect (i : Instr) (s : State F) {y : Address} (h : y ∉ i.stores s) :
    (i.effect s).memory y = s.memory y := by
  cases i with
  | mov | movz | movk | addReg | subReg | lslImm | lsrImm | madd | mul =>
    exact congrFun (s.memory_write ..) y
  | addImm | subImm | cbz | cbnz | b | ret | nop | fmlaElem | fmax | moviZero => rfl
  | transfer dir rt rn offset mode =>
    rw [effect, State.memory_writeBack, State.memory_moveGeneral]
    rintro rfl
    exact h
  | transferV dir size rt rn offset mode =>
    rw [effect, State.memory_writeBack, State.memory_moveVector]
    rintro rfl
    exact h
  | transferPair dir size rt rt2 rn offset mode =>
    rw [effect, State.memory_writeBack, State.memory_moveVector, State.memory_moveVector]
    · rintro rfl hy
      exact h (Nat.lt_of_lt_of_le hy (Nat.le_add_right _ _))
    · rintro rfl hy
      exact h (Memory.region_subset (by cases size <;> decide) hy)
  | transferLane dir rt lane rn post =>
    rw [effect, State.memory_writeBack, State.memory_moveLane]
    rintro rfl
    exact h

end Instr

variable {words : Array Word} {c c' : Config F}

omit [Lane F] in
theorem Config.state_of_jump {d : Int} (h : c.jump d = some c') : c'.state = c.state := by
  rw [jump] at h
  split_ifs at h
  cases h
  rfl

theorem Instr.state_of_step {i : Instr} (h : i.step c = some c') :
    c'.state = i.effect c.state := by
  by_cases hdefined : i.isDefined = true
  · cases i with
    | ret => cases h
    | b d => exact Config.state_of_jump h
    | cbz rt d =>
      by_cases hzero : c.state.read rt.width rt.id = 0
      · exact Config.state_of_jump ((if_pos hzero).symm.trans h)
      · cases (if_neg hzero).symm.trans h
        rfl
    | cbnz rt d =>
      by_cases hzero : c.state.read rt.width rt.id = 0
      · cases (if_pos hzero).symm.trans h
        rfl
      · exact Config.state_of_jump ((if_neg hzero).symm.trans h)
    | _ =>
      rw [step_of_not_control hdefined rfl] at h
      cases h
      rfl
  · cases (if_neg hdefined).symm.trans h

theorem exists_fetch_of_step (h : step words c = some c') :
    ∃ i, fetch words c.pc = some i ∧ i.step c = some c' ∧ c'.state = i.effect c.state := by
  obtain ⟨i, hi, hstep⟩ := Option.bind_eq_some_iff.1 h
  exact ⟨i, hi, hstep, Instr.state_of_step hstep⟩

theorem rightUnique_step (words : Array Word) :
    Relator.RightUnique fun c c' : Config F => step words c = some c' :=
  fun _ _ _ h h' => Option.some.inj (h.symm.trans h')

/-- There is no step from a return, so a run returns in one state at most. -/
theorem ReturnsIn.unique {s t t' : State F} (h : ReturnsIn words s t) (h' : ReturnsIn words s t') :
    t = t' := by
  obtain ⟨pc, hrun, hret⟩ := h
  obtain ⟨pc', hrun', hret'⟩ := h'
  have hstuck {pc : ℕ} {t : State F} {d : Config F} (hret : fetch words pc = some .ret)
      (hd : RunsTo words ⟨pc, t⟩ d) : d = ⟨pc, t⟩ := by
    rcases Relation.ReflTransGen.cases_head hd with e | ⟨next, hstep, -⟩
    · exact e.symm
    · rw [step, hret] at hstep
      cases hstep
  rcases Relation.ReflTransGen.total_of_right_unique (rightUnique_step words) hrun hrun' with hd | hd
  · exact (congrArg Config.state (hstuck hret hd)).symm
  · exact congrArg Config.state (hstuck hret' hd)

theorem view_of_runsTo {α : Type} (view : State F → α)
    (h : ∀ d, RunsTo words c d → ∀ i, fetch words d.pc = some i →
      view (i.effect d.state) = view d.state)
    (hrun : RunsTo words c c') : view c'.state = view c.state := by
  induction hrun with
  | refl => rfl
  | tail hbefore hstep ih =>
    obtain ⟨i, hi, -, hstate⟩ := exists_fetch_of_step hstep
    rw [hstate, h _ hbefore i hi, ih]

theorem general_of_runsTo {r : Fin 32}
    (h : ∀ pc i, fetch words pc = some i → ¬i.WritesGeneral r) (hrun : RunsTo words c c') :
    c'.state.general r = c.state.general r :=
  view_of_runsTo (·.general r) (fun _ _ i hi => Instr.general_effect (h _ i hi) _) hrun

theorem vector_of_runsTo {r : Fin 32}
    (h : ∀ pc i, fetch words pc = some i → ¬i.WritesVector r) (hrun : RunsTo words c c') :
    c'.state.vector r = c.state.vector r :=
  view_of_runsTo (·.vector r) (fun _ _ i hi => Instr.vector_effect (h _ i hi) _) hrun

/-- A byte that no instruction met on the way stores to stays as it is. -/
theorem memory_of_runsTo {y : Address}
    (h : ∀ d, RunsTo words c d → ∀ i, fetch words d.pc = some i → y ∉ i.stores d.state)
    (hrun : RunsTo words c c') : c'.state.memory y = c.state.memory y :=
  view_of_runsTo (·.memory y) (fun d hd i hi => i.memory_effect d.state (h d hd i hi)) hrun

end TensorKernels
