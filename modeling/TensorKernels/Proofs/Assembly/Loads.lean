import TensorKernels.Proofs.Assembly.Frame

/-!
The bytes that code loads. An instruction's registers afterwards depend on no byte of the memory but
those that it loads. A kernel whose body has no load instruction loads nothing, in any configuration
of its run, but the saved registers.
-/

namespace TensorKernels

variable {F : Type}

namespace Instr

/-- The bytes that an instruction loads. -/
def loads : Instr → State F → Set Address
  | .transfer .load rt rn offset mode, s =>
      Memory.region (mode.address (s.general rn.id) offset) (rt.bits / 8)
  | .transferV .load size _ rn offset mode, s =>
      Memory.region (mode.address (s.general rn.id) offset) (4 * size.lanes)
  | .transferPair .load size _ _ rn offset mode, s =>
      Memory.region (mode.address (s.general rn.id) offset) (4 * size.lanes + 4 * size.lanes)
  | .transferLane .load _ _ rn _, s => Memory.region (s.general rn.id) 4
  | _, _ => ∅

def IsLoad : Instr → Prop
  | .transfer dir _ _ _ _ | .transferV dir _ _ _ _ _ | .transferPair dir _ _ _ _ _ _
  | .transferLane dir _ _ _ _ => dir = .load
  | _ => False

theorem loads_eq_empty {i : Instr} (h : ¬i.IsLoad) (s : State F) : i.loads s = ∅ := by
  cases i with
  | transfer dir | transferV dir | transferPair dir | transferLane dir =>
    cases dir with
    | load => exact absurd rfl h
    | store => rfl
  | _ => rfl

theorem isLoad_canonical (i : Instr) : i.canonical.IsLoad ↔ i.IsLoad := by
  cases i with
  | lslImm rd rn amount => cases amount <;> exact Iff.rfl
  | _ => exact Iff.rfl

end Instr

namespace State

def withMemory (s : State F) (m : Memory) : State F := { s with memory := m }

theorem write_withMemory (s : State F) (m : Memory) (w : Width) (r : Fin 32) (v : BitVec 64) :
    (s.withMemory m).write w r v = (s.write w r v).withMemory m := by
  rw [write, write]
  split_ifs <;> rfl

theorem writeBack_withMemory (s : State F) (m : Memory) (mode : AddressMode) (r : Fin 32)
    (offset : Int) :
    (s.withMemory m).writeBack mode r offset = (s.writeBack mode r offset).withMemory m := by
  cases mode <;> rfl

theorem moveGeneral_load_withMemory {s : State F} {m : Memory} {w : Width} {a : Address}
    (h : ∀ y ∈ Memory.region a (w.bits / 8), m y = s.memory y) (r : Fin 32) :
    (s.withMemory m).moveGeneral .load w r a = (s.moveGeneral .load w r a).withMemory m := by
  have hword (k : ℕ) (hk : k + 4 ≤ w.bits / 8) :
      (s.withMemory m).memory.word (a + (k : ℕ)) = s.memory.word (a + (k : ℕ)) := by
    refine Memory.word_congr fun y hy => h y (Memory.region_subset_of_le hk ?_ hy)
    cases w <;> decide
  have hfirst := hword 0
  rw [Nat.cast_zero, add_zero] at hfirst
  cases w with
  | w32 => rw [moveGeneral, moveGeneral, write_withMemory, hfirst (by decide)]
  | x64 =>
    have hsecond : (s.withMemory m).memory.word (a + 4) = s.memory.word (a + 4) :=
      hword 4 (by decide)
    rw [moveGeneral, moveGeneral, write_withMemory, hfirst (by decide), hsecond]

theorem moveVector_load_withMemory [Lane F] {s : State F} {m : Memory} {n : ℕ} {a : Address}
    (hn : 4 * n ≤ 2 ^ 64) (h : ∀ y ∈ Memory.region a (4 * n), m y = s.memory y) (r : Fin 32) :
    (s.withMemory m).moveVector .load n r a = (s.moveVector .load n r a).withMemory m :=
  congrArg (fun lanes => (s.setVector r lanes).withMemory m) (Memory.lanes_congr hn h)

end State

namespace Instr

variable [Lane F]

/-- The registers after an instruction depend on no byte of the memory but those that it loads. -/
theorem effect_withMemory (i : Instr) {s : State F} {m : Memory}
    (h : ∀ y ∈ i.loads s, m y = s.memory y) :
    ∃ m', i.effect (s.withMemory m) = (i.effect s).withMemory m' := by
  cases i with
  | mov | movz | movk | addReg | subReg | lslImm | lsrImm | madd | mul =>
    exact ⟨m, s.write_withMemory m _ _ _⟩
  | addImm | subImm | cbz | cbnz | b | ret | nop | fmlaElem | fmax | moviZero => exact ⟨m, rfl⟩
  | transfer dir rt rn offset mode =>
    cases dir with
    | load =>
      refine ⟨m, ?_⟩
      rw [effect, effect, ← State.writeBack_withMemory, ← State.moveGeneral_load_withMemory h]
      rfl
    | store =>
      obtain ⟨r, w⟩ := rt
      cases w <;> cases mode <;> exact ⟨_, rfl⟩
  | transferV dir size rt rn offset mode =>
    cases dir with
    | load =>
      refine ⟨m, ?_⟩
      rw [effect, effect, ← State.writeBack_withMemory,
        ← State.moveVector_load_withMemory (by cases size <;> decide) h]
      rfl
    | store => cases mode <;> exact ⟨_, rfl⟩
  | transferPair dir size rt rt2 rn offset mode =>
    cases dir with
    | load =>
      have hsize : 4 * size.lanes + 4 * size.lanes ≤ 2 ^ 64 := by cases size <;> decide
      have hfirst := State.moveVector_load_withMemory (by omega)
        (fun y hy => h y (Nat.lt_of_lt_of_le hy (Nat.le_add_right _ _))) rt.id
      have hsecond := State.moveVector_load_withMemory
        (s := s.moveVector .load size.lanes rt.id (mode.address (s.general rn.id) offset))
        (by omega) (fun y hy => h y (Memory.region_subset hsize hy)) rt2.id
      refine ⟨m, ?_⟩
      rw [effect, effect, ← State.writeBack_withMemory, ← hsecond, ← hfirst]
      rfl
    | store => cases mode <;> exact ⟨_, rfl⟩
  | transferLane dir rt lane rn post =>
    cases dir with
    | load =>
      have hlane : m.lane (s.general rn.id) = (s.memory.lane (s.general rn.id) : F) :=
        congrArg Lane.ofBits (Memory.word_congr h)
      refine ⟨m, ?_⟩
      rw [effect, effect, ← State.writeBack_withMemory, State.moveLane, State.moveLane, ← hlane]
      rfl
    | store => cases post <;> exact ⟨_, rfl⟩

end Instr

namespace Instr

def LoadFree (is : List Instr) : Prop := ∀ i ∈ is, ¬i.IsLoad

namespace LoadFree

variable {i : Instr} {is js : List Instr}

theorem nil : LoadFree [] := List.forall_mem_nil _

theorem cons (hi : ¬i.IsLoad) (h : LoadFree is) : LoadFree (i :: is) := List.forall_mem_cons.2 ⟨hi, h⟩

theorem singleton (hi : ¬i.IsLoad) : LoadFree [i] := cons hi nil

theorem append (h : LoadFree is) (h' : LoadFree js) : LoadFree (is ++ js) :=
  List.forall_mem_append.2 ⟨h, h'⟩

theorem map {α : Type} {f : α → Instr} (h : ∀ a, ¬(f a).IsLoad) (xs : List α) :
    LoadFree (xs.map f) := List.forall_mem_map.2 fun a _ => h a

theorem of_arithmetic (h : ∀ i ∈ is, i.Arithmetic) : LoadFree is := by
  intro i hi
  have harith := h i hi
  cases i <;> first | exact id | exact harith.elim

end LoadFree

end Instr

namespace Sequence

open Instr

theorem loadFree_loadConstant (rd : GeneralReg) (value : ℕ) : LoadFree (loadConstant rd value) :=
  LoadFree.of_arithmetic (arithmetic_loadConstant rd value)

theorem loadFree_addConstant (rd rn : GeneralReg) (value : Int) (scratch : GeneralReg) :
    LoadFree (addConstant rd rn value scratch) :=
  LoadFree.of_arithmetic (arithmetic_addConstant rd rn value scratch)

theorem loadFree_addMultiple (rd rn : GeneralReg) (count : ℕ) (stride scratch : GeneralReg) :
    LoadFree (addMultiple rd rn count stride scratch) :=
  LoadFree.of_arithmetic (arithmetic_addMultiple rd rn count stride scratch)

end Sequence

namespace Code

def LoadFree : Code → Prop
  | .run is => Instr.LoadFree is
  | .seq first second => first.LoadFree ∧ second.LoadFree
  | .loop _ _ body => body.LoadFree

theorem loadFree_concat {pieces : List Code} (h : ∀ piece ∈ pieces, piece.LoadFree) :
    (concat pieces).LoadFree := by
  induction pieces with
  | nil => exact Instr.LoadFree.nil
  | cons first rest ih =>
    rw [List.forall_mem_cons] at h
    exact ⟨h.1, ih h.2⟩

variable {code : Code}

theorem LoadFree.lower (h : code.LoadFree) : Instr.LoadFree code.lower := by
  induction code with
  | run is => exact h
  | seq first second ih1 ih2 => exact (ih1 h.1).append (ih2 h.2)
  | loop counter trips body ih =>
    match trips with
    | 0 => exact Instr.LoadFree.nil
    | 1 => exact ih h
    | n + 2 =>
      rw [lower_loop]
      refine (Sequence.loadFree_loadConstant counter (n + 2)).append ((ih h).append ?_)
      exact Instr.LoadFree.cons id (Instr.LoadFree.singleton id)

end Code

namespace Sequence

open Instr

variable [Lane F] {body : Code} (h : body.WellFormed) {code : MachineCode}
  (hcode : assembleKernel (body ++ .run restoreAndReturn) = .ok code)
include h hcode

omit [Lane F] in
theorem fetch_of_assembleKernel (pc : ℕ) :
    fetch code.words pc = (body.lower ++ (restoreVectors ++ [.ret]))[pc]?.map canonical := by
  refine Code.fetch_of_assembleKernel h (List.forall_mem_append.2 ⟨?_, ?_⟩) hcode pc
  · exact fun i hi => (plain_restoreVectors i hi).inRange
  · exact List.forall_mem_singleton.2 trivial

omit [Lane F] in
theorem fetch_restore {pc : ℕ} (hpc : body.lower.length ≤ pc) {i : Instr}
    (hi : fetch code.words pc = some i) :
    i = .ret ∨ pc - body.lower.length < 4 ∧ ∃ rt rt2 : VectorReg,
      i = .transferPair .load .d rt rt2 GeneralReg.sp 16 .postIndex := by
  have hlen : restoreVectors.length = 4 := rfl
  rw [fetch_of_assembleKernel h hcode, List.getElem?_append_right hpc] at hi
  obtain ⟨i', hi', rfl⟩ := Option.map_eq_some_iff.1 hi
  by_cases hlt : pc - body.lower.length < 4
  · rw [List.getElem?_append_left (by omega)] at hi'
    obtain ⟨pair, -, rfl⟩ := List.mem_map.1 (List.mem_of_getElem? hi')
    exact Or.inr ⟨hlt, pair.1, pair.2, rfl⟩
  · rw [List.getElem?_append_right (by omega)] at hi'
    rw [List.mem_singleton.1 (List.mem_of_getElem? hi')]
    exact Or.inl rfl

theorem step_restore {c c' : Config F} (hpc : body.lower.length ≤ c.pc)
    (hstep : step code.words c = some c') :
    c'.pc = c.pc + 1 ∧ c'.state.general 31 = c.state.general 31 + 16 := by
  obtain ⟨i, hi, hstep⟩ := Option.bind_eq_some_iff.1 hstep
  rcases fetch_restore h hcode hpc hi with rfl | ⟨-, rt, rt2, rfl⟩
  · cases hstep
  · by_cases hdefined :
        (transferPair .load .d rt rt2 GeneralReg.sp 16 .postIndex).isDefined = true
    · rw [step_of_not_control hdefined rfl] at hstep
      cases hstep
      exact ⟨rfl, State.general_set_same ..⟩
    · cases (if_neg hdefined).symm.trans hstep

theorem eq_or_lt_of_runsTo {c c' : Config F} (hpc : body.lower.length ≤ c.pc)
    (hrun : RunsTo code.words c c') : c = c' ∨ c.pc < c'.pc := by
  induction hrun with
  | refl => exact Or.inl rfl
  | tail _ hstep ih =>
    have hle : c.pc ≤ _ := ih.elim (fun e => (congrArg Config.pc e).le) Nat.le_of_lt
    have hnext := (step_restore h hcode (hpc.trans hle) hstep).1
    exact Or.inr (by omega)

theorem stack_of_runsTo {c c' : Config F} (hpc : c.pc = body.lower.length)
    (hrun : RunsTo code.words c c') :
    c'.state.general 31 = c.state.general 31 + (16 * (c'.pc - body.lower.length) : ℕ) := by
  induction hrun with
  | refl => rw [hpc, Nat.sub_self, Nat.mul_zero, Nat.cast_zero, add_zero]
  | @tail b c' hrun hstep ih =>
    have hle : c.pc ≤ b.pc :=
      (eq_or_lt_of_runsTo h hcode hpc.ge hrun).elim (fun e => (congrArg Config.pc e).le) Nat.le_of_lt
    obtain ⟨hnext, hstack⟩ := step_restore h hcode (hpc ▸ hle) hstep
    rw [hstack, ih, hnext, show b.pc + 1 - body.lower.length = b.pc - body.lower.length + 1 by omega,
      Nat.mul_succ, Nat.cast_add, add_assoc]
    rfl

/-- A kernel whose body has no load and leaves the stack pointer where the registers were saved loads
nothing but those, wherever its run has come to. -/
theorem loads_subset_saveArea (hfree : body.LoadFree) {s : State F}
    (hstack : (body.exec s).general 31 = s.general 31 - 64) {c : Config F}
    (hc : RunsTo code.words ⟨0, s⟩ c) {i : Instr} (hi : fetch code.words c.pc = some i) :
    i.loads c.state ⊆ saveArea (s.general 31) := by
  by_cases hpc : c.pc < body.lower.length
  · rw [fetch_of_assembleKernel h hcode, List.getElem?_append_left hpc] at hi
    obtain ⟨i', hi', rfl⟩ := Option.map_eq_some_iff.1 hi
    have hnot := hfree.lower i' (List.mem_of_getElem? hi')
    rw [loads_eq_empty (by rwa [isLoad_canonical])]
    exact Set.empty_subset _
  · have hbody := holds_map_encode (body.lower ++ (restoreVectors ++ [.ret]))
    rw [← words_of_assembleKernel h hcode, Holds.append_iff] at hbody
    have hend := Code.runsTo_exec h hbody.1 s
    rw [Nat.zero_add] at hend
    -- runs are deterministic, so the run has come through the end of the body
    have hbehind : RunsTo code.words ⟨body.lower.length, body.exec s⟩ c := by
      have hunique := rightUnique_step (F := F) code.words
      rcases Relation.ReflTransGen.total_of_right_unique hunique hc hend with hbefore | hafter
      · rcases eq_or_lt_of_runsTo h hcode (Nat.not_lt.1 hpc) hbefore with rfl | hlt
        · exact Relation.ReflTransGen.refl
        · exact absurd hlt hpc
      · exact hafter
    rcases fetch_restore h hcode (Nat.not_lt.1 hpc) hi with rfl | ⟨hlt, rt, rt2, rfl⟩
    · exact Set.empty_subset _
    · have hregion : (transferPair .load .d rt rt2 GeneralReg.sp 16 .postIndex).loads c.state =
          Memory.region (c.state.general 31) 16 := rfl
      rw [hregion, stack_of_runsTo h hcode rfl hbehind, hstack]
      exact Memory.region_subset_of_le (by omega) (by decide)

end Sequence

end TensorKernels
