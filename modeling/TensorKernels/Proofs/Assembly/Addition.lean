import TensorKernels.Proofs.Assembly.Constant

/-!
Adding a constant, or a multiple of a stride held in a register, to a register. The sum is taken
modulo `2 ^ 64` of what the registers held before, so the destination may be any of them. Besides the
destination only the scratch register can change, and it does not for a constant that one instruction
can add.
-/

namespace TensorKernels.Sequence

open Instr

/-- Wherever the words of `is` stand, they are executed once each and in order. They leave in `rd` what
`value` makes of the registers before them, and all but `changed` as it was. -/
def Computes (is : List Instr) (rd : GeneralReg) (value : (Fin 32 → BitVec 64) → BitVec 64)
    (changed : List GeneralReg) : Prop :=
  ∀ (F : Type) [Lane F] (s : State F), ∃ t : State F,
    (∀ (a : Assembly) (after : Array Word),
      RunsThrough ((a.emitAll is).words ++ after) (List.range' a.here is.length) ⟨a.here, s⟩
        ⟨(a.emitAll is).here, t⟩) ∧
    t.general rd.id = value s.general ∧
    (∀ r ∉ changed.map (·.id), t.general r = s.general r) ∧
    t.vector = s.vector ∧ t.memory = s.memory

theorem computes_of_effects {is : List Instr} (hplain : ∀ i ∈ is, i.Plain) {rd scratch : GeneralReg}
    {value : (Fin 32 → BitVec 64) → BitVec 64} {changed : List GeneralReg} (hrd : rd ∈ changed)
    (hscratch : scratch ∈ changed)
    (heffects : ∀ (F : Type) [Lane F] (s : State F), ∃ w,
      effects is s = (s.set scratch.id w).set rd.id (value s.general)) :
    Computes is rd value changed := by
  intro F _ s
  obtain ⟨w, hw⟩ := heffects F s
  have hne {r : Fin 32} (hr : r ∉ changed.map (·.id)) {q : GeneralReg} (hq : q ∈ changed) :
      r ≠ q.id := fun e => hr (e ▸ List.mem_map_of_mem hq)
  refine ⟨effects is s, fun a after => ?_, ?_, fun r hr => ?_, ?_, ?_⟩
  · rw [Assembly.here_emitAll]
    exact runsThrough_effects (holds_emitAll a is after) hplain s
  · rw [hw, State.general_set_same]
  · rw [hw, State.general_set_of_ne _ (hne hr hrd), State.general_set_of_ne _ (hne hr hscratch)]
  · rw [hw, State.vector_set, State.vector_set]
  · rw [hw, State.memory_set, State.memory_set]

theorem fitsImmediate_natAbs {value : Int}
    (h : |value| < 2 ^ 12 ∨ 2 ^ 12 ∣ value ∧ |value| < 2 ^ 24) : FitsImmediate value.natAbs := by
  rw [Int.abs_eq_natAbs] at h
  rw [FitsImmediate]
  omega

/-- All 64-bit signed constants can be added, the least one included, whose magnitude is no such
constant. -/
theorem addConstant_computes_sum {rd rn scratch : GeneralReg} (hd : rd.IsX) (hn : rn.IsX)
    (hscratch : scratch.IsX) (hne : scratch ≠ rn) {value : Int} (hlo : -2 ^ 63 ≤ value)
    (hhi : value < 2 ^ 63) :
    Computes (addConstant rd rn value scratch) rd (fun x => x rn.id + (value : BitVec 64))
        [rd, scratch] ∧
      (|value| < 2 ^ 12 ∨ 2 ^ 12 ∣ value ∧ |value| < 2 ^ 24 →
        Computes (addConstant rd rn value scratch) rd (fun x => x rn.id + (value : BitVec 64)) [rd]) := by
  have hplain := (straight_addConstant rd rn value scratch).plain
  constructor
  · refine computes_of_effects hplain List.mem_cons_self (List.mem_cons_of_mem _ List.mem_cons_self) ?_
    intro F _ s
    exact effects_addConstant hd hn s hscratch (hscratch.id_ne hn hne) (by omega)
  · intro himm
    -- nothing is loaded, so the destination can stand for the scratch register
    refine computes_of_effects hplain List.mem_cons_self (List.mem_singleton_self rd) ?_
    intro F _ s
    refine ⟨0, ?_⟩
    rw [effects_addConstant_immediate hd hn s (fitsImmediate_natAbs himm), State.set_set]

theorem addConstant_computes_least :
    Computes (addConstant (.x 8) (.x 8) (-2 ^ 63) (.x 17)) (.x 8)
        (fun x => x (GeneralReg.x 8).id + ((-2 ^ 63 : Int) : BitVec 64)) [.x 8, .x 17] ∧
      Computes (addConstant (.x 9) (.x 8) (-0xFFF000) (.x 17)) (.x 9)
        (fun x => x (GeneralReg.x 8).id + ((-0xFFF000 : Int) : BitVec 64)) [.x 9] :=
  ⟨(addConstant_computes_sum (by decide) (by decide) (by decide) (by decide) (by decide)
      (by decide)).1,
    (addConstant_computes_sum (by decide) (by decide) (by decide) (by decide) (by decide)
      (by decide)).2 (by decide)⟩

/-- Whatever the stride register holds, its multiple is added modulo `2 ^ 64`. -/
theorem addMultiple_computes_sum {rd rn stride scratch : GeneralReg} (hd : rd.IsX) (hn : rn.IsX)
    (hstride : stride.IsX) (hscratch : scratch.IsX) (hne : scratch ≠ rn) (hns : scratch ≠ stride)
    {count : ℕ} (hc : count < 2 ^ 64) :
    Computes (addMultiple rd rn count stride scratch) rd
      (fun x => x rn.id + (count : BitVec 64) * x stride.id) [rd, scratch] := by
  refine computes_of_effects (straight_addMultiple hd rn stride scratch hc).plain List.mem_cons_self
    (List.mem_cons_of_mem _ List.mem_cons_self) ?_
  intro F _ s
  exact effects_addMultiple hd hn s hstride hscratch (hscratch.id_ne hn hne)
    (hscratch.id_ne hstride hns) hc

theorem addMultiple_computes_long :
    Computes (addMultiple (.x 2) (.x 8) (2 ^ 63) (.x 2) (.x 17)) (.x 2)
        (fun x => x (GeneralReg.x 8).id + ((2 ^ 63 : ℕ) : BitVec 64) * x (GeneralReg.x 2).id)
        [.x 2, .x 17] ∧
      Computes (addMultiple (.x 17) (.x 8) (2 ^ 32 + 3) (.x 2) (.x 17)) (.x 17)
        (fun x => x (GeneralReg.x 8).id + ((2 ^ 32 + 3 : ℕ) : BitVec 64) * x (GeneralReg.x 2).id)
        [.x 17, .x 17] :=
  ⟨addMultiple_computes_sum (by decide) (by decide) (by decide) (by decide) (by decide) (by decide)
      (by decide),
    addMultiple_computes_sum (by decide) (by decide) (by decide) (by decide) (by decide) (by decide)
      (by decide)⟩

end TensorKernels.Sequence
