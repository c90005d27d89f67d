import TensorKernels.Proofs.Assembly.CallStandard

/-!
Closed code. Assembly gives every loop of two or more trips one label and one branch, so there are as
many of the one as of the other. The branches lead back into the code, and the return that the code
ends with is the only way out of it. A kernel is sound if its code assembles to closed words that keep
the call standard.
-/

namespace TensorKernels

open Instr Sequence

namespace Code

theorem length_labels (code : Code) (p l : ℕ) :
    (code.labels p).length = (code.branches p l).length := by
  induction code generalizing p l with
  | run is => rfl
  | seq first second ih1 ih2 =>
    rw [labels, branches, List.length_append, List.length_append, ih1 p l, ih2]
  | loop counter trips body ih =>
    obtain _ | _ | n := trips
    · rfl
    · exact ih p l
    · have hbody := ih (p + (loadConstant counter (n + 2)).length) (l + 1)
      simp only [labels, branches, List.length_append, List.length_cons, List.length_nil, hbody]

theorem length_labels_le (code : Code) (p : ℕ) : (code.labels p).length ≤ code.lower.length := by
  induction code generalizing p with
  | run is => exact Nat.zero_le _
  | seq first second ih1 ih2 =>
    rw [labels, lower, List.length_append, List.length_append]
    exact Nat.add_le_add (ih1 _) (ih2 _)
  | loop counter trips body ih =>
    obtain _ | _ | n := trips
    · exact Nat.zero_le _
    · exact ih p
    · have hbody := ih (p + (loadConstant counter (n + 2)).length)
      have hlabels : ((Code.loop counter (n + 2) body).labels p).length =
          (body.labels (p + (loadConstant counter (n + 2)).length)).length + 1 := rfl
      rw [hlabels, lower_loop, List.length_append, List.length_append, back, List.length_cons]
      omega

end Code

/-- Code that is left only by the return at its end. -/
structure MachineCode.Closed (code : MachineCode) : Prop where
  balanced : code.labels = code.branches
  few : code.branches ≤ code.words.size
  short : code.words.size < 2 ^ 18
  decoded : ∀ pc < code.words.size, ∃ i, fetch code.words pc = some i
  last : fetch code.words (code.words.size - 1) = some .ret
  control : ∀ pc i, fetch code.words pc = some i → i.isControl = true →
    i = .ret ∧ pc = code.words.size - 1 ∨ ∃ rt d, i = .cbnz rt d ∧ d < 0 ∧ 0 ≤ (pc : Int) + d

/-- A kernel's code as a generator promises it. -/
structure Sound (source : Code) (code : MachineCode) : Prop where
  assembled : source.assemble = .ok code
  closed : code.Closed
  callStandard : KeepsCallStandard code.words

section Closed

def assembled (source : Code) : MachineCode :=
  ⟨(source.lower.map encode).toArray, (source.labels 0).length, (source.branches 0 0).length⟩

variable {source : Code} {is : List Instr} (hlower : source.lower = is ++ [.ret])
  (hback : BranchesBack is) (hrange : ∀ i ∈ is ++ [Instr.ret], i.InRange)
  (hlen : is.length + 1 < 2 ^ 18)
include hlower hback hrange hlen

theorem closed_assembled : (assembled source).Closed := by
  have hsize : (assembled source).words.size = is.length + 1 := by
    rw [assembled, hlower, List.size_toArray, List.length_map, List.length_append]
    rfl
  have hfetch (pc : ℕ) :
      fetch (assembled source).words pc = (is ++ [Instr.ret])[pc]?.map canonical := by
    rw [assembled, hlower, fetch_map_encode hrange]
  have hfew := source.length_labels_le 0
  rw [hlower, List.length_append, source.length_labels 0 0] at hfew
  refine ⟨source.length_labels 0 0, hfew.trans_eq hsize.symm, hsize.trans_lt hlen, ?_, ?_, ?_⟩
  · intro pc hpc
    rw [hsize] at hpc
    have hin : pc < (is ++ [Instr.ret]).length := by
      rw [List.length_append]
      exact hpc
    exact ⟨_, by rw [hfetch, List.getElem?_eq_getElem hin, Option.map_some]⟩
  · rw [hfetch, hsize, Nat.add_sub_cancel, List.getElem?_concat_length]
    rfl
  · intro pc i hi hcontrol
    rw [hfetch, Option.map_eq_some_iff] at hi
    obtain ⟨i, hi, hcanon⟩ := hi
    obtain rfl := eq_of_canonical hcanon hcontrol
    rw [hsize, Nat.add_sub_cancel]
    rcases Nat.lt_trichotomy pc is.length with hlt | rfl | hgt
    · rw [List.getElem?_append_left hlt] at hi
      obtain ⟨rt, d, rfl, hpos, hle⟩ := hback pc i hi hcontrol
      exact Or.inr ⟨rt, _, rfl, by omega, by omega⟩
    · rw [List.getElem?_concat_length, Option.some.injEq] at hi
      exact Or.inl ⟨hi.symm, rfl⟩
    · rw [List.getElem?_eq_none (by rw [List.length_append]; exact hgt)] at hi
      cases hi

end Closed

section Sound

variable {source inner : Code} {regs : List (Fin 32)} {n : ℕ} (hshort : source.ShortLoops)
  (h : inner.Bounded regs n) (hregs : ∀ r ∈ regs, r.val < 18)
include hshort h hregs

theorem sound_framed (hlower : source.lower = framed inner) (hn : n + 9 < 2 ^ 18) :
    Sound source (assembled source) := by
  have hback : BranchesBack (saveVectors ++ (inner.lower ++ restoreVectors)) :=
    (BranchesBack.of_plain straight_saveVectors.plain).append
      (h.wellFormed.branchesBack.append (BranchesBack.of_plain plain_restoreVectors))
  have hrange := inRange_framed h
  rw [framed_eq] at hrange
  refine ⟨Code.assemble_eq hshort,
    closed_assembled (hlower.trans (framed_eq inner)) hback hrange ?_, ?_⟩
  · have hsave := straight_saveVectors.length_le
    have hinner := h.length_le
    have hrestore := straight_restoreVectors.length_le
    have hpairs : calleeSaved.length = 4 := rfl
    rw [List.length_append, List.length_append]
    omega
  · rw [assembled, hlower]
    exact keepsCallStandard_framed h hregs

theorem sound_frameless (hlower : source.lower = inner.lower ++ [.ret])
    (hvector : inner.All fun i => ∀ v, ¬i.WritesVector v) (hn : n + 1 < 2 ^ 18) :
    Sound source (assembled source) := by
  have hrange : ∀ i ∈ inner.lower ++ [Instr.ret], i.InRange :=
    List.forall_mem_append.2 ⟨h.wellFormed.inRange, List.forall_mem_singleton.2 trivial⟩
  have hinner := h.length_le
  refine ⟨Code.assemble_eq hshort,
    closed_assembled hlower h.wellFormed.branchesBack hrange (by omega), ?_⟩
  rw [assembled, hlower]
  exact keepsCallStandard_frameless h hregs hvector

end Sound

end TensorKernels
