import TensorKernels.Kernel.Basic
import TensorKernels.Proofs.Assembly.Instructions

/-!
The frame of a kernel. Saving the vector registers moves the stack pointer down by 64 bytes and
writes nowhere else; restoring them writes nothing. Well-formed code followed by plain instructions
and the return assembles, and running its words returns in the state that the two lead to.
-/

namespace TensorKernels.Code

open Instr

variable {body : Code} {is : List Instr} {code : MachineCode}

theorem assembleKernel_eq {code : Code} (h : code.ShortLoops) :
    assembleKernel code = .ok ⟨(code.lower.map encode).toArray, (code.labels 0).length,
      (code.branches 0 0).length⟩ := by
  rw [assembleKernel, assemble_eq h]
  rfl

theorem words_of_assembleKernel (h : body.WellFormed)
    (hcode : assembleKernel (body ++ .run is) = .ok code) :
    code.words = ((body.lower ++ is).map encode).toArray := by
  have hshort : (body ++ .run is : Code).ShortLoops := ⟨h.shortLoops, trivial⟩
  rw [assembleKernel_eq hshort] at hcode
  cases hcode
  rfl

theorem fetch_of_assembleKernel (h : body.WellFormed) (his : ∀ i ∈ is, i.InRange)
    (hcode : assembleKernel (body ++ .run is) = .ok code) (pc : ℕ) :
    fetch code.words pc = (body.lower ++ is)[pc]?.map canonical := by
  rw [words_of_assembleKernel h hcode]
  exact fetch_map_encode (List.forall_mem_append.2 ⟨h.inRange, his⟩) pc

theorem returnsIn_map_encode {F : Type} [Lane F] (h : body.WellFormed) (his : ∀ i ∈ is, i.Plain)
    (s : State F) :
    ReturnsIn ((body.lower ++ (is ++ [Instr.ret])).map encode).toArray s
      (effects is (body.exec s)) := by
  have hwords := holds_map_encode (body.lower ++ (is ++ [.ret]))
  rw [Holds.append_iff, Holds.append_iff, Nat.zero_add] at hwords
  obtain ⟨hbody, hlast, hret, -⟩ := hwords
  have hrun := runsTo_exec h hbody s
  rw [Nat.zero_add] at hrun
  exact ⟨_, hrun.trans (runsTo_effects hlast his _), fetch_of_encode hret trivial⟩

theorem returnsIn_of_assembleKernel {F : Type} [Lane F] (h : body.WellFormed)
    (his : ∀ i ∈ is, i.Plain) (hcode : assembleKernel (body ++ .run (is ++ [.ret])) = .ok code)
    (s : State F) : ReturnsIn code.words s (effects is (body.exec s)) := by
  rw [words_of_assembleKernel h hcode]
  exact returnsIn_map_encode h his s

end TensorKernels.Code

namespace TensorKernels.Sequence

open Instr

variable {F : Type} [Lane F]

structure Pushed (n : ℕ) (s t : State F) : Prop where
  stack : t.general 31 = s.general 31 - (16 * n : ℕ)
  memory : ∀ y ∉ Memory.region (s.general 31 - (16 * n : ℕ)) (16 * n), t.memory y = s.memory y

theorem pushed_pair (rt rt2 : VectorReg) (s : State F) :
    Pushed 1 s ((transferPair .store .d rt rt2 GeneralReg.sp (-16) .preIndex).effect s) := by
  have hbase : s.general 31 + ((-16 : Int) : BitVec 64) = s.general 31 - ((16 * 1 : ℕ) : BitVec 64) := by
    grind
  constructor
  · rw [← hbase]
    exact State.general_set_same ..
  · intro y hy
    rw [← hbase] at hy
    have hsecond : y ∉ Memory.region (s.general 31 + ((-16 : Int) : BitVec 64) + (4 * 2 : ℕ)) (4 * 2) :=
      fun h => hy (Memory.region_subset (by omega : 4 * 2 + 4 * 2 ≤ 2 ^ 64) h)
    have hfirst : y ∉ Memory.region (s.general 31 + ((-16 : Int) : BitVec 64)) (4 * 2) :=
      fun h => hy (Nat.lt_of_lt_of_le h (by decide : 4 * 2 ≤ 16 * 1))
    exact (Memory.fillLanes_of_notMem hsecond).trans (Memory.fillLanes_of_notMem hfirst)

omit [Lane F] in
theorem Pushed.trans {n k : ℕ} {s t u : State F} (h : Pushed n s t) (h' : Pushed k t u)
    (hle : 16 * (k + n) ≤ 2 ^ 64) : Pushed (k + n) s u := by
  have hbase : s.general 31 - ((16 * (k + n) : ℕ) : BitVec 64) = t.general 31 - (16 * k : ℕ) := by
    rw [h.stack]
    push_cast
    grind
  have hmiddle : s.general 31 - ((16 * n : ℕ) : BitVec 64) =
      t.general 31 - ((16 * k : ℕ) : BitVec 64) + ((16 * k : ℕ) : BitVec 64) := by
    rw [h.stack, sub_add_cancel]
  constructor
  · rw [h'.stack, hbase]
  · intro y hy
    rw [hbase, Nat.mul_add] at hy
    have hsecond : y ∉ Memory.region (t.general 31 - (16 * k : ℕ)) (16 * k) := fun hmem =>
      hy (Nat.lt_of_lt_of_le hmem (Nat.le_add_right _ _))
    have hfirst : y ∉ Memory.region (s.general 31 - (16 * n : ℕ)) (16 * n) := fun hmem => by
      rw [hmiddle] at hmem
      exact hy (Memory.region_subset (by omega) hmem)
    rw [h'.memory y hsecond, h.memory y hfirst]

theorem pushed_pairs (pairs : List (VectorReg × VectorReg)) (hlen : 16 * pairs.length ≤ 2 ^ 64)
    (s : State F) :
    Pushed pairs.length s (effects (pairs.map fun pair =>
      .transferPair .store .d pair.1 pair.2 GeneralReg.sp (-16) .preIndex) s) := by
  induction pairs generalizing s with
  | nil => exact ⟨by simp, fun _ _ => rfl⟩
  | cons pair rest ih =>
    rw [List.length_cons] at hlen
    exact (pushed_pair pair.1 pair.2 s).trans (ih (by omega) _) (by omega)

/-- The bytes that the saved registers take below the stack pointer. -/
def saveArea (sp : Address) : Set Address := Memory.region (sp - 64) 64

theorem memory_saveVectors (s : State F) {y : Address} (hy : y ∉ saveArea (s.general 31)) :
    (effects saveVectors s).memory y = s.memory y := by
  have hpushed : Pushed 4 s (effects saveVectors s) := pushed_pairs calleeSaved (by decide) s
  have hbytes : ((16 * 4 : ℕ) : BitVec 64) = 64 := by decide
  refine hpushed.memory y ?_
  rw [hbytes]
  exact hy

theorem stack_saveVectors (s : State F) :
    (effects saveVectors s).general 31 = s.general 31 - 64 :=
  (pushed_pairs calleeSaved (by decide) s).stack

theorem plain_pair {dir : Transfer} {rt rt2 : VectorReg} (h : dir = .store ∨ rt ≠ rt2) {offset : Int}
    (hoffset : offset = -16 ∨ offset = 16) (mode : AddressMode) :
    (transferPair dir .d rt rt2 GeneralReg.sp offset mode).Plain := by
  refine ⟨?_, by simpa [isDefined] using h, rfl⟩
  rcases hoffset with rfl | rfl
  · exact ⟨-2, by decide, by decide, by decide⟩
  · exact ⟨2, by decide, by decide, by decide⟩

theorem straight_saveVectors : Straight [31] calleeSaved.length saveVectors := by
  rw [saveVectors]
  exact Straight.map (fun _ _ => plain_pair (Or.inl rfl) (Or.inl rfl) _)
    (by simp [WritesGeneral, GeneralReg.sp, GeneralReg.x])

def restoreVectors : List Instr :=
  calleeSaved.reverse.map fun pair =>
    .transferPair .load .d pair.1 pair.2 GeneralReg.sp 16 .postIndex

theorem plain_restoreVectors : ∀ i ∈ restoreVectors, i.Plain := by
  have hdistinct : ∀ pair ∈ calleeSaved.reverse, pair.1 ≠ pair.2 := by decide
  intro i hi
  obtain ⟨pair, hpair, rfl⟩ := List.mem_map.1 hi
  exact plain_pair (Or.inr (hdistinct pair hpair)) (Or.inr rfl) _

theorem memory_restoreVectors (s : State F) : (effects restoreVectors s).memory = s.memory := rfl

section Assembled

variable {body : Code} (h : body.WellFormed)
include h

theorem exists_assembleKernel : ∃ code, assembleKernel (body ++ .run restoreAndReturn) = .ok code :=
  ⟨_, Code.assembleKernel_eq ⟨h.shortLoops, trivial⟩⟩

variable {code : MachineCode} (hcode : assembleKernel (body ++ .run restoreAndReturn) = .ok code)
include hcode

theorem words_of_assembleKernel :
    code.words = ((body.lower ++ (restoreVectors ++ [Instr.ret])).map encode).toArray :=
  Code.words_of_assembleKernel h hcode

theorem returnsIn_of_assembleKernel (s : State F) :
    ReturnsIn code.words s (effects restoreVectors (body.exec s)) :=
  Code.returnsIn_of_assembleKernel h plain_restoreVectors hcode s

end Assembled

end TensorKernels.Sequence
