import TensorKernels.Proofs.Nest.Extents
import TensorKernels.Proofs.Nest.Parallel

/-!
Output elements that two tasks may both write. The test for distinct outputs looks at the loops that
are no reductions, so it speaks for the tasks as long as the reductions leave the output where it is.
That is checked of products only. A reduction loop of an elementwise contraction may move the output
unseen; the tasks still write apart when the strides nest with such loops counted.
-/

namespace TensorKernels

open Nest

namespace Loop

/-- The loop with its role forgotten where it moves the output. -/
def asAxis (l : Loop) : Loop :=
  if l.strides.out = 0 then l else { l with role := .c }

theorem size_asAxis (l : Loop) : l.asAxis.size = l.size := by
  unfold asAxis
  split <;> rfl

theorem strides_asAxis (l : Loop) : l.asAxis.strides = l.strides := by
  unfold asAxis
  split <;> rfl

theorem out_asAxis {l : Loop} (h : l.asAxis.role = .k) : l.asAxis.strides.out = 0 := by
  rw [strides_asAxis]
  unfold asAxis at h
  split at h
  · assumption
  · cases h

theorem role_asAxis {l : Loop} (h : l.role ≠ .k) : l.asAxis.role ≠ .k := by
  unfold asAxis
  split
  · exact h
  · exact Role.noConfusion

/-- A reduction that takes the output from element to element. -/
def MovesOutput (l : Loop) : Prop := l.role = .k ∧ 1 < l.size ∧ l.strides.out ≠ 0

end Loop

namespace Plan

theorem offsets_asAxis (loops : List Loop) : offsets (loops.map Loop.asAxis) = offsets loops := by
  apply offsets_congr
  simp only [List.map_map, Function.comp_def, Loop.size_asAxis, Loop.strides_asAxis]

theorem outputNests_asAxis {loops : List Loop} (h : ∀ l ∈ loops, ¬l.MovesOutput) :
    outputNests (loops.map Loop.asAxis) = outputNests loops := by
  have hspread : spreadLoops (loops.map Loop.asAxis) = (spreadLoops loops).map Loop.asAxis := by
    rw [spreadLoops, spreadLoops, List.filter_map]
    congr 1
    refine List.filter_congr fun l hl => ?_
    rw [Function.comp_apply, Loop.size_asAxis]
    by_cases hrole : l.role = .k
    · by_cases hsize : 1 < l.size
      · have hout : l.strides.out = 0 := by
          by_contra hout
          exact h l hl ⟨hrole, hsize, hout⟩
        rw [Loop.asAxis, if_pos hout]
      · simp [hsize]
    · have hrole' := Loop.role_asAxis hrole
      rw [bne_iff_ne.2 hrole, bne_iff_ne.2 hrole']
  have haxis : axisOf ∘ Loop.asAxis = axisOf := by
    funext l
    rw [Function.comp_apply, axisOf, axisOf, Loop.size_asAxis, Loop.strides_asAxis]
  rw [outputNests_eq, outputNests_eq, hspread, List.map_map, haxis]

theorem touches_out {main : Primitive} (h : main ≠ .none) : main.touches .out = true := by
  cases main with
  | none => exact absurd rfl h
  | _ => rfl

section Accepted

variable {c : Contraction} {p : Plan}

theorem Derived.exactTasks_apart_of_nests (d : Derived c p)
    (hnests : outputNests (c.loops.map Loop.asAxis) = true) :
    p.exactTasks.Pairwise fun t u => ∀ v ∈ t, ∀ w ∈ u,
      ∀ x ∈ offsets (c.loops.drop p.kernelStart), ∀ y ∈ offsets (c.loops.drop p.kernelStart),
        (v.base + x).out ≠ (w.base + y).out := by
  have hsizes : ∀ l ∈ c.loops.map Loop.asAxis, 0 < l.size := by
    simp only [List.forall_mem_map, Loop.size_asAxis]
    exact d.sizes
  have hnodup := outputs_nodup hsizes hnests
  rw [d.loops_eq, List.map_append] at hnodup
  have hshared : ofRoles (· != .k) (p.sharedLoops.map Loop.asAxis) =
      p.sharedLoops.map Loop.asAxis := by
    rw [ofRoles, List.filter_eq_self, List.forall_mem_map]
    intro l hl
    rw [← d.ofRoles_sharedLoops, ofRoles, List.mem_filter] at hl
    simpa using Loop.role_asAxis (by simpa using hl.2)
  have hfixed : ∀ l ∈ p.loopsOfTask.map Loop.asAxis, l.role = .k → l.strides.out = 0 := by
    rw [List.forall_mem_map]
    exact fun l _ => Loop.out_asAxis
  have hapart := outputs_apart hshared hfixed hnodup
  rw [offsets_asAxis, offsets_asAxis] at hapart
  exact d.exactTasks_apart hapart

theorem Derived.exists_of_mem_touchedBy (d : Derived c p) {visits : List Visit} {x : ℕ}
    (hx : x ∈ p.touchedBy .out visits) :
    ∃ v ∈ visits, ∃ q ∈ offsets (c.loops.drop p.kernelStart), x = (v.base + q).out := by
  obtain ⟨v, hv, hx⟩ := List.mem_flatMap.1 hx
  have htouches : c.main.touches .out = true := by
    apply touches_out
    intro hmain
    rw [touched, d.contraction, hmain] at hx
    exact List.not_mem_nil hx
  obtain ⟨q, hq, rfl⟩ := List.mem_map.1 ((d.touched_perm htouches v.base).mem_iff.1 hx)
  exact ⟨v, hv, q, hq, rfl⟩

end Accepted

/-- Tasks write disjoint sets of output elements if the outputs are distinct, and stay so with the
reductions counted that move the output. -/
theorem tasks_write_disjoint {c : Contraction} {p : Plan} (h : ofContraction c = .ok p)
    (hdistinct : p.outputDistinct = true)
    (hmoving : (∃ l ∈ c.loops, l.MovesOutput) → outputNests (c.loops.map Loop.asAxis) = true) :
    ∃ tasks, p.tasks = .ok tasks ∧
      tasks.Pairwise fun t u => (p.touchedBy .out t).Disjoint (p.touchedBy .out u) := by
  have d := derived_of_ofContraction h
  have hnests : outputNests (c.loops.map Loop.asAxis) = true := by
    by_cases hmoves : ∃ l ∈ c.loops, l.MovesOutput
    · exact hmoving hmoves
    · rw [outputNests_asAxis fun l hl hl' => hmoves ⟨l, hl, hl'⟩, ← d.outputDistinct]
      exact hdistinct
  refine ⟨p.exactTasks, d.tasks_eq hdistinct, ?_⟩
  refine (d.exactTasks_apart_of_nests hnests).imp fun hapart x hxt hxu => ?_
  obtain ⟨v, hv, q, hq, rfl⟩ := d.exists_of_mem_touchedBy hxt
  obtain ⟨w, hw, q', hq', heq⟩ := d.exists_of_mem_touchedBy hxu
  exact hapart v hv w hw q hq q' hq' heq

def batchedTranspose : Contraction :=
  { main := .transpose
    loops := [⟨.c, .shared, 2, ⟨24, 0, 24⟩⟩, ⟨.k, .seq, 2, ⟨12, 0, 12⟩⟩, ⟨.m, .prim, 4, ⟨1, 0, 3⟩⟩,
      ⟨.n, .prim, 3, ⟨4, 0, 1⟩⟩] }

theorem batchedTranspose_write_disjoint :
    ∃ p tasks, ofContraction batchedTranspose = .ok p ∧ p.outputDistinct = true ∧
      (∃ l ∈ batchedTranspose.loops, l.MovesOutput) ∧
      outputNests (batchedTranspose.loops.map Loop.asAxis) = true ∧ p.tasks = .ok tasks ∧
      tasks.Pairwise fun t u => (p.touchedBy .out t).Disjoint (p.touchedBy .out u) := by
  obtain ⟨p, hp, hdistinct⟩ :
      ∃ p, ofContraction batchedTranspose = .ok p ∧ p.outputDistinct = true := by
    refine ⟨?_, ?_, ?_⟩
    rotate_left
    · cbv
      rfl
    · rfl
  have hnests : outputNests (batchedTranspose.loops.map Loop.asAxis) = true := by cbv
  obtain ⟨tasks, htasks, hdisjoint⟩ := tasks_write_disjoint hp hdistinct fun _ => hnests
  refine ⟨p, tasks, hp, hdistinct, ?_, hnests, htasks, hdisjoint⟩
  exact ⟨⟨.k, .seq, 2, ⟨12, 0, 12⟩⟩, by decide, rfl, by decide, by decide⟩

def shiftedCopy : Contraction :=
  { main := .copy
    loops := [⟨.m, .shared, 2, ⟨4, 0, 4⟩⟩, ⟨.k, .seq, 2, ⟨16, 0, 4⟩⟩, ⟨.m, .prim, 4, ⟨1, 0, 1⟩⟩,
      ⟨.n, .prim, 2, ⟨8, 0, 16⟩⟩] }

/-- The outputs of the copy count as distinct, yet its two tasks both write element 4. -/
theorem shiftedCopy_tasks_overlap :
    ∃ p task task', ofContraction shiftedCopy = .ok p ∧ p.sharedCount = 1 ∧
      p.outputDistinct = true ∧ p.task 0 = .ok task ∧ p.task 1 = .ok task' ∧
      4 ∈ p.touchedBy .out task ∧ 4 ∈ p.touchedBy .out task' := by
  refine ⟨?_, ?_, ?_, ?_, ?_, ?_, ?_, ?_, ?_, ?_⟩
  rotate_left 3
  · cbv
    rfl
  · rfl
  · rfl
  · cbv
    rfl
  · cbv
    rfl
  · decide
  · decide

end Plan

end TensorKernels
