import TensorKernels.Nest.Compiled
import TensorKernels.Proofs.Nest.Tasks

/-!
What the test for distinct outputs promises. When it succeeds, the output element tells the indices of
all loops that are no reductions, and so there are no more such indices than the elements they span.
The span fits a count, hence so does the number of tasks, which execution in tasks multiplies up
after it has made this test only.
-/

namespace TensorKernels

open Nest

namespace Plan

theorem injOn_out_offset {loops : List Loop} (hsizes : ∀ l ∈ loops, 0 < l.size)
    (hnests : outputNests loops = true) :
    Set.InjOn (fun t => (offset (ofRoles (· != .k) loops) t).out)
      {t | t ∈ indices (ofRoles (· != .k) loops)} := by
  have hnodup := outputs_nodup hsizes hnests
  rw [offsets, List.map_map] at hnodup
  intro t ht u hu heq
  exact List.inj_on_of_nodup_map hnodup ht hu heq

theorem taskCount_of_no_shared {p : Plan} (h : p.sharedCount = 0) :
    p.taskCount = .ok (p.sharedLoops.map (·.size)).prod := by
  rw [taskCount, sharedLoops, h]
  rfl

theorem no_shared_or_distinct_of_executeParallel {compiled : Compiled} {host : Host}
    {lengths : Offsets} (h : compiled.executeParallel host lengths ≠ refuse .overlappingTasks) :
    compiled.plan.sharedCount = 0 ∨ compiled.plan.outputDistinct = true := by
  by_contra hcheck
  rw [← beq_iff_eq, ← Bool.or_eq_true, Bool.not_eq_true] at hcheck
  rw [Compiled.executeParallel, require, hcheck] at h
  exact h rfl

/-- When the output strides nest, different indices of the non-reduction loops address different
output elements, and there are at most as many of them as these loops span, fewer than `2 ^ 64`. So
the tasks of an accepted contraction can be counted once its execution in tasks has passed the test
for overlaps. -/
theorem distinct_outputs_bound_tasks :
    (∀ loops : List Loop, (∀ l ∈ loops, 1 ≤ l.size) → outputNests loops = true →
      Set.InjOn (fun t => (offset (ofRoles (· != .k) loops) t).out)
        {t | t ∈ indices (ofRoles (· != .k) loops)} ∧
      ((ofRoles (· != .k) loops).map (·.size)).prod ≤
        1 + ((ofRoles (· != .k) loops).map fun l => (l.size - 1) * l.strides.out).sum ∧
      1 + ((ofRoles (· != .k) loops).map fun l => (l.size - 1) * l.strides.out).sum < 2 ^ 64) ∧
    ∀ (c : Contraction) (compiled : Compiled) (host : Host) (lengths : Offsets),
      ofContraction c = .ok compiled.plan →
      compiled.executeParallel host lengths ≠ refuse .overlappingTasks →
      compiled.plan.taskCount = .ok (compiled.plan.sharedLoops.map (·.size)).prod := by
  constructor
  · intro loops hsizes hnests
    have hbound := prod_spreadLoops_le hnests
    rw [prod_sizes_spreadLoops hsizes, sum_reaches_spreadLoops] at hbound
    exact ⟨injOn_out_offset hsizes hnests, hbound⟩
  · intro c compiled host lengths haccepted hpassed
    have d := derived_of_ofContraction haccepted
    rcases no_shared_or_distinct_of_executeParallel hpassed with hnone | hdistinct
    · exact taskCount_of_no_shared hnone
    · exact d.taskCount_eq (d.exactTaskCount_lt hdistinct)

def taskedTranspose : Contraction :=
  { main := .transpose
    loops := [⟨.m, .shared, 3, ⟨2, 0, 5⟩⟩, ⟨.n, .shared, 2, ⟨24, 0, 32⟩⟩, ⟨.c, .seq, 1, ⟨7, 0, 3⟩⟩,
      ⟨.k, .seq, 2, ⟨48, 0, 0⟩⟩, ⟨.m, .prim, 2, ⟨1, 0, 16⟩⟩, ⟨.n, .prim, 4, ⟨6, 0, 1⟩⟩] }

set_option maxRecDepth 8000 in
theorem taskedTranspose_bounds_tasks :
    (∀ l ∈ taskedTranspose.loops, 1 ≤ l.size) ∧ outputNests taskedTranspose.loops = true ∧
      Set.InjOn (fun t => (offset (ofRoles (· != .k) taskedTranspose.loops) t).out)
        {t | t ∈ indices (ofRoles (· != .k) taskedTranspose.loops)} ∧
      48 ≤ 1 + ((ofRoles (· != .k) taskedTranspose.loops).map fun l =>
        (l.size - 1) * l.strides.out).sum ∧
      ∃ p compiled, ofContraction taskedTranspose = .ok p ∧ Compiled.ofPlan p = .ok compiled ∧
        compiled.executeParallel ⟨"aarch64"⟩ ⟨100, 0, 62⟩ ≠ refuse .overlappingTasks ∧
        p.taskCount = .ok 6 := by
  have hsizes : ∀ l ∈ taskedTranspose.loops, 1 ≤ l.size := by decide
  have hnests : outputNests taskedTranspose.loops = true := by cbv
  obtain ⟨hinj, hle, -⟩ := distinct_outputs_bound_tasks.1 taskedTranspose.loops hsizes hnests
  obtain ⟨p, compiled, hp, hcompiled, hplan, hpassed, hcount⟩ :
      ∃ p compiled, ofContraction taskedTranspose = .ok p ∧ Compiled.ofPlan p = .ok compiled ∧
        compiled.plan = p ∧
        compiled.executeParallel ⟨"aarch64"⟩ ⟨100, 0, 62⟩ ≠ refuse .overlappingTasks ∧
        (compiled.plan.sharedLoops.map (·.size)).prod = 6 := by
    refine ⟨?_, ?_, ?_, ?_, ?_, ?_, ?_⟩
    rotate_left 2
    · cbv
      rfl
    · cbv
      rfl
    · rfl
    · intro h
      cases h
    · rfl
  have htasks := distinct_outputs_bound_tasks.2 taskedTranspose compiled ⟨"aarch64"⟩ ⟨100, 0, 62⟩
    (by rw [hplan, hp]) hpassed
  rw [hcount, hplan] at htasks
  exact ⟨hsizes, hnests, hinj, hle, p, compiled, hp, hcompiled, hpassed, htasks⟩

end Plan

end TensorKernels
