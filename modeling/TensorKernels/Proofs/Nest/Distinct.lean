import TensorKernels.Proofs.Nest.Plan

/-!
Output elements of a nest whose output strides nest. Taken by rising stride, each stride steps over
everything that the axes before it cover; so the sums of different indices differ, and there are no
more of them than the output has elements. Axes of one index add nothing to a sum.
-/

namespace TensorKernels

open Nest

namespace Plan

def sums : List (ℕ × ℕ) → List ℕ
  | [] => [0]
  | (stride, size) :: rest =>
    (List.range size).flatMap fun i => (sums rest).map (i * stride + ·)

def axisOf (l : Loop) : ℕ × ℕ := (l.strides.out, l.size)

theorem map_out_offsets (loops : List Loop) :
    (offsets loops).map (·.out) = sums (loops.map axisOf) := by
  induction loops with
  | nil => rfl
  | cons l loops ih =>
    rw [map_offsets_cons]
    simp only [List.map_cons, axisOf, sums, ← ih, List.map_map]
    rfl

theorem sums_perm {axes others : List (ℕ × ℕ)} (h : axes.Perm others) :
    (sums axes).Perm (sums others) := by
  -- an axis is the axis of some loop, so the order of axes is the order of loops
  have asLoops (as : List (ℕ × ℕ)) :
      sums as = (offsets (as.map fun a => ⟨.m, .seq, a.2, ⟨0, 0, a.1⟩⟩)).map (·.out) := by
    rw [map_out_offsets, List.map_map]
    exact congrArg sums (List.map_id as).symm
  rw [asLoops, asLoops]
  exact (offsets_perm (h.map _)).map _

theorem nested_cons {covered stride size : ℕ} {rest : List (ℕ × ℕ)} :
    nested covered ((stride, size) :: rest) = true ↔
      covered ≤ stride ∧ (size - 1) * stride + covered < Count.limit ∧
        nested ((size - 1) * stride + covered) rest = true := by
  simp only [nested, Bool.and_eq_true, decide_eq_true_eq, and_assoc]

theorem nodup_add_multiples {covered stride : ℕ} (size : ℕ) {xs : List ℕ} (hnodup : xs.Nodup)
    (hlt : ∀ x ∈ xs, x < covered) (hstride : covered ≤ stride) :
    (xs.flatMap fun x => (List.range size).map fun i => x + i * stride).Nodup := by
  have unique {x y i j : ℕ} (hx : x < covered) (hy : y < covered)
      (h : x + i * stride = y + j * stride) : x = y ∧ i = j := by
    have hmod := congrArg (· % stride) h
    simp only [Nat.add_mul_mod_self_right] at hmod
    rw [Nat.mod_eq_of_lt (hx.trans_le hstride), Nat.mod_eq_of_lt (hy.trans_le hstride)] at hmod
    subst hmod
    exact ⟨rfl, Nat.eq_of_mul_eq_mul_right (by omega) (Nat.add_left_cancel h)⟩
  rw [List.nodup_flatMap]
  constructor
  · intro x hx
    refine List.Nodup.map_on ?_ List.nodup_range
    intro i _ j _ h
    exact (unique (hlt x hx) (hlt x hx) h).2
  · refine hnodup.pairwise_of_forall_ne ?_
    intro x hx y hy hne z hzx hzy
    rw [List.mem_map] at hzx hzy
    obtain ⟨i, -, rfl⟩ := hzx
    obtain ⟨j, -, h⟩ := hzy
    exact hne (unique (hlt y hy) (hlt x hx) h).1.symm

theorem nodup_add_sums {covered : ℕ} {axes : List (ℕ × ℕ)} {xs : List ℕ}
    (hnested : nested covered axes = true) (hnodup : xs.Nodup) (hlt : ∀ x ∈ xs, x < covered) :
    (xs.flatMap fun x => (sums axes).map (x + ·)).Nodup := by
  induction axes generalizing covered xs with
  | nil => simpa [sums, List.map_eq_flatMap] using hnodup
  | cons axis rest ih =>
    obtain ⟨stride, size⟩ := axis
    obtain ⟨hstride, -, hrest⟩ := nested_cons.1 hnested
    have hnext := ih hrest (nodup_add_multiples size hnodup hlt hstride) (by
      intro z hz
      simp only [List.mem_flatMap, List.mem_map, List.mem_range] at hz
      obtain ⟨x, hx, i, hi, rfl⟩ := hz
      have hmul : i * stride ≤ (size - 1) * stride := Nat.mul_le_mul_right _ (by omega)
      have := hlt x hx
      omega)
    simpa only [sums, List.flatMap_assoc, List.flatMap_map, List.map_flatMap, List.map_map,
      Function.comp_def, Nat.add_assoc] using hnext

theorem prod_sizes_le {covered : ℕ} {axes : List (ℕ × ℕ)} (hnested : nested covered axes = true) :
    covered * (axes.map (·.2)).prod ≤
      covered + (axes.map fun axis => (axis.2 - 1) * axis.1).sum := by
  induction axes generalizing covered with
  | nil => simp
  | cons axis rest ih =>
    obtain ⟨stride, size⟩ := axis
    obtain ⟨hstride, -, hrest⟩ := nested_cons.1 hnested
    have hstep : covered * size ≤ (size - 1) * stride + covered := by
      cases size with
      | zero => simp
      | succ size =>
        have := Nat.mul_le_mul_left size hstride
        rw [Nat.mul_succ, Nat.add_sub_cancel, Nat.mul_comm covered]
        omega
    have hle := ih hrest
    simp only [List.map_cons, List.prod_cons, List.sum_cons]
    calc covered * (size * (rest.map (·.2)).prod)
        = covered * size * (rest.map (·.2)).prod := (Nat.mul_assoc _ _ _).symm
      _ ≤ ((size - 1) * stride + covered) * (rest.map (·.2)).prod := Nat.mul_le_mul_right _ hstep
      _ ≤ _ := hle
      _ = _ := by omega

theorem covered_lt_limit {covered : ℕ} {axes : List (ℕ × ℕ)} (hnested : nested covered axes = true)
    (hcovered : covered < Count.limit) :
    covered + (axes.map fun axis => (axis.2 - 1) * axis.1).sum < Count.limit := by
  induction axes generalizing covered with
  | nil => simpa using hcovered
  | cons axis rest ih =>
    obtain ⟨stride, size⟩ := axis
    obtain ⟨-, hlt, hrest⟩ := nested_cons.1 hnested
    have := ih hrest hlt
    simp only [List.map_cons, List.sum_cons]
    omega

def spreadLoops (loops : List Loop) : List Loop :=
  loops.filter fun l => l.role != .k && decide (1 < l.size)

theorem spreadLoops_eq_filter (loops : List Loop) :
    spreadLoops loops = (ofRoles (· != .k) loops).filter fun l => 1 < l.size := by
  rw [spreadLoops, ofRoles, List.filter_filter]
  exact List.filter_congr fun l _ => Bool.and_comm _ _

theorem prod_sizes_spreadLoops {loops : List Loop} (hsizes : ∀ l ∈ loops, 0 < l.size) :
    ((spreadLoops loops).map (·.size)).prod = ((ofRoles (· != .k) loops).map (·.size)).prod := by
  have hsplit := List.prod_map_filter_mul_prod_map_filter_not (fun l : Loop => 1 < l.size) (·.size)
    (ofRoles (· != .k) loops)
  have hrest : (((ofRoles (· != .k) loops).filter fun l => ¬1 < l.size).map (·.size)).prod = 1 := by
    apply List.prod_eq_one
    rw [List.forall_mem_map]
    intro l hl
    rw [List.mem_filter, decide_eq_true_eq] at hl
    have hpos := hsizes l (List.mem_of_mem_filter hl.1)
    omega
  rwa [hrest, mul_one, ← spreadLoops_eq_filter] at hsplit

theorem sum_reaches_spreadLoops (loops : List Loop) :
    ((spreadLoops loops).map fun l => (l.size - 1) * l.strides.out).sum =
      ((ofRoles (· != .k) loops).map fun l => (l.size - 1) * l.strides.out).sum := by
  have hsplit := List.sum_map_filter_add_sum_map_filter_not (fun l : Loop => 1 < l.size)
    (fun l => (l.size - 1) * l.strides.out) (ofRoles (· != .k) loops)
  have hrest : (((ofRoles (· != .k) loops).filter fun l => ¬1 < l.size).map fun l =>
      (l.size - 1) * l.strides.out).sum = 0 := by
    apply List.sum_eq_zero
    rw [List.forall_mem_map]
    intro l hl
    rw [List.mem_filter, decide_eq_true_eq] at hl
    rw [Nat.sub_eq_zero_of_le (Nat.le_of_not_lt hl.2), Nat.zero_mul]
  rwa [hrest, add_zero, ← spreadLoops_eq_filter] at hsplit

theorem outputNests_eq (loops : List Loop) :
    outputNests loops = nested 1 (((spreadLoops loops).map axisOf).mergeSort axisBefore) := rfl

theorem sums_spreadLoops {loops : List Loop} (hsizes : ∀ l ∈ loops, 0 < l.size) :
    sums ((ofRoles (· != .k) loops).map axisOf) = sums ((spreadLoops loops).map axisOf) := by
  induction loops with
  | nil => rfl
  | cons l loops ih =>
    rw [List.forall_mem_cons] at hsizes
    have ih := ih hsizes.2
    simp only [ofRoles, spreadLoops] at ih ⊢
    by_cases hrole : l.role = .k
    · simpa [List.filter_cons, hrole] using ih
    · by_cases hsize : 1 < l.size
      · rw [List.filter_cons_of_pos (by simpa using hrole),
          List.filter_cons_of_pos (by simp [hrole, hsize]), List.map_cons, List.map_cons, axisOf,
          sums, sums, ih]
      · have hone : l.size = 1 := by omega
        rw [List.filter_cons_of_pos (by simpa using hrole),
          List.filter_cons_of_neg (by simp [hsize]), List.map_cons, ← ih, axisOf, sums, hone]
        simp

/-- When the output strides nest, different indices of the non-reduction loops address different
output elements. -/
theorem outputs_nodup {loops : List Loop} (hsizes : ∀ l ∈ loops, 0 < l.size)
    (hnests : outputNests loops = true) :
    ((offsets (ofRoles (· != .k) loops)).map (·.out)).Nodup := by
  rw [outputNests_eq] at hnests
  have hsorted := nodup_add_sums hnests (List.nodup_singleton 0) (by simp)
  simp only [List.flatMap_cons, List.flatMap_nil, List.append_nil, Nat.zero_add,
    List.map_id'] at hsorted
  rw [map_out_offsets, sums_spreadLoops hsizes]
  exact (sums_perm (List.mergeSort_perm _ _)).nodup_iff.1 hsorted

theorem outer_outputs_nodup {outer inner : List Loop} (hsizes : ∀ l ∈ inner, 0 < l.size)
    (h : ((offsets (outer ++ inner)).map (·.out)).Nodup) : ((offsets outer).map (·.out)).Nodup := by
  rw [offsets_append, List.map_flatMap, List.nodup_flatMap] at h
  rw [List.Nodup, List.pairwise_map]
  refine h.2.imp fun {a b} hapart heq => ?_
  have hstart (o : Offsets) : o.out ∈ ((offsets inner).map (o + ·)).map (·.out) := by
    simp only [List.map_map, List.mem_map, Function.comp_apply]
    exact ⟨0, zero_mem_offsets hsizes, by rw [add_zero]⟩
  exact hapart (hstart a) (heq ▸ hstart b)

theorem prod_spreadLoops_le {loops : List Loop} (hnests : outputNests loops = true) :
    ((spreadLoops loops).map (·.size)).prod ≤
        1 + ((spreadLoops loops).map fun l => (l.size - 1) * l.strides.out).sum ∧
      1 + ((spreadLoops loops).map fun l => (l.size - 1) * l.strides.out).sum < Count.limit := by
  rw [outputNests_eq] at hnests
  have hperm := List.mergeSort_perm ((spreadLoops loops).map axisOf) axisBefore
  have hle := prod_sizes_le hnests
  have hlt := covered_lt_limit hnests (by decide)
  rw [(hperm.map _).prod_eq, (hperm.map _).sum_eq, List.map_map, List.map_map, Nat.one_mul] at hle
  rw [(hperm.map _).sum_eq, List.map_map] at hlt
  exact ⟨hle, hlt⟩

theorem prod_spreadLoops_lt {loops : List Loop} (hnests : outputNests loops = true) :
    ((spreadLoops loops).map (·.size)).prod < Count.limit :=
  have ⟨hle, hlt⟩ := prod_spreadLoops_le hnests
  hle.trans_lt hlt

end Plan

end TensorKernels
