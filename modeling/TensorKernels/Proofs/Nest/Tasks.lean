import TensorKernels.Proofs.Nest.Distinct
import TensorKernels.Proofs.Nest.Walk

/-!
Tasks of a plan. The flat index of a task is read as one digit a shared loop, so the tasks in
order are the walk in order. Shared loops are never reductions: a task starts with the flags that
the walk has where the task begins.
-/

namespace TensorKernels

open Nest

namespace Walk

theorem exactVisits_append (outer inner : List Loop) (v : Visit) :
    exactVisits (outer ++ inner) v = (exactVisits outer v).flatMap (exactVisits inner) := by
  induction outer generalizing v with
  | nil => simp [exactVisits]
  | cons l outer ih => simp only [List.cons_append, exactVisits, ih, List.flatMap_assoc]

theorem exactVisits_of_no_reduction {loops : List Loop} (h : ∀ l ∈ loops, l.role ≠ .k) (v : Visit) :
    exactVisits loops v = (offsets loops).map fun o => ⟨v.base + o, v.first, v.last⟩ := by
  induction loops generalizing v with
  | nil => simp [exactVisits]
  | cons l inner ih =>
    rw [List.forall_mem_cons] at h
    have hrole : (l.role != .k) = true := by simpa using h.1
    simp only [exactVisits, ih h.2, map_offsets_cons, Loop.opens, Loop.closes, hrole,
      Bool.true_or, Bool.and_true, add_assoc]

def exactDecode : List Loop → ℕ → Offsets
  | [], _ => 0
  | l :: outer, rest => (rest % l.size) • l.strides + exactDecode outer (rest / l.size)

theorem decode_eq_ok {loops : List Loop} {rest : ℕ} {base : Offsets}
    (hsizes : ∀ l ∈ loops, 0 < l.size) (h : (base + reach loops).Fits) :
    decode loops rest base = .ok (base + exactDecode loops rest) := by
  induction loops generalizing rest base with
  | nil => simp [decode, exactDecode]
  | cons l outer ih =>
    rw [List.forall_mem_cons] at hsizes
    have hstep : (base + (rest % l.size) • l.strides + reach outer).Fits := by
      have hlt := Nat.mod_lt rest hsizes.1
      obtain ⟨more, hmore⟩ : ∃ more, l.size - 1 = rest % l.size + more :=
        ⟨l.size - 1 - rest % l.size, by omega⟩
      rw [reach_cons, hmore, add_nsmul] at h
      have hsum : base + ((rest % l.size) • l.strides + more • l.strides + reach outer) =
          base + (rest % l.size) • l.strides + reach outer + more • l.strides := by abel
      exact (hsum ▸ h).of_add
    rw [decode, Offsets.advance_eq_ok hstep.of_add]
    exact (ih hsizes.2 hstep).trans (by rw [exactDecode, add_assoc])

theorem exists_exactDecode_add {loops : List Loop} (hsizes : ∀ l ∈ loops, 0 < l.size) (rest : ℕ) :
    ∃ more, exactDecode loops rest + more = reach loops := by
  induction loops generalizing rest with
  | nil => exact ⟨0, rfl⟩
  | cons l outer ih =>
    rw [List.forall_mem_cons] at hsizes
    obtain ⟨more, hmore⟩ := ih hsizes.2 (rest / l.size)
    have hlt := Nat.mod_lt rest hsizes.1
    refine ⟨(l.size - 1 - rest % l.size) • l.strides + more, ?_⟩
    have hsize : l.size - 1 = rest % l.size + (l.size - 1 - rest % l.size) := by omega
    rw [reach_cons, ← hmore, exactDecode]
    conv_rhs => rw [hsize, add_nsmul]
    abel

/-- Reading flat indices in order gives the offsets of the loops in order. -/
theorem map_exactDecode {loops : List Loop} (hsizes : ∀ l ∈ loops, 0 < l.size) :
    (List.range (loops.map (·.size)).prod).map (exactDecode loops.reverse) = offsets loops := by
  induction loops using List.reverseRecOn with
  | nil => rfl
  | append_singleton outer l ih =>
    simp only [List.forall_mem_append, List.forall_mem_singleton] at hsizes
    have hdigit (q i : ℕ) (hi : i < l.size) : exactDecode (outer ++ [l]).reverse (q * l.size + i) =
        exactDecode outer.reverse q + i • l.strides := by
      rw [List.reverse_append, List.reverse_singleton, List.singleton_append, exactDecode,
        Nat.add_comm, Nat.add_mul_mod_self_right, Nat.mod_eq_of_lt hi,
        Nat.add_mul_div_right _ _ hsizes.2, Nat.div_eq_of_lt hi, Nat.zero_add, add_comm]
    rw [List.map_append, List.prod_append, List.map_singleton, List.prod_singleton,
      List.map_eq_flatMap, range_mul_flatMap, offsets_append, ← ih hsizes.1, List.flatMap_map]
    congr 1
    funext q
    rw [map_offsets_cons, List.flatMap_congr]
    intro i hi
    rw [hdigit q i (List.mem_range.1 hi)]
    simp

end Walk

namespace Plan

theorem product_eq_ok {factors : List ℕ} (hpos : ∀ n ∈ factors, 0 < n)
    (h : factors.prod < Count.limit) : Count.product factors = .ok factors.prod := by
  have hfold (start : ℕ) (ns : List ℕ) (hpos : ∀ n ∈ ns, 0 < n)
      (h : start * ns.prod < Count.limit) : ns.foldlM Count.mul start = .ok (start * ns.prod) := by
    induction ns generalizing start with
    | nil => simp [pure, Except.pure]
    | cons n ns ih =>
      rw [List.forall_mem_cons] at hpos
      rw [List.prod_cons, ← Nat.mul_assoc] at h
      have hle : start * n ≤ start * n * ns.prod :=
        Nat.le_mul_of_pos_right _ (List.prod_pos_iff_forall_pos_nat.2 hpos.2)
      rw [List.foldlM_cons, Count.mul_eq_ok_iff.2 ⟨rfl, by omega⟩, List.prod_cons,
        ← Nat.mul_assoc]
      exact ih _ hpos.2 h
  rw [Count.product, hfold 1 factors hpos (by simpa using h), Nat.one_mul]

section Accepted

variable {c : Contraction} {p : Plan}

theorem takeWhile_shared_le (loops : List Loop) :
    (loops.takeWhile fun l => l.exec == .shared).length ≤ loops.findIdx Loop.isKernel := by
  induction loops with
  | nil => simp
  | cons l loops ih =>
    rw [List.takeWhile_cons]
    split
    · rename_i hshared
      have hkernel : l.isKernel = false := by
        rw [beq_iff_eq] at hshared
        simp [Loop.isKernel, hshared]
      rw [List.findIdx_cons, hkernel]
      simpa using ih
    · simp

theorem Derived.sharedCount_le (d : Derived c p) : p.sharedCount ≤ p.kernelStart := by
  rw [d.sharedCount, d.kernelStart]
  exact takeWhile_shared_le c.loops

theorem Derived.outerLoops_eq (d : Derived c p) : p.outerLoops = p.sharedLoops ++ p.taskLoops := by
  have hshared : p.sharedLoops = p.outerLoops.take p.sharedCount := by
    rw [sharedLoops, outerLoops, List.take_take, Nat.min_eq_left d.sharedCount_le]
  rw [hshared, taskLoops, List.take_append_drop]

theorem Derived.sharedLoops_eq (d : Derived c p) :
    p.sharedLoops = c.loops.takeWhile fun l => l.exec == .shared := by
  rw [sharedLoops, d.contraction, d.sharedCount]
  exact (List.prefix_iff_eq_take.1 (List.takeWhile_prefix _)).symm

theorem Derived.shared_no_reduction (d : Derived c p) : ∀ l ∈ p.sharedLoops, l.role ≠ .k := by
  intro l hl
  have hexec : l.exec = .shared := by
    rw [d.sharedLoops_eq] at hl
    simpa using List.mem_takeWhile_imp hl
  have houter : l ∈ ((placedLoops c).take c.kernelStart).map (·.loop) := by
    rw [List.map_take, map_loop_placedLoops, ← d.kernelStart, ← d.contraction]
    exact (d.outerLoops_eq ▸ List.mem_append_left _ hl : l ∈ p.outerLoops)
  rw [List.mem_map] at houter
  obtain ⟨q, hq, rfl⟩ := houter
  have hcheck := d.shared q hq
  simp only [checkShared, hexec, beq_self_eq_true, if_true, check_bind_eq_ok_iff,
    require_eq_ok_iff, Bool.and_eq_true, bne_iff_ne] at hcheck
  exact hcheck.2.1

theorem Derived.ofRoles_sharedLoops (d : Derived c p) :
    ofRoles (· != .k) p.sharedLoops = p.sharedLoops := by
  rw [ofRoles, List.filter_eq_self]
  simpa using d.shared_no_reduction

theorem Derived.shared_subset (d : Derived c p) : p.sharedLoops ⊆ c.loops := by
  rw [sharedLoops, d.contraction]
  exact List.take_subset _ _

theorem Derived.shared_sizes (d : Derived c p) : ∀ l ∈ p.sharedLoops, 0 < l.size :=
  fun l hl => d.sizes l (d.shared_subset hl)

theorem Derived.sharedLoops_eq_filter (d : Derived c p) :
    p.sharedLoops = c.loops.filter fun l => l.exec == .shared := by
  have hleading : p.sharedLoops.filter (fun l => l.exec == .shared) = p.sharedLoops := by
    rw [d.sharedLoops_eq, List.filter_eq_self]
    intro l hl
    simpa using List.mem_takeWhile_imp hl
  have houter : p.taskLoops.filter (fun l => l.exec == .shared) = [] := by
    rw [List.filter_eq_nil_iff]
    intro l hl hexec
    obtain ⟨i, hi⟩ := List.mem_iff_getElem?.1 hl
    rw [taskLoops, List.getElem?_drop, outerLoops, d.contraction, d.kernelStart] at hi
    have hq : (⟨p.sharedCount + i, l⟩ : PlacedLoop) ∈ (placedLoops c).take c.kernelStart := by
      rw [List.mem_iff_getElem?]
      refine ⟨p.sharedCount + i, ?_⟩
      rw [List.getElem?_take] at hi ⊢
      split_ifs at hi ⊢ with hlt
      rw [getElem?_placedLoops, hi, Option.map_some]
    have hcheck := d.shared _ hq
    simp only [checkShared, hexec, if_true, check_bind_eq_ok_iff, require_eq_ok_iff,
      decide_eq_true_eq] at hcheck
    omega
  have hinner : (c.loops.drop p.kernelStart).filter (fun l => l.exec == .shared) = [] := by
    rw [List.filter_eq_nil_iff]
    intro l hl hexec
    rw [d.kernelStart] at hl
    have hkernel := d.trailing l hl
    rw [Loop.isKernel, beq_iff_eq] at hkernel
    rw [hkernel] at hexec
    cases hexec
  conv_rhs => rw [← d.outer_append_inner, d.outerLoops_eq]
  rw [List.filter_append, List.filter_append, hleading, houter, hinner, List.append_nil,
    List.append_nil]

theorem prod_sizes_eq {loops : List Loop} (hsizes : ∀ l ∈ loops, 0 < l.size)
    (hroles : ∀ l ∈ loops, l.role ≠ .k) :
    (loops.map (·.size)).prod = ((spreadLoops loops).map (·.size)).prod := by
  have hall : ofRoles (· != .k) loops = loops := by
    rw [ofRoles, List.filter_eq_self]
    simpa using hroles
  rw [prod_sizes_spreadLoops hsizes, hall]

/-- The number of tasks, whether or not it fits a count. -/
def exactTaskCount (p : Plan) : ℕ := (p.sharedLoops.map (·.size)).prod

theorem Derived.exactTaskCount_lt (d : Derived c p) (hdistinct : p.outputDistinct = true) :
    p.exactTaskCount < Count.limit := by
  rw [exactTaskCount, prod_sizes_eq d.shared_sizes d.shared_no_reduction]
  rw [d.outputDistinct] at hdistinct
  refine lt_of_le_of_lt (Nat.le_of_dvd ?_ ?_) (prod_spreadLoops_lt hdistinct)
  · rw [List.prod_pos_iff_forall_pos_nat]
    intro n hn
    obtain ⟨l, hl, rfl⟩ := List.mem_map.1 hn
    exact d.sizes l (List.mem_of_mem_filter hl)
  · refine List.Sublist.prod_dvd_prod (List.Sublist.map _ (List.Sublist.filter _ ?_))
    rw [d.sharedLoops_eq]
    exact List.takeWhile_sublist _

def exactTasks (p : Plan) : List (List Visit) :=
  (offsets p.sharedLoops).map fun o => Walk.exactVisits p.taskLoops ⟨o, true, true⟩

def ownVisits (p : Plan) (flat : ℕ) : List Visit :=
  Walk.exactVisits p.taskLoops ⟨Walk.exactDecode p.sharedLoops.reverse flat, true, true⟩

theorem Derived.task_eq (d : Derived c p) (flat : ℕ) : p.task flat = .ok (p.ownVisits flat) := by
  have hsizes : ∀ l ∈ p.sharedLoops.reverse, 0 < l.size :=
    fun l hl => d.shared_sizes l (List.mem_reverse.1 hl)
  have hfits := d.fits
  rw [← d.outer_append_inner, d.outerLoops_eq, reach_append, reach_append] at hfits
  have hzero (o : Offsets) : Offsets.zero + o = o := zero_add o
  have hbase : (Offsets.zero + reach p.sharedLoops.reverse).Fits := by
    rw [hzero, reach_reverse]
    exact hfits.of_add.of_add
  obtain ⟨more, hmore⟩ := Walk.exists_exactDecode_add hsizes flat
  rw [reach_reverse] at hmore
  rw [task, Walk.decode_eq_ok hsizes hbase, hzero]
  refine Walk.visits_eq_ok ?_
  rw [← hmore] at hfits
  have hsum : Walk.exactDecode p.sharedLoops.reverse flat + more + reach p.taskLoops =
      Walk.exactDecode p.sharedLoops.reverse flat + reach p.taskLoops + more := by abel
  exact (hsum ▸ hfits.of_add).of_add

theorem Derived.map_ownVisits (d : Derived c p) :
    (List.range p.exactTaskCount).map p.ownVisits = p.exactTasks := by
  rw [exactTasks, ← Walk.map_exactDecode d.shared_sizes, List.map_map]
  rfl

theorem Derived.taskCount_eq (d : Derived c p) (hfits : p.exactTaskCount < Count.limit) :
    p.taskCount = .ok p.exactTaskCount := by
  refine product_eq_ok ?_ hfits
  intro n hn
  obtain ⟨l, hl, rfl⟩ := List.mem_map.1 hn
  exact d.shared_sizes l hl

theorem Derived.tasks_eq_of_fits (d : Derived c p) (hfits : p.exactTaskCount < Count.limit) :
    p.tasks = .ok p.exactTasks := by
  rw [tasks, d.taskCount_eq hfits, ← d.map_ownVisits]
  exact mapM_eq_ok fun flat _ => d.task_eq flat

theorem Derived.tasks_eq (d : Derived c p) (hdistinct : p.outputDistinct = true) :
    p.tasks = .ok p.exactTasks :=
  d.tasks_eq_of_fits (d.exactTaskCount_lt hdistinct)

theorem Derived.flatten_exactTasks (d : Derived c p) :
    p.exactTasks.flatten = Walk.exactVisits p.outerLoops ⟨.zero, true, true⟩ := by
  have hzero (o : Offsets) : Offsets.zero + o = o := zero_add o
  rw [d.outerLoops_eq, Walk.exactVisits_append,
    Walk.exactVisits_of_no_reduction d.shared_no_reduction, exactTasks, List.flatMap_map]
  simp only [hzero, List.flatMap]

end Accepted

/-- As long as the tasks can be counted, running them one after another visits what the walk visits,
in the same order; and they visit the same blocks with the same flags in whatever order they run. -/
theorem tasks_concatenate_to_walk {c : Contraction} {p : Plan} (h : ofContraction c = .ok p)
    (hcount : ((c.loops.filter fun l => l.exec == .shared).map (·.size)).prod < Count.limit) :
    ∃ visits tasks, p.walk = .ok visits ∧ p.tasks = .ok tasks ∧
      tasks.length = ((c.loops.filter fun l => l.exec == .shared).map (·.size)).prod ∧
      (tasks.map Multiset.ofList).sum = (visits : Multiset Visit) ∧
      tasks.flatten = visits := by
  have d := derived_of_ofContraction h
  rw [← d.sharedLoops_eq_filter] at hcount ⊢
  have hlength : p.exactTasks.length = p.exactTaskCount := by
    rw [← d.map_ownVisits, List.length_map, List.length_range]
  refine ⟨_, _, d.walk_eq, d.tasks_eq_of_fits hcount, hlength, ?_, d.flatten_exactTasks⟩
  rw [← d.flatten_exactTasks, ← Multiset.sum_coe]
  exact Multiset.coe_join p.exactTasks

def splitReduction : Contraction :=
  { main := .gemm
    first := .zero
    last := .relu
    loops := [⟨.m, .shared, 3, ⟨4, 0, 4⟩⟩, ⟨.n, .shared, 2, ⟨0, 120, 48⟩⟩, ⟨.k, .seq, 2, ⟨180, 15, 0⟩⟩,
      ⟨.n, .seq, 2, ⟨0, 60, 24⟩⟩, ⟨.k, .seq, 3, ⟨60, 5, 0⟩⟩, ⟨.m, .prim, 4, ⟨1, 0, 1⟩⟩,
      ⟨.n, .prim, 2, ⟨0, 30, 12⟩⟩, ⟨.k, .prim, 5, ⟨12, 1, 0⟩⟩] }

theorem splitReduction_accepted :
    ∃ p, ofContraction splitReduction = .ok p ∧ p.outputDistinct = true ∧ p.exactTaskCount = 6 ∧
      p.extents = ⟨360, 240, 96⟩ ∧ p.outerLoops = splitReduction.loops.take 5 := by
  refine ⟨?_, ?_, ?_, ?_, ?_, ?_⟩
  rotate_left
  · cbv
    rfl
  all_goals rfl

theorem splitReduction_tasks_concatenate :
    ((splitReduction.loops.filter fun l => l.exec == .shared).map (·.size)).prod < Count.limit ∧
      ∃ p visits tasks, ofContraction splitReduction = .ok p ∧ p.walk = .ok visits ∧
        p.tasks = .ok tasks ∧ tasks.length = 6 ∧
        (tasks.map Multiset.ofList).sum = (visits : Multiset Visit) ∧
        tasks.flatten = visits := by
  obtain ⟨p, hp, -⟩ := splitReduction_accepted
  have hcount : ((splitReduction.loops.filter fun l => l.exec == .shared).map (·.size)).prod <
      Count.limit := by decide
  obtain ⟨visits, tasks, hwalk, htasks, hlength, hsum, hflat⟩ := tasks_concatenate_to_walk hp hcount
  exact ⟨hcount, p, visits, tasks, hp, hwalk, htasks, hlength.trans (by decide), hsum, hflat⟩

end Plan

end TensorKernels
