import TensorKernels.Nest.Plan
import TensorKernels.Proofs.Nest.Offsets

/-!
What an accepted contraction satisfies. A plan is derived exactly when every check passes, and the
checks are opened here once: the loops of the kernel close the list, their roles are found, the
strides handed to the kernel are those of its loops, and the reach of all loops together fits a
count in every operand.
-/

namespace TensorKernels

namespace Count

theorem span_fold_eq_some_iff {axes : List (ℕ × ℕ)} {start total : ℕ} :
    (axes.foldlM (fun acc axis =>
      let reach := (axis.1 - 1) * axis.2
      if reach < limit ∧ reach + acc < limit then some (reach + acc) else none) start) =
        some total ↔
      total = start + (axes.map fun axis => (axis.1 - 1) * axis.2).sum ∧
        (axes ≠ [] → total < limit) := by
  induction axes generalizing start with
  | nil => simp [eq_comm]
  | cons axis axes ih =>
    simp only [List.foldlM_cons, List.map_cons, List.sum_cons, ne_eq, reduceCtorEq,
      not_false_eq_true, true_implies]
    split_ifs with hfit
    · simp only [Option.bind_eq_bind, Option.bind_some, ih]
      constructor
      · rintro ⟨rfl, hlt⟩
        refine ⟨by omega, ?_⟩
        cases axes with
        | nil => simpa using hfit.2
        | cons _ _ => exact hlt (by simp)
      · rintro ⟨rfl, hlt⟩
        exact ⟨by omega, fun _ => hlt⟩
    · simp only [Option.bind_eq_bind, Option.bind_none, reduceCtorEq, false_iff, not_and, not_lt]
      rintro rfl
      omega

theorem span_eq_some_iff {inner total : ℕ} {axes : List (ℕ × ℕ)} (hinner : 0 < inner)
    (haxes : ∀ axis ∈ axes, 0 < axis.1) :
    span inner axes = some total ↔
      total = inner + (axes.map fun axis => (axis.1 - 1) * axis.2).sum ∧
        (axes ≠ [] → total < limit) := by
  have hnone : ¬(inner = 0 ∨ axes.any (fun axis => axis.1 == 0) = true) := by
    rw [not_or, List.any_eq_true]
    refine ⟨by omega, ?_⟩
    rintro ⟨axis, hmem, hzero⟩
    have := haxes axis hmem
    simp only [beq_iff_eq] at hzero
    omega
  rw [span, if_neg hnone]
  exact span_fold_eq_some_iff

end Count

open Nest

structure KernelAxes where
  m : Loop
  n : Loop
  k : Option Loop
  batch : Option Loop

namespace KernelAxes

def strides (main : Primitive) (axes : KernelAxes) : Strides :=
  match axes.k with
  | some k =>
    ⟨k.strides.in0, axes.n.strides.in1, axes.n.strides.out,
      (axes.batch.map (·.strides.in0)).getD 0, (axes.batch.map (·.strides.in1)).getD 0⟩
  | none =>
    { lda := axes.n.strides.in0
      ldc := if main = .transpose then axes.m.strides.out else axes.n.strides.out }

def map (f : Loop → Loop) (axes : KernelAxes) : KernelAxes :=
  ⟨f axes.m, f axes.n, axes.k.map f, axes.batch.map f⟩

theorem strides_map {f : Loop → Loop} (hf : ∀ l, (f l).strides = l.strides) (main : Primitive)
    (axes : KernelAxes) : (axes.map f).strides main = axes.strides main := by
  obtain ⟨m, n, k, batch⟩ := axes
  cases k <;> cases batch <;> simp [strides, map, hf]

end KernelAxes

namespace KernelLoops

def axes (ids : KernelLoops) : KernelAxes :=
  ⟨ids.m.loop, ids.n.loop, ids.k.map (·.loop), ids.batch.map (·.loop)⟩

def toList (ids : KernelLoops) : List PlacedLoop :=
  ids.m :: ids.n :: (ids.k.toList ++ ids.batch.toList)

end KernelLoops

/-- A run of loops in which those of a product's kernel are found, the reduction `k` after the
batch. -/
structure ProductRun (main : Primitive) (run : List Loop) (axes : KernelAxes) (k : Loop) :
    Prop where
  reduction : axes.k = some k
  rows : ofRoles (· == .m) run = [axes.m]
  columns : ofRoles (· == .n) run = [axes.n]
  reductions : ofRoles (· == .k) run = axes.batch.toList ++ [k]
  noShared : ofRoles (· == .c) run = []
  batch : axes.batch.isSome = (main == .brgemm)
  rowStrides : axes.m.strides.in0 = 1 ∧ axes.m.strides.out = 1
  reductionStride : k.strides.in1 = 1

/-- A run of the two loops of an elementwise kernel. A transpose takes them in either order, but the
first loop that is contiguous in the input is its row loop. -/
structure ElementwiseRun (main : Primitive) (run : List Loop) (axes : KernelAxes) : Prop where
  noReduction : axes.k = none ∧ axes.batch = none
  straight : main ≠ .transpose → run = [axes.m, axes.n] ∧ axes.m.strides.out = 1 ∧
    (main = .zero ∨ axes.m.strides.in0 = 1)
  transpose : main = .transpose → axes.m.strides.in0 = 1 ∧ axes.n.strides.out = 1 ∧
    (run = [axes.m, axes.n] ∨ run = [axes.n, axes.m] ∧ axes.n.strides.in0 ≠ 1)

def KernelRun (main : Primitive) (run : List Loop) (axes : KernelAxes) : Prop :=
  if main.isProduct then ∃ k, ProductRun main run axes k else ElementwiseRun main run axes

theorem independent_iff_strides {l : Loop} :
    Plan.independent l = true ↔ (l.role = .m → l.strides.in1 = 0) ∧
      (l.role = .n → l.strides.in0 = 0) ∧ (l.role = .k → l.strides.out = 0) := by
  cases hrole : l.role <;> simp [Plan.independent, hrole]

section Run

variable {main : Primitive} {run : List Loop} {axes : KernelAxes}

theorem ProductRun.perm {k : Loop} (pr : ProductRun main run axes k) :
    (axes.batch.toList ++ [k] ++ [axes.m, axes.n]).Perm run := by
  have hperm := ofRoles_perm run
  rwa [pr.noShared, pr.reductions, pr.rows, pr.columns] at hperm

theorem ProductRun.stray_strides {k : Loop} (pr : ProductRun main run axes k)
    (h : ∀ l ∈ run, Plan.independent l = true) :
    axes.m.strides.in1 = 0 ∧ axes.n.strides.in0 = 0 ∧
      ∀ l ∈ axes.batch.toList ++ [k], l.strides.out = 0 := by
  have hrole {role : Role} {l : Loop} (hl : l ∈ ofRoles (· == role) run) :
      Plan.independent l = true ∧ l.role = role := by
    obtain ⟨hmem, hrole⟩ := List.mem_filter.1 hl
    exact ⟨h l hmem, beq_iff_eq.1 hrole⟩
  have hrow : axes.m ∈ ofRoles (· == .m) run := by rw [pr.rows]; exact List.mem_singleton_self _
  have hcolumn : axes.n ∈ ofRoles (· == .n) run := by
    rw [pr.columns]
    exact List.mem_singleton_self _
  obtain ⟨hm, hmrole⟩ := hrole hrow
  obtain ⟨hn, hnrole⟩ := hrole hcolumn
  refine ⟨(independent_iff_strides.1 hm).1 hmrole, (independent_iff_strides.1 hn).2.1 hnrole, ?_⟩
  intro l hl
  rw [← pr.reductions] at hl
  obtain ⟨hk, hkrole⟩ := hrole hl
  exact (independent_iff_strides.1 hk).2.2 hkrole

theorem ElementwiseRun.perm (er : ElementwiseRun main run axes) : run.Perm [axes.m, axes.n] := by
  by_cases htr : main = .transpose
  · rcases (er.transpose htr).2.2 with hrun | ⟨hrun, -⟩
    · exact List.Perm.of_eq hrun
    · rw [hrun]
      exact List.Perm.swap _ _ _
  · exact List.Perm.of_eq (er.straight htr).1

theorem ElementwiseRun.stride_in0 (er : ElementwiseRun main run axes) (hzero : main ≠ .zero) :
    axes.m.strides.in0 = 1 := by
  by_cases htr : main = .transpose
  · exact (er.transpose htr).1
  · exact (er.straight htr).2.2.resolve_left hzero

theorem ElementwiseRun.strides_eq (er : ElementwiseRun main run axes) : axes.strides main =
    { lda := axes.n.strides.in0
      ldc := if main = .transpose then axes.m.strides.out else axes.n.strides.out } := by
  rw [KernelAxes.strides, er.noReduction.1]

theorem KernelRun.product (h : KernelRun main run axes) (hproduct : main.isProduct = true) :
    ∃ k, ProductRun main run axes k := by
  rwa [KernelRun, if_pos hproduct] at h

theorem KernelRun.elementwise (h : KernelRun main run axes)
    (helementwise : main.isProduct = false) : ElementwiseRun main run axes := by
  rwa [KernelRun, helementwise, if_neg Bool.false_ne_true] at h

theorem KernelRun.ne_nil (h : KernelRun main run axes) : run ≠ [] := by
  rintro rfl
  cases hproduct : main.isProduct with
  | true =>
    obtain ⟨k, pr⟩ := h.product hproduct
    cases pr.rows
  | false => cases (h.elementwise hproduct).perm.length_eq

end Run

namespace Plan

def placedLoops (c : Contraction) : List PlacedLoop :=
  c.loops.zipIdx.map fun entry => ⟨entry.2, entry.1⟩

theorem map_loop_placedLoops (c : Contraction) : (placedLoops c).map (·.loop) = c.loops := by
  simp only [placedLoops, List.map_map]
  exact List.zipIdx_map_fst 0 c.loops

theorem getElem?_placedLoops (c : Contraction) (i : ℕ) :
    (placedLoops c)[i]? = c.loops[i]?.map (PlacedLoop.mk i) := by
  simp only [placedLoops, List.getElem?_map, List.getElem?_zipIdx, Option.map_map, Nat.zero_add]
  rfl

theorem getElem?_of_mem_placedLoops {c : Contraction} {q : PlacedLoop} (h : q ∈ placedLoops c) :
    c.loops[q.index]? = some q.loop := by
  simp only [placedLoops, List.mem_map] at h
  obtain ⟨⟨l, i⟩, hmem, rfl⟩ := h
  exact (List.mem_zipIdx_iff_getElem?).1 hmem

def kernelOf (c : Contraction) : Except Error (KernelLoops × Strides) :=
  let inner := (placedLoops c).drop c.kernelStart
  if c.main.isProduct then productLoops c.main (placedLoops c) inner
  else elementwiseLoops c.main inner

/-- Everything that is checked of a contraction and derived from it. -/
structure Derived (c : Contraction) (p : Plan) : Prop where
  contraction : p.contraction = c
  dtype : c.dtype = .f32
  main : c.main ≠ .none
  firstTouch : checkTouch c.main .first c.first = .ok ()
  lastTouch : checkTouch c.main .last c.last = .ok ()
  sizes : ∀ l ∈ c.loops, 0 < l.size
  kernelStart : p.kernelStart = c.kernelStart
  trailing : ∀ l ∈ c.loops.drop c.kernelStart, l.isKernel = true
  sharedCount : p.sharedCount = (c.loops.takeWhile fun l => l.exec == .shared).length
  shared : ∀ q ∈ (placedLoops c).take c.kernelStart, checkShared p.sharedCount q = .ok ()
  kernel : kernelOf c = .ok (p.kernelLoops, p.strides)
  extents : extentsOf c.main c.loops = .ok p.extents
  outputDistinct : p.outputDistinct = outputNests c.loops

theorem derived_of_ofContraction {c : Contraction} {p : Plan} (h : ofContraction c = .ok p) :
    Derived c p := by
  unfold ofContraction at h
  simp only [check_bind_eq_ok_iff, require_eq_ok_iff] at h
  obtain ⟨hdtype, hmain, hfirst, hlast, h⟩ := h
  split at h
  · exact (refuse_ne_ok h).elim
  · rename_i hsizes
    simp only [check_bind_eq_ok_iff, require_eq_ok_iff, forM_eq_ok_iff] at h
    obtain ⟨htrailing, hshared, h⟩ := h
    have hkernel : ∃ ids strides, kernelOf c = .ok (ids, strides) ∧ ∃ extents,
        extentsOf c.main c.loops = .ok extents ∧
        p = ⟨c, ids, strides, c.kernelStart, (c.loops.takeWhile fun l => l.exec == .shared).length,
          extents, outputNests c.loops⟩ := by
      unfold kernelOf
      split at h
      · rename_i hproduct
        simp only [bind_eq_ok_iff, pure_eq_ok_iff] at h
        obtain ⟨⟨ids, strides⟩, hk, extents, he, rfl⟩ := h
        exact ⟨ids, strides, by rw [if_pos hproduct]; exact hk, extents, he, rfl⟩
      · rename_i hproduct
        simp only [bind_eq_ok_iff, pure_eq_ok_iff] at h
        obtain ⟨⟨ids, strides⟩, hk, extents, he, rfl⟩ := h
        exact ⟨ids, strides, by rw [if_neg hproduct]; exact hk, extents, he, rfl⟩
    obtain ⟨ids, strides, hk, extents, he, rfl⟩ := hkernel
    refine ⟨rfl, by simpa using hdtype, by simpa using hmain, hfirst, hlast, ?_, rfl, ?_, rfl,
      hshared, hk, he, rfl⟩
    · intro l hl
      have := List.findIdx?_eq_none_iff.1 hsizes l hl
      simp only [beq_eq_false_iff_ne] at this
      omega
    · intro l hl
      rw [← map_loop_placedLoops, ← List.map_drop, List.mem_map] at hl
      obtain ⟨q, hq, rfl⟩ := hl
      exact List.all_eq_true.1 htrailing q hq

theorem ofContraction_of_derived {c : Contraction} {p : Plan} (d : Derived c p) :
    ofContraction c = .ok p := by
  have hsizes : c.loops.findIdx? (fun l => l.size == 0) = none := by
    rw [List.findIdx?_eq_none_iff]
    intro l hl
    have := d.sizes l hl
    rw [beq_eq_false_iff_ne]
    omega
  have htrailing : ((placedLoops c).drop c.kernelStart).all (·.loop.isKernel) = true := by
    rw [List.all_eq_true]
    intro q hq
    apply d.trailing
    rw [← map_loop_placedLoops, ← List.map_drop]
    exact List.mem_map_of_mem hq
  have hshared := forM_eq_ok_iff.2 d.shared
  rw [d.sharedCount] at hshared
  have hp : (⟨c, p.kernelLoops, p.strides, c.kernelStart,
      (c.loops.takeWhile fun l => l.exec == .shared).length, p.extents,
      outputNests c.loops⟩ : Plan) = p := by
    rw [← d.kernelStart, ← d.sharedCount, ← d.outputDistinct]
    cases p
    cases d.contraction
    rfl
  unfold ofContraction
  simp only [check_bind_eq_ok_iff, require_eq_ok_iff, d.dtype, beq_self_eq_true, bne_iff_ne, ne_eq,
    d.main, not_false_eq_true, d.firstTouch, d.lastTouch, true_and, hsizes]
  refine ⟨htrailing, hshared, ?_⟩
  have hkernel := d.kernel
  unfold kernelOf at hkernel
  split at hkernel
  · rename_i hproduct
    rw [if_pos hproduct]
    exact bind_eq_ok_iff.2 ⟨_, hkernel, bind_eq_ok_iff.2 ⟨_, d.extents, pure_eq_ok_iff.2 hp⟩⟩
  · rename_i hproduct
    rw [if_neg hproduct]
    exact bind_eq_ok_iff.2 ⟨_, hkernel, bind_eq_ok_iff.2 ⟨_, d.extents, pure_eq_ok_iff.2 hp⟩⟩

theorem spanOf_eq_ok_iff {loops : List Loop} {stride : Offsets → ℕ} {total : ℕ}
    (hsizes : ∀ l ∈ loops, 0 < l.size) :
    spanOf loops stride = .ok total ↔
      total = 1 + (loops.map fun l => (l.size - 1) * stride l.strides).sum ∧
        total < Count.limit := by
  have hspan : spanOf loops stride = .ok total ↔
      Count.span 1 (loops.map fun l => (l.size, stride l.strides)) = some total := by
    unfold spanOf
    split
    · rename_i n hn
      rw [hn, Except.ok.injEq, Option.some_inj]
    · rename_i hn
      rw [hn]
      exact ⟨fun h => (refuse_ne_ok h).elim, fun h => by cases h⟩
  have haxes : ∀ axis ∈ loops.map (fun l => (l.size, stride l.strides)), 0 < axis.1 := by
    simpa using hsizes
  rw [hspan, Count.span_eq_some_iff Nat.one_pos haxes, List.map_map]
  refine and_congr_right fun htotal => ?_
  cases loops with
  | nil => simp [htotal, Count.limit]
  | cons l loops => simp

theorem Derived.extents_eq {c : Contraction} {p : Plan} (d : Derived c p) :
    p.extents = ⟨if c.main = .zero then 0 else (Nest.reach c.loops).in0 + 1,
      if c.main.elementwise?.isSome then 0 else (Nest.reach c.loops).in1 + 1,
      (Nest.reach c.loops).out + 1⟩ ∧
    (Nest.reach c.loops + ⟨1, 1, 1⟩).Fits := by
  have h := d.extents
  simp only [extentsOf, bind_eq_ok_iff, pure_eq_ok_iff] at h
  obtain ⟨in0, h0, in1, h1, out, h2, h⟩ := h
  obtain ⟨rfl, hlt0⟩ := (spanOf_eq_ok_iff d.sizes).1 h0
  obtain ⟨rfl, hlt1⟩ := (spanOf_eq_ok_iff d.sizes).1 h1
  obtain ⟨rfl, hlt2⟩ := (spanOf_eq_ok_iff d.sizes).1 h2
  have in0 := Nest.reach_get c.loops .in0
  have in1 := Nest.reach_get c.loops .in1
  have out := Nest.reach_get c.loops .out
  simp only [Offsets.get] at in0 in1 out
  rw [← in0, Nat.add_comm] at hlt0
  rw [← in1, Nat.add_comm] at hlt1
  rw [← out, Nat.add_comm] at hlt2
  rw [← h, ← in0, ← in1, ← out, Nat.add_comm 1, Nat.add_comm 1, Nat.add_comm 1]
  exact ⟨rfl, hlt0, hlt1, hlt2⟩

def withRole (role : Role) (loops : List PlacedLoop) : List PlacedLoop :=
  loops.filter fun q => q.loop.role == role

theorem withRole_cons (role : Role) (q : PlacedLoop) (loops : List PlacedLoop) :
    withRole role (q :: loops) =
      if q.loop.role = role then q :: withRole role loops else withRole role loops := by
  simp [withRole, List.filter_cons]

theorem map_loop_withRole (role : Role) (inner : List PlacedLoop) :
    (withRole role inner).map (·.loop) = ofRoles (· == role) (inner.map (·.loop)) := by
  rw [withRole, ofRoles, List.filter_map]
  rfl

theorem foldlM_add {inner : List PlacedLoop} {f g : Found} (h : inner.foldlM Found.add f = .ok g) :
    g.m.toList = f.m.toList ++ withRole .m inner ∧ g.n.toList = f.n.toList ++ withRole .n inner ∧
      g.ks = f.ks ++ withRole .k inner ∧ withRole .c inner = [] := by
  induction inner generalizing f with
  | nil =>
    cases h
    simp [withRole]
  | cons q inner ih =>
    rw [List.foldlM_cons, bind_eq_ok_iff] at h
    obtain ⟨f', hadd, h⟩ := h
    obtain ⟨hm, hn, hk, hc⟩ := ih h
    rw [hm, hn, hk]
    unfold Found.add at hadd
    split at hadd
    · rename_i hrole
      split_ifs at hadd with hsome
      · exact (refuse_ne_ok hadd).elim
      · cases hadd
        have hnone : f.m = none := by simpa using hsome
        simp [withRole_cons, hrole, hnone, hc]
    · rename_i hrole
      split_ifs at hadd with hsome
      · exact (refuse_ne_ok hadd).elim
      · cases hadd
        have hnone : f.n = none := by simpa using hsome
        simp [withRole_cons, hrole, hnone, hc]
    · rename_i hrole
      cases hadd
      simp [withRole_cons, hrole, hc]
    · exact (refuse_ne_ok hadd).elim

theorem of_reductions {main : Primitive} {ks : List PlacedLoop} {k : PlacedLoop}
    {batch : Option PlacedLoop} (h : reductions main ks = .ok (k, batch)) :
    ks = batch.toList ++ [k] ∧ batch.isSome = (main == .brgemm) := by
  unfold reductions at h
  split at h
  · cases h
    exact ⟨rfl, rfl⟩
  · cases h
    exact ⟨rfl, rfl⟩
  · exact (refuse_ne_ok h).elim
  · exact (refuse_ne_ok h).elim

theorem run_of_productLoops {main : Primitive} {placed inner : List PlacedLoop} {ids : KernelLoops}
    {strides : Strides} (h : productLoops main placed inner = .ok (ids, strides)) :
    (∃ k, ProductRun main (inner.map (·.loop)) ids.axes k) ∧ strides = ids.axes.strides main ∧
      ids.toList ⊆ inner ∧ ∀ q ∈ placed, independent q.loop = true := by
  unfold productLoops at h
  obtain ⟨found, hfound, h⟩ := bind_eq_ok_iff.1 h
  obtain ⟨hm, hn, hk, hc⟩ := foldlM_add hfound
  split at h
  · rename_i m n hfm hfn
    obtain ⟨⟨k, batch⟩, hred, h⟩ := bind_eq_ok_iff.1 h
    dsimp only at h
    split at h
    · exact (refuse_ne_ok h).elim
    · rename_i hfind
      simp only [check_bind_eq_ok_iff, require_eq_ok_iff, pure_eq_ok_iff, Bool.and_eq_true,
        beq_iff_eq] at h
      obtain ⟨hrow, hdepth, h⟩ := h
      cases h
      obtain ⟨hks, hbatch⟩ := of_reductions hred
      simp only [hfm, hfn, hks, Option.toList_some, Option.toList_none, List.nil_append] at hm hn hk
      have hroles (role : Role) := map_loop_withRole role inner
      refine ⟨⟨k.loop, rfl, ?_, ?_, ?_, ?_, ?_, hrow, hdepth⟩, ?_, ?_, ?_⟩
      · rw [← hroles, ← hm]
        rfl
      · rw [← hroles, ← hn]
        rfl
      · rw [← hroles, ← hk]
        cases batch <;> rfl
      · rw [← hroles, hc]
        rfl
      · rw [← hbatch]
        exact Option.isSome_map
      · simp only [KernelAxes.strides, KernelLoops.axes, Option.map_some, Option.map_map]
        rfl
      · intro q hq
        have hfound : q ∈ withRole .m inner ∨ q ∈ withRole .n inner ∨ q ∈ withRole .k inner := by
          rw [← hm, ← hn, ← hk]
          simp only [KernelLoops.toList, Option.toList_some, List.mem_cons, List.mem_append,
            List.not_mem_nil, or_false] at hq ⊢
          tauto
        rcases hfound with hq | hq | hq <;> exact List.mem_of_mem_filter hq
      · intro q hq
        simpa using List.find?_eq_none.1 hfind q hq
  · exact (refuse_ne_ok h).elim

theorem run_of_elementwiseLoops {main : Primitive} {inner : List PlacedLoop} {ids : KernelLoops}
    {strides : Strides} (h : elementwiseLoops main inner = .ok (ids, strides)) :
    ElementwiseRun main (inner.map (·.loop)) ids.axes ∧ strides = ids.axes.strides main ∧
      ids.toList ⊆ inner := by
  unfold elementwiseLoops at h
  split at h
  · rename_i a b
    split_ifs at h with htr hunit
    · simp only [check_bind_eq_ok_iff, require_eq_ok_iff, pure_eq_ok_iff, Bool.and_eq_true,
        beq_iff_eq] at h
      obtain ⟨hs, h⟩ := h
      cases h
      refine ⟨⟨⟨rfl, rfl⟩, fun hne => (hne htr).elim, fun _ => ⟨hs.1, hs.2, Or.inl rfl⟩⟩, ?_,
        List.Subset.refl _⟩
      simp [KernelAxes.strides, KernelLoops.axes, htr]
    · simp only [check_bind_eq_ok_iff, require_eq_ok_iff, pure_eq_ok_iff, Bool.and_eq_true,
        beq_iff_eq] at h
      obtain ⟨hs, h⟩ := h
      cases h
      refine ⟨⟨⟨rfl, rfl⟩, fun hne => (hne htr).elim,
        fun _ => ⟨hs.1, hs.2, Or.inr ⟨rfl, hunit⟩⟩⟩, ?_, (List.Perm.swap a b []).subset⟩
      simp [KernelAxes.strides, KernelLoops.axes, htr]
    · simp only [check_bind_eq_ok_iff, require_eq_ok_iff, pure_eq_ok_iff, Bool.and_eq_true,
        Bool.or_eq_true, beq_iff_eq] at h
      obtain ⟨⟨hout, hin⟩, h⟩ := h
      cases h
      refine ⟨⟨⟨rfl, rfl⟩, fun _ => ⟨rfl, hout, hin⟩, fun heq => (htr heq).elim⟩, ?_,
        List.Subset.refl _⟩
      simp [KernelAxes.strides, KernelLoops.axes, htr]
  · exact (refuse_ne_ok h).elim

namespace Derived

variable {c : Contraction} {p : Plan}

theorem innerLoops (d : Derived c p) :
    ((placedLoops c).drop c.kernelStart).map (·.loop) = c.loops.drop p.kernelStart := by
  rw [List.map_drop, map_loop_placedLoops, d.kernelStart]

/-- What the kernel of a plan takes from the loops of its contraction. -/
theorem taken (d : Derived c p) :
    KernelRun c.main (c.loops.drop p.kernelStart) p.kernelLoops.axes ∧
      p.strides = p.kernelLoops.axes.strides c.main ∧ p.kernelLoops.toList ⊆ placedLoops c ∧
      (c.main.isProduct = true → ∀ q ∈ placedLoops c, Plan.independent q.loop = true) := by
  have hinner := List.drop_subset c.kernelStart (placedLoops c)
  have hkernel := d.kernel
  rw [← d.innerLoops, KernelRun]
  unfold kernelOf at hkernel
  split_ifs at hkernel ⊢ with hproduct
  · obtain ⟨hrun, hstrides, hplaces, hindependent⟩ := run_of_productLoops hkernel
    exact ⟨hrun, hstrides, List.Subset.trans hplaces hinner, fun _ => hindependent⟩
  · obtain ⟨hrun, hstrides, hplaces⟩ := run_of_elementwiseLoops hkernel
    exact ⟨hrun, hstrides, List.Subset.trans hplaces hinner, fun h => absurd h hproduct⟩

theorem run (d : Derived c p) :
    KernelRun c.main (c.loops.drop p.kernelStart) p.kernelLoops.axes := d.taken.1

theorem strides_eq (d : Derived c p) : p.strides = p.kernelLoops.axes.strides c.main := d.taken.2.1

theorem independent (d : Derived c p) (hproduct : c.main.isProduct = true) :
    ∀ l ∈ c.loops, Plan.independent l = true := by
  intro l hl
  rw [← map_loop_placedLoops, List.mem_map] at hl
  obtain ⟨q, hq, rfl⟩ := hl
  exact d.taken.2.2.2 hproduct q hq

theorem stride_out_reduction (d : Derived c p) (hproduct : c.main.isProduct = true) :
    ∀ l ∈ c.loops, l.role = .k → l.strides.out = 0 := fun l hl =>
  (independent_iff_strides.1 (d.independent hproduct l hl)).2.2

end Derived

end Plan

end TensorKernels
