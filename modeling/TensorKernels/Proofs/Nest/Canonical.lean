import TensorKernels.Proofs.Nest.Plan

/-!
The contractions that are accepted, said without positions. A regular contraction has a supported
type, kernels that go together, no empty loop and spans that fit a count. It is canonical if its
shared loops lead, sequential loops follow and a run of kernel loops closes the list in which every
loop of the kernel is found. A plan is derived exactly of the canonical contractions, and what it hands
to the kernel is read off the loops found.
-/

namespace TensorKernels

open Nest

def Nest.span (loops : List Loop) (operand : Operand) : ℕ :=
  1 + (loops.map fun l => (l.size - 1) * l.strides.get operand).sum

theorem Nest.span_eq (loops : List Loop) (operand : Operand) :
    span loops operand = (reach loops).get operand + 1 := by
  rw [span, reach_get, Nat.add_comm]

def Primitive.MaySurround (kind main : Primitive) : Prop :=
  kind.surrounds = true ∧ (kind = .none ∨ main.isProduct = true)

namespace Contraction

/-- What a contraction has to satisfy in whichever way its loops are arranged. -/
structure Regular (c : Contraction) : Prop where
  dtype : c.dtype = .f32
  main : c.main ≠ .none
  first : c.first.MaySurround c.main
  last : c.last.MaySurround c.main
  sizes : ∀ l ∈ c.loops, 0 < l.size
  independent : c.main.isProduct = true → ∀ l ∈ c.loops, Plan.independent l = true
  fits : ∀ operand, span c.loops operand < Count.limit

structure Canonical (c : Contraction) (shared sequential run : List Loop) (axes : KernelAxes) :
    Prop where
  regular : c.Regular
  loops : c.loops = shared ++ (sequential ++ run)
  shared : ∀ l ∈ shared, l.exec = .shared ∧ l.role ≠ .k ∧ l.strides.out ≠ 0
  sequential : ∀ l ∈ sequential, l.exec = .seq
  kernel : ∀ l ∈ run, l.exec = .prim
  axes : KernelRun c.main run axes

end Contraction

namespace Plan

theorem checkTouch_eq_ok_iff {main kind : Primitive} {touch : Touch} :
    checkTouch main touch kind = .ok () ↔ kind.MaySurround main := by
  unfold checkTouch
  rw [check_bind_eq_ok_iff, require_eq_ok_iff, require_eq_ok_iff, Bool.or_eq_true, beq_iff_eq]
  rfl

theorem checkShared_eq_ok_iff {shared : ℕ} {q : PlacedLoop} :
    checkShared shared q = .ok () ↔ (q.loop.exec = .shared →
      q.index < shared ∧ q.loop.role ≠ .k ∧ q.loop.strides.out ≠ 0) := by
  unfold checkShared
  dsimp only
  split
  · rename_i hexec
    rw [check_bind_eq_ok_iff, require_eq_ok_iff, require_eq_ok_iff]
    simp_all
  · rename_i hexec
    simp only [beq_iff_eq] at hexec
    simp [hexec, pure, Except.pure]

theorem exists_foldlM_add {inner : List PlacedLoop} {f : Found}
    (hm : (f.m.toList ++ withRole .m inner).length ≤ 1)
    (hn : (f.n.toList ++ withRole .n inner).length ≤ 1) (hc : withRole .c inner = []) :
    ∃ g, inner.foldlM Found.add f = .ok g := by
  induction inner generalizing f with
  | nil => exact ⟨f, rfl⟩
  | cons q inner ih =>
    rw [withRole_cons] at hm hn hc
    cases hrole : q.loop.role with
    | m =>
      simp only [hrole, if_true, reduceCtorEq, if_false, List.length_append, List.length_cons] at hm hn hc
      have hnone : f.m = none := by
        cases hf : f.m with
        | none => rfl
        | some x => simp [hf] at hm
      rw [List.foldlM_cons, Found.add, hrole]
      simp only [hnone, Option.isSome_none, Bool.false_eq_true, if_false]
      refine @ih { f with m := some q } ?_ (by simpa using hn) hc
      rw [Option.toList_some, List.length_append, List.length_singleton]
      omega
    | n =>
      simp only [hrole, if_true, reduceCtorEq, if_false, List.length_append, List.length_cons] at hm hn hc
      have hnone : f.n = none := by
        cases hf : f.n with
        | none => rfl
        | some x => simp [hf] at hn
      rw [List.foldlM_cons, Found.add, hrole]
      simp only [hnone, Option.isSome_none, Bool.false_eq_true, if_false]
      refine @ih { f with n := some q } (by simpa using hm) ?_ hc
      rw [Option.toList_some, List.length_append, List.length_singleton]
      omega
    | k =>
      simp only [hrole, reduceCtorEq, if_false] at hm hn hc
      rw [List.foldlM_cons, Found.add, hrole]
      exact @ih { f with ks := f.ks ++ [q] } hm hn hc
    | c => simp [hrole] at hc

theorem reductions_eq_ok {main : Primitive} {k : PlacedLoop} {batch : Option PlacedLoop}
    (hproduct : main.isProduct = true) (hbatch : batch.isSome = (main == .brgemm)) :
    reductions main (batch.toList ++ [k]) = .ok (k, batch) := by
  cases main with
  | gemm =>
    cases batch with
    | none => rfl
    | some b => cases hbatch
  | brgemm =>
    cases batch with
    | none => cases hbatch
    | some b => rfl
  | _ => cases hproduct

theorem productLoops_of_run {main : Primitive} {placed inner : List PlacedLoop} {axes : KernelAxes}
    {k : Loop} (hproduct : main.isProduct = true)
    (pr : ProductRun main (inner.map (·.loop)) axes k)
    (hindependent : ∀ q ∈ placed, independent q.loop = true) :
    ∃ ids, productLoops main placed inner = .ok (ids, axes.strides main) ∧ ids.axes = axes := by
  obtain ⟨hreduction, hrows, hcolumns, hreductions, hnone, hbatch, hrow, hdepth⟩ := pr
  rw [← map_loop_withRole] at hrows hcolumns hreductions hnone
  obtain ⟨m, hm, hm'⟩ := List.map_eq_singleton_iff.1 hrows
  obtain ⟨n, hn, hn'⟩ := List.map_eq_singleton_iff.1 hcolumns
  obtain ⟨first, last, hk, hfirst, hlast⟩ := List.map_eq_append_iff.1 hreductions
  obtain ⟨q, rfl, hq⟩ := List.map_eq_singleton_iff.1 hlast
  obtain ⟨batch, rfl, hbatch'⟩ : ∃ batch : Option PlacedLoop, first = batch.toList ∧
      batch.map (·.loop) = axes.batch := by
    cases hb : axes.batch with
    | none =>
      rw [hb, Option.toList_none, List.map_eq_nil_iff] at hfirst
      exact ⟨none, hfirst, rfl⟩
    | some b =>
      rw [hb, Option.toList_some, List.map_eq_singleton_iff] at hfirst
      obtain ⟨x, hx, hloop⟩ := hfirst
      exact ⟨some x, hx, by rw [Option.map_some, hloop]⟩
  obtain ⟨found, hfound⟩ : ∃ g, inner.foldlM Found.add {} = .ok g := by
    apply exists_foldlM_add
    · simp [hm]
    · simp [hn]
    · exact List.map_eq_nil_iff.1 hnone
  obtain ⟨hfm, hfn, hfk, -⟩ := foldlM_add hfound
  simp only [Option.toList_none, List.nil_append, hm, hn, hk] at hfm hfn hfk
  have hfm : found.m = some m := Option.toList_eq_singleton_iff.1 hfm
  have hfn : found.n = some n := Option.toList_eq_singleton_iff.1 hfn
  have hbatch : batch.isSome = (main == .brgemm) := by rw [← hbatch, ← hbatch', Option.isSome_map]
  have hstray : placed.find? (fun p => !independent p.loop) = none := by
    rw [List.find?_eq_none]
    intro p hp
    simp [hindependent p hp]
  refine ⟨⟨m, n, some q, batch⟩, ?_, ?_⟩
  · unfold productLoops
    refine bind_eq_ok_iff.2 ⟨found, hfound, ?_⟩
    simp only [hfm, hfn, hfk, reductions_eq_ok hproduct hbatch, hstray]
    refine bind_eq_ok_iff.2 ⟨_, rfl, ?_⟩
    simp only [check_bind_eq_ok_iff, require_eq_ok_iff, Bool.and_eq_true, beq_iff_eq, hm', hq,
      hrow, hdepth, true_and, and_self, pure_eq_ok_iff, Prod.mk.injEq]
    rw [KernelAxes.strides, hreduction]
    simp only [← hn', ← hbatch', Option.map_map]
    rfl
  · rw [KernelLoops.axes, hm', hn', Option.map_some, hq, hbatch', ← hreduction]

theorem elementwiseLoops_of_run {main : Primitive} {inner : List PlacedLoop} {axes : KernelAxes}
    (er : ElementwiseRun main (inner.map (·.loop)) axes) :
    ∃ ids, elementwiseLoops main inner = .ok (ids, axes.strides main) ∧ ids.axes = axes := by
  obtain ⟨m, n, k, batch⟩ := axes
  obtain ⟨hk, hbatch⟩ := er.noReduction
  dsimp only at hk hbatch
  subst hk hbatch
  have two {x y : Loop} (h : inner.map (·.loop) = [x, y]) :
      ∃ a b : PlacedLoop, inner = [a, b] ∧ a.loop = x ∧ b.loop = y := by
    match inner, h with
    | [a, b], h =>
      simp only [List.map_cons, List.map_nil, List.cons.injEq, and_true] at h
      exact ⟨a, b, rfl, h⟩
  by_cases htr : main = .transpose
  · obtain ⟨hin, hout, hrun⟩ := er.transpose htr
    dsimp only at hin hout hrun
    rcases hrun with hrun | ⟨hrun, hother⟩
    · obtain ⟨a, b, rfl, rfl, rfl⟩ := two hrun
      refine ⟨⟨a, b, none, none⟩, ?_, rfl⟩
      simp [elementwiseLoops, htr, hin, hout, require, KernelAxes.strides, bind, Except.bind, pure,
        Except.pure]
    · obtain ⟨b, a, rfl, rfl, rfl⟩ := two hrun
      refine ⟨⟨a, b, none, none⟩, ?_, rfl⟩
      simp [elementwiseLoops, htr, hin, hout, hother, require, KernelAxes.strides, bind, Except.bind,
        pure, Except.pure]
  · obtain ⟨hrun, hout, hin⟩ := er.straight htr
    obtain ⟨a, b, rfl, rfl, rfl⟩ := two hrun
    refine ⟨⟨a, b, none, none⟩, ?_, rfl⟩
    simp only [elementwiseLoops, if_neg htr, check_bind_eq_ok_iff, require_eq_ok_iff,
      pure_eq_ok_iff, Bool.and_eq_true, Bool.or_eq_true, beq_iff_eq]
    exact ⟨⟨hout, hin⟩, by simp [KernelAxes.strides, htr]⟩

theorem kernelOf_of_run {c : Contraction} {axes : KernelAxes}
    (hrun : KernelRun c.main (c.loops.drop c.kernelStart) axes)
    (hindependent : c.main.isProduct = true → ∀ l ∈ c.loops, independent l = true) :
    ∃ ids, kernelOf c = .ok (ids, axes.strides c.main) ∧ ids.axes = axes := by
  rw [← map_loop_placedLoops, ← List.map_drop] at hrun
  unfold KernelRun at hrun
  unfold kernelOf
  split at hrun
  · rename_i hproduct
    obtain ⟨k, pr⟩ := hrun
    rw [if_pos hproduct]
    refine productLoops_of_run hproduct pr fun q hq => hindependent hproduct q.loop ?_
    rw [← map_loop_placedLoops]
    exact List.mem_map_of_mem hq
  · rename_i hproduct
    rw [if_neg hproduct]
    exact elementwiseLoops_of_run hrun

end Plan

namespace Contraction

open Plan

section Arrangement

variable {c : Contraction} {shared sequential run : List Loop}
  (hloops : c.loops = shared ++ (sequential ++ run)) (hshared : ∀ l ∈ shared, l.exec = .shared)
  (hsequential : ∀ l ∈ sequential, l.exec = .seq) (hkernel : ∀ l ∈ run, l.exec = .prim)
include hloops hshared hsequential hkernel

theorem kernelStart_eq : c.kernelStart = (shared ++ sequential).length := by
  have houter : ∀ l ∈ shared ++ sequential, l.isKernel = false := by
    intro l hl
    rcases List.mem_append.1 hl with hl | hl
    · simp [Loop.isKernel, hshared l hl]
    · simp [Loop.isKernel, hsequential l hl]
  have hrun : run.findIdx Loop.isKernel = 0 := by
    cases run with
    | nil => rfl
    | cons l rest => simp [List.findIdx_cons, Loop.isKernel, hkernel l List.mem_cons_self]
  rw [kernelStart, hloops, ← List.append_assoc, List.findIdx_append,
    List.findIdx_eq_length_of_false houter, if_neg (Nat.lt_irrefl _), hrun, Nat.zero_add]

theorem drop_kernelStart_eq : c.loops.drop c.kernelStart = run := by
  rw [kernelStart_eq hloops hshared hsequential hkernel, hloops, ← List.append_assoc,
    List.drop_left]

theorem takeWhile_shared_eq : (c.loops.takeWhile fun l => l.exec == .shared) = shared := by
  have hrest : (sequential ++ run).takeWhile (fun l => l.exec == .shared) = [] := by
    cases hcase : sequential ++ run with
    | nil => rfl
    | cons l rest =>
      have hl : l ∈ sequential ++ run := by simp [hcase]
      rw [List.takeWhile_cons, if_neg]
      rcases List.mem_append.1 hl with hl | hl
      · simp [hsequential l hl]
      · simp [hkernel l hl]
  rw [hloops, List.takeWhile_append_of_pos (by simpa using hshared), hrest, List.append_nil]

end Arrangement

theorem extentsOf_eq_ok {loops : List Loop} (main : Primitive) (hsizes : ∀ l ∈ loops, 0 < l.size)
    (hfits : ∀ operand, span loops operand < Count.limit) :
    ∃ extents, extentsOf main loops = .ok extents := by
  simp only [extentsOf, bind_eq_ok_iff, spanOf_eq_ok_iff hsizes]
  exact ⟨_, _, ⟨rfl, hfits .in0⟩, _, ⟨rfl, hfits .in1⟩, _, ⟨rfl, hfits .out⟩, rfl⟩

/-- A canonical contraction is accepted, and its kernel takes the loops found in its run. -/
theorem Canonical.accepted {c : Contraction} {shared sequential run : List Loop} {axes : KernelAxes}
    (h : Canonical c shared sequential run axes) :
    ∃ p, ofContraction c = .ok p ∧ p.kernelLoops.axes = axes ∧ p.strides = axes.strides c.main := by
  have hshared (l : Loop) (hl : l ∈ shared) : l.exec = .shared := (h.shared l hl).1
  have hdrop := drop_kernelStart_eq h.loops hshared h.sequential h.kernel
  have hcount := takeWhile_shared_eq h.loops hshared h.sequential h.kernel
  have hrun := h.axes
  rw [← hdrop] at hrun
  obtain ⟨ids, hkernel, haxes⟩ := kernelOf_of_run hrun h.regular.independent
  obtain ⟨extents, hextents⟩ := extentsOf_eq_ok c.main h.regular.sizes h.regular.fits
  refine ⟨⟨c, ids, axes.strides c.main, c.kernelStart, shared.length, extents, outputNests c.loops⟩,
    ofContraction_of_derived ⟨rfl, h.regular.dtype, h.regular.main,
      checkTouch_eq_ok_iff.2 h.regular.first, checkTouch_eq_ok_iff.2 h.regular.last,
      h.regular.sizes, rfl, ?_, by rw [hcount], ?_, hkernel, hextents, rfl⟩, haxes, rfl⟩
  · intro l hl
    rw [hdrop] at hl
    simp [Loop.isKernel, h.kernel l hl]
  · intro q hq
    rw [checkShared_eq_ok_iff]
    intro hexec
    have hget := getElem?_of_mem_placedLoops (List.mem_of_mem_take hq)
    rw [h.loops] at hget
    by_cases hindex : q.index < shared.length
    · rw [List.getElem?_append_left hindex] at hget
      exact ⟨hindex, (h.shared q.loop (List.mem_of_getElem? hget)).2⟩
    · rw [List.getElem?_append_right (by omega)] at hget
      rcases List.mem_append.1 (List.mem_of_getElem? hget) with hl | hl
      · simp [h.sequential q.loop hl] at hexec
      · simp [h.kernel q.loop hl] at hexec

end Contraction

namespace Plan

theorem Derived.regular {c : Contraction} {p : Plan} (d : Derived c p) : c.Regular := by
  refine ⟨d.dtype, d.main, checkTouch_eq_ok_iff.1 d.firstTouch, checkTouch_eq_ok_iff.1 d.lastTouch,
    d.sizes, d.independent, fun operand => ?_⟩
  obtain ⟨-, hin0, hin1, hout⟩ := d.extents_eq
  rw [span_eq]
  cases operand with
  | in0 => exact hin0
  | in1 => exact hin1
  | out => exact hout

theorem Derived.canonical {c : Contraction} {p : Plan} (d : Derived c p) :
    ∃ shared sequential run, c.Canonical shared sequential run p.kernelLoops.axes := by
  let outer := c.loops.take c.kernelStart
  let run := c.loops.drop c.kernelStart
  have hloops : c.loops = outer ++ run := (List.take_append_drop _ _).symm
  have hkernel : ∀ l ∈ run, l.exec = .prim := by
    intro l hl
    simpa [Loop.isKernel] using d.trailing l hl
  have houter : ∀ l ∈ outer, l.exec ≠ .prim := by
    intro l hl
    obtain ⟨i, hi, rfl⟩ := List.mem_take_iff_getElem.1 hl
    have hnot := List.not_of_lt_findIdx (Nat.lt_of_lt_of_le hi (Nat.min_le_left _ _))
    simpa [Loop.isKernel] using hnot
  let shared := outer.takeWhile fun l => l.exec == .shared
  let sequential := outer.dropWhile fun l => l.exec == .shared
  have hsplit : shared ++ sequential = outer := List.takeWhile_append_dropWhile
  have hexec : ∀ l ∈ shared, l.exec = .shared := by
    intro l hl
    simpa using List.all_eq_true.1 List.all_takeWhile l hl
  have hcount : p.sharedCount = shared.length := by
    have hrun : run.takeWhile (fun l => l.exec == .shared) = [] := by
      cases hcase : run with
      | nil => rfl
      | cons l rest => simp [hkernel l (by simp [hcase])]
    rw [d.sharedCount, hloops, List.takeWhile_append, hrun, List.append_nil]
    split
    · rename_i hall
      exact hall.symm
    · rfl
  -- a loop of the outer part is checked at its position, which counts from the shared loops on
  have hcheck : ∀ i l, outer[i]? = some l → l.exec = .shared →
      i < shared.length ∧ l.role ≠ .k ∧ l.strides.out ≠ 0 := by
    intro i l hget
    rw [← hcount]
    refine checkShared_eq_ok_iff.1 (d.shared ⟨i, l⟩ ?_)
    have hi : i < c.kernelStart := by
      have hlt := (List.getElem?_eq_some_iff.1 hget).1
      rw [List.length_take] at hlt
      omega
    rw [List.getElem?_take_of_lt hi] at hget
    apply List.mem_of_getElem?
    rw [List.getElem?_take_of_lt hi, getElem?_placedLoops, hget]
    rfl
  have hrun := d.run
  rw [d.kernelStart] at hrun
  refine ⟨shared, sequential, run, d.regular, ?_, ?_, ?_, hkernel, hrun⟩
  · rw [← List.append_assoc, hsplit]
    exact hloops
  · intro l hl
    obtain ⟨i, hget⟩ := List.mem_iff_getElem?.1 hl
    have hget' : outer[i]? = some l := by
      rw [← hsplit, List.getElem?_append_left (List.getElem?_eq_some_iff.1 hget).1]
      exact hget
    exact ⟨hexec l hl, (hcheck i l hget' (hexec l hl)).2⟩
  · intro l hl
    obtain ⟨i, hget⟩ := List.mem_iff_getElem?.1 hl
    have hget' : outer[shared.length + i]? = some l := by
      rw [← hsplit, List.getElem?_append_right (Nat.le_add_right _ _), Nat.add_sub_cancel_left]
      exact hget
    have hnot : l.exec ≠ .shared := by
      intro hshared
      have hlt := (hcheck _ l hget' hshared).1
      omega
    cases hl' : l.exec with
    | seq => rfl
    | prim => exact absurd hl' (houter l (List.mem_of_getElem? hget'))
    | shared => exact absurd hl' hnot

end Plan

end TensorKernels
