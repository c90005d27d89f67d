import TensorKernels.Proofs.Nest.Canonical

/-!
Which contractions are accepted. Well-formedness is said of the contraction alone: the kinds of its
kernels, the sizes and strides of its loops, and the three parts that its list of loops falls into. A
plan is derived exactly of the well-formed contractions, and for any other one a parameter is refused.
-/

namespace TensorKernels

open Nest

namespace Contraction

/-- The loops of a product's kernel, in any order: one row loop, contiguous in the first input and in
the output, one column loop, and `depth` reductions, the last of them contiguous in the second input. -/
structure TakesProduct (depth : ℕ) (run : List Loop) : Prop where
  rows : ∃ m, ofRoles (· == .m) run = [m] ∧ m.strides.in0 = 1 ∧ m.strides.out = 1
  columns : ∃ n, ofRoles (· == .n) run = [n]
  reductions : ∃ before k, ofRoles (· == .k) run = before ++ [k] ∧ before.length + 1 = depth ∧
    k.strides.in1 = 1
  noCommon : ∀ l ∈ run, l.role ≠ .c

/-- The loops of an elementwise kernel. A transpose takes for its rows the first loop if that is
contiguous in the input, and otherwise the second. -/
def TakesElementwise (main : Primitive) (a b : Loop) : Prop :=
  match main with
  | .copy | .relu => a.strides.in0 = 1 ∧ a.strides.out = 1
  | .zero => a.strides.out = 1
  | .transpose =>
    let (m, n) := if a.strides.in0 = 1 then (a, b) else (b, a)
    m.strides.in0 = 1 ∧ n.strides.out = 1
  | .none | .gemm | .brgemm => False

def TakesRun (main : Primitive) (run : List Loop) : Prop :=
  match main with
  | .gemm => TakesProduct 1 run
  | .brgemm => TakesProduct 2 run
  | _ => ∃ a b, run = [a, b] ∧ TakesElementwise main a b

structure WellFormed (c : Contraction) : Prop where
  dtype : c.dtype = .f32
  main : c.main ≠ .none
  touches : ∀ kind ∈ [c.first, c.last], kind ∈ [Primitive.none, .zero, .copy, .relu] ∧
    (kind ≠ .none → c.main = .gemm ∨ c.main = .brgemm)
  sizes : ∀ l ∈ c.loops, 1 ≤ l.size
  spans : ∀ operand, 1 + (c.loops.map fun l => (l.size - 1) * l.strides.get operand).sum < 2 ^ 64
  noStray : c.main = .gemm ∨ c.main = .brgemm → ∀ l ∈ c.loops,
    (l.role = .m → l.strides.in1 = 0) ∧ (l.role = .n → l.strides.in0 = 0) ∧
      (l.role = .k → l.strides.out = 0)
  parts : ∃ shared sequential run, c.loops = shared ++ (sequential ++ run) ∧
    (∀ l ∈ shared, l.exec = .shared ∧ l.role ≠ .k ∧ l.strides.out ≠ 0) ∧
    (∀ l ∈ sequential, l.exec = .seq) ∧ (∀ l ∈ run, l.exec = .prim) ∧ TakesRun c.main run

theorem isProduct_iff {main : Primitive} : main.isProduct = true ↔ main = .gemm ∨ main = .brgemm := by
  cases main <;> simp [Primitive.isProduct]

theorem maySurround_iff {kind main : Primitive} :
    kind.MaySurround main ↔ kind ∈ [Primitive.none, .zero, .copy, .relu] ∧
      (kind ≠ .none → main = .gemm ∨ main = .brgemm) := by
  rw [Primitive.MaySurround, isProduct_iff]
  cases kind <;> simp [Primitive.surrounds]

theorem exists_productRun_iff {main : Primitive} {run : List Loop} :
    (∃ axes k, ProductRun main run axes k) ↔ TakesProduct (if main = .brgemm then 2 else 1) run := by
  constructor
  · rintro ⟨axes, k, pr⟩
    refine ⟨⟨axes.m, pr.rows, pr.rowStrides⟩, ⟨axes.n, pr.columns⟩, ?_, ?_⟩
    · refine ⟨axes.batch.toList, k, pr.reductions, ?_, pr.reductionStride⟩
      have hbatch := pr.batch
      cases hb : axes.batch <;> simp_all
    · intro l hl hrole
      have hmem : l ∈ ofRoles (· == .c) run := List.mem_filter.2 ⟨hl, by simp [hrole]⟩
      rw [pr.noShared] at hmem
      cases hmem
  · rintro ⟨⟨m, hrows, hrow⟩, ⟨n, hcolumns⟩, ⟨before, k, hreductions, hdepth, hunit⟩, hnone⟩
    have hcommon : ofRoles (· == .c) run = [] := by
      rw [ofRoles, List.filter_eq_nil_iff]
      intro l hl
      simpa using hnone l hl
    -- the reductions before the last are the batch, if there is one
    obtain ⟨batch, rfl, hbatch⟩ : ∃ batch : Option Loop, before = batch.toList ∧
        batch.isSome = (main == .brgemm) := by
      obtain _ | ⟨b, _ | ⟨_, _⟩⟩ := before
      · exact ⟨none, rfl, by split at hdepth <;> simp_all⟩
      · exact ⟨some b, rfl, by split at hdepth <;> simp_all⟩
      · split at hdepth <;> simp at hdepth
    exact ⟨⟨m, n, some k, batch⟩, k, rfl, hrows, hcolumns, hreductions, hcommon, hbatch, hrow, hunit⟩

theorem exists_elementwiseRun_iff {main : Primitive} {run : List Loop} (hmain : main ≠ .none)
    (helementwise : main.isProduct = false) :
    (∃ axes, ElementwiseRun main run axes) ↔ ∃ a b, run = [a, b] ∧ TakesElementwise main a b := by
  constructor
  · rintro ⟨axes, er⟩
    by_cases htr : main = .transpose
    · subst htr
      obtain ⟨hin, hout, rfl | ⟨rfl, hother⟩⟩ := er.transpose rfl
      · exact ⟨_, _, rfl, by simp [TakesElementwise, hin, hout]⟩
      · exact ⟨_, _, rfl, by simp [TakesElementwise, hin, hout, hother]⟩
    · obtain ⟨rfl, hout, hin⟩ := er.straight htr
      refine ⟨_, _, rfl, ?_⟩
      cases main <;> simp_all [TakesElementwise, Primitive.isProduct]
  · rintro ⟨a, b, rfl, h⟩
    by_cases htr : main = .transpose
    · subst htr
      by_cases hunit : a.strides.in0 = 1
      · simp only [TakesElementwise, hunit, if_true] at h
        exact ⟨⟨a, b, none, none⟩, ⟨rfl, rfl⟩, fun hne => absurd rfl hne,
          fun _ => ⟨hunit, h.2, Or.inl rfl⟩⟩
      · simp only [TakesElementwise, hunit, if_false] at h
        exact ⟨⟨b, a, none, none⟩, ⟨rfl, rfl⟩, fun hne => absurd rfl hne,
          fun _ => ⟨h.1, h.2, Or.inr ⟨rfl, hunit⟩⟩⟩
    · refine ⟨⟨a, b, none, none⟩, ⟨rfl, rfl⟩, fun _ => ⟨rfl, ?_⟩, fun heq => absurd heq htr⟩
      cases main <;> simp_all [TakesElementwise, Primitive.isProduct]

theorem exists_kernelRun_iff {main : Primitive} {run : List Loop} (hmain : main ≠ .none) :
    (∃ axes, KernelRun main run axes) ↔ TakesRun main run := by
  unfold KernelRun
  split
  · rename_i hproduct
    rw [exists_productRun_iff]
    rcases isProduct_iff.1 hproduct with rfl | rfl <;> exact Iff.rfl
  · rename_i hproduct
    rw [Bool.not_eq_true] at hproduct
    rw [exists_elementwiseRun_iff hmain hproduct]
    cases main <;> first | exact Iff.rfl | cases hproduct

theorem exists_canonical_iff {c : Contraction} :
    (∃ shared sequential run axes, c.Canonical shared sequential run axes) ↔ c.WellFormed := by
  constructor
  · rintro ⟨shared, sequential, run, axes, h⟩
    refine ⟨h.regular.dtype, h.regular.main, ?_, h.regular.sizes, h.regular.fits, ?_,
      shared, sequential, run, h.loops, h.shared, h.sequential, h.kernel,
      (exists_kernelRun_iff h.regular.main).1 ⟨axes, h.axes⟩⟩
    · simp only [List.forall_mem_cons, List.not_mem_nil, false_implies, implies_true, and_true]
      exact ⟨maySurround_iff.1 h.regular.first, maySurround_iff.1 h.regular.last⟩
    · intro hproduct l hl
      exact independent_iff_strides.1 (h.regular.independent (isProduct_iff.2 hproduct) l hl)
  · rintro ⟨hdtype, hmain, htouches, hsizes, hspans, hstray, shared, sequential, run, hloops, hshared,
      hsequential, hkernel, hrun⟩
    simp only [List.forall_mem_cons, List.not_mem_nil, false_implies, implies_true,
      and_true] at htouches
    obtain ⟨axes, haxes⟩ := (exists_kernelRun_iff hmain).2 hrun
    refine ⟨shared, sequential, run, axes, ⟨hdtype, hmain, maySurround_iff.2 htouches.1,
      maySurround_iff.2 htouches.2, hsizes, ?_, hspans⟩, hloops, hshared, hsequential, hkernel,
      haxes⟩
    intro hproduct l hl
    exact independent_iff_strides.2 (hstray (isProduct_iff.1 hproduct) l hl)

end Contraction

/-! Failures of the checks. -/

/-- A computation that fails only by refusing a parameter. -/
def OnlyRefuses {α : Type} (x : Except Error α) : Prop :=
  ∀ e, x = .error e → ∃ cause, e = .badParameter cause

namespace OnlyRefuses

variable {α β : Type}

theorem of_ok (a : α) : OnlyRefuses (.ok a) := by
  intro e h
  cases h

theorem of_refuse (cause : Cause) : OnlyRefuses (refuse cause : Except Error α) := by
  intro e h
  cases h
  exact ⟨cause, rfl⟩

theorem of_require (condition : Bool) (cause : Cause) : OnlyRefuses (require condition cause) := by
  unfold require
  split
  · exact of_ok ()
  · exact of_refuse cause

theorem bind {x : Except Error α} {next : α → Except Error β} (hx : OnlyRefuses x)
    (hnext : ∀ a, OnlyRefuses (next a)) : OnlyRefuses (x >>= next) := by
  intro e h
  rcases bind_eq_error_iff.1 h with h | ⟨a, -, h⟩
  · exact hx e h
  · exact hnext a e h

theorem forM {xs : List α} {check : α → Except Error Unit} (h : ∀ x, OnlyRefuses (check x)) :
    OnlyRefuses (xs.forM check) := by
  induction xs with
  | nil => exact of_ok ()
  | cons x xs ih => exact (h x).bind fun _ => ih

theorem foldlM {xs : List α} {step : β → α → Except Error β} (h : ∀ b x, OnlyRefuses (step b x))
    (start : β) : OnlyRefuses (xs.foldlM step start) := by
  induction xs generalizing start with
  | nil => exact of_ok start
  | cons x xs ih => exact (h start x).bind ih

end OnlyRefuses

namespace Plan

open OnlyRefuses

theorem checkTouch_onlyRefuses (main : Primitive) (touch : Touch) (kind : Primitive) :
    OnlyRefuses (checkTouch main touch kind) :=
  (of_require _ _).bind fun _ => of_require _ _

theorem checkShared_onlyRefuses (shared : ℕ) (q : PlacedLoop) : OnlyRefuses (checkShared shared q) := by
  unfold checkShared
  dsimp only
  split
  · exact (of_require _ _).bind fun _ => of_require _ _
  · exact of_ok ()

theorem add_onlyRefuses (f : Found) (q : PlacedLoop) : OnlyRefuses (f.add q) := by
  unfold Found.add
  split
  · split
    · exact of_refuse _
    · exact of_ok _
  · split
    · exact of_refuse _
    · exact of_ok _
  · exact of_ok _
  · exact of_refuse _

theorem reductions_onlyRefuses (main : Primitive) (ks : List PlacedLoop) :
    OnlyRefuses (reductions main ks) := by
  unfold reductions
  split
  · exact of_ok _
  · exact of_ok _
  · exact of_refuse _
  · exact of_refuse _

theorem productLoops_onlyRefuses (main : Primitive) (placed inner : List PlacedLoop) :
    OnlyRefuses (productLoops main placed inner) := by
  refine (OnlyRefuses.foldlM add_onlyRefuses _).bind fun found => ?_
  split
  · refine (reductions_onlyRefuses main found.ks).bind fun ⟨k, batch⟩ => ?_
    dsimp only
    split
    · exact of_refuse _
    · exact (of_require _ _).bind fun _ => (of_require _ _).bind fun _ => of_ok _
  · exact of_refuse _

theorem elementwiseLoops_onlyRefuses (main : Primitive) (inner : List PlacedLoop) :
    OnlyRefuses (elementwiseLoops main inner) := by
  unfold elementwiseLoops
  split
  · split
    · exact (of_require _ _).bind fun _ => of_ok _
    · exact (of_require _ _).bind fun _ => of_ok _
  · exact of_refuse _

theorem spanOf_onlyRefuses (loops : List Loop) (stride : Offsets → ℕ) :
    OnlyRefuses (spanOf loops stride) := by
  unfold spanOf
  split
  · exact of_ok _
  · exact of_refuse _

theorem extentsOf_onlyRefuses (main : Primitive) (loops : List Loop) :
    OnlyRefuses (extentsOf main loops) :=
  (spanOf_onlyRefuses loops _).bind fun _ => (spanOf_onlyRefuses loops _).bind fun _ =>
    (spanOf_onlyRefuses loops _).bind fun _ => of_ok _

theorem ofContraction_onlyRefuses (c : Contraction) : OnlyRefuses (ofContraction c) := by
  refine (of_require _ _).bind fun _ => (of_require _ _).bind fun _ =>
    (checkTouch_onlyRefuses _ _ _).bind fun _ => (checkTouch_onlyRefuses _ _ _).bind fun _ => ?_
  split
  · exact of_refuse _
  · refine (of_require _ _).bind fun _ => (OnlyRefuses.forM (checkShared_onlyRefuses _)).bind fun _ => ?_
    have hrest : OnlyRefuses (extentsOf c.main c.loops) := extentsOf_onlyRefuses c.main c.loops
    dsimp only
    split
    · exact (productLoops_onlyRefuses _ _ _).bind fun _ => hrest.bind fun _ => of_ok _
    · exact (elementwiseLoops_onlyRefuses _ _).bind fun _ => hrest.bind fun _ => of_ok _

theorem exists_plan_iff {c : Contraction} : (∃ p, ofContraction c = .ok p) ↔ c.WellFormed := by
  rw [← Contraction.exists_canonical_iff]
  constructor
  · rintro ⟨p, hp⟩
    obtain ⟨shared, sequential, run, h⟩ := (derived_of_ofContraction hp).canonical
    exact ⟨shared, sequential, run, _, h⟩
  · rintro ⟨shared, sequential, run, axes, h⟩
    obtain ⟨p, hp, -, -⟩ := h.accepted
    exact ⟨p, hp⟩

/-- A plan is derived exactly of the well-formed contractions; any other one is refused for one of its
parameters. -/
theorem accepted_iff_wellFormed (c : Contraction) :
    ((∃ p, ofContraction c = .ok p) ↔ c.WellFormed) ∧
      ∀ e, ofContraction c = .error e → ∃ cause, e = .badParameter cause :=
  ⟨exists_plan_iff, ofContraction_onlyRefuses c⟩

end Plan

end TensorKernels
