import TensorKernels.Nest.Walk
import TensorKernels.Proofs.Nest.Plan

/-!
The walk of a plan visits what its contraction addresses. Since the reach of all loops fits a count,
no sum on the way overflows, and the visits can be listed in exact numbers. Every visit stands for
the block of elements that the kernel handles from its base on; all blocks together are, with
multiplicities, the offsets of the whole nest.
-/

namespace TensorKernels

open Nest

namespace Walk

def exactVisits : List Loop → Visit → List Visit
  | [], v => [v]
  | l :: inner, v => (List.range l.size).flatMap fun i =>
      exactVisits inner ⟨v.base + i • l.strides, v.first && l.opens i, v.last && l.closes i⟩

theorem visits_eq_ok {loops : List Loop} {v : Visit} (h : (v.base + reach loops).Fits) :
    visits loops v = .ok (exactVisits loops v) := by
  induction loops generalizing v with
  | nil => rfl
  | cons l inner ih =>
    have hstep : ∀ i ∈ List.range l.size, (v.base + i • l.strides + reach inner).Fits := by
      intro i hi
      rw [List.mem_range] at hi
      obtain ⟨rest, hrest⟩ : ∃ rest, l.size - 1 = i + rest := ⟨l.size - 1 - i, by omega⟩
      rw [reach_cons, hrest, add_nsmul] at h
      have hsum : v.base + (i • l.strides + rest • l.strides + reach inner) =
          v.base + i • l.strides + reach inner + rest • l.strides := by abel
      exact (hsum ▸ h).of_add
    have hparts : (List.range l.size).mapM (fun i => do
          let base ← v.base.advance i l.strides
          visits inner ⟨base, v.first && l.opens i, v.last && l.closes i⟩) =
        .ok ((List.range l.size).map fun i => exactVisits inner
          ⟨v.base + i • l.strides, v.first && l.opens i, v.last && l.closes i⟩) := by
      apply mapM_eq_ok
      intro i hi
      rw [Offsets.advance_eq_ok (hstep i hi).of_add]
      exact ih (hstep i hi)
    rw [visits, hparts]
    rfl

theorem map_base_exactVisits (loops : List Loop) (v : Visit) :
    (exactVisits loops v).map (·.base) = (offsets loops).map (v.base + ·) := by
  induction loops generalizing v with
  | nil => simp [exactVisits]
  | cons l inner ih =>
    simp only [exactVisits, List.map_flatMap, ih, offsets_cons, List.map_map]
    simp only [Function.comp_def, add_assoc]

end Walk

namespace Plan

/-- The operand elements that a product kernel combines from a base on. -/
def productBlock (p : Plan) (base : Offsets) : List Offsets :=
  (List.range (KernelLoops.extent p.kernelLoops.batch)).flatMap fun b =>
    (List.range (KernelLoops.extent p.kernelLoops.k)).flatMap fun l =>
      (List.range p.kernelLoops.m.loop.size).flatMap fun i =>
        (List.range p.kernelLoops.n.loop.size).map fun j =>
          ⟨base.in0 + i + l * p.strides.lda + b * p.strides.batchA,
            base.in1 + l + j * p.strides.ldb + b * p.strides.batchB,
            base.out + i + j * p.strides.ldc⟩

/-- Source and target of an element that a copy or a clamp keeps in place. -/
def straightCell (p : Plan) (base : Offsets) (i j : ℕ) : ℕ × ℕ :=
  (base.in0 + i + j * p.strides.lda, base.out + i + j * p.strides.ldc)

def transposedCell (p : Plan) (base : Offsets) (i j : ℕ) : ℕ × ℕ :=
  (base.in0 + i + j * p.strides.lda, base.out + j + i * p.strides.ldc)

def filledCell (p : Plan) (base : Offsets) (i j : ℕ) : ℕ :=
  base.out + i + j * p.strides.ldc

def cells {α : Type} (p : Plan) (cell : ℕ → ℕ → α) : List α :=
  (List.range p.kernelLoops.m.loop.size).flatMap fun i =>
    (List.range p.kernelLoops.n.loop.size).map fun j => cell i j

def spot (ids : KernelLoops) (base : Offsets) (i j : ℕ) : Offsets :=
  base + (i • ids.m.loop.strides + j • ids.n.loop.strides)

theorem productBlock_perm {c : Contraction} {p : Plan} (d : Derived c p)
    (hproduct : c.main.isProduct = true) (base : Offsets) :
    (p.productBlock base).Perm ((offsets (c.loops.drop p.kernelStart)).map (base + ·)) := by
  obtain ⟨k, pr⟩ := d.run.product hproduct
  obtain ⟨hm1, hn0, hks⟩ := pr.stray_strides fun l hl =>
    d.independent hproduct l (List.mem_of_mem_drop hl)
  obtain ⟨hm0, hm2⟩ := pr.rowStrides
  have hk1 := pr.reductionStride
  have hk2 := hks k (by simp)
  have hperm := pr.perm
  obtain ⟨q, hq, rfl⟩ := Option.map_eq_some_iff.1 pr.reduction
  refine List.Perm.trans ?_ ((offsets_perm hperm).map _)
  rw [productBlock, d.strides_eq, KernelAxes.strides, pr.reduction, hq]
  dsimp only [KernelLoops.axes] at hm0 hm1 hm2 hn0 hks ⊢
  apply List.Perm.of_eq
  cases hb : p.kernelLoops.batch with
  | none =>
    simp only [Option.map_none, Option.toList_none, List.nil_append, List.cons_append,
      map_offsets_cons _ q.loop, map_offsets_two, KernelLoops.extent, Option.map_some,
      Option.getD_none, Option.getD_some, List.range_one, List.flatMap_cons, List.flatMap_nil,
      List.append_nil]
    congr! 5 with l i
    funext j
    simp only [Offsets.add_def, Offsets.smul_def, hm0, hm1, hm2, hn0, hk1, hk2]
    congr 1 <;> ring
  | some b =>
    have hb2 := hks b.loop (by simp [hb])
    simp only [Option.map_some, Option.toList_some, List.nil_append, List.cons_append,
      map_offsets_cons _ b.loop, map_offsets_cons _ q.loop, map_offsets_two, KernelLoops.extent,
      Option.getD_some]
    congr! 7 with b l i
    funext j
    simp only [Offsets.add_def, Offsets.smul_def, hm0, hm1, hm2, hn0, hk1, hk2, hb2]
    congr 1 <;> ring

theorem cells_perm {α : Type} {c : Contraction} {p : Plan} (d : Derived c p)
    (helementwise : c.main.isProduct = false) (base : Offsets) (view : Offsets → α) :
    (p.cells fun i j => view (spot p.kernelLoops base i j)).Perm
      ((offsets (c.loops.drop p.kernelStart)).map fun o => view (base + o)) := by
  have hperm := (d.run.elementwise helementwise).perm
  refine List.Perm.trans ?_ ((offsets_perm hperm).map _).symm
  rw [map_offsets_two]
  exact List.Perm.refl _

section Spot

variable {c : Contraction} {p : Plan} (d : Derived c p) (base : Offsets) (i j : ℕ)
include d

theorem Derived.spot_in0 (helementwise : c.main.isProduct = false) (hzero : c.main ≠ .zero) :
    (spot p.kernelLoops base i j).in0 = base.in0 + i + j * p.strides.lda := by
  have er := d.run.elementwise helementwise
  have hunit : p.kernelLoops.m.loop.strides.in0 = 1 := er.stride_in0 hzero
  have hlda : p.strides.lda = p.kernelLoops.n.loop.strides.in0 := by
    rw [d.strides_eq, er.strides_eq]
    rfl
  rw [spot, hlda, Offsets.in0_add, Offsets.in0_add, Offsets.in0_smul, Offsets.in0_smul, hunit,
    Nat.mul_one, Nat.add_assoc]

theorem Derived.filledCell_eq (helementwise : c.main.isProduct = false)
    (hmain : c.main ≠ .transpose) : p.filledCell base i j = (spot p.kernelLoops base i j).out := by
  have er := d.run.elementwise helementwise
  have hunit : p.kernelLoops.m.loop.strides.out = 1 := (er.straight hmain).2.1
  have hldc : p.strides.ldc = p.kernelLoops.n.loop.strides.out := by
    rw [d.strides_eq, er.strides_eq, if_neg hmain]
    rfl
  rw [filledCell, spot, hldc, Offsets.out_add, Offsets.out_add, Offsets.out_smul, Offsets.out_smul,
    hunit, Nat.mul_one, Nat.add_assoc]

theorem Derived.straightCell_eq (hmain : c.main = .copy ∨ c.main = .relu) :
    p.straightCell base i j =
      ((spot p.kernelLoops base i j).in0, (spot p.kernelLoops base i j).out) := by
  have helementwise : c.main.isProduct = false := by rcases hmain with h | h <;> rw [h] <;> rfl
  rw [d.spot_in0 base i j helementwise (by rcases hmain with h | h <;> rw [h] <;> decide),
    ← d.filledCell_eq base i j helementwise (by rcases hmain with h | h <;> rw [h] <;> decide)]
  rfl

theorem Derived.transposedCell_eq (hmain : c.main = .transpose) :
    p.transposedCell base i j =
      ((spot p.kernelLoops base i j).in0, (spot p.kernelLoops base i j).out) := by
  have helementwise : c.main.isProduct = false := by rw [hmain]; rfl
  have er := d.run.elementwise helementwise
  have hunit : p.kernelLoops.n.loop.strides.out = 1 := (er.transpose hmain).2.1
  have hldc : p.strides.ldc = p.kernelLoops.m.loop.strides.out := by
    rw [d.strides_eq, er.strides_eq, if_pos hmain]
    rfl
  rw [d.spot_in0 base i j helementwise (by rw [hmain]; decide), transposedCell, spot, hldc,
    Offsets.out_add, Offsets.out_add, Offsets.out_smul, Offsets.out_smul, hunit, Nat.mul_one,
    Nat.add_comm (i * _) j, ← Nat.add_assoc]

end Spot

theorem Derived.fits {c : Contraction} {p : Plan} (d : Derived c p) : (reach c.loops).Fits :=
  d.extents_eq.2.of_add

theorem Derived.outer_append_inner {c : Contraction} {p : Plan} (d : Derived c p) :
    p.outerLoops ++ c.loops.drop p.kernelStart = c.loops := by
  rw [outerLoops, d.contraction, List.take_append_drop]

theorem Derived.walk_eq {c : Contraction} {p : Plan} (d : Derived c p) :
    p.walk = .ok (Walk.exactVisits p.outerLoops ⟨.zero, true, true⟩) := by
  apply Walk.visits_eq_ok
  have h := d.fits
  rw [← d.outer_append_inner, reach_append] at h
  have hzero : Offsets.zero + reach p.outerLoops = reach p.outerLoops := zero_add _
  rw [hzero]
  exact h.of_add

/-- Blocks that are, seen through `view`, what the inner loops address from each base add up to what
all loops address. -/
theorem blocks_perm {α : Type} (outer inner : List Loop) (first last : Bool) (view : Offsets → α)
    (block : Offsets → List α)
    (hblock : ∀ base, (block base).Perm ((offsets inner).map fun o => view (base + o))) :
    ((Walk.exactVisits outer ⟨.zero, first, last⟩).flatMap fun v => block v.base).Perm
      ((offsets (outer ++ inner)).map view) := by
  have hbases := Walk.map_base_exactVisits outer ⟨.zero, first, last⟩
  have hzero (o : Offsets) : Offsets.zero + o = o := zero_add o
  simp only [hzero, List.map_id'] at hbases
  have hflat : ((Walk.exactVisits outer ⟨.zero, first, last⟩).flatMap fun v => block v.base) =
      (offsets outer).flatMap block := by
    rw [← hbases, List.flatMap_map]
  rw [hflat, offsets_append, List.map_flatMap]
  refine List.Perm.flatMap_left _ fun o _ => ?_
  rw [List.map_map]
  exact hblock o

theorem Derived.product_blocks {c : Contraction} {p : Plan} (d : Derived c p)
    (hproduct : c.main.isProduct = true) :
    ((Walk.exactVisits p.outerLoops ⟨.zero, true, true⟩).flatMap
      fun v => p.productBlock v.base).Perm (offsets c.loops) := by
  have h := blocks_perm p.outerLoops (c.loops.drop p.kernelStart) true true id p.productBlock
    (fun base => productBlock_perm d hproduct base)
  rwa [List.map_id, d.outer_append_inner] at h

theorem Derived.elementwise_blocks {α : Type} {c : Contraction} {p : Plan} (d : Derived c p)
    (helementwise : c.main.isProduct = false) (view : Offsets → α) (cell : Offsets → ℕ → ℕ → α)
    (hcell : ∀ base i j, cell base i j = view (spot p.kernelLoops base i j)) :
    ((Walk.exactVisits p.outerLoops ⟨.zero, true, true⟩).flatMap
      fun v => p.cells (cell v.base)).Perm ((offsets c.loops).map view) := by
  have h := blocks_perm p.outerLoops (c.loops.drop p.kernelStart) true true view
    (fun base => p.cells (cell base)) (fun base => by
      have hcells := cells_perm d helementwise base view
      simpa only [← hcell] using hcells)
  rwa [d.outer_append_inner] at h

def foundLoops (p : Plan) : List PlacedLoop := p.kernelLoops.toList

theorem Derived.getElem?_foundLoops {c : Contraction} {p : Plan} (d : Derived c p) :
    ∀ q ∈ p.foundLoops, c.loops[q.index]? = some q.loop := fun _ hq =>
  getElem?_of_mem_placedLoops (d.taken.2.2.1 hq)

/-- Walking a plan visits blocks which together are, with multiplicities, the elements that the
contraction addresses: the combined elements of a product, the source and target of a copy, a clamp
or a transpose, the targets of a fill with zero. -/
theorem walk_blocks_eq_addressed {c : Contraction} {p : Plan} (h : ofContraction c = .ok p) :
    (∀ q ∈ p.foundLoops, c.loops[q.index]? = some q.loop) ∧
    ∃ visits, p.walk = .ok visits ∧
      (c.main = .gemm ∨ c.main = .brgemm →
        ((visits.flatMap fun v => p.productBlock v.base : List Offsets) : Multiset Offsets) =
          addressed c.loops) ∧
      (c.main = .copy ∨ c.main = .relu →
        ((visits.flatMap fun v => p.cells (p.straightCell v.base) : List (ℕ × ℕ)) :
            Multiset (ℕ × ℕ)) =
          (addressed c.loops).map fun o => (o.in0, o.out)) ∧
      (c.main = .transpose →
        ((visits.flatMap fun v => p.cells (p.transposedCell v.base) : List (ℕ × ℕ)) :
            Multiset (ℕ × ℕ)) =
          (addressed c.loops).map fun o => (o.in0, o.out)) ∧
      (c.main = .zero →
        ((visits.flatMap fun v => p.cells (p.filledCell v.base) : List ℕ) : Multiset ℕ) =
          (addressed c.loops).map (·.out)) := by
  have d := derived_of_ofContraction h
  refine ⟨d.getElem?_foundLoops, _, d.walk_eq, ?_, ?_, ?_, ?_⟩
  · intro hmain
    have hproduct : c.main.isProduct = true := by rcases hmain with hm | hm <;> rw [hm] <;> rfl
    exact Multiset.coe_eq_coe.2 (d.product_blocks hproduct)
  · intro hmain
    have helementwise : c.main.isProduct = false := by
      rcases hmain with hm | hm <;> rw [hm] <;> rfl
    exact Multiset.coe_eq_coe.2 (d.elementwise_blocks helementwise _ _
      fun base i j => d.straightCell_eq base i j hmain)
  · intro hmain
    have helementwise : c.main.isProduct = false := by rw [hmain]; rfl
    exact Multiset.coe_eq_coe.2 (d.elementwise_blocks helementwise _ _
      fun base i j => d.transposedCell_eq base i j hmain)
  · intro hmain
    have helementwise : c.main.isProduct = false := by rw [hmain]; rfl
    exact Multiset.coe_eq_coe.2 (d.elementwise_blocks helementwise _ _
      fun base i j => d.filledCell_eq base i j helementwise (by rw [hmain]; decide))

def batchedProduct : Contraction :=
  { main := .brgemm
    first := .zero
    loops := [⟨.n, .shared, 2, ⟨0, 96, 128⟩⟩, ⟨.k, .seq, 3, ⟨768, 48, 0⟩⟩, ⟨.k, .prim, 2, ⟨384, 24, 0⟩⟩,
      ⟨.n, .prim, 4, ⟨0, 144, 32⟩⟩, ⟨.k, .prim, 8, ⟨16, 1, 0⟩⟩, ⟨.m, .prim, 16, ⟨1, 0, 1⟩⟩] }

theorem batchedProduct_walk_blocks :
    ∃ p visits, ofContraction batchedProduct = .ok p ∧ p.walk = .ok visits ∧
      ((visits.flatMap fun v => p.productBlock v.base : List Offsets) : Multiset Offsets) =
        addressed batchedProduct.loops := by
  obtain ⟨p, hp⟩ : ∃ p, ofContraction batchedProduct = .ok p := by
    refine ⟨?_, ?_⟩
    rotate_left
    · cbv
      rfl
  obtain ⟨-, visits, hwalk, hblocks, -⟩ := walk_blocks_eq_addressed hp
  exact ⟨p, visits, hp, hwalk, hblocks (Or.inr rfl)⟩

end Plan

end TensorKernels
